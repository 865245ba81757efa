import DigitalCip.Resumable.Outcome

/-!
# A program and what it keeps account of

What one program does to a small state of its own is a sequential matter, however
many others run beside it.  An `Automaton` says how each call and its reply move
such a state and what the program owes when it makes the call; `M.Accepts p Q E a`
says that `p`, started in `a`, pays what it owes at every call and ends in `Q` if it
returns and in `E` if it raises.  The client shows that the calls of the program
move the abstraction of the real state as the automaton says, and that nobody
else moves it.
-/

namespace Resumable
variable {A C : Type} {Ret : C → Type} {ε α β : Type}

/-- How calls move a state, and what is owed at a call. -/
structure Automaton (A C : Type) (Ret : C → Type) where
  moves : (c : C) → A → Ret c → A → Prop
  owed : A → C → Prop

namespace Automaton

/-- The states from which the program pays what it owes and ends as it should. -/
def Accepts (M : Automaton A C Ret) :
    Prog C Ret ε α → (α → A → Prop) → (ε → A → Prop) → A → Prop
  | .ret x, Q, _ => Q x
  | .raise e, _, E => E e
  | .call c k, Q, E => fun a => M.owed a c ∧ ∀ r a', M.moves c a r a' → M.Accepts (k r) Q E a'

variable {M : Automaton A C Ret} {Q Q' : α → A → Prop} {E E' : ε → A → Prop} {a : A}

@[simp] theorem accepts_pure (x : α) :
    M.Accepts (pure x : Prog C Ret ε α) Q E a = Q x a := rfl

@[simp] theorem accepts_throw (e : ε) :
    M.Accepts (throw e : Prog C Ret ε α) Q E a = E e a := rfl

/-- Sequencing. -/
@[simp] theorem accepts_bind (p : Prog C Ret ε α) (f : α → Prog C Ret ε β) {Q : β → A → Prop} :
    M.Accepts (p >>= f) Q E a = M.Accepts p (fun x => M.Accepts (f x) Q E) E a := by
  induction p generalizing a with
  | ret x => rfl
  | raise e => rfl
  | call c k ih =>
    show (M.owed a c ∧ ∀ r a', _ → M.Accepts (k r >>= f) Q E a') = _
    simp only [ih, Accepts]

/-- Handling exceptions. -/
@[simp] theorem accepts_tryCatch (p : Prog C Ret ε α) (h : ε → Prog C Ret ε α) :
    M.Accepts (tryCatch p h) Q E a = M.Accepts p Q (fun e => M.Accepts (h e) Q E) a := by
  induction p generalizing a with
  | ret x => rfl
  | raise e => rfl
  | call c k ih =>
    show (M.owed a c ∧ ∀ r a', _ → M.Accepts (tryCatch (k r) h) Q E a') = _
    simp only [ih, Accepts]

/-- Consequence. -/
theorem Accepts.mono {p : Prog C Ret ε α} (h : M.Accepts p Q E a) (hQ : ∀ x a, Q x a → Q' x a)
    (hE : ∀ e a, E e a → E' e a) : M.Accepts p Q' E' a := by
  induction p generalizing a with
  | ret x => exact hQ x a h
  | raise e => exact hE e a h
  | call c k ih => exact ⟨h.1, fun r a' hm => ih r (h.2 r a' hm)⟩

/-- What raises leaves its handler a state to go on from. -/
theorem Accepts.tryCatch {p : Prog C Ret ε α} {f : ε → Prog C Ret ε α} {F : ε → A → Prop}
    (h : M.Accepts p Q F a) (hf : ∀ e a, F e a → M.Accepts (f e) Q E a) : M.Accepts (tryCatch p f) Q E a := by
  rw [accepts_tryCatch]
  exact h.mono (fun _ _ h => h) hf

/-- **One call.** -/
theorem accepts_perform {c : C} {k : Ret c → Prog C Ret ε α} (howed : M.owed a c)
    (hk : ∀ r a', M.moves c a r a' → M.Accepts (k r) Q E a') :
    M.Accepts (Prog.perform c >>= k) Q E a :=
  ⟨howed, hk⟩

/-- What is owed at every call holds wherever the program is cut off. -/
theorem Accepts.of_passes {I : A → Prop} {p : Prog C Ret ε α} {a' : A} (h : M.Accepts p Q E a)
    (hp : Passes M.moves p a a') (howed : ∀ a c, M.owed a c → I a) (hQ : ∀ x a, Q x a → I a)
    (hE : ∀ e a, E e a → I a) : I a' := by
  induction hp with
  | @here p a =>
    cases p with
    | ret x => exact hQ x a h
    | raise e => exact hE e a h
    | call c k => exact howed a c h.1
  | call hx _ ih => exact ih (h.2 _ _ hx)

end Automaton
end Resumable
