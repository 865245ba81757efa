import DigitalCip.Resumable.Calls

/-!
# Programs that run alone

`Ends exec p w o w'` says that `p`, with nobody else around, runs from `w` to its
end, with the result or the exception `o`, and leaves `w'`.  `Passes exec p w w'`
says that it gets as far as `w'`: what is left when `p` is cut off at some point.
-/

namespace Resumable
variable {W C : Type} {Ret : C → Type} {ε α β : Type}

/-- A program runs to its end undisturbed. -/
inductive Ends (exec : (c : C) → W → Ret c → W → Prop) :
    Prog C Ret ε α → W → Except ε α → W → Prop where
  | ret {a : α} {w : W} : Ends exec (.ret a) w (.ok a) w
  | raise {e : ε} {w : W} : Ends exec (.raise e) w (.error e) w
  | call {c : C} {k : Ret c → Prog C Ret ε α} {r : Ret c} {o : Except ε α} {w w₁ w₂ : W} :
      exec c w r w₁ → Ends exec (k r) w₁ o w₂ → Ends exec (.call c k) w o w₂

namespace Ends
variable {exec : (c : C) → W → Ret c → W → Prop} {w w' : W}

/-- The first call of a program that ends. -/
theorem of_call {c : C} {k : Ret c → Prog C Ret ε α} {o : Except ε α}
    (h : Ends exec (.call c k) w o w') :
    ∃ r w₁, exec c w r w₁ ∧ Ends exec (k r) w₁ o w' := by
  cases h with
  | call hx hk => exact ⟨_, _, hx, hk⟩

theorem of_ret {a : α} {o : Except ε α} (h : Ends exec (.ret a : Prog C Ret ε α) w o w') :
    o = .ok a ∧ w' = w := by
  cases h
  exact ⟨rfl, rfl⟩

theorem of_raise {e : ε} {o : Except ε α} (h : Ends exec (.raise e : Prog C Ret ε α) w o w') :
    o = .error e ∧ w' = w := by
  cases h
  exact ⟨rfl, rfl⟩

/-- **Sequencing**: the first program raises, or it returns and the second runs. -/
theorem of_bind {p : Prog C Ret ε α} {f : α → Prog C Ret ε β} {o : Except ε β}
    (h : Ends exec (p >>= f) w o w') :
    (∃ e, o = .error e ∧ Ends exec p w (.error e) w') ∨
      ∃ a w₁, Ends exec p w (.ok a) w₁ ∧ Ends exec (f a) w₁ o w' := by
  induction p generalizing w with
  | ret a => exact Or.inr ⟨a, w, .ret, h⟩
  | raise e =>
    obtain ⟨rfl, rfl⟩ := h.of_raise
    exact Or.inl ⟨e, rfl, .raise⟩
  | call c k ih =>
    obtain ⟨r, w₁, hx, hk⟩ := h.of_call
    rcases ih r hk with ⟨e, rfl, hp⟩ | ⟨a, w₂, hp, hf⟩
    · exact Or.inl ⟨e, rfl, .call hx hp⟩
    · exact Or.inr ⟨a, w₂, .call hx hp, hf⟩

/-- A program whose calls are always answered runs to its end. -/
theorem exists_of_calls {P : C → Prop} {p : Prog C Ret ε α} (hp : p.Calls P)
    (hexec : ∀ c w, P c → ∃ r w', exec c w r w') (w : W) : ∃ o w', Ends exec p w o w' := by
  induction p generalizing w with
  | ret a => exact ⟨_, _, .ret⟩
  | raise e => exact ⟨_, _, .raise⟩
  | call c k ih =>
    obtain ⟨r, w₁, hx⟩ := hexec c w hp.1
    obtain ⟨o, w', hk⟩ := ih r (hp.2 r) w₁
    exact ⟨o, w', .call hx hk⟩

end Ends

/-- A program runs undisturbed as far as some world. -/
inductive Passes (exec : (c : C) → W → Ret c → W → Prop) : Prog C Ret ε α → W → W → Prop where
  | here {p : Prog C Ret ε α} {w : W} : Passes exec p w w
  | call {c : C} {k : Ret c → Prog C Ret ε α} {r : Ret c} {w w₁ w₂ : W} :
      exec c w r w₁ → Passes exec (k r) w₁ w₂ → Passes exec (.call c k) w w₂

namespace Passes
variable {exec : (c : C) → W → Ret c → W → Prop} {w w₁ w' : W}

/-- One call, and then some more. -/
theorem perform {c : C} {k : Ret c → Prog C Ret ε α} {r : Ret c} (hx : exec c w r w₁)
    (hk : Passes exec (k r) w₁ w') : Passes exec (Prog.perform c >>= k) w w' :=
  .call hx hk

/-- A program that goes on later. -/
theorem bind {p : Prog C Ret ε α} {f : α → Prog C Ret ε β} (h : Passes exec p w w') :
    Passes exec (p >>= f) w w' := by
  induction h with
  | here => exact .here
  | call hx _ ih => exact .call hx ih

/-- A program whose exceptions are handled. -/
theorem tryCatch {p : Prog C Ret ε α} {h : ε → Prog C Ret ε α} (hp : Passes exec p w w') :
    Passes exec (MonadExcept.tryCatch p h) w w' := by
  induction hp with
  | here => exact .here
  | call hx _ ih => exact .call hx ih

/-- A program that has raised goes on in the handler. -/
theorem of_raise {p : Prog C Ret ε α} {h : ε → Prog C Ret ε α} {e : ε}
    (hp : Ends exec p w (.error e) w₁) (hh : Passes exec (h e) w₁ w') :
    Passes exec (MonadExcept.tryCatch p h) w w' := by
  induction p generalizing w with
  | ret a => cases hp.of_ret.1
  | raise e' =>
    obtain ⟨he, rfl⟩ := hp.of_raise
    obtain rfl := Except.error.inj he
    exact hh
  | call c k ih =>
    obtain ⟨r, w₂, hx, hk⟩ := hp.of_call
    exact .call hx (ih r hk)

end Passes

/-! ## Running a program -/

section Feed
variable {Ans : Type} (exec : (c : C) → Ans → W → Option (Ret c × W))

/-- What is left of a program, and the world, after its next calls have been
answered one after the other. -/
def feed : List Ans → Prog C Ret ε α → W → Option (Prog C Ret ε α × W)
  | [], p, w => some (p, w)
  | a :: as, .call c k, w => (exec c a w).bind fun r => feed as (k r.1) r.2
  | _ :: _, _, _ => none

/-- The value of a program that has returned. -/
def Prog.value : Prog C Ret ε α → Option α
  | .ret a => some a
  | _ => none

theorem Prog.eq_ret_of_value {p : Prog C Ret ε α} {a : α} (h : p.value = some a) : p = .ret a := by
  cases p with
  | ret b => exact congrArg _ (Option.some.inj h)
  | raise | call => cases h

variable {exec} {as : List Ans} {p p' : Prog C Ret ε α} {w w' : W}

/-- It gets that far. -/
theorem Passes.of_feed (h : feed exec as p w = some (p', w')) :
    Passes (fun c w r w' => ∃ a, exec c a w = some (r, w')) p w w' := by
  induction as generalizing p w with
  | nil =>
    obtain ⟨rfl, rfl⟩ := Prod.mk.inj (Option.some.inj h)
    exact .here
  | cons a as ih =>
    cases p with
    | ret | raise => cases h
    | call c k =>
      obtain ⟨⟨r, w₁⟩, hx, hk⟩ := Option.bind_eq_some_iff.mp h
      exact .call ⟨a, hx⟩ (ih hk)

/-- A program of which only its result is left has ended. -/
theorem Ends.of_feed {x : α} (h : feed exec as p w = some (p', w')) (hx : p'.value = some x) :
    Ends (fun c w r w' => ∃ a, exec c a w = some (r, w')) p w (.ok x) w' := by
  induction as generalizing p w with
  | nil =>
    obtain ⟨rfl, rfl⟩ := Prod.mk.inj (Option.some.inj h)
    obtain rfl := Prog.eq_ret_of_value hx
    exact .ret
  | cons a as ih =>
    cases p with
    | ret | raise => cases h
    | call c k =>
      obtain ⟨⟨r, w₁⟩, hx, hk⟩ := Option.bind_eq_some_iff.mp h
      exact .call ⟨a, hx⟩ (ih hk)

end Feed

end Resumable
