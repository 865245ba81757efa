import DigitalCip.Resumable.Calls
import Mathlib.Order.Basic

/-!
# Programs in lockstep

Two runs of a program need not make the same calls: an id that the outside has
generated may differ, and so does every call that mentions it.  A `Matching` says
which calls and which replies count as the same; it may depend on what has been
matched so far, which only grows.  `M.Lockstep p p' Q x` says that from `x` on `p`
and `p'` make matching calls as long as they get matching replies, and end in
results that `Q` relates or in the same exception.
-/

namespace Resumable
variable {X C : Type} {Ret : C → Type} {ε α β : Type} [Preorder X]

/-- Which calls and which replies of two runs count as the same. -/
structure Matching (X C : Type) (Ret : C → Type) [Preorder X] where
  calls : X → C → C → Prop
  replies : X → (c c' : C) → Ret c → Ret c' → Prop
  mono : ∀ {x y c c'}, x ≤ y → calls x c c' → calls y c c'

namespace Matching

/-- The calls match, and the first satisfies `P`. -/
def restrict (M : Matching X C Ret) (P : C → Prop) : Matching X C Ret where
  calls x c c' := M.calls x c c' ∧ P c
  replies := M.replies
  mono hxy h := ⟨M.mono hxy h.1, h.2⟩

/-- Two programs that match call by call. -/
def Lockstep (M : Matching X C Ret) :
    Prog C Ret ε α → Prog C Ret ε α → (X → α → α → Prop) → X → Prop
  | .ret a, .ret a', Q, x => Q x a a'
  | .raise e, .raise e', _, _ => e = e'
  | .call c k, .call c' k', Q, x => M.calls x c c' ∧
      ∀ y, x ≤ y → ∀ r r', M.replies y c c' r r' → M.Lockstep (k r) (k' r') Q y
  | _, _, _, _ => False

variable {M : Matching X C Ret} {p p' : Prog C Ret ε α} {Q Q' : X → α → α → Prop} {x y : X}

/-- What has been matched stays matched. -/
theorem Lockstep.mono (h : M.Lockstep p p' Q x) (hxy : x ≤ y)
    (hQ : ∀ {x y a a'}, x ≤ y → Q x a a' → Q y a a') : M.Lockstep p p' Q y := by
  cases p with
  | ret a =>
    cases p' with
    | ret a' => exact hQ hxy h
    | raise | call => exact h.elim
  | raise e =>
    cases p' with
    | raise e' => exact h
    | ret | call => exact h.elim
  | call c k =>
    cases p' with
    | call c' k' => exact ⟨M.mono hxy h.1, fun z hyz => h.2 z (le_trans hxy hyz)⟩
    | ret | raise => exact h.elim

/-- Sequencing. -/
theorem Lockstep.bind {f f' : α → Prog C Ret ε β} {Q : X → β → β → Prop}
    (h : M.Lockstep p p' (fun y a a' => M.Lockstep (f a) (f' a') Q y) x) :
    M.Lockstep (p >>= f) (p' >>= f') Q x := by
  induction p generalizing p' x with
  | ret a =>
    cases p' with
    | ret a' => exact h
    | raise | call => exact h.elim
  | raise e =>
    cases p' with
    | raise e' => exact h
    | ret | call => exact h.elim
  | call c k ih =>
    cases p' with
    | call c' k' => exact ⟨h.1, fun y hxy r r' hr => ih r (h.2 y hxy r r' hr)⟩
    | ret | raise => exact h.elim

/-- Handling exceptions. -/
theorem Lockstep.tryCatch {f f' : ε → Prog C Ret ε α} (h : M.Lockstep p p' Q x)
    (hf : ∀ y, x ≤ y → ∀ e, M.Lockstep (f e) (f' e) Q y) :
    M.Lockstep (MonadExcept.tryCatch p f) (MonadExcept.tryCatch p' f') Q x := by
  induction p generalizing p' x with
  | ret a =>
    cases p' with
    | ret a' => exact h
    | raise | call => exact h.elim
  | raise e =>
    cases p' with
    | raise e' =>
      obtain rfl : e = e' := h
      exact hf x (le_refl x) e
    | ret | call => exact h.elim
  | call c k ih =>
    cases p' with
    | call c' k' =>
      refine ⟨h.1, fun y hxy r r' hr => ih r (h.2 y hxy r r' hr) fun z hyz => ?_⟩
      exact hf z (le_trans hxy hyz)
    | ret | raise => exact h.elim

/-- Consequence. -/
theorem Lockstep.imp (h : M.Lockstep p p' Q x) (hQ : ∀ y, x ≤ y → ∀ a a', Q y a a' → Q' y a a') :
    M.Lockstep p p' Q' x := by
  induction p generalizing p' x with
  | ret a =>
    cases p' with
    | ret a' => exact hQ x (le_refl x) a a' h
    | raise | call => exact h.elim
  | raise e =>
    cases p' with
    | raise e' => exact h
    | ret | call => exact h.elim
  | call c k ih =>
    cases p' with
    | call c' k' =>
      refine ⟨h.1, fun y hxy r r' hr => ih r (h.2 y hxy r r' hr) fun z hyz => ?_⟩
      exact hQ z (le_trans hxy hyz)
    | ret | raise => exact h.elim

/-- **A program is in lockstep with itself** when each of its calls matches itself and
matching replies to it are equal. -/
theorem Lockstep.of_calls {P : C → Prop} {p : Prog C Ret ε α} (hp : p.Calls P)
    (hcalls : ∀ c x, P c → M.calls x c c)
    (hreplies : ∀ c x r r', P c → M.replies x c c r r' → r = r') (hQ : ∀ x a, Q x a a) :
    M.Lockstep p p Q x := by
  induction p generalizing x with
  | ret a => exact hQ x a
  | raise e => exact rfl
  | call c k ih =>
    refine ⟨hcalls c x hp.1, fun y _ r r' hr => ?_⟩
    obtain rfl := hreplies c y r r' hp.1 hr
    exact ih r (hp.2 r)

/-- What the calls of the first program satisfy. -/
theorem Lockstep.restrict {P : C → Prop} (h : M.Lockstep p p' Q x) (hp : p.Calls P) :
    (M.restrict P).Lockstep p p' Q x := by
  induction p generalizing p' x with
  | ret a =>
    cases p' with
    | ret a' => exact h
    | raise | call => exact h.elim
  | raise e =>
    cases p' with
    | raise e' => exact h
    | ret | call => exact h.elim
  | call c k ih =>
    cases p' with
    | call c' k' => exact ⟨⟨h.1, hp.1⟩, fun y hxy r r' hr => ih r (h.2 y hxy r r' hr) (hp.2 r)⟩
    | ret | raise => exact h.elim

end Matching
end Resumable
