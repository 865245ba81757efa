import DigitalCip.Resumable.Replay
import DigitalCip.World

/-!
# Executions that are cut off and start again

The calls of a sequence of executions that handle one message.  Between two calls
of it other things happen to the world, as long as they leave `aside` what the
sequence is about; the environment answers as `truthful` allows.
-/

namespace DigitalCip
open Resumable

/-- A call of one of the executions, after whatever else has happened. -/
def amid (aside : World → World → Prop) (truthful : Call → Answer → Prop) (c : Call) (w : World)
    (r : c.Reply) (w' : World) : Prop :=
  ∃ w₁, aside w w₁ ∧ ∃ i a, truthful c a ∧ exec i c a w₁ = some (r, w')

/-- The executions meet what is owed at every call. -/
def replaying (aside : World → World → Prop) (truthful : Call → Answer → Prop)
    (owed : World → Call → Prop) : Automaton World Call Call.Reply where
  moves := amid aside truthful
  owed := owed

section Calls
variable {aside : World → World → Prop} {truthful : Call → Answer → Prop}
  {owed : World → Call → Prop} {α : Type} {c : Call} {Q : α → World → Prop} {E : Exc → World → Prop}
  {w : World}

/-- **One call**: it fails and changes nothing, or it does what `Does` says. -/
theorem accepts_call {k : c.Reply → Program α} (howed : owed w c)
    (herror : ∀ reason w₁, aside w w₁ →
      (replaying aside truthful owed).Accepts (k (.error reason)) Q E w₁)
    (hok : ∀ i a v w₁ w', aside w w₁ → truthful c a → reply i c a w₁ = some (v, w') →
      Does i c v w₁ w' → (replaying aside truthful owed).Accepts (k (.ok v)) Q E w') :
    (replaying aside truthful owed).Accepts (Prog.perform c >>= k) Q E w := by
  refine Automaton.accepts_perform howed ?_
  rintro r w' ⟨w₁, haside, i, a, htrue, hx⟩
  rcases exec_cases hx with ⟨reason, -, rfl, -, rfl⟩ | ⟨v, rfl, hreply, hdoes⟩
  · exact herror reason _ haside
  · exact hok i a v w₁ w' haside htrue hreply hdoes

/-- A call in Python. -/
theorem accepts_python_call {Q : c.Val → World → Prop} (howed : owed w c)
    (herror : ∀ reason w₁, aside w w₁ → E (.other reason) w₁)
    (hok : ∀ i a v w₁ w', aside w w₁ → truthful c a → reply i c a w₁ = some (v, w') →
      Does i c v w₁ w' → Q v w') :
    (replaying aside truthful owed).Accepts (call c) Q E w :=
  accepts_call howed herror hok

/-- A call that does nothing else than what happens around the executions. -/
theorem accepts_look {k : c.Reply → Program α} (P : World → Prop)
    (hP : ∀ w w', P w → aside w w' → P w') (hc : ∀ i v w w', Does i c v w w' → aside w w')
    (howed : owed w c) (hw : P w)
    (hk : ∀ r w', P w' → (replaying aside truthful owed).Accepts (k r) Q E w') :
    (replaying aside truthful owed).Accepts (Prog.perform c >>= k) Q E w := by
  refine accepts_call howed ?_ ?_
  · intro reason w₁ haside
    exact hk _ _ (hP w w₁ hw haside)
  · intro i a v w₁ w' haside _ _ hdoes
    exact hk _ _ (hP w₁ w' (hP w w₁ hw haside) (hc i v w₁ w' hdoes))

/-- The same in Python. -/
theorem accepts_python_look {Q : c.Val → World → Prop} (P : World → Prop)
    (hP : ∀ w w', P w → aside w w' → P w') (hc : ∀ i v w w', Does i c v w w' → aside w w')
    (howed : owed w c) (hw : P w) (herror : ∀ reason w', P w' → E (.other reason) w')
    (hok : ∀ v w', P w' → Q v w') : (replaying aside truthful owed).Accepts (call c) Q E w := by
  refine accepts_look P hP hc howed hw fun r w' hw' => ?_
  cases r with
  | error reason => exact herror reason w' hw'
  | ok v => exact hok v w' hw'

end Calls
end DigitalCip
