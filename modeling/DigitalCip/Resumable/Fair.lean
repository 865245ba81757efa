import DigitalCip.Resumable.Run
import Mathlib.Data.Nat.Init

/-!
# Infinite executions and fairness

An infinite execution of a transition system takes a step or rests at every instant.
It is fair to a kind of steps if, whenever such a step is possible, one is taken then
or later.  A rank that such steps lower and no other step raises leads to a goal that
leaves no such step possible only when it is reached.
-/

namespace Resumable
variable {σ Λ : Type}

/-- An infinite execution.  No label means that nothing happens. -/
structure Execution (step : σ → Λ → Option σ) (s₀ : σ) where
  state : Nat → σ
  label : Nat → Option Λ
  start : state 0 = s₀
  rests : ∀ n, label n = none → state (n + 1) = state n
  moves : ∀ n l, label n = some l → step (state n) l = some (state (n + 1))

namespace Execution
variable {step : σ → Λ → Option σ} {s₀ : σ} (e : Execution step s₀) (act : σ → Λ → Prop)

/-- Whenever a step of the kind is possible, one is taken then or later. -/
def Fair : Prop :=
  ∀ n, (∃ l s', step (e.state n) l = some s' ∧ act (e.state n) l) →
    ∃ m ≥ n, ∃ l, e.label m = some l ∧ act (e.state m) l

/-- The execution that takes the steps of a list, and then rests. -/
def ofRun (ls : List Λ) (h : (run step s₀ ls).isSome = true) : Execution step s₀ where
  state n := (run step s₀ (ls.take n)).getD s₀
  label n := ls[n]?
  start := rfl
  rests n hn := by
    have hlength : ls.length ≤ n := List.getElem?_eq_none_iff.mp hn
    rw [List.take_of_length_le hlength, List.take_of_length_le (by omega)]
  moves n l hl := by
    obtain ⟨hn, rfl⟩ := List.getElem?_eq_some_iff.mp hl
    -- the first steps can be taken, and so can the next one
    obtain ⟨s, hs⟩ := Option.isSome_iff_exists.mp h
    rw [← List.take_append_drop (n + 1) ls, run_append] at hs
    obtain ⟨s', hs', -⟩ := Option.bind_eq_some_iff.mp hs
    rw [List.take_succ_eq_append_getElem hn, run_append] at hs'
    obtain ⟨s'', hs'', hstep⟩ := Option.bind_eq_some_iff.mp hs'
    rw [List.take_succ_eq_append_getElem hn, run_append, hs'']
    simp only [run, Option.bind_fun_some] at hstep
    simp [run, hstep]

/-- Every state of an execution is reached. -/
theorem reaches (n : Nat) : Reaches step (fun _ _ => True) s₀ (e.state n) := by
  induction n with
  | zero =>
    rw [e.start]
    exact .start
  | succ n ih =>
    cases hl : e.label n with
    | none =>
      rw [e.rests n hl]
      exact ih
    | some l => exact ih.next trivial (e.moves n l hl)

variable {e act} {I : Nat → σ → Prop}

/-- The rank does not rise between two instants, and falls if a step of the kind is
taken. -/
theorem rank_le (hstep : ∀ r s l s', Reaches step (fun _ _ => True) s₀ s → I r s →
      step s l = some s' → ∃ r' ≤ r, I r' s' ∧ (act s l → r' < r)) {n m r : Nat} (hnm : n ≤ m)
    (h : I r (e.state n)) : ∃ r' ≤ r, I r' (e.state m) := by
  induction m, hnm using Nat.le_induction with
  | base => exact ⟨r, Nat.le_refl r, h⟩
  | succ m _ ih =>
    obtain ⟨r', hr', hI⟩ := ih
    cases hl : e.label m with
    | none =>
      rw [e.rests m hl]
      exact ⟨r', hr', hI⟩
    | some l =>
      obtain ⟨r'', hr'', hI', -⟩ := hstep r' _ l _ (e.reaches m) hI (e.moves m l hl)
      exact ⟨r'', Nat.le_trans hr'' hr', hI'⟩

/-- **The rank rule**: a fair execution reaches the goal. -/
theorem eventually (I : Nat → σ → Prop) (goal : σ → Prop) (hfair : e.Fair act)
    (hprogress : ∀ r s, Reaches step (fun _ _ => True) s₀ s → I r s →
      goal s ∨ ∃ l s', step s l = some s' ∧ act s l)
    (hstep : ∀ r s l s', Reaches step (fun _ _ => True) s₀ s → I r s → step s l = some s' →
      ∃ r' ≤ r, I r' s' ∧ (act s l → r' < r)) {n r : Nat} (h : I r (e.state n)) :
    ∃ m ≥ n, goal (e.state m) := by
  induction r using Nat.strong_induction_on generalizing n with
  | _ r ih =>
    rcases hprogress r _ (e.reaches n) h with hgoal | hpossible
    · exact ⟨n, Nat.le_refl n, hgoal⟩
    -- the step that is taken then or later lowers the rank
    obtain ⟨m, hnm, l, hl, hact⟩ := hfair n hpossible
    obtain ⟨r', hr', hI⟩ := rank_le hstep hnm h
    obtain ⟨r'', -, hI', hlt⟩ := hstep r' _ l _ (e.reaches m) hI (e.moves m l hl)
    obtain ⟨k, hk, hgoal⟩ := ih r'' (Nat.lt_of_lt_of_le (hlt hact) hr') hI'
    exact ⟨k, by omega, hgoal⟩

end Execution
end Resumable
