import Mathlib.Order.Bounds.Basic

/-!
# Retrying within a budget

A job waits, is taken up and is tried.  When the try fails the job is delayed and
waits again, until `budget` tries have failed; then it is filed.  There is one job,
and one thing that can happen to it next.
-/

namespace Retrying

/-- Where a job is, after `n` tries have failed. -/
inductive Life where
  | waiting (n : Nat)
  | held (n : Nat)
  /-- The next try has been made. -/
  | answered (n : Nat)
  | delayed (n : Nat)
  /-- The next try was the last one, and the job has been filed. -/
  | filed (n : Nat)
  | closed (n : Nat) (dead : Bool)
  deriving DecidableEq, Repr

/-- `k` tries are made: as many as it takes until one does not fail or the budget is
used up. -/
def Tries (failed : Nat → Bool) (budget k : Nat) : Prop :=
  IsLeast {k | 1 ≤ k ∧ (k = budget ∨ failed (k - 1) = false)} k

namespace Life
variable (failed : Nat → Bool) (budget : Nat)

/-- What happens to a job next. -/
def next : Life → Option Life
  | .waiting n => some (.held n)
  | .held n => some (.answered n)
  | .answered n =>
    if failed n then some (if n + 1 ≥ budget then .filed n else .delayed (n + 1))
    else some (.closed n false)
  | .delayed n => some (.waiting n)
  | .filed n => some (.closed n true)
  | .closed _ _ => none

/-- The tries that have been made failed but for the last one of a job that is closed,
and the budget is kept. -/
def Valid : Life → Prop
  | .waiting n | .held n | .answered n | .delayed n => n < budget ∧ ∀ k < n, failed k = true
  | .filed n => n + 1 = budget ∧ ∀ k < n + 1, failed k = true
  | .closed n dead => n < budget ∧ (∀ k < n, failed k = true) ∧
      if dead = true then n + 1 = budget ∧ failed n = true else failed n = false

/-- How many things can still happen to the job. -/
def rank : Life → Nat
  | .waiting n => 4 * (budget - n)
  | .held n => 4 * (budget - n) - 1
  | .answered n => 4 * (budget - n) - 2
  | .delayed n => 4 * (budget - n) + 1
  | .filed _ => 1
  | .closed _ _ => 0

variable {failed budget} {life life' : Life} {n : Nat} {dead : Bool}

theorem valid_start (h : 1 ≤ budget) : Valid failed budget (.waiting 0) :=
  ⟨h, fun _ hk => nomatch hk⟩

/-- What happens next keeps the budget. -/
theorem Valid.next (h : life.Valid failed budget) (hnext : life.next failed budget = some life') :
    life'.Valid failed budget := by
  cases life with
  | waiting n | held n | delayed n =>
    obtain rfl := Option.some.inj hnext
    exact h
  | answered n =>
    obtain ⟨hn, hfailed⟩ := h
    simp only [Life.next] at hnext
    by_cases hf : failed n = true
    · have hall : ∀ k < n + 1, failed k = true := by
        intro k hk
        rcases Nat.lt_succ_iff_lt_or_eq.mp hk with hk | rfl
        · exact hfailed k hk
        · exact hf
      rw [if_pos hf] at hnext
      obtain rfl := Option.some.inj hnext
      split
      · exact ⟨by omega, hall⟩
      · exact ⟨by omega, hall⟩
    · rw [if_neg hf] at hnext
      obtain rfl := Option.some.inj hnext
      exact ⟨hn, hfailed, by simpa using hf⟩
  | filed n =>
    obtain rfl := Option.some.inj hnext
    exact ⟨by have hn := h.1; omega, fun k hk => h.2 k (by omega), h.1, h.2 n (Nat.lt_succ_self n)⟩
  | closed n dead => cases hnext

/-- **What happens next brings the end nearer.** -/
theorem rank_next (h : life.Valid failed budget) (hnext : life.next failed budget = some life') :
    life'.rank budget < life.rank budget := by
  cases life with
  | waiting n =>
    obtain rfl := Option.some.inj hnext
    have hn := h.1
    simp only [rank]
    omega
  | held n =>
    obtain rfl := Option.some.inj hnext
    have hn := h.1
    simp only [rank]
    omega
  | answered n =>
    have hn := h.1
    simp only [Life.next] at hnext
    split at hnext
    · obtain rfl := Option.some.inj hnext
      split
      · simp only [rank]
        omega
      · simp only [rank]
        omega
    · obtain rfl := Option.some.inj hnext
      simp only [rank]
      omega
  | delayed n =>
    obtain rfl := Option.some.inj hnext
    simp only [rank]
    omega
  | filed n =>
    obtain rfl := Option.some.inj hnext
    exact Nat.one_pos
  | closed n dead => cases hnext

/-- **A job that is closed has been tried as often as it takes.** -/
theorem Valid.tries (h : (Life.closed n dead).Valid failed budget) : Tries failed budget (n + 1) := by
  obtain ⟨hn, hfailed, hlast⟩ := h
  refine ⟨⟨Nat.le_add_left 1 n, ?_⟩, ?_⟩
  · cases dead with
    | true => exact Or.inl hlast.1
    | false => exact Or.inr hlast
  · rintro k ⟨hpos, rfl | hk⟩
    · exact hn
    · by_contra hlt
      rw [hfailed (k - 1) (by omega)] at hk
      cases hk

/-- It is filed if all the tries have failed, and only then. -/
theorem Valid.dead_iff (h : (Life.closed n dead).Valid failed budget) :
    dead = true ↔ ∀ k < n + 1, failed k = true := by
  obtain ⟨-, hfailed, hlast⟩ := h
  cases dead with
  | true =>
    refine iff_of_true rfl ?_
    intro k hk
    rcases Nat.lt_succ_iff_lt_or_eq.mp hk with hk | rfl
    · exact hfailed k hk
    · exact hlast.2
  | false =>
    refine iff_of_false Bool.false_ne_true ?_
    intro hall
    have hn := hall n (Nat.lt_succ_self n)
    rw [hlast] at hn
    cases hn

end Life

/-- After failures alone, more tries are to come or the budget is used up. -/
theorem Tries.le_of_failed {failed : Nat → Bool} {budget k n : Nat} (h : Tries failed budget k)
    (hn : n ≤ budget) (hfailed : ∀ j, j + 1 < n → failed j = true) : n ≤ k := by
  obtain ⟨hpos, rfl | hk⟩ := h.1
  · exact hn
  · by_contra hlt
    rw [hfailed (k - 1) (by omega)] at hk
    cases hk

end Retrying
