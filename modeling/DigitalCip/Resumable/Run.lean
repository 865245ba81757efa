import Mathlib.Logic.Basic

/-!
# Labelled runs

A transition system is a partial function `step : σ → Λ → Option σ`: the label
says what happens next, and `none` says that it cannot.  `Reaches step ok s₀ s`
says that some finite run from `s₀` to `s` takes only steps that `ok` admits;
`ok` sees the state before the step and the label.
-/

namespace Resumable
variable {σ Λ : Type} (step : σ → Λ → Option σ)

/-- The state after the labels have happened one after the other. -/
def run : σ → List Λ → Option σ
  | s, [] => some s
  | s, l :: ls => (step s l).bind fun s' => run s' ls

theorem run_append (s : σ) (ls ls' : List Λ) :
    run step s (ls ++ ls') = (run step s ls).bind fun s' => run step s' ls' := by
  induction ls generalizing s with
  | nil => rfl
  | cons l ls ih =>
    simp only [List.cons_append, run, Option.bind_assoc, ih]

/-- `s` is reached from `s₀` by steps that `ok` admits. -/
inductive Reaches (ok : σ → Λ → Prop) (s₀ : σ) : σ → Prop where
  | start : Reaches ok s₀ s₀
  | next {s s' : σ} {l : Λ} : Reaches ok s₀ s → ok s l → step s l = some s' → Reaches ok s₀ s'

variable {step} {ok ok' : σ → Λ → Prop} {s₀ s s' : σ}

namespace Reaches

/-- **The invariant rule**: what holds at the start and is preserved by every
admitted step holds in every state reached. -/
theorem invariant {I : σ → Prop} (h : Reaches step ok s₀ s) (h₀ : I s₀)
    (hstep : ∀ s l s', I s → ok s l → step s l = some s' → I s') : I s := by
  induction h with
  | start => exact h₀
  | next _ hok hs ih => exact hstep _ _ _ ih hok hs

/-- Fewer admitted steps reach fewer states. -/
theorem mono (h : Reaches step ok s₀ s) (himp : ∀ s l, ok s l → ok' s l) :
    Reaches step ok' s₀ s := by
  induction h with
  | start => exact .start
  | next _ hok hs ih => exact ih.next (himp _ _ hok) hs

/-- The same, for admitted steps that can be taken in the run. -/
theorem imp (h : Reaches step ok s₀ s) (himp : ∀ s l s', Reaches step ok s₀ s →
    Reaches step ok' s₀ s → ok s l → step s l = some s' → ok' s l) : Reaches step ok' s₀ s := by
  induction h with
  | start => exact .start
  | next hs hok hstep ih => exact ih.next (himp _ _ _ hs ih hok hstep) hstep

theorem trans (h : Reaches step ok s₀ s) (h' : Reaches step ok s s') : Reaches step ok s₀ s' := by
  induction h' with
  | start => exact h
  | next _ hok hs ih => exact ih.next hok hs

/-- What holds at the end and not at the start comes about in some step. -/
theorem exists_turn {P : σ → Prop} (h : Reaches step ok s₀ s) (h₀ : ¬ P s₀) (hs : P s) :
    ∃ s₁ l s₂, Reaches step ok s₀ s₁ ∧ ok s₁ l ∧ step s₁ l = some s₂ ∧ ¬ P s₁ ∧ P s₂ ∧
      Reaches step ok s₂ s := by
  induction h with
  | start => exact absurd hs h₀
  | @next s s' l h hok hstep ih =>
    by_cases hP : P s
    · obtain ⟨s₁, l₁, s₂, h₁, hok₁, hstep₁, hn, hP₂, hrest⟩ := ih hP
      exact ⟨s₁, l₁, s₂, h₁, hok₁, hstep₁, hn, hP₂, hrest.next hok hstep⟩
    · exact ⟨s, l, s', h, hok, hstep, hP, hs, .start⟩

/-- A list of labels that runs through reaches its last state. -/
theorem of_run {ls : List Λ} (h : run step s₀ ls = some s) :
    Reaches step (fun _ _ => True) s₀ s := by
  induction ls generalizing s₀ with
  | nil => exact Option.some.inj h ▸ .start
  | cons l ls ih =>
    obtain ⟨s₁, hs₁, hrest⟩ := Option.bind_eq_some_iff.mp h
    exact (Reaches.start.next trivial hs₁).trans (ih hrest)

/-- The steps that pass a check. -/
def guarded (step : σ → Λ → Option σ) (check : σ → Λ → Bool) : σ → Λ → Option σ :=
  fun s l => if check s l then step s l else none

theorem guarded_eq_some {check : σ → Λ → Bool} {l : Λ} :
    guarded step check s l = some s' ↔ check s l = true ∧ step s l = some s' := by
  unfold guarded
  split <;> simp_all

theorem run_of_guarded {check : σ → Λ → Bool} {ls : List Λ}
    (h : Resumable.run (guarded step check) s₀ ls = some s) : Resumable.run step s₀ ls = some s := by
  induction ls generalizing s₀ with
  | nil => exact h
  | cons l ls ih =>
    obtain ⟨s₁, hs₁, hrest⟩ := Option.bind_eq_some_iff.mp h
    exact Option.bind_eq_some_iff.mpr ⟨s₁, (guarded_eq_some.mp hs₁).2, ih hrest⟩

/-- A run whose steps all pass a check, which keeps `I` and with it implies `ok`. -/
theorem of_guarded_invariant {check : σ → Λ → Bool} {ls : List Λ} (I : σ → Prop) (h₀ : I s₀)
    (hstep : ∀ s l s', I s → check s l = true → step s l = some s' → I s')
    (hcheck : ∀ s l, I s → check s l = true → ok s l)
    (h : Resumable.run (guarded step check) s₀ ls = some s) : Reaches step ok s₀ s := by
  induction ls generalizing s₀ with
  | nil => exact Option.some.inj h ▸ .start
  | cons l ls ih =>
    obtain ⟨s₁, hs₁, hrest⟩ := Option.bind_eq_some_iff.mp h
    obtain ⟨hc, hs₁⟩ := guarded_eq_some.mp hs₁
    exact (Reaches.start.next (hcheck _ _ h₀ hc) hs₁).trans (ih (hstep _ _ _ h₀ hc hs₁) hrest)

/-- The labels of a run can be checked apart from the states. -/
theorem run_guarded_and {check : σ → Λ → Bool} {only : Λ → Prop} [DecidablePred only] {ls : List Λ}
    (hls : ∀ l ∈ ls, only l) (h : Resumable.run (guarded step check) s₀ ls = some s) :
    Resumable.run (guarded step fun s l => check s l && only l) s₀ ls = some s := by
  induction ls generalizing s₀ with
  | nil => exact h
  | cons l ls ih =>
    obtain ⟨s₁, hs₁, hrest⟩ := Option.bind_eq_some_iff.mp h
    obtain ⟨hc, hs₁⟩ := guarded_eq_some.mp hs₁
    have honly : only l := hls l List.mem_cons_self
    refine Option.bind_eq_some_iff.mpr ⟨s₁, guarded_eq_some.mpr ⟨?_, hs₁⟩, ?_⟩
    · rw [hc, Bool.true_and]
      exact decide_eq_true honly
    · exact ih (fun l hl => hls l (List.mem_cons_of_mem _ hl)) hrest

/-- A run whose steps all pass a check that implies `ok`. -/
theorem of_guarded {check : σ → Λ → Bool} {ls : List Λ} (hcheck : ∀ s l, check s l = true → ok s l)
    (h : Resumable.run (guarded step check) s₀ ls = some s) : Reaches step ok s₀ s :=
  of_guarded_invariant (fun _ => True) trivial (fun _ _ _ _ _ _ => trivial)
    (fun s l _ => hcheck s l) h

end Reaches

/-- A run that can be carried out, and what its last state is checked to be. -/
theorem exists_run (step : σ → Λ → Option σ) (s₀ : σ) (ls : List Λ) (P : σ → Prop) [DecidablePred P]
    (h : (run step s₀ ls).any (fun s => P s) = true) : ∃ s, run step s₀ ls = some s ∧ P s := by
  obtain ⟨s, hs, hP⟩ := (Option.any_eq_true _ _).mp h
  exact ⟨s, hs, of_decide_eq_true hP⟩

end Resumable
