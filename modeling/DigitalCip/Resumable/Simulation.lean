import DigitalCip.Resumable.Run

/-!
# Forward simulation

A detailed transition system refines an abstract one along a relation of their states: a
step of the first is matched by any number of steps of the second, none included.  Then
every run of the first is matched by a run of the second, and what holds of all states
that the second reaches holds of the states that the first reaches, as far as the relation
carries it over.
-/

namespace Resumable
variable {σ Λ σ' Λ' : Type}

/-- The runs of `step` from `s₀` are simulated by the runs of `step'` from `s₀'`. -/
structure Simulates (step : σ → Λ → Option σ) (ok : σ → Λ → Prop) (s₀ : σ)
    (step' : σ' → Λ' → Option σ') (ok' : σ' → Λ' → Prop) (s₀' : σ') (R : σ → σ' → Prop) : Prop where
  start : R s₀ s₀'
  next : ∀ s l t s', Reaches step ok s₀ s → Reaches step' ok' s₀' s' → R s s' → ok s l →
    step s l = some t → ∃ t', Reaches step' ok' s' t' ∧ R t t'

variable {step : σ → Λ → Option σ} {ok : σ → Λ → Prop} {s₀ s : σ} {step' : σ' → Λ' → Option σ'}
  {ok' : σ' → Λ' → Prop} {s₀' : σ'} {R : σ → σ' → Prop}

/-- **Every state reached is simulated by a state reached.** -/
theorem Simulates.reaches (h : Simulates step ok s₀ step' ok' s₀' R) (hs : Reaches step ok s₀ s) :
    ∃ s', Reaches step' ok' s₀' s' ∧ R s s' := by
  induction hs with
  | start => exact ⟨s₀', .start, h.start⟩
  | next hs hok hstep ih =>
    obtain ⟨s', hs', hR⟩ := ih
    obtain ⟨t', ht', hR'⟩ := h.next _ _ _ s' hs hs' hR hok hstep
    exact ⟨t', hs'.trans ht', hR'⟩

/-- **An invariant is carried over** to the states that are simulated. -/
theorem Simulates.invariant (h : Simulates step ok s₀ step' ok' s₀' R) {P : σ → Prop} {P' : σ' → Prop}
    (hP : ∀ s', Reaches step' ok' s₀' s' → P' s') (hR : ∀ s s', R s s' → P' s' → P s)
    (hs : Reaches step ok s₀ s) : P s := by
  obtain ⟨s', hs', hrel⟩ := h.reaches hs
  exact hR s s' hrel (hP s' hs')

end Resumable
