import DigitalCip.Invariant.Frame

/-!
# Copies that are still on their way

A copy in a work or a retry queue, or in an unsettled delivery, is going to be
handled; a copy in a dead-letter queue stays there.
-/

namespace DigitalCip
open Resumable

/-- The copy is queued, in a retry queue, or in an unsettled delivery. -/
def Broker.Live (b : Broker) (copy : Copy) : Prop :=
  (∃ S leg, leg ≠ .dlq ∧ copy ∈ b.queues ⟨S, leg⟩) ∨ ∃ i, b.Unsettled i copy

/-- The queues from which messages are still going to be handled. -/
def liveQueues : List Queue :=
  [Stage.ocr, Stage.chunk, Stage.embed].flatMap fun S => [⟨S, .work⟩, ⟨S, .retry⟩]

theorem mem_liveQueues (S : Stage) {leg : Leg} (h : leg ≠ .dlq) : ⟨S, leg⟩ ∈ liveQueues := by
  cases S <;> cases leg <;> first | decide | exact absurd rfl h

/-- Nothing is queued, and the executions below `n` hold nothing. -/
def Sys.Idle (n : Nat) (s : Sys) : Prop :=
  (∀ q ∈ liveQueues, s.world.broker.queues q = []) ∧
    ∀ i < n, (s.world.broker.deliveries i).any Delivery.unsettled = false

instance (n : Nat) (s : Sys) : Decidable (s.Idle n) := inferInstanceAs (Decidable (_ ∧ _))

/-- After a run of the executions below `n`, an idle system has no live copy. -/
theorem Sys.Idle.not_live {cfg : Config} {s : Sys} {n : Nat} {ls : List Label} (h : s.Idle n)
    (hrun : run (step cfg) .init ls = some s)
    (hls : ∀ l ∈ ls, l.execution.all (· < n) = true) (copy : Copy) : ¬ s.world.broker.Live copy := by
  rintro (⟨S, leg, hleg, hcopy⟩ | ⟨i, q, hd⟩)
  · rw [h.1 _ (mem_liveQueues S hleg)] at hcopy
    cases hcopy
  · by_cases hi : i < n
    · have hsettled := h.2 i hi
      rw [hd] at hsettled
      cases hsettled
    · rw [deliveries_of_run hrun fun l hl he => hi (by simpa [he] using hls l hl)] at hd
      cases hd

end DigitalCip
