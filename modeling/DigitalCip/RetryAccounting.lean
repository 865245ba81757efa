import DigitalCip.Chunker.Lineage
import DigitalCip.Resumable.Fair
import DigitalCip.Retrying.Budget

/-!
# Retry accounting in the chunker

A chunk message that is published with attempt 1 is a job with a budget of
`max(1, MAX_RETRIES)` tries, among any number of others: what there is to see of it
follows `Life.next` (`Shows.step`), so `process` is called as often as the outcomes ask
for, the copies count the attempts, and the message is filed in the dead-letter queue
when all calls have failed (`retry_accounting`).

`publishRetry` comes before the ack.  Between the two a message is held by its handler
and lies in the retry queue as well (`not_oneCopy`), so one copy of it is live apart from
the deliveries whose retry copy has been published.
-/

namespace DigitalCip.Chunker
open Resumable Retrying

/-! ## What is accounted for -/

/-- Where a copy can be that is still live. -/
inductive Spot where
  | work (n : Nat)
  | retry (n : Nat)
  | held (i : Nat)
  deriving DecidableEq, Repr

/-- A copy of the publication is live there: in the queue, in the retry queue or in an
unsettled delivery. -/
def Live (s : Workers) (origin : Nat) : Spot → Prop
  | .work n => ∃ c, (s.world.broker.queues ⟨.chunk, .work⟩)[n]? = some c ∧ c.origin = origin
  | .retry n => ∃ c, (s.world.broker.queues ⟨.chunk, .retry⟩)[n]? = some c ∧ c.origin = origin
  | .held i => ∃ c, s.world.broker.Unsettled i c ∧ c.origin = origin

/-- The retry copy has been published, and the ack is the next call. -/
def Superseded (s : Workers) : Spot → Prop
  | .held i => s.pending i = some (.ack .retried)
  | _ => False

/-- One copy is live until the message ends, and none afterwards. -/
def OneCopy (s : Workers) (origin : Nat) : Prop :=
  (¬ Ended s origin → ∃! spot, Live s origin spot) ∧ (Ended s origin → ∀ spot, ¬ Live s origin spot)

/-- `max(1, MAX_RETRIES)`. -/
def budget (maxRetries : Int) : Nat := (max 1 maxRetries).toNat

/-- The envelope of a message with attempt `n + 1`. -/
def carried (m : Message) (n : Nat) : Envelope := { m.body with attempt := n + 1 }

/-- What can be said of a publication at any moment. -/
structure Accounted (maxRetries : Int) (outcomes : Nat → Nat → Option GoError) (s : Workers)
    (p : Publication) : Prop where
  /-- Until the message ends, one copy is live apart from those that are superseded. -/
  one : ¬ Ended s p.copy → ∃! spot, Live s p.copy spot ∧ ¬ Superseded s spot
  superseded : Ended s p.copy → ∀ spot, Live s p.copy spot → Superseded s spot
  /-- All but the attempt is kept in every copy. -/
  kept : ∀ c, s.world.broker.Holds .chunk c → c.origin = p.copy → Alike p.message c.message
  /-- Counted from 0, the `k`-th delivery carries attempt `k + 1`, and so does the `k`-th
  call of `process`. -/
  delivered : ∀ k e, (s.world.delivered p.copy)[k]? = some e → e = carried p.message k
  processed : ∀ k e, (s.world.processed p.copy)[k]? = some e → e = carried p.message k
  /-- `process` is not called more often than the outcomes and the budget ask for. -/
  atMost : ∀ k, Tries (fun n => failed (outcomes p.copy n)) (budget maxRetries) k →
    (s.world.processed p.copy).length ≤ k
  /-- When the message has ended, it has been called just as often. -/
  calls : Ended s p.copy → Tries (fun n => failed (outcomes p.copy n)) (budget maxRetries)
    (s.world.processed p.copy).length
  deliveries : Ended s p.copy →
    (s.world.delivered p.copy).length = (s.world.processed p.copy).length
  /-- It has ended in the dead-letter queue if all the calls have failed. -/
  filed : Ended s p.copy → (∀ k < (s.world.processed p.copy).length,
    failed (outcomes p.copy k) = true) → ∃ c, s.world.broker.copiesOf ⟨.chunk, .dlq⟩ p.copy = [c]
  notFiled : Ended s p.copy → (∃ k < (s.world.processed p.copy).length,
    failed (outcomes p.copy k) = false) → s.world.broker.copiesOf ⟨.chunk, .dlq⟩ p.copy = []

/-! ## The message as a job -/

/-- The envelopes of the first `n` attempts. -/
def attempts (m : Message) (n : Nat) : List Envelope := (List.range n).map (carried m)

/-- What there is to see of a publication in each stage of its life. -/
inductive Shows (maxRetries : Int) (outcomes : Nat → Nat → Option GoError) (p : Publication) :
    Life → Glimpse → Prop where
  | waiting {n : Nat} {c : Copy} (hc : c.message.body = carried p.message n) :
      Shows maxRetries outcomes p (.waiting n)
        ⟨some (.work, c), none, attempts p.message n, attempts p.message n, false⟩
  | held {n i : Nat} {c : Copy} (hc : c.message.body = carried p.message n) :
      Shows maxRetries outcomes p (.held n) ⟨none, some (i, c, handling maxRetries c.message),
        attempts p.message (n + 1), attempts p.message n, false⟩
  | answered {n i : Nat} {c : Copy} (hc : c.message.body = carried p.message n) :
      Shows maxRetries outcomes p (.answered n)
        ⟨none, some (i, c, respond maxRetries c.message (carried p.message n) (outcomes p.copy n)),
          attempts p.message (n + 1), attempts p.message (n + 1), false⟩
  | delayed {n : Nat} {c : Copy} (hc : c.message.body = carried p.message n) :
      Shows maxRetries outcomes p (.delayed n)
        ⟨some (.retry, c), none, attempts p.message n, attempts p.message n, false⟩
  | filed {n i : Nat} {c d : Copy} :
      Shows maxRetries outcomes p (.filed n) ⟨some (.dlq, d), some (i, c, acking .deadLettered),
        attempts p.message (n + 1), attempts p.message (n + 1), false⟩
  | finished {n : Nat} : Shows maxRetries outcomes p (.closed n false)
      ⟨none, none, attempts p.message (n + 1), attempts p.message (n + 1), true⟩
  | dead {n : Nat} {d : Copy} : Shows maxRetries outcomes p (.closed n true)
      ⟨some (.dlq, d), none, attempts p.message (n + 1), attempts p.message (n + 1), true⟩

section Attempts
variable {m : Message} {n k : Nat} {e : Envelope}

theorem attempts_succ : attempts m (n + 1) = attempts m n ++ [carried m n] := by
  simp [attempts, List.range_succ]

@[simp] theorem attempts_length : (attempts m n).length = n := by simp [attempts]

theorem of_getElem?_attempts (h : (attempts m n)[k]? = some e) : e = carried m k := by
  obtain ⟨hk, rfl⟩ := List.getElem?_eq_some_iff.mp h
  simp [attempts]

theorem defaulted_carried : defaulted (carried m n) = carried m n :=
  defaulted_of_ne (by simp only [carried]; omega)

/-- The attempt is compared with `MAX_RETRIES` as the number of tries with the budget. -/
theorem attempt_ge_iff {maxRetries : Int} :
    (carried m n).attempt ≥ maxRetries ↔ n + 1 ≥ budget maxRetries := by
  simp only [carried, budget]
  omega

theorem one_le_budget (maxRetries : Int) : 1 ≤ budget maxRetries := by
  unfold budget
  omega

end Attempts

section Steps
variable {maxRetries : Int} {outcomes : Nat → Nat → Option GoError} {s s' : Workers}
  {p : Publication} {life : Life} {v : Glimpse} {event : Event} {origin : Nat}

/-- A copy that lies in a queue is seen there. -/
theorem Sees.queued_of_mem (h : Sees s origin v) {leg : Leg} {n : Nat} {c : Copy}
    (hn : (s.world.broker.queues ⟨.chunk, leg⟩)[n]? = some c) (hc : c.origin = origin) :
    v.queued = some (leg, c) := by
  have hmem : c ∈ inQueue v.queued leg :=
    h.queued leg ▸ Broker.mem_copiesOf.mpr ⟨List.mem_of_getElem? hn, hc⟩
  unfold inQueue at hmem
  split at hmem
  · rename_i heq
    split at hmem
    · rename_i hleg
      rw [heq, hleg, List.mem_singleton.mp hmem]
    · cases hmem
  · cases hmem

/-- **A step that is for the message is what happens next to the job.** -/
theorem Shows.step (hs : Sane maxRetries s) (hshows : Shows maxRetries outcomes p life v)
    (hsees : Sees s p.copy v) (hstep : advance maxRetries outcomes s event = some s')
    (hconcerns : Concerns p.copy s event) : ∃ life' v',
      life.next (fun n => failed (outcomes p.copy n)) (budget maxRetries) = some life' ∧
      Shows maxRetries outcomes p life' v' ∧ Sees s' p.copy v' := by
  cases event with
  | publish i m => cases hconcerns
  | deliver i n =>
    obtain ⟨copy, hn, horigin⟩ := hconcerns
    have hqueued := hsees.queued_of_mem hn horigin
    cases hshows with
    | @waiting n c hcarried =>
      have h := hsees.deliver (advance_cases hs hstep) ⟨copy, hn, horigin⟩
      rw [hcarried, ← attempts_succ] at h
      exact ⟨_, _, rfl, .held hcarried, h⟩
    | held | answered | delayed | filed | finished | dead => cases hqueued
  | run i =>
    obtain ⟨c, q, hin⟩ := hconcerns
    have hheld := (hsees.held i c q).mp hin
    cases hshows with
    | waiting | delayed | finished | dead => cases hheld
    | @held n i' c' hcarried =>
      obtain ⟨rfl, rfl, -⟩ : i' = i ∧ c' = c ∧ _ := by simpa using hheld
      have h := hsees.process hs hstep
      rw [hcarried, defaulted_carried, ← attempts_succ, attempts_length] at h
      exact ⟨_, _, rfl, .answered hcarried, h⟩
    | @answered n i' c' hcarried =>
      obtain ⟨rfl, rfl, -⟩ : i' = i ∧ c' = c ∧ _ := by simpa using hheld
      cases hfailed : failed (outcomes p.copy n) with
      | false =>
        obtain ⟨outcome, hne, he⟩ := respond_of_not_failed hfailed
        rw [he] at hsees
        exact ⟨.closed n false, _, by simp [Life.next, hfailed], .finished, hsees.settle hs hne hstep⟩
      | true =>
        by_cases hattempt : (carried p.message n).attempt ≥ maxRetries
        · rw [respond_of_exhausted hfailed hattempt] at hsees
          have hbudget := attempt_ge_iff.mp hattempt
          exact ⟨.filed n, _, by simp [Life.next, hfailed, hbudget], .filed,
            hsees.publishDLQ hs hstep⟩
        · rw [respond_of_retried hfailed hattempt] at hsees
          have hbudget : ¬ n + 1 ≥ budget maxRetries := fun h => hattempt (attempt_ge_iff.mpr h)
          refine ⟨.delayed (n + 1), _, by simp [Life.next, hfailed, hbudget], .delayed ?_,
            hsees.publishRetry hs hstep⟩
          simp [retryMessage, carried]
    | @filed n i' c' d =>
      obtain ⟨rfl, rfl, -⟩ : i' = i ∧ c' = c ∧ _ := by simpa using hheld
      exact ⟨.closed n true, _, rfl, .dead, hsees.settle hs (by decide) hstep⟩
  | expire n =>
    obtain ⟨copy, hn, horigin⟩ := hconcerns
    have hqueued := hsees.queued_of_mem hn horigin
    cases hshows with
    | @delayed n c hcarried =>
      exact ⟨_, _, rfl, .waiting hcarried,
        hsees.expire (advance_cases hs hstep) ⟨copy, hn, horigin⟩⟩
    | waiting | held | answered | filed | finished | dead => cases hqueued

/-- A copy that is seen in a queue lies there. -/
theorem Sees.exists_getElem? (h : Sees s origin v) {leg : Leg} {c : Copy}
    (hqueued : v.queued = some (leg, c)) :
    ∃ n : Nat, (s.world.broker.queues ⟨.chunk, leg⟩)[n]? = some c ∧ c.origin = origin := by
  have hc : c ∈ s.world.broker.copiesOf ⟨.chunk, leg⟩ origin := by
    rw [h.queued, hqueued]
    simp [inQueue]
  obtain ⟨hmem, horigin⟩ := Broker.mem_copiesOf.mp hc
  obtain ⟨n, hn⟩ := List.mem_iff_getElem?.mp hmem
  exact ⟨n, hn, horigin⟩

/-- **Until the message ends, a step that is for it is possible.** -/
theorem Shows.progress (hs : Sane maxRetries s) (hshows : Shows maxRetries outcomes p life v)
    (hsees : Sees s p.copy v) : v.ended = true ∨
      ∃ event s', advance maxRetries outcomes s event = some s' ∧ Concerns p.copy s event := by
  have hrun : ∀ {i : Nat} {c : Copy} {q : Handler Unit}, v.held = some (i, c, q) →
      ∃ event s', advance maxRetries outcomes s event = some s' ∧ Concerns p.copy s event := by
    intro i c q hheld
    have hin := (hsees.held i c q).mpr hheld
    obtain ⟨s', hstep⟩ := hin.can_run hs
    exact ⟨.run i, s', hstep, c, q, hin⟩
  cases hshows with
  | waiting =>
    obtain ⟨n, hn, horigin⟩ := hsees.exists_getElem? rfl
    obtain ⟨bound, hbound⟩ := hs.bounded
    exact Or.inr ⟨.deliver bound n, _, by
      simp only [advance, hbound bound (Nat.le_refl bound), hn]
      rfl, _, hn, horigin⟩
  | held | answered | filed => exact Or.inr (hrun rfl)
  | delayed =>
    obtain ⟨n, hn, horigin⟩ := hsees.exists_getElem? rfl
    exact Or.inr ⟨.expire n, _, by
      simp only [advance, hn]
      rfl, _, hn, horigin⟩
  | finished | dead => exact Or.inl rfl

/-! ## What can be seen is accounted for -/

/-- A handler that is seen at work holds a copy that is live. -/
theorem Sees.held_iff (hs : Sane maxRetries s) (h : Sees s origin v) (i : Nat) :
    Live s origin (.held i) ∧ ¬ Superseded s (.held i) ↔ ∃ c q, v.held = some (i, c, q) := by
  constructor
  · rintro ⟨⟨c, ⟨queue, hd⟩, horigin⟩, hcurrent⟩
    cases hp : s.progs i with
    | none =>
      rw [hs.unused i hp] at hd
      cases hd
    | some q =>
      obtain ⟨_, _, hd', -⟩ := hs.handlers i q hp
      obtain ⟨-, rfl, -⟩ := Delivery.mk.inj (Option.some.inj (hd.symm.trans hd'))
      refine ⟨c, q, (h.held i c q).mp ⟨hd, hp, fun he => hcurrent ?_, horigin⟩⟩
      rw [Superseded, Pool.pending, hp]
      exact he
  · rintro ⟨c, q, hheld⟩
    obtain ⟨hd, hp, hcurrent, horigin⟩ := (h.held i c q).mpr hheld
    refine ⟨⟨c, ⟨_, hd⟩, horigin⟩, fun he => hcurrent ?_⟩
    rw [Superseded, Pool.pending, hp] at he
    exact he

/-- Where a live copy is. -/
theorem Sees.spots (hs : Sane maxRetries s) (h : Sees s origin v) {spot : Spot}
    (hlive : Live s origin spot ∧ ¬ Superseded s spot) :
    (∃ n c, spot = .work n ∧ v.queued = some (.work, c)) ∨
      (∃ n c, spot = .retry n ∧ v.queued = some (.retry, c)) ∨
      ∃ i c q, spot = .held i ∧ v.held = some (i, c, q) := by
  cases spot with
  | work n =>
    obtain ⟨⟨c, hn, horigin⟩, -⟩ := hlive
    exact Or.inl ⟨n, c, rfl, h.queued_of_mem hn horigin⟩
  | retry n =>
    obtain ⟨⟨c, hn, horigin⟩, -⟩ := hlive
    exact Or.inr (Or.inl ⟨n, c, rfl, h.queued_of_mem hn horigin⟩)
  | held i =>
    obtain ⟨c, q, hheld⟩ := (h.held_iff hs i).mp hlive
    exact Or.inr (Or.inr ⟨i, c, q, rfl, hheld⟩)

/-- **One copy is live until the message ends**, apart from those that are superseded. -/
theorem Shows.one (hs : Sane maxRetries s) (hshows : Shows maxRetries outcomes p life v)
    (hsees : Sees s p.copy v) (hended : v.ended = false) :
    ∃! spot, Live s p.copy spot ∧ ¬ Superseded s spot := by
  have hheld : ∀ {i : Nat} {c : Copy} {q : Handler Unit}, v.held = some (i, c, q) →
      (∀ leg c, v.queued = some (leg, c) → leg = .dlq) →
      ∃! spot, Live s p.copy spot ∧ ¬ Superseded s spot := by
    intro i c q hheld hqueued
    refine ⟨.held i, (hsees.held_iff hs i).mpr ⟨c, q, hheld⟩, fun spot hlive => ?_⟩
    rcases hsees.spots hs hlive with ⟨_, _, -, he⟩ | ⟨_, _, -, he⟩ | ⟨j, _, _, rfl, he⟩
    · cases hqueued _ _ he
    · cases hqueued _ _ he
    · obtain ⟨rfl, -⟩ : i = j ∧ _ := by simpa using hheld.symm.trans he
      rfl
  cases hshows with
  | waiting =>
    obtain ⟨n, hn, horigin⟩ := hsees.exists_getElem? rfl
    refine ⟨.work n, ⟨⟨_, hn, horigin⟩, id⟩, fun spot hlive => ?_⟩
    rcases hsees.spots hs hlive with ⟨m, _, rfl, -⟩ | ⟨_, _, -, he⟩ | ⟨_, _, _, -, he⟩
    · obtain ⟨⟨c, hm, horigin'⟩, -⟩ := hlive
      rw [Broker.index_unique (hsees.queued .work) hn horigin hm horigin']
    · cases he
    · cases he
  | delayed =>
    obtain ⟨n, hn, horigin⟩ := hsees.exists_getElem? rfl
    refine ⟨.retry n, ⟨⟨_, hn, horigin⟩, id⟩, fun spot hlive => ?_⟩
    rcases hsees.spots hs hlive with ⟨_, _, -, he⟩ | ⟨m, _, rfl, -⟩ | ⟨_, _, _, -, he⟩
    · cases he
    · obtain ⟨⟨c, hm, horigin'⟩, -⟩ := hlive
      rw [Broker.index_unique (hsees.queued .retry) hn horigin hm horigin']
    · cases he
  | held | answered =>
    refine hheld rfl ?_
    intro leg c he
    cases he
  | filed =>
    refine hheld rfl ?_
    intro leg c he
    cases he
    rfl
  | finished | dead => cases hended

/-- None is live afterwards, apart from those. -/
theorem Shows.superseded (hs : Sane maxRetries s) (hshows : Shows maxRetries outcomes p life v)
    (hsees : Sees s p.copy v) (hended : v.ended = true) {spot : Spot}
    (hlive : Live s p.copy spot) : Superseded s spot := by
  by_contra hcurrent
  have hspots := hsees.spots hs ⟨hlive, hcurrent⟩
  cases hshows with
  | waiting | held | answered | delayed | filed => cases hended
  | finished | dead =>
    rcases hspots with ⟨_, _, -, he⟩ | ⟨_, _, -, he⟩ | ⟨_, _, _, -, he⟩
    all_goals cases he

/-- A message that has ended has been called as often as it takes. -/
theorem Shows.closed (hshows : Shows maxRetries outcomes p life v) (hended : v.ended = true) :
    ∃ n dead, life = .closed n dead ∧ v.delivered = attempts p.message (n + 1) ∧
      v.processed = attempts p.message (n + 1) ∧
      (if dead = true then ∃ c, v.queued = some (.dlq, c) else v.queued = none) := by
  cases hshows with
  | waiting | held | answered | delayed | filed => cases hended
  | @finished n => exact ⟨n, false, rfl, rfl, rfl, rfl⟩
  | @dead n d => exact ⟨n, true, rfl, rfl, rfl, d, rfl⟩

/-- The deliveries and the calls count the attempts. -/
theorem Shows.logs (hshows : Shows maxRetries outcomes p life v) :
    (∃ n, v.delivered = attempts p.message n) ∧ ∃ n, v.processed = attempts p.message n := by
  cases hshows
  all_goals exact ⟨⟨_, rfl⟩, ⟨_, rfl⟩⟩

/-- Of the calls that have been made all but the last one have failed. -/
theorem Shows.failed_of_lt {failed : Nat → Bool} (hshows : Shows maxRetries outcomes p life v)
    (hvalid : life.Valid failed (budget maxRetries)) :
    v.processed.length ≤ budget maxRetries ∧ ∀ k, k + 1 < v.processed.length → failed k = true := by
  cases hshows with
  | waiting | held | delayed =>
    simp only [attempts_length]
    exact ⟨by have h := hvalid.1; omega, fun k hk => hvalid.2 k (by omega)⟩
  | answered =>
    simp only [attempts_length]
    exact ⟨hvalid.1, fun k hk => hvalid.2 k (by omega)⟩
  | filed =>
    simp only [attempts_length]
    exact ⟨by have h := hvalid.1; omega, fun k hk => hvalid.2 k (by omega)⟩
  | finished | dead =>
    simp only [attempts_length]
    exact ⟨hvalid.1, fun k hk => hvalid.2.1 k (by omega)⟩

/-- The life of the message is known. -/
structure Tracked (maxRetries : Int) (outcomes : Nat → Nat → Option GoError) (s : Workers)
    (p : Publication) (life : Life) (v : Glimpse) : Prop where
  valid : life.Valid (fun n => failed (outcomes p.copy n)) (budget maxRetries)
  shows : Shows maxRetries outcomes p life v
  sees : Sees s p.copy v

/-- **A step takes the job on, or leaves it where it is.** -/
theorem Tracked.step (hs : Sane maxRetries s) (hp : p ∈ s.world.broker.accepted)
    (h : Tracked maxRetries outcomes s p life v)
    (hstep : advance maxRetries outcomes s event = some s') :
    ∃ life' v', Tracked maxRetries outcomes s' p life' v' ∧
      life'.rank (budget maxRetries) ≤ life.rank (budget maxRetries) ∧
      (Concerns p.copy s event →
        life'.rank (budget maxRetries) < life.rank (budget maxRetries)) := by
  by_cases hconcerns : Concerns p.copy s event
  · obtain ⟨life', v', hnext, hshows, hsees⟩ := h.shows.step hs h.sees hstep hconcerns
    have hlt := Life.rank_next h.valid hnext
    exact ⟨life', v', ⟨h.valid.next hnext, hshows, hsees⟩, Nat.le_of_lt hlt, fun _ => hlt⟩
  · have hsees := h.sees.other (hs.accepted p hp) (advance_cases hs hstep) hconcerns
    exact ⟨life, v, ⟨h.valid, h.shows, hsees⟩, Nat.le_refl _, fun he => absurd he hconcerns⟩

/-- A message that has just been published waits. -/
theorem tracked_published (hs : Sane maxRetries s) {i : Nat} {m : Message}
    (hattempt : m.body.attempt = 1)
    (hstep : advance maxRetries outcomes s (.publish i m) = some s') :
    ∃ v, Tracked maxRetries outcomes s' ⟨s.world.broker.nextCopy, i, m⟩ (.waiting 0) v := by
  have hbody : m.body = carried m 0 := by simp [carried, ← hattempt]
  exact ⟨_, Life.valid_start (one_le_budget maxRetries), .waiting hbody, sees_published hs hstep⟩

/-- The life of every message that is published with attempt 1 is known. -/
theorem exists_tracked
    (h : Reaches (advance maxRetries outcomes) (fun _ _ => True) Workers.init s)
    (hp : p ∈ s.world.broker.accepted) (hattempt : p.message.body.attempt = 1) :
    ∃ life v, Tracked maxRetries outcomes s p life v := by
  induction h with
  | start => cases hp
  | @next s s' event hreach _ hstep ih =>
    have hs := sane_of_reaches hreach
    have hold : p ∈ s.world.broker.accepted → ∃ life v, Tracked maxRetries outcomes s' p life v := by
      intro hp
      obtain ⟨life, v, h⟩ := ih hp
      obtain ⟨life', v', h', -⟩ := h.step hs hp hstep
      exact ⟨life', v', h'⟩
    rcases accepted_advance (advance_cases hs hstep) with heq | ⟨i, m, rfl, -, heq⟩
    · exact hold (heq ▸ hp)
    · rw [heq] at hp
      rcases List.mem_append.mp hp with hp | hp
      · exact hold hp
      · obtain rfl := List.mem_singleton.mp hp
        exact ⟨_, tracked_published hs hattempt hstep⟩

/-- **What is known of the life of a message accounts for it.** -/
theorem Tracked.accounted (hs : Sane maxRetries s) (hp : p ∈ s.world.broker.accepted)
    (h : Tracked maxRetries outcomes s p life v) : Accounted maxRetries outcomes s p := by
  obtain ⟨hvalid, hshows, hsees⟩ := h
  have hended : Ended s p.copy → ∃ n dead,
      (Life.closed n dead).Valid (fun n => failed (outcomes p.copy n)) (budget maxRetries) ∧
      s.world.delivered p.copy = attempts p.message (n + 1) ∧
      s.world.processed p.copy = attempts p.message (n + 1) ∧
      (if dead = true then ∃ c, v.queued = some (.dlq, c) else v.queued = none) := by
    intro he
    obtain ⟨n, dead, rfl, hdelivered, hprocessed, hqueued⟩ := hshows.closed (hsees.ended.mp he)
    exact ⟨n, dead, hvalid, hsees.delivered.trans hdelivered, hsees.processed.trans hprocessed,
      hqueued⟩
  obtain ⟨⟨a, hdelivered⟩, ⟨b, hprocessed⟩⟩ := hshows.logs
  constructor
  case one =>
    intro hnot
    exact hshows.one hs hsees (Bool.eq_false_iff.mpr fun he => hnot (hsees.ended.mpr he))
  case superseded =>
    intro he spot hlive
    exact hshows.superseded hs hsees (hsees.ended.mp he) hlive
  case kept => exact hs.kept p hp
  case delivered =>
    intro k e he
    exact of_getElem?_attempts (hdelivered ▸ hsees.delivered ▸ he)
  case processed =>
    intro k e he
    exact of_getElem?_attempts (hprocessed ▸ hsees.processed ▸ he)
  case atMost =>
    intro k hk
    obtain ⟨hle, hfailed⟩ := hshows.failed_of_lt hvalid
    rw [hsees.processed]
    exact hk.le_of_failed hle hfailed
  case calls =>
    intro he
    obtain ⟨n, dead, hvalid, -, hcalls, -⟩ := hended he
    rw [hcalls, attempts_length]
    exact hvalid.tries
  case deliveries =>
    intro he
    obtain ⟨n, dead, -, hdelivered, hcalls, -⟩ := hended he
    rw [hdelivered, hcalls]
  case filed =>
    intro he hall
    obtain ⟨n, dead, hvalid, -, hcalls, hqueued⟩ := hended he
    rw [hcalls, attempts_length] at hall
    rw [if_pos (hvalid.dead_iff.mpr hall)] at hqueued
    obtain ⟨c, hqueued⟩ := hqueued
    refine ⟨c, ?_⟩
    rw [hsees.queued, hqueued]
    rfl
  case notFiled =>
    intro he hsome
    obtain ⟨n, dead, hvalid, -, hcalls, hqueued⟩ := hended he
    obtain ⟨k, hk, hfailed⟩ := hsome
    rw [hcalls, attempts_length] at hk
    have hdead : ¬ dead = true := by
      intro hdead
      have hall := hvalid.dead_iff.mp hdead k hk
      rw [hfailed] at hall
      cases hall
    rw [if_neg hdead] at hqueued
    rw [hsees.queued, hqueued]
    rfl

/-- Nothing more happens to a message that has ended. -/
theorem Tracked.not_concerns (h : Tracked maxRetries outcomes s p life v) (hended : Ended s p.copy) :
    ¬ Concerns p.copy s event := by
  obtain ⟨-, hshows, hsees⟩ := h
  intro hconcerns
  have hended := hsees.ended.mp hended
  cases event with
  | publish i m => exact hconcerns
  | deliver i n | expire n =>
    obtain ⟨c, hn, horigin⟩ := hconcerns
    have hqueued := hsees.queued_of_mem hn horigin
    cases hshows with
    | waiting | held | answered | delayed | filed => cases hended
    | finished | dead => cases hqueued
  | run i =>
    obtain ⟨c, q, hin⟩ := hconcerns
    have hheld := (hsees.held i c q).mp hin
    cases hshows with
    | waiting | held | answered | delayed | filed => cases hended
    | finished | dead => cases hheld

/-- What is accepted stays accepted. -/
theorem mem_accepted_advance (h : Advanced maxRetries outcomes s event s')
    (hp : p ∈ s.world.broker.accepted) : p ∈ s'.world.broker.accepted := by
  rcases accepted_advance h with heq | ⟨i, m, -, -, heq⟩
  · exact heq ▸ hp
  · rw [heq]
    exact List.mem_append_left _ hp

/-- **Retry accounting.**  A chunk message that is published with attempt 1 is accounted
for at every moment, and if whatever can happen to it does happen, it ends. -/
theorem retry_accounting (e : Execution (advance maxRetries outcomes) Workers.init) {n : Nat}
    (hp : p ∈ (e.state n).world.broker.accepted) (hattempt : p.message.body.attempt = 1) :
    Accounted maxRetries outcomes (e.state n) p ∧ (e.Fair (Concerns p.copy) →
      ∃ m ≥ n, Ended (e.state m) p.copy ∧ Accounted maxRetries outcomes (e.state m) p) := by
  obtain ⟨life, v, h⟩ := exists_tracked (e.reaches n) hp hattempt
  refine ⟨h.accounted (sane_of_reaches (e.reaches n)) hp, fun hfair => ?_⟩
  refine Execution.eventually
    (fun r s => p ∈ s.world.broker.accepted ∧ ∃ life v,
      Tracked maxRetries outcomes s p life v ∧ life.rank (budget maxRetries) = r)
    (fun s => Ended s p.copy ∧ Accounted maxRetries outcomes s p) hfair ?_ ?_
    ⟨hp, life, v, h, rfl⟩
  · rintro r s hreach ⟨hp, life, v, h, -⟩
    have hs := sane_of_reaches hreach
    rcases h.shows.progress hs h.sees with hended | hpossible
    · exact Or.inl ⟨h.sees.ended.mpr hended, h.accounted hs hp⟩
    · exact Or.inr hpossible
  · rintro r s event s' hreach ⟨hp, life, v, h, rfl⟩ hstep
    have hs := sane_of_reaches hreach
    obtain ⟨life', v', h', hle, hlt⟩ := h.step hs hp hstep
    exact ⟨_, hle, ⟨mem_accepted_advance (advance_cases hs hstep) hp, life', v', h', rfl⟩, hlt⟩

end Steps

/-! ## One message -/

/-- A chunk message. -/
def sampleMessage : Message where
  messageId := some ['m']
  headers := { attempt := some 1, stage := some .chunk }
  body :=
    { messageId := ['m'], idempotencyKey := ⟨7, .chunk⟩, traceId := ['t'], stage := .chunk
      documentId := 7, tenantId := ['a'], attempt := 1, payload := {} }

/-- `process` fails once and then succeeds. -/
def failsOnce (_ k : Nat) : Option GoError := if k = 0 then some (.transient "") else none

/-- The message is delivered, retried after a failure, and settled by another handler. -/
def sampleEvents : List Event :=
  [.publish 0 sampleMessage, .deliver 0 0, .run 0, .run 0, .run 0, .expire 0, .deliver 1 0, .run 1,
    .run 1]

/-- The execution of these events. -/
def sampleExecution : Execution (advance 3 failsOnce) Workers.init :=
  .ofRun sampleEvents (by decide)

/-- All that can happen to the message happens. -/
theorem fair_sampleExecution : sampleExecution.Fair (Concerns 0) := by
  rintro n ⟨event, s', -, hconcerns⟩
  by_cases hn : n ≤ 8
  · exact ⟨8, hn, .run 1, rfl, ⟨1, 0, retryMessage { sampleMessage.body with attempt := 2 }⟩,
      acking .success, rfl, rfl, by simp [acking, request, Prog.perform], rfl⟩
  -- the message has ended
  have hstate : sampleExecution.state n = sampleExecution.state 9 := by
    have hlength : sampleEvents.length ≤ n := Nat.not_le.mp hn
    simp only [sampleExecution, Execution.ofRun, List.take_of_length_le hlength]
    rfl
  obtain ⟨life, v, h⟩ := exists_tracked (p := ⟨0, 0, sampleMessage⟩) (sampleExecution.reaches 9)
    (List.mem_singleton.mpr rfl) rfl
  rw [hstate] at hconcerns
  exact absurd hconcerns (h.not_concerns ⟨_, List.mem_cons_self .., rfl, by decide⟩)

theorem retry_accounting_sample :
    Accounted 3 failsOnce (sampleExecution.state 1) ⟨0, 0, sampleMessage⟩ ∧
      ∃ m ≥ 1, Ended (sampleExecution.state m) 0 ∧
        Accounted 3 failsOnce (sampleExecution.state m) ⟨0, 0, sampleMessage⟩ := by
  obtain ⟨haccounted, hends⟩ := retry_accounting sampleExecution (n := 1)
    (p := ⟨0, 0, sampleMessage⟩) (List.mem_singleton.mpr rfl) rfl
  exact ⟨haccounted, hends fair_sampleExecution⟩

/-- **Between the publish of the retry copy and the ack there are two live copies.** -/
theorem not_oneCopy : ¬ ∀ (maxRetries : Int) (outcomes : Nat → Nat → Option GoError) (s : Workers)
    (p : Publication), Reaches (advance maxRetries outcomes) (fun _ _ => True) Workers.init s →
    p ∈ s.world.broker.accepted → p.message.body.attempt = 1 → OneCopy s p.copy := by
  intro hall
  have hone := hall 3 failsOnce (sampleExecution.state 4) ⟨0, 0, sampleMessage⟩
    (sampleExecution.reaches 4) (List.mem_singleton.mpr rfl) rfl
  have hheld : Live (sampleExecution.state 4) 0 (.held 0) := ⟨⟨0, 0, sampleMessage⟩, ⟨_, rfl⟩, rfl⟩
  have hretry : Live (sampleExecution.state 4) 0 (.retry 0) := ⟨⟨1, 0, _⟩, rfl, rfl⟩
  by_cases hended : Ended (sampleExecution.state 4) 0
  · exact hone.2 hended _ hheld
  · cases (hone.1 hended).unique hheld hretry

end DigitalCip.Chunker
