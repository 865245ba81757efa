import DigitalCip.Chunker.Retries

/-!
# One message among many

What there is to see of one publication in the traffic (`Glimpse`): the copy of it that
lies in a queue, the delivery of it that is handled, and what has been delivered and
processed.  A delivery whose retry copy has been published is not counted as handled:
its ack is all that is left of it.  A step that is not for the publication changes
nothing of what is seen (`Sees.other`); the steps that are for it follow one by one.
-/

namespace DigitalCip
namespace Broker

/-- The copies in a queue that go back to one publication. -/
def copiesOf (b : Broker) (q : Queue) (origin : Nat) : List Copy :=
  (b.queues q).filter fun c => c.origin = origin

section Copies
variable {b : Broker} {origin : Nat} {q q' : Queue} {c c' : Copy} {n : Nat}

theorem copiesOf_push : (b.push c q').copiesOf q origin =
    b.copiesOf q origin ++ if q = q' ∧ c.origin = origin then [c] else [] := by
  unfold copiesOf
  rw [push_queues]
  by_cases hq : q = q'
  · subst hq
    simp [List.filter_cons]
  · simp [hq]

theorem copiesOf_enqueue {o : Nat} {m : Message} : (b.enqueue o m q').copiesOf q origin =
    b.copiesOf q origin ++ if q = q' ∧ o = origin then [⟨b.nextCopy, o, m⟩] else [] :=
  copiesOf_push

/-- What is left when an element has been taken out. -/
theorem filter_eraseIdx {α : Type} {xs : List α} {a : α} {p : α → Bool} (h : xs[n]? = some a) :
    ∃ ys zs, xs.filter p = ys ++ (if p a then [a] else []) ++ zs ∧
      (xs.eraseIdx n).filter p = ys ++ zs := by
  obtain ⟨hn, rfl⟩ := List.getElem?_eq_some_iff.mp h
  refine ⟨(xs.take n).filter p, (xs.drop (n + 1)).filter p, ?_, ?_⟩
  · conv_lhs => rw [← List.take_append_drop n xs, List.drop_eq_getElem_cons hn]
    rw [List.filter_append, List.filter_cons, List.append_assoc]
    congr 1
    split <;> rfl
  · rw [List.eraseIdx_eq_take_drop_succ, List.filter_append]

theorem remove_queues : (b.remove q' n).queues q =
    if q = q' then (b.queues q').eraseIdx n else b.queues q := by
  simp only [remove, Function.update_apply]

theorem copiesOf_remove_of_queue_ne (hq : q ≠ q') :
    (b.remove q' n).copiesOf q origin = b.copiesOf q origin := by
  unfold copiesOf
  rw [remove_queues, if_neg hq]

theorem copiesOf_remove_of_ne (hn : (b.queues q')[n]? = some c) (hc : c.origin ≠ origin) :
    (b.remove q' n).copiesOf q origin = b.copiesOf q origin := by
  by_cases hq : q = q'
  · subst hq
    obtain ⟨ys, zs, hfilter, herase⟩ := filter_eraseIdx (p := fun c => c.origin = origin) hn
    unfold copiesOf
    rw [remove_queues, if_pos rfl, herase, hfilter, if_neg (by simpa using hc), List.append_nil]
  · exact copiesOf_remove_of_queue_ne hq

/-- The only copy is taken out. -/
theorem copiesOf_remove_self (hn : (b.queues q)[n]? = some c) (hc : c.origin = origin)
    (honly : b.copiesOf q origin = [c']) : c = c' ∧ (b.remove q n).copiesOf q origin = [] := by
  obtain ⟨ys, zs, hfilter, herase⟩ := filter_eraseIdx (p := fun c => c.origin = origin) hn
  unfold copiesOf at honly ⊢
  rw [remove_queues, if_pos rfl, herase]
  rw [hfilter, if_pos (by simpa using hc), List.append_assoc, List.singleton_append] at honly
  cases ys with
  | nil =>
    obtain ⟨rfl, rfl⟩ := List.cons.inj honly
    exact ⟨rfl, rfl⟩
  | cons y ys =>
    have hlength := congrArg List.length (List.cons.inj honly).2
    simp at hlength

/-- The only copy is in one place. -/
theorem index_unique {m : Nat} {d : Copy} (honly : b.copiesOf q origin = [d])
    (hn : (b.queues q)[n]? = some c) (hc : c.origin = origin)
    (hm : (b.queues q)[m]? = some c') (hc' : c'.origin = origin) : m = n := by
  by_contra hne
  have hmem : c' ∈ (b.remove q n).copiesOf q origin := by
    refine List.mem_filter.mpr ⟨?_, by simpa using hc'⟩
    rw [remove_queues, if_pos rfl]
    exact List.mem_eraseIdx_iff_getElem?.mpr ⟨m, hne, hm⟩
  rw [(copiesOf_remove_self hn hc honly).2] at hmem
  cases hmem

theorem deliver_deliveries (i : Nat) :
    (b.deliver i q n c).deliveries i = some ⟨c, q, true⟩ := Function.update_self ..

theorem mem_copiesOf : c ∈ b.copiesOf q origin ↔ c ∈ b.queues q ∧ c.origin = origin := by
  simp [copiesOf, List.mem_filter]

end Copies
end Broker

namespace Chunker
open Resumable

/-! ## What there is to see -/

/-- A copy has been settled for good: not because a retry copy takes its place. -/
def Ended (s : Workers) (origin : Nat) : Prop :=
  ∃ x ∈ s.world.broker.settled, x.1.origin = origin ∧ x.2 ≠ .retried

/-- Handler `i` is at work on a delivery of a copy, with `p` left to do: not only the ack
after a retry. -/
structure InHand (s : Workers) (origin i : Nat) (c : Copy) (p : Handler Unit) : Prop where
  delivery : s.world.broker.deliveries i = some ⟨c, ⟨.chunk, .work⟩, true⟩
  prog : s.progs i = some p
  current : p.pending ≠ some (.ack .retried)
  origin : c.origin = origin

/-- What there is to see of one publication. -/
structure Glimpse where
  queued : Option (Leg × Copy)
  held : Option (Nat × Copy × Handler Unit)
  delivered : List Envelope
  processed : List Envelope
  ended : Bool

/-- The copies in a queue, if `queued` is all there is. -/
def inQueue (queued : Option (Leg × Copy)) (leg : Leg) : List Copy :=
  match queued with
  | some (leg', c) => if leg = leg' then [c] else []
  | none => []

/-- This is what there is to see. -/
structure Sees (s : Workers) (origin : Nat) (v : Glimpse) : Prop where
  queued : ∀ leg, s.world.broker.copiesOf ⟨.chunk, leg⟩ origin = inQueue v.queued leg
  held : ∀ i c p, InHand s origin i c p ↔ v.held = some (i, c, p)
  delivered : s.world.delivered origin = v.delivered
  processed : s.world.processed origin = v.processed
  ended : Ended s origin ↔ v.ended = true

/-- The event is for the publication. -/
def Concerns (origin : Nat) (s : Workers) : Event → Prop
  | .publish _ _ => False
  | .deliver _ n =>
    ∃ c, (s.world.broker.queues ⟨.chunk, .work⟩)[n]? = some c ∧ c.origin = origin
  | .run i => ∃ c p, InHand s origin i c p
  | .expire n =>
    ∃ c, (s.world.broker.queues ⟨.chunk, .retry⟩)[n]? = some c ∧ c.origin = origin

section Steps
variable {maxRetries : Int} {outcomes : Nat → Nat → Option GoError} {s s' : Workers} {origin : Nat}
  {event : Event} {v : Glimpse} {i n : Nat} {c : Copy} {p : Handler Unit}

namespace InHand

/-- A handler that does not move stays at work. -/
theorem congr (hp : s'.progs i = s.progs i)
    (hd : s'.world.broker.deliveries i = s.world.broker.deliveries i) :
    InHand s' origin i c p ↔ InHand s origin i c p := by
  constructor
  · rintro ⟨hd', hp', hcurrent, horigin⟩
    exact ⟨hd ▸ hd', hp ▸ hp', hcurrent, horigin⟩
  · rintro ⟨hd', hp', hcurrent, horigin⟩
    exact ⟨hd.trans hd', hp.trans hp', hcurrent, horigin⟩

/-- What a handler is at work on. -/
theorem iff_of_progs {copy : Copy} {q : Handler Unit}
    (hd : s.world.broker.deliveries i = some ⟨copy, ⟨.chunk, .work⟩, true⟩)
    (hp : s.progs i = some q) (hcurrent : q.pending ≠ some (.ack .retried))
    (horigin : copy.origin = origin) : InHand s origin i c p ↔ some (i, copy, q) = some (i, c, p) := by
  constructor
  · intro h
    obtain ⟨rfl, -⟩ := Delivery.mk.inj (Option.some.inj (hd.symm.trans h.delivery))
    obtain rfl := Option.some.inj (hp.symm.trans h.prog)
    rfl
  · intro h
    obtain ⟨-, rfl, rfl⟩ : i = i ∧ copy = c ∧ q = p := by simpa using h
    exact ⟨hd, hp, hcurrent, horigin⟩

/-- A handler is not at work on another publication, nor on what is settled. -/
theorem not_of_delivery {copy : Copy} {q : Queue} {unsettled : Bool}
    (hd : s.world.broker.deliveries i = some ⟨copy, q, unsettled⟩)
    (hnot : copy.origin ≠ origin ∨ unsettled = false) : ¬ InHand s origin i c p := by
  intro h
  obtain ⟨rfl, -, rfl⟩ := Delivery.mk.inj (Option.some.inj (hd.symm.trans h.delivery))
  rcases hnot with hne | he
  · exact hne h.origin
  · cases he

theorem not_of_progs (hp : s.progs i = none) : ¬ InHand s origin i c p := by
  intro h
  rw [h.prog] at hp
  cases hp

/-- Its next call can be made. -/
theorem can_run (hs : Sane maxRetries s) (h : InHand s origin i c p) :
    ∃ s', advance maxRetries outcomes s (.run i) = some s' := by
  obtain ⟨copy, unsettled, hd, hdoing⟩ := hs.handlers i p h.prog
  obtain ⟨rfl, -, rfl⟩ := Delivery.mk.inj (Option.some.inj (hd.symm.trans h.delivery))
  obtain ⟨s', hstep, -⟩ := exists_ran hd h.prog hdoing
  exact ⟨s', hstep⟩

end InHand

/-! ## Steps that are not for the publication -/

/-- Nothing has changed that there is to see. -/
theorem Sees.same (h : Sees s origin v)
    (hqueues : ∀ leg, s'.world.broker.copiesOf ⟨.chunk, leg⟩ origin =
      s.world.broker.copiesOf ⟨.chunk, leg⟩ origin)
    (hheld : ∀ i c p, InHand s' origin i c p ↔ InHand s origin i c p)
    (hdelivered : s'.world.delivered origin = s.world.delivered origin)
    (hprocessed : s'.world.processed origin = s.world.processed origin)
    (hended : Ended s' origin ↔ Ended s origin) : Sees s' origin v where
  queued leg := (hqueues leg).trans (h.queued leg)
  held i c p := (hheld i c p).trans (h.held i c p)
  delivered := hdelivered.trans h.delivered
  processed := hprocessed.trans h.processed
  ended := hended.trans h.ended

/-- The deliveries in hand are the same if they are the same for the handler that moves. -/
theorem inHand_congr (h : Advanced maxRetries outcomes s event s')
    (hmoved : ∀ i, event.handler = some i → ∀ c p, InHand s' origin i c p ↔ InHand s origin i c p)
    (i : Nat) (c : Copy) (p : Handler Unit) : InHand s' origin i c p ↔ InHand s origin i c p := by
  by_cases he : event.handler = some i
  · exact hmoved i he c p
  · obtain ⟨hp, hd⟩ := handler_of_ne h he
    exact InHand.congr hp hd

/-- What the call of a handler for another publication leaves alone. -/
theorem Sees.ran_other {copy : Copy} (h : Sees s origin v)
    (hd : s.world.broker.deliveries i = some ⟨copy, ⟨.chunk, .work⟩, true⟩)
    (hran : Ran maxRetries outcomes s i copy s') (hother : ∀ c p, ¬ InHand s origin i c p) :
    Sees s' origin v := by
  have hcopy : ∀ {p : Handler Unit}, s.progs i = some p → copy.origin ≠ origin ∨
      p.pending = some (.ack .retried) := by
    intro p hp
    by_contra hnot
    obtain ⟨horigin, hcurrent⟩ := not_or.mp hnot
    exact hother copy p ⟨hd, hp, hcurrent, not_not.mp horigin⟩
  -- the handler that has moved still has nothing of the publication in its hand
  have hmoved : ∀ {u : Bool}, s'.world.broker.deliveries i = some ⟨copy, ⟨.chunk, .work⟩, u⟩ →
      (copy.origin ≠ origin ∨ u = false) → ∀ j c p, InHand s' origin j c p ↔ InHand s origin j c p := by
    intro u hd' hnot
    refine inHand_congr (.ran hd hran) fun j hj c p => iff_of_false ?_ (Option.some.inj hj ▸ hother c p)
    obtain rfl := Option.some.inj hj
    exact InHand.not_of_delivery hd' hnot
  cases hran with
  | processed hp =>
    have hne : copy.origin ≠ origin := (hcopy hp).resolve_right (by rw [handling_eq]; simp)
    exact h.same (fun _ => rfl) (hmoved hd (Or.inl hne)) rfl (Function.update_of_ne hne.symm _ _) Iff.rfl
  | published _ _ hp =>
    have hne : copy.origin ≠ origin := (hcopy hp).resolve_right (by simp)
    refine h.same (fun leg => ?_) (hmoved hd (Or.inl hne)) rfl rfl Iff.rfl
    simp only [Pool.spawn_world, Pool.move_world]
    rw [Broker.copiesOf_enqueue, if_neg (fun he => hne he.2), List.append_nil]
  | @acked outcome hp =>
    have hor : copy.origin ≠ origin ∨ outcome = .retried := by
      rcases hcopy hp with hne | he
      · exact Or.inl hne
      · exact Or.inr (by simpa using he)
    have hd' : ((s.world.broker.ack i copy outcome).deliveries i) =
        some ⟨copy, ⟨.chunk, .work⟩, false⟩ := by simp [Broker.ack, Broker.release, hd]
    refine h.same (fun _ => rfl) (hmoved hd' (Or.inr rfl)) rfl rfl ?_
    constructor
    · rintro ⟨x, hx, horigin, hne⟩
      rcases List.mem_cons.mp hx with rfl | hx
      · rcases hor with hnot | he
        · exact absurd horigin hnot
        · exact absurd he hne
      · exact ⟨x, hx, horigin, hne⟩
    · rintro ⟨x, hx, hrest⟩
      exact ⟨x, List.mem_cons_of_mem _ hx, hrest⟩

/-- **A step that is not for the publication changes nothing of what is seen of it.** -/
theorem Sees.other (horigin : origin < s.world.broker.nextCopy) (h : Sees s origin v)
    (hstep : Advanced maxRetries outcomes s event s') (hother : ¬ Concerns origin s event) :
    Sees s' origin v := by
  have hheld := @inHand_congr _ _ _ _ origin _ hstep
  cases hstep with
  | published i m =>
    refine h.same (fun leg => ?_) (hheld fun _ hi => nomatch hi) rfl rfl ?_
    · simp only [Pool.move_world]
      rw [Broker.publish_ingest]
      refine Broker.copiesOf_enqueue.trans ?_
      rw [if_neg (fun he => by omega), List.append_nil]
    · simp only [Ended, Pool.move_world]
      rw [Broker.publish_ingest]
      exact Iff.rfl
  | @delivered i n copy hi hn =>
    have hne : copy.origin ≠ origin := fun he => hother ⟨copy, hn, he⟩
    refine h.same (fun leg => Broker.copiesOf_remove_of_ne hn hne)
      (hheld fun j hj c p => iff_of_false ?_ ?_)
      (Function.update_of_ne hne.symm _ _) rfl Iff.rfl
    · obtain rfl := Option.some.inj hj
      exact InHand.not_of_delivery (Broker.deliver_deliveries i) (Or.inl hne)
    · obtain rfl := Option.some.inj hj
      exact InHand.not_of_progs hi
  | ran hd hran => exact h.ran_other hd hran fun c p hin => hother ⟨c, p, hin⟩
  | @expired n copy hn =>
    have hne : copy.origin ≠ origin := fun he => hother ⟨copy, hn, he⟩
    refine h.same (fun leg => ?_) (hheld fun _ hi => nomatch hi) rfl rfl ?_
    · simp only [Pool.move_world]
      rw [Broker.expire_retry, Broker.copiesOf_push, if_neg (fun he => hne he.2), List.append_nil]
      exact Broker.copiesOf_remove_of_ne hn hne
    · simp only [Ended, Pool.move_world]
      rw [Broker.expire_retry]
      exact Iff.rfl

/-! ## Steps that are for the publication -/

/-- After a step of the only handler, what is in hand is what is in its hand. -/
theorem inHand_only (h : Sees s origin v) (hstep : Advanced maxRetries outcomes s event s')
    (hi : event.handler = some i) (honly : ∀ j c p, v.held = some (j, c, p) → j = i)
    {held : Option (Nat × Copy × Handler Unit)} (hheld : ∀ j c p, held = some (j, c, p) → j = i)
    (hself : ∀ c p, InHand s' origin i c p ↔ held = some (i, c, p)) (j : Nat) (c : Copy)
    (p : Handler Unit) : InHand s' origin j c p ↔ held = some (j, c, p) := by
  by_cases hj : j = i
  · subst hj
    exact hself c p
  · have hne : event.handler ≠ some j := by
      intro he
      exact hj (Option.some.inj (he.symm.trans hi))
    obtain ⟨hp, hd⟩ := handler_of_ne hstep hne
    refine iff_of_false (fun hin => hj (honly j c p ?_)) (fun he => hj (hheld j c p he))
    exact (h.held j c p).mp ((InHand.congr hp hd).mp hin)

section Own
variable {queued : Option (Leg × Copy)} {held : Option (Nat × Copy × Handler Unit)}
  {delivered processed : List Envelope} {ended : Bool} {m : Message}

/-- Its copy is delivered. -/
theorem Sees.deliver (h : Sees s origin ⟨some (.work, c), none, delivered, processed, ended⟩)
    (hstep : Advanced maxRetries outcomes s (.deliver i n) s')
    (hconcerns : Concerns origin s (.deliver i n)) :
    Sees s' origin ⟨none, some (i, c, handling maxRetries c.message),
      delivered ++ [c.message.body], processed, ended⟩ := by
  have hheld := @inHand_only _ _ _ _ origin _ _ i h hstep rfl (fun _ _ _ he => nomatch he)
    (some (i, c, handling maxRetries c.message)) (by simp)
  cases hstep with
  | @delivered i n copy hi hn =>
    obtain ⟨copy', hn', horigin⟩ := hconcerns
    obtain rfl := Option.some.inj (hn.symm.trans hn')
    obtain ⟨rfl, hrest⟩ := Broker.copiesOf_remove_self hn horigin (h.queued .work)
    refine ⟨fun leg => ?_, hheld fun c p => InHand.iff_of_progs (Broker.deliver_deliveries i)
      (Pool.spawn_progs_self ..) (by rw [handling_eq]; simp) horigin, ?_, h.processed, h.ended⟩
    · by_cases hleg : leg = .work
      · subst hleg
        exact hrest
      · have hq : Queue.mk .chunk leg ≠ ⟨.chunk, .work⟩ := fun he => hleg (Queue.mk.inj he).2
        refine (Broker.copiesOf_remove_of_queue_ne hq).trans ((h.queued leg).trans ?_)
        exact if_neg hleg
    · subst horigin
      exact (Function.update_self ..).trans (by rw [h.delivered])

/-- Its copy goes back to the queue. -/
theorem Sees.expire (h : Sees s origin ⟨some (.retry, c), held, delivered, processed, ended⟩)
    (hstep : Advanced maxRetries outcomes s (.expire n) s')
    (hconcerns : Concerns origin s (.expire n)) :
    Sees s' origin ⟨some (.work, c), held, delivered, processed, ended⟩ := by
  have hheld := @inHand_congr _ _ _ _ origin _ hstep (fun _ he => nomatch he)
  cases hstep with
  | @expired n copy hn =>
    obtain ⟨copy', hn', horigin⟩ := hconcerns
    obtain rfl := Option.some.inj (hn.symm.trans hn')
    obtain ⟨rfl, hrest⟩ := Broker.copiesOf_remove_self hn horigin (h.queued .retry)
    rw [Broker.expire_retry] at hheld ⊢
    refine ⟨fun leg => ?_, fun i c p => (hheld i c p).trans (h.held i c p), h.delivered,
      h.processed, h.ended⟩
    simp only [Pool.move_world]
    rw [Broker.copiesOf_push]
    cases leg with
    | work =>
      rw [Broker.copiesOf_remove_of_queue_ne (by simp), h.queued, if_pos ⟨rfl, horigin⟩]
      rfl
    | retry =>
      rw [hrest, if_neg (by simp)]
      rfl
    | dlq =>
      rw [Broker.copiesOf_remove_of_queue_ne (by simp), h.queued, if_neg (by simp)]
      rfl

/-- `process` is called for it. -/
theorem Sees.process (hs : Sane maxRetries s)
    (h : Sees s origin
      ⟨queued, some (i, c, handling maxRetries c.message), delivered, processed, ended⟩)
    (hstep : advance maxRetries outcomes s (.run i) = some s') :
    Sees s' origin ⟨queued,
      some (i, c, respond maxRetries c.message (defaulted c.message.body)
        (outcomes origin processed.length)),
      delivered, processed ++ [defaulted c.message.body], ended⟩ := by
  have hin := (h.held i c _).mpr rfl
  have hheld := @inHand_only _ _ _ _ origin _ _ i h (advance_cases hs hstep) rfl (by simp)
    (some (i, c, respond maxRetries c.message (defaulted c.message.body)
      (outcomes origin processed.length))) (by simp)
  obtain rfl := hin.origin
  obtain rfl := Option.some.inj ((advance_process hin.delivery hin.prog).symm.trans hstep)
  rw [h.processed] at hheld ⊢
  refine ⟨h.queued, hheld fun c' p => InHand.iff_of_progs hin.delivery (Pool.spawn_progs_self ..) ?_ rfl,
    h.delivered, Function.update_self .., h.ended⟩
  rcases respond_cases maxRetries c.message (outcomes c.origin processed.length) with
    ⟨outcome, hne, he⟩ | ⟨_, _, _, _, -, -, he⟩
  · rw [he]
    simpa using hne
  · rw [he]
    simp

/-- A copy of it is put into another queue. -/
theorem queued_enqueue {b : Broker} {leg : Leg}
    (h : ∀ leg', b.copiesOf ⟨.chunk, leg'⟩ origin = inQueue none leg') (leg' : Leg) :
    (b.enqueue origin m ⟨.chunk, leg⟩).copiesOf ⟨.chunk, leg'⟩ origin =
      inQueue (some (leg, ⟨b.nextCopy, origin, m⟩)) leg' := by
  rw [Broker.copiesOf_enqueue, h]
  by_cases hleg : leg' = leg
  · subst hleg
    simp [inQueue]
  · simp [inQueue, hleg]

/-- Its retry copy is published. -/
theorem Sees.publishRetry (hs : Sane maxRetries s)
    (h : Sees s origin ⟨none, some (i, c,
      .call (.publish .retry ⟨.chunk, .retry⟩ m) fun _ => acking .retried),
      delivered, processed, ended⟩)
    (hstep : advance maxRetries outcomes s (.run i) = some s') :
    Sees s' origin ⟨some (.retry, ⟨s.world.broker.nextCopy, origin, m⟩), none, delivered,
      processed, ended⟩ := by
  have hin := (h.held i c _).mpr rfl
  have hheld := @inHand_only _ _ _ _ origin _ _ i h (advance_cases hs hstep) rfl (by simp) none
    (by simp)
  obtain rfl := hin.origin
  obtain rfl := Option.some.inj ((advance_publish .retry hin.delivery hin.prog).symm.trans hstep)
  refine ⟨queued_enqueue h.queued, hheld fun c' p => iff_of_false ?_ (by simp), h.delivered,
    h.processed, h.ended⟩
  -- the ack is all that is left
  intro hin'
  obtain rfl := Option.some.inj ((Pool.spawn_progs_self ..).symm.trans hin'.prog)
  exact hin'.current rfl

/-- Its dead-letter copy is published. -/
theorem Sees.publishDLQ (hs : Sane maxRetries s)
    (h : Sees s origin ⟨none, some (i, c,
      .call (.publish .dlx ⟨.chunk, .dlq⟩ m) fun _ => acking .deadLettered),
      delivered, processed, ended⟩)
    (hstep : advance maxRetries outcomes s (.run i) = some s') :
    Sees s' origin ⟨some (.dlq, ⟨s.world.broker.nextCopy, origin, m⟩),
      some (i, c, acking .deadLettered), delivered, processed, ended⟩ := by
  have hin := (h.held i c _).mpr rfl
  have hheld := @inHand_only _ _ _ _ origin _ _ i h (advance_cases hs hstep) rfl (by simp)
    (some (i, c, acking .deadLettered)) (by simp)
  obtain rfl := hin.origin
  obtain rfl := Option.some.inj ((advance_publish .dlq hin.delivery hin.prog).symm.trans hstep)
  refine ⟨queued_enqueue h.queued, hheld fun c' p => ?_, h.delivered, h.processed, h.ended⟩
  exact InHand.iff_of_progs hin.delivery (Pool.spawn_progs_self ..) (by simp) rfl

/-- It is settled for good. -/
theorem Sees.settle (hs : Sane maxRetries s) {outcome : Outcome} (hne : outcome ≠ .retried)
    (h : Sees s origin ⟨queued, some (i, c, acking outcome), delivered, processed, ended⟩)
    (hstep : advance maxRetries outcomes s (.run i) = some s') :
    Sees s' origin ⟨queued, none, delivered, processed, true⟩ := by
  have hin := (h.held i c _).mpr rfl
  have hheld := @inHand_only _ _ _ _ origin _ _ i h (advance_cases hs hstep) rfl (by simp) none
    (by simp)
  obtain rfl := hin.origin
  obtain rfl := Option.some.inj ((advance_ack hin.delivery hin.prog).symm.trans hstep)
  refine ⟨h.queued, hheld fun c' p => iff_of_false ?_ (by simp), h.delivered, h.processed,
    iff_of_true ⟨_, List.mem_cons_self .., rfl, hne⟩ rfl⟩
  have hd : (s.world.broker.ack i c outcome).deliveries i =
      some ⟨c, ⟨.chunk, .work⟩, false⟩ := by simp [Broker.ack, Broker.release, hin.delivery]
  exact InHand.not_of_delivery hd (Or.inr rfl)

end Own

/-- What there is to see of a message that has just been published. -/
theorem sees_published (hs : Sane maxRetries s) {m : Message}
    (hstep : advance maxRetries outcomes s (.publish i m) = some s') :
    Sees s' s.world.broker.nextCopy
      ⟨some (.work, ⟨s.world.broker.nextCopy, s.world.broker.nextCopy, m⟩), none, [], [], false⟩ := by
  have hnone : ∀ j c p, ¬ InHand s s.world.broker.nextCopy j c p := by
    intro j c p hin
    exact absurd (hs.held c (.delivered j _ hin.delivery rfl rfl)) (by rw [hin.origin]; omega)
  have hnew : ∀ leg, s.world.broker.copiesOf ⟨.chunk, leg⟩ s.world.broker.nextCopy = [] := by
    intro leg
    refine List.eq_nil_iff_forall_not_mem.mpr ?_
    intro c hc
    obtain ⟨hc, horigin⟩ := Broker.mem_copiesOf.mp hc
    exact absurd (hs.held c (.queued leg hc)) (by omega)
  have hheld := @inHand_congr _ _ _ _ s.world.broker.nextCopy _ (advance_cases hs hstep)
    fun _ he => nomatch he
  obtain ⟨hdelivered, hprocessed⟩ := hs.fresh _ (Nat.le_refl s.world.broker.nextCopy)
  obtain rfl := Option.some.inj hstep
  refine ⟨?_, fun j c p => iff_of_false (fun hin => hnone j c p ((hheld j c p).mp hin)) (by simp),
    hdelivered, hprocessed, iff_of_false ?_ (by simp)⟩
  · simp only [Pool.move_world]
    rw [Broker.publish_ingest]
    exact queued_enqueue hnew
  · rintro ⟨x, hx, horigin, -⟩
    simp only [Pool.move_world] at hx
    rw [Broker.publish_ingest] at hx
    exact absurd (hs.settled x hx) (by omega)

end Steps

end Chunker
end DigitalCip
