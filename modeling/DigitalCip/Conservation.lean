import DigitalCip.Invariant.Footprint
import DigitalCip.Invariant.Live
import DigitalCip.Invariant.Runs

/-!
# Message conservation

A message is the copies that have its origin.  A consumer that retries or
dead-letters a message makes a new copy and then acks the old one, so a message
is kept as long as no ack comes before its copy.  The Python consumers see to
that by raising; the chunker acks whether or not its publish succeeded
(`not_conserved`).  In runs in which these publishes of the chunker do not fail,
every message is kept (`conserved`).

Copies are numbered in the order in which they are made, so an acked copy has
been replaced by one with a higher number; the argument follows the numbers.
-/

namespace DigitalCip
open Resumable

/-- A copy in one of the three queues of a stage, or in an unsettled delivery. -/
def Located (b : Broker) (S : Stage) (c : Copy) : Prop :=
  (∃ leg, c ∈ b.queues ⟨S, leg⟩) ∨ ∃ i, b.deliveries i = some ⟨c, ⟨S, .work⟩, true⟩

/-- A copy of the message `origin` with a number from `n` on is located, or some
copy of it was settled because its handler succeeded or failed for good. -/
def Kept (b : Broker) (S : Stage) (origin n : Nat) : Prop :=
  (∃ c, Located b S c ∧ c.origin = origin ∧ n ≤ c.id) ∨
    ∃ c outcome, (c, outcome) ∈ b.settled ∧ c.origin = origin ∧
      (outcome = .success ∨ outcome = .permanent)

/-- No message is lost: every accepted message is kept, and what a consumer acked
after a transient failure has been replaced before. -/
structure Conserved (w : World) : Prop where
  accepted : ∀ p ∈ w.broker.accepted, Kept w.broker p.message.body.stage p.copy 0
  replaced : ∀ c outcome, (c, outcome) ∈ w.broker.settled →
    outcome = .retried ∨ outcome = .deadLettered →
      Kept w.broker c.message.body.stage c.origin (c.id + 1)

/-- The chunker's publishes to `ingest.retry` and `ingest.dlx` do not fail. -/
def chunkerRepublishes (s : Sys) : Label → Prop
  | .run i (.fail _) => ∀ exchange key m, s.pending i = some (.publish exchange key m) →
      exchange ≠ .ingest → key.stage ≠ .chunk
  | _ => True

/-! ## What keeps a message -/

section Kept
variable {b b' : Broker} {S : Stage} {origin n : Nat}

/-- Each located copy stays located, or gives way to one with a higher number. -/
theorem Kept.move (h : Kept b S origin n)
    (hlocated : ∀ c, Located b S c → Located b' S c ∨ Kept b' S c.origin c.id)
    (hsettled : ∀ p ∈ b.settled, p ∈ b'.settled) : Kept b' S origin n := by
  rcases h with ⟨c, hc, rfl, hn⟩ | ⟨c, outcome, hc, ho, hout⟩
  · rcases hlocated c hc with hc' | ⟨c', hc', ho', hn'⟩ | hdone
    · exact Or.inl ⟨c, hc', rfl, hn⟩
    · exact Or.inl ⟨c', hc', ho', hn.trans hn'⟩
    · exact Or.inr hdone
  · exact Or.inr ⟨c, outcome, hsettled _ hc, ho, hout⟩

theorem Kept.weaken {n' : Nat} (h : Kept b S origin n) (hn : n' ≤ n) : Kept b S origin n' := by
  rcases h with ⟨c, hc, ho, hle⟩ | hdone
  · exact Or.inl ⟨c, hc, ho, hn.trans hle⟩
  · exact Or.inr hdone

theorem Located.push {c copy : Copy} {q : Queue} (h : Located b S c) :
    Located (b.push copy q) S c := by
  rcases h with ⟨leg, hc⟩ | ⟨i, hd⟩
  · exact Or.inl ⟨leg, Broker.mem_push.mpr (Or.inl hc)⟩
  · exact Or.inr ⟨i, hd⟩

theorem located_push (b : Broker) (copy : Copy) (q : Queue) :
    Located (b.push copy q) q.stage copy :=
  Or.inl ⟨q.leg, Broker.mem_push.mpr (Or.inr ⟨rfl, rfl⟩)⟩

/-- A new copy is kept, under its number. -/
theorem kept_enqueue (b : Broker) (origin : Nat) (m : Message) (q : Queue) :
    Kept (b.enqueue origin m q) q.stage origin b.nextCopy :=
  Or.inl ⟨⟨b.nextCopy, origin, m⟩, Or.inl ⟨q.leg, Broker.mem_push.mpr (Or.inr ⟨rfl, rfl⟩)⟩, rfl,
    le_refl _⟩

theorem Located.publish {c : Copy} (h : Located b S c) (i : Nat) (exchange : Exchange)
    (key : RoutingKey) (m : Message) : Located (b.publish i exchange key m) S c := by
  rcases h with ⟨leg, hc⟩ | ⟨j, hd⟩
  · exact Or.inl ⟨leg, Broker.mem_publish i exchange key m hc⟩
  · exact Or.inr ⟨j, by rw [Broker.publish_deliveries, hd]⟩

/-- Releasing the delivery of `i` leaves every copy located but the one it holds. -/
theorem Located.release {c copy : Copy} {i : Nat} {q : Queue} {u : Bool} (h : Located b S c)
    (hd : b.deliveries i = some ⟨copy, q, u⟩) :
    Located (b.release i) S c ∨ c = copy ∧ q = ⟨S, .work⟩ := by
  rcases h with ⟨leg, hc⟩ | ⟨j, hj⟩
  · exact Or.inl (Or.inl ⟨leg, hc⟩)
  · by_cases hji : j = i
    · subst hji
      rw [hd] at hj
      cases hj
      exact Or.inr ⟨rfl, rfl⟩
    · refine Or.inl (Or.inr ⟨j, ?_⟩)
      rwa [Broker.release_deliveries, if_neg hji]

/-- Taking the `n`-th copy out of a queue leaves every other copy located. -/
theorem Located.remove {c copy : Copy} {q : Queue} {k : Nat} (h : Located b S c)
    (hcopy : (b.queues q)[k]? = some copy) :
    Located (b.remove q k) S c ∨ c = copy ∧ q.stage = S := by
  rcases h with ⟨leg, hc⟩ | ⟨i, hd⟩
  · by_cases hcc : c = copy ∧ q.stage = S
    · exact Or.inr hcc
    · refine Or.inl (Or.inl ⟨leg, ?_⟩)
      by_cases hq : (⟨S, leg⟩ : Queue) = q
      · exact (Broker.mem_remove hcopy hc).resolve_right fun he => hcc ⟨he, hq ▸ rfl⟩
      · simpa [Broker.remove, hq] using hc
  · exact Or.inl (Or.inr ⟨i, hd⟩)

end Kept

/-! ## Every step keeps every message -/

/-- Whatever is kept in `w` is kept in `w'`. -/
def KeepsAll (w w' : World) : Prop :=
  ∀ S origin n, Kept w.broker S origin n → Kept w'.broker S origin n

section Steps
variable {w w' : World} {i : Nat}

theorem KeepsAll.of_located {b : Broker} (h : ∀ S c, Located w.broker S c → Located b S c)
    (hsettled : b.settled = w.broker.settled) : KeepsAll w { w with broker := b } :=
  fun S _ _ hk => hk.move (fun c hc => Or.inl (h S c hc)) fun _ hp => hsettled ▸ hp

theorem keepsAll_takeBack (j : Nat) : KeepsAll w (w.takeBack j) := by
  rcases takeBack_cases w j with h | ⟨copy, ⟨T, leg⟩, hd, h⟩ <;> rw [h]
  · exact fun _ _ _ => id
  · refine .of_located (fun S c hc => ?_) rfl
    rcases hc.release hd with hc' | ⟨rfl, hq⟩
    · exact hc'.push
    · cases hq
      exact located_push _ _ _

theorem keepsAll_envMove {s : Sys} {l : Label} (h : EnvMove s l w) : KeepsAll s.world w := by
  cases h with
  | @deliver j S n copy hunused hcopy =>
    refine .of_located (fun T c hc => ?_) rfl
    have hnone : s.world.broker.deliveries j = none := by simpa using hunused.2
    rcases hc.remove hcopy with (⟨leg, hc'⟩ | ⟨k, hk⟩) | ⟨rfl, rfl⟩
    · exact Or.inl ⟨leg, hc'⟩
    · refine Or.inr ⟨k, ?_⟩
      have hkj : k ≠ j := by
        rintro rfl
        rw [Broker.remove_deliveries, hnone] at hk
        cases hk
      simpa [Broker.deliver, hkj] using hk
    · exact Or.inr ⟨j, by simp [Broker.deliver]⟩
  | die => exact keepsAll_takeBack _
  | redeliver => exact keepsAll_takeBack _
  | @expire S n copy hcopy =>
    refine .of_located (fun T c hc => ?_) ?_
    · rw [Broker.expire_retry]
      rcases hc.remove hcopy with hc' | ⟨rfl, rfl⟩
      · exact hc'.push
      · exact located_push _ _ _
    · rw [Broker.expire_retry]
      rfl

/-- A call keeps every message, unless it is an ack that comes too early. -/
theorem keepsAll_of_does {c : Call} {v : c.Val} (hb : Base w) (hd : Does i c v w w')
    (hack : ∀ copy, c = .ack .retried ∨ c = .ack .deadLettered → w.broker.handled i = some copy →
      ∀ S, Located w.broker S copy → Kept w.broker S copy.origin (copy.id + 1)) :
    KeepsAll w w' := by
  cases c with
  | alreadyProcessed | fetchDocument | fetchChunksWithoutEmbedding | downloadObject | embedBatch
  | retryDocument | freshId =>
    obtain ⟨-, rfl⟩ := hd
    exact fun _ _ _ => id
  | createDocument =>
    rcases hd with ⟨e, -, rfl⟩ | ⟨d, db, -, -, rfl⟩ <;> exact fun _ _ _ => id
  | publish exchange key m =>
    obtain rfl := hd
    exact .of_located (fun _ _ hc => hc.publish i exchange key m)
      (w.broker.publish_settled i exchange key m)
  | nack =>
    obtain ⟨copy, ⟨T, leg⟩, hdel, rfl⟩ := hd
    obtain rfl : leg = .work := hb.mail.fromWork i _ hdel
    rw [Broker.nack_work]
    refine .of_located (fun S c hc => ?_) rfl
    rcases hc.release hdel with hc' | ⟨rfl, hq⟩
    · exact hc'.push
    · cases hq
      exact located_push _ _ _
  | ack o =>
    obtain ⟨copy, ⟨q, hdel⟩, rfl⟩ := hd
    have hacked : ∀ S c, Located w.broker S c →
        Located (w.broker.ack i copy o) S c ∨ c = copy ∧ q = ⟨S, .work⟩ := by
      intro S c hc
      rcases hc.release hdel with (⟨leg, hc'⟩ | ⟨j, hj⟩) | hc'
      · exact Or.inl (Or.inl ⟨leg, hc'⟩)
      · exact Or.inl (Or.inr ⟨j, hj⟩)
      · exact Or.inr hc'
    have hdone : o = .success ∨ o = .permanent → ∀ S, Kept (w.broker.ack i copy o) S copy.origin
        copy.id := fun ho S => Or.inr ⟨copy, o, List.mem_cons_self, rfl, ho⟩
    intro S origin n hk
    refine hk.move (fun c hc => (hacked S c hc).imp_right ?_) fun p hp => List.mem_cons_of_mem _ hp
    rintro ⟨rfl, -⟩
    by_cases ho : o = .success ∨ o = .permanent
    · exact hdone ho S
    · -- the copy has been replaced, and its replacement is not the one that is acked
      have hkept := hack c (by cases o <;> simp_all) (by simp [Broker.handled, hdel]) S hc
      rcases hkept with ⟨c', hc', hco, hn⟩ | ⟨c', o', hc', hco, ho'⟩
      · refine Or.inl ⟨c', (hacked S c' hc').resolve_right ?_, hco, (Nat.le_succ _).trans hn⟩
        rintro ⟨rfl, -⟩
        exact absurd hn (Nat.not_succ_le_self _)
      · exact Or.inr ⟨c', o', List.mem_cons_of_mem _ hc', hco, ho'⟩
  | _ =>
    obtain rfl := hd
    exact fun _ _ _ => id

/-- A call that publishes only where the message belongs, and acks in time. -/
structure InTime (w : World) (i : Nat) (c : Call) : Prop where
  key : ∀ key m, c = .publish .ingest key m → key = ⟨m.body.stage, .work⟩
  ack : ∀ copy, c = .ack .retried ∨ c = .ack .deadLettered → w.broker.handled i = some copy →
    Kept w.broker copy.message.body.stage copy.origin (copy.id + 1)

theorem Located.stage {b : Broker} {S : Stage} {c : Copy} (h : Located b S c)
    (hheld : ∀ S c, b.Holds S c → Stems b S c) : c.message.body.stage = S := by
  have hstems : Stems b S c := by
    rcases h with ⟨leg, hc⟩ | ⟨i, hd⟩
    · exact hheld S c (.queued leg hc)
    · exact hheld S c (.delivered i _ hd rfl rfl)
  obtain ⟨p, -, -, hS, halike⟩ := hstems.source
  exact halike.stage.trans hS

/-- **A call in time loses no message.** -/
theorem Conserved.does {c : Call} {v : c.Val} (h : Conserved w) (hb : Base w) (hd : Does i c v w w')
    (hc : InTime w i c) : Conserved w' ∧ KeepsAll w w' := by
  have hkeeps : KeepsAll w w' := keepsAll_of_does hb hd fun copy ho hcopy S hS =>
    hS.stage hb.mail.held ▸ hc.ack copy ho hcopy
  refine ⟨⟨fun p hp => ?_, fun copy o ho hout => ?_⟩, hkeeps⟩
  · by_cases hpub : ∀ key m, c ≠ .publish .ingest key m
    · rw [accepted_of_does hd hpub] at hp
      exact hkeeps _ _ _ (h.accepted p hp)
    · obtain ⟨key, m, rfl⟩ : ∃ key m, c = .publish .ingest key m := by
        by_contra hno
        exact hpub fun key m he => hno ⟨key, m, he⟩
      obtain rfl := hc.key key m rfl
      obtain rfl := hd
      rcases w.broker.of_mem_publish_accepted hp with hold | ⟨-, rfl⟩
      · exact hkeeps _ _ _ (h.accepted p hold)
      · rw [Broker.publish_ingest]
        exact (kept_enqueue w.broker w.broker.nextCopy m ⟨m.body.stage, .work⟩).weaken (Nat.zero_le _)
  · by_cases hack : ∀ o, c ≠ .ack o
    · rw [settled_of_does hd hack] at ho
      exact hkeeps _ _ _ (h.replaced copy o ho hout)
    · obtain ⟨o', rfl⟩ := not_forall_not.mp hack
      obtain ⟨copy', ⟨q, hdel⟩, rfl⟩ := hd
      rcases List.mem_cons.mp ho with he | hold
      · cases he
        refine hkeeps _ _ _ (hc.ack copy ?_ (by simp [Broker.handled, hdel]))
        rcases hout with rfl | rfl
        · exact Or.inl rfl
        · exact Or.inr rfl
      · exact hkeeps _ _ _ (h.replaced copy o hold hout)

theorem Conserved.envMove {s : Sys} {l : Label} (h : Conserved s.world)
    (hmove : EnvMove s l w) : Conserved w := by
  have hkeeps := keepsAll_envMove hmove
  have hsame := posted_of_envMove hmove
  exact ⟨fun p hp => hkeeps _ _ _ (h.accepted p (hsame.1 ▸ hp)),
    fun c o hc ho => hkeeps _ _ _ (h.replaced c o (hsame.2 ▸ hc) ho)⟩

end Steps

/-! ## The consumers -/

/-- The runs in which the chunker's copies are accepted. -/
def conservationDiscipline : Discipline where
  ok := chunkerRepublishes
  known := Base
  moves := Grows
  admits _ c a _ := ∀ reason, a = .fail reason → ∀ exchange key m, c = .publish exchange key m →
    exchange ≠ .ingest → key.stage ≠ .chunk
  inv := Conserved
  rely _ _ := KeepsAll
  guar _ _ w _ w' := KeepsAll w w'
  moves_refl := .refl
  moves_trans _ _ _ := .trans
  rely_refl _ _ _ _ _ _ := id
  rely_trans _ _ _ _ _ h h' S origin n hk := h' S origin n (h S origin n hk)
  post _ _ := True

section Consumers
variable {i : Nat} {S : Stage} {env : Envelope} {w : World} {cfg : Config} {m : Message}

/-- The calls that are always in time. -/
def Prompt (c : Call) : Prop :=
  (c ≠ .ack .retried ∧ c ≠ .ack .deadLettered) ∧
    ∀ key m, c = .publish .ingest key m → key = ⟨m.body.stage, .work⟩

theorem keeps_handles : conservationDiscipline.Keeps i (fun w => Handles w i S env) Prompt where
  stable c w w' _ h hg _ _ _ := h.mono hg
  fail _ _ _ _ _ _ _ _ _ _ := id
  does c w v w' a hc h hb hinv _ hg _ _ hd := by
    obtain ⟨hinv', hkeeps⟩ := hinv.does hb hd
      ⟨hc.2, fun _ ho => absurd ho (not_or.mpr hc.1)⟩
    exact ⟨hinv', hkeeps, h.mono hg⟩

/-- The message execution `i` handles has been replaced by a newer copy. -/
def Replaced (i : Nat) (S : Stage) (w : World) : Prop :=
  ∃ c, w.broker.handled i = some c ∧ c.message.body.stage = S ∧
    Kept w.broker S c.origin (c.id + 1)

/-- An ack that comes after the copy. -/
theorem wp_ackReplaced {α : Type} {o : Outcome} {k : (Call.ack o).Reply → Program α}
    {Q : α → World → Prop} {E : Exc → World → Prop} (hw : Replaced i S w)
    (hk : ∀ r w, wp conservationDiscipline.rules i (k r) Q E w) :
    wp conservationDiscipline.rules i (Prog.perform (.ack o) >>= k) Q E w := by
  refine Discipline.wp_perform (D := conservationDiscipline) (Replaced i S) hw ?_ ?_ ?_
  · rintro w w' ⟨c, hc, hS, hkept⟩ hg - hr -
    exact ⟨c, hg.broker.handled hc, hS, hr _ _ _ hkept⟩
  · exact fun w reason _ _ _ _ _ => ⟨fun _ _ _ => id, hk _ w⟩
  · rintro w v w' a ⟨c, hc, rfl, hkept⟩ hb hinv - - - - hd
    have hin : InTime w i (.ack o) := by
      refine ⟨by simp, fun copy _ hcopy => ?_⟩
      obtain rfl := Option.some.inj (hc.symm.trans hcopy)
      exact hkept
    obtain ⟨hinv', hkeeps⟩ := hinv.does hb hd hin
    exact ⟨hinv', hkeeps, hk _ w'⟩

/-- A copy of the message execution `i` handles is published to `ingest.retry` or
`ingest.dlx`. -/
theorem wp_republish {α : Type} {exchange : Exchange} {leg : Leg}
    {k : (Call.publish exchange ⟨S, leg⟩ m).Reply → Program α} {Q : α → World → Prop}
    {E : Exc → World → Prop} (hexchange : exchange = .retry ∧ leg = .retry ∨
      exchange = .dlx ∧ leg = .dlq) (hw : Handles w i S env)
    (hfail : ∀ reason w, S ≠ .chunk → Handles w i S env →
      wp conservationDiscipline.rules i (k (.error reason)) Q E w)
    (hok : ∀ w, Handles w i S env → Replaced i S w →
      wp conservationDiscipline.rules i (k (.ok ())) Q E w) :
    wp conservationDiscipline.rules i (Prog.perform (.publish exchange ⟨S, leg⟩ m) >>= k) Q E w := by
  refine Discipline.wp_perform (D := conservationDiscipline) (fun w => Handles w i S env) hw
    (fun w w' h hg _ _ _ => h.mono hg) ?_ ?_
  · intro w reason h _ _ _ hadmits
    refine ⟨fun _ _ _ => id, hfail reason w (hadmits reason rfl _ _ m rfl ?_) h⟩
    rcases hexchange with ⟨rfl, -⟩ | ⟨rfl, -⟩ <;> simp
  · intro w v w' a h hb hinv _ hg _ _ hd
    have hin : InTime w i (.publish exchange ⟨S, leg⟩ m) := by
      refine ⟨fun key m he => ?_, by simp⟩
      rcases hexchange with ⟨rfl, -⟩ | ⟨rfl, -⟩ <;> cases he
    obtain ⟨hinv', hkeeps⟩ := hinv.does hb hd hin
    refine ⟨hinv', hkeeps, hok w' (h.mono hg) ?_⟩
    obtain ⟨c, hc, hstems, -⟩ := h
    have hstage : c.message.body.stage = S := by
      obtain ⟨p, -, -, hS, halike⟩ := hstems.source
      exact halike.stage.trans hS
    refine ⟨c, hg.broker.handled hc, hstage, ?_⟩
    obtain rfl := hd
    have horigin : ∀ ex : Exchange, ex ≠ .ingest → w.broker.originOf i ex = c.origin :=
      fun ex he => originOf_of_handled he c hc
    rcases hexchange with ⟨rfl, rfl⟩ | ⟨rfl, rfl⟩
    · rw [Broker.publish_retry, horigin .retry (by decide)]
      exact (kept_enqueue w.broker c.origin m ⟨S, .retry⟩).weaken hstems.id_lt
    · rw [Broker.publish_dlx, horigin .dlx (by decide)]
      exact (kept_enqueue w.broker c.origin m ⟨S, .dlq⟩).weaken hstems.id_lt

theorem retry_conserves (hw : Handles w i S m.body) :
    wp conservationDiscipline.rules i (Python.retry cfg.maxRetries Python.envelopeCodec
      (Python.channel S m) m.body) (fun _ _ => True) (fun _ _ => True) w := by
  unfold Python.retry
  simp only [Python.envelopeCodec, Python.channel]
  have hack : ∀ o w, Replaced i S w → wp conservationDiscipline.rules i (call (.ack o))
      (fun _ _ => True) (fun _ _ => True) w :=
    fun o w h => wp_ackReplaced h fun r _ => by cases r <;> trivial
  split
  · trivial
  · rw [wp_bind]
    exact wp_republish (Or.inr ⟨rfl, rfl⟩) hw (fun _ _ _ _ => trivial) fun w _ h => hack _ w h
  · rw [wp_bind]
    exact wp_republish (Or.inl ⟨rfl, rfl⟩) hw (fun _ _ _ _ => trivial) fun w _ h => hack _ w h

theorem prompt_of_internal {T : Stage} {id : MessageId} {d : DocId} {c : Call}
    (h : Internal T id d c) :
    Prompt c := by
  refine ⟨⟨?_, ?_⟩, ?_⟩
  · rintro rfl
    exact h
  · rintro rfl
    exact h
  · rintro key m rfl
    exact h.elim

theorem prompt_of_handing {T : Stage} {d : DocId} {c : Call} (h : Handing T d c) : Prompt c := by
  refine ⟨⟨?_, ?_⟩, ?_⟩
  · rintro rfl
    exact h
  · rintro rfl
    exact h
  · rintro key m rfl
    obtain ⟨rfl, rfl, -⟩ := h
    rfl

/-- A Python consumer, whatever its handler does off the broker. -/
theorem onMessage_conserves {N : Type} {handler : Envelope → Program (Option N)}
    {publishNext : Envelope → N → Program Unit} (hhandler : (handler m.body).Calls Prompt)
    (hnext : ∀ n, (publishNext m.body n).Calls Prompt) (hw : Handles w i S m.body) :
    wp conservationDiscipline.rules i (Python.onMessage cfg.maxRetries Python.envelopeCodec
      (Python.channel S m) handler publishNext m.body) (fun _ _ => True) (fun _ _ => True) w := by
  have hack : ∀ o, o ≠ .retried → o ≠ .deadLettered → ((Python.channel S m).ack o).Calls Prompt :=
    fun o h h' => calls_call ⟨⟨by simpa using h, by simpa using h'⟩, by simp⟩
  show wp conservationDiscipline.rules i (tryCatch _ _) _ _ w
  rw [wp_tryCatch]
  refine wp_mono (keeps_handles.calls (.bind hhandler fun r => ?_) hw) (fun _ _ _ => trivial) ?_
  · cases r with
    | none => exact hack _ (by decide) (by decide)
    | some next => exact .bind (hnext next) fun _ => hack _ (by decide) (by decide)
  · intro e w₁ h₁
    cases e with
    | permanent =>
      exact wp_mono (keeps_handles.calls (hack .permanent (by decide) (by decide)) h₁)
        (fun _ _ _ => trivial) fun _ _ _ => trivial
    | transient => exact retry_conserves h₁
    | other =>
      have hquiet : (Python.unhandled (Python.channel S m)).Calls Prompt :=
        .tryCatch (calls_call ⟨⟨by simp, by simp⟩, by simp⟩) fun _ => trivial
      exact wp_mono (keeps_handles.calls hquiet h₁) (fun _ _ _ => trivial) fun _ _ _ => trivial

/-- The chunker, whose copies are accepted in these runs. -/
theorem chunker_conserves (hw : Handles w i .chunk m.body) :
    wp conservationDiscipline.rules i (Chunker.handle cfg m) (fun _ _ => True)
      (fun _ _ => True) w := by
  unfold Chunker.handle
  dsimp only
  have halike := Chunker.alike_defaultAttempt m.body
  generalize (if m.body.attempt = 0 then { m.body with attempt := 1 } else m.body) = env
    at halike ⊢
  rw [wp_bind]
  have hprompt : (Chunker.process cfg env).Calls Prompt :=
    (Chunker.process_calls cfg env).mono fun c h => h.elim prompt_of_internal prompt_of_handing
  refine wp_mono (keeps_handles.calls hprompt (hw.alike halike)) (fun r w₁ h₁ => ?_)
    fun _ _ _ => trivial
  have hack : ∀ o, o ≠ .retried → o ≠ .deadLettered → wp conservationDiscipline.rules i
      (Prog.perform (.ack o) >>= fun _ => pure ()) (fun _ _ => True) (fun _ _ => True) w₁ :=
    fun o h h' => keeps_handles.perform_then ⟨⟨by simpa using h, by simpa using h'⟩, by simp⟩ h₁
      fun _ _ _ => trivial
  split
  · exact hack _ (by decide) (by decide)
  · exact hack _ (by decide) (by decide)
  · split
    · exact wp_republish (Or.inr ⟨rfl, rfl⟩) h₁ (fun _ _ h _ => absurd rfl h)
        fun w _ h => wp_ackReplaced h fun _ _ => trivial
    · exact wp_republish (Or.inl ⟨rfl, rfl⟩) h₁ (fun _ _ h _ => absurd rfl h)
        fun w _ h => wp_ackReplaced h fun _ _ => trivial

end Consumers

/-! ## Every run -/

theorem keeps_request {i : Nat} : conservationDiscipline.Keeps i (fun _ => True) Prompt where
  stable _ _ _ _ _ _ _ _ _ := trivial
  fail _ _ _ _ _ _ _ _ _ _ := id
  does c w v w' a hc _ hb hinv _ _ _ _ hd := by
    obtain ⟨hinv', hkeeps⟩ := hinv.does hb hd ⟨hc.2, fun _ ho => absurd ho (not_or.mpr hc.1)⟩
    exact ⟨hinv', hkeeps, trivial⟩

theorem prompt_of_upload {c : Call} (h : Api.UploadCall c) : Prompt c := by
  refine ⟨⟨?_, ?_⟩, ?_⟩
  · rintro rfl
    exact h
  · rintro rfl
    exact h
  · rintro key m rfl
    rw [h.1, h.2]

theorem prompt_of_retry {c : Call} (h : Api.RetryCall c) : Prompt c := by
  refine ⟨⟨?_, ?_⟩, ?_⟩
  · rintro rfl
    exact h
  · rintro rfl
    exact h
  · rintro key m rfl
    exact h.elim

theorem conservation_sound (cfg : Config) : conservationDiscipline.Sound cfg .init where
  reached := .start
  known s h := reachable_base h
  moves s l s' h _ hstep := grows_of_step h hstep
  start := Discipline.safe_init ⟨fun p hp => (nomatch hp), fun c o h => (nomatch h)⟩
  admits s i a c k _ _ hok hp := by
    rintro reason rfl exchange key m rfl
    exact hok exchange key m (Pool.pending_of_progs hp)
  others _ _ _ _ _ _ _ _ _ _ _ _ hguar _ _ _ _ _ := hguar
  env s l w _ hsafe _ hmove _ _ :=
    ⟨hsafe.1.envMove hmove, fun _ _ _ _ _ => keepsAll_envMove hmove⟩
  upload s i upload title tenantId _ _ _ _ _ :=
    Api.upload_keeps (keeps_request.mono fun _ => prompt_of_upload) _ _ _ trivial
  retryRequest s i documentId _ _ _ _ _ :=
    Api.retryAction_keeps (keeps_request.mono fun _ => prompt_of_retry) _ trivial
  consumer s i S n copy w _ _ _ _ hi _ hw hb _ := by
    obtain ⟨hwork, -, -⟩ := hb.delivered hi hw
    cases S with
    | ocr =>
      exact onMessage_conserves ((Ocr.handle_internal _).mono fun _ => prompt_of_internal)
        (fun n => (Ocr.publishNext_handing _ n).mono fun _ => prompt_of_handing) hwork.handles
    | chunk => exact chunker_conserves hwork.handles
    | embed =>
      show wp conservationDiscipline.rules i (Embedder.onMessage cfg copy.message) _ _ w
      unfold Embedder.onMessage
      refine onMessage_conserves ?_ (fun n => nomatch n) hwork.handles
      exact .bind ((Embedder.handle_internal _).mono fun _ => prompt_of_internal) fun _ => trivial

/-- **No message is lost** in a run in which the chunker's publishes to
`ingest.retry` and `ingest.dlx` do not fail. -/
theorem conserved {cfg : Config} {s : Sys} (h : Reachable cfg chunkerRepublishes s) :
    Conserved s.world :=
  ((conservation_sound cfg).safe h).1

theorem chunkerRepublishes_of_answered {s : Sys} {l : Label} (h : answered s l = true) :
    chunkerRepublishes s l := by
  cases l with
  | run i a =>
    cases a with
    | fail => cases h
    | ok | id | text | vectors => trivial
  | upload | retryRequest | deliver | die | redeliver | expire => trivial

/-- After a whole sample run all three messages of the document are settled. -/
theorem conserved_sample : ∃ s : Sys, s.world.broker.accepted.length = 3 ∧ Conserved s.world := by
  obtain ⟨s, hs, hlength⟩ := exists_run (Reaches.guarded (step sampleConfig) answered) .init
    wholeRun (fun s : Sys => s.world.broker.accepted.length = 3) (by decide)
  exact ⟨s, hlength, conserved (.of_guarded (fun _ _ => chunkerRepublishes_of_answered) hs)⟩

/-- The chunker's idempotency check fails, then its publish to `ingest.retry`
fails too, and it acks. -/
def droppedRun : List Label :=
  uploadRun ++ ocrRun 1 ++ .deliver 2 .chunk 0 :: answers 2 [.fail "db", .fail "broker", .ok]

/-- **A message can be lost.** -/
theorem not_conserved : ¬ ∀ (cfg : Config) (s : Sys), Reachable cfg anyStep s →
    Conserved s.world := by
  intro hall
  obtain ⟨s, hs, haccepted, hsettled, hdlq, hidle⟩ := exists_run (step sampleConfig) .init droppedRun
    (fun s : Sys => (s.world.broker.accepted.any fun p => p.copy = 1) = true ∧
      (s.world.broker.settled.all fun p => p.1.origin ≠ 1 ∨ p.2 = .retried) = true ∧
      ([Stage.ocr, .chunk, .embed].all fun S => (s.world.broker.queues ⟨S, .dlq⟩).isEmpty) = true ∧
      s.Idle 3) (by decide)
  obtain ⟨p, hp, hcopy⟩ := List.any_eq_true.mp haccepted
  have hnolive := hidle.not_live hs (by decide)
  rcases (hall sampleConfig s (.of_run hs)).accepted p hp with ⟨c, hc, -, -⟩ | ⟨c, o, hc, ho, hout⟩
  · rcases hc with ⟨leg, hc⟩ | ⟨i, hd⟩
    · cases leg with
      | work => exact hnolive c (Or.inl ⟨_, .work, by decide, hc⟩)
      | retry => exact hnolive c (Or.inl ⟨_, .retry, by decide, hc⟩)
      | dlq =>
        have hempty := List.all_eq_true.mp hdlq p.message.body.stage
          (by cases p.message.body.stage <;> decide)
        rw [List.isEmpty_iff.mp hempty] at hc
        cases hc
    · exact hnolive c (Or.inr ⟨i, _, hd⟩)
  · have hlost := List.all_eq_true.mp hsettled _ hc
    rw [ho, of_decide_eq_true hcopy] at hlost
    rcases hout with rfl | rfl <;> simp at hlost

end DigitalCip
