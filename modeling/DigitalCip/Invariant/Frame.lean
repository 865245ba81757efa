import DigitalCip.Discipline
import DigitalCip.Invariant.Copies
import DigitalCip.Invariant.Rows

/-!
# What a call leaves alone

For each part of the world, the calls that change it; every other call leaves it
as it was.
-/

namespace DigitalCip
open Resumable

/-! ## A publish and the rest of the broker -/

namespace Broker
variable (b : Broker) (i : Nat) (exchange : Exchange) (key : RoutingKey) (m : Message)

/-- A publish moves the queues, the log and the counter only. -/
theorem publish_rest : (b.publish i exchange key m).deliveries = b.deliveries ∧
    (b.publish i exchange key m).settled = b.settled := by
  unfold publish
  have hlog : (b.log i exchange m).deliveries = b.deliveries ∧
      (b.log i exchange m).settled = b.settled := by
    unfold log
    split <;> exact ⟨rfl, rfl⟩
  generalize b.originOf i exchange = origin
  generalize b.log i exchange m = b₁ at hlog
  induction route exchange key generalizing b₁ with
  | nil => exact hlog
  | cons q qs ih => exact ih (b₁.enqueue origin m q) hlog

@[simp] theorem publish_deliveries : (b.publish i exchange key m).deliveries = b.deliveries :=
  (b.publish_rest i exchange key m).1

@[simp] theorem publish_settled : (b.publish i exchange key m).settled = b.settled :=
  (b.publish_rest i exchange key m).2

theorem publish_accepted :
    (b.publish i exchange key m).accepted = (b.log i exchange m).accepted := by
  unfold publish
  generalize b.originOf i exchange = origin
  generalize b.log i exchange m = b₁
  induction route exchange key generalizing b₁ with
  | nil => rfl
  | cons q qs ih => exact ih (b₁.enqueue origin m q)

theorem mem_publish_accepted : ⟨b.nextCopy, i, m⟩ ∈ (b.publish i .ingest key m).accepted := by
  rw [publish_accepted]
  exact List.mem_append_right _ (List.mem_singleton_self _)

theorem deadLetter_rest (copy : Copy) (q : Queue) :
    (b.deadLetter copy q).deliveries = b.deliveries ∧
      (b.deadLetter copy q).settled = b.settled := by
  unfold deadLetter
  induction deadLetterTargets q generalizing b with
  | nil => exact ⟨rfl, rfl⟩
  | cons q' qs ih => exact ih (b.push copy q')

theorem nack_deliveries (copy : Copy) (q : Queue) :
    (b.nack i copy q).deliveries = (b.release i).deliveries :=
  ((b.release i).deadLetter_rest copy q).1

end Broker

/-! ## Calls and the parts of the world -/

section Does
variable {i : Nat} {c : Call} {v : c.Val} {w w' : World}

/-- Only a publish to `ingest` adds to the log. -/
theorem accepted_of_does (hd : Does i c v w w')
    (hc : ∀ key m, c ≠ .publish .ingest key m) : w'.broker.accepted = w.broker.accepted := by
  cases c with
  | alreadyProcessed | fetchDocument | fetchChunksWithoutEmbedding | downloadObject | embedBatch
  | retryDocument | freshId =>
    obtain ⟨-, rfl⟩ := hd
    rfl
  | createDocument =>
    rcases hd with ⟨e, -, rfl⟩ | ⟨d, db, -, -, rfl⟩ <;> rfl
  | publish exchange key m =>
    obtain rfl := hd
    have hlog : exchange ≠ .ingest := by
      rintro rfl
      exact hc key m rfl
    rw [Broker.publish_accepted, Broker.log, if_neg hlog]
  | ack =>
    obtain ⟨copy, -, rfl⟩ := hd
    rfl
  | nack =>
    obtain ⟨copy, q, -, rfl⟩ := hd
    exact Broker.nack_accepted _ _ _ _
  | _ =>
    obtain rfl := hd
    rfl

/-- Only `record_processed` adds a dedupe row. -/
theorem processed_of_does (hd : Does i c v w w') (hc : ∀ row, c ≠ .recordProcessed row) :
    w'.db.processed = w.db.processed := by
  cases c with
  | alreadyProcessed | fetchDocument | fetchChunksWithoutEmbedding | downloadObject | embedBatch
  | retryDocument | freshId =>
    obtain ⟨-, rfl⟩ := hd
    rfl
  | recordProcessed row => exact absurd rfl (hc row)
  | createDocument =>
    rcases hd with ⟨e, -, rfl⟩ | ⟨d, db, -, htx, rfl⟩
    · rfl
    · obtain ⟨-, -, rfl⟩ := Api.createTransaction_ok htx
      rfl
  | ack =>
    obtain ⟨copy, -, rfl⟩ := hd
    rfl
  | nack =>
    obtain ⟨copy, q, -, rfl⟩ := hd
    rfl
  | _ =>
    obtain rfl := hd
    rfl

/-- Only an update changes a row of `documents`. -/
theorem documents_of_does (hd : Does i c v w w') (hc : ∀ d u, c ≠ .updateDocument d u)
    (hok : w.db.Ok) {d : DocId} {row : Document} (hrow : w.db.documents d = some row) :
    w'.db.documents d = some row := by
  cases c with
  | alreadyProcessed | fetchDocument | fetchChunksWithoutEmbedding | downloadObject | embedBatch
  | retryDocument | freshId =>
    obtain ⟨-, rfl⟩ := hd
    exact hrow
  | updateDocument d u => exact absurd rfl (hc d u)
  | createDocument =>
    rcases hd with ⟨e, -, rfl⟩ | ⟨d, db, -, htx, rfl⟩
    · exact hrow
    · obtain ⟨-, rfl, rfl⟩ := Api.createTransaction_ok htx
      rw [Db.recordEvent_documents, Db.insertDocument_documents, if_neg]
      · exact hrow
      · rintro rfl
        rw [hok.unused _ (le_refl _)] at hrow
        cases hrow
  | ack =>
    obtain ⟨copy, -, rfl⟩ := hd
    exact hrow
  | nack =>
    obtain ⟨copy, q, -, rfl⟩ := hd
    exact hrow
  | _ =>
    obtain rfl := hd
    exact hrow

/-- Only `InsertChunks` makes new chunks; embeddings are only added. -/
theorem chunks_of_does (hd : Does i c v w w') (hc : ∀ d rows, c ≠ .insertChunks d rows)
    {x : DocumentChunk} (hx : x ∈ w'.db.chunks) : ∃ y ∈ w.db.chunks, y.Kept x := by
  cases c with
  | alreadyProcessed | fetchDocument | fetchChunksWithoutEmbedding | downloadObject | embedBatch
  | retryDocument | freshId =>
    obtain ⟨-, rfl⟩ := hd
    exact ⟨x, hx, .refl x⟩
  | insertChunks d rows => exact absurd rfl (hc d rows)
  | writeEmbeddings rows =>
    obtain rfl := hd
    exact Db.kept_writeEmbeddings hx
  | createDocument =>
    rcases hd with ⟨e, -, rfl⟩ | ⟨d, db, -, htx, rfl⟩
    · exact ⟨x, hx, .refl x⟩
    · obtain ⟨-, rfl, rfl⟩ := Api.createTransaction_ok htx
      exact ⟨x, hx, .refl x⟩
  | ack =>
    obtain ⟨copy, -, rfl⟩ := hd
    exact ⟨x, hx, .refl x⟩
  | nack =>
    obtain ⟨copy, q, -, rfl⟩ := hd
    exact ⟨x, hx, .refl x⟩
  | _ =>
    obtain rfl := hd
    exact ⟨x, hx, .refl x⟩

/-- Only `InsertChunks` and `write_embeddings` touch the chunks. -/
theorem chunks_eq_of_does (hd : Does i c v w w') (hinsert : ∀ d rows, c ≠ .insertChunks d rows)
    (hwrite : ∀ rows, c ≠ .writeEmbeddings rows) : w'.db.chunks = w.db.chunks := by
  cases c with
  | alreadyProcessed | fetchDocument | fetchChunksWithoutEmbedding | downloadObject | embedBatch
  | retryDocument | freshId =>
    obtain ⟨-, rfl⟩ := hd
    rfl
  | insertChunks d rows => exact absurd rfl (hinsert d rows)
  | writeEmbeddings rows => exact absurd rfl (hwrite rows)
  | createDocument =>
    rcases hd with ⟨e, -, rfl⟩ | ⟨d, db, -, htx, rfl⟩
    · rfl
    · obtain ⟨-, rfl, rfl⟩ := Api.createTransaction_ok htx
      rfl
  | ack =>
    obtain ⟨copy, -, rfl⟩ := hd
    rfl
  | nack =>
    obtain ⟨copy, q, -, rfl⟩ := hd
    rfl
  | _ =>
    obtain rfl := hd
    rfl

/-- A row after a call is a row from before, a row the call has updated, or a new
one. -/
theorem of_documents_of_does (hd : Does i c v w w') {d : DocId} {row' : Document}
    (hrow : w'.db.documents d = some row') :
    w.db.documents d = some row' ∨
      (∃ u row, c = .updateDocument d u ∧ w.db.documents d = some row ∧ row' = u.apply row) ∨
      ∃ stored, c = .createDocument row' stored := by
  cases c with
  | alreadyProcessed | fetchDocument | fetchChunksWithoutEmbedding | downloadObject | embedBatch
  | retryDocument | freshId =>
    obtain ⟨-, rfl⟩ := hd
    exact Or.inl hrow
  | updateDocument d' u =>
    obtain rfl := hd
    obtain ⟨row, hold, rfl | ⟨rfl, rfl⟩⟩ := Db.of_documents_updateDocument hrow
    · exact Or.inl hold
    · exact Or.inr (Or.inl ⟨u, row, rfl, hold, rfl⟩)
  | createDocument row stored =>
    rcases hd with ⟨e, -, rfl⟩ | ⟨d, db, -, htx, rfl⟩
    · exact Or.inl hrow
    · obtain ⟨-, rfl, rfl⟩ := Api.createTransaction_ok htx
      rw [Db.recordEvent_documents, Db.insertDocument_documents] at hrow
      split at hrow
      · obtain rfl := Option.some.inj hrow
        exact Or.inr (Or.inr ⟨stored, rfl⟩)
      · exact Or.inl hrow
  | ack =>
    obtain ⟨copy, -, rfl⟩ := hd
    exact Or.inl hrow
  | nack =>
    obtain ⟨copy, q, -, rfl⟩ := hd
    exact Or.inl hrow
  | _ =>
    obtain rfl := hd
    exact Or.inl hrow

/-- A dedupe row is old, or in the name of the execution that calls. -/
theorem of_processed_of_does (hd : Does i c v w w') {m : MessageId} {row : StoredMessage}
    (hm : w'.db.processed m = some row) : w.db.processed m = some row ∨ row.execution = i := by
  by_cases hc : ∀ row, c ≠ .recordProcessed row
  · exact Or.inl (processed_of_does hd hc ▸ hm)
  · obtain ⟨row', rfl⟩ := not_forall_not.mp hc
    obtain rfl := hd
    rcases Db.of_processed_recordProcessed hm with hold | ⟨-, -, rfl⟩
    · exact Or.inl hold
    · exact Or.inr rfl

/-- An execution settles only its own delivery, by an ack or a nack. -/
theorem deliveries_of_does (hd : Does i c v w w') {j : Nat}
    (hj : j ≠ i ∨ (∀ o, c ≠ .ack o) ∧ c ≠ .nack) :
    w'.broker.deliveries j = w.broker.deliveries j := by
  have hrelease : j ≠ i → (w.broker.release i).deliveries j = w.broker.deliveries j := by
    intro hne
    rw [Broker.release_deliveries, if_neg hne]
  cases c with
  | alreadyProcessed | fetchDocument | fetchChunksWithoutEmbedding | downloadObject | embedBatch
  | retryDocument | freshId =>
    obtain ⟨-, rfl⟩ := hd
    rfl
  | createDocument =>
    rcases hd with ⟨e, -, rfl⟩ | ⟨d, db, -, -, rfl⟩ <;> rfl
  | publish exchange key m =>
    obtain rfl := hd
    exact congrFun (w.broker.publish_deliveries i exchange key m) j
  | ack o =>
    obtain ⟨copy, -, rfl⟩ := hd
    exact hrelease (hj.resolve_right fun h => h.1 o rfl)
  | nack =>
    obtain ⟨copy, q, -, rfl⟩ := hd
    exact (congrFun (w.broker.nack_deliveries i copy q) j).trans
      (hrelease (hj.resolve_right fun h => h.2 rfl))
  | _ =>
    obtain rfl := hd
    rfl

/-- Only an ack adds to what is settled. -/
theorem settled_of_does (hd : Does i c v w w') (hc : ∀ o, c ≠ .ack o) :
    w'.broker.settled = w.broker.settled := by
  cases c with
  | alreadyProcessed | fetchDocument | fetchChunksWithoutEmbedding | downloadObject | embedBatch
  | retryDocument | freshId =>
    obtain ⟨-, rfl⟩ := hd
    rfl
  | createDocument =>
    rcases hd with ⟨e, -, rfl⟩ | ⟨d, db, -, -, rfl⟩ <;> rfl
  | publish exchange key m =>
    obtain rfl := hd
    exact w.broker.publish_settled i exchange key m
  | ack o => exact absurd rfl (hc o)
  | nack =>
    obtain ⟨copy, q, -, rfl⟩ := hd
    exact ((w.broker.release i).deadLetter_rest copy q).2
  | _ =>
    obtain rfl := hd
    rfl

/-- A call takes nothing from a queue. -/
theorem mem_queues_of_does (hd : Does i c v w w') {q : Queue} {x : Copy}
    (h : x ∈ w.broker.queues q) : x ∈ w'.broker.queues q := by
  cases c with
  | alreadyProcessed | fetchDocument | fetchChunksWithoutEmbedding | downloadObject | embedBatch
  | retryDocument | freshId =>
    obtain ⟨-, rfl⟩ := hd
    exact h
  | createDocument =>
    rcases hd with ⟨e, -, rfl⟩ | ⟨d, db, -, -, rfl⟩ <;> exact h
  | publish exchange key m =>
    obtain rfl := hd
    exact Broker.mem_publish i exchange key m h
  | ack o =>
    obtain ⟨copy, -, rfl⟩ := hd
    exact h
  | nack =>
    obtain ⟨copy, q', -, rfl⟩ := hd
    exact Broker.mem_deadLetter h
  | _ =>
    obtain rfl := hd
    exact h

/-- An event after a call is an old one, the one that is recorded, or that of a new
document. -/
theorem of_mem_events_of_does (hd : Does i c v w w') {e : ProcessingEvent}
    (he : e ∈ w'.db.events) : e ∈ w.db.events ∨ c = .recordEvent e ∨
      e.toState = .uploaded ∧ ∃ row, w'.db.documents e.documentId = some row := by
  cases c with
  | alreadyProcessed | fetchDocument | fetchChunksWithoutEmbedding | downloadObject | embedBatch
  | retryDocument | freshId =>
    obtain ⟨-, rfl⟩ := hd
    exact Or.inl he
  | recordEvent e' =>
    obtain rfl := hd
    refine (List.mem_append.mp he).imp_right fun hmem => Or.inl ?_
    rw [List.mem_singleton.mp hmem]
  | createDocument row stored =>
    rcases hd with ⟨-, -, rfl⟩ | ⟨d, db, -, htx, rfl⟩
    · exact Or.inl he
    · obtain ⟨-, rfl, rfl⟩ := Api.createTransaction_ok htx
      refine (List.mem_append.mp he).imp_right fun hmem => Or.inr ?_
      rw [List.mem_singleton.mp hmem]
      refine ⟨rfl, row, ?_⟩
      rw [Db.recordEvent_documents, Db.insertDocument_documents, if_pos rfl]
  | ack =>
    obtain ⟨copy, -, rfl⟩ := hd
    exact Or.inl he
  | nack =>
    obtain ⟨copy, q, -, rfl⟩ := hd
    exact Or.inl he
  | _ =>
    obtain rfl := hd
    exact Or.inl he

/-- Events are only added. -/
theorem events_of_does (hd : Does i c v w w') : ∃ new, w'.db.events = w.db.events ++ new := by
  have hsame : ∃ new, w.db.events = w.db.events ++ new := ⟨[], (List.append_nil _).symm⟩
  cases c with
  | alreadyProcessed | fetchDocument | fetchChunksWithoutEmbedding | downloadObject | embedBatch
  | retryDocument | freshId =>
    obtain ⟨-, rfl⟩ := hd
    exact hsame
  | recordEvent e =>
    obtain rfl := hd
    exact ⟨[e], rfl⟩
  | createDocument row stored =>
    rcases hd with ⟨e, -, rfl⟩ | ⟨d, db, -, htx, rfl⟩
    · exact hsame
    · obtain ⟨-, -, rfl⟩ := Api.createTransaction_ok htx
      exact ⟨[_], rfl⟩
  | ack =>
    obtain ⟨copy, -, rfl⟩ := hd
    exact hsame
  | nack =>
    obtain ⟨copy, q, -, rfl⟩ := hd
    exact hsame
  | _ =>
    obtain rfl := hd
    exact hsame

end Does

/-! ## The environment -/

/-- Taking a delivery back touches no other delivery. -/
theorem takeBack_deliveries {i j : Nat} (hj : j ≠ i) (w : World) :
    (w.takeBack i).broker.deliveries j = w.broker.deliveries j := by
  rcases takeBack_cases w i with h | ⟨copy, q, -, h⟩ <;> rw [h]
  show ((w.broker.release i).push copy q).deliveries j = _
  rw [Broker.push_deliveries, Broker.release_deliveries, if_neg hj]

/-- What a move of the environment leaves alone. -/
theorem db_of_envMove {s : Sys} {l : Label} {w : World} (h : EnvMove s l w) : w.db = s.world.db := by
  have htake : ∀ i, (s.world.takeBack i).db = s.world.db := by
    intro i
    rcases takeBack_cases s.world i with he | ⟨copy, q, -, he⟩ <;> rw [he]
  cases h with
  | deliver | expire => rfl
  | die | redeliver => exact htake _

/-- The environment publishes nothing and acks nothing. -/
theorem posted_of_envMove {s : Sys} {l : Label} {w : World} (h : EnvMove s l w) :
    w.broker.accepted = s.world.broker.accepted ∧ w.broker.settled = s.world.broker.settled := by
  have htake : ∀ i, (s.world.takeBack i).broker.accepted = s.world.broker.accepted ∧
      (s.world.takeBack i).broker.settled = s.world.broker.settled := by
    intro i
    rcases takeBack_cases s.world i with he | ⟨copy, q, -, he⟩ <;> rw [he] <;> exact ⟨rfl, rfl⟩
  cases h with
  | deliver => exact ⟨rfl, rfl⟩
  | die | redeliver => exact htake _
  | expire =>
    rw [Broker.expire_retry]
    exact ⟨rfl, rfl⟩

theorem accepted_of_envMove {s : Sys} {l : Label} {w : World} (h : EnvMove s l w) :
    w.broker.accepted = s.world.broker.accepted :=
  (posted_of_envMove h).1

theorem deliveries_of_envMove {s : Sys} {l : Label} {w : World} (h : EnvMove s l w) {j : Nat}
    (hj : l ≠ .die j ∧ l ≠ .redeliver j ∧ ∀ S n, l ≠ .deliver j S n) :
    w.broker.deliveries j = s.world.broker.deliveries j := by
  cases h with
  | @deliver i S n copy _ _ =>
    have hne : j ≠ i := by
      rintro rfl
      exact hj.2.2 S n rfl
    simp [Broker.deliver, Broker.remove, hne]
  | @die i _ => exact takeBack_deliveries (fun he => hj.1 (congrArg Label.die he.symm)) _
  | @redeliver i _ _ => exact takeBack_deliveries (fun he => hj.2.1 (congrArg Label.redeliver he.symm)) _
  | expire => rw [Broker.expire_retry, Broker.push_deliveries, Broker.remove_deliveries]

/-! ## Steps and runs about other executions -/

section Runs
variable {cfg : Config} {s s' : Sys} {i : Nat}

theorem deliveries_of_step {l : Label} (h : step cfg s l = some s') (hi : l.execution ≠ some i) :
    s'.world.broker.deliveries i = s.world.broker.deliveries i := by
  rcases world_of_step h with he | hmove | ⟨j, a, c, k, v, rfl, -, hreply⟩
  · rw [he]
  · refine deliveries_of_envMove hmove ⟨?_, ?_, ?_⟩
    · rintro rfl
      exact hi rfl
    · rintro rfl
      exact hi rfl
    · rintro S n rfl
      exact hi rfl
  · exact deliveries_of_does (does_of_reply hreply) (Or.inl fun he => hi (congrArg some he.symm))

theorem progs_of_step {l : Label} (h : step cfg s l = some s') (hi : l.execution ≠ some i) :
    s'.progs i = s.progs i := by
  have hne : ∀ j, l.execution = some j → i ≠ j := fun j hj he => hi (hj.trans (congrArg some he.symm))
  cases l with
  | upload j =>
    obtain ⟨-, rfl⟩ := step_upload h
    exact s.spawn_progs_of_ne j _ (hne j rfl)
  | retryRequest j =>
    obtain ⟨-, rfl⟩ := step_retryRequest h
    exact s.spawn_progs_of_ne j _ (hne j rfl)
  | deliver j =>
    obtain ⟨copy, -, -, rfl⟩ := step_deliver h
    exact Pool.spawn_progs_of_ne _ j _ (hne j rfl)
  | run j a =>
    obtain ⟨c, k, r, w, -, -, rfl⟩ := step_run h
    exact Pool.spawn_progs_of_ne _ j _ (hne j rfl)
  | die j =>
    obtain ⟨-, rfl⟩ := step_die h
    exact s.kill_progs_of_ne j _ (hne j rfl)
  | redeliver =>
    obtain ⟨-, -, rfl⟩ := step_redeliver h
    rfl
  | expire =>
    obtain ⟨copy, -, rfl⟩ := step_expire h
    rfl

/-- A run leaves an execution alone that none of its labels is about. -/
theorem progs_of_run {ls : List Label} (h : run (step cfg) s ls = some s')
    (hi : ∀ l ∈ ls, l.execution ≠ some i) : s'.progs i = s.progs i := by
  induction ls generalizing s with
  | nil =>
    obtain rfl := Option.some.inj h
    rfl
  | cons l ls ih =>
    obtain ⟨s₁, hs₁, hrest⟩ := Option.bind_eq_some_iff.mp h
    rw [ih hrest fun l hl => hi l (List.mem_cons_of_mem _ hl),
      progs_of_step hs₁ (hi l List.mem_cons_self)]

/-- An execution that no label of a run is about has no delivery. -/
theorem deliveries_of_run {ls : List Label} (h : run (step cfg) s ls = some s')
    (hi : ∀ l ∈ ls, l.execution ≠ some i) :
    s'.world.broker.deliveries i = s.world.broker.deliveries i := by
  induction ls generalizing s with
  | nil =>
    obtain rfl := Option.some.inj h
    rfl
  | cons l ls ih =>
    obtain ⟨s₁, hs₁, hrest⟩ := Option.bind_eq_some_iff.mp h
    rw [ih hrest fun l hl => hi l (List.mem_cons_of_mem _ hl),
      deliveries_of_step hs₁ (hi l List.mem_cons_self)]

/-- A number above those of a run's labels is unused after it. -/
theorem unused_of_run {ls : List Label} {n : Nat} (h : run (step cfg) .init ls = some s)
    (hls : ∀ l ∈ ls, ∀ j ∈ l.execution, j < n) (hi : n ≤ i) : s.Unused i := by
  have hne : ∀ l ∈ ls, l.execution ≠ some i := by
    intro l hl he
    have := hls l hl i he
    omega
  refine ⟨?_, ?_⟩
  · rw [progs_of_run h hne]
    rfl
  · rw [deliveries_of_run h hne]
    rfl

theorem events_of_step {l : Label} (h : step cfg s l = some s') :
    ∃ new, s'.world.db.events = s.world.db.events ++ new := by
  rcases world_of_step h with he | hmove | ⟨i, a, c, k, v, -, -, hreply⟩
  · exact ⟨[], by rw [he, List.append_nil]⟩
  · exact ⟨[], by rw [db_of_envMove hmove, List.append_nil]⟩
  · exact events_of_does (does_of_reply hreply)

/-- A run of executions below `n` whose steps pass a check, which implies `ok` as
long as the numbers from `n` on are free. -/
theorem reachable_of_below {n : Nat} {check : Sys → Label → Bool} {ok : Sys → Label → Prop}
    {ls : List Label} (hbelow : ∀ s l, check s l = true → l.execution.all (· < n) = true)
    (hcheck : ∀ s l, (∀ j, n ≤ j → s.progs j = none) → check s l = true → ok s l)
    (h : run (Reaches.guarded (step cfg) check) .init ls = some s) :
    Reachable cfg ok s ∧ ∀ j, n ≤ j → s.progs j = none := by
  have hkeep : ∀ s l s', (∀ j, n ≤ j → s.progs j = none) → check s l = true →
      step cfg s l = some s' → ∀ j, n ≤ j → s'.progs j = none := by
    intro s l s' hnone hc hstep j hj
    have hne : l.execution ≠ some j := by
      intro he
      have hlt := hbelow s l hc
      rw [he, Option.all_some] at hlt
      have hlt := of_decide_eq_true hlt
      omega
    rw [progs_of_step hstep hne]
    exact hnone j hj
  have hreach : Reaches (step cfg) (fun s l => ok s l ∧ check s l = true) .init s :=
    .of_guarded_invariant _ (fun _ _ => rfl) hkeep (fun s l hs hc => ⟨hcheck s l hs hc, hc⟩) h
  exact ⟨hreach.mono fun _ _ h => h.1,
    hreach.invariant (fun _ _ => rfl) fun s l s' hI hok hs => hkeep s l s' hI hok.2 hs⟩

end Runs
end DigitalCip
