import DigitalCip.Invariant.Frame
import DigitalCip.Invariant.Live
import DigitalCip.Resumable.Cost

/-!
# What a message still costs

Handling a message takes calls, and one of them may publish the message of the next
stage, which has to be handled too.  `Stage.cost` counts all of them, and `Broker.load`
adds up what the queued messages cost.  A call that publishes or rejects a message pays
for the load it adds (`load_of_does`).

A consumer affords its stage as long as its calls succeed (`consumer_course`): it
neither retries nor rejects, it hands on at most once, and it stops after its ack.
Without that condition nothing bounds the work of a message, which may be rejected again
and again; but what one execution does is bounded whatever the replies
(`consumer_spends`).
-/

namespace DigitalCip
open Resumable

/-- What the consumer of a message spends, with the consumers of the messages that
follow from it: eleven calls each, and for every message one step that delivers it. -/
def Stage.cost : Stage → Nat
  | .embed => 11
  | .chunk => 23
  | .ocr => 35

/-- What a copy in the queue costs.  One in a retry queue has to expire first. -/
def Queue.weight : Queue → Nat
  | ⟨S, .work⟩ => S.cost + 1
  | ⟨S, .retry⟩ => S.cost + 2
  | ⟨_, .dlq⟩ => 0

/-- What the queued copies cost. -/
def Broker.load (b : Broker) : Nat := (liveQueues.map fun q => (b.queues q).length * q.weight).sum

def World.load (w : World) : Nat := w.broker.load

/-- Execution `i` holds an unsettled delivery. -/
def World.holds (w : World) (i : Nat) : Bool := (w.broker.deliveries i).any Delivery.unsettled

/-- A call that settles the delivery itself. -/
def Call.closing : Call → Bool
  | .ack _ | .nack => true
  | _ => false

/-- A call, and the load it adds at most: that of the copies it publishes, and that of
the delivery it rejects, if the execution still holds one. -/
def Call.price (held : Bool) : Call → Nat
  | .publish exchange key _ => ((route exchange key).map Queue.weight).sum + 1
  | .nack => if held then Queue.weight ⟨.ocr, .retry⟩ + 1 else 1
  | _ => 1

/-! ## The load of the queues -/

namespace Broker
variable (b : Broker)

/-- A queue gets another content. -/
theorem load_update (q : Queue) (copies : List Copy) :
    Broker.load { b with queues := Function.update b.queues q copies } +
        (b.queues q).length * q.weight = b.load + copies.length * q.weight := by
  obtain ⟨S, leg⟩ := q
  cases S <;> cases leg <;>
    simp [load, liveQueues, Queue.weight, Stage.cost, Function.update_apply] <;> omega

theorem load_push (copy : Copy) (q : Queue) : (b.push copy q).load = b.load + q.weight := by
  have h := b.load_update q (b.queues q ++ [copy])
  rw [List.length_append, List.length_singleton, Nat.add_mul, Nat.one_mul] at h
  unfold push
  omega

theorem load_remove {q : Queue} {n : Nat} {copy : Copy} (h : (b.queues q)[n]? = some copy) :
    (b.remove q n).load + q.weight = b.load := by
  have hn : n < (b.queues q).length := (List.getElem?_eq_some_iff.mp h).1
  have hload := b.load_update q ((b.queues q).eraseIdx n)
  have hlength : (b.queues q).length = ((b.queues q).eraseIdx n).length + 1 := by
    rw [List.length_eraseIdx_of_lt hn]
    omega
  rw [hlength, Nat.add_mul, Nat.one_mul] at hload
  unfold remove
  omega

theorem load_publish (i : Nat) (exchange : Exchange) (key : RoutingKey) (m : Message) :
    (b.publish i exchange key m).load = b.load + ((route exchange key).map Queue.weight).sum := by
  unfold publish
  have hlog : (b.log i exchange m).load = b.load := by
    unfold log
    split <;> rfl
  rw [← hlog]
  generalize b.log i exchange m = b'
  induction route exchange key generalizing b' with
  | nil => rfl
  | cons q qs ih =>
    have henqueue : (b'.enqueue (b.originOf i exchange) m q).load = b'.load + q.weight :=
      b'.load_push _ q
    rw [List.foldl_cons, ih, henqueue, List.map_cons, List.sum_cons, Nat.add_assoc]

theorem load_deadLetter (copy : Copy) (q : Queue) :
    (b.deadLetter copy q).load = b.load + ((deadLetterTargets q).map Queue.weight).sum := by
  unfold deadLetter
  induction deadLetterTargets q generalizing b with
  | nil => rfl
  | cons q' qs ih =>
    rw [List.foldl_cons, ih, load_push, List.map_cons, List.sum_cons, Nat.add_assoc]

end Broker

/-- No queue dead-letters into more load. -/
theorem deadLetterTargets_weight (q : Queue) :
    ((deadLetterTargets q).map Queue.weight).sum ≤ Queue.weight ⟨.ocr, .retry⟩ := by
  obtain ⟨S, leg⟩ := q
  cases S <;> cases leg <;> decide

/-- **A call pays for the load it adds.** -/
theorem load_of_does {i : Nat} {c : Call} {v : c.Val} {w w' : World} (hd : Does i c v w w') :
    w'.load < w.load + c.price (w.holds i) := by
  cases c with
  | publish exchange key m =>
    obtain rfl := hd
    show (w.broker.publish i exchange key m).load < w.broker.load + _
    rw [Broker.load_publish]
    exact Nat.lt_succ_self _
  | nack =>
    obtain ⟨copy, q, hdelivery, rfl⟩ := hd
    have hholds : w.holds i = true := by simp [World.holds, hdelivery]
    have hweight := deadLetterTargets_weight q
    show ((w.broker.release i).deadLetter copy q).load < w.broker.load + _
    have hrelease : (w.broker.release i).load = w.broker.load := rfl
    rw [Broker.load_deadLetter, hrelease, hholds]
    simp only [Call.price, if_pos]
    omega
  | ack =>
    obtain ⟨copy, -, rfl⟩ := hd
    exact Nat.lt_succ_self _
  | createDocument =>
    rcases hd with ⟨-, -, rfl⟩ | ⟨-, -, -, -, rfl⟩ <;> exact Nat.lt_succ_self _
  | alreadyProcessed | fetchDocument | fetchChunksWithoutEmbedding | retryDocument | downloadObject
  | embedBatch =>
    obtain ⟨-, rfl⟩ := hd
    exact Nat.lt_succ_self _
  | freshId =>
    obtain ⟨-, rfl⟩ := hd
    exact Nat.lt_succ_self _
  | _ =>
    obtain rfl := hd
    exact Nat.lt_succ_self _

/-- **A call moves the mode of its execution** as the tariff says. -/
theorem mode_of_does {i : Nat} {c : Call} {v : c.Val} {w w' : World} (hd : Does i c v w w') :
    w'.holds i = (w.holds i && !c.closing) := by
  have hother : (∀ o, c ≠ .ack o) ∧ c ≠ .nack → w'.holds i = w.holds i := by
    intro hc
    unfold World.holds
    rw [deliveries_of_does hd (Or.inr hc)]
  have hreleased : ∀ b : Broker, ((b.release i).deliveries i).any Delivery.unsettled = false := by
    intro b
    rw [Broker.release_deliveries, if_pos rfl]
    cases b.deliveries i <;> rfl
  cases c with
  | ack o =>
    obtain ⟨copy, -, rfl⟩ := hd
    rw [Call.closing, Bool.not_true, Bool.and_false]
    exact hreleased w.broker
  | nack =>
    obtain ⟨copy, q, -, rfl⟩ := hd
    rw [Call.closing, Bool.not_true, Bool.and_false]
    show ((w.broker.nack i copy q).deliveries i).any Delivery.unsettled = false
    rw [Broker.nack_deliveries]
    exact hreleased w.broker
  | _ => exact (hother ⟨by simp, by simp⟩).trans (Bool.and_true _).symm

theorem mode_of_does_ne {i j : Nat} (hj : j ≠ i) {c : Call} {v : c.Val} {w w' : World}
    (hd : Does i c v w w') : w'.holds j = w.holds j := by
  unfold World.holds
  rw [deliveries_of_does hd (Or.inl hj)]

/-! ## Consumers whose calls succeed -/

/-- How far a consumer has come with its delivery: it holds it, it has handed the
document on, or it has acked. -/
inductive Phase where
  | holding
  | handed
  | closed
  deriving DecidableEq, Repr

/-- The phase after a call. -/
def Phase.after : Phase → Call → Phase
  | _, .ack _ => .closed
  | _, .publish _ _ _ => .handed
  | phase, _ => phase

/-- What a consumer calls that never has to give a message back: it publishes nothing but
the message of the next stage, and once it has done so, it acks. -/
def Phase.allows : Phase → Call → Prop
  | .holding, .nack => False
  | .holding, .publish exchange _ _ => exchange = .ingest
  | .holding, _ => True
  | .handed, c => ∃ o, c = .ack o
  | .closed, _ => False

/-- The way of a consumer whose calls succeed. -/
def course : Tariff Phase Call Call.Reply where
  price _ := Call.price true
  allowed := Phase.allows
  moves c phase r phase' := (∃ v, r = .ok v) ∧ phase' = phase.after c

/-- The funds that are left in a phase. -/
def Left (n : Nat) (phase : Phase) (a : Nat × Phase) : Prop := n ≤ a.1 ∧ a.2 = phase

/-- A consumer goes its way to the ack, within its funds. -/
abbrev Course {α : Type} (p : Program α) (n : Nat) (phase : Phase) : Prop :=
  course.accounts.Accepts p (fun _ a => a.2 = .closed) (fun _ _ => False) (n, phase)

section Course
variable {α : Type} {c : Call} {n : Nat} {phase : Phase} {Q : α → Nat × Phase → Prop}
  {E : Exc → Nat × Phase → Prop}

/-- A call succeeds and moves the phase. -/
theorem accepts_course {k : c.Reply → Program α} (n' : Nat) (hallowed : phase.allows c)
    (hprice : c.price true + n' = n)
    (hk : ∀ v, course.accounts.Accepts (k (.ok v)) Q E (n', phase.after c)) :
    course.accounts.Accepts (Prog.perform c >>= k) Q E (n, phase) := by
  refine Tariff.accounts_perform hallowed (Nat.le.intro hprice) ?_
  rintro r _ ⟨⟨v, rfl⟩, rfl⟩
  have hleft : n - course.price phase c = n' := by
    show n - c.price true = n'
    omega
  rw [hleft]
  exact hk v

/-- A call off the broker costs only itself. -/
theorem accepts_one {k : c.Reply → Program α} (hallowed : Phase.holding.allows c)
    (hprice : c.price true = 1) (hafter : Phase.holding.after c = .holding)
    (hk : ∀ v, course.accounts.Accepts (k (.ok v)) Q E (n, .holding)) :
    course.accounts.Accepts (Prog.perform c >>= k) Q E (n + 1, .holding) := by
  refine accepts_course n hallowed (by rw [hprice, Nat.add_comm]) fun v => ?_
  rw [hafter]
  exact hk v

/-- The same in Python. -/
theorem accepts_one_call {k : c.Val → Program α} (hallowed : Phase.holding.allows c)
    (hprice : c.price true = 1) (hafter : Phase.holding.after c = .holding)
    (hk : ∀ v, course.accounts.Accepts (k v) Q E (n, .holding)) :
    course.accounts.Accepts (call c >>= k) Q E (n + 1, .holding) := by
  rw [Automaton.accepts_bind]
  exact accepts_one hallowed hprice hafter hk

/-- The ack. -/
theorem accepts_ack {o : Outcome} {k : (Call.ack o).Reply → Program α} (hphase : phase ≠ .closed)
    (hk : ∀ v, course.accounts.Accepts (k (.ok v)) Q E (n, .closed)) :
    course.accounts.Accepts (Prog.perform (.ack o) >>= k) Q E (n + 1, phase) := by
  refine accepts_course n ?_ (Nat.add_comm 1 n) hk
  cases phase with
  | holding => trivial
  | handed => exact ⟨o, rfl⟩
  | closed => exact absurd rfl hphase

/-- The message of the next stage. -/
theorem accepts_next {S : Stage} {m : Message}
    {k : (Call.publish .ingest ⟨S, .work⟩ m).Reply → Program α}
    (hk : course.accounts.Accepts (k (.ok ())) Q E (n, .handed)) :
    course.accounts.Accepts (Prog.perform (.publish .ingest ⟨S, .work⟩ m) >>= k) Q E
      (S.cost + 2 + n, .holding) := by
  refine accepts_course n rfl ?_ fun _ => hk
  simp [Call.price, Queue.weight]

end Course

/-- A Python consumer whose handler raises nothing but `PermanentError`. -/
theorem Python.onMessage_course {N : Type} {cfg : Config} {S : Stage} {m : Message} {n : Nat}
    {handler : Envelope → Program (Option N)} {publishNext : Envelope → N → Program Unit} (next : Nat)
    (hhandler : course.accounts.Accepts (handler m.body)
      (fun r => Left (if r.isSome then next + 1 else 1) .holding)
      (fun e a => (∃ reason, e = .permanent reason) ∧ Left 1 .holding a) (n, .holding))
    (hnext : ∀ v n, course.accounts.Accepts (publishNext m.body v) (fun _ => Left n .handed)
      (fun _ _ => False) (next + n, .holding)) :
    Course (onMessage cfg.maxRetries envelopeCodec (channel S m) handler publishNext m.body)
      n .holding := by
  have hack : ∀ o phase a, phase ≠ .closed → Left 1 phase a →
      course.accounts.Accepts ((channel S m).ack o) (fun _ a => a.2 = .closed) (fun _ _ => False) a := by
    rintro o phase ⟨n, _⟩ hphase ⟨hn, rfl⟩
    obtain ⟨n, rfl⟩ := Nat.exists_eq_add_of_le' hn
    exact accepts_ack hphase fun _ => rfl
  show course.accounts.Accepts (tryCatch _ _) _ _ _
  refine Automaton.Accepts.tryCatch
    (F := fun e a => (∃ reason, e = .permanent reason) ∧ Left 1 .holding a) ?_ ?_
  · rw [Automaton.accepts_bind]
    refine hhandler.mono ?_ fun _ _ h => h
    rintro (_ | v) a ha
    · exact (hack .success _ a (by decide) ha).mono (fun _ _ h => h) fun _ _ h => h.elim
    · obtain ⟨n, b⟩ := a
      obtain ⟨hn, rfl⟩ := ha
      obtain ⟨n, rfl⟩ := Nat.exists_eq_add_of_le (Nat.le_of_succ_le hn)
      rw [Automaton.accepts_bind]
      refine (hnext v n).mono (fun _ a ha => ?_) fun _ _ h => h.elim
      refine (hack .success _ a (by decide) ⟨?_, ha.2⟩).mono (fun _ _ h => h) fun _ _ h => h.elim
      have hone : next + 1 ≤ next + n := hn
      exact Nat.le_trans (by omega) ha.1
  · rintro e a ⟨⟨reason, rfl⟩, ha⟩
    exact hack .permanent _ a (by decide) ha

/-- The checks and the `except` clauses of a Python handler. -/
theorem Python.handle_course {α : Type} {S : Stage} {env : Envelope} {n : Nat} {skipped : α}
    {work : Document → Program α} {Q : α → Nat × Phase → Prop}
    (hskipped : ∀ k, 1 ≤ k → Q skipped (k, .holding))
    (hwork : ∀ document, course.accounts.Accepts (work document) Q
      (fun e a => (∃ reason, e = .permanent reason) ∧ Left 3 .holding a) (n + 1, .holding)) :
    course.accounts.Accepts (handle S skipped work env) Q
      (fun e a => (∃ reason, e = .permanent reason) ∧ Left 1 .holding a) (n + 3, .holding) := by
  unfold handle alreadyProcessed fetchDocument
  refine accepts_one_call trivial rfl rfl fun seen => ?_
  split
  · exact hskipped (n + 2) (Nat.le_add_left 1 _)
  refine accepts_one_call trivial rfl rfl fun found => ?_
  split
  · exact ⟨⟨_, rfl⟩, Nat.le_add_left 1 n, rfl⟩
  split
  · exact hskipped (n + 1) (Nat.le_add_left 1 n)
  refine (hwork _).tryCatch ?_
  rintro _ ⟨n, _⟩ ⟨⟨reason, rfl⟩, hn, rfl⟩
  obtain ⟨n, rfl⟩ := Nat.exists_eq_add_of_le' hn
  unfold onError recordEvent
  exact accepts_one_call trivial rfl rfl fun _ => accepts_one_call trivial rfl rfl fun _ =>
    ⟨⟨_, rfl⟩, Nat.le_add_left 1 n, rfl⟩

namespace Ocr
variable {cfg : Config} {env : Envelope} {m : Message}

theorem recognise_course (document : Document) (objectKey : ObjectKey) :
    course.accounts.Accepts (recognise env document objectKey)
      (fun r => Left (if r.isSome then 26 else 1) .holding)
      (fun e a => (∃ reason, e = .permanent reason) ∧ Left 3 .holding a) (33, .holding) := by
  unfold recognise updateDocumentStatus Python.recordEvent Python.recordProcessed
  refine accepts_one_call trivial rfl rfl fun _ => accepts_one_call trivial rfl rfl fun _ =>
    accepts_one_call trivial rfl rfl fun blob => ?_
  split
  · exact ⟨⟨_, rfl⟩, by decide, rfl⟩
  refine accepts_one_call trivial rfl rfl fun text => ?_
  dsimp only
  split
  · exact ⟨⟨_, rfl⟩, by decide, rfl⟩
  exact accepts_one_call trivial rfl rfl fun _ => accepts_one_call trivial rfl rfl fun _ =>
    accepts_one_call trivial rfl rfl fun _ => ⟨Nat.le_refl 26, rfl⟩

theorem handle_course :
    course.accounts.Accepts (handle env) (fun r => Left (if r.isSome then 26 else 1) .holding)
      (fun e a => (∃ reason, e = .permanent reason) ∧ Left 1 .holding a) (35, .holding) :=
  Python.handle_course (n := 32) (fun _ hk => ⟨hk, rfl⟩) fun _ => recognise_course _ _

theorem publishNext_course (payload : Payload) (n : Nat) :
    course.accounts.Accepts (publishNext env payload) (fun _ => Left n .handed) (fun _ _ => False)
      (25 + n, .holding) :=
  accepts_next (S := .chunk) ⟨Nat.le_refl n, rfl⟩

end Ocr

namespace Embedder
variable {env : Envelope}

theorem embed_course (document : Document) :
    course.accounts.Accepts (embed env document) (fun _ => Left 1 .holding)
      (fun e a => (∃ reason, e = .permanent reason) ∧ Left 3 .holding a) (9, .holding) := by
  unfold embed updateDocument Python.recordEvent Python.recordProcessed
  refine accepts_one_call trivial rfl rfl fun _ => accepts_one_call trivial rfl rfl fun _ =>
    accepts_one_call trivial rfl rfl fun chunks => ?_
  have hrecord : ∀ (row : ProcessedMessage) n, course.accounts.Accepts (call (.recordProcessed row))
      (fun _ => Left 1 .holding) (fun e a => (∃ reason, e = .permanent reason) ∧ Left 3 .holding a)
      (n + 2, .holding) :=
    fun row n => accepts_one trivial rfl rfl fun _ => ⟨Nat.le_add_left 1 n, rfl⟩
  split
  · exact accepts_one_call trivial rfl rfl fun _ => accepts_one_call trivial rfl rfl fun _ =>
      hrecord _ 2
  refine accepts_one_call trivial rfl rfl fun vectors => ?_
  rw [Automaton.accepts_bind]
  have hrest : ∀ n rows, course.accounts.Accepts (do
      updateDocument env.documentId { status := .embedded, embeddedAt := some .now }
      Python.recordEvent env.documentId .embed (some .embedding) .embedded
        s!"Embedded {rows} chunks" [("chunks", .num rows)]
      Python.recordProcessed (processedRow env rows)) (fun _ => Left 1 .holding)
      (fun e a => (∃ reason, e = .permanent reason) ∧ Left 3 .holding a) (n + 4, .holding) :=
    fun n rows => accepts_one_call trivial rfl rfl fun _ => accepts_one_call trivial rfl rfl fun _ =>
      hrecord _ n
  unfold writeEmbeddings
  split
  · exact hrest 1 _
  · exact accepts_one trivial rfl rfl fun _ => hrest 0 _

theorem handle_course :
    course.accounts.Accepts (handle env) (fun _ => Left 1 .holding)
      (fun e a => (∃ reason, e = .permanent reason) ∧ Left 1 .holding a) (11, .holding) :=
  Python.handle_course (n := 8) (fun _ hk => ⟨hk, rfl⟩) fun _ => embed_course _

theorem onMessage_course {cfg : Config} {m : Message} : Course (onMessage cfg m) 11 .holding := by
  unfold onMessage
  refine Python.onMessage_course 0 ?_ fun v => by cases v
  rw [Automaton.accepts_bind]
  exact handle_course.mono (fun _ _ h => h) fun _ _ h => h

end Embedder

namespace Chunker
variable {cfg : Config} {env : Envelope}

/-- The result is no error, or a permanent one. -/
def Conclusive (r : Option GoError) : Prop := ∀ e, r = some e → ∃ message, e = .permanent message

/-- `process` leaves the delivery to be acked. -/
def Acks (r : Option GoError) (a : Nat × Phase) : Prop :=
  Conclusive r ∧ 1 ≤ a.1 ∧ a.2 ≠ .closed

theorem publishNext_course (n : Nat) :
    course.accounts.Accepts (publishNext env n) Acks (fun _ _ => False) (15, .holding) := by
  unfold publishNext
  refine accepts_one trivial rfl rfl fun id => ?_
  have hnone : Conclusive none := fun e he => by cases he
  exact accepts_next (S := .embed) (n := 1) ⟨hnone, Nat.le_refl 1, by decide⟩

theorem chunkDocument_course (rawText : Text) :
    course.accounts.Accepts (chunkDocument cfg env rawText) Acks (fun _ _ => False)
      (19, .holding) := by
  unfold chunkDocument
  dsimp only
  split
  · refine accepts_one trivial rfl rfl fun _ => accepts_one trivial rfl rfl fun _ => ?_
    exact ⟨fun e he => ⟨_, (Option.some.inj he).symm⟩, by decide, by decide⟩
  exact accepts_one trivial rfl rfl fun _ => accepts_one trivial rfl rfl fun _ =>
    accepts_one trivial rfl rfl fun _ => accepts_one trivial rfl rfl fun _ => publishNext_course _

theorem process_course :
    course.accounts.Accepts (process cfg env) Acks (fun _ _ => False) (23, .holding) := by
  have hpermanent : ∀ message, Conclusive (some (.permanent message)) :=
    fun message e he => ⟨_, (Option.some.inj he).symm⟩
  have hnone : Conclusive none := fun e he => by cases he
  unfold process
  split
  · exact ⟨hpermanent _, by decide, by decide⟩
  refine accepts_one trivial rfl rfl fun seen => ?_
  cases seen with
  | true => exact ⟨hnone, by decide, by decide⟩
  | false =>
    refine accepts_one trivial rfl rfl fun found => ?_
    cases found with
    | none => exact ⟨hpermanent _, by decide, by decide⟩
    | some doc =>
      dsimp only
      split
      · exact ⟨hnone, by decide, by decide⟩
      split
      · exact ⟨hpermanent _, by decide, by decide⟩
      exact accepts_one trivial rfl rfl fun _ => accepts_one trivial rfl rfl fun _ =>
        chunkDocument_course _

theorem handle_course {m : Message} : Course (handle cfg m) 23 .holding := by
  have hack : ∀ o (a : Nat × Phase), 1 ≤ a.1 → a.2 ≠ .closed → Course
      (Prog.perform (.ack o) >>= fun _ => pure () : Program Unit) a.1 a.2 := by
    rintro o ⟨n, phase⟩ hn hphase
    obtain ⟨n, rfl⟩ := Nat.exists_eq_add_of_le' hn
    exact accepts_ack hphase fun _ => rfl
  unfold handle
  dsimp only
  rw [Course, Automaton.accepts_bind]
  refine process_course.mono ?_ fun _ _ h => h
  rintro r a ⟨hr, hn, hphase⟩
  split
  · exact hack _ a hn hphase
  · exact hack _ a hn hphase
  · rename_i e hne
    obtain ⟨message, rfl⟩ := hr e rfl
    exact absurd rfl (hne message)

end Chunker

/-- **A consumer whose calls succeed goes its way**: it never rejects, retries or
dead-letters its message, it hands on at most once and just before its ack, it always
acks, and it spends no more than its stage costs. -/
theorem consumer_course (cfg : Config) (S : Stage) (m : Message) :
    Course (consumer cfg S m) S.cost .holding := by
  cases S with
  | ocr => exact Python.onMessage_course 25 Ocr.handle_course Ocr.publishNext_course
  | chunk => exact Chunker.handle_course
  | embed => exact Embedder.onMessage_course

/-- The calls succeed, except that a delivery that is not held cannot be settled. -/
def tariff : Tariff Bool Call Call.Reply where
  price := Call.price
  allowed _ _ := True
  moves c held r held' :=
    ((∃ v, r = .ok v) ∨ c.closing = true ∧ held = false) ∧ held' = (held && !c.closing)

theorem Call.price_pos (held : Bool) (c : Call) : 0 < c.price held := by
  cases c with
  | nack => cases held <;> decide
  | publish => exact Nat.succ_pos _
  | _ => exact Nat.one_pos

theorem Call.price_le (held : Bool) (c : Call) : c.price held ≤ c.price true := by
  cases c with
  | nack => cases held <;> decide
  | _ => exact Nat.le_refl _

theorem consumer_affords (cfg : Config) (S : Stage) (m : Message) :
    tariff.Affords (consumer cfg S m) S.cost true := by
  have haffords : course.Affords (consumer cfg S m) S.cost .holding :=
    (consumer_course cfg S m).mono (fun _ _ _ => trivial) fun _ _ _ => trivial
  refine haffords.mono (fun phase held => held = true ↔ phase ≠ .closed)
    (fun _ held c _ => c.price_le held) (fun _ _ _ _ _ => trivial) ?_ (Nat.le_refl _) (by decide)
  rintro phase held c r _ hheld hallowed ⟨hr, rfl⟩
  have hopen : phase ≠ .closed := by
    rintro rfl
    exact hallowed
  obtain rfl := hheld.mpr hopen
  refine ⟨phase.after c, ⟨hr.resolve_right fun h => Bool.noConfusion h.2, rfl⟩, ?_⟩
  cases phase with
  | holding =>
    cases c with
    | nack => exact hallowed.elim
    | _ => simp [Call.closing, Phase.after]
  | handed =>
    obtain ⟨o, rfl⟩ := hallowed
    simp [Call.closing, Phase.after]
  | closed => exact absurd rfl hopen

end DigitalCip
