import DigitalCip.Invariant.Frame

/-!
# What the world holds of one document

The `Ledger` of a document is what the tables hold of it, without the ids of its
chunks; its `Mailbox` is its messages in the queues, delivered, and accepted by
`ingest`, without the ids and the origins of their copies.  Both kinds of ids
depend on what happens to other documents.

An operation of the broker on a message of the document does to the mailbox what
it does to the broker; one on a message of another document leaves it alone.
-/

namespace DigitalCip
open Resumable

/-- A chunk without its id: its position, content, token count and embedding. -/
def DocumentChunk.data (c : DocumentChunk) : Nat × Text × Nat × Option Vec :=
  (c.position, c.content, c.tokenCount, c.embedding)

/-- What the tables hold of a document: its row, its chunks, its events and the
dedupe rows of its messages. -/
@[ext] structure Ledger where
  row : Option Document
  chunks : List (Nat × Text × Nat × Option Vec)
  events : List ProcessingEvent
  processed : MessageId → Option StoredMessage

/-- The dedupe row of a message, if it is for document `d`. -/
def Db.processedOf (db : Db) (d : DocId) (m : MessageId) : Option StoredMessage :=
  (db.processed m).filter fun row => row.documentId = d

def Db.ledger (db : Db) (d : DocId) : Ledger where
  row := db.documents d
  chunks := (db.chunksOf d).map DocumentChunk.data
  events := db.trail d
  processed := db.processedOf d

/-- The messages of document `d` among the copies in a queue. -/
def mailOf (d : DocId) (copies : List Copy) : List Message :=
  (copies.filter fun c => c.message.body.documentId = d).map Copy.message

/-- How many of the first `n` copies are of document `d`. -/
def rankOf (d : DocId) (copies : List Copy) (n : Nat) : Nat := (mailOf d (copies.take n)).length

section Mail
variable {d : DocId} {copies : List Copy} {copy : Copy} {n : Nat}

theorem mailOf_append (copies copies' : List Copy) :
    mailOf d (copies ++ copies') = mailOf d copies ++ mailOf d copies' := by
  unfold mailOf
  rw [List.filter_append, List.map_append]

theorem mailOf_singleton (h : copy.message.body.documentId = d) : mailOf d [copy] = [copy.message] := by
  simp [mailOf, h]

theorem mailOf_singleton_of_ne (h : copy.message.body.documentId ≠ d) : mailOf d [copy] = [] := by
  simp [mailOf, h]

/-- A queue around its `n`-th copy. -/
theorem take_append_drop_of_getElem? (h : copies[n]? = some copy) :
    copies = copies.take n ++ copy :: copies.drop (n + 1) ∧
      copies.eraseIdx n = copies.take n ++ copies.drop (n + 1) := by
  obtain ⟨hn, rfl⟩ := List.getElem?_eq_some_iff.mp h
  refine ⟨?_, List.eraseIdx_eq_take_drop_succ ..⟩
  rw [List.getElem_cons_drop, List.take_append_drop]

/-- A copy of another document does not count. -/
theorem mailOf_eraseIdx_of_ne (h : copies[n]? = some copy) (hd : copy.message.body.documentId ≠ d) :
    mailOf d (copies.eraseIdx n) = mailOf d copies := by
  obtain ⟨hcopies, herase⟩ := take_append_drop_of_getElem? h
  rw [herase, mailOf_append]
  conv_rhs => rw [hcopies, mailOf_append, ← List.singleton_append, mailOf_append,
    mailOf_singleton_of_ne hd, List.nil_append]

/-- The copy that is taken out. -/
theorem mailOf_getElem? (h : copies[n]? = some copy) (hd : copy.message.body.documentId = d) :
    (mailOf d copies)[rankOf d copies n]? = some copy.message ∧
      mailOf d (copies.eraseIdx n) = (mailOf d copies).eraseIdx (rankOf d copies n) := by
  obtain ⟨hcopies, herase⟩ := take_append_drop_of_getElem? h
  have hmail : mailOf d copies = mailOf d (copies.take n) ++ copy.message ::
      mailOf d (copies.drop (n + 1)) := by
    conv_lhs => rw [hcopies, mailOf_append, ← List.singleton_append, mailOf_append,
      mailOf_singleton hd, List.singleton_append]
  rw [herase, mailOf_append, hmail]
  unfold rankOf
  refine ⟨by simp, ?_⟩
  rw [List.eraseIdx_append_of_length_le (le_refl _), Nat.sub_self]
  rfl

/-- A message of the document is the one of some copy. -/
theorem exists_of_mailOf_getElem? {k : Nat} {m : Message} (h : (mailOf d copies)[k]? = some m) :
    ∃ n copy, copies[n]? = some copy ∧ copy.message = m ∧ copy.message.body.documentId = d ∧
      rankOf d copies n = k := by
  induction copies generalizing k with
  | nil => simp [mailOf] at h
  | cons c copies ih =>
    by_cases hc : c.message.body.documentId = d
    · have hmail : mailOf d (c :: copies) = c.message :: mailOf d copies := by
        simp [mailOf, hc]
      rw [hmail] at h
      cases k with
      | zero => exact ⟨0, c, rfl, Option.some.inj h, hc, rfl⟩
      | succ k =>
        obtain ⟨n, copy, hn, hm, hd, hrank⟩ := ih h
        refine ⟨n + 1, copy, hn, hm, hd, ?_⟩
        unfold rankOf at hrank ⊢
        rw [List.take_succ_cons, ← hrank]
        simp [mailOf, hc]
    · have hmail : mailOf d (c :: copies) = mailOf d copies := by
        simp [mailOf, hc]
      rw [hmail] at h
      obtain ⟨n, copy, hn, hm, hd, hrank⟩ := ih h
      refine ⟨n + 1, copy, hn, hm, hd, ?_⟩
      unfold rankOf at hrank ⊢
      rw [List.take_succ_cons, ← hrank]
      simp [mailOf, hc]

theorem rankOf_le {n' : Nat} (h : n ≤ n') : rankOf d copies n ≤ rankOf d copies n' := by
  have htake : copies.take n = (copies.take n').take n := by
    rw [List.take_take, Nat.min_eq_left h]
  unfold rankOf mailOf
  rw [htake]
  exact (((List.take_sublist n _).filter _).map _).length_le

theorem rankOf_succ (h : copies[n]? = some copy) (hd : copy.message.body.documentId = d) :
    rankOf d copies (n + 1) = rankOf d copies n + 1 := by
  unfold rankOf
  rw [List.take_add_one, h, mailOf_append, Option.toList_some, mailOf_singleton hd,
    List.length_append, List.length_singleton]

/-- A copy of the document is found by its rank. -/
theorem rankOf_inj {n' : Nat} {copy' : Copy} (h : copies[n]? = some copy)
    (hd : copy.message.body.documentId = d) (h' : copies[n']? = some copy')
    (hd' : copy'.message.body.documentId = d) (he : rankOf d copies n = rankOf d copies n') :
    n = n' := by
  have hsucc := rankOf_succ h hd
  have hsucc' := rankOf_succ h' hd'
  rcases Nat.lt_trichotomy n n' with hlt | heq | hlt
  · have hle : rankOf d copies (n + 1) ≤ rankOf d copies n' := rankOf_le hlt
    omega
  · exact heq
  · have hle : rankOf d copies (n' + 1) ≤ rankOf d copies n := rankOf_le hlt
    omega

end Mail

/-! ## Mailboxes -/

/-- The messages of a document: accepted by `ingest`, with the execution that
published each, in the queues, and delivered. -/
@[ext] structure Mailbox where
  published : List (Nat × Message)
  queues : Queue → List Message
  deliveries : Nat → Option (Message × Queue × Bool)

def Broker.mailbox (b : Broker) (d : DocId) : Mailbox where
  published := (b.accepted.filter fun p => p.message.body.documentId = d).map fun p =>
    (p.publisher, p.message)
  queues q := mailOf d (b.queues q)
  deliveries i := ((b.deliveries i).filter fun dl => dl.copy.message.body.documentId = d).map fun dl =>
    (dl.copy.message, dl.queue, dl.unsettled)

namespace Mailbox

def push (b : Mailbox) (m : Message) (q : Queue) : Mailbox :=
  { b with queues := Function.update b.queues q (b.queues q ++ [m]) }

def log (b : Mailbox) (i : Nat) (exchange : Exchange) (m : Message) : Mailbox :=
  if exchange = .ingest then { b with published := b.published ++ [(i, m)] } else b

def publish (b : Mailbox) (i : Nat) (exchange : Exchange) (key : RoutingKey) (m : Message) : Mailbox :=
  (route exchange key).foldl (fun b' q => b'.push m q) (b.log i exchange m)

def release (b : Mailbox) (i : Nat) : Mailbox :=
  { b with
    deliveries := Function.update b.deliveries i
      ((b.deliveries i).map fun d => (d.1, d.2.1, false)) }

def deadLetter (b : Mailbox) (m : Message) (q : Queue) : Mailbox :=
  (deadLetterTargets q).foldl (fun b' q' => b'.push m q') b

def nack (b : Mailbox) (i : Nat) (m : Message) (q : Queue) : Mailbox := (b.release i).deadLetter m q

def requeue (b : Mailbox) (i : Nat) (m : Message) (q : Queue) : Mailbox := (b.release i).push m q

/-- The broker takes the delivery of execution `i` back, if it is unsettled. -/
def takeBack (b : Mailbox) (i : Nat) : Mailbox :=
  match b.deliveries i with
  | some (m, q, true) => b.requeue i m q
  | _ => b

def remove (b : Mailbox) (q : Queue) (k : Nat) : Mailbox :=
  { b with queues := Function.update b.queues q ((b.queues q).eraseIdx k) }

def deliver (b : Mailbox) (i : Nat) (q : Queue) (k : Nat) (m : Message) : Mailbox :=
  { b.remove q k with deliveries := Function.update b.deliveries i (some (m, q, true)) }

def expire (b : Mailbox) (q : Queue) (k : Nat) (m : Message) : Mailbox :=
  (b.remove q k).deadLetter m q

end Mailbox

namespace Broker
variable (b : Broker) {d : DocId} {i n : Nat} {q : Queue} {m : Message} {copy : Copy}
  {exchange : Exchange} {key : RoutingKey}

theorem mailbox_push (h : copy.message.body.documentId = d) :
    (b.push copy q).mailbox d = (b.mailbox d).push copy.message q := by
  refine Mailbox.ext rfl (funext fun q' => ?_) rfl
  simp only [mailbox, push, Mailbox.push, Function.update_apply]
  split
  · rw [mailOf_append, mailOf_singleton h]
  · rfl

theorem mailbox_push_of_ne (h : copy.message.body.documentId ≠ d) :
    (b.push copy q).mailbox d = b.mailbox d := by
  refine Mailbox.ext rfl (funext fun q' => ?_) rfl
  simp only [mailbox, push, Function.update_apply]
  split
  · rename_i hq
    rw [mailOf_append, mailOf_singleton_of_ne h, List.append_nil, hq]
  · rfl

theorem mailbox_log (h : m.body.documentId = d) :
    (b.log i exchange m).mailbox d = (b.mailbox d).log i exchange m := by
  unfold log Mailbox.log
  split
  · refine Mailbox.ext ?_ rfl rfl
    show ((b.accepted ++ [_]).filter _).map _ = _
    rw [List.filter_append, List.map_append]
    simp [mailbox, h]
  · rfl

theorem mailbox_log_of_ne (h : m.body.documentId ≠ d) :
    (b.log i exchange m).mailbox d = b.mailbox d := by
  unfold log
  split
  · refine Mailbox.ext ?_ rfl rfl
    show ((b.accepted ++ [_]).filter _).map _ = _
    rw [List.filter_append, List.map_append]
    simp [mailbox, h]
  · rfl

theorem mailbox_publish (h : m.body.documentId = d) :
    (b.publish i exchange key m).mailbox d = (b.mailbox d).publish i exchange key m := by
  unfold publish Mailbox.publish
  rw [← b.mailbox_log h]
  generalize b.log i exchange m = b'
  induction route exchange key generalizing b' with
  | nil => rfl
  | cons q qs ih =>
    rw [List.foldl_cons, List.foldl_cons, ih]
    congr 1
    exact b'.mailbox_push h

theorem mailbox_publish_of_ne (h : m.body.documentId ≠ d) :
    (b.publish i exchange key m).mailbox d = b.mailbox d := by
  unfold publish
  have hlog : (b.log i exchange m).mailbox d = b.mailbox d := b.mailbox_log_of_ne h
  rw [← hlog]
  generalize b.log i exchange m = b'
  induction route exchange key generalizing b' with
  | nil => rfl
  | cons q qs ih =>
    rw [List.foldl_cons, ih]
    exact b'.mailbox_push_of_ne h

theorem mailbox_release : (b.release i).mailbox d = (b.mailbox d).release i := by
  refine Mailbox.ext rfl rfl (funext fun j => ?_)
  simp only [mailbox, release, Mailbox.release, Function.update_apply]
  split
  · cases b.deliveries i with
    | none => rfl
    | some dl => by_cases hd : dl.copy.message.body.documentId = d <;> simp [Option.filter, hd]
  · rfl

theorem mailbox_deadLetter (h : copy.message.body.documentId = d) :
    (b.deadLetter copy q).mailbox d = (b.mailbox d).deadLetter copy.message q := by
  unfold deadLetter Mailbox.deadLetter
  induction deadLetterTargets q generalizing b with
  | nil => rfl
  | cons q' qs ih =>
    rw [List.foldl_cons, List.foldl_cons, ih, b.mailbox_push h]

theorem mailbox_deadLetter_of_ne (h : copy.message.body.documentId ≠ d) :
    (b.deadLetter copy q).mailbox d = b.mailbox d := by
  unfold deadLetter
  induction deadLetterTargets q generalizing b with
  | nil => rfl
  | cons q' qs ih =>
    rw [List.foldl_cons, ih]
    exact b.mailbox_push_of_ne h

/-- The delivery of a message of another document. -/
theorem mailbox_release_of_ne (h : ∀ dl, b.deliveries i = some dl →
    dl.copy.message.body.documentId ≠ d) : (b.release i).mailbox d = b.mailbox d := by
  rw [mailbox_release]
  refine Mailbox.ext rfl rfl (funext fun j => ?_)
  simp only [Mailbox.release, Function.update_apply]
  split
  · rename_i hj
    subst hj
    cases hdl : b.deliveries j with
    | none => simp [mailbox, hdl]
    | some dl => simp [mailbox, hdl, Option.filter, h dl hdl]
  · rfl

theorem mailbox_remove (hn : (b.queues q)[n]? = some copy) (h : copy.message.body.documentId = d) :
    (b.remove q n).mailbox d = (b.mailbox d).remove q (rankOf d (b.queues q) n) := by
  refine Mailbox.ext rfl (funext fun q' => ?_) rfl
  simp only [mailbox, remove, Mailbox.remove, Function.update_apply]
  split
  · exact (mailOf_getElem? hn h).2
  · rfl

theorem mailbox_remove_of_ne (hn : (b.queues q)[n]? = some copy)
    (h : copy.message.body.documentId ≠ d) : (b.remove q n).mailbox d = b.mailbox d := by
  refine Mailbox.ext rfl (funext fun q' => ?_) rfl
  simp only [mailbox, remove, Function.update_apply]
  split
  · rename_i hq
    rw [mailOf_eraseIdx_of_ne hn h, hq]
  · rfl

theorem mailbox_deliver (hn : (b.queues q)[n]? = some copy) (h : copy.message.body.documentId = d) :
    (b.deliver i q n copy).mailbox d =
      (b.mailbox d).deliver i q (rankOf d (b.queues q) n) copy.message := by
  have hqueues : ((b.remove q n).mailbox d).queues =
      ((b.mailbox d).remove q (rankOf d (b.queues q) n)).queues :=
    congrArg Mailbox.queues (b.mailbox_remove hn h)
  refine Mailbox.ext rfl hqueues (funext fun j => ?_)
  simp only [mailbox, deliver, Mailbox.deliver, Function.update_apply]
  split
  · simp [Option.filter, h]
  · rfl

theorem mailbox_deliver_of_ne (hn : (b.queues q)[n]? = some copy)
    (h : copy.message.body.documentId ≠ d) (hi : b.deliveries i = none) :
    (b.deliver i q n copy).mailbox d = b.mailbox d := by
  have hqueues : ((b.remove q n).mailbox d).queues = (b.mailbox d).queues :=
    congrArg Mailbox.queues (b.mailbox_remove_of_ne hn h)
  refine Mailbox.ext rfl hqueues (funext fun j => ?_)
  simp only [mailbox, deliver, Function.update_apply]
  split
  · rename_i hj
    subst hj
    simp [Option.filter, h, hi]
  · rfl

theorem mailbox_expire (hn : (b.queues q)[n]? = some copy) (h : copy.message.body.documentId = d) :
    (b.expire q n copy).mailbox d =
      (b.mailbox d).expire q (rankOf d (b.queues q) n) copy.message := by
  unfold expire Mailbox.expire
  rw [mailbox_deadLetter _ h, b.mailbox_remove hn h]

theorem mailbox_expire_of_ne (hn : (b.queues q)[n]? = some copy)
    (h : copy.message.body.documentId ≠ d) : (b.expire q n copy).mailbox d = b.mailbox d := by
  unfold expire
  rw [mailbox_deadLetter_of_ne _ h, b.mailbox_remove_of_ne hn h]

/-- The delivery that an execution holds. -/
theorem mailbox_deliveries {dl : Delivery} (hi : b.deliveries i = some dl)
    (h : dl.copy.message.body.documentId = d) :
    (b.mailbox d).deliveries i = some (dl.copy.message, dl.queue, dl.unsettled) := by
  simp [mailbox, hi, Option.filter, h]

theorem of_mailbox_deliveries {m : Message} {u : Bool}
    (h : (b.mailbox d).deliveries i = some (m, q, u)) :
    ∃ copy, b.deliveries i = some ⟨copy, q, u⟩ ∧ copy.message = m ∧ m.body.documentId = d := by
  obtain ⟨dl, hdl, he⟩ := Option.map_eq_some_iff.mp h
  obtain ⟨hi, hd⟩ := Option.filter_eq_some_iff.mp hdl
  obtain ⟨rfl, hrest⟩ := Prod.mk.inj he
  obtain ⟨rfl, rfl⟩ := Prod.mk.inj hrest
  exact ⟨dl.copy, hi, rfl, of_decide_eq_true hd⟩

end Broker

/-- Taking back a delivery. -/
theorem mailbox_takeBack (w : World) (i : Nat) {dl : Delivery} {d : DocId}
    (hi : w.broker.deliveries i = some dl) (h : dl.copy.message.body.documentId = d) :
    (w.takeBack i).broker.mailbox d = (w.broker.mailbox d).takeBack i := by
  obtain ⟨copy, q, u⟩ := dl
  unfold World.takeBack Mailbox.takeBack
  rw [w.broker.mailbox_deliveries hi h, hi]
  cases u with
  | false => rfl
  | true =>
    show ((w.broker.release i).push copy q).mailbox d = _
    rw [Broker.mailbox_push _ h, Broker.mailbox_release]
    rfl

theorem mailbox_takeBack_of_ne (w : World) (i : Nat) {d : DocId}
    (h : ∀ dl, w.broker.deliveries i = some dl → dl.copy.message.body.documentId ≠ d) :
    (w.takeBack i).broker.mailbox d = w.broker.mailbox d := by
  rcases takeBack_cases w i with he | ⟨copy, q, hi, he⟩ <;> rw [he]
  show ((w.broker.release i).push copy q).mailbox d = _
  rw [Broker.mailbox_push_of_ne _ (h _ hi), Broker.mailbox_release_of_ne _ h]

end DigitalCip
