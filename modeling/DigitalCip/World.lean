import DigitalCip.Api.Document
import DigitalCip.Broker
import DigitalCip.Resumable.Interference

/-!
# Calls to the outside

Everything a worker or the API asks of another process is a `Call`: a database
transaction, an object-store request, a run of the OCR engine or the embedding
model, an id from a generator, a broker operation.  A call is one atomic step.
Its `Answer` is chosen by the environment: the call succeeds, or it fails and
changes nothing.  What the OCR engine, the model and the id generators return is
part of the answer, so no theorem depends on what they compute unless it says so.
-/

namespace DigitalCip
open Resumable

/-- The settings the workers and the API read from the environment, and
`Digest::SHA256`. -/
structure Config where
  maxRetries : Int
  chunkSize : Int
  chunkOverlap : Int
  sha256 : Blob → Text

/-- The exceptions: `PermanentError`, `TransientError`, and any other. -/
inductive Exc where
  | permanent (message : String)
  | transient (message : String)
  | other (message : String)
  deriving DecidableEq, Repr

/-- The state the processes share.  `ids` are the ids the generators have handed
out and `created` the documents that have been inserted, each with the number of
the execution that asked for it. -/
structure World where
  db : Db
  objects : ObjectKey → Option Blob
  broker : Broker
  ids : List (Nat × Text)
  created : List (Nat × DocId)

def World.empty : World where
  db := .empty
  objects := fun _ => none
  broker := .empty
  ids := []
  created := []

/-- A call. -/
inductive Call where
  | alreadyProcessed (messageId : MessageId)
  | fetchDocument (documentId : DocId)
  | updateDocument (documentId : DocId) (u : DocumentUpdate)
  | recordEvent (e : ProcessingEvent)
  | recordProcessed (row : ProcessedMessage)
  | insertChunks (documentId : DocId) (rows : List ChunkRow)
  | fetchChunksWithoutEmbedding (documentId : DocId)
  | writeEmbeddings (rows : List (ChunkId × Vec))
  | createDocument (row : Document) (stored : Details)
  | retryDocument (documentId : DocId) (document : Document) (stage : Stage)
  | putObject (key : ObjectKey) (body : Blob)
  | downloadObject (key : ObjectKey)
  | extractText (blob : Blob) (contentType : Text)
  | embedBatch (texts : List Text)
  | freshId
  | publish (exchange : Exchange) (key : RoutingKey) (message : Message)
  | ack (outcome : Outcome)
  | nack

namespace Call

/-- What a call returns when it succeeds.  A transaction of the API returns the
Ruby exception that rolled it back. -/
@[reducible] def Val : Call → Type
  | .alreadyProcessed _ => Bool
  | .fetchDocument _ => Option Document
  | .fetchChunksWithoutEmbedding _ => List PendingChunk
  | .createDocument _ _ => Except Api.RubyError DocId
  | .retryDocument _ _ _ => Except Api.RubyError Unit
  | .downloadObject _ => Blob
  | .extractText _ _ => Text × Nat
  | .embedBatch _ => List Vec
  | .freshId => Text
  | _ => Unit

/-- The reply to a call: its value, or the reason of its failure. -/
def Reply (c : Call) : Type := Except String c.Val

/-- Whether a call can fail.  Only the id generators run in the caller. -/
def remote : Call → Bool
  | .freshId => false
  | _ => true

end Call

/-- A program of the workers and the API. -/
abbrev Program := Prog Call Call.Reply Exc

/-- A call in Python or Ruby: its failure is an exception that is neither
`PermanentError` nor `TransientError`. -/
def call (c : Call) : Program c.Val :=
  Prog.perform c >>= fun
    | .ok v => pure v
    | .error reason => throw (.other reason)

/-- How the environment answers a call. -/
inductive Answer where
  | ok
  | fail (reason : String)
  | id (t : Text)
  | text (t : Text) (pages : Nat)
  | vectors (vs : List Vec)

/-- A generated id: never handed out before, and without a colon. -/
def FreshId (w : World) (t : Text) : Prop := (∀ p ∈ w.ids, p.2 ≠ t) ∧ ':' ∉ t

instance (w : World) (t : Text) : Decidable (FreshId w t) := inferInstanceAs (Decidable (_ ∧ _))

/-- There is one: it is longer than all the ids so far. -/
theorem exists_freshId (w : World) : ∃ t, FreshId w t := by
  refine ⟨List.replicate ((w.ids.map Prod.snd).flatten.length + 1) 'a', fun p hp he => ?_, by simp⟩
  have hsublist := List.sublist_flatten_of_mem (List.mem_map_of_mem (f := Prod.snd) hp)
  have hle := hsublist.length_le
  rw [he, List.length_replicate] at hle
  omega

/-- What a call by execution `i` does when it succeeds. -/
def reply (i : Nat) : (c : Call) → Answer → World → Option (c.Val × World)
  | .alreadyProcessed m, .ok, w => some (w.db.alreadyProcessed m, w)
  | .fetchDocument d, .ok, w => some (w.db.documents d, w)
  | .updateDocument d u, .ok, w => some ((), { w with db := w.db.updateDocument d u })
  | .recordEvent e, .ok, w => some ((), { w with db := w.db.recordEvent e })
  | .recordProcessed row, .ok, w => some ((), { w with db := w.db.recordProcessed i row })
  | .insertChunks d rows, .ok, w => some ((), { w with db := w.db.insertChunks d rows })
  | .fetchChunksWithoutEmbedding d, .ok, w => some (w.db.chunksWithoutEmbedding d, w)
  | .writeEmbeddings rows, .ok, w => some ((), { w with db := w.db.writeEmbeddings rows })
  | .createDocument row stored, .ok, w =>
    match Api.createTransaction w.db row stored with
    | .error e => some (.error e, w)
    | .ok (d, db) => some (.ok d, { w with db := db, created := (i, d) :: w.created })
  | .retryDocument d document stage, .ok, w =>
    match Api.retryTransaction w.db d document stage with
    | .error e => some (.error e, w)
    | .ok db => some (.ok (), { w with db := db })
  | .putObject key body, .ok, w =>
    some ((), { w with objects := Function.update w.objects key (some body) })
  | .downloadObject key, .ok, w => (w.objects key).map fun blob => (blob, w)
  | .extractText _ _, .text t pages, w => some ((t, pages), w)
  -- `encode` returns one vector for each text
  | .embedBatch texts, .vectors vs, w => if vs.length = texts.length then some (vs, w) else none
  | .freshId, .id t, w =>
    if FreshId w t then some (t, { w with ids := (i, t) :: w.ids }) else none
  | .publish exchange key m, .ok, w =>
    some ((), { w with broker := w.broker.publish i exchange key m })
  | .ack outcome, .ok, w =>
    match w.broker.deliveries i with
    | some ⟨copy, _, true⟩ => some ((), { w with broker := w.broker.ack i copy outcome })
    | _ => none
  | .nack, .ok, w =>
    match w.broker.deliveries i with
    | some ⟨copy, q, true⟩ => some ((), { w with broker := w.broker.nack i copy q })
    | _ => none
  | _, _, _ => none

/-- One call by execution `i`.  A delivery that the broker has taken back can
only be settled with an error. -/
def exec (i : Nat) (c : Call) (a : Answer) (w : World) : Option (c.Reply × World) :=
  match a with
  | .fail reason => if c.remote then some (.error reason, w) else none
  | a => (reply i c a w).map fun r => (.ok r.1, r.2)

/-! ## What a call can do -/

/-- Execution `i` calls `c` in `w`, and it succeeds with `v` and leaves `w'`. -/
def Does (i : Nat) : (c : Call) → c.Val → World → World → Prop
  | .alreadyProcessed m, v, w, w' => v = w.db.alreadyProcessed m ∧ w' = w
  | .fetchDocument d, v, w, w' => v = w.db.documents d ∧ w' = w
  | .updateDocument d u, _, w, w' => w' = { w with db := w.db.updateDocument d u }
  | .recordEvent e, _, w, w' => w' = { w with db := w.db.recordEvent e }
  | .recordProcessed row, _, w, w' => w' = { w with db := w.db.recordProcessed i row }
  | .insertChunks d rows, _, w, w' => w' = { w with db := w.db.insertChunks d rows }
  | .fetchChunksWithoutEmbedding d, v, w, w' => v = w.db.chunksWithoutEmbedding d ∧ w' = w
  | .writeEmbeddings rows, _, w, w' => w' = { w with db := w.db.writeEmbeddings rows }
  | .createDocument row stored, v, w, w' =>
    (∃ e, v = .error e ∧ w' = w) ∨
      ∃ d db, v = .ok d ∧ Api.createTransaction w.db row stored = .ok (d, db) ∧
        w' = { w with db := db, created := (i, d) :: w.created }
  | .retryDocument _ _ _, v, w, w' => (∃ e, v = .error e) ∧ w' = w
  | .putObject key body, _, w, w' =>
    w' = { w with objects := Function.update w.objects key (some body) }
  | .downloadObject key, v, w, w' => w.objects key = some v ∧ w' = w
  | .extractText _ _, _, w, w' => w' = w
  | .embedBatch texts, v, w, w' => v.length = texts.length ∧ w' = w
  | .freshId, v, w, w' => FreshId w v ∧ w' = { w with ids := (i, v) :: w.ids }
  | .publish exchange key m, _, w, w' =>
    w' = { w with broker := w.broker.publish i exchange key m }
  | .ack outcome, _, w, w' =>
    ∃ copy, w.broker.Unsettled i copy ∧ w' = { w with broker := w.broker.ack i copy outcome }
  | .nack, _, w, w' =>
    ∃ copy q, w.broker.deliveries i = some ⟨copy, q, true⟩ ∧
      w' = { w with broker := w.broker.nack i copy q }

section Does
variable {i : Nat} {c : Call} {a : Answer} {w w' : World}

theorem does_of_reply {v : c.Val} (h : reply i c a w = some (v, w')) : Does i c v w w' := by
  cases c with
  | createDocument row stored =>
    cases a <;> simp only [reply, reduceCtorEq] at h
    split at h
    · obtain ⟨rfl, rfl⟩ := Prod.mk.inj (Option.some.inj h)
      exact Or.inl ⟨_, rfl, rfl⟩
    · obtain ⟨rfl, rfl⟩ := Prod.mk.inj (Option.some.inj h)
      exact Or.inr ⟨_, _, rfl, ‹_›, rfl⟩
  | retryDocument d document stage =>
    cases a <;> simp only [reply, reduceCtorEq] at h
    obtain ⟨e, he⟩ := Api.retryTransaction_raises w.db d document stage
    rw [he] at h
    obtain ⟨rfl, rfl⟩ := Prod.mk.inj (Option.some.inj h)
    exact ⟨⟨e, rfl⟩, rfl⟩
  | downloadObject key =>
    cases a <;> simp only [reply, reduceCtorEq] at h
    obtain ⟨blob, hblob, he⟩ := Option.map_eq_some_iff.mp h
    obtain ⟨rfl, rfl⟩ := Prod.mk.inj he
    exact ⟨hblob, rfl⟩
  | freshId =>
    cases a <;> simp only [reply, reduceCtorEq] at h
    split at h
    · obtain ⟨rfl, rfl⟩ := Prod.mk.inj (Option.some.inj h)
      exact ⟨‹_›, rfl⟩
    · cases h
  | ack outcome =>
    cases a <;> simp only [reply, reduceCtorEq] at h
    split at h
    · rename_i copy q hd
      obtain ⟨-, rfl⟩ := Prod.mk.inj (Option.some.inj h)
      exact ⟨copy, ⟨q, hd⟩, rfl⟩
    · cases h
  | nack =>
    cases a <;> simp only [reply, reduceCtorEq] at h
    split at h
    · rename_i copy q hd
      obtain ⟨-, rfl⟩ := Prod.mk.inj (Option.some.inj h)
      exact ⟨copy, q, hd, rfl⟩
    · cases h
  | extractText =>
    cases a <;> simp only [reply, reduceCtorEq] at h
    obtain ⟨-, rfl⟩ := Prod.mk.inj (Option.some.inj h)
    rfl
  | embedBatch texts =>
    cases a <;> simp only [reply, reduceCtorEq] at h
    split at h
    · obtain ⟨rfl, rfl⟩ := Prod.mk.inj (Option.some.inj h)
      exact ⟨‹_›, rfl⟩
    · cases h
  | alreadyProcessed | fetchDocument | fetchChunksWithoutEmbedding =>
    cases a <;> simp only [reply, reduceCtorEq] at h
    obtain ⟨rfl, rfl⟩ := Prod.mk.inj (Option.some.inj h)
    exact ⟨rfl, rfl⟩
  | _ =>
    -- the remaining calls return nothing
    cases a <;> simp only [reply, reduceCtorEq] at h
    obtain ⟨-, rfl⟩ := Prod.mk.inj (Option.some.inj h)
    rfl

/-- A call that succeeds. -/
theorem exec_of_reply {v : c.Val} (h : reply i c a w = some (v, w')) :
    exec i c a w = some (.ok v, w') := by
  cases a with
  | fail reason => cases c <;> cases h
  | ok | id | text | vectors => simp only [exec, h, Option.map_some]

/-- **A call fails and changes nothing, or it does what `Does` says.** -/
theorem exec_cases {r : c.Reply} (h : exec i c a w = some (r, w')) :
    (∃ reason, a = .fail reason ∧ r = .error reason ∧ c.remote ∧ w' = w) ∨
      ∃ v, r = .ok v ∧ reply i c a w = some (v, w') ∧ Does i c v w w' := by
  cases a with
  | fail reason =>
    simp only [exec] at h
    split at h
    · obtain ⟨rfl, rfl⟩ := Prod.mk.inj (Option.some.inj h)
      exact Or.inl ⟨reason, rfl, rfl, ‹_›, rfl⟩
    · cases h
  | ok | id | text | vectors =>
    right
    simp only [exec, Option.map_eq_some_iff] at h
    obtain ⟨⟨v, w₂⟩, hv, he⟩ := h
    obtain ⟨rfl, rfl⟩ := Prod.mk.inj he
    exact ⟨v, rfl, hv, does_of_reply hv⟩

end Does
end DigitalCip
