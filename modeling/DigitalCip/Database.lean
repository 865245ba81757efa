import DigitalCip.Schema
import Mathlib.Data.List.Sort
import Mathlib.Logic.Function.Basic

/-!
# The database

The four tables and the statements the API and the workers run on them.  Every
statement here is one committed transaction; a transaction that fails leaves the
database as it was.  Documents, dedupe rows and events are never deleted by any
modelled function, so a table keyed by an id is a partial function of it.
-/

namespace DigitalCip

/-- The tables, with the sequences that number their rows. -/
structure Db where
  documents : DocId → Option Document
  nextDocumentId : DocId
  chunks : List DocumentChunk
  nextChunkId : ChunkId
  events : List ProcessingEvent
  processed : MessageId → Option StoredMessage

/-- What `fetch_chunks_without_embedding` selects of a chunk. -/
structure PendingChunk where
  id : ChunkId
  position : Nat
  content : Text
  deriving DecidableEq, Repr

namespace Db

/-- The tables after the migrations: no rows, and sequences that start at 1. -/
def empty : Db where
  documents := fun _ => none
  nextDocumentId := 1
  chunks := []
  nextChunkId := 1
  events := []
  processed := fun _ => none

/-- `already_processed`, `AlreadyProcessed`. -/
def alreadyProcessed (db : Db) (messageId : MessageId) : Bool := (db.processed messageId).isSome

/-- `record_processed`, `RecordProcessed`: `INSERT … ON CONFLICT (message_id) DO
NOTHING`, by handler execution `execution`. -/
def recordProcessed (db : Db) (execution : Nat) (row : ProcessedMessage) : Db :=
  { db with
    processed := Function.update db.processed row.messageId
      ((db.processed row.messageId).or (some { row with execution := execution })) }

/-- `UPDATE documents SET … WHERE id = documentId`. -/
def updateDocument (db : Db) (documentId : DocId) (u : DocumentUpdate) : Db :=
  { db with
    documents := Function.update db.documents documentId ((db.documents documentId).map u.apply) }

/-- `record_event`, `RecordEvent`. -/
def recordEvent (db : Db) (e : ProcessingEvent) : Db := { db with events := db.events ++ [e] }

/-- The row of `document_chunks` for the `i`-th inserted chunk; its embedding is
`NULL`. -/
def newChunk (documentId : DocId) (firstId : ChunkId) (row : ChunkRow) (i : Nat) : DocumentChunk where
  id := firstId + i
  documentId := documentId
  position := row.position
  content := row.content
  tokenCount := row.tokenCount
  embedding := none

/-- `InsertChunks`: delete the document's chunks and insert the new ones, in one
transaction. -/
def insertChunks (db : Db) (documentId : DocId) (rows : List ChunkRow) : Db :=
  { db with
    chunks := db.chunks.filter (fun c => c.documentId ≠ documentId) ++
      rows.mapIdx fun i row => newChunk documentId db.nextChunkId row i
    nextChunkId := db.nextChunkId + rows.length }

/-- The rows of `document_chunks` that belong to a document. -/
def chunksOf (db : Db) (documentId : DocId) : List DocumentChunk :=
  db.chunks.filter fun c => c.documentId = documentId

/-- The events of a document, in the order of their insertion. -/
def trail (db : Db) (documentId : DocId) : List ProcessingEvent :=
  db.events.filter fun e => e.documentId = documentId

/-- `fetch_chunks_without_embedding`. -/
def chunksWithoutEmbedding (db : Db) (documentId : DocId) : List PendingChunk :=
  (((db.chunksOf documentId).filter fun c => c.embedding.isNone).map
    fun c => ⟨c.id, c.position, c.content⟩).insertionSort fun a b => a.position ≤ b.position

/-- One `UPDATE document_chunks SET embedding = … WHERE id = …`. -/
def setEmbedding (id : ChunkId) (embedding : Vec) (c : DocumentChunk) : DocumentChunk :=
  if c.id = id then { c with embedding := some embedding } else c

/-- `write_embeddings`: the updates of one batch, in one transaction. -/
def writeEmbeddings (db : Db) (rows : List (ChunkId × Vec)) : Db :=
  { db with
    chunks := rows.foldl (fun chunks row => chunks.map (setEmbedding row.1 row.2)) db.chunks }

/-- `Document.create!`, once the validations have passed. -/
def insertDocument (db : Db) (row : Document) : Db :=
  { db with
    documents := Function.update db.documents db.nextDocumentId (some row)
    nextDocumentId := db.nextDocumentId + 1 }

/-! ## What a statement leaves alone -/

section Frame
variable (db : Db)

@[simp] theorem recordEvent_documents (e) : (db.recordEvent e).documents = db.documents := rfl
@[simp] theorem recordEvent_events (e) : (db.recordEvent e).events = db.events ++ [e] := rfl
@[simp] theorem insertChunks_nextChunkId (d rows) :
    (db.insertChunks d rows).nextChunkId = db.nextChunkId + rows.length := rfl
@[simp] theorem insertDocument_nextDocumentId (row) :
    (db.insertDocument row).nextDocumentId = db.nextDocumentId + 1 := rfl

end Frame

/-! ## Rows after a statement -/

section Rows
variable {db : Db}

theorem updateDocument_documents (d : DocId) (u : DocumentUpdate) (d' : DocId) :
    (db.updateDocument d u).documents d' =
      if d' = d then (db.documents d).map u.apply else db.documents d' := by
  simp only [updateDocument, Function.update_apply]

/-- A row after an update is a row from before, or the updated row. -/
theorem of_documents_updateDocument {d d' : DocId} {u : DocumentUpdate} {row' : Document}
    (h : (db.updateDocument d u).documents d' = some row') :
    ∃ row, db.documents d' = some row ∧ (row' = row ∨ d' = d ∧ row' = u.apply row) := by
  rw [updateDocument_documents] at h
  split at h
  · rename_i he
    subst he
    obtain ⟨row, hrow, rfl⟩ := Option.map_eq_some_iff.mp h
    exact ⟨row, hrow, Or.inr ⟨rfl, rfl⟩⟩
  · exact ⟨row', h, Or.inl rfl⟩

theorem insertDocument_documents (row : Document) (d : DocId) :
    (db.insertDocument row).documents d =
      if d = db.nextDocumentId then some row else db.documents d := by
  simp only [insertDocument, Function.update_apply]

theorem recordProcessed_processed (i : Nat) (row : ProcessedMessage) (m : MessageId) :
    (db.recordProcessed i row).processed m =
      if m = row.messageId then
        (db.processed row.messageId).or (some { row with execution := i })
      else db.processed m := by
  simp only [recordProcessed, Function.update_apply]

/-- A dedupe row is never overwritten. -/
theorem processed_recordProcessed {m : MessageId} {stored : StoredMessage}
    (h : db.processed m = some stored) (i : Nat) (row : ProcessedMessage) :
    (db.recordProcessed i row).processed m = some stored := by
  rw [recordProcessed_processed]
  split
  · rename_i he
    rw [← he, h]
    rfl
  · exact h

/-- A dedupe row comes from before or is the one just inserted. -/
theorem of_processed_recordProcessed {i : Nat} {row : ProcessedMessage} {m : MessageId}
    {stored : StoredMessage} (h : (db.recordProcessed i row).processed m = some stored) :
    db.processed m = some stored ∨
      m = row.messageId ∧ db.processed m = none ∧ stored = { row with execution := i } := by
  rw [recordProcessed_processed] at h
  split at h
  · rename_i he
    cases hp : db.processed row.messageId with
    | none =>
      rw [hp] at h
      exact Or.inr ⟨he, he ▸ hp, (Option.some.inj h).symm⟩
    | some old =>
      rw [hp] at h
      exact Or.inl (he ▸ hp.trans h)
  · exact Or.inl h

theorem recordProcessed_isSome (i : Nat) (row : ProcessedMessage) :
    ((db.recordProcessed i row).processed row.messageId).isSome := by
  rw [recordProcessed_processed, if_pos rfl]
  cases db.processed row.messageId <;> rfl

theorem trail_recordEvent (d : DocId) (e : ProcessingEvent) :
    (db.recordEvent e).trail d = if e.documentId = d then db.trail d ++ [e] else db.trail d := by
  unfold trail
  rw [recordEvent_events, List.filter_append]
  by_cases hd : e.documentId = d
  · simp [hd]
  · simp [hd]

theorem insertChunks_chunks (d : DocId) (rows : List ChunkRow) :
    (db.insertChunks d rows).chunks = db.chunks.filter (fun c => c.documentId ≠ d) ++
      rows.mapIdx fun i row => newChunk d db.nextChunkId row i := rfl

theorem chunksOf_insertChunks_self (d : DocId) (rows : List ChunkRow) :
    (db.insertChunks d rows).chunksOf d =
      rows.mapIdx fun i row => newChunk d db.nextChunkId row i := by
  unfold chunksOf
  rw [insertChunks_chunks, List.filter_append, List.filter_filter]
  have hold : db.chunks.filter (fun c => decide (c.documentId = d) && decide (c.documentId ≠ d))
      = [] := by
    simp
  have hnew : (rows.mapIdx fun i row => newChunk d db.nextChunkId row i).filter
      (fun c => decide (c.documentId = d)) =
        rows.mapIdx fun i row => newChunk d db.nextChunkId row i := by
    rw [List.filter_eq_self]
    intro c hc
    obtain ⟨i, hi, rfl⟩ := List.mem_mapIdx.mp hc
    simp [newChunk]
  rw [hold, hnew, List.nil_append]

theorem chunksOf_insertChunks_of_ne {d d' : DocId} (h : d' ≠ d) (rows : List ChunkRow) :
    (db.insertChunks d rows).chunksOf d' = db.chunksOf d' := by
  unfold chunksOf
  rw [insertChunks_chunks, List.filter_append, List.filter_filter]
  have hnew : (rows.mapIdx fun i row => newChunk d db.nextChunkId row i).filter
      (fun c => decide (c.documentId = d')) = [] := by
    rw [List.filter_eq_nil_iff]
    intro c hc
    obtain ⟨i, hi, rfl⟩ := List.mem_mapIdx.mp hc
    simp [newChunk, Ne.symm h]
  rw [hnew, List.append_nil]
  refine List.filter_congr fun c _ => ?_
  by_cases hc : c.documentId = d' <;> simp [hc, h]

end Rows
end Db
end DigitalCip
