import Mathlib.Data.List.Basic

/-!
# The data of the pipeline

The rows of the four tables, the message envelope, and the names of stages and
states.  A text is its sequence of code points, which is what a Python `str`
holds and what Go reads back from PostgreSQL.  `published_at`, `created_at` and
`updated_at` are left out: no modelled function reads them.
-/

namespace DigitalCip

abbrev Text := List Char
abbrev Blob := List UInt8
/-- An embedding, as `embed_batch` returns it. -/
abbrev Vec := List Float
abbrev DocId := Nat
abbrev ChunkId := Nat
abbrev MessageId := Text

/-- The value of `datetime.now(timezone.utc)`, `time.Now().UTC()` and
`Time.current`.  Nothing reads a timestamp, so all that is kept is that it was
taken. -/
inductive Timestamp where
  | now
  deriving DecidableEq, Repr

/-- The three queues' stages. -/
inductive Stage where
  | ocr
  | chunk
  | embed
  deriving DecidableEq, Repr

/-- The `stage` column of `processing_events`, which the upload shares with the
three stages. -/
inductive EventStage where
  | upload
  | work (stage : Stage)
  deriving DecidableEq, Repr

/-- `documents.status`. -/
inductive Status where
  | uploaded
  | ocrProcessing
  | ocrCompleted
  | chunking
  | chunked
  | embedding
  | embedded
  | failed
  deriving DecidableEq, Repr

/-- `document['status'] in ('embedded', 'failed')`, the test all three workers
make before they start. -/
def Status.terminal (s : Status) : Bool := s = .embedded || s = .failed

/-- The processing status of a stage. -/
def Stage.processing : Stage → Status
  | .ocr => .ocrProcessing
  | .chunk => .chunking
  | .embed => .embedding

/-- An object key `raw/<tenant>/<date>/<uuid>`, without the date. -/
structure ObjectKey where
  tenantId : Text
  uuid : Text
  deriving DecidableEq, Repr

/-- The key `<document_id>:<stage>`. -/
structure IdempotencyKey where
  documentId : DocId
  stage : Stage
  deriving DecidableEq, Repr

/-- The stage-specific part of an envelope: `object_key` in an OCR or chunk
message, `chunks` in an embed message. -/
structure Payload where
  objectKey : Option ObjectKey := none
  chunks : Option Nat := none
  deriving DecidableEq, Repr

/-- The message envelope, which all three languages share. -/
structure Envelope where
  messageId : MessageId
  idempotencyKey : IdempotencyKey
  traceId : Text
  stage : Stage
  documentId : DocId
  tenantId : Text
  attempt : Int
  payload : Payload
  deriving DecidableEq, Repr

/-- The AMQP headers the publishers set. -/
structure Headers where
  idempotencyKey : Option IdempotencyKey := none
  attempt : Option Int := none
  stage : Option Stage := none
  documentId : Option DocId := none
  deriving DecidableEq, Repr

/-- A message: its `message_id` property, its headers, and its body. -/
structure Message where
  messageId : Option MessageId
  headers : Headers
  body : Envelope
  deriving DecidableEq, Repr

/-- A value in the `payload` of an event or the `result` of a dedupe row. -/
inductive Datum where
  | num (n : Nat)
  | text (t : Text)
  | key (k : ObjectKey)
  deriving DecidableEq, Repr

abbrev Details := List (String × Datum)

/-! ## Rows -/

/-- A row of `documents`, under its id. -/
structure Document where
  tenantId : Text
  title : Text
  contentType : Text
  byteSize : Nat
  checksum : Text
  objectKey : ObjectKey
  status : Status := .uploaded
  rawText : Option Text := none
  failureReason : Option String := none
  retryCount : Nat := 0
  ocrCompletedAt : Option Timestamp := none
  chunkedAt : Option Timestamp := none
  embeddedAt : Option Timestamp := none
  failedAt : Option Timestamp := none
  deriving DecidableEq, Repr

/-- A row of `document_chunks`. -/
structure DocumentChunk where
  id : ChunkId
  documentId : DocId
  position : Nat
  content : Text
  tokenCount : Nat
  embedding : Option Vec

/-- A row of `processing_events`. -/
structure ProcessingEvent where
  documentId : DocId
  stage : EventStage
  fromState : Option Status
  toState : Status
  actor : String := "system"
  message : Option String := none
  payload : Details := []
  deriving DecidableEq, Repr

/-- A row of `processed_messages`. -/
structure ProcessedMessage where
  messageId : MessageId
  idempotencyKey : IdempotencyKey
  stage : Stage
  documentId : DocId
  consumer : String
  result : Details
  deriving DecidableEq, Repr

/-- A stored dedupe row.  `execution` numbers the handler execution that inserted
it; the table has no such column. -/
structure StoredMessage extends ProcessedMessage where
  execution : Nat
  deriving DecidableEq, Repr

/-- A chunk as the chunker hands it to `InsertChunks`. -/
structure ChunkRow where
  position : Nat
  content : Text
  tokenCount : Nat
  deriving DecidableEq, Repr

/-- The columns one `UPDATE documents` sets: `status`, and each of the others
when it is given. -/
structure DocumentUpdate where
  status : Status
  rawText : Option Text := none
  failureReason : Option String := none
  ocrCompletedAt : Option Timestamp := none
  chunkedAt : Option Timestamp := none
  embeddedAt : Option Timestamp := none
  failedAt : Option Timestamp := none
  deriving DecidableEq, Repr

/-- The row after the update; a column that is not given keeps its value. -/
def DocumentUpdate.apply (u : DocumentUpdate) (row : Document) : Document :=
  { row with
    status := u.status
    rawText := u.rawText.or row.rawText
    failureReason := u.failureReason.or row.failureReason
    ocrCompletedAt := u.ocrCompletedAt.or row.ocrCompletedAt
    chunkedAt := u.chunkedAt.or row.chunkedAt
    embeddedAt := u.embeddedAt.or row.embeddedAt
    failedAt := u.failedAt.or row.failedAt }

end DigitalCip
