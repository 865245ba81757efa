import DigitalCip.Chunker.Split
import DigitalCip.World
import Mathlib.Algebra.Group.Int.Defs

/-!
# The chunker

`workers/chunker/internal/worker/worker.go`.  Go returns its errors as values, so
these programs never raise.
-/

namespace DigitalCip.Chunker
open Resumable

/-- The errors of `process`: `ErrPermanent`, `ErrTransient`, and any other. -/
inductive GoError where
  | permanent (message : String)
  | transient (message : String)
  | other (message : String)
  deriving DecidableEq, Repr

/-- The embed message that `publishNext` publishes. -/
def nextMessage (env : Envelope) (id : MessageId) (chunkCount : Nat) : Message where
  messageId := some id
  headers :=
    { idempotencyKey := some ⟨env.documentId, .embed⟩
      attempt := some 1
      stage := some .embed
      documentId := some env.documentId }
  body :=
    { messageId := id
      idempotencyKey := ⟨env.documentId, .embed⟩
      traceId := env.traceId
      stage := .embed
      documentId := env.documentId
      tenantId := env.tenantId
      attempt := 1
      payload := { chunks := some chunkCount } }

/-- The error of a reply. -/
def errorOf {α : Type} : Except String α → Option GoError
  | .ok _ => none
  | .error e => some (.other e)

/-- `publishNext`. -/
def publishNext (env : Envelope) (chunkCount : Nat) : Program (Option GoError) := do
  match ← Prog.perform .freshId with
  | .error e => return some (.other e)
  | .ok id =>
    return errorOf (← Prog.perform (.publish .ingest ⟨.embed, .work⟩ (nextMessage env id chunkCount)))

/-- Go's conversion `int32(n)`. -/
def int32 (n : Int) : Int := (n + 2 ^ 31) % 2 ^ 32 - 2 ^ 31

/-- The message that `publishRetry` publishes. -/
def retryMessage (env : Envelope) : Message where
  messageId := some env.messageId
  headers := { attempt := some (int32 env.attempt), stage := some .chunk }
  body := env

/-- `publishRetry`. -/
def publishRetry (env : Envelope) : Program (Option GoError) := do
  return errorOf (← Prog.perform (.publish .retry ⟨.chunk, .retry⟩ (retryMessage env)))

/-- `publishDLQ`: the body and the headers of the delivery `d`. -/
def publishDLQ (env : Envelope) (d : Message) : Program (Option GoError) := do
  return errorOf (← Prog.perform (.publish .dlx ⟨.chunk, .dlq⟩
    { messageId := some env.messageId, headers := d.headers, body := d.body }))

/-- The rows that `process` hands to `InsertChunks`. -/
def chunkRows (pieces : List Text) : List ChunkRow :=
  pieces.mapIdx fun i p => ⟨i, p, approxTokenCount p⟩

/-- `process`, once the status has been set to `chunking`. -/
def chunkDocument (cfg : Config) (env : Envelope) (rawText : Text) : Program (Option GoError) := do
  let pieces := split rawText cfg.chunkSize cfg.chunkOverlap
  if pieces.isEmpty then
    let _ ← Prog.perform (.updateDocument env.documentId
      { status := .failed, failureReason := some "no chunks produced", failedAt := some .now })
    let _ ← Prog.perform (.recordEvent
      { documentId := env.documentId, stage := .work .chunk, fromState := some .chunking,
        toState := .failed, message := some "no chunks produced" })
    return some (.permanent "no chunks produced")
  else
    let rows := chunkRows pieces
    match ← Prog.perform (.insertChunks env.documentId rows) with
    | .error e => return some (.transient s!"insert chunks: {e}")
    | .ok _ =>
      match ← Prog.perform (.updateDocument env.documentId
          { status := .chunked, chunkedAt := some .now }) with
      | .error e => return some (.transient s!"status update: {e}")
      | .ok _ =>
        let _ ← Prog.perform (.recordEvent
          { documentId := env.documentId, stage := .work .chunk, fromState := some .chunking,
            toState := .chunked, message := some s!"Created {rows.length} chunks",
            payload := [("chunks", .num rows.length)] })
        -- a failure to insert the dedupe row is only logged
        let _ ← Prog.perform (.recordProcessed
          { messageId := env.messageId, idempotencyKey := env.idempotencyKey, stage := .chunk,
            documentId := env.documentId, consumer := "chunker-worker",
            result := [("chunks", .num rows.length)] })
        publishNext env rows.length

/-- `process`; `nil` is `none`. -/
def process (cfg : Config) (env : Envelope) : Program (Option GoError) := do
  if env.documentId = 0 then return some (.permanent "missing document_id")
  else
    match ← Prog.perform (.alreadyProcessed env.messageId) with
    | .error e => return some (.transient s!"idempotency check failed: {e}")
    | .ok true => return none
    | .ok false =>
      match ← Prog.perform (.fetchDocument env.documentId) with
      | .error e => return some (.transient s!"fetch: {e}")
      | .ok none => return some (.permanent "document not found")
      | .ok (some doc) =>
        -- `FetchDocument` reads `COALESCE(raw_text, '')`
        let rawText := doc.rawText.getD []
        if doc.status.terminal then return none
        else if rawText.isEmpty then return some (.permanent "document has no raw_text")
        else
          match ← Prog.perform (.updateDocument env.documentId { status := .chunking }) with
          | .error e => return some (.transient s!"status update: {e}")
          | .ok _ =>
            let _ ← Prog.perform (.recordEvent
              { documentId := env.documentId, stage := .work .chunk, fromState := some doc.status,
                toState := .chunking, message := some "Chunking started" })
            chunkDocument cfg env rawText

/-- `handle`, for a delivery `d`.  The errors of the two publishes are logged and
the delivery is acked whatever they are. -/
def handle (cfg : Config) (d : Message) : Program Unit := do
  let env := if d.body.attempt = 0 then { d.body with attempt := 1 } else d.body
  match ← process cfg env with
  | none =>
    let _ ← Prog.perform (.ack .success)
  | some (.permanent _) =>
    let _ ← Prog.perform (.ack .permanent)
  | some _ =>
    if env.attempt ≥ cfg.maxRetries then
      let _ ← publishDLQ env d
      let _ ← Prog.perform (.ack .deadLettered)
    else
      let _ ← publishRetry { env with attempt := env.attempt + 1 }
      let _ ← Prog.perform (.ack .retried)

end DigitalCip.Chunker
