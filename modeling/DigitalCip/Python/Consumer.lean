import DigitalCip.World

/-!
# The Python consumer

`run_consumer` of the OCR and the embedding worker: `on_message` runs the
handler of one delivery and settles the delivery by the exception it raised, if
any.  The two workers' `consumer.py` differ in one point, the OCR worker's
`publish_next`.

`on_message` is written once, over what it needs to know of a message body
(`Codec`) and of the channel (`Channel`): the pipeline's own messages carry an
`Envelope`, but a body is any byte string.
-/

namespace DigitalCip.Python

/-- How `on_message` reads a body of type `B` as an envelope of type `E`. -/
structure Codec (B E : Type) where
  /-- `json.loads(body)` and the `.get` calls on the result, which raise unless
  it is a `dict`. -/
  loads : B → Except Exc E
  /-- `envelope.get('attempt', 1) >= CONFIG.max_retries`. -/
  exhausted : Int → E → Except Exc Bool
  /-- `envelope['attempt'] = attempt + 1`. -/
  bump : E → E

/-- The channel operations of one delivery. -/
structure Channel (P : Type → Type) (E : Type) where
  /-- Publish body and properties as they came to `ingest.dlx`. -/
  publishDlq : P Unit
  /-- Publish an envelope to `ingest.retry`. -/
  publishRetry : E → P Unit
  ack : Outcome → P Unit
  nack : P Unit

section Consumer
variable {P : Type → Type} [Monad P] [MonadExceptOf Exc P] {B E N : Type}

/-- The clause `except Exception`, which swallows the failure of its own nack. -/
def unhandled (channel : Channel P E) : P Unit := tryCatch channel.nack fun _ => pure ()

/-- The clause `except TransientError`: the dead-letter queue or one more
attempt.  An exception in here escapes `on_message`. -/
def retry (maxRetries : Int) (codec : Codec B E) (channel : Channel P E) (envelope : E) : P Unit :=
  match codec.exhausted maxRetries envelope with
  | .error e => throw e
  | .ok true => do
    channel.publishDlq
    channel.ack .deadLettered
  | .ok false => do
    channel.publishRetry (codec.bump envelope)
    channel.ack .retried

/-- `on_message`. -/
def onMessage (maxRetries : Int) (codec : Codec B E) (channel : Channel P E)
    (handler : E → P (Option N)) (publishNext : E → N → P Unit) (body : B) : P Unit :=
  match codec.loads body with
  | .error _ => unhandled channel
  | .ok envelope =>
    tryCatch
      (do
        let result ← handler envelope
        match result with
        | some next => publishNext envelope next
        | none => pure ()
        channel.ack .success)
      fun
      | .permanent _ => channel.ack .permanent
      | .transient _ => retry maxRetries codec channel envelope
      | .other _ => unhandled channel

end Consumer

/-- The pipeline's own messages: the body is an envelope. -/
def envelopeCodec : Codec Envelope Envelope where
  loads envelope := .ok envelope
  exhausted maxRetries envelope := .ok (envelope.attempt ≥ maxRetries)
  bump envelope := { envelope with attempt := envelope.attempt + 1 }

/-- The channel of a delivery of `m` from the queue of `stage`. -/
def channel (stage : Stage) (m : Message) : Channel Program Envelope where
  publishDlq := call (.publish .dlx ⟨stage, .dlq⟩ m)
  publishRetry envelope := call (.publish .retry ⟨stage, .retry⟩
    { messageId := m.messageId
      headers := { m.headers with attempt := some envelope.attempt }
      body := envelope })
  ack outcome := call (.ack outcome)
  nack := call .nack

/-! ## The statements both workers share -/

/-- `already_processed`. -/
def alreadyProcessed (messageId : MessageId) : Program Bool := call (.alreadyProcessed messageId)

/-- `fetch_document`. -/
def fetchDocument (documentId : DocId) : Program (Option Document) := call (.fetchDocument documentId)

/-- `record_event`. -/
def recordEvent (documentId : DocId) (stage : Stage) (fromState : Option Status) (toState : Status)
    (message : String) (payload : Details) : Program Unit :=
  call (.recordEvent
    { documentId := documentId, stage := .work stage, fromState := fromState, toState := toState,
      message := some message, payload := payload })

/-- `record_processed`. -/
def recordProcessed (row : ProcessedMessage) : Program Unit := call (.recordProcessed row)

/-! ## The handler both workers share

The two `worker.py` differ in their `try` block and in the stage; the statement that sets
the status is called `update_document_status` in one and `update_document` in the other. -/

section Handler
variable {α : Type}

/-- The two `except` clauses of `handle`. -/
def onError (stage : Stage) (envelope : Envelope) : Exc → Program α
  | .permanent reason => do
    call (.updateDocument envelope.documentId
      { status := .failed, failureReason := some reason, failedAt := some .now })
    recordEvent envelope.documentId stage (some stage.processing) .failed reason []
    throw (.permanent reason)
  | .transient reason | .other reason => do
    recordEvent envelope.documentId stage (some stage.processing) stage.processing
      s!"transient: {reason}" []
    throw (.transient reason)

/-- `handle`, over its `try` block and what it returns for a message that it skips. -/
def handle (stage : Stage) (skipped : α) (work : Document → Program α) (envelope : Envelope) :
    Program α := do
  if ← alreadyProcessed envelope.messageId then return skipped
  else
    match ← fetchDocument envelope.documentId with
    | none => throw (.permanent s!"document {envelope.documentId} not found")
    | some document =>
      if document.status.terminal then return skipped
      else tryCatch (work document) (onError stage envelope)

end Handler

end DigitalCip.Python
