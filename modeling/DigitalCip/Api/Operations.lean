import DigitalCip.World

/-!
# The operations of the API

`Ingestion::CreateDocument#call` and `Ingestion::RetryDocument#call`, with
`Storage::ObjectStore#put_upload` and `Messaging::Publisher#publish`.
-/

namespace DigitalCip.Api

/-- An uploaded file: the bytes of its `tempfile`, and what the client called it. -/
structure Upload where
  body : Blob
  contentType : Text
  filename : Text
  deriving DecidableEq, Repr

/-- What an operation returns to its controller. -/
structure Result where
  success : Bool
  message : String
  document : Option DocId
  deriving DecidableEq, Repr

/-- The exception a transaction raised, as it leaves the operation. -/
def escaped : RubyError → Exc
  | .argumentError message => .other message
  | .recordInvalid messages => .other (", ".intercalate messages)

/-- `build_envelope`, with the two ids the generators returned. -/
def buildEnvelope (stage : Stage) (documentId : DocId) (tenantId : Text) (payload : Payload)
    (attempt : Int) (messageId traceId : Text) : Envelope where
  messageId := messageId
  idempotencyKey := ⟨documentId, stage⟩
  traceId := traceId
  stage := stage
  documentId := documentId
  tenantId := tenantId
  attempt := attempt
  payload := payload

/-- The message that `publish` publishes. -/
def publishedMessage (envelope : Envelope) : Message where
  messageId := some envelope.messageId
  headers :=
    { idempotencyKey := some envelope.idempotencyKey
      attempt := some envelope.attempt
      stage := some envelope.stage
      documentId := some envelope.documentId }
  body := envelope

/-- `Messaging::Publisher.publish`. -/
def publish (stage : Stage) (documentId : DocId) (tenantId : Text) (payload : Payload)
    (attempt : Int) : Program Envelope := do
  let messageId ← call .freshId
  let traceId ← call .freshId
  let envelope := buildEnvelope stage documentId tenantId payload attempt messageId traceId
  call (.publish .ingest ⟨stage, .work⟩ (publishedMessage envelope))
  return envelope

/-- The row that `Document.create!` inserts. -/
def newDocument (cfg : Config) (upload : Upload) (title : Option Text) (tenantId : Text)
    (key : ObjectKey) : Document where
  tenantId := tenantId
  title := title.getD upload.filename
  contentType := upload.contentType
  byteSize := upload.body.length
  checksum := cfg.sha256 upload.body
  objectKey := key

/-- What `put_upload` returns about the stored object. -/
def storedDetails (cfg : Config) (upload : Upload) (key : ObjectKey) : Details :=
  [("object_key", .key key), ("checksum", .text (cfg.sha256 upload.body)),
    ("byte_size", .num upload.body.length)]

/-- `CreateDocument#call`. -/
def createDocument (cfg : Config) (upload : Option Upload) (title : Option Text) (tenantId : Text) :
    Program Result :=
  match upload with
  | none => throw (.other "upload is required")
  | some upload =>
    if blank upload.contentType then throw (.other "content_type is required")
    else do
      let uuid ← call .freshId
      let key : ObjectKey := ⟨tenantId, uuid⟩
      call (.putObject key upload.body)
      match ← call (.createDocument (newDocument cfg upload title tenantId key)
          (storedDetails cfg upload key)) with
      | .error (.recordInvalid messages) =>
        return { success := false, message := ", ".intercalate messages, document := none }
      | .error e => throw (escaped e)
      | .ok documentId =>
        let _ ← publish .ocr documentId tenantId { objectKey := some key } 1
        return { success := true, message := "Document accepted", document := some documentId }

/-- `resume_stage`. -/
def resumeStage : Status → Option Stage
  | .failed | .uploaded | .ocrProcessing => some .ocr
  | .ocrCompleted | .chunking => some .chunk
  | .chunked | .embedding => some .embed
  | .embedded => none

/-- Only an embedded document has no stage to resume. -/
theorem exists_resumeStage {status : Status} (h : status ≠ .embedded) :
    ∃ S, resumeStage status = some S := by
  cases status with
  | embedded => exact absurd rfl h
  | _ => exact ⟨_, rfl⟩

def stageName : Stage → String
  | .ocr => "ocr"
  | .chunk => "chunk"
  | .embed => "embed"

/-- `RetryDocument#call`, on the loaded row `document`. -/
def retryDocument (documentId : DocId) (document : Document) : Program Result :=
  match resumeStage document.status with
  | none =>
    pure
      { success := false, message := "Document is in a terminal success state",
        document := some documentId }
  | some stage => do
    match ← call (.retryDocument documentId document stage) with
    | .error e => throw (escaped e)
    | .ok _ =>
      let _ ← publish stage documentId document.tenantId
        { objectKey := some document.objectKey } 1
      pure
        { success := true, message := s!"Re-enqueued for {stageName stage}",
          document := some documentId }

/-- The `retry` action: load the document, then run the operation. -/
def retryAction (documentId : DocId) : Program Result := do
  match ← call (.fetchDocument documentId) with
  | none => throw (.other "not_found")
  | some document => retryDocument documentId document

end DigitalCip.Api
