import DigitalCip.Python.Consumer
import DigitalCip.Whitespace

/-!
# The OCR worker

`workers/ocr/app/worker.py` and the statement of `db.py` that only it uses.
-/

namespace DigitalCip.Ocr
open Python

/-- `update_document_status`. -/
def updateDocumentStatus (documentId : DocId) (u : DocumentUpdate) : Program Unit :=
  call (.updateDocument documentId u)

/-- The chunk message that `_publish_next` publishes. -/
def nextMessage (envelope : Envelope) (nextPayload : Payload) : Message where
  messageId := none
  headers :=
    { idempotencyKey := some ⟨envelope.documentId, .chunk⟩
      attempt := some 1
      stage := some .chunk
      documentId := some envelope.documentId }
  body :=
    { messageId := envelope.messageId ++ ":chunk".toList
      idempotencyKey := ⟨envelope.documentId, .chunk⟩
      traceId := envelope.traceId
      stage := .chunk
      documentId := envelope.documentId
      tenantId := envelope.tenantId
      attempt := 1
      payload := nextPayload }

/-- `_publish_next`. -/
def publishNext (envelope : Envelope) (nextPayload : Payload) : Program Unit :=
  call (.publish .ingest ⟨.chunk, .work⟩ (nextMessage envelope nextPayload))

/-- The `try` block of `handle`. -/
def recognise (envelope : Envelope) (document : Document) (objectKey : ObjectKey) :
    Program (Option Payload) := do
  updateDocumentStatus envelope.documentId { status := .ocrProcessing }
  recordEvent envelope.documentId .ocr (some document.status) .ocrProcessing "OCR started" []
  let blob ← call (.downloadObject objectKey)
  if blob.isEmpty then throw (.permanent "object body empty")
  else
    let (text, pages) ← call (.extractText blob document.contentType)
    if Blank text then throw (.permanent "OCR produced empty text")
    else
      updateDocumentStatus envelope.documentId
        { status := .ocrCompleted, rawText := some text, ocrCompletedAt := some .now }
      recordEvent envelope.documentId .ocr (some .ocrProcessing) .ocrCompleted
        s!"OCR done ({pages} pages, {text.length} chars)" [("pages", .num pages)]
      recordProcessed
        { messageId := envelope.messageId
          idempotencyKey := envelope.idempotencyKey
          stage := .ocr
          documentId := envelope.documentId
          consumer := "ocr-worker"
          result := [("chars", .num text.length), ("pages", .num pages)] }
      return some { objectKey := some objectKey }

/-- The two `except` clauses of `handle`. -/
def onError (envelope : Envelope) : Exc → Program (Option Payload) := Python.onError .ocr envelope

/-- `handle`. -/
def handle (envelope : Envelope) : Program (Option Payload) :=
  Python.handle .ocr none
    (fun document => recognise envelope document (envelope.payload.objectKey.getD document.objectKey))
    envelope

/-- What the OCR worker runs for a delivery of `m`. -/
def onMessage (cfg : Config) (m : Message) : Program Unit :=
  Python.onMessage cfg.maxRetries envelopeCodec (channel .ocr m) handle publishNext m.body

end DigitalCip.Ocr
