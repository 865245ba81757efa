import DigitalCip.Python.Consumer

/-!
# The embedding worker

`workers/embedder/app/worker.py` and the statements of `db.py` that only it uses.
-/

namespace DigitalCip.Embedder
open Python

/-- `update_document`. -/
def updateDocument (documentId : DocId) (u : DocumentUpdate) : Program Unit :=
  call (.updateDocument documentId u)

/-- `write_embeddings`, which opens no transaction for an empty batch. -/
def writeEmbeddings (rows : List (ChunkId × Vec)) : Program Unit :=
  if rows.isEmpty then pure () else call (.writeEmbeddings rows)

/-- The dedupe row of an embed message; `record_processed` fills in the stage. -/
def processedRow (envelope : Envelope) (embedded : Nat) : ProcessedMessage where
  messageId := envelope.messageId
  idempotencyKey := envelope.idempotencyKey
  stage := .embed
  documentId := envelope.documentId
  consumer := "embedder-worker"
  result := [("embedded", .num embedded)]

/-- The `try` block of `handle`. -/
def embed (envelope : Envelope) (document : Document) : Program Unit := do
  updateDocument envelope.documentId { status := .embedding }
  recordEvent envelope.documentId .embed (some document.status) .embedding "Embedding started" []
  let chunks ← call (.fetchChunksWithoutEmbedding envelope.documentId)
  if chunks.isEmpty then
    updateDocument envelope.documentId { status := .embedded, embeddedAt := some .now }
    recordEvent envelope.documentId .embed (some .embedding) .embedded
      "Already embedded; nothing to do" []
    recordProcessed (processedRow envelope 0)
  else
    let texts := chunks.map PendingChunk.content
    let vectors ← call (.embedBatch texts)
    let rows := (chunks.map PendingChunk.id).zip vectors
    writeEmbeddings rows
    updateDocument envelope.documentId { status := .embedded, embeddedAt := some .now }
    recordEvent envelope.documentId .embed (some .embedding) .embedded
      s!"Embedded {rows.length} chunks" [("chunks", .num rows.length)]
    recordProcessed (processedRow envelope rows.length)

/-- The two `except` clauses of `handle`. -/
def onError (envelope : Envelope) : Exc → Program Unit := Python.onError .embed envelope

/-- `handle`. -/
def handle (envelope : Envelope) : Program Unit :=
  Python.handle .embed () (embed envelope) envelope

/-- What the embedding worker runs for a delivery of `m`; it has no next stage. -/
def onMessage (cfg : Config) (m : Message) : Program Unit :=
  Python.onMessage (N := Empty) cfg.maxRetries envelopeCodec (channel .embed m)
    (fun envelope => do handle envelope; return none) (fun _ next => nomatch next) m.body

end DigitalCip.Embedder
