import DigitalCip.Invariant.Frame
import DigitalCip.Invariant.View
import DigitalCip.Resumable.Automaton

/-!
# The idempotency key

Every publish for a stage of a document carries the same key `<document>:<stage>`,
and `processed_messages` stores it.  Nothing reads it: a worker looks its message up
by `message_id`, and beyond that it refuses only documents that are `embedded` or
`failed`.  So a second message with the same key has a second effect
(`not_one_effect`), unless the worker skips it for one of the reasons in `Skips`
(`one_effect_iff`).
-/

namespace DigitalCip
open Resumable

/-- A call of execution `i`, however it is answered. -/
def called (i : Nat) (c : Call) (w : World) (r : c.Reply) (w' : World) : Prop :=
  ∃ a, exec i c a w = some (r, w')

/-- Document `d` has its status, its text and its chunks with their embeddings, and
no message has been handed to `ingest`. -/
structure Unmoved (d : DocId) (w w' : World) : Prop where
  row : (w'.db.documents d).map (fun row => (row.status, row.rawText)) =
    (w.db.documents d).map fun row => (row.status, row.rawText)
  chunks : w'.db.chunksOf d = w.db.chunksOf d
  accepted : w'.broker.accepted = w.broker.accepted

/-- The worker of stage `S`, given message `m` in `w`, moves nothing, whatever the
answers to its calls and wherever it is cut off. -/
def Inert (cfg : Config) (i : Nat) (S : Stage) (m : Message) (w : World) : Prop :=
  ∀ w', Passes (called i) (consumer cfg S m) w w' → Unmoved m.body.documentId w w'

/-- Why the worker of stage `S` makes nothing of a document that it takes up: the
chunker is given no id or finds no text; the OCR worker does not find the object of
a document that is already in `ocr_processing`. -/
def Refused (m : Message) (w : World) (row : Document) : Stage → Prop
  | .ocr => row.status = .ocrProcessing ∧
      w.objects (m.body.payload.objectKey.getD row.objectKey) = none
  | .chunk => m.body.documentId = 0 ∨ row.rawText.getD [] = []
  | .embed => False

/-- The worker skips message `m`: it has a dedupe row, or its document is not there,
or finished, or refused. -/
def Skips (S : Stage) (m : Message) (w : World) : Prop :=
  (w.db.processed m.body.messageId).isSome ∨ ∀ row, w.db.documents m.body.documentId = some row →
    row.status.terminal = true ∨ Refused m w row S

/-! ## A message that is not skipped -/

section Moves
variable {i : Nat} {w w₁ w' : World} {α : Type}

theorem passes_call {c : Call} {f : c.Val → Program α} {v : c.Val} (hx : called i c w (.ok v) w₁)
    (h : Passes (called i) (f v) w₁ w') : Passes (called i) (call c >>= f) w w' :=
  .call hx h

theorem ends_call {c : Call} {f : c.Val → Program α} {v : c.Val} {o : Except Exc α}
    (hx : called i c w (.ok v) w₁) (h : Ends (called i) (f v) w₁ o w') :
    Ends (called i) (call c >>= f) w o w' :=
  .call hx h

/-- The document has another status than it had. -/
def Moved (d : DocId) (w w' : World) : Prop :=
  (w'.db.documents d).map Document.status ≠ (w.db.documents d).map Document.status

theorem Moved.not_unmoved {d : DocId} (h : Moved d w w') : ¬ Unmoved d w w' := by
  intro hu
  have hrow := congrArg (Option.map Prod.fst) hu.row
  rw [Option.map_map, Option.map_map] at hrow
  exact h hrow

/-- The world after an update. -/
abbrev updated (w : World) (d : DocId) (u : DocumentUpdate) : World :=
  { w with db := w.db.updateDocument d u }

theorem status_updateDocument {db : Db} {d : DocId} {row : Document} (hrow : db.documents d = some row)
    (u : DocumentUpdate) : ((db.updateDocument d u).documents d).map Document.status = some u.status := by
  rw [Db.updateDocument_documents, if_pos rfl, hrow]
  rfl

/-- A world that differs from one in which the document is in `s` by an update to
another status. -/
theorem moved_of_status {d : DocId} {row : Document} {s : Status}
    (hrow : w.db.documents d = some row) (hw' : (w'.db.documents d).map Document.status = some s)
    (hs : row.status ≠ s) : Moved d w w' := by
  intro he
  rw [hw', hrow] at he
  exact hs (Option.some.inj he).symm

theorem called_alreadyProcessed {m : MessageId} (h : w.db.processed m = none) :
    called i (.alreadyProcessed m) w (.ok false) w :=
  ⟨.ok, by rw [← show w.db.alreadyProcessed m = false by rw [Db.alreadyProcessed, h]; rfl]; rfl⟩

theorem called_fetchDocument {d : DocId} {row : Document} (h : w.db.documents d = some row) :
    called i (.fetchDocument d) w (.ok (some row)) w :=
  ⟨.ok, by rw [← h]; rfl⟩

theorem called_downloadObject {key : ObjectKey} {blob : Blob} (h : w.objects key = some blob) :
    called i (.downloadObject key) w (.ok blob) w :=
  ⟨.ok, by simp only [exec, reply, h]; rfl⟩

theorem called_embedBatch {texts : List Text} {vectors : List Vec} (h : vectors.length = texts.length) :
    called i (.embedBatch texts) w (.ok vectors) w :=
  ⟨.vectors vectors, by simp only [exec, reply, if_pos h]; rfl⟩

/-- What a worker has done once it has taken a document up: the status and its event. -/
theorem exists_started {d : DocId} {row : Document} (hrow : w.db.documents d = some row)
    (u : DocumentUpdate) (e : ProcessingEvent) : ∃ w₁ : World,
      w₁.objects = w.objects ∧ w₁.db.chunks = w.db.chunks ∧ (∃ row₁, w₁.db.documents d = some row₁) ∧
      called i (.updateDocument d u) w (.ok ()) (updated w d u) ∧
      called i (.recordEvent e) (updated w d u) (.ok ()) w₁ := by
  refine ⟨{ w with db := (w.db.updateDocument d u).recordEvent e }, rfl, rfl, ⟨u.apply row, ?_⟩,
    ⟨.ok, rfl⟩, ⟨.ok, rfl⟩⟩
  show (w.db.updateDocument d u).documents d = _
  rw [Db.updateDocument_documents, if_pos rfl, hrow]
  rfl

variable {env : Envelope} {row : Document}

/-- A Python handler that does not skip the message comes to its `try` block. -/
theorem Python.handle_passes {S : Stage} {skipped : α} {work : Document → Program α}
    (hseen : w.db.processed env.messageId = none)
    (hrow : w.db.documents env.documentId = some row) (hopen : row.status.terminal = false)
    (h : Passes (called i) (tryCatch (work row) (onError S env)) w w') :
    Passes (called i) (handle S skipped work env) w w' := by
  unfold handle
  refine passes_call (called_alreadyProcessed hseen) ?_
  refine passes_call (called_fetchDocument hrow) ?_
  simpa only [hopen, Bool.false_eq_true, if_false] using h

/-- The OCR worker takes the document to `ocr_processing`, or away from it. -/
theorem Ocr.handle_moves (hseen : w.db.processed env.messageId = none)
    (hrow : w.db.documents env.documentId = some row) (hopen : row.status.terminal = false)
    (hobject : row.status = .ocrProcessing →
      w.objects (env.payload.objectKey.getD row.objectKey) ≠ none) :
    ∃ w', Passes (called i) (handle env) w w' ∧ Moved env.documentId w w' := by
  have hhandle : ∀ w', Passes (called i) (tryCatch (recognise env row
      (env.payload.objectKey.getD row.objectKey)) (onError env)) w w' →
        Passes (called i) (handle env) w w' := by
    intro w' h
    unfold handle
    exact Python.handle_passes hseen hrow hopen h
  by_cases hs : row.status = .ocrProcessing
  · obtain ⟨w₁, hobjects, -, ⟨row₁, hrow₁⟩, hupdate, hevent⟩ := exists_started (i := i) hrow
      { status := .ocrProcessing }
      { documentId := env.documentId, stage := .work .ocr, fromState := some row.status,
        toState := .ocrProcessing, message := some "OCR started" }
    obtain ⟨blob, hblob⟩ := Option.ne_none_iff_exists'.mp (hobject hs)
    have hdownload := called_downloadObject (i := i) ((congrFun hobjects _).trans hblob)
    by_cases hempty : blob.isEmpty = true
    · -- the object is empty: the document fails
      refine ⟨updated w₁ env.documentId
          { status := .failed, failureReason := some "object body empty", failedAt := some .now },
        hhandle _ ?_, moved_of_status hrow (status_updateDocument hrow₁ _) (by rw [hs]; decide)⟩
      refine .of_raise (e := .permanent "object body empty") ?_ (passes_call ⟨.ok, rfl⟩ .here)
      unfold recognise
      refine ends_call hupdate (ends_call hevent (ends_call hdownload ?_))
      rw [if_pos hempty]
      exact .raise
    · -- the text is recognised
      refine ⟨updated w₁ env.documentId
          { status := .ocrCompleted, rawText := some sampleText, ocrCompletedAt := some .now },
        hhandle _ (.tryCatch ?_), moved_of_status hrow (status_updateDocument hrow₁ _)
          (by rw [hs]; decide)⟩
      unfold recognise
      refine passes_call hupdate (passes_call hevent (passes_call hdownload ?_))
      rw [if_neg hempty]
      refine passes_call (v := (sampleText, 0)) ⟨.text sampleText 0, rfl⟩ ?_
      dsimp only
      rw [if_neg (by decide)]
      exact passes_call ⟨.ok, rfl⟩ .here
  · refine ⟨_, hhandle _ (.tryCatch (passes_call ⟨.ok, rfl⟩ .here)), ?_⟩
    exact moved_of_status hrow (status_updateDocument hrow _) hs

/-- The embedding worker takes the document to `embedding`, or away from it. -/
theorem Embedder.handle_moves (hseen : w.db.processed env.messageId = none)
    (hrow : w.db.documents env.documentId = some row) (hopen : row.status.terminal = false) :
    ∃ w', Passes (called i) (handle env) w w' ∧ Moved env.documentId w w' := by
  have hhandle : ∀ w', Passes (called i) (tryCatch (embed env row) (onError env)) w w' →
      Passes (called i) (handle env) w w' := fun w' => Python.handle_passes hseen hrow hopen
  by_cases hs : row.status = .embedding
  · obtain ⟨w₁, -, -, ⟨row₁, hrow₁⟩, hupdate, hevent⟩ := exists_started (i := i) hrow
      { status := .embedding }
      { documentId := env.documentId, stage := .work .embed, fromState := some row.status,
        toState := .embedding, message := some "Embedding started" }
    have hfetch : called i (.fetchChunksWithoutEmbedding env.documentId) w₁
        (.ok (w₁.db.chunksWithoutEmbedding env.documentId)) w₁ := ⟨.ok, rfl⟩
    generalize w₁.db.chunksWithoutEmbedding env.documentId = chunks at hfetch
    by_cases hempty : chunks.isEmpty = true
    · -- nothing is left to embed
      refine ⟨updated w₁ env.documentId { status := .embedded, embeddedAt := some .now },
        hhandle _ (.tryCatch ?_), moved_of_status hrow (status_updateDocument hrow₁ _)
          (by rw [hs]; decide)⟩
      unfold embed
      refine passes_call hupdate (passes_call hevent (passes_call hfetch ?_))
      rw [if_pos hempty]
      exact passes_call ⟨.ok, rfl⟩ .here
    · -- every chunk that is left is embedded
      have hvectors : called i (.embedBatch (chunks.map PendingChunk.content)) w₁
          (.ok (chunks.map fun c => sampleModel c.content)) w₁ := called_embedBatch (by simp)
      refine ⟨updated { w₁ with db := w₁.db.writeEmbeddings ((chunks.map PendingChunk.id).zip
          (chunks.map fun c => sampleModel c.content)) } env.documentId { status := .embedded, embeddedAt := some .now },
        hhandle _ (.tryCatch ?_), moved_of_status hrow (status_updateDocument hrow₁ _)
          (by rw [hs]; decide)⟩
      unfold embed writeEmbeddings
      refine passes_call hupdate (passes_call hevent (passes_call hfetch ?_))
      rw [if_neg hempty]
      refine passes_call hvectors ?_
      have hrows : ¬ ((chunks.map PendingChunk.id).zip
          (chunks.map fun c => sampleModel c.content)).isEmpty = true := by
        cases chunks with
        | nil => exact absurd rfl hempty
        | cons => exact Bool.false_ne_true
      dsimp only
      rw [if_neg hrows]
      have hwrite : ∀ rows, called i (.writeEmbeddings rows) w₁ (.ok ())
          { w₁ with db := w₁.db.writeEmbeddings rows } := fun _ => ⟨.ok, rfl⟩
      exact passes_call (hwrite _) (passes_call ⟨.ok, rfl⟩ .here)
  · refine ⟨_, hhandle _ (.tryCatch (passes_call ⟨.ok, rfl⟩ .here)), ?_⟩
    exact moved_of_status hrow (status_updateDocument hrow _) hs

/-- The chunker takes the document to `chunking`, or away from it. -/
theorem Chunker.process_moves {cfg : Config} (hid : env.documentId ≠ 0)
    (hseen : w.db.processed env.messageId = none)
    (hrow : w.db.documents env.documentId = some row) (hopen : row.status.terminal = false)
    (htext : row.rawText.getD [] ≠ []) :
    ∃ w', Passes (called i) (process cfg env) w w' ∧ Moved env.documentId w w' := by
  have hprocess : ∀ w₁ w', called i (.updateDocument env.documentId { status := .chunking }) w
      (.ok ()) w₁ → Passes (called i) (do
          let _ ← Prog.perform (.recordEvent
            { documentId := env.documentId, stage := .work .chunk, fromState := some row.status,
              toState := .chunking, message := some "Chunking started" })
          chunkDocument cfg env (row.rawText.getD [])) w₁ w' →
        Passes (called i) (process cfg env) w w' := by
    intro w₁ w' hupdate h
    unfold process
    rw [if_neg hid]
    refine .perform (called_alreadyProcessed hseen) (.perform (called_fetchDocument hrow) ?_)
    have hnotEmpty : (row.rawText.getD []).isEmpty = false := by
      cases h : row.rawText.getD [] with
      | nil => exact absurd h htext
      | cons => rfl
    simp only [hopen, hnotEmpty, Bool.false_eq_true, if_false]
    exact .perform hupdate h
  by_cases hs : row.status = .chunking
  · obtain ⟨w₁, -, -, ⟨row₁, hrow₁⟩, hupdate, hevent⟩ := exists_started (i := i) hrow
      { status := .chunking }
      { documentId := env.documentId, stage := .work .chunk, fromState := some row.status,
        toState := .chunking, message := some "Chunking started" }
    by_cases hempty : (split (row.rawText.getD []) cfg.chunkSize cfg.chunkOverlap).isEmpty = true
    · -- no chunks: the document fails
      refine ⟨updated w₁ env.documentId
          { status := .failed, failureReason := some "no chunks produced", failedAt := some .now },
        hprocess _ _ hupdate (.perform hevent ?_),
        moved_of_status hrow (status_updateDocument hrow₁ _) (by rw [hs]; decide)⟩
      unfold chunkDocument
      dsimp only
      rw [if_pos hempty]
      exact .perform ⟨.ok, rfl⟩ .here
    · -- the chunks are stored
      refine ⟨updated { w₁ with db := w₁.db.insertChunks env.documentId (chunkRows
          (split (row.rawText.getD []) cfg.chunkSize cfg.chunkOverlap)) } env.documentId
          { status := .chunked, chunkedAt := some .now },
        hprocess _ _ hupdate (.perform hevent ?_),
        moved_of_status hrow (status_updateDocument hrow₁ _) (by rw [hs]; decide)⟩
      unfold chunkDocument
      dsimp only
      rw [if_neg hempty]
      have hinsert : ∀ d rows, called i (.insertChunks d rows) w₁ (.ok ())
          { w₁ with db := w₁.db.insertChunks d rows } := fun _ _ => ⟨.ok, rfl⟩
      exact .perform (hinsert _ _) (.perform ⟨.ok, rfl⟩ .here)
  · refine ⟨_, hprocess _ _ ⟨.ok, rfl⟩ .here, ?_⟩
    exact moved_of_status hrow (status_updateDocument hrow _) hs

end Moves

/-! ## A message that is skipped -/

/-- What the worker looks at, and what it would move, is as it was. -/
structure Still (d : DocId) (w w' : World) : Prop where
  documents : w'.db.documents d = w.db.documents d
  chunks : w'.db.chunksOf d = w.db.chunksOf d
  processed : w'.db.processed = w.db.processed
  objects : w'.objects = w.objects
  accepted : w'.broker.accepted = w.broker.accepted

theorem Still.refl (d : DocId) (w : World) : Still d w w := ⟨rfl, rfl, rfl, rfl, rfl⟩

theorem Still.trans {d : DocId} {w w' w'' : World} (h : Still d w w') (h' : Still d w' w'') :
    Still d w w'' :=
  ⟨h'.documents.trans h.documents, h'.chunks.trans h.chunks, h'.processed.trans h.processed,
    h'.objects.trans h.objects, h'.accepted.trans h.accepted⟩

theorem Still.unmoved {d : DocId} {w w' : World} (h : Still d w w') : Unmoved d w w' :=
  ⟨by rw [h.documents], h.chunks, h.accepted⟩

/-- The calls that look something up, note an event, or settle. -/
def Calm : Call → Prop
  | .alreadyProcessed _ | .fetchDocument _ | .recordEvent _ | .downloadObject _ | .ack _ | .nack => True
  | .publish exchange _ _ => exchange ≠ .ingest
  | _ => False

/-- They leave everything as it was. -/
theorem still_of_does {i : Nat} {c : Call} {v : c.Val} {w w' : World} (d : DocId) (hc : Calm c)
    (hd : Does i c v w w') : Still d w w' := by
  cases c with
  | alreadyProcessed | fetchDocument | downloadObject =>
    obtain ⟨-, rfl⟩ := hd
    exact .refl d _
  | recordEvent e =>
    obtain rfl := hd
    exact ⟨rfl, rfl, rfl, rfl, rfl⟩
  | publish exchange key m =>
    have haccepted := accepted_of_does hd (by
      rintro key' m' he
      obtain rfl := (Call.publish.inj he).1
      exact hc rfl)
    obtain rfl := hd
    exact ⟨rfl, rfl, rfl, rfl, haccepted⟩
  | ack =>
    obtain ⟨copy, -, rfl⟩ := hd
    exact ⟨rfl, rfl, rfl, rfl, rfl⟩
  | nack =>
    obtain ⟨copy, q, -, rfl⟩ := hd
    exact ⟨rfl, rfl, rfl, rfl, Broker.nack_accepted _ _ _ _⟩
  | _ => exact hc.elim

theorem calm_of_settling {S : Stage} {m : Message} {c : Call} (h : Settling S m c) : Calm c := by
  cases c with
  | publish exchange key m' =>
    cases exchange with
    | ingest => exact h.elim
    | retry | dlx => exact fun he => nomatch he
  | ack | nack => trivial
  | _ => exact h.elim

/-- A program in whose worlds everything about document `d` is as it was in `w`. -/
def stillness (i : Nat) (d : DocId) (w : World) : Automaton World Call Call.Reply where
  moves := called i
  owed w' _ := Still d w w'

section Skips
variable {i : Nat} {d : DocId} {w w₁ : World} {α : Type}

/-- The program leaves everything as it was. -/
abbrev KeepsStill (i : Nat) (d : DocId) (w : World) (p : Program α) (w₁ : World) : Prop :=
  (stillness i d w).Accepts p (fun _ => Still d w) (fun _ => Still d w) w₁

/-- One calm call. -/
theorem accepts_calm {c : Call} {k : c.Reply → Program α} {Q : α → World → Prop}
    {E : Exc → World → Prop} (hc : Calm c) (hw : Still d w w₁)
    (herror : ∀ reason, (stillness i d w).Accepts (k (.error reason)) Q E w₁)
    (hok : ∀ v w₂, Does i c v w₁ w₂ → Still d w w₂ → (stillness i d w).Accepts (k (.ok v)) Q E w₂) :
    (stillness i d w).Accepts (Prog.perform c >>= k) Q E w₁ := by
  refine Automaton.accepts_perform hw fun r w₂ ⟨a, hx⟩ => ?_
  rcases exec_cases hx with ⟨reason, -, rfl, -, rfl⟩ | ⟨v, rfl, -, hd⟩
  · exact herror reason
  · exact hok v w₂ hd (hw.trans (still_of_does d hc hd))

theorem accepts_calm_call {c : Call} {Q : c.Val → World → Prop} {E : Exc → World → Prop} (hc : Calm c)
    (hw : Still d w w₁) (hE : ∀ reason, E (.other reason) w₁)
    (hQ : ∀ v w₂, Does i c v w₁ w₂ → Still d w w₂ → Q v w₂) :
    (stillness i d w).Accepts (call c) Q E w₁ :=
  accepts_calm hc hw hE hQ

/-- A program of calm calls. -/
theorem KeepsStill.of_calls {p : Program α} (hp : p.Calls Calm) (hw : Still d w w₁) :
    KeepsStill i d w p w₁ := by
  induction p generalizing w₁ with
  | ret | raise => exact hw
  | call c k ih =>
    exact accepts_calm hp.1 hw (fun reason => ih _ (hp.2 _) hw) fun v w₂ _ hw₂ => ih _ (hp.2 _) hw₂

/-- A handler that hands nothing on. -/
abbrev HandlerSkips (i : Nat) (d : DocId) (w : World) {N : Type} (p : Program (Option N)) : Prop :=
  (stillness i d w).Accepts p (fun r w' => r = none ∧ Still d w w') (fun _ => Still d w) w

theorem Python.onMessage_skips {N : Type} {maxRetries : Int} {S : Stage} {m : Message}
    {handler : Envelope → Program (Option N)} {publishNext : Envelope → N → Program Unit}
    (hhandler : HandlerSkips i d w (handler m.body)) :
    KeepsStill i d w (onMessage maxRetries envelopeCodec (channel S m) handler publishNext m.body)
      w := by
  unfold KeepsStill onMessage
  simp only [envelopeCodec]
  have hack : ∀ o, ((channel S m).ack o).Calls Calm := fun o => calls_call trivial
  refine Automaton.Accepts.tryCatch (F := fun _ => Still d w) ?_ fun e w₁ hw₁ => ?_
  · rw [Automaton.accepts_bind]
    refine hhandler.mono ?_ fun _ _ h => h
    rintro r w₁ ⟨rfl, hw₁⟩
    exact KeepsStill.of_calls (hack .success) hw₁
  · refine KeepsStill.of_calls ?_ hw₁
    cases e with
    | permanent => exact hack _
    | transient => exact (retry_settling maxRetries S m).mono fun _ => calm_of_settling
    | other => exact (unhandled_settling S m).mono fun _ => calm_of_settling

/-- The lookup of the message. -/
theorem accepts_seen {m : MessageId} {k : (Call.alreadyProcessed m).Reply → Program α}
    {Q : α → World → Prop} {E : Exc → World → Prop}
    (herror : ∀ reason, (stillness i d w).Accepts (k (.error reason)) Q E w)
    (hok : (stillness i d w).Accepts (k (.ok (w.db.alreadyProcessed m))) Q E w) :
    (stillness i d w).Accepts (Prog.perform (.alreadyProcessed m) >>= k) Q E w := by
  refine accepts_calm trivial (.refl d w) herror fun v w₂ hd _ => ?_
  obtain ⟨rfl, rfl⟩ := hd
  exact hok

/-- The lookup of the document. -/
theorem accepts_found {k : (Call.fetchDocument d).Reply → Program α}
    {Q : α → World → Prop} {E : Exc → World → Prop}
    (herror : ∀ reason, (stillness i d w).Accepts (k (.error reason)) Q E w)
    (hok : (stillness i d w).Accepts (k (.ok (w.db.documents d))) Q E w) :
    (stillness i d w).Accepts (Prog.perform (.fetchDocument d) >>= k) Q E w := by
  refine accepts_calm trivial (.refl d w) herror fun v w₂ hd _ => ?_
  obtain ⟨rfl, rfl⟩ := hd
  exact hok

end Skips

/-- Setting the status that a row has changes nothing. -/
theorem apply_status {row : Document} {s : Status} (h : row.status = s) :
    ({ status := s } : DocumentUpdate).apply row = row := by
  subst h
  simp [DocumentUpdate.apply]

section Handlers
variable {i : Nat} {w : World} {m : Message}

/-- Taking up a document again that is already at work. -/
theorem accepts_resumed {d : DocId} {row : Document} {s : Status} {Q : Unit → World → Prop}
    {E : Exc → World → Prop} (hrow : w.db.documents d = some row) (hstatus : row.status = s)
    (hE : ∀ reason, E (.other reason) w) (hQ : ∀ w₁, Still d w w₁ → Q () w₁) :
    (stillness i d w).Accepts (call (.updateDocument d { status := s })) Q E w := by
  refine Automaton.accepts_perform (Still.refl d w) fun r w₁ ⟨a, hx⟩ => ?_
  rcases exec_cases hx with ⟨reason, -, rfl, -, rfl⟩ | ⟨v, rfl, -, hd⟩
  · exact hE reason
  · obtain rfl := hd
    refine hQ _ ⟨?_, rfl, rfl, rfl, rfl⟩
    show (w.db.updateDocument d _).documents d = _
    rw [Db.updateDocument_documents, if_pos rfl, hrow, Option.map_some, apply_status hstatus]

/-- The OCR worker that does not find the object of a document it is at work on. -/
theorem Ocr.recognise_skips {env : Envelope} {row : Document} {key : ObjectKey}
    (hrow : w.db.documents env.documentId = some row) (hstatus : row.status = .ocrProcessing)
    (hobject : w.objects key = none) :
    (stillness i env.documentId w).Accepts (recognise env row key)
      (fun r w' => r = none ∧ Still env.documentId w w')
      (fun e w' => (∃ reason, e = .other reason) ∧ Still env.documentId w w') w := by
  unfold recognise updateDocumentStatus Python.recordEvent
  rw [Automaton.accepts_bind]
  refine accepts_resumed hrow hstatus (fun _ => ⟨⟨_, rfl⟩, .refl _ _⟩) fun w₁ h₁ => ?_
  rw [Automaton.accepts_bind]
  refine accepts_calm_call trivial h₁ (fun _ => ⟨⟨_, rfl⟩, h₁⟩) fun _ w₂ _ h₂ => ?_
  rw [Automaton.accepts_bind]
  refine accepts_calm_call trivial h₂ (fun _ => ⟨⟨_, rfl⟩, h₂⟩) fun blob w₃ hd _ => ?_
  -- the object is not there
  obtain ⟨hblob, -⟩ := hd
  rw [h₂.objects, hobject] at hblob
  cases hblob

/-- A Python handler skips the message in its checks or in its `try` block. -/
theorem Python.handle_skips {α : Type} {S : Stage} {env : Envelope} {skipped : α}
    {work : Document → Program α} {Q : α → World → Prop} (hskipped : Q skipped w)
    (hwork : ∀ row, ¬ w.db.alreadyProcessed env.messageId = true →
      w.db.documents env.documentId = some row → ¬ row.status.terminal = true →
        (stillness i env.documentId w).Accepts (tryCatch (work row) (onError S env)) Q
          (fun _ => Still env.documentId w) w) :
    (stillness i env.documentId w).Accepts (handle S skipped work env) Q
      (fun _ => Still env.documentId w) w := by
  unfold handle alreadyProcessed fetchDocument
  have hstill := Still.refl env.documentId w
  rw [Automaton.accepts_bind]
  refine accepts_seen (fun _ => hstill) ?_
  show (stillness i env.documentId w).Accepts (if w.db.alreadyProcessed env.messageId then _ else _) _ _ _
  split
  · exact hskipped
  rename_i hseen
  rw [Automaton.accepts_bind]
  refine accepts_found (fun _ => hstill) ?_
  cases hrow : w.db.documents env.documentId with
  | none => exact hstill
  | some row =>
    show (stillness i env.documentId w).Accepts (if row.status.terminal then _ else _) _ _ _
    split
    · exact hskipped
    · exact hwork row hseen hrow ‹_›

theorem Ocr.handle_skips (h : Skips .ocr m w) : HandlerSkips i m.body.documentId w (handle m.body) := by
  refine Python.handle_skips ⟨rfl, .refl _ _⟩ fun row hseen hrow hopen => ?_
  obtain ⟨hstatus, hobject⟩ := ((h.resolve_left hseen) row hrow).resolve_left hopen
  refine (recognise_skips hrow hstatus hobject).tryCatch ?_
  rintro e w₁ ⟨⟨reason, rfl⟩, h₁⟩
  show (stillness i m.body.documentId w).Accepts (call (.recordEvent _) >>= fun _ => throw _) _ _ w₁
  rw [Automaton.accepts_bind]
  exact accepts_calm_call trivial h₁ (fun _ => h₁) fun _ _ _ h₂ => h₂

theorem Embedder.handle_skips (h : Skips .embed m w) :
    KeepsStill i m.body.documentId w (handle m.body) w :=
  Python.handle_skips (.refl _ _) fun row hseen hrow hopen =>
    (((h.resolve_left hseen) row hrow).resolve_left hopen).elim

theorem Chunker.process_skips {cfg : Config} {env : Envelope} (hmessage : env.messageId = m.body.messageId)
    (hdoc : env.documentId = m.body.documentId) (h : Skips .chunk m w) :
    KeepsStill i m.body.documentId w (process cfg env) w := by
  unfold KeepsStill process
  have hstill := Still.refl m.body.documentId w
  split
  · exact hstill
  rename_i hid
  rw [hmessage]
  refine accepts_seen (fun _ => hstill) ?_
  cases hseen : w.db.alreadyProcessed m.body.messageId with
  | true => exact hstill
  | false =>
    dsimp only
    rw [hdoc]
    refine accepts_found (fun _ => hstill) ?_
    cases hrow : w.db.documents m.body.documentId with
    | none => exact hstill
    | some row =>
      dsimp only
      split
      · exact hstill
      rename_i hopen
      split
      · exact hstill
      rename_i hempty
      have hnot : ¬ (w.db.processed m.body.messageId).isSome = true := by
        rw [show (w.db.processed m.body.messageId).isSome = false from hseen]
        exact Bool.false_ne_true
      rcases ((h.resolve_left hnot) row hrow).resolve_left hopen with hzero | htext
      · exact absurd (hdoc.trans hzero) hid
      · rw [htext] at hempty
        exact absurd rfl hempty

theorem Chunker.handle_skips {cfg : Config} (h : Skips .chunk m w) :
    KeepsStill i m.body.documentId w (handle cfg m) w := by
  unfold KeepsStill handle
  obtain ⟨a, henv⟩ := alike_defaultAttempt m.body
  dsimp only
  rw [henv, Automaton.accepts_bind]
  have hskips := @process_skips i w m cfg { m.body with attempt := a } rfl rfl h
  refine hskips.mono (fun r w₁ h₁ => ?_) fun _ _ h => h
  refine KeepsStill.of_calls ?_ h₁
  have hack : ∀ o, (Prog.perform (.ack o) >>= fun _ => pure () : Program Unit).Calls Calm :=
    fun o => .bind (.perform trivial) fun _ => trivial
  split
  · exact hack _
  · exact hack _
  · split
    · exact .bind (.bind (.perform fun he => nomatch he) fun _ => trivial) fun _ => hack _
    · exact .bind (.bind (.perform fun he => nomatch he) fun _ => trivial) fun _ => hack _

/-- **A message that is skipped** moves nothing. -/
theorem consumer_skips (cfg : Config) {S : Stage} (h : Skips S m w) :
    KeepsStill i m.body.documentId w (consumer cfg S m) w := by
  cases S with
  | ocr => exact Python.onMessage_skips (Ocr.handle_skips h)
  | chunk => exact Chunker.handle_skips h
  | embed =>
    show KeepsStill i m.body.documentId w (Embedder.onMessage cfg m) w
    unfold Embedder.onMessage
    refine Python.onMessage_skips ?_
    unfold HandlerSkips
    rw [Automaton.accepts_bind]
    exact (Embedder.handle_skips h).mono (fun _ _ h => ⟨rfl, h⟩) fun _ _ h => h

/-- A consumer in Python passes what its handler passes. -/
theorem Python.passes_onMessage {N : Type} {maxRetries : Int} {S : Stage} {w' : World}
    {handler : Envelope → Program (Option N)} {publishNext : Envelope → N → Program Unit}
    (h : Passes (called i) (handler m.body) w w') :
    Passes (called i) (onMessage maxRetries envelopeCodec (channel S m) handler publishNext m.body)
      w w' :=
  .tryCatch (.bind h)

/-- **A message that is not skipped** can change the status of its document. -/
theorem consumer_moves (cfg : Config) {S : Stage} (h : ¬ Skips S m w) :
    ∃ w', Passes (called i) (consumer cfg S m) w w' ∧ Moved m.body.documentId w w' := by
  unfold Skips at h
  push Not at h
  obtain ⟨hseen, row, hrow, hopen, hrefused⟩ := h
  have hseen : w.db.processed m.body.messageId = none := Option.not_isSome_iff_eq_none.mp hseen
  have hopen : row.status.terminal = false := Bool.eq_false_iff.mpr hopen
  cases S with
  | ocr =>
    obtain ⟨w', hpasses, hmoved⟩ := Ocr.handle_moves (i := i) hseen hrow hopen
      fun hs hnone => hrefused ⟨hs, hnone⟩
    exact ⟨w', Python.passes_onMessage hpasses, hmoved⟩
  | chunk =>
    obtain ⟨a, henv⟩ := Chunker.alike_defaultAttempt m.body
    obtain ⟨w', hpasses, hmoved⟩ := @Chunker.process_moves i w { m.body with attempt := a } row cfg
      (fun hid => hrefused (Or.inl hid)) hseen hrow hopen fun htext => hrefused (Or.inr htext)
    refine ⟨w', ?_, hmoved⟩
    show Passes (called i) (Chunker.handle cfg m) w w'
    unfold Chunker.handle
    dsimp only
    rw [henv]
    exact .bind hpasses
  | embed =>
    obtain ⟨w', hpasses, hmoved⟩ := Embedder.handle_moves (i := i) hseen hrow hopen
    refine ⟨w', ?_, hmoved⟩
    show Passes (called i) (Embedder.onMessage cfg m) w w'
    exact Python.passes_onMessage (.bind hpasses)

end Handlers

/-- **When a message has no effect.**  Handling a message moves nothing of its document
and hands nothing on, whatever happens meanwhile, exactly when the worker skips it:
whether a message with the same idempotency key has been handled does not matter. -/
theorem one_effect_iff (cfg : Config) (i : Nat) (S : Stage) (m : Message) (w : World) :
    Inert cfg i S m w ↔ Skips S m w := by
  constructor
  · intro hinert
    by_contra hskips
    obtain ⟨w', hpasses, hmoved⟩ := consumer_moves cfg hskips
    exact hmoved.not_unmoved (hinert w' hpasses)
  · intro hskips w' hpasses
    have hstill : Still m.body.documentId w w' :=
      (consumer_skips cfg hskips).of_passes hpasses (fun _ _ h => h) (fun _ _ h => h)
        fun _ _ h => h
    exact hstill.unmoved

/-- The chunk message is handled by executions 2 and 3, because the broker takes it back from
2, and both hand the document on: 3 under the id `f`, and 2 under the id `e` after the first of
these messages has been handled.  That one has not been acked and comes again. -/
def handedOnTwice : List Label :=
  uploadRun ++ ocrRun 1 ++ .deliver 2 .chunk 0 :: .redeliver 2 :: .deliver 3 .chunk 0 ::
    answers 2 [.ok, .ok, .ok, .ok] ++
    answers 3 [.ok, .ok, .ok, .ok, .ok, .ok, .ok, .ok, .id ['f'], .ok, .ok] ++
    (embedRun 4).dropLast ++ .redeliver 4 :: answers 2 [.ok, .ok, .ok, .ok, .id ['e'], .ok] ++
    [.deliver 5 .embed 0]

/-- **A second message with the same key has a second effect**: the document that the first
message has embedded is embedded again. -/
theorem not_one_effect : ¬ ∀ (cfg : Config) (s : Sys) (i j : Nat) (S : Stage) (copy copy' : Copy)
    (w : World), Reachable cfg anyStep s → s.world.broker.Unsettled i copy →
      Ends (called i) (consumer cfg S copy.message) s.world (.ok ()) w →
      (copy, .success) ∈ w.broker.settled → copy' ∈ w.broker.queues ⟨S, .work⟩ →
      copy'.message.body.idempotencyKey = copy.message.body.idempotencyKey →
      copy'.message.body.messageId ≠ copy.message.body.messageId →
      Inert cfg j S copy'.message w := by
  intro hall
  obtain ⟨s, hs, hrun⟩ := exists_run (step sampleConfig) .init handedOnTwice
    (fun s => (s.world.broker.deliveries 5).any (fun d => d.unsettled = true ∧
      (feed (exec 5) [.ok, .ok] (consumer sampleConfig .embed d.copy.message) s.world).any (fun r =>
        r.1.value = some () ∧ (d.copy, Outcome.success) ∈ r.2.broker.settled ∧
          ((r.2.broker.queues ⟨.embed, .work⟩)[0]?).any (fun copy' =>
            copy'.message.body.idempotencyKey = d.copy.message.body.idempotencyKey ∧
            copy'.message.body.messageId ≠ d.copy.message.body.messageId ∧
            (feed (exec 6) [.ok, .ok, .ok] (consumer sampleConfig .embed copy'.message) r.2).any
              (fun r' => (r'.2.db.documents 1).map Document.status ≠
                (r.2.db.documents 1).map Document.status ∧
                  copy'.message.body.documentId = 1) = true) = true) = true) = true) (by decide)
  obtain ⟨d, hd, hfirst⟩ := (Option.any_eq_true _ _).mp hrun
  obtain ⟨hunsettled, hfirst⟩ := of_decide_eq_true hfirst
  obtain ⟨⟨p, w⟩, hw, hrest⟩ := (Option.any_eq_true _ _).mp hfirst
  obtain ⟨hvalue, hsettled, hsecond⟩ := of_decide_eq_true hrest
  obtain ⟨copy', hcopy', hsecond⟩ := (Option.any_eq_true _ _).mp hsecond
  obtain ⟨hkey, hid, hmoves⟩ := of_decide_eq_true hsecond
  obtain ⟨⟨p', w'⟩, hw', hmoved⟩ := (Option.any_eq_true _ _).mp hmoves
  obtain ⟨hstatus, hdoc⟩ := of_decide_eq_true hmoved
  have hinert : Inert sampleConfig 6 .embed copy'.message w :=
    hall _ s 5 6 .embed d.copy copy' w (.of_run hs) ⟨d.queue, by rw [hd, ← hunsettled]⟩
      (.of_feed hw hvalue) hsettled (List.mem_of_getElem? hcopy') hkey hid
  have hunmoved := (hinert w' (.of_feed hw')).row
  rw [hdoc] at hunmoved
  have hstatuses := congrArg (Option.map Prod.fst) hunmoved
  rw [Option.map_map, Option.map_map] at hstatuses
  exact hstatus hstatuses

end DigitalCip
