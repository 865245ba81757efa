import DigitalCip.Invariant.Baseline
import DigitalCip.Python.Handler

/-!
# The workers keep the invariant

Each handler is followed call by call; what it has learned on its way is what
makes its next call legal.
-/

namespace DigitalCip
open Resumable

/-! ## The status updates of the workers -/

section Updates
variable {i : Nat} {w : World} {d : DocId}

theorem legal_ocrProcessing : Legal i w (.updateDocument d { status := .ocrProcessing }) :=
  ⟨by simp, fun row _ => by
    constructor <;> simp [DocumentUpdate.apply, Status.recognised, Status.divided]⟩

theorem legal_ocrCompleted {text : Text} (h : ¬ Blank text) : Legal i w (.updateDocument d
    { status := .ocrCompleted, rawText := some text, ocrCompletedAt := some .now }) := by
  refine ⟨fun t ht => Option.some.inj ht ▸ h, fun row _ => ?_⟩
  constructor <;> simp [DocumentUpdate.apply, Status.divided]
  exact fun _ => ⟨⟨text, rfl, h⟩, rfl⟩

theorem legal_chunking (h : w.db.Recognised d) :
    Legal i w (.updateDocument d { status := .chunking }) := by
  obtain ⟨row₀, hrow₀, htext⟩ := h
  refine ⟨by simp, fun row hrow => ?_⟩
  obtain rfl := Option.some.inj (hrow₀.symm.trans hrow)
  constructor <;> simp [DocumentUpdate.apply, Status.divided]
  exact fun _ => htext

theorem legal_chunked (h : w.db.Recognised d) (hchunks : w.db.chunksOf d ≠ []) :
    Legal i w (.updateDocument d { status := .chunked, chunkedAt := some .now }) := by
  obtain ⟨row₀, hrow₀, htext⟩ := h
  refine ⟨by simp, fun row hrow => ?_⟩
  obtain rfl := Option.some.inj (hrow₀.symm.trans hrow)
  constructor <;> simp [DocumentUpdate.apply, hchunks]
  exact fun _ => htext

theorem legal_embedding (h : w.db.Divided d) :
    Legal i w (.updateDocument d { status := .embedding }) := by
  obtain ⟨⟨row₀, hrow₀, htext, hat⟩, hchunks⟩ := h
  refine ⟨by simp, fun row hrow => ?_⟩
  obtain rfl := Option.some.inj (hrow₀.symm.trans hrow)
  constructor <;> simp [DocumentUpdate.apply, hchunks, hat]
  exact fun _ => htext

theorem legal_embedded (h : w.db.Divided d) :
    Legal i w (.updateDocument d { status := .embedded, embeddedAt := some .now }) := by
  obtain ⟨⟨row₀, hrow₀, htext, hat⟩, hchunks⟩ := h
  refine ⟨by simp, fun row hrow => ?_⟩
  obtain rfl := Option.some.inj (hrow₀.symm.trans hrow)
  constructor <;> simp [DocumentUpdate.apply, hchunks, hat]
  exact fun _ => htext

theorem legal_failed {reason : String} : Legal i w (.updateDocument d
    { status := .failed, failureReason := some reason, failedAt := some .now }) :=
  ⟨by simp, fun row _ => by
    constructor <;> simp [DocumentUpdate.apply, Status.recognised, Status.divided]⟩

end Updates

/-! ## The Python handlers -/

namespace Python
variable {i : Nat} {S : Stage} {env : Envelope} {w : World} {J : World → Prop} {α : Type}

/-- What a worker knows outlasts its calls that are legal anywhere and publish nothing. -/
theorem keeps_working (hJ : ∀ w w', J w → Grows w w' → J w') :
    baseline.Keeps i (fun w => Working i S env w ∧ J w)
      (fun c => (∀ w, Legal i w c) ∧ ∀ key m, c ≠ .publish .ingest key m) where
  stable _ w w' _ h _ ha hr _ := (lasting_working.and (.of_grows hJ)) w w' h hr ha
  fail _ w _ _ _ _ _ := ⟨.refl w, .of_eq rfl⟩
  does c w v w' _ hc h _ hb _ _ _ _ hd := by
    have hl := hc.1 w
    have hg := Base.grows hb hl hd
    exact ⟨Base.does hb hl hd, ⟨hg, Base.stores hl hd⟩, h.1.does hd hg hc.2, hJ w w' h.2 hg⟩

theorem handle_spec {skipped : α} {work : Document → Program α} {Q : α → World → Prop}
    (hJ : ∀ w w', J w → Grows w w' → J w') (hw : Working i S env w) (hJw : J w)
    (hskipped : ∀ w, Working i S env w → Q skipped w)
    (hwork : ∀ w document, Working i S env w → J w → w.db.documents env.documentId = some document →
      wp baseline.rules i (work document) Q (fun _ => Working i S env) w) :
    wp baseline.rules i (handle S skipped work env) Q (fun _ => Working i S env) w := by
  refine handle_wp (keeps_working hJ) ⟨fun _ => by trivial, by simp⟩ ⟨fun _ => by trivial, by simp⟩
    (fun _ _ h => h.1) (fun w _ h _ => hskipped w h.1) (fun _ _ _ h _ => h.1)
    (fun w _ _ h _ _ => hskipped w h.1) (fun w document _ h hrow _ => ?_) ⟨hw, hJw⟩
  refine wp_try (hwork w document h.1 h.2 hrow) fun e w₁ h₁ => ?_
  exact onError_wp (keeps_working (J := fun _ => True) fun _ _ _ _ => trivial)
    (fun _ => ⟨fun _ => legal_failed, by simp⟩) (fun _ _ => ⟨fun _ => by trivial, by simp⟩)
    (fun _ _ h => h.1) e ⟨h₁, trivial⟩

end Python

/-! ## The OCR worker -/

namespace Ocr
variable {i : Nat} {env : Envelope} {w : World}

/-- The document of the message is there. -/
def Found (d : DocId) (w : World) : Prop := ∃ row, w.db.documents d = some row

theorem Found.mono {d : DocId} {w w' : World} (h : Found d w) (hg : Grows w w') : Found d w' := by
  obtain ⟨row, hrow⟩ := h
  obtain ⟨row', hrow', -⟩ := hg.db.documents d row hrow
  exact ⟨row', hrow'⟩

theorem recognised_updateDocument {db : Db} {d : DocId} {u : DocumentUpdate}
    (hu : (∃ t, u.rawText = some t ∧ ¬ Blank t) ∧ u.ocrCompletedAt.isSome)
    (hfound : ∃ row, (db.updateDocument d u).documents d = some row) :
    (db.updateDocument d u).Recognised d := by
  obtain ⟨row, hrow⟩ := hfound
  refine ⟨row, hrow, ?_⟩
  rw [Db.updateDocument_documents, if_pos rfl] at hrow
  obtain ⟨row₀, -, rfl⟩ := Option.map_eq_some_iff.mp hrow
  obtain ⟨⟨t, ht, hblank⟩, hat⟩ := hu
  refine ⟨⟨t, by simp [DocumentUpdate.apply, ht], hblank⟩, ?_⟩
  obtain ⟨at', hat'⟩ := Option.isSome_iff_exists.mp hat
  simp [DocumentUpdate.apply, hat']

theorem recognise_spec (document : Document) (objectKey : ObjectKey) (hw : Working i .ocr env w)
    (hfound : Found env.documentId w) :
    wp baseline.rules i (recognise env document objectKey)
      (fun r w => Working i .ocr env w ∧ (r.isSome → w.db.Recognised env.documentId))
      (fun _ => Working i .ocr env) w := by
  unfold recognise updateDocumentStatus Python.recordEvent Python.recordProcessed
  refine wp_work_then (fun _ _ h => h.mono) hw hfound (by simp)
    (fun _ _ _ _ => legal_ocrProcessing) fun _ _ w₁ h₁ hf₁ _ _ _ => ?_
  refine wp_work_then (fun _ _ h => h.mono) h₁ hf₁ (by simp) (fun _ _ _ _ => by trivial)
    fun _ _ w₂ h₂ hf₂ _ _ _ => ?_
  refine wp_work_then (fun _ _ h => h.mono) h₂ hf₂ (by simp) (fun _ _ _ _ => by trivial)
    fun _ blob w₃ h₃ hf₃ _ _ _ => ?_
  split
  · exact h₃
  refine wp_work_then (fun _ _ h => h.mono) h₃ hf₃ (by simp) (fun _ _ _ _ => by trivial)
    fun _ ⟨text, pages⟩ w₄ h₄ hf₄ _ _ _ => ?_
  dsimp only
  split
  · exact h₄
  rename_i hblank
  refine wp_work_then (fun _ _ h => h.mono) h₄ hf₄ (by simp)
    (fun _ _ _ _ => legal_ocrCompleted hblank) fun w₄' _ w₅ h₅ hf₅ _ _ hd => ?_
  have hr₅ : w₅.db.Recognised env.documentId := by
    obtain rfl := hd
    exact recognised_updateDocument ⟨⟨text, rfl, hblank⟩, rfl⟩ hf₅
  refine wp_work_then (fun _ _ h hg => Db.Recognised.mono h hg.db) h₅ hr₅ (by simp)
    (fun _ _ _ _ => by trivial) fun _ _ w₆ h₆ hr₆ _ _ _ => ?_
  refine wp_work_then (fun _ _ h hg => Db.Recognised.mono h hg.db) h₆ hr₆ (by simp)
    (fun _ h _ _ => ⟨env, h.handles, rfl, rfl⟩) fun _ _ w₇ h₇ hr₇ _ _ _ => ?_
  exact ⟨h₇, fun _ => hr₇⟩

theorem handle_spec (hw : Working i .ocr env w) :
    wp baseline.rules i (handle env)
      (fun r w => Working i .ocr env w ∧ (r.isSome → w.db.Recognised env.documentId))
      (fun _ => Working i .ocr env) w :=
  Python.handle_spec (J := fun _ => True) (fun _ _ _ _ => trivial) hw trivial
    (fun _ h => ⟨h, by simp⟩) fun _ document h _ hrow => recognise_spec document _ h ⟨document, hrow⟩

theorem publishNext_spec (payload : Payload) (hw : Working i .ocr env w)
    (hr : w.db.Recognised env.documentId) :
    wp baseline.rules i (publishNext env payload) (fun _ w => Handles w i .ocr env)
      (fun _ w => Handles w i .ocr env) w := by
  refine wp_legal_call (K := fun w => Working i .ocr env w ∧ w.db.Recognised env.documentId)
    (lasting_working.and (.of_grows fun _ _ h hg => h.mono hg.db)) ⟨hw, hr⟩ ?_
    (fun _ _ h => h.1.handles) fun _ _ _ h _ _ hg _ => h.1.handles.mono hg
  intro w ⟨h, hr⟩ _
  exact ⟨rfl, ⟨rfl, hr, env, h.handles, rfl, rfl⟩, h.unpublished⟩

end Ocr

/-! ## The Python consumer -/

namespace Python
variable {i : Nat} {S : Stage} {cfg : Config} {w : World}

/-- A call of a worker that knows no more than what it handles. -/
theorem wp_settle {env : Envelope} {c : Call} (hw : Handles w i S env)
    (hlegal : ∀ w, Handles w i S env → Legal i w c) :
    wp baseline.rules i (call c) (fun _ w => Handles w i S env) (fun _ w => Handles w i S env) w :=
  wp_legal_call lasting_handles hw (fun w h _ => hlegal w h) (fun _ _ h => h)
    fun _ _ _ h _ _ hg _ => h.mono hg

theorem retry_spec {m : Message} (hw : Handles w i S m.body) :
    wp baseline.rules i (retry cfg.maxRetries envelopeCodec (channel S m) m.body)
      (fun _ w => Handles w i S m.body) (fun _ w => Handles w i S m.body) w := by
  unfold retry
  simp only [envelopeCodec, channel]
  split
  · contradiction
  · rw [wp_bind]
    refine wp_mono (wp_settle hw fun _ h => ⟨S, rfl, h⟩) (fun _ w₁ h₁ => ?_) fun _ _ h => h
    exact wp_settle h₁ fun _ _ => trivial
  · rw [wp_bind]
    refine wp_mono (wp_settle hw fun _ h => ⟨S, rfl, h.alike ⟨_, rfl⟩⟩) (fun _ w₁ h₁ => ?_)
      fun _ _ h => h
    exact wp_settle h₁ fun _ _ => trivial

theorem unhandled_spec {m : Message} (hw : Handles w i S m.body) :
    wp baseline.rules i (unhandled (channel S m)) (fun _ w => Handles w i S m.body)
      (fun _ w => Handles w i S m.body) w := by
  unfold unhandled
  exact wp_try (wp_settle hw fun _ _ => trivial) fun _ _ h => h

/-- `on_message`, given what its handler and `publish_next` do. -/
theorem onMessage_spec {N : Type} {m : Message} {handler : Envelope → Program (Option N)}
    {publishNext : Envelope → N → Program Unit} {R : N → World → Prop}
    (hhandler : wp baseline.rules i (handler m.body)
      (fun r w => Handles w i S m.body ∧ ∀ n, r = some n → R n w)
      (fun _ w => Handles w i S m.body) w)
    (hnext : ∀ n w, R n w → wp baseline.rules i (publishNext m.body n)
      (fun _ w => Handles w i S m.body) (fun _ w => Handles w i S m.body) w) :
    wp baseline.rules i
      (onMessage cfg.maxRetries envelopeCodec (channel S m) handler publishNext m.body)
      (fun _ w => Handles w i S m.body) (fun _ w => Handles w i S m.body) w := by
  show wp baseline.rules i (tryCatch _ _) _ _ w
  refine wp_try (F := fun _ w => Handles w i S m.body) ?_ ?_
  · rw [wp_bind]
    refine wp_mono hhandler (fun r w₁ ⟨h₁, hr⟩ => ?_) fun _ _ h => h
    cases r with
    | none => exact wp_settle h₁ fun _ _ => trivial
    | some next =>
      rw [wp_bind]
      exact wp_mono (hnext next w₁ (hr next rfl)) (fun _ _ h => wp_settle h fun _ _ => trivial)
        fun _ _ h => h
  · intro e w₁ h₁
    cases e with
    | permanent => exact wp_settle h₁ fun _ _ => trivial
    | transient => exact retry_spec h₁
    | other => exact unhandled_spec h₁

end Python

theorem Ocr.onMessage_spec {i : Nat} {cfg : Config} {m : Message} {w : World}
    (hw : Working i .ocr m.body w) :
    wp baseline.rules i (Ocr.onMessage cfg m) (fun _ w => Handles w i .ocr m.body)
      (fun _ w => Handles w i .ocr m.body) w := by
  refine Python.onMessage_spec
    (R := fun _ w => Working i .ocr m.body w ∧ w.db.Recognised m.body.documentId)
    (wp_mono (Ocr.handle_spec hw) ?_ fun _ _ h => h.handles) fun payload w h =>
      Ocr.publishNext_spec payload h.1 h.2
  rintro r w ⟨h, hr⟩
  refine ⟨h.handles, ?_⟩
  rintro n rfl
  exact ⟨h, hr rfl⟩

/-! ## The embedding worker -/

namespace Embedder
variable {i : Nat} {env : Envelope} {w : World}

theorem divided_mono (d : DocId) (w w' : World) (h : w.db.Divided d) (hg : Grows w w') :
    w'.db.Divided d := h.mono hg.db

/-- The last three statements of the `try` block, which it has twice. -/
theorem finish_spec {message : String} {payload : Details} {embedded : Nat}
    (hw : Working i .embed env w) (hd : w.db.Divided env.documentId) :
    wp baseline.rules i (do
      updateDocument env.documentId { status := .embedded, embeddedAt := some .now }
      Python.recordEvent env.documentId .embed (some .embedding) .embedded message payload
      Python.recordProcessed (processedRow env embedded)) (fun _ => Working i .embed env)
      (fun _ => Working i .embed env) w := by
  unfold updateDocument Python.recordEvent Python.recordProcessed
  refine wp_work_then (divided_mono _) hw hd (by simp) (fun _ _ h _ => legal_embedded h)
    fun _ _ w₁ h₁ hd₁ _ _ _ => ?_
  refine wp_work_then (divided_mono _) h₁ hd₁ (by simp) (fun _ _ _ _ => by trivial)
    fun _ _ w₂ h₂ hd₂ _ _ _ => ?_
  exact wp_work_call (divided_mono _) h₂ hd₂ (by simp) (fun _ h _ _ => ⟨env, h.handles, rfl, rfl⟩)
    fun _ _ _ h _ _ _ _ => h

theorem writeEmbeddings_spec (rows : List (ChunkId × Vec)) (hw : Working i .embed env w)
    (hd : w.db.Divided env.documentId) :
    wp baseline.rules i (writeEmbeddings rows)
      (fun _ w => Working i .embed env w ∧ w.db.Divided env.documentId)
      (fun _ => Working i .embed env) w := by
  unfold writeEmbeddings
  split
  · exact ⟨hw, hd⟩
  · exact wp_work_call (divided_mono _) hw hd (by simp) (fun _ _ _ _ => by trivial)
      fun _ _ _ h hd _ _ _ => ⟨h, hd⟩

theorem embed_spec (document : Document) (hw : Working i .embed env w)
    (hd : w.db.Divided env.documentId) :
    wp baseline.rules i (embed env document) (fun _ => Working i .embed env)
      (fun _ => Working i .embed env) w := by
  unfold embed
  refine wp_work_then (divided_mono _) hw hd (by simp) (fun _ _ h _ => legal_embedding h)
    fun _ _ w₁ h₁ hd₁ _ _ _ => ?_
  refine wp_work_then (divided_mono _) h₁ hd₁ (by simp) (fun _ _ _ _ => by trivial)
    fun _ _ w₂ h₂ hd₂ _ _ _ => ?_
  refine wp_work_then (divided_mono _) h₂ hd₂ (by simp) (fun _ _ _ _ => by trivial)
    fun _ chunks w₃ h₃ hd₃ _ _ _ => ?_
  split
  · exact finish_spec h₃ hd₃
  refine wp_work_then (divided_mono _) h₃ hd₃ (by simp) (fun _ _ _ _ => by trivial)
    fun _ vectors w₄ h₄ hd₄ _ _ _ => ?_
  dsimp only
  rw [wp_bind]
  exact wp_mono (writeEmbeddings_spec _ h₄ hd₄) (fun _ _ h => finish_spec h.1 h.2) fun _ _ h => h

theorem handle_spec (hw : Working i .embed env w) (hd : w.db.Divided env.documentId) :
    wp baseline.rules i (handle env) (fun _ => Working i .embed env)
      (fun _ => Working i .embed env) w :=
  Python.handle_spec (divided_mono _) hw hd (fun _ h => h) fun _ document h hd _ =>
    embed_spec document h hd

theorem onMessage_spec {cfg : Config} {m : Message} (hw : Working i .embed m.body w)
    (hd : w.db.Divided m.body.documentId) :
    wp baseline.rules i (onMessage cfg m) (fun _ w => Handles w i .embed m.body)
      (fun _ w => Handles w i .embed m.body) w := by
  refine Python.onMessage_spec (R := fun n _ => n.elim) ?_ fun n => n.elim
  rw [wp_bind]
  exact wp_mono (handle_spec hw hd) (fun _ _ h => ⟨h.handles, by simp⟩) fun _ _ h => h.handles

end Embedder
/-! ## The chunker -/

namespace Chunker
variable {i : Nat} {cfg : Config} {env : Envelope} {w : World}

theorem publishNext_spec (n : Nat) (hw : Working i .chunk env w)
    (hd : w.db.Divided env.documentId) :
    wp baseline.rules i (publishNext env n) (fun _ w => Handles w i .chunk env)
      (fun _ _ => False) w := by
  unfold publishNext
  have hJ := fun w w' (h : w.db.Divided env.documentId) (hg : Grows w w') => h.mono hg.db
  refine wp_legal (K := fun w => Working i .chunk env w ∧ w.db.Divided env.documentId)
    (lasting_working.and (.of_grows hJ)) ⟨hw, hd⟩ (fun _ _ _ => trivial)
    (fun _ _ _ hr => by cases hr) fun w₁ id w₂ h hb₁ hfresh hg hb₂ => ?_
  have hw₂ := h.1.does hfresh hg (by simp)
  have hid : (i, id) ∈ w₂.ids := by
    obtain ⟨-, rfl⟩ := hfresh
    exact List.mem_cons_self
  refine wp_legal
    (K := fun w => (Working i .chunk env w ∧ w.db.Divided env.documentId) ∧ (i, id) ∈ w.ids)
    ((lasting_working.and (.of_grows hJ)).and (.of_grows fun _ _ h hg => hg.ids _ h))
    ⟨⟨hw₂, hJ _ _ h.2 hg⟩, hid⟩ ?_ (fun _ _ h _ => h.1.1.handles)
    fun _ _ _ h _ _ hg _ => h.1.1.handles.mono hg
  intro w ⟨⟨h, hd⟩, hid⟩ _
  exact ⟨rfl, ⟨rfl, hd, hid, env, h.handles, rfl⟩, h.unpublished⟩

theorem divided_updateDocument {db : Db} {d : DocId} {u : DocumentUpdate}
    (hr : (db.updateDocument d u).Recognised d) (hchunks : db.chunksOf d ≠ [])
    (hu : u.chunkedAt.isSome) : (db.updateDocument d u).Divided d := by
  obtain ⟨row, hrow, htext⟩ := hr
  refine ⟨⟨row, hrow, htext, ?_⟩, hchunks⟩
  rw [Db.updateDocument_documents, if_pos rfl] at hrow
  obtain ⟨row₀, -, rfl⟩ := Option.map_eq_some_iff.mp hrow
  obtain ⟨at', hat'⟩ := Option.isSome_iff_exists.mp hu
  simp [DocumentUpdate.apply, hat']

theorem chunkDocument_spec (rawText : Text) (hw : Working i .chunk env w)
    (hr : w.db.Recognised env.documentId) :
    wp baseline.rules i (chunkDocument cfg env rawText) (fun _ w => Handles w i .chunk env)
      (fun _ _ => False) w := by
  unfold chunkDocument
  have hR := fun w w' (h : w.db.Recognised env.documentId) (hg : Grows w w') => h.mono hg.db
  have hD := fun w w' (h : w.db.Divided env.documentId) (hg : Grows w w') => h.mono hg.db
  dsimp only
  split
  · refine wp_work_ignore (J := fun _ => True) (fun _ _ _ _ => trivial) hw trivial (by simp)
      (fun _ _ _ _ => legal_failed) fun w₁ h₁ _ => ?_
    exact wp_work_ignore (J := fun _ => True) (fun _ _ _ _ => trivial) h₁ trivial (by simp)
      (fun _ _ _ _ => by trivial) fun _ h₂ _ => h₂.handles
  rename_i hpieces
  refine wp_work hR hw hr (by simp) (fun _ _ _ _ => ?_) (fun _ _ h _ _ => h.handles)
    fun w₀ _ w₁ h₁ hr₁ _ _ hd₁ => ?_
  · simpa [Legal, chunkRows] using hpieces
  have hchunks : w₁.db.chunksOf env.documentId ≠ [] := by
    obtain rfl := hd₁
    show (w₀.db.insertChunks _ _).chunksOf _ ≠ []
    rw [Db.chunksOf_insertChunks_self]
    simpa [chunkRows] using hpieces
  refine wp_work
    (J := fun w => w.db.Recognised env.documentId ∧ w.db.chunksOf env.documentId ≠ [])
    (fun w w' h hg => ⟨hR w w' h.1 hg, hg.db.chunks _ h.2⟩) h₁ ⟨hr₁, hchunks⟩ (by simp)
    (fun _ _ h _ => legal_chunked h.1 h.2) (fun _ _ h _ _ => h.handles)
    fun w₀ _ w₂ h₂ hr₂ _ _ hd₂ => ?_
  have hdiv : w₂.db.Divided env.documentId := by
    obtain rfl := hd₂
    exact divided_updateDocument hr₂.1 hr₂.2 rfl
  refine wp_work_ignore hD h₂ hdiv (by simp) (fun _ _ _ _ => by trivial) fun w₃ h₃ hd₃ => ?_
  refine wp_work_ignore hD h₃ hd₃ (by simp) (fun _ h _ _ => ⟨env, h.handles, rfl, rfl⟩)
    fun w₄ h₄ hd₄ => ?_
  exact publishNext_spec _ h₄ hd₄

theorem process_spec (hw : Working i .chunk env w) (hr : w.db.Recognised env.documentId) :
    wp baseline.rules i (process cfg env) (fun _ w => Handles w i .chunk env)
      (fun _ _ => False) w := by
  unfold process
  have hR := fun w w' (h : w.db.Recognised env.documentId) (hg : Grows w w') => h.mono hg.db
  split
  · exact hw.handles
  refine wp_work hR hw hr (by simp) (fun _ _ _ _ => by trivial) (fun _ _ h _ _ => h.handles)
    fun _ seen w₁ h₁ hr₁ _ _ _ => ?_
  cases seen with
  | true => exact h₁.handles
  | false =>
    refine wp_work hR h₁ hr₁ (by simp) (fun _ _ _ _ => by trivial) (fun _ _ h _ _ => h.handles)
      fun _ found w₂ h₂ hr₂ _ _ _ => ?_
    cases found with
    | none => exact h₂.handles
    | some doc =>
      dsimp only
      split
      · exact h₂.handles
      split
      · exact h₂.handles
      refine wp_work hR h₂ hr₂ (by simp) (fun _ _ h _ => legal_chunking h)
        (fun _ _ h _ _ => h.handles) fun _ _ w₃ h₃ hr₃ _ _ _ => ?_
      exact wp_work_ignore hR h₃ hr₃ (by simp) (fun _ _ _ _ => by trivial)
        fun w₄ h₄ hr₄ => chunkDocument_spec _ h₄ hr₄

/-- The last calls of `handle`, whose replies are only logged. -/
theorem wp_settle {c : Call} {rest : Program Unit} {Q : Unit → World → Prop}
    (hw : Handles w i .chunk env) (hlegal : ∀ w, Handles w i .chunk env → Legal i w c)
    (hrest : ∀ w, Handles w i .chunk env → wp baseline.rules i rest Q (fun _ _ => False) w) :
    wp baseline.rules i (Prog.perform c >>= fun _ => rest) Q (fun _ _ => False) w :=
  wp_legal lasting_handles hw (fun w h _ => hlegal w h) (fun w _ h _ => hrest w h)
    fun _ _ w' h _ _ hg _ => hrest w' (h.mono hg)

/-- The envelope `handle` works with: an attempt that is missing counts as the first. -/
theorem alike_defaultAttempt (e : Envelope) :
    e.Alike (if e.attempt = 0 then { e with attempt := 1 } else e) := by
  split
  · exact ⟨1, rfl⟩
  · exact .refl e

theorem handle_spec {d : Message} (hw : Working i .chunk d.body w)
    (hr : w.db.Recognised d.body.documentId) :
    wp baseline.rules i (handle cfg d) (fun _ _ => True) (fun _ _ => False) w := by
  unfold handle
  dsimp only
  have halike := alike_defaultAttempt d.body
  generalize (if d.body.attempt = 0 then { d.body with attempt := 1 } else d.body) = env
    at halike ⊢
  have hwork : Working i .chunk env w := ⟨hw.handles.alike halike, hw.unpublished⟩
  have hback : ∀ w, Handles w i .chunk env → Handles w i .chunk d.body := by
    obtain ⟨a, rfl⟩ := halike
    exact fun w h => h.alike ⟨d.body.attempt, rfl⟩
  have hack : ∀ w o, Handles w i .chunk env → wp baseline.rules i
      (Prog.perform (.ack o) >>= fun _ => pure ()) (fun _ _ => True) (fun _ _ => False) w :=
    fun w o h => wp_settle h (fun _ _ => trivial) fun _ _ => trivial
  rw [wp_bind]
  refine wp_mono (process_spec hwork (halike.documentId ▸ hr)) (fun r w₁ h₁ => ?_)
    fun _ _ h => h.elim
  split
  · exact hack w₁ _ h₁
  · exact hack w₁ _ h₁
  · split
    · exact wp_settle h₁ (fun w h => ⟨.chunk, rfl, hback w h⟩) fun w₂ h₂ => hack w₂ _ h₂
    · exact wp_settle h₁ (fun w h => ⟨.chunk, rfl, h.alike ⟨_, rfl⟩⟩) fun w₂ h₂ => hack w₂ _ h₂

end Chunker
end DigitalCip
