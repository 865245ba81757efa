import DigitalCip.Invariant.Orderly

/-!
# The workers keep documents orderly

Each handler is followed call by call in an exclusive run, where what it knows of
its own document is changed by nobody else.
-/

namespace DigitalCip
open Resumable

/-! ## Where the workers find a document -/

theorem edge_ocrProcessing {s : Status} (h : s.reached .chunk = false) (ht : s.terminal = false) :
    s.edge .ocrProcessing = true := by
  revert h ht
  cases s <;> decide

theorem edge_chunking {s : Status} (h : s.recognised = true) (h' : s.reached .embed = false) :
    s.edge .chunking = true := by
  revert h h'
  cases s <;> decide

theorem edge_embedding {s : Status} (h : s.divided = true) (ht : s.terminal = false) :
    s.edge .embedding = true := by
  revert h ht
  cases s <;> decide

theorem not_divided_of_not_reached {s : Status} (h : s.reached .chunk = false) :
    s.divided = false ∧ s ≠ .embedded ∧ s.reached .embed = false := by
  revert h
  cases s <;> decide

/-- No message has been sent for the document after the OCR message. -/
def Unsent (v : View) : Prop := (∀ S, ¬ v.sent S) ∧ ∀ S, ¬ v.done S

section Stages
variable {cfg : Config} {T : Truth} {w w' : World} {d : DocId} {row : Document}

/-- Until its OCR message is recorded, nothing else has happened to a document. -/
theorem Orderly.unsent (h : Orderly cfg T w d row) (hb : Base w) (hnew : ¬ (w.view d).done .ocr) :
    Unsent (w.view d) := by
  have hchunk : ¬ (w.view d).sent .chunk := fun hs => hnew (h.toChunk.recorded hs)
  have hchunk' : ¬ (w.view d).done .chunk := fun hd => hchunk (hb.sent_of_done hd (by decide))
  have hembed : ¬ (w.view d).sent .embed := fun hs => hchunk' (h.toEmbed.recorded hs)
  have hembed' : ¬ (w.view d).done .embed := fun hd => hembed (hb.sent_of_done hd (by decide))
  refine ⟨fun S => ?_, fun S => ?_⟩
  · cases S with
    | ocr => exact fun hs => hs.1 rfl
    | chunk => exact hchunk
    | embed => exact hembed
  · cases S with
    | ocr => exact hnew
    | chunk => exact hchunk'
    | embed => exact hembed'

/-- Until its chunk message is recorded, a document has not been handed to the
embedding worker. -/
theorem Orderly.undivided (h : Orderly cfg T w d row) (hb : Base w)
    (hnew : ¬ (w.view d).done .chunk) : ¬ (w.view d).sent .embed ∧ ¬ (w.view d).done .embed := by
  have hembed : ¬ (w.view d).sent .embed := fun hs => hnew (h.toEmbed.recorded hs)
  exact ⟨hembed, fun hd => hembed (hb.sent_of_done hd (by decide))⟩

/-- The OCR worker's updates, before anything has been sent. -/
theorem Orderly.update_ocr (h : Orderly cfg T w d row) (hg : Grows w w') {u : DocumentUpdate}
    (hv : w'.view d = { w.view d with row := some (u.apply row) }) (hunsent : Unsent (w.view d))
    (hu : u.status.reached .chunk = false) (htext : ∀ t, u.rawText = some t → w.Reads T row t)
    (hfailed : u.status = .failed → ∃ t, w.Reads T row t ∧ Blank t) :
    Orderly cfg T w' d (u.apply row) := by
  have hundivided := not_divided_of_not_reached hu
  refine h.update hg u hv ⟨?_, ?_, ?_⟩ ⟨?_, ?_, ?_⟩ ?_ htext hfailed ?_ ?_
  · intro ht
    rw [hu] at ht
    cases ht
  · exact fun hs => absurd hs (hunsent.1 _)
  · exact fun hs => absurd hs (hunsent.1 _)
  · intro ht
    rw [hundivided.2.2] at ht
    cases ht
  · exact fun hs => absurd hs (hunsent.1 _)
  · exact fun hs => absurd hs (hunsent.1 _)
  · exact fun hd => absurd hd (hunsent.2 _)
  · intro hd
    rw [hundivided.1] at hd
    cases hd
  · exact fun he => absurd he hundivided.2.1

/-- The chunker's updates, before the embed message has been sent. -/
theorem Orderly.update_chunk (h : Orderly cfg T w d row) (hg : Grows w w') {u : DocumentUpdate}
    (hv : w'.view d = { w.view d with row := some (u.apply row) })
    (hsent : (w.view d).sent .chunk)
    (hundivided : ¬ (w.view d).sent .embed ∧ ¬ (w.view d).done .embed)
    (hu : u.status = .chunking ∨ u.status = .chunked) (htext : u.rawText = none)
    (hdivided : u.status = .chunked → ∃ t, row.rawText = some t ∧
      (w.view d).chunks.map DocumentChunk.row =
        Chunker.chunkRows (Chunker.split t cfg.chunkSize cfg.chunkOverlap)) :
    Orderly cfg T w' d (u.apply row) := by
  have hsame : (u.apply row).rawText = row.rawText := by simp [DocumentUpdate.apply, htext]
  refine h.update hg u hv ⟨fun _ => hsent, fun _ => ?_, h.toChunk.recorded⟩ ⟨?_, ?_, ?_⟩ ?_ ?_ ?_ ?_ ?_
  · rcases hu with hu | hu <;> rw [hu] <;> rfl
  · intro ht
    rcases hu with hu | hu <;> rw [hu] at ht <;> cases ht
  · exact fun hs => absurd hs hundivided.1
  · exact fun hs => absurd hs hundivided.1
  · exact fun hd => absurd hd hundivided.2
  · intro t ht
    rw [htext] at ht
    cases ht
  · intro hf
    rcases hu with hu | hu <;> rw [hu] at hf <;> cases hf
  · intro hd
    rw [hsame]
    rcases hu with hu | hu
    · rw [hu] at hd
      cases hd
    · exact hdivided hu
  · intro he
    rcases hu with hu | hu <;> rw [hu] at he <;> cases he

/-- The embedding worker's updates. -/
theorem Orderly.update_embed (h : Orderly cfg T w d row) (hg : Grows w w') (hb : Base w)
    {u : DocumentUpdate} (hv : w'.view d = { w.view d with row := some (u.apply row) })
    (hsent : (w.view d).sent .embed) (hu : u.status = .embedding ∨ u.status = .embedded)
    (htext : u.rawText = none) (hfinished : u.status = .embedding → ¬ (w.view d).done .embed)
    (hembedded : u.status = .embedded → ∀ c ∈ (w.view d).chunks, c.embedding.isSome) :
    Orderly cfg T w' d (u.apply row) := by
  have hsame : (u.apply row).rawText = row.rawText := by simp [DocumentUpdate.apply, htext]
  have hchunk : (w.view d).sent .chunk := hb.sent_of_done (h.toEmbed.recorded hsent) (by decide)
  refine h.update hg u hv ⟨fun _ => hchunk, fun _ => ?_, h.toChunk.recorded⟩
    ⟨fun _ => hsent, fun _ => ?_, h.toEmbed.recorded⟩ ?_ ?_ ?_ ?_ hembedded
  · rcases hu with hu | hu <;> rw [hu] <;> rfl
  · rcases hu with hu | hu <;> rw [hu] <;> rfl
  · intro hd
    rcases hu with hu | hu
    · exact absurd hd (hfinished hu)
    · exact hu
  · intro t ht
    rw [htext] at ht
    cases ht
  · intro hf
    rcases hu with hu | hu <;> rw [hu] at hf <;> cases hf
  · intro _
    rw [hsame]
    exact h.divided (h.toEmbed.passed hsent)

end Stages

/-! ## The writes of a handler -/

section Writes
variable {cfg : Config} {T : Truth} {i : Nat} {S : Stage} {env : Envelope} {w : World}
  {K : World → Prop} {α : Type} {Q : α → World → Prop} {E : Exc → World → Prop}

/-- An update of the document. -/
theorem wp_update {u : DocumentUpdate} {k : (Call.updateDocument env.documentId u).Reply → Program α}
    (hw : Busy i S env K w) (hK : Owned env.documentId K)
    (horderly : ∀ w row, Busy i S env K w → Base w → w.db.documents env.documentId = some row →
      Orderly cfg T w env.documentId row → row.status.edge u.status = true ∧
        ∀ w', Grows w w' →
          w'.view env.documentId = { w.view env.documentId with row := some (u.apply row) } →
            Orderly cfg T w' env.documentId (u.apply row))
    (hfail : ∀ reason w, Busy i S env K w →
      wp (orderlyDiscipline cfg T).rules i (k (.error reason)) Q E w)
    (hnext : ∀ w w' row, Busy i S env K w → w.db.documents env.documentId = some row →
      Busy i S env (fun _ => True) w' → Grows w w' →
      w'.view env.documentId = { w.view env.documentId with row := some (u.apply row) } →
        wp (orderlyDiscipline cfg T).rules i (k (.ok ())) Q E w') :
    wp (orderlyDiscipline cfg T).rules i (Prog.perform (.updateDocument env.documentId u) >>= k) Q E
      w := by
  refine wp_own id hw hK (fun w d _ _ hc => hc.symm) (fun reason w h _ _ => hfail reason w h) ?_
  intro w v w' a row h hb hb' hg hrow ho _ _ hd
  obtain ⟨hedge, hnew⟩ := horderly w row h hb hrow ho
  have hv : w'.view env.documentId =
      { w.view env.documentId with row := some (u.apply row) } := by
    obtain rfl := hd
    exact view_updateDocument u hrow
  have hrow' : w'.db.documents env.documentId = some (u.apply row) := congrArg View.row hv
  refine ⟨fun u' he => ?_, fun row' he => ?_, ?_⟩
  · obtain ⟨-, rfl⟩ := Call.updateDocument.inj he
    exact hedge
  · obtain rfl := Option.some.inj (hrow'.symm.trans he)
    exact hnew w' hg hv
  · exact hnext w w' row h hrow ⟨h.handles.mono hg, ⟨_, hrow'⟩, trivial⟩ hg hv

/-- The insert of the dedupe row of the message. -/
theorem wp_record {row : ProcessedMessage} {k : (Call.recordProcessed row).Reply → Program α}
    (hrow : row.messageId = env.messageId ∧ row.documentId = env.documentId ∧ row.stage = S)
    (hw : Busy i S env K w) (hK : Owned env.documentId K)
    (hembedded : S = .embed → ∀ w doc, Busy i S env K w →
      w.db.documents env.documentId = some doc → doc.status = .embedded)
    (hfail : ∀ reason w, Busy i S env K w → S ≠ .chunk →
      wp (orderlyDiscipline cfg T).rules i (k (.error reason)) Q E w)
    (hnext : ∀ w w', Busy i S env K w → Busy i S env (fun _ => True) w' →
      w'.db.documents env.documentId = w.db.documents env.documentId →
      (w'.view env.documentId).done S → wp (orderlyDiscipline cfg T).rules i (k (.ok ())) Q E w') :
    wp (orderlyDiscipline cfg T).rules i (Prog.perform (.recordProcessed row) >>= k) Q E w := by
  obtain ⟨hm, hdoc, hS⟩ := hrow
  refine wp_own id hw hK (fun w d _ _ hc => hc.symm.trans hdoc)
    (fun reason w h _ hstage => hfail reason w h (hS ▸ hstage row rfl)) ?_
  intro w v w' a doc h hb hb' hg hdocs ho _ _ hd
  have hv : w'.view env.documentId =
      { w.view env.documentId with done := (w'.view env.documentId).done } := by
    obtain rfl := hd
    rfl
  have hsame : w'.db.documents env.documentId = w.db.documents env.documentId :=
    congrArg View.row hv
  refine ⟨fun u he => (nomatch he), fun row' he => ?_, ?_⟩
  · obtain rfl := Option.some.inj (hdocs.symm.trans (hsame ▸ he))
    refine ho.record hg hv (S := S) ?_ ?_ fun he => hembedded he w doc h hdocs
    · intro S' hS'
      obtain rfl := hd
      exact done_mono row S' hS'
    · intro S' hS'
      obtain rfl := hd
      exact (done_recordProcessed row S' hS').imp_right fun hr => hr.1.symm.trans hS
  · refine hnext w w' h ⟨h.handles.mono hg, ⟨doc, hsame.trans hdocs⟩, trivial⟩ hsame ?_
    refine (h.handles.mono hg).done hb' ?_
    obtain rfl := hd
    rw [← hm]
    exact Db.recordProcessed_isSome i row

/-- The message for the next stage is handed to `ingest`. -/
theorem wp_send {S' : Stage} {key : RoutingKey} {m : Message}
    {k : (Call.publish .ingest key m).Reply → Program α}
    (hnext : S = .ocr ∧ S' = .chunk ∨ S = .chunk ∧ S' = .embed)
    (hm : m.body.stage = S' ∧ m.body.documentId = env.documentId) (hw : Busy i S env K w)
    (hK : Owned env.documentId K)
    (hready : ∀ w, Busy i S env K w → (w.view env.documentId).done S ∧
      ∃ row, w.db.documents env.documentId = some row ∧ row.status = S.completed)
    (hk : ∀ r w, Busy i S env (fun _ => True) w →
      wp (orderlyDiscipline cfg T).rules i (k r) Q E w) :
    wp (orderlyDiscipline cfg T).rules i (Prog.perform (.publish .ingest key m) >>= k) Q E w := by
  refine wp_own (fun h => h rfl) hw hK (fun w d _ _ hc => hc.2.symm.trans hm.2)
    (fun reason w h _ _ => hk _ w (h.weaken fun _ => trivial)) ?_
  intro w v w' a doc h hb hb' hg hdocs ho _ _ hd
  have hv : w'.view env.documentId = { w.view env.documentId with
      sent := fun R => (w.view env.documentId).sent R ∨ R ≠ .ocr ∧ S' = R } := by
    obtain rfl := hd
    obtain ⟨rfl, hdoc⟩ := hm
    exact view_publish key m hdoc
  have hsame : w'.db.documents env.documentId = w.db.documents env.documentId :=
    congrArg View.row hv
  obtain ⟨hdone, row, hrow, hstatus⟩ := hready w h
  obtain rfl := Option.some.inj (hdocs.symm.trans hrow)
  refine ⟨fun u he => (nomatch he), fun row' he => ?_, ?_⟩
  · obtain rfl := Option.some.inj (hdocs.symm.trans (hsame ▸ he))
    exact ho.send hg hnext hv hstatus hdone
  · exact hk _ w' ⟨h.handles.mono hg, ⟨doc, hsame.trans hdocs⟩, trivial⟩

end Writes

theorem not_concerns_settling {S : Stage} {m : Message} {c : Call} (h : Settling S m c) :
    ∀ w d, ¬ c.concerns w d := by
  intro w d
  cases c with
  | publish exchange key m' =>
    cases exchange with
    | ingest => exact h.elim
    | retry | dlx => exact id
  | ack | nack => exact id
  | _ => exact h.elim

/-- The message is not recorded yet, and the document's row is `row`. -/
def Fresh (S : Stage) (env : Envelope) (row : Document) (w : World) : Prop :=
  ¬ (w.view env.documentId).done S ∧ (w.view env.documentId).row = some row

theorem owned_fresh {S : Stage} {env : Envelope} {row : Document} :
    Owned env.documentId (Fresh S env row) :=
  Owned.view fun v => ¬ v.done S ∧ v.row = some row

/-! ## The OCR worker -/

namespace Python
variable {cfg : Config} {T : Truth} {i : Nat} {S : Stage} {env : Envelope} {w : World} {α : Type}

/-- An exception that is no `PermanentError` only adds an event. -/
theorem onError_orderly {Q : α → World → Prop} {e : Exc} (he : ∀ reason, e ≠ .permanent reason)
    (hw : Busy i S env (fun _ => True) w) :
    wp (orderlyDiscipline cfg T).rules i (onError S env e) Q
      (fun _ => Busy i S env fun _ => True) w := by
  unfold onError recordEvent
  cases e with
  | permanent reason => exact absurd rfl (he reason)
  | transient reason | other reason =>
    exact wp_look_call id hw .true (fun _ _ => id) (fun _ _ h => h)
      fun _ _ w₁ _ h₁ _ _ _ _ _ => h₁

/-- **What comes before the `try` block**; `K` is what a handler knows once it has found no
dedupe row. -/
theorem handle_orderly {skipped : α} {work : Document → Program α} {K : World → Prop}
    {Q : α → World → Prop} {E : Exc → World → Prop} (hK : Owned env.documentId K)
    (hnew : ∀ w, Base w → Handles w i S env → w.db.alreadyProcessed env.messageId = false → K w)
    (hskipped : ∀ w, Busy i S env (fun _ => True) w → Q skipped w)
    (hraised : ∀ e w, Busy i S env (fun _ => True) w → E e w)
    (hwork : ∀ w document, Base w → Busy i S env K w →
      w.db.documents env.documentId = some document → Orderly cfg T w env.documentId document →
        document.status.terminal = false →
          wp (orderlyDiscipline cfg T).rules i (tryCatch (work document) (onError S env)) Q E w)
    (hw : Busy i S env (fun _ => True) w) :
    wp (orderlyDiscipline cfg T).rules i (handle S skipped work env) Q E w := by
  unfold handle alreadyProcessed fetchDocument
  refine wp_look_call id hw .true (fun _ _ => id) (fun _ _ h => hraised _ _ h)
    fun _ seen w₁ _ h₁ hb₁ _ _ _ hd => ?_
  obtain ⟨hseen, rfl⟩ := hd
  cases seen with
  | true => exact hskipped _ h₁
  | false =>
    simp only [Bool.false_eq_true, if_false]
    refine wp_look_call id (K := K) (h₁.weaken fun _ => hnew _ hb₁ h₁.handles hseen.symm) hK
      (fun _ _ => id) (fun _ _ h => hraised _ _ (h.weaken fun _ => trivial))
      fun _ found w₂ _ h₂ hb₂ ho _ _ hd => ?_
    obtain ⟨hfound, rfl⟩ := hd
    cases found with
    | none => exact hraised _ _ (h₂.weaken fun _ => trivial)
    | some document =>
      dsimp only
      cases hterminal : document.status.terminal with
      | true => exact hskipped _ (h₂.weaken fun _ => trivial)
      | false => exact hwork _ document hb₂ h₂ hfound.symm (ho document hfound.symm) hterminal

end Python

namespace Ocr
variable {cfg : Config} {T : Truth} {i : Nat} {env : Envelope} {w : World}

/-- The document is being recognised, and its text is blank. -/
def Failing (T : Truth) (env : Envelope) (w : World) : Prop :=
  ∃ row, Fresh .ocr env row w ∧ row.status = .ocrProcessing ∧ ∃ t, w.Reads T row t ∧ Blank t

theorem owned_failing : Owned env.documentId (Failing T env) := by
  rintro w w' ⟨row, hfresh, hstatus, t, ht, hb⟩ hg hv
  exact ⟨row, owned_fresh w w' hfresh hg hv, hstatus, t, ht.mono hg, hb⟩

/-- The OCR message is recorded, and the document is `ocr_completed`. -/
def Completed (env : Envelope) (w : World) : Prop :=
  (w.view env.documentId).done .ocr ∧
    ∃ row, w.db.documents env.documentId = some row ∧ row.status = .ocrCompleted

theorem owned_completed : Owned env.documentId (Completed env) :=
  Owned.view fun v => v.done .ocr ∧ ∃ row, v.row = some row ∧ row.status = .ocrCompleted

/-- An exception is `PermanentError` only for a blank text. -/
def Raised (T : Truth) (env : Envelope) (e : Exc) (w : World) : Prop :=
  ∀ reason, e = .permanent reason → Failing T env w

theorem busy_raised {K : World → Prop} {reason : String} (h : Busy i .ocr env K w) :
    Busy i .ocr env (Raised T env (.other reason)) w := h.weaken fun _ _ he => (nomatch he)

theorem recognise_orderly {document : Document} {objectKey : ObjectKey}
    (hkey : objectKey = document.objectKey) (hedge : document.status.edge .ocrProcessing = true)
    (hw : Busy i .ocr env (Fresh .ocr env document) w) :
    wp (orderlyDiscipline cfg T).rules i (recognise env document objectKey)
      (fun r => Busy i .ocr env fun w => r.isSome → Completed env w)
      (fun e => Busy i .ocr env (Raised T env e)) w := by
  unfold recognise updateDocumentStatus Python.recordEvent Python.recordProcessed
  -- the document goes to `ocr_processing`
  rw [wp_bind]
  refine wp_update hw owned_fresh ?_ (fun _ _ h => busy_raised h) ?_
  · intro w row h hb hrow ho
    obtain ⟨hnew, hrow'⟩ := h.knows
    obtain rfl := Option.some.inj (hrow.symm.trans hrow')
    exact ⟨hedge, fun w' hg hv => ho.update_ocr hg hv (ho.unsent hb hnew) rfl
      (fun t ht => by cases ht) fun hs => by cases hs⟩
  intro w₀ w₁ row h hrow hbusy hg hv
  obtain ⟨hnew, hrow'⟩ := h.knows
  obtain rfl := Option.some.inj (hrow.symm.trans hrow')
  generalize hrow₁ : DocumentUpdate.apply { status := .ocrProcessing } row = row₁ at hv
  have h₁ : Busy i .ocr env (Fresh .ocr env row₁) w₁ := hbusy.weaken fun _ => by
    rw [Fresh, hv]
    exact ⟨hnew, rfl⟩
  have hstatus₁ : row₁.status = .ocrProcessing := by rw [← hrow₁]; rfl
  have hkey₁ : row₁.objectKey = row.objectKey := by rw [← hrow₁]; rfl
  have htype₁ : row₁.contentType = row.contentType := by rw [← hrow₁]; rfl
  clear hv hbusy h hw
  refine wp_look_call id h₁ owned_fresh (fun _ _ => id) (fun _ _ h => busy_raised h)
    fun _ _ w₂ _ h₂ _ _ _ _ _ => ?_
  -- the object is the one of the row, and it is not empty
  refine wp_look_call id h₂ owned_fresh (fun _ _ => id) (fun _ _ h => busy_raised h)
    fun _ blob w₃ _ h₃ hb₃ _ _ _ hd => ?_
  have hblob : w₃.objects row₁.objectKey = some blob := by
    obtain ⟨hobj, rfl⟩ := hd
    rw [hkey₁, ← hkey]
    exact hobj
  split
  · rename_i hempty
    obtain ⟨blob', hblob', hne⟩ := hb₃.files.stored env.documentId row₁ h₃.knows.2
    obtain rfl := Option.some.inj (hblob.symm.trans hblob')
    exact absurd (List.isEmpty_iff.mp hempty) hne
  have howned : Owned env.documentId
      fun w => Fresh .ocr env row₁ w ∧ w.objects row₁.objectKey = some blob :=
    fun w w' h hg hv => ⟨owned_fresh w w' h.1 hg hv, hg.objects _ _ h.2⟩
  refine wp_look_call id (K := fun w => Fresh .ocr env row₁ w ∧ w.objects row₁.objectKey = some blob)
    (h₃.weaken fun h => ⟨h, hblob⟩) howned (fun _ _ => id) (fun _ _ h => busy_raised h)
    fun _ text w₄ a h₄ _ _ hadmits hreply _ => ?_
  obtain ⟨text, pages⟩ := text
  have hreads : T.reads blob row₁.contentType text := by
    cases a with
    | text t p =>
      obtain ⟨he, -⟩ := Prod.mk.inj (Option.some.inj hreply)
      obtain ⟨rfl, -⟩ := Prod.mk.inj he
      rw [htype₁]
      exact hadmits
    | _ => simp [reply] at hreply
  clear hadmits hreply
  dsimp only
  split
  · rename_i hblank
    refine h₄.weaken fun h _ _ => ?_
    exact ⟨row₁, h.1, hstatus₁, text, ⟨blob, h.2, hreads⟩, hblank⟩
  -- the document goes to `ocr_completed`, with its text
  rw [wp_bind]
  refine wp_update h₄ howned ?_ (fun _ _ h => busy_raised h) ?_
  · intro w doc h hb hdoc ho
    obtain ⟨⟨hnew, hrow'⟩, hobj⟩ := h.knows
    obtain rfl := Option.some.inj (hdoc.symm.trans hrow')
    refine ⟨by rw [hstatus₁]; rfl, fun w' hg hv => ?_⟩
    refine ho.update_ocr hg hv (ho.unsent hb hnew) rfl (fun t ht => ?_) fun hs => by cases hs
    obtain rfl := Option.some.inj ht
    exact ⟨blob, hobj, hreads⟩
  intro w₄' w₅ doc _ _ hbusy hg hv
  have h₅ : Busy i .ocr env
      (fun w => ∃ row, w.db.documents env.documentId = some row ∧ row.status = .ocrCompleted) w₅ :=
    hbusy.weaken fun _ => ⟨_, congrArg View.row hv, rfl⟩
  have hcompleted : Owned env.documentId
      fun w => ∃ row, w.db.documents env.documentId = some row ∧ row.status = .ocrCompleted :=
    Owned.view fun v => ∃ row, v.row = some row ∧ row.status = .ocrCompleted
  refine wp_look_call id h₅ hcompleted (fun _ _ => id) (fun _ _ h => busy_raised h)
    fun _ _ w₆ _ h₆ _ _ _ _ _ => ?_
  rw [wp_bind]
  refine wp_record ⟨rfl, rfl, rfl⟩ h₆ hcompleted (fun he => by cases he)
    (fun _ _ h _ => busy_raised h) fun w w₇ h h₇ hsame hdone => ?_
  obtain ⟨row', hrow', hs⟩ := h.knows
  exact h₇.weaken fun _ _ => ⟨hdone, row', hsame.trans hrow', hs⟩

theorem onError_orderly (e : Exc) (hw : Busy i .ocr env (Raised T env e) w) :
    wp (orderlyDiscipline cfg T).rules i (onError env e) (fun _ _ => False)
      (fun _ => Busy i .ocr env fun _ => True) w := by
  cases e with
  | permanent reason =>
    unfold onError Python.onError Python.recordEvent
    have h : Busy i .ocr env (Failing T env) w := hw.weaken fun h => h reason rfl
    rw [wp_bind]
    refine wp_update h owned_failing ?_ (fun _ _ h => h.weaken fun _ => trivial) ?_
    · intro w row h hb hrow ho
      obtain ⟨row', ⟨hnew, hrow'⟩, hs, hblank⟩ := h.knows
      obtain rfl := Option.some.inj (hrow.symm.trans hrow')
      exact ⟨by rw [hs]; rfl, fun w' hg hv => ho.update_ocr hg hv (ho.unsent hb hnew) rfl
        (fun t ht => nomatch ht) fun _ => hblank⟩
    · intro _ w₁ _ _ _ h₁ _ _
      exact wp_look_call id h₁ .true (fun _ _ => id) (fun _ _ h => h) fun _ _ w₂ _ h₂ _ _ _ _ _ => h₂
  | transient reason | other reason =>
    exact Python.onError_orderly (by simp) (hw.weaken fun _ => trivial)

theorem handle_orderly (hw : Busy i .ocr env (fun _ => True) w) :
    wp (orderlyDiscipline cfg T).rules i (handle env)
      (fun r => Busy i .ocr env fun w => r.isSome → Completed env w)
      (fun _ => Busy i .ocr env fun _ => True) w := by
  refine Python.handle_orderly (Owned.view fun v => ¬ v.done .ocr) (fun w hb h hns hdone => ?_)
    (fun _ h => h.weaken fun _ h => nomatch h) (fun _ _ h => h)
    (fun w document hb h hrow ho hterminal => ?_) hw
  · have hm := hb.processed_of_done h (by decide) hdone
    rw [show w.db.alreadyProcessed env.messageId = true from hm] at hns
    cases hns
  have hunsent := ho.unsent hb h.knows
  have hreached : document.status.reached .chunk = false := by
    by_contra h
    exact hunsent.1 _ (ho.toChunk.taken (by simpa using h))
  have hkey : env.payload.objectKey.getD document.objectKey = document.objectKey := by
    obtain ⟨hready, hS⟩ := h.handles.ready hb
    unfold Db.Ready at hready
    rw [hS] at hready
    obtain ⟨row, hrow', hkey⟩ := hready
    obtain rfl := Option.some.inj (hrow.symm.trans hrow')
    rw [hkey]
    rfl
  refine wp_try (recognise_orderly hkey (edge_ocrProcessing hreached hterminal)
    (h.weaken fun h => ⟨h, hrow⟩)) fun e w₁ h₁ => ?_
  exact wp_mono (onError_orderly e h₁) (fun _ _ h => h.elim) fun _ _ h => h

theorem publishNext_orderly (payload : Payload) (hw : Busy i .ocr env (Completed env) w) :
    wp (orderlyDiscipline cfg T).rules i (publishNext env payload)
      (fun _ => Busy i .ocr env fun _ => True) (fun _ => Busy i .ocr env fun _ => True) w := by
  have hm : (nextMessage env payload).body.stage = .chunk ∧
      (nextMessage env payload).body.documentId = env.documentId := ⟨rfl, rfl⟩
  unfold publishNext
  refine wp_send (Or.inl ⟨rfl, rfl⟩) hm hw owned_completed (fun _ h => h.knows) ?_
  intro r w₁ h₁
  cases r <;> exact h₁

end Ocr

/-! ## The chunker -/

namespace Chunker
variable {cfg : Config} {T : Truth} {i : Nat} {env : Envelope} {w : World}

/-- The chunk message is recorded, and the document is `chunked`. -/
def Completed (env : Envelope) (w : World) : Prop :=
  (w.view env.documentId).done .chunk ∧
    ∃ row, w.db.documents env.documentId = some row ∧ row.status = .chunked

theorem owned_completed : Owned env.documentId (Completed env) :=
  Owned.view fun v => v.done .chunk ∧ ∃ row, v.row = some row ∧ row.status = .chunked

/-- The chunks of the document are stored. -/
def Stored (env : Envelope) (row : Document) (rows : List ChunkRow) (w : World) : Prop :=
  Fresh .chunk env row w ∧ (w.view env.documentId).chunks.map DocumentChunk.row = rows

theorem owned_stored {row : Document} {rows : List ChunkRow} :
    Owned env.documentId (Stored env row rows) :=
  Owned.view fun v => (¬ v.done .chunk ∧ v.row = some row) ∧ v.chunks.map DocumentChunk.row = rows

theorem publishNext_orderly (n : Nat) (hw : Busy i .chunk env (Completed env) w) :
    wp (orderlyDiscipline cfg T).rules i (publishNext env n)
      (fun _ => Busy i .chunk env fun _ => True) (fun _ _ => False) w := by
  unfold publishNext
  refine wp_look id hw owned_completed (fun _ _ => id) (fun _ _ h _ => h.weaken fun _ => trivial)
    fun _ id w₁ _ h₁ _ _ _ _ _ => ?_
  have hm : (nextMessage env id n).body.stage = .embed ∧
      (nextMessage env id n).body.documentId = env.documentId := ⟨rfl, rfl⟩
  exact wp_send (Or.inr ⟨rfl, rfl⟩) hm h₁ owned_completed (fun _ h => h.knows) fun _ _ h => h

theorem map_row_newChunk (d : DocId) (n : ChunkId) (rows : List ChunkRow) :
    (rows.mapIdx fun k row => Db.newChunk d n row k).map DocumentChunk.row = rows := by
  refine List.ext_getElem (by simp) fun k h₁ h₂ => ?_
  simp [Db.newChunk, DocumentChunk.row]

theorem chunkDocument_orderly {row : Document} {t : Text} (hstatus : row.status = .chunking)
    (ht : row.rawText = some t) (htext : ∃ c ∈ t, goSpace c = false)
    (hw : Busy i .chunk env (Fresh .chunk env row) w) :
    wp (orderlyDiscipline cfg T).rules i (chunkDocument cfg env t)
      (fun _ => Busy i .chunk env fun _ => True) (fun _ _ => False) w := by
  unfold chunkDocument
  dsimp only
  split
  · -- a text that the OCR worker has stored is not blank
    rename_i hempty
    exact absurd (List.isEmpty_iff.mp hempty) (split_ne_nil htext _ _)
  generalize hrows : chunkRows (split t cfg.chunkSize cfg.chunkOverlap) = rows
  -- the chunks are stored
  refine wp_own id hw owned_fresh (fun w d _ _ hc => hc.symm) (fun _ _ h _ _ => h.weaken fun _ => trivial)
    fun w v w₁ a doc h hb hb₁ hg hdoc ho _ _ hd => ?_
  obtain rfl := Option.some.inj (hdoc.symm.trans h.knows.2)
  have hv : w₁.view env.documentId = { w.view env.documentId with
      chunks := rows.mapIdx fun n row => Db.newChunk env.documentId w.db.nextChunkId row n } := by
    obtain rfl := hd
    exact view_insertChunks rows
  have hdoc₁ : w₁.db.documents env.documentId = some doc := (congrArg View.row hv).trans hdoc
  refine ⟨fun u he => (nomatch he), fun row' hrow' => ?_, ?_⟩
  · obtain rfl := Option.some.inj (hdoc₁.symm.trans hrow')
    refine ho.insert hg hv (by rw [hstatus]; rfl) fun c hc => ?_
    obtain ⟨n, hn, rfl⟩ := List.mem_mapIdx.mp hc
    rfl
  have h₁ : Busy i .chunk env (Stored env doc rows) w₁ := by
    refine ⟨h.handles.mono hg, ⟨doc, hdoc₁⟩, ?_⟩
    unfold Stored Fresh
    rw [hv]
    exact ⟨h.knows, map_row_newChunk _ _ _⟩
  clear hv hd ho h hb hdoc
  -- the document goes to `chunked`
  refine wp_update h₁ owned_stored ?_ (fun _ _ h => h.weaken fun _ => trivial) ?_
  · intro w row h hb hrow ho
    obtain ⟨⟨hnew, hrow'⟩, hchunks⟩ := h.knows
    obtain rfl := Option.some.inj (hrow.symm.trans hrow')
    refine ⟨by rw [hstatus]; rfl, fun w' hg hv => ?_⟩
    refine ho.update_chunk hg hv (h.handles.sent (by decide)) (ho.undivided hb hnew) (Or.inr rfl)
      rfl fun _ => ⟨t, ht, ?_⟩
    rw [hchunks, hrows]
  intro _ w₂ _ _ _ hbusy _ hv
  have hchunked : Owned env.documentId
      fun w => ∃ row, w.db.documents env.documentId = some row ∧ row.status = .chunked :=
    Owned.view fun v => ∃ row, v.row = some row ∧ row.status = .chunked
  have h₂ : Busy i .chunk env
      (fun w => ∃ row, w.db.documents env.documentId = some row ∧ row.status = .chunked) w₂ :=
    hbusy.weaken fun _ => ⟨_, congrArg View.row hv, rfl⟩
  have hrest : ∀ w, Busy i .chunk env
      (fun w => ∃ row, w.db.documents env.documentId = some row ∧ row.status = .chunked) w →
      wp (orderlyDiscipline cfg T).rules i
        (Prog.perform (.recordProcessed
          { messageId := env.messageId, idempotencyKey := env.idempotencyKey, stage := .chunk,
            documentId := env.documentId, consumer := "chunker-worker",
            result := [("chunks", .num rows.length)] }) >>= fun _ => publishNext env rows.length)
        (fun _ => Busy i .chunk env fun _ => True) (fun _ _ => False) w := by
    intro w hw
    refine wp_record ⟨rfl, rfl, rfl⟩ hw hchunked (fun he => nomatch he)
      (fun _ _ _ hne => absurd rfl hne) fun w w' h h' hsame hdone => ?_
    refine publishNext_orderly _ (h'.weaken fun _ => ⟨hdone, ?_⟩)
    obtain ⟨row', hrow', hs⟩ := h.knows
    exact ⟨row', hsame.trans hrow', hs⟩
  exact wp_look id h₂ hchunked (fun _ _ => id) (fun _ w h _ => hrest w h)
    fun _ _ w₃ _ h₃ _ _ _ _ _ => hrest w₃ h₃

theorem process_orderly (hw : Busy i .chunk env (fun _ => True) w) :
    wp (orderlyDiscipline cfg T).rules i (process cfg env)
      (fun _ => Busy i .chunk env fun _ => True) (fun _ _ => False) w := by
  unfold process
  split
  · exact hw
  refine wp_look id hw .true (fun _ _ => id) (fun _ _ h _ => h)
    fun _ seen w₁ _ h₁ hb₁ _ _ _ hd => ?_
  obtain ⟨hseen, rfl⟩ := hd
  cases seen with
  | true => exact h₁
  | false =>
  have hnew : ¬ (w₁.view env.documentId).done .chunk := by
    intro hdone
    have hm := hb₁.processed_of_done h₁.handles (by decide) hdone
    exact Bool.noConfusion (hseen.trans hm)
  refine wp_look id (K := fun w => ¬ (w.view env.documentId).done .chunk) (h₁.weaken fun _ => hnew)
    (Owned.view fun v => ¬ v.done .chunk) (fun _ _ => id) (fun _ _ h _ => h.weaken fun _ => trivial)
    fun _ found w₂ _ h₂ hb₂ ho _ _ hd => ?_
  obtain ⟨hfound, rfl⟩ := hd
  cases found with
  | none => exact h₂.weaken fun _ => trivial
  | some doc =>
  dsimp only
  split
  · exact h₂.weaken fun _ => trivial
  split
  · exact h₂.weaken fun _ => trivial
  have ho := ho doc hfound.symm
  have hsent := h₂.handles.sent (by decide)
  have hrecognised : doc.status.recognised = true := ho.toChunk.passed hsent
  have hreached : doc.status.reached .embed = false := by
    by_contra h
    exact (ho.undivided hb₂ h₂.knows).1 (ho.toEmbed.taken (by simpa using h))
  obtain ⟨⟨t, ht, hblank⟩, -⟩ := (hb₂.db.rows _ doc hfound.symm).recognised hrecognised
  -- the document goes to `chunking`
  clear ho
  refine wp_update (K := Fresh .chunk env doc) (h₂.weaken fun h => ⟨h, hfound.symm⟩) owned_fresh ?_
    (fun _ _ h => h.weaken fun _ => trivial) ?_
  · intro w row h hb hrow ho
    obtain ⟨hnew, hrow'⟩ := h.knows
    obtain rfl := Option.some.inj (hrow.symm.trans hrow')
    exact ⟨edge_chunking hrecognised hreached, fun w' hg hv =>
      ho.update_chunk hg hv (h.handles.sent (by decide)) (ho.undivided hb hnew) (Or.inl rfl) rfl
        fun he => nomatch he⟩
  intro w₂' w₃ row h hrow hbusy _ hv
  obtain ⟨hnew, hrow'⟩ := h.knows
  obtain rfl := Option.some.inj (hrow.symm.trans hrow')
  have hget : row.rawText.getD [] = t := by rw [ht]; rfl
  rw [hget]
  generalize hrow₃ : DocumentUpdate.apply { status := .chunking } row = row₃ at hv
  have h₃ : Busy i .chunk env (Fresh .chunk env row₃) w₃ := hbusy.weaken fun _ => by
    rw [Fresh, hv]
    exact ⟨hnew, rfl⟩
  have hstatus₃ : row₃.status = .chunking := by rw [← hrow₃]; rfl
  have ht₃ : row₃.rawText = some t := by rw [← hrow₃]; exact ht
  have htext := exists_goText_of_not_blank hblank
  exact wp_look id h₃ owned_fresh (fun _ _ => id)
    (fun _ _ h _ => chunkDocument_orderly hstatus₃ ht₃ htext h)
    fun _ _ _ _ h _ _ _ _ _ => chunkDocument_orderly hstatus₃ ht₃ htext h

theorem handle_orderly {m : Message} (hw : Busy i .chunk m.body (fun _ => True) w) :
    wp (orderlyDiscipline cfg T).rules i (handle cfg m) (fun _ _ => True) (fun _ _ => False) w := by
  unfold handle
  dsimp only
  have halike := alike_defaultAttempt m.body
  generalize (if m.body.attempt = 0 then { m.body with attempt := 1 } else m.body) = env
    at halike ⊢
  have hbusy : Busy i .chunk env (fun _ => True) w :=
    ⟨hw.handles.alike halike, halike.documentId ▸ hw.found, trivial⟩
  have hkeeps := @keeps_busy cfg T i .chunk env
  have hack : ∀ w o, Busy i .chunk env (fun _ => True) w → wp (orderlyDiscipline cfg T).rules i
      (Prog.perform (.ack o) >>= fun _ => pure ()) (fun _ _ => True) (fun _ _ => False) w :=
    fun w o h => hkeeps.perform_then (fun _ _ => id) h fun _ _ _ => trivial
  rw [wp_bind]
  refine wp_mono (process_orderly hbusy) (fun r w₁ h₁ => ?_) fun _ _ h => h.elim
  split
  · exact hack w₁ _ h₁
  · exact hack w₁ _ h₁
  · split
    · exact hkeeps.perform_then (fun _ _ => id) h₁ fun _ w₂ h₂ => hack w₂ _ h₂
    · exact hkeeps.perform_then (fun _ _ => id) h₁ fun _ w₂ h₂ => hack w₂ _ h₂

end Chunker

/-! ## The embedding worker -/

namespace Embedder
variable {cfg : Config} {T : Truth} {i : Nat} {env : Envelope} {w : World} {row : Document}

/-- The chunks of the document that have no embedding are among those fetched. -/
structure Fetched (env : Envelope) (row : Document) (chunks : List PendingChunk) (w : World) :
    Prop where
  fresh : Fresh .embed env row w
  covered : Covered env.documentId (chunks.map PendingChunk.id) w.db
  found : ∀ p ∈ chunks, ∃ c ∈ w.db.chunksOf env.documentId, c.id = p.id ∧ c.content = p.content

theorem owned_fetched {chunks : List PendingChunk} :
    Owned env.documentId (Fetched env row chunks) := by
  intro w w' h hg hv
  have hchunks : w'.db.chunksOf env.documentId = w.db.chunksOf env.documentId :=
    congrArg View.chunks hv
  refine ⟨owned_fresh w w' h.fresh hg hv, ?_, ?_⟩
  · unfold Covered
    rw [hchunks]
    exact h.covered
  · rw [hchunks]
    exact h.found

/-- Every chunk of the document has its embedding. -/
def Filled (env : Envelope) (row : Document) (w : World) : Prop :=
  Fresh .embed env row w ∧ w.db.AllEmbedded env.documentId

theorem owned_filled : Owned env.documentId (Filled env row) :=
  Owned.view fun v => (¬ v.done .embed ∧ v.row = some row) ∧ ∀ c ∈ v.chunks, c.embedding.isSome

/-- The exception is not `PermanentError`. -/
def Raised (e : Exc) (_ : World) : Prop := ∀ reason, e ≠ .permanent reason

theorem busy_raised {K : World → Prop} {reason : String} (h : Busy i .embed env K w) :
    Busy i .embed env (Raised (.other reason)) w := h.weaken fun _ _ he => (nomatch he)

/-- The write of the status `embedded`, the event and the dedupe row. -/
theorem finish_orderly {u : DocumentUpdate} (hu : u.status = .embedded) (htext : u.rawText = none)
    {e : ProcessingEvent} {n : Nat} (hstatus : row.status = .embedding)
    (hw : Busy i .embed env (Filled env row) w) :
    wp (orderlyDiscipline cfg T).rules i
      (do
        call (.updateDocument env.documentId u)
        call (.recordEvent e)
        call (.recordProcessed (processedRow env n)))
      (fun _ => Busy i .embed env fun _ => True) (fun e => Busy i .embed env (Raised e)) w := by
  rw [wp_bind]
  refine wp_update hw owned_filled ?_ (fun _ _ h => busy_raised h) ?_
  · intro w doc h hb hdoc ho
    obtain ⟨⟨hnew, hrow⟩, hall⟩ := h.knows
    obtain rfl := Option.some.inj (hdoc.symm.trans hrow)
    refine ⟨by rw [hstatus, hu]; rfl, fun w' hg hv => ?_⟩
    exact ho.update_embed hg hb hv (h.handles.sent (by decide)) (Or.inr hu) htext
      (fun _ => hnew) fun _ => hall
  intro _ w₁ doc _ _ hbusy _ hv
  have hembedded : Owned env.documentId
      fun w => ∃ row, w.db.documents env.documentId = some row ∧ row.status = .embedded :=
    Owned.view fun v => ∃ row, v.row = some row ∧ row.status = .embedded
  have h₁ : Busy i .embed env
      (fun w => ∃ row, w.db.documents env.documentId = some row ∧ row.status = .embedded) w₁ :=
    hbusy.weaken fun _ => ⟨_, congrArg View.row hv, hu⟩
  refine wp_look_call id h₁ hembedded (fun _ _ => id) (fun _ _ h => busy_raised h)
    fun _ _ w₂ _ h₂ _ _ _ _ _ => ?_
  have hrow : (processedRow env n).messageId = env.messageId ∧
      (processedRow env n).documentId = env.documentId ∧ (processedRow env n).stage = .embed :=
    ⟨rfl, rfl, rfl⟩
  refine wp_record hrow h₂ hembedded ?_ (fun _ _ h _ => busy_raised h) fun _ _ _ h _ _ => h
  intro _ w doc h hdoc
  obtain ⟨row', hrow', hs⟩ := h.knows
  obtain rfl := Option.some.inj (hdoc.symm.trans hrow')
  exact hs

/-- The vector of a chunk in a batch is one of its content. -/
theorem models_of_mem_zip {db : Db} {d : DocId} {chunks : List PendingChunk} {vectors : List Vec}
    (hids : (db.chunks.map DocumentChunk.id).Nodup)
    (hfound : ∀ p ∈ chunks, ∃ c ∈ db.chunksOf d, c.id = p.id ∧ c.content = p.content)
    (hmodels : List.Forall₂ T.models (chunks.map PendingChunk.content) vectors)
    {c : DocumentChunk} (hc : c ∈ db.chunksOf d) {v : Vec}
    (hv : (c.id, v) ∈ (chunks.map PendingChunk.id).zip vectors) : T.models c.content v := by
  obtain ⟨n, hn, he⟩ := List.mem_iff_getElem.mp hv
  have hlength : n < chunks.length ∧ n < vectors.length := by simpa using hn
  have hp : chunks[n] ∈ chunks := List.getElem_mem hlength.1
  obtain ⟨c', hc', hid, hcontent⟩ := hfound _ hp
  have hpair : (chunks[n].id, vectors[n]) = (c.id, v) := by simpa using he
  obtain ⟨hid', rfl⟩ := Prod.mk.inj hpair
  -- ids are unique, so the fetched chunk is the one that gets the vector
  obtain rfl : c' = c := List.inj_on_of_nodup_map hids (Db.mem_chunksOf.mp hc').1
    (Db.mem_chunksOf.mp hc).1 (hid.trans hid')
  have hat := hmodels.get (by simpa using hlength.1) hlength.2
  rw [hcontent]
  simpa using hat

theorem writeEmbeddings_orderly {chunks : List PendingChunk} {vectors : List Vec}
    (hmodels : List.Forall₂ T.models (chunks.map PendingChunk.content) vectors)
    {rest : Unit → Program Unit}
    (hw : Busy i .embed env (Fetched env row chunks) w)
    (hrest : ∀ w, Busy i .embed env (Filled env row) w → wp (orderlyDiscipline cfg T).rules i
      (rest ()) (fun _ => Busy i .embed env fun _ => True) (fun e => Busy i .embed env (Raised e)) w) :
    wp (orderlyDiscipline cfg T).rules i
      (writeEmbeddings ((chunks.map PendingChunk.id).zip vectors) >>= rest)
      (fun _ => Busy i .embed env fun _ => True) (fun e => Busy i .embed env (Raised e)) w := by
  have hrows : ((chunks.map PendingChunk.id).zip vectors).map Prod.fst =
      chunks.map PendingChunk.id := by
    refine List.map_fst_zip ?_
    have hlength := hmodels.length_eq
    rw [List.length_map] at hlength ⊢
    exact hlength.le
  unfold writeEmbeddings
  split
  · rename_i hempty
    rw [List.isEmpty_iff.mp hempty] at hrows
    refine hrest w (hw.weaken fun h => ⟨h.fresh, ?_⟩)
    have hcovered := h.covered
    rw [← hrows] at hcovered
    exact hcovered.allEmbedded
  rw [wp_bind]
  have hfind : ∀ w, Fetched env row chunks w → ∀ id v,
      (id, v) ∈ (chunks.map PendingChunk.id).zip vectors →
        ∃ c ∈ w.db.chunksOf env.documentId, c.id = id := by
    intro w h id v hmem
    obtain ⟨p, hp, rfl⟩ := List.mem_map.mp (List.of_mem_zip hmem).1
    obtain ⟨c, hc, hid, -⟩ := h.found p hp
    exact ⟨c, hc, hid⟩
  refine wp_own id hw owned_fetched ?_ (fun _ _ h _ _ => busy_raised h)
    fun w v w₁ a doc h hb hb₁ hg hdoc ho _ _ hd => ?_
  · rintro w d h hb ⟨⟨id, v⟩, hmem, c, hc, hid, rfl⟩
    obtain ⟨c', hc', hid'⟩ := hfind w h.knows id v hmem
    obtain ⟨hc', hdoc⟩ := Db.mem_chunksOf.mp hc'
    obtain rfl : c = c' := List.inj_on_of_nodup_map hb.db.chunkIds hc hc' (hid.trans hid'.symm)
    exact hdoc
  have hv : w₁.view env.documentId = { w.view env.documentId with
      chunks := (w.view env.documentId).chunks.map
        (embedRow ((chunks.map PendingChunk.id).zip vectors)) } := by
    obtain rfl := hd
    exact view_writeEmbeddings _
  have hdoc₁ : w₁.db.documents env.documentId = some doc := (congrArg View.row hv).trans hdoc
  refine ⟨fun u he => (nomatch he), fun row' hrow' => ?_, hrest w₁ ⟨h.handles.mono hg, ⟨doc, hdoc₁⟩, ?_, ?_⟩⟩
  · obtain rfl := Option.some.inj (hdoc₁.symm.trans hrow')
    exact ho.embed hg hv fun c hc v hmem =>
      models_of_mem_zip hb.db.chunkIds h.knows.found hmodels hc hmem
  · rw [Fresh, hv]
    exact h.knows.fresh
  · have hcovered := h.knows.covered
    rw [← hrows] at hcovered
    obtain rfl := hd
    exact hcovered.allEmbedded_writeEmbeddings

theorem embed_orderly {document : Document} (hedge : document.status.edge .embedding = true)
    (hw : Busy i .embed env (Fresh .embed env document) w) :
    wp (orderlyDiscipline cfg T).rules i (embed env document)
      (fun _ => Busy i .embed env fun _ => True) (fun e => Busy i .embed env (Raised e)) w := by
  unfold embed updateDocument Python.recordEvent Python.recordProcessed
  -- the document goes to `embedding`
  rw [wp_bind]
  refine wp_update hw owned_fresh ?_ (fun _ _ h => busy_raised h) ?_
  · intro w doc h hb hdoc ho
    obtain ⟨hnew, hrow⟩ := h.knows
    obtain rfl := Option.some.inj (hdoc.symm.trans hrow)
    exact ⟨hedge, fun w' hg hv => ho.update_embed hg hb hv (h.handles.sent (by decide))
      (Or.inl rfl) rfl (fun _ => hnew) fun he => nomatch he⟩
  intro w₀ w₁ doc h hdoc hbusy _ hv
  obtain ⟨hnew, hrow⟩ := h.knows
  obtain rfl := Option.some.inj (hdoc.symm.trans hrow)
  generalize hrow₁ : DocumentUpdate.apply { status := .embedding } doc = row₁ at hv
  have h₁ : Busy i .embed env (Fresh .embed env row₁) w₁ := hbusy.weaken fun _ => by
    rw [Fresh, hv]
    exact ⟨hnew, rfl⟩
  have hstatus₁ : row₁.status = .embedding := by rw [← hrow₁]; rfl
  clear hv hbusy h hw
  refine wp_look_call id h₁ owned_fresh (fun _ _ => id) (fun _ _ h => busy_raised h)
    fun _ _ w₂ _ h₂ _ _ _ _ _ => ?_
  refine wp_look_call id h₂ owned_fresh (fun _ _ => id) (fun _ _ h => busy_raised h)
    fun _ chunks w₃ _ h₃ _ _ _ _ hd => ?_
  obtain ⟨rfl, rfl⟩ := hd
  have h₃ : Busy i .embed env
      (Fetched env row₁ (w₃.db.chunksWithoutEmbedding env.documentId)) w₃ :=
    h₃.weaken fun h => ⟨h, covered_fetched _ _, fun p hp => of_mem_chunksWithoutEmbedding hp⟩
  generalize w₃.db.chunksWithoutEmbedding env.documentId = chunks at h₃
  split
  · rename_i hempty
    obtain rfl := List.isEmpty_iff.mp hempty
    exact finish_orderly rfl rfl hstatus₁ (h₃.weaken fun h => ⟨h.fresh, h.covered.allEmbedded⟩)
  refine wp_look_call id h₃ owned_fetched (fun _ _ => id) (fun _ _ h => busy_raised h)
    fun _ vectors w₄ a h₄ _ _ hadmits hreply _ => ?_
  have hmodels : List.Forall₂ T.models (chunks.map PendingChunk.content) vectors := by
    cases a with
    | vectors vs =>
      have he : vs = vectors := by
        simp only [reply] at hreply
        split at hreply
        · exact (Prod.mk.inj (Option.some.inj hreply)).1
        · cases hreply
      exact he ▸ hadmits
    | _ => simp [reply] at hreply
  exact writeEmbeddings_orderly hmodels h₄ fun w₅ h₅ => finish_orderly rfl rfl hstatus₁ h₅

theorem handle_orderly (hw : Busy i .embed env (fun _ => True) w) :
    wp (orderlyDiscipline cfg T).rules i (handle env) (fun _ => Busy i .embed env fun _ => True)
      (fun _ => Busy i .embed env fun _ => True) w := by
  refine Python.handle_orderly .true (fun _ _ _ _ => trivial) (fun _ h => h) (fun _ _ h => h)
    (fun w document hb h hrow ho hterminal => ?_) hw
  have hdivided : document.status.divided = true :=
    ho.toEmbed.passed (h.handles.sent (by decide))
  have hnew : ¬ (w.view env.documentId).done .embed := by
    intro hdone
    rw [ho.finished hdone] at hterminal
    cases hterminal
  refine wp_try (embed_orderly (edge_embedding hdivided hterminal)
    (h.weaken fun _ => ⟨hnew, hrow⟩)) fun e w₁ h₁ => ?_
  exact Python.onError_orderly h₁.knows (h₁.weaken fun _ => trivial)

end Embedder

end DigitalCip
