import DigitalCip.Invariant.View

/-!
# Dedupe soundness

A worker skips a message whose id has a dedupe row.  The table is keyed by the id
alone and shared by the three stages, and a row is inserted some transactions
after the work it stands for.  Still a skipped message is one whose work is
committed: ids are not shared between stages or documents (`Base.sameMessage`),
and every row stands for committed work, which no step takes back.
-/

namespace DigitalCip
open Resumable

/-- The work of a stage for document `d` is committed. -/
def Db.Committed (db : Db) (d : DocId) : Stage → Prop
  | .ocr => db.Recognised d
  | .chunk => db.chunksOf d ≠ []
  | .embed => ∃ row, db.documents d = some row ∧ row.embeddedAt.isSome

/-- A message of the pipeline: one that `ingest` has accepted, or a copy in a queue
or in a delivery. -/
def World.Carries (w : World) (m : Message) : Prop :=
  (∃ p ∈ w.broker.accepted, p.message = m) ∨ ∃ S c, w.broker.Holds S c ∧ c.message = m

/-- No two stages or documents share a message id, and every dedupe row is one of
a message and stands for committed work; so does a message that is skipped. -/
structure DedupeSound (w : World) : Prop where
  ids : ∀ m m', w.Carries m → w.Carries m' → m.body.messageId = m'.body.messageId →
    m.body.stage = m'.body.stage ∧ m.body.documentId = m'.body.documentId
  rows : ∀ id row, w.db.processed id = some row →
    (∃ m, w.Carries m ∧ m.body.messageId = id ∧ m.body.stage = row.stage ∧
      m.body.documentId = row.documentId) ∧ w.db.Committed row.documentId row.stage
  skipped : ∀ m, w.Carries m → w.db.alreadyProcessed m.body.messageId = true →
    w.db.Committed m.body.documentId m.body.stage

/-! ## Committed work -/

theorem Db.Committed.mono {db db' : Db} {d : DocId} {S : Stage} (h : db.Committed d S)
    (hg : db.Grows db') : db'.Committed d S := by
  cases S with
  | ocr => exact Db.Recognised.mono h hg
  | chunk => exact hg.chunks d h
  | embed =>
    obtain ⟨row, hrow, hat⟩ := h
    obtain ⟨row', hrow', hk⟩ := hg.documents d row hrow
    exact ⟨row', hrow', hk.embeddedAt hat⟩

/-- Every dedupe row stands for committed work. -/
def RowsCommitted (w : World) : Prop :=
  ∀ m row, w.db.processed m = some row → w.db.Committed row.documentId row.stage

/-- Any run at all, with what is known of every run. -/
def committedDiscipline : Discipline where
  ok := anyStep
  known := Base
  moves := Grows
  admits _ _ _ _ := True
  inv := RowsCommitted
  rely _ _ _ _ := True
  guar _ _ _ _ _ := True
  moves_refl := .refl
  moves_trans _ _ _ := .trans
  rely_refl _ _ _ := trivial
  rely_trans _ _ _ _ _ _ _ := trivial
  post _ _ := True

section Calls
variable {i : Nat} {S : Stage} {env : Envelope} {w : World} {α : Type}
  {Q : α → World → Prop} {E : Exc → World → Prop} {K : World → Prop}

/-- A call that inserts no dedupe row. -/
def Unrecording (c : Call) : Prop := ∀ row, c ≠ .recordProcessed row

theorem keeps_unrecording (hK : ∀ w w', K w → Grows w w' → K w') :
    committedDiscipline.Keeps i K Unrecording where
  stable _ w w' _ h hg _ _ _ := hK w w' h hg
  fail _ _ _ _ _ _ _ := trivial
  does c w v w' a hc h _ hinv _ hg _ _ hd := by
    refine ⟨fun m row hm => ?_, trivial, hK w w' h hg⟩
    rw [processed_of_does hd hc] at hm
    exact (hinv m row hm).mono hg.db

theorem keeps_handling_committed :
    committedDiscipline.Keeps i (fun w => Handles w i S env) Unrecording :=
  keeps_unrecording fun _ _ h hg => h.mono hg

/-- Execution `i` handles `env`, whose work is committed. -/
def Worked (i : Nat) (S : Stage) (env : Envelope) (w : World) : Prop :=
  Handles w i S env ∧ w.db.Committed env.documentId S

/-- With the work committed the dedupe row may be inserted. -/
theorem keeps_worked : committedDiscipline.Keeps i (Worked i S env) fun c =>
    ∀ row, c = .recordProcessed row → row.documentId = env.documentId ∧ row.stage = S where
  stable _ w w' _ h hg _ _ _ := ⟨h.1.mono hg, h.2.mono hg.db⟩
  fail _ _ _ _ _ _ _ := trivial
  does c w v w' a hc h _ hinv _ hg _ _ hd := by
    have hworked : Worked i S env w' := ⟨h.1.mono hg, h.2.mono hg.db⟩
    refine ⟨fun m row hm => ?_, trivial, hworked⟩
    by_cases hrec : ∀ row, c ≠ .recordProcessed row
    · rw [processed_of_does hd hrec] at hm
      exact (hinv m row hm).mono hg.db
    · obtain ⟨row', rfl⟩ := not_forall_not.mp hrec
      obtain rfl := hd
      rcases Db.of_processed_recordProcessed hm with hold | ⟨-, -, rfl⟩
      · exact (hinv m row hold).mono hg.db
      · obtain ⟨hdoc, hS⟩ := hc row' rfl
        show Db.Committed _ row'.documentId row'.stage
        rw [hdoc, hS]
        exact hworked.2

/-- The statement that commits the work of the stage. -/
theorem wp_commit {c : Call} {k : c.Reply → Program α} (hc : Unrecording c)
    (hw : Handles w i S env)
    (hcommit : ∀ w v w', Handles w' i S env → Base w' → Does i c v w w' →
      w'.db.Committed env.documentId S)
    (hfail : ∀ reason w, Handles w i S env →
      wp committedDiscipline.rules i (k (.error reason)) Q E w)
    (hok : ∀ v w, Worked i S env w → wp committedDiscipline.rules i (k (.ok v)) Q E w) :
    wp committedDiscipline.rules i (Prog.perform c >>= k) Q E w := by
  refine Discipline.wp_perform (D := committedDiscipline) (fun w => Handles w i S env) hw
    (fun w w' h hg _ _ _ => h.mono hg) (fun w reason h _ _ _ _ => ⟨trivial, hfail reason w h⟩) ?_
  intro w v w' a h _ hinv hb' hg _ _ hd
  have hh := h.mono hg
  refine ⟨fun m row hm => ?_, trivial, hok v w' ⟨hh, hcommit w v w' hh hb' hd⟩⟩
  rw [processed_of_does hd hc] at hm
  exact (hinv m row hm).mono hg.db

/-- Such a statement in Python. -/
theorem wp_commit_call {c : Call} {k : c.Val → Program α} (hc : Unrecording c)
    (hw : Handles w i S env)
    (hcommit : ∀ w v w', Handles w' i S env → Base w' → Does i c v w w' →
      w'.db.Committed env.documentId S)
    (hok : ∀ v w, Worked i S env w → wp committedDiscipline.rules i (k v) Q
      (fun _ w => Handles w i S env) w) :
    wp committedDiscipline.rules i (call c >>= k) Q (fun _ w => Handles w i S env) w := by
  rw [wp_bind]
  exact wp_commit hc hw hcommit (fun _ _ h => h) hok

theorem unrecording_of_settling {m : Message} {c : Call} (h : Settling S m c) : Unrecording c := by
  rintro row rfl
  exact h

end Calls

/-! ## The OCR worker -/

namespace Ocr
variable {i : Nat} {env : Envelope} {w : World}

theorem recognise_commits (document : Document) (objectKey : ObjectKey)
    (hw : Handles w i .ocr env) :
    wp committedDiscipline.rules i (recognise env document objectKey)
      (fun _ w => Handles w i .ocr env) (fun _ w => Handles w i .ocr env) w := by
  unfold recognise updateDocumentStatus Python.recordEvent Python.recordProcessed
  refine keeps_handling_committed.call_then (by simp [Unrecording]) hw (fun _ _ h => h)
    fun _ w₁ h₁ => ?_
  refine keeps_handling_committed.call_then (by simp [Unrecording]) h₁ (fun _ _ h => h)
    fun _ w₂ h₂ => ?_
  refine keeps_handling_committed.call_then (by simp [Unrecording]) h₂ (fun _ _ h => h)
    fun blob w₃ h₃ => ?_
  split
  · exact h₃
  refine keeps_handling_committed.call_then (by simp [Unrecording]) h₃ (fun _ _ h => h)
    fun ⟨text, pages⟩ w₄ h₄ => ?_
  dsimp only
  split
  · exact h₄
  rename_i hblank
  -- the update that stores the text
  refine wp_commit_call (by simp [Unrecording]) h₄ ?_ fun _ w₅ h₅ => ?_
  · intro w _ w' hh hb' hd
    have hrow := Handles.row hb' hh
    obtain rfl := hd
    exact recognised_updateDocument ⟨⟨text, rfl, hblank⟩, rfl⟩ hrow
  refine keeps_worked.call_then (by simp) h₅ (fun _ _ h => h.1) fun _ w₆ h₆ => ?_
  exact keeps_worked.call_then (by simp) h₆ (fun _ _ h => h.1) fun _ _ h => h.1

theorem handle_commits (hw : Handles w i .ocr env) :
    wp committedDiscipline.rules i (handle env) (fun _ w => Handles w i .ocr env)
      (fun _ w => Handles w i .ocr env) w :=
  Python.handle_keeps keeps_handling_committed (by simp [Unrecording]) (by simp [Unrecording])
    (by simp [Unrecording]) (by simp [Unrecording]) (fun _ document h => recognise_commits document _ h) hw

end Ocr

/-! ## The chunker -/

namespace Chunker
variable {i : Nat} {env : Envelope} {w : World} {cfg : Config}

theorem chunkDocument_commits (rawText : Text) (hw : Handles w i .chunk env) :
    wp committedDiscipline.rules i (chunkDocument cfg env rawText)
      (fun _ w => Handles w i .chunk env) (fun _ _ => False) w := by
  unfold chunkDocument
  dsimp only
  split
  · refine keeps_handling_committed.perform_then (by simp [Unrecording]) hw fun _ w₁ h₁ => ?_
    exact keeps_handling_committed.perform_then (by simp [Unrecording]) h₁ fun _ _ h => h
  rename_i hpieces
  -- the transaction that stores the chunks
  refine wp_commit (by simp [Unrecording]) hw ?_ (fun _ _ h => h) fun _ w₁ h₁ => ?_
  · rintro w - w' - - rfl
    show (w.db.insertChunks _ _).chunksOf _ ≠ []
    rw [Db.chunksOf_insertChunks_self]
    simpa [chunkRows] using hpieces
  refine keeps_worked.perform_then (by simp) h₁ fun r w₂ h₂ => ?_
  cases r with
  | error e => exact h₂.1
  | ok =>
    refine keeps_worked.perform_then (by simp) h₂ fun _ w₃ h₃ => ?_
    refine keeps_worked.perform_then (by simp) h₃ fun _ w₄ h₄ => ?_
    unfold publishNext
    refine keeps_handling_committed.perform_then (by simp [Unrecording]) h₄.1 fun r w₅ h₅ => ?_
    cases r with
    | error e => exact h₅
    | ok id =>
      exact keeps_handling_committed.perform_then (by simp [Unrecording]) h₅ fun _ _ h => h

theorem process_commits (hw : Handles w i .chunk env) :
    wp committedDiscipline.rules i (process cfg env) (fun _ w => Handles w i .chunk env)
      (fun _ _ => False) w := by
  unfold process
  split
  · exact hw
  refine keeps_handling_committed.perform_then (by simp [Unrecording]) hw fun r w₁ h₁ => ?_
  match r with
  | .error e => exact h₁
  | .ok true => exact h₁
  | .ok false =>
    refine keeps_handling_committed.perform_then (by simp [Unrecording]) h₁ fun r w₂ h₂ => ?_
    match r with
    | .error e => exact h₂
    | .ok none => exact h₂
    | .ok (some doc) =>
      dsimp only
      split
      · exact h₂
      split
      · exact h₂
      refine keeps_handling_committed.perform_then (by simp [Unrecording]) h₂ fun r w₃ h₃ => ?_
      cases r with
      | error e => exact h₃
      | ok =>
        exact keeps_handling_committed.perform_then (by simp [Unrecording]) h₃ fun _ w₄ h₄ =>
          chunkDocument_commits _ h₄

theorem handle_commits {d : Message} (hw : Handles w i .chunk d.body) :
    wp committedDiscipline.rules i (handle cfg d) (fun _ _ => True) (fun _ _ => True) w := by
  unfold handle
  dsimp only
  have halike := alike_defaultAttempt d.body
  generalize (if d.body.attempt = 0 then { d.body with attempt := 1 } else d.body) = env
    at halike ⊢
  have hack : ∀ o w, Handles w i .chunk env → wp committedDiscipline.rules i
      (Prog.perform (.ack o) >>= fun _ => pure ()) (fun _ _ => True) (fun _ _ => True) w :=
    fun o w h => keeps_handling_committed.perform_then (by simp [Unrecording]) h fun _ _ _ => trivial
  rw [wp_bind]
  refine wp_mono (process_commits (hw.alike halike)) (fun r w₁ h₁ => ?_) fun _ _ h => h.elim
  split
  · exact hack _ w₁ h₁
  · exact hack _ w₁ h₁
  · split <;>
      exact keeps_handling_committed.perform_then (by simp [Unrecording]) h₁ fun _ w₂ h₂ =>
        hack _ w₂ h₂

end Chunker

/-! ## The embedding worker -/

namespace Embedder
variable {i : Nat} {env : Envelope} {w : World} {cfg : Config}

theorem embed_commits (document : Document) (hw : Handles w i .embed env) :
    wp committedDiscipline.rules i (embed env document) (fun _ w => Handles w i .embed env)
      (fun _ w => Handles w i .embed env) w := by
  unfold embed updateDocument writeEmbeddings Python.recordEvent Python.recordProcessed
  -- the update that sets `embedded_at`, and the dedupe row after it
  have hfinish : ∀ n e w, Handles w i .embed env → wp committedDiscipline.rules i
      (do
        call (.updateDocument env.documentId { status := .embedded, embeddedAt := some .now })
        call (.recordEvent e)
        call (.recordProcessed (processedRow env n)))
        (fun _ w => Handles w i .embed env) (fun _ w => Handles w i .embed env) w := by
    intro n e w h
    refine wp_commit_call (by simp [Unrecording]) h ?_ fun _ w₁ h₁ => ?_
    · intro w _ w' hh hb' hd
      obtain ⟨row, hrow⟩ := Handles.row hb' hh
      obtain rfl := hd
      refine ⟨row, hrow, ?_⟩
      dsimp only at hrow
      rw [Db.updateDocument_documents, if_pos rfl] at hrow
      obtain ⟨row₀, -, rfl⟩ := Option.map_eq_some_iff.mp hrow
      rfl
    refine keeps_worked.call_then (by simp) h₁ (fun _ _ h => h.1) fun _ w₂ h₂ => ?_
    have hdedupe : wp committedDiscipline.rules i (call (.recordProcessed (processedRow env n)))
        (fun _ => Worked i .embed env) (fun _ => Worked i .embed env) w₂ :=
      keeps_worked.calls (calls_call (by simp [processedRow])) h₂
    exact wp_mono hdedupe (fun _ _ h => h.1) fun _ _ h => h.1
  refine keeps_handling_committed.call_then (by simp [Unrecording]) hw (fun _ _ h => h)
    fun _ w₁ h₁ => ?_
  refine keeps_handling_committed.call_then (by simp [Unrecording]) h₁ (fun _ _ h => h)
    fun _ w₂ h₂ => ?_
  refine keeps_handling_committed.call_then (by simp [Unrecording]) h₂ (fun _ _ h => h)
    fun chunks w₃ h₃ => ?_
  split
  · exact hfinish _ _ w₃ h₃
  refine keeps_handling_committed.call_then (by simp [Unrecording]) h₃ (fun _ _ h => h)
    fun vectors w₄ h₄ => ?_
  dsimp only
  split
  · exact hfinish _ _ w₄ h₄
  · exact keeps_handling_committed.call_then (by simp [Unrecording]) h₄ (fun _ _ h => h)
      fun _ w₅ h₅ => hfinish _ _ w₅ h₅

theorem handle_commits (hw : Handles w i .embed env) :
    wp committedDiscipline.rules i (handle env) (fun _ w => Handles w i .embed env)
      (fun _ w => Handles w i .embed env) w :=
  Python.handle_keeps keeps_handling_committed (by simp [Unrecording]) (by simp [Unrecording])
    (by simp [Unrecording]) (by simp [Unrecording]) (fun _ document h => embed_commits document h) hw

end Embedder

/-! ## Every run -/

theorem committed_sound (cfg : Config) : committedDiscipline.Sound cfg .init where
  reached := .start
  start := Discipline.safe_init fun _ _ hm => nomatch hm
  known s h := reachable_base h
  moves s l s' h _ hstep := grows_of_step h hstep
  admits _ _ _ _ _ _ _ _ _ := trivial
  others _ _ _ _ _ _ _ _ _ _ _ _ _ _ _ _ _ _ := trivial
  env s l w _ hsafe _ hmove _ hg := by
    refine ⟨fun m row hm => ?_, fun _ _ _ _ _ => trivial⟩
    rw [db_of_envMove hmove] at hm
    exact (hsafe.1 m row hm).mono hg.db
  upload s i upload title tenantId _ _ _ _ _ := by
    have hkeeps : committedDiscipline.Keeps i (fun _ => True) Api.UploadCall :=
      (keeps_unrecording fun _ _ h _ => h).mono fun c hc row he => by
        subst he
        exact hc
    exact Api.upload_keeps hkeeps _ _ _ trivial
  retryRequest s i documentId _ _ _ _ _ := by
    have hkeeps : committedDiscipline.Keeps i (fun _ => True) Api.RetryCall :=
      (keeps_unrecording fun _ _ h _ => h).mono fun c hc row he => by
        subst he
        exact hc
    exact Api.retryAction_keeps hkeeps _ trivial
  consumer s i S n copy w _ _ _ _ hi _ hw hb _ := by
    obtain ⟨hwork, -, -⟩ := hb.delivered hi hw
    cases S with
    | ocr =>
      refine wp_mono (Python.onMessage_keeps keeps_handling_committed
        (fun _ => unrecording_of_settling) (by simp [Unrecording])
        (Ocr.handle_commits hwork.handles) fun n => ?_) (fun _ _ _ => trivial) fun _ _ _ => trivial
      exact calls_call (by simp [Unrecording])
    | chunk => exact Chunker.handle_commits hwork.handles
    | embed =>
      exact wp_mono (Embedder.onMessage_keeps keeps_handling_committed
        (fun _ => unrecording_of_settling) (by simp [Unrecording])
        (Embedder.handle_commits hwork.handles)) (fun _ _ _ => trivial) fun _ _ _ => trivial

section Messages
variable {w : World} {m : Message}

/-- A message of the pipeline is one that `ingest` has accepted, but for the attempt. -/
theorem World.Carries.source (hb : Base w) (h : w.Carries m) :
    ∃ p ∈ w.broker.accepted, p.message.body.Alike m.body := by
  rcases h with ⟨p, hp, rfl⟩ | ⟨S, c, hc, rfl⟩
  · exact ⟨p, hp, .refl _⟩
  · obtain ⟨p, hp, -, -, halike⟩ := (hb.mail.held S c hc).source
    exact ⟨p, hp, halike⟩

theorem Handles.carries {i : Nat} {S : Stage} {env : Envelope} (h : Handles w i S env) :
    ∃ p ∈ w.broker.accepted, p.message.body.stage = S ∧ p.message.body.Alike env := by
  obtain ⟨c, -, hstems, halike⟩ := h
  obtain ⟨p, hp, -, hstage, hpa⟩ := hstems.source
  exact ⟨p, hp, hstage, hpa.trans halike⟩

end Messages

/-- **A delivery skipped as a duplicate never discards work that was not done.** -/
theorem dedupe_sound {cfg : Config} {s : Sys} (h : Reachable cfg anyStep s) :
    DedupeSound s.world := by
  have hb := reachable_base h
  have hrows : RowsCommitted s.world := ((committed_sound cfg).safe h).1
  have hids : ∀ m m', s.world.Carries m → s.world.Carries m' →
      m.body.messageId = m'.body.messageId →
      m.body.stage = m'.body.stage ∧ m.body.documentId = m'.body.documentId := by
    intro m m' hm hm' he
    obtain ⟨p, hp, ha⟩ := hm.source hb
    obtain ⟨p', hp', ha'⟩ := hm'.source hb
    have hsame : p.message.body.messageId = p'.message.body.messageId :=
      ha.messageId.symm.trans (he.trans ha'.messageId)
    obtain ⟨hstage, hdoc⟩ := hb.sameMessage hp hp' hsame
    exact ⟨ha.stage.trans (hstage.trans ha'.stage.symm),
      ha.documentId.trans (hdoc.trans ha'.documentId.symm)⟩
  have hmessage : ∀ id row, s.world.db.processed id = some row → ∃ m, s.world.Carries m ∧
      m.body.messageId = id ∧ m.body.stage = row.stage ∧ m.body.documentId = row.documentId := by
    intro id row hrow
    obtain ⟨env, hh, hid, hdoc⟩ := (hb.recorded id row hrow).handled
    obtain ⟨p, hp, hstage, ha⟩ := hh.carries
    exact ⟨p.message, Or.inl ⟨p, hp, rfl⟩, ha.messageId.symm.trans hid, hstage,
      ha.documentId.symm.trans hdoc⟩
  refine ⟨hids, fun id row hrow => ⟨hmessage id row hrow, hrows id row hrow⟩, fun m hm hseen => ?_⟩
  obtain ⟨row, hrow⟩ := Option.isSome_iff_exists.mp hseen
  obtain ⟨m', hm', hid, hstage, hdoc⟩ := hmessage _ row hrow
  obtain ⟨hS, hd⟩ := hids m m' hm hm' hid.symm
  rw [hS, hd, hstage, hdoc]
  exact hrows _ row hrow

/-- The document that goes all the way is one such run. -/
theorem dedupe_sound_wholeRun :
    ∃ s, run (step sampleConfig) .init wholeRun = some s ∧ s.world.db.alreadyProcessed ['e'] = true ∧
      DedupeSound s.world := by
  obtain ⟨s, hs, hseen⟩ := exists_run (step sampleConfig) .init wholeRun
    (fun s => s.world.db.alreadyProcessed ['e'] = true) (by decide)
  exact ⟨s, hs, hseen, dedupe_sound (Reaches.of_run hs)⟩

end DigitalCip
