import DigitalCip.Invariant.Finished
import DigitalCip.Invariant.View

/-!
# Documents in exclusive runs

In an exclusive run a document is handed from stage to stage like a baton.
`Orderly` says how its status, its chunks, the messages sent for it and the
dedupe rows fit together, and that its contents are what the OCR engine, the
splitter and the model made of its object.

What the engine and the model return is a relation (`Truth`); a theorem that does
not depend on it takes the one that relates everything.
-/

namespace DigitalCip
open Resumable

/-! ## The states of a document -/

/-- The document has been taken up by the worker of stage `S`. -/
def Status.reached (s : Status) : Stage → Bool
  | .ocr => s = .ocrProcessing || s.recognised
  | .chunk => s = .chunking || s.divided
  | .embed => s = .embedding || s = .embedded

/-- The worker of stage `S` is done with the document. -/
def Status.passed (s : Status) : Stage → Bool
  | .ocr => s.recognised
  | .chunk => s.divided
  | .embed => s = .embedded

/-- The state machine of `README.md`, with what the workers add to it: going back
from the completed to the processing state of a stage, resuming, and failing. -/
def Status.edge : Status → Status → Bool
  | .uploaded, .ocrProcessing | .ocrProcessing, .ocrCompleted | .ocrCompleted, .chunking
  | .chunking, .chunked | .chunked, .embedding | .embedding, .embedded => true
  | .ocrCompleted, .ocrProcessing | .chunked, .chunking => true
  | .ocrProcessing, .ocrProcessing | .chunking, .chunking | .embedding, .embedding => true
  | s, .failed => !s.terminal
  | _, _ => false

/-! ## What the engine and the model say -/

/-- Which texts the OCR engine reads in an object of a content type, and which
vectors the model gives a text. -/
structure Truth where
  reads : Blob → Text → Text → Prop
  models : Text → Vec → Prop

/-- An answer that the engine or the model can give. -/
def Truth.Admits (T : Truth) : Call → Answer → Prop
  | .extractText blob contentType, .text t _ => T.reads blob contentType t
  | .embedBatch texts, .vectors vs => List.Forall₂ T.models texts vs
  | _, _ => True

/-- The engine and the model answer as `T` says. -/
def truthful (T : Truth) (s : Sys) : Label → Prop
  | .run i a => ∀ c, s.pending i = some c → T.Admits c a
  | _ => True

/-- The text is one that the engine reads in the object of the row. -/
def World.Reads (w : World) (T : Truth) (row : Document) (t : Text) : Prop :=
  ∃ blob, w.objects row.objectKey = some blob ∧ T.reads blob row.contentType t

/-- What the chunker stored of a chunk. -/
def DocumentChunk.row (c : DocumentChunk) : ChunkRow := ⟨c.position, c.content, c.tokenCount⟩

/-! ## The invariant of a document -/

/-- Stage `T` is sent a message when stage `S` has passed and recorded its own,
and the document is taken up by `T` only then. -/
structure HandedOver (v : View) (s : Status) (S T : Stage) : Prop where
  taken : s.reached T = true → v.sent T
  passed : v.sent T → s.passed S = true
  recorded : v.sent T → v.done S

/-- The row of document `d` and what belongs to it. -/
structure Orderly (cfg : Config) (T : Truth) (w : World) (d : DocId) (row : Document) : Prop where
  toChunk : HandedOver (w.view d) row.status .ocr .chunk
  toEmbed : HandedOver (w.view d) row.status .chunk .embed
  finished : (w.view d).done .embed → row.status = .embedded
  text : ∀ t, row.rawText = some t → w.Reads T row t
  failed : row.status = .failed → ∃ t, w.Reads T row t ∧ Blank t
  divided : row.status.divided = true → ∃ t, row.rawText = some t ∧
    (w.view d).chunks.map DocumentChunk.row =
      Chunker.chunkRows (Chunker.split t cfg.chunkSize cfg.chunkOverlap)
  embedded : row.status = .embedded → ∀ c ∈ (w.view d).chunks, c.embedding.isSome
  models : ∀ c ∈ (w.view d).chunks, ∀ v, c.embedding = some v → T.models c.content v

/-- Every document is orderly, and there are no chunks without a document. -/
structure Tidy (cfg : Config) (T : Truth) (w : World) : Prop where
  rows : ∀ d row, w.db.documents d = some row → Orderly cfg T w d row
  bare : ∀ d, w.db.documents d = none → w.db.chunksOf d = []

section Orderly
variable {cfg : Config} {T : Truth} {w w' : World} {d : DocId} {row : Document}

theorem World.Reads.mono {t : Text} (h : w.Reads T row t) (hg : Grows w w') : w'.Reads T row t := by
  obtain ⟨blob, hblob, hreads⟩ := h
  exact ⟨blob, hg.objects _ _ hblob, hreads⟩

/-- A step that leaves the document alone. -/
theorem Orderly.of_view (h : Orderly cfg T w d row) (hg : Grows w w')
    (hv : w'.view d = w.view d) : Orderly cfg T w' d row := by
  obtain ⟨h₁, h₂, h₃, h₄, h₅, h₆, h₇, h₈⟩ := h
  constructor
  · rwa [hv]
  · rwa [hv]
  · rwa [hv]
  · exact fun t ht => (h₄ t ht).mono hg
  · intro hs
    obtain ⟨t, ht, hb⟩ := h₅ hs
    exact ⟨t, ht.mono hg, hb⟩
  · rwa [hv]
  · rwa [hv]
  · rwa [hv]

/-- An update of the row, which leaves the rest of the document alone. -/
theorem Orderly.update (h : Orderly cfg T w d row) (hg : Grows w w') (u : DocumentUpdate)
    (hv : w'.view d = { w.view d with row := some (u.apply row) })
    (htoChunk : HandedOver (w.view d) u.status .ocr .chunk)
    (htoEmbed : HandedOver (w.view d) u.status .chunk .embed)
    (hfinished : (w.view d).done .embed → u.status = .embedded)
    (htext : ∀ t, u.rawText = some t → w.Reads T row t)
    (hfailed : u.status = .failed → ∃ t, w.Reads T row t ∧ Blank t)
    (hdivided : u.status.divided = true → ∃ t, (u.apply row).rawText = some t ∧
      (w.view d).chunks.map DocumentChunk.row =
        Chunker.chunkRows (Chunker.split t cfg.chunkSize cfg.chunkOverlap))
    (hembedded : u.status = .embedded → ∀ c ∈ (w.view d).chunks, c.embedding.isSome) :
    Orderly cfg T w' d (u.apply row) := by
  have hreads : ∀ t, w.Reads T row t → w'.Reads T (u.apply row) t := fun t ht => ht.mono hg
  constructor
  · rw [hv]
    exact ⟨htoChunk.taken, htoChunk.passed, htoChunk.recorded⟩
  · rw [hv]
    exact ⟨htoEmbed.taken, htoEmbed.passed, htoEmbed.recorded⟩
  · rw [hv]
    exact hfinished
  · intro t ht
    refine hreads t ?_
    cases hu : u.rawText with
    | none =>
      refine h.text t ?_
      simpa [DocumentUpdate.apply, hu] using ht
    | some t' =>
      obtain rfl : t' = t := by simpa [DocumentUpdate.apply, hu] using ht
      exact htext t' hu
  · intro hs
    obtain ⟨t, ht, hb⟩ := hfailed hs
    exact ⟨t, hreads t ht, hb⟩
  · rw [hv]
    exact hdivided
  · rw [hv]
    exact hembedded
  · rw [hv]
    exact h.models

/-- The insert of a document's chunks, which are not embedded yet. -/
theorem Orderly.insert (h : Orderly cfg T w d row) (hg : Grows w w') {chunks : List DocumentChunk}
    (hv : w'.view d = { w.view d with chunks := chunks }) (hstatus : row.status.divided = false)
    (hnew : ∀ c ∈ chunks, c.embedding = none) : Orderly cfg T w' d row := by
  have hembedded : row.status ≠ .embedded := by
    intro he
    rw [he] at hstatus
    cases hstatus
  obtain ⟨h₁, h₂, h₃, h₄, h₅, -, -, -⟩ := h
  constructor
  · rw [hv]
    exact ⟨h₁.taken, h₁.passed, h₁.recorded⟩
  · rw [hv]
    exact ⟨h₂.taken, h₂.passed, h₂.recorded⟩
  · rw [hv]
    exact h₃
  · exact fun t ht => (h₄ t ht).mono hg
  · intro hs
    obtain ⟨t, ht, hb⟩ := h₅ hs
    exact ⟨t, ht.mono hg, hb⟩
  · intro hs
    rw [hstatus] at hs
    cases hs
  · exact fun hs => absurd hs hembedded
  · rw [hv]
    intro c hc v he
    rw [hnew c hc] at he
    cases he

/-- A batch of embeddings, each of the content of its chunk. -/
theorem Orderly.embed (h : Orderly cfg T w d row) (hg : Grows w w') {rows : List (ChunkId × Vec)}
    (hv : w'.view d = { w.view d with chunks := (w.view d).chunks.map (embedRow rows) })
    (hrows : ∀ c ∈ (w.view d).chunks, ∀ v, (c.id, v) ∈ rows → T.models c.content v) :
    Orderly cfg T w' d row := by
  obtain ⟨h₁, h₂, h₃, h₄, h₅, h₆, h₇, h₈⟩ := h
  constructor
  · rw [hv]
    exact ⟨h₁.taken, h₁.passed, h₁.recorded⟩
  · rw [hv]
    exact ⟨h₂.taken, h₂.passed, h₂.recorded⟩
  · rw [hv]
    exact h₃
  · exact fun t ht => (h₄ t ht).mono hg
  · intro hs
    obtain ⟨t, ht, hb⟩ := h₅ hs
    exact ⟨t, ht.mono hg, hb⟩
  · intro hs
    obtain ⟨t, ht, hchunks⟩ := h₆ hs
    refine ⟨t, ht, ?_⟩
    rw [hv, ← hchunks, List.map_map]
    refine List.map_congr_left fun c _ => ?_
    have hk := kept_embedRow rows c
    simp only [Function.comp, DocumentChunk.row, hk.position, hk.content, hk.tokenCount]
  · intro hs c' hc'
    rw [hv] at hc'
    obtain ⟨c, hc, rfl⟩ := List.mem_map.mp hc'
    exact (kept_embedRow rows c).embedding (h₇ hs c hc)
  · intro c' hc' v he
    rw [hv] at hc'
    obtain ⟨c, hc, rfl⟩ := List.mem_map.mp hc'
    rw [(kept_embedRow rows c).content]
    rcases embedding_embedRow rows c with hold | ⟨v', hv', he'⟩
    · exact h₈ c hc v (hold ▸ he)
    · obtain rfl := Option.some.inj (he'.symm.trans he)
      exact hrows c hc v' hv'

/-- The insert of a dedupe row of stage `S`. -/
theorem Orderly.record (h : Orderly cfg T w d row) (hg : Grows w w') {done : Stage → Prop}
    {S : Stage} (hv : w'.view d = { w.view d with done := done })
    (hold : ∀ S', (w.view d).done S' → done S') (hnew : ∀ S', done S' → (w.view d).done S' ∨ S' = S)
    (hS : S = .embed → row.status = .embedded) : Orderly cfg T w' d row := by
  obtain ⟨h₁, h₂, h₃, h₄, h₅, h₆, h₇, h₈⟩ := h
  constructor
  · rw [hv]
    exact ⟨h₁.taken, h₁.passed, fun hs => hold _ (h₁.recorded hs)⟩
  · rw [hv]
    exact ⟨h₂.taken, h₂.passed, fun hs => hold _ (h₂.recorded hs)⟩
  · rw [hv]
    intro hdone
    rcases hnew .embed hdone with hd | he
    · exact h₃ hd
    · exact hS he.symm
  · exact fun t ht => (h₄ t ht).mono hg
  · intro hs
    obtain ⟨t, ht, hb⟩ := h₅ hs
    exact ⟨t, ht.mono hg, hb⟩
  · rwa [hv]
  · rwa [hv]
  · rwa [hv]

/-- The message for the next stage. -/
theorem Orderly.send (h : Orderly cfg T w d row) (hg : Grows w w') {S S' : Stage}
    (hnext : S = .ocr ∧ S' = .chunk ∨ S = .chunk ∧ S' = .embed)
    (hv : w'.view d = { w.view d with
      sent := fun R => (w.view d).sent R ∨ R ≠ .ocr ∧ S' = R })
    (hstatus : row.status = S.completed) (hdone : (w.view d).done S) : Orderly cfg T w' d row := by
  obtain ⟨h₁, h₂, h₃, h₄, h₅, h₆, h₇, h₈⟩ := h
  have hkeep : ∀ R R', HandedOver (w.view d) row.status R R' →
      (S' = R' → row.status.passed R = true ∧ (w.view d).done R) →
      HandedOver (w'.view d) row.status R R' := by
    intro R R' hR hR'
    rw [hv]
    exact ⟨fun ht => Or.inl (hR.taken ht),
      fun hs => hs.elim hR.passed fun hs => (hR' hs.2).1,
      fun hs => hs.elim hR.recorded fun hs => (hR' hs.2).2⟩
  constructor
  · refine hkeep _ _ h₁ fun he => ?_
    rcases hnext with ⟨rfl, -⟩ | ⟨-, rfl⟩
    · exact ⟨by rw [hstatus]; rfl, hdone⟩
    · cases he
  · refine hkeep _ _ h₂ fun he => ?_
    rcases hnext with ⟨-, rfl⟩ | ⟨rfl, -⟩
    · cases he
    · exact ⟨by rw [hstatus]; rfl, hdone⟩
  · rwa [hv]
  · exact fun t ht => (h₄ t ht).mono hg
  · intro hs
    obtain ⟨t, ht, hb⟩ := h₅ hs
    exact ⟨t, ht.mono hg, hb⟩
  · rwa [hv]
  · rwa [hv]
  · rwa [hv]

/-- A step that changes the views of some documents, which stay orderly. -/
theorem Tidy.step (h : Tidy cfg T w) (hg : Grows w w') (P : DocId → Prop)
    (hview : ∀ d, ¬ P d → w'.view d = w.view d)
    (hrows : ∀ d row, P d → w'.db.documents d = some row → Orderly cfg T w' d row)
    (hbare : ∀ d, P d → w'.db.documents d ≠ none) : Tidy cfg T w' := by
  constructor
  · intro d row hrow
    by_cases hd : P d
    · exact hrows d row hd hrow
    · have hv := hview d hd
      have hold : w.db.documents d = some row := (congrArg View.row hv).symm.trans hrow
      exact (h.rows d row hold).of_view hg hv
  · intro d hnone
    have hd : ¬ P d := fun hd => hbare d hd hnone
    have hv := hview d hd
    have hold : w.db.documents d = none := (congrArg View.row hv).symm.trans hnone
    exact (congrArg View.chunks hv).trans (h.bare d hold)

/-- A step that changes no view. -/
theorem Tidy.of_views (h : Tidy cfg T w) (hg : Grows w w') (hview : ∀ d, w'.view d = w.view d) :
    Tidy cfg T w' :=
  h.step hg (fun _ => False) (fun d _ => hview d) (fun _ _ h => h.elim) fun _ h => h.elim

end Orderly

/-! ## Exclusive runs -/

/-- The steps of an exclusive run in which the chunker's dedupe rows are inserted
and the engine and the model answer as `T` says. -/
def orderlyRun (T : Truth) (s : Sys) (l : Label) : Prop :=
  exclusive s l ∧ chunkerRecords s l ∧ truthful T s l

/-- Those runs.  An execution guarantees that it changes only its own document,
along the edges of the state machine. -/
def orderlyDiscipline (cfg : Config) (T : Truth) : Discipline where
  ok := orderlyRun T
  known := Base
  moves := Grows
  admits _ c a _ := T.Admits c a ∧
    ∀ reason, a = .fail reason → ∀ row, c = .recordProcessed row → row.stage ≠ .chunk
  inv := Tidy cfg T
  rely i c w w' := ¬ Settles c → ∀ d, w.documentOf i = some d →
    (∃ row, w.db.documents d = some row) → w'.documentOf i = some d ∧ w'.view d = w.view d
  guar i c w r w' :=
    (∀ d, (w.documentOf i = some d → Settles c) → (∃ row, w.db.documents d = some row) →
      w'.view d = w.view d) ∧
      ∀ d u row, c = .updateDocument d u → (∃ v, r = .ok v) → w.db.documents d = some row →
        row.status.edge u.status = true
  moves_refl := .refl
  moves_trans _ _ _ := .trans
  rely_refl _ _ _ _ _ hd _ := ⟨hd, rfl⟩
  rely_trans _ _ w w' w'' h h' hc d hd hrow := by
    obtain ⟨hd', hv⟩ := h hc d hd hrow
    have hrow' : ∃ row, w'.db.documents d = some row := by
      obtain ⟨row, hrow⟩ := hrow
      exact ⟨row, (congrArg View.row hv).trans hrow⟩
    obtain ⟨hd'', hv'⟩ := h' hc d hd' hrow'
    exact ⟨hd'', hv'.trans hv⟩
  post _ _ := True

/-! ## What an execution knows of its own document -/

/-- What only the execution that is at work on document `d` can make false. -/
def Owned (d : DocId) (K : World → Prop) : Prop :=
  ∀ w w', K w → Grows w w' → w'.view d = w.view d → K w'

theorem Owned.view {d : DocId} (P : View → Prop) : Owned d fun w => P (w.view d) := by
  intro w w' h _ hv
  show P (w'.view d)
  rwa [hv]

theorem Owned.true {d : DocId} : Owned d fun _ => True := fun _ _ _ _ _ => trivial

/-- Execution `i` handles `env`, whose document is there, and knows `K` of it. -/
structure Busy (i : Nat) (S : Stage) (env : Envelope) (K : World → Prop) (w : World) : Prop where
  handles : Handles w i S env
  found : ∃ row, w.db.documents env.documentId = some row
  knows : K w

section Busy
variable {cfg : Config} {T : Truth} {i : Nat} {S : Stage} {env : Envelope} {w : World}
  {K : World → Prop} {α : Type} {Q : α → World → Prop} {E : Exc → World → Prop}

theorem Busy.weaken {K' : World → Prop} (h : Busy i S env K w) (hK : K w → K' w) :
    Busy i S env K' w := ⟨h.handles, h.found, hK h.knows⟩

theorem Busy.of_view {w' : World} (h : Busy i S env K w) (hK : Owned env.documentId K)
    (hg : Grows w w') (hv : w'.view env.documentId = w.view env.documentId) :
    Busy i S env K w' := by
  refine ⟨h.handles.mono hg, ?_, hK w w' h.knows hg hv⟩
  obtain ⟨row, hrow⟩ := h.found
  exact ⟨row, (congrArg View.row hv).trans hrow⟩

theorem Busy.stable {c : Call} {w' : World} (h : Busy i S env K w) (hK : Owned env.documentId K)
    (hc : ¬ Settles c) (hg : Grows w w') (hr : (orderlyDiscipline cfg T).rely i c w w') :
    Busy i S env K w' :=
  h.of_view hK hg (hr hc _ h.handles.documentOf h.found).2

/-- What an execution knows when it settles its delivery. -/
theorem Busy.grow {w' : World} (h : Busy i S env (fun _ => True) w) (hg : Grows w w') :
    Busy i S env (fun _ => True) w' := by
  obtain ⟨row, hrow⟩ := h.found
  obtain ⟨row', hrow', -⟩ := hg.db.documents _ row hrow
  exact ⟨h.handles.mono hg, ⟨row', hrow'⟩, trivial⟩

/-- **One call of a handler**, which concerns its own document only. -/
theorem wp_own {c : Call} {k : c.Reply → Program α} (hc : ¬ Settles c) (hw : Busy i S env K w)
    (hK : Owned env.documentId K)
    (hown : ∀ w d, Busy i S env K w → Base w → c.concerns w d → d = env.documentId)
    (hfail : ∀ reason w, Busy i S env K w → Base w →
      (∀ row, c = .recordProcessed row → row.stage ≠ .chunk) →
      wp (orderlyDiscipline cfg T).rules i (k (.error reason)) Q E w)
    (hok : ∀ w v w' a row, Busy i S env K w → Base w → Base w' → Grows w w' →
      w.db.documents env.documentId = some row → Orderly cfg T w env.documentId row →
      T.Admits c a → reply i c a w = some (v, w') → Does i c v w w' →
        (∀ u, c = .updateDocument env.documentId u → row.status.edge u.status = true) ∧
        (∀ row', w'.db.documents env.documentId = some row' →
          Orderly cfg T w' env.documentId row') ∧
        wp (orderlyDiscipline cfg T).rules i (k (.ok v)) Q E w') :
    wp (orderlyDiscipline cfg T).rules i (Prog.perform c >>= k) Q E w := by
  refine Discipline.wp_perform (D := orderlyDiscipline cfg T) (Busy i S env K) hw
    (fun w w' h hg _ hr _ => h.stable hK hc hg hr) ?_ ?_
  · intro w reason h hb _ _ hadmits
    refine ⟨⟨fun _ _ _ => rfl, ?_⟩, hfail reason w h hb (hadmits.2 reason rfl)⟩
    rintro d u row - ⟨v, he⟩ -
    cases he
  · intro w v w' a h hb hinv hb' hg hadmits hreply hd
    obtain ⟨row, hrow⟩ := h.found
    obtain ⟨hedge, horderly, hk⟩ :=
      hok w v w' a row h hb hb' hg hrow (hinv.rows _ row hrow) hadmits.1 hreply hd
    have hview : ∀ d, d ≠ env.documentId → w'.view d = w.view d :=
      fun d hne => view_of_does hd fun hc => hne (hown w d h hb hc)
    refine ⟨?_, ⟨fun d hne _ => ?_, fun d u row' he _ hrow' => ?_⟩, hk⟩
    · refine hinv.step hg (· = env.documentId) hview (fun d row' he => he ▸ horderly row') ?_
      rintro _ rfl hnone
      obtain ⟨row', hrow', -⟩ := hg.db.documents _ row hrow
      rw [hnone] at hrow'
      cases hrow'
    · refine hview d ?_
      rintro rfl
      exact hc (hne h.handles.documentOf)
    · have hdoc : d = env.documentId := hown w d h hb (by subst he; exact rfl)
      subst hdoc
      obtain rfl := Option.some.inj (hrow.symm.trans hrow')
      exact hedge u he

/-- A call that concerns no document. -/
theorem wp_look {c : Call} {k : c.Reply → Program α} (hs : ¬ Settles c) (hw : Busy i S env K w)
    (hK : Owned env.documentId K) (hc : ∀ w d, ¬ c.concerns w d)
    (hfail : ∀ reason w, Busy i S env K w → Base w →
      wp (orderlyDiscipline cfg T).rules i (k (.error reason)) Q E w)
    (hok : ∀ w v w' a, Busy i S env K w' → Base w' →
      (∀ row, w.db.documents env.documentId = some row → Orderly cfg T w env.documentId row) →
      T.Admits c a → reply i c a w = some (v, w') → Does i c v w w' →
        wp (orderlyDiscipline cfg T).rules i (k (.ok v)) Q E w') :
    wp (orderlyDiscipline cfg T).rules i (Prog.perform c >>= k) Q E w := by
  refine wp_own hs hw hK (fun w d _ _ h => absurd h (hc w d)) (fun reason w h hb _ => hfail reason w h hb)
    fun w v w' a row h hb hb' hg hrow horderly hadmits hreply hd => ?_
  have hv : w'.view env.documentId = w.view env.documentId := view_of_does hd (hc w _)
  refine ⟨fun u he => ?_, fun row' hrow' => ?_, ?_⟩
  · subst he
    exact absurd rfl (hc w env.documentId)
  · have hold : w.db.documents env.documentId = some row' := (congrArg View.row hv).symm.trans hrow'
    obtain rfl := Option.some.inj (hrow.symm.trans hold)
    exact horderly.of_view hg hv
  · refine hok w v w' a (h.of_view hK hg hv) hb' (fun row' hrow' => ?_) hadmits hreply hd
    obtain rfl := Option.some.inj (hrow.symm.trans hrow')
    exact horderly

/-- Such a call in Python. -/
theorem wp_look_call {c : Call} {k : c.Val → Program α} (hs : ¬ Settles c) (hw : Busy i S env K w)
    (hK : Owned env.documentId K) (hc : ∀ w d, ¬ c.concerns w d)
    (hfail : ∀ reason w, Busy i S env K w → E (.other reason) w)
    (hok : ∀ w v w' a, Busy i S env K w' → Base w' →
      (∀ row, w.db.documents env.documentId = some row → Orderly cfg T w env.documentId row) →
      T.Admits c a → reply i c a w = some (v, w') → Does i c v w w' →
        wp (orderlyDiscipline cfg T).rules i (k v) Q E w') :
    wp (orderlyDiscipline cfg T).rules i (call c >>= k) Q E w := by
  rw [wp_bind]
  exact wp_look hs hw hK hc (fun reason w h _ => hfail reason w h) hok

/-- The calls that settle the delivery concern no document. -/
theorem keeps_busy : (orderlyDiscipline cfg T).Keeps i (Busy i S env fun _ => True)
    fun c => ∀ w d, ¬ c.concerns w d where
  stable c w w' _ h hg _ _ _ := h.grow hg
  fail c w reason _ _ _ _ := by
    refine ⟨fun _ _ _ => rfl, ?_⟩
    rintro d u row - ⟨v, he⟩ -
    cases he
  does c w v w' a hc h hb hinv hb' hg hadmits hreply hd := by
    have hv : ∀ d, w'.view d = w.view d := fun d => view_of_does hd (hc w d)
    refine ⟨hinv.of_views hg hv, ⟨fun d _ _ => hv d, fun d u row he _ _ => ?_⟩, h.grow hg⟩
    subst he
    exact absurd rfl (hc w d)

end Busy
end DigitalCip
