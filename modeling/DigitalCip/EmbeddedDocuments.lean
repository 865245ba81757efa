import DigitalCip.Invariant.Footprint
import DigitalCip.Invariant.View

/-!
# Embedded means embedded

The embedding worker fetches the chunks that have no embedding, embeds them, and
then writes the status `embedded`, each in a transaction of its own.  A chunker
that is still at work on the document may replace its chunks in between or
afterwards; then the document is `embedded` and has chunks without an embedding,
and every worker skips it from then on (`not_embedded_means_embedded`).  In runs
in which no chunks are inserted then, `embedded` means embedded
(`embedded_means_embedded`).
-/

namespace DigitalCip
open Resumable

/-- The calls of the embedding worker from its fetch of the chunks to its write of
the status `embedded`. -/
def Call.embedding : Call → Bool
  | .embedBatch _ | .writeEmbeddings _ => true
  | .updateDocument _ u => u.status = .embedded
  | _ => false

/-- Document `d` has the status `embedded`. -/
def Db.Embedded (db : Db) (d : DocId) : Prop :=
  ∃ row, db.documents d = some row ∧ row.status = .embedded

/-- No chunks of a document are inserted when it is `embedded`, or while an
embedding worker is between its fetch of the document's chunks and its write of
the status. -/
def insertsInTime (s : Sys) : Label → Prop
  | .run i .ok => ∀ d rows, s.pending i = some (.insertChunks d rows) → ¬ s.world.db.Embedded d ∧
      ∀ j c, s.pending j = some c → c.embedding = true → s.world.documentOf j ≠ some d
  | _ => True

/-- Embedded means embedded. -/
def EmbeddedMeans (db : Db) : Prop := ∀ d, db.Embedded d → db.AllEmbedded d

/-- Every chunk of document `d` was there before, and keeps its embedding. -/
def OldChunks (d : DocId) (db db' : Db) : Prop :=
  ∀ c' ∈ db'.chunksOf d, ∃ c ∈ db.chunksOf d, c.Kept c'

namespace OldChunks
variable {d : DocId} {db db' db'' : Db}

theorem refl (d : DocId) (db : Db) : OldChunks d db db := fun c hc => ⟨c, hc, .refl c⟩

theorem trans (h : OldChunks d db db') (h' : OldChunks d db' db'') : OldChunks d db db'' := by
  intro x hx
  obtain ⟨y, hy, hyx⟩ := h' x hx
  obtain ⟨z, hz, hzy⟩ := h y hy
  exact ⟨z, hz, hzy.trans hyx⟩

theorem allEmbedded (h : OldChunks d db db') (hall : db.AllEmbedded d) : db'.AllEmbedded d := by
  intro c' hc'
  obtain ⟨c, hc, hk⟩ := h c' hc'
  exact hk.embedding (hall c hc)

/-- A call that inserts no chunks of the document. -/
theorem of_does {i : Nat} {c : Call} {v : c.Val} {w w' : World} (hd : Does i c v w w')
    (hc : ∀ rows, c ≠ .insertChunks d rows) : OldChunks d w.db w'.db := by
  by_cases hins : ∀ d' rows, c ≠ .insertChunks d' rows
  · intro x hx
    obtain ⟨hx, hdoc⟩ := Db.mem_chunksOf.mp hx
    obtain ⟨y, hy, hk⟩ := chunks_of_does hd hins hx
    exact ⟨y, Db.mem_chunksOf.mpr ⟨hy, hk.documentId.symm.trans hdoc⟩, hk⟩
  · obtain ⟨d', rows, rfl⟩ : ∃ d' rows, c = .insertChunks d' rows := by
      by_contra hno
      exact hins fun d' rows he => hno ⟨d', rows, he⟩
    obtain rfl := hd
    have hne : d ≠ d' := by
      rintro rfl
      exact hc rows rfl
    intro x hx
    rw [Db.chunksOf_insertChunks_of_ne hne] at hx
    exact ⟨x, hx, .refl x⟩

end OldChunks

/-- A document is `embedded` after a call only if it was before, or by an update. -/
theorem embedded_of_does {i : Nat} {c : Call} {v : c.Val} {w w' : World} (hd : Does i c v w w')
    (hcreate : ∀ row stored, c = .createDocument row stored → row.status = .uploaded) {d : DocId}
    (h : w'.db.Embedded d) :
    w.db.Embedded d ∨ ∃ u, c = .updateDocument d u ∧ u.status = .embedded := by
  obtain ⟨row', hrow', hs⟩ := h
  rcases of_documents_of_does hd hrow' with hold | ⟨u, row, rfl, -, rfl⟩ | ⟨stored, rfl⟩
  · exact Or.inl ⟨row', hold, hs⟩
  · exact Or.inr ⟨u, rfl, hs⟩
  · rw [hcreate _ _ rfl] at hs
    cases hs

/-- The runs in which chunks are inserted in time. -/
def embeddedDiscipline : Discipline where
  ok := insertsInTime
  known := Base
  moves := Grows
  admits _ c a w := a = .ok → ∀ d rows, c = .insertChunks d rows → ¬ w.db.Embedded d
  inv w := EmbeddedMeans w.db
  rely i c w w' := c.embedding = true → ∀ d, w.documentOf i = some d →
    w'.documentOf i = some d ∧ OldChunks d w.db w'.db
  guar _ _ _ _ _ := True
  moves_refl := .refl
  moves_trans _ _ _ := .trans
  rely_refl _ _ w _ d hd := ⟨hd, .refl d w.db⟩
  rely_trans _ _ _ _ _ h h' hc d hd :=
    ⟨(h' hc d (h hc d hd).1).1, (h hc d hd).2.trans (h' hc d (h hc d hd).1).2⟩
  post _ _ := True

section Calls
variable {i : Nat} {env : Envelope} {w : World} {cfg : Config}

/-- A call that never sets the status `embedded`, and creates documents as
`uploaded` ones. -/
def Unembedding : Call → Prop
  | .updateDocument _ u => u.status ≠ .embedded
  | .createDocument row _ => row.status = .uploaded
  | _ => True

/-- **Such a call keeps the property**, if an insert of chunks is in time. -/
theorem EmbeddedMeans.does {c : Call} {v : c.Val} {w' : World} (h : EmbeddedMeans w.db)
    (hc : Unembedding c) (hins : ∀ d rows, c = .insertChunks d rows → ¬ w.db.Embedded d)
    (hd : Does i c v w w') : EmbeddedMeans w'.db := by
  intro d hemb
  have hold : w.db.Embedded d := by
    refine (embedded_of_does hd (fun row stored he => by subst he; exact hc) hemb).resolve_right ?_
    rintro ⟨u, rfl, hu⟩
    exact hc hu
  refine (OldChunks.of_does hd fun rows he => ?_).allEmbedded (h d hold)
  exact hins d rows he hold

theorem keeps_unembedding {K : World → Prop} (hK : ∀ w w', K w → Grows w w' → K w') :
    embeddedDiscipline.Keeps i K Unembedding where
  stable _ w w' _ h hg _ _ _ := hK w w' h hg
  fail _ _ _ _ _ _ _ := trivial
  does c w v w' a hc h _ hinv _ hg hadmits hreply hd := by
    refine ⟨hinv.does hc (fun d rows he => ?_) hd, trivial, hK w w' h hg⟩
    subst he
    refine hadmits ?_ d rows rfl
    cases a <;> simp [reply] at hreply
    rfl

theorem Covered.old {d : DocId} {ids : List ChunkId} {db db' : Db} (h : Covered d ids db)
    (hold : OldChunks d db db') : Covered d ids db' := by
  intro c' hc' hnone
  obtain ⟨c, hc, hk⟩ := hold c' hc'
  rw [hk.id]
  refine h c hc (Option.not_isSome_iff_eq_none.mp fun hsome => ?_)
  have hsome' := hk.embedding hsome
  rw [hnone] at hsome'
  cases hsome'

end Calls

/-! ## The embedding worker -/

namespace Embedder
variable {i : Nat} {env : Envelope} {w : World} {cfg : Config} {α : Type}
  {Q : α → World → Prop} {E : Exc → World → Prop}

theorem keeps_handling :
    embeddedDiscipline.Keeps i (fun w => Handles w i .embed env) Unembedding :=
  keeps_unembedding fun _ _ h hg => h.mono hg

/-- A call between the fetch of the chunks and the write of the status.  `K` is
what is known of the document's chunks; nobody inserts others meanwhile. -/
theorem wp_embedding {K : Db → Prop} {c : Call} {k : c.Val → Program α} (hc : c.embedding = true)
    (hK : ∀ db db', K db → OldChunks env.documentId db db' → K db')
    (hw : Handles w i .embed env) (hwK : K w.db) (hE : ∀ e w, Handles w i .embed env → E e w)
    (hok : ∀ w v w', Handles w' i .embed env → K w.db → EmbeddedMeans w.db → Does i c v w w' →
      EmbeddedMeans w'.db ∧ wp embeddedDiscipline.rules i (k v) Q E w') :
    wp embeddedDiscipline.rules i (call c >>= k) Q E w := by
  rw [wp_bind]
  refine Discipline.wp_call (D := embeddedDiscipline)
    (fun w => Handles w i .embed env ∧ K w.db) ⟨hw, hwK⟩ ?_ ?_ ?_
  · exact fun w w' h hg _ hr _ => ⟨h.1.mono hg, hK _ _ h.2 (hr hc _ h.1.documentOf).2⟩
  · exact fun w _ h _ _ _ _ => ⟨trivial, hE _ w h.1⟩
  · intro w v w' a h _ hinv _ hg _ _ hd
    obtain ⟨hinv', hk⟩ := hok w v w' (h.1.mono hg) h.2 hinv hd
    exact ⟨hinv', trivial, hk⟩

/-- The write of the status `embedded`, once every chunk has its embedding. -/
theorem finish_means {u : DocumentUpdate} (hu : u.status = .embedded) {e : ProcessingEvent} {n : Nat}
    (hw : Handles w i .embed env) (hall : w.db.AllEmbedded env.documentId) :
    wp embeddedDiscipline.rules i
      (do
        call (.updateDocument env.documentId u)
        call (.recordEvent e)
        call (.recordProcessed (processedRow env n)))
      (fun _ w => Handles w i .embed env) (fun _ w => Handles w i .embed env) w := by
  refine wp_embedding (K := fun db => db.AllEmbedded env.documentId) (decide_eq_true hu)
    (fun _ _ h hold => hold.allEmbedded h) hw hall (fun _ _ h => h) fun w₀ _ w₁ h₁ hall hinv hd => ⟨?_, ?_⟩
  · intro d hemb
    have hchunks : w₁.db.AllEmbedded d ↔ w₀.db.AllEmbedded d := by
      obtain rfl := hd
      exact Iff.rfl
    rw [hchunks]
    rcases embedded_of_does hd (by simp) hemb with hold | ⟨u, he, -⟩
    · exact hinv d hold
    · obtain rfl := (Call.updateDocument.inj he).1
      exact hall
  · refine keeps_handling.call_then trivial h₁ (fun _ _ h => h) fun _ w₂ h₂ => ?_
    exact keeps_handling.calls (calls_call trivial) h₂

theorem embed_means (document : Document) (hw : Handles w i .embed env) :
    wp embeddedDiscipline.rules i (embed env document) (fun _ w => Handles w i .embed env)
      (fun _ w => Handles w i .embed env) w := by
  unfold embed updateDocument Python.recordEvent Python.recordProcessed
  refine keeps_handling.call_then (by simp [Unembedding]) hw (fun _ _ h => h) fun _ w₁ h₁ => ?_
  refine keeps_handling.call_then trivial h₁ (fun _ _ h => h) fun _ w₂ h₂ => ?_
  rw [wp_bind]
  refine Discipline.wp_call (D := embeddedDiscipline) (fun w => Handles w i .embed env) h₂
    (fun w w' h hg _ _ _ => h.mono hg) (fun w _ h _ _ _ _ => ⟨trivial, h⟩) ?_
  rintro w chunks w₃ a h - hinv - - - - ⟨rfl, rfl⟩
  refine ⟨hinv, trivial, ?_⟩
  have hcovered := covered_fetched env.documentId w₃.db
  generalize w₃.db.chunksWithoutEmbedding env.documentId = chunks at hcovered
  split
  · rename_i hempty
    rw [List.isEmpty_iff.mp hempty] at hcovered
    exact finish_means rfl h hcovered.allEmbedded
  refine wp_embedding (K := Covered env.documentId (chunks.map PendingChunk.id)) rfl
    (fun _ _ h hold => h.old hold) h hcovered (fun _ _ h => h) fun w₀ vectors w₄ h₄ hK hinv hd => ?_
  obtain ⟨hlength, rfl⟩ := hd
  refine ⟨hinv, ?_⟩
  have hrows : ((chunks.map PendingChunk.id).zip vectors).map Prod.fst =
      chunks.map PendingChunk.id := by
    refine List.map_fst_zip ?_
    rw [hlength, List.length_map, List.length_map]
  rw [← hrows] at hK
  dsimp only
  generalize (chunks.map PendingChunk.id).zip vectors = rows at hK
  unfold writeEmbeddings
  split
  · rename_i hempty
    rw [List.isEmpty_iff.mp hempty] at hK
    exact finish_means rfl h₄ hK.allEmbedded
  · refine wp_embedding (K := Covered env.documentId (rows.map Prod.fst)) rfl
      (fun _ _ h hold => h.old hold) h₄ hK (fun _ _ h => h) fun w₀ _ w₅ h₅ hK hinv hd => ?_
    have hinv' : EmbeddedMeans w₅.db := hinv.does (c := .writeEmbeddings rows) trivial (by simp) hd
    obtain rfl := hd
    exact ⟨hinv', finish_means rfl h₅ hK.allEmbedded_writeEmbeddings⟩

theorem handle_means (hw : Handles w i .embed env) :
    wp embeddedDiscipline.rules i (handle env) (fun _ w => Handles w i .embed env)
      (fun _ w => Handles w i .embed env) w :=
  Python.handle_keeps keeps_handling trivial trivial (by simp [Unembedding]) (fun _ _ => trivial)
    (fun _ document h => embed_means document h) hw

end Embedder

/-! ## Every run -/

theorem unembedding_of_settling {S : Stage} {m : Message} {c : Call} (h : Settling S m c) :
    Unembedding c := by
  cases c <;> trivial

/-- The other two workers never write `embedded`. -/
theorem unembedding_of_consumer {S : Stage} {m : Message} (hS : S ≠ .embed) {c : Call}
    (h : ConsumerCall S m c) : Unembedding c := by
  cases c with
  | updateDocument d u =>
    rcases h with ⟨-, hw⟩ | (h | h) | ⟨T, -, h⟩
    · cases S with
      | embed => exact absurd rfl hS
      | ocr | chunk => cases hu : u.status <;> simp_all [Unembedding]; cases hw
    · exact h.elim
    · cases h
    · exact h.elim
  | createDocument =>
    rcases h with h | (h | h) | ⟨T, -, h⟩
    · exact h.elim
    · exact h.elim
    · cases h
    · exact h.elim
  | _ => trivial

theorem embedded_sound (cfg : Config) : embeddedDiscipline.Sound cfg .init where
  reached := .start
  start := Discipline.safe_init fun d ⟨row, hrow, _⟩ => nomatch hrow
  known s h := reachable_base h
  moves s l s' h _ hstep := grows_of_step h hstep
  admits s i a c k _ _ hok hp := by
    rintro rfl d rows rfl
    exact (hok d rows (Pool.pending_of_progs hp)).1
  others s i a c k r w _ _ hok hp hx _ j c' k' hji hj hemb d hd := by
    rcases exec_cases hx with ⟨-, -, -, -, rfl⟩ | ⟨v, -, hreply, hdoes⟩
    · exact ⟨hd, .refl d _⟩
    refine ⟨?_, OldChunks.of_does hdoes fun rows he => ?_⟩
    · rw [World.documentOf, handled_of_does hdoes]
      exact hd
    · subst he
      obtain rfl : a = .ok := by
        cases a <;> simp [reply] at hreply
        rfl
      exact (hok d rows (Pool.pending_of_progs hp)).2 j c'
        (Pool.pending_of_progs hj) hemb hd
  env s l w _ hsafe _ hmove _ hg := by
    have hdb := db_of_envMove hmove
    refine ⟨?_, fun j c k _ _ _ d hd => ⟨?_, ?_⟩⟩
    · show EmbeddedMeans w.db
      rw [hdb]
      exact hsafe.1
    · exact hg.documentOf hd
    · rw [hdb]
      exact .refl d _
  upload s i upload title tenantId _ _ _ _ _ := by
    refine Api.upload_keeps (K := fun _ => True)
      ((keeps_unembedding fun _ _ _ _ => trivial).mono fun c hc => ?_) _ _ _ trivial
    cases c <;> first | exact hc.1 | trivial
  retryRequest s i documentId _ _ _ _ _ := by
    refine Api.retryAction_keeps (K := fun _ => True)
      ((keeps_unembedding fun _ _ _ _ => trivial).mono fun c hc => ?_) _ trivial
    cases c <;> trivial
  consumer s i S n copy w _ _ _ _ hi _ hw hb _ := by
    obtain ⟨hwork, -, -⟩ := hb.delivered hi hw
    by_cases hS : S = .embed
    · subst hS
      exact wp_mono (Embedder.onMessage_keeps Embedder.keeps_handling
        (fun _ => unembedding_of_settling) trivial (Embedder.handle_means hwork.handles))
        (fun _ _ _ => trivial) fun _ _ _ => trivial
    · exact (keeps_unembedding (K := fun _ => True) fun _ _ _ _ => trivial).calls
        ((consumer_calls cfg S copy.message).mono fun _ => unembedding_of_consumer hS) trivial

/-- **Embedded means embedded** in a run in which chunks are inserted in time: the
document has chunks, and each has its embedding. -/
theorem embedded_means_embedded {cfg : Config} {s : Sys} (h : Reachable cfg insertsInTime s)
    {d : DocId} {row : Document} (hrow : s.world.db.documents d = some row)
    (hs : row.status = .embedded) :
    s.world.db.chunksOf d ≠ [] ∧ ∀ c ∈ s.world.db.chunksOf d, c.embedding.isSome := by
  refine ⟨?_, ((embedded_sound cfg).safe h).1 d ⟨row, hrow, hs⟩⟩
  exact (((reachable_base h).db.rows d row hrow).divided (by rw [hs]; rfl)).1

/-- Whether a step is one of the executions below `n` and inserts chunks, if it
does, while none of them is embedding and nothing is embedded. -/
def inTime (n : Nat) (s : Sys) (l : Label) : Bool :=
  l.execution.all (· < n) && match l with
    | .run i .ok => (s.pending i).all fun
      | .insertChunks d _ => (s.world.db.documents d).all (fun row => row.status ≠ .embedded) &&
        (List.range n).all fun j => (s.pending j).all fun c => !c.embedding
      | _ => true
    | _ => true

theorem insertsInTime_of_inTime {n : Nat} (s : Sys) (l : Label) (hs : ∀ j, n ≤ j → s.progs j = none)
    (h : inTime n s l = true) : insertsInTime s l := by
  cases l with
  | run i a =>
    cases a with
    | ok =>
      intro d rows hp
      have h := (Bool.and_eq_true_iff.mp h).2
      dsimp only at h
      rw [hp, Option.all_some] at h
      obtain ⟨hrow, hj⟩ := Bool.and_eq_true_iff.mp h
      refine ⟨?_, fun j c hc hemb => ?_⟩
      · rintro ⟨row, hd, hst⟩
        rw [hd, Option.all_some] at hrow
        exact absurd hst (of_decide_eq_true hrow)
      · by_cases hn : j < n
        · have := List.all_eq_true.mp hj j (List.mem_range.mpr hn)
          rw [hc, Option.all_some, hemb] at this
          cases this
        · rw [Pool.pending, hs j (Nat.le_of_not_lt hn)] at hc
          cases hc
    | fail | id | text | vectors => trivial
  | upload | retryRequest | deliver | die | redeliver | expire => trivial

/-- At the end of the whole sample run the document is embedded. -/
theorem embedded_means_embedded_sample : ∃ s : Sys, (∃ row, s.world.db.documents 1 = some row ∧
    row.status = .embedded) ∧ s.world.db.chunksOf 1 ≠ [] ∧
      ∀ c ∈ s.world.db.chunksOf 1, c.embedding.isSome := by
  obtain ⟨s, hs, hstatus⟩ := exists_run (Reaches.guarded (step sampleConfig) (inTime 4)) .init
    wholeRun (fun s => (s.world.db.documents 1).map Document.status = some .embedded) (by decide)
  obtain ⟨row, hrow, hrs⟩ := Option.map_eq_some_iff.mp hstatus
  obtain ⟨hreach, -⟩ := reachable_of_below (fun _ _ h => (Bool.and_eq_true_iff.mp h).1)
    insertsInTime_of_inTime hs
  exact ⟨s, ⟨row, hrow, hrs⟩, embedded_means_embedded hreach hrow hrs⟩

/-- The chunk message is delivered to executions 2 and 3, because the broker takes
it back from 2.  Execution 3 stops right before its insert, 2 hands the document
on, execution 4 embeds it, and then 3 inserts its chunks. -/
def replacedRun : List Label :=
  uploadRun ++ ocrRun 1 ++ .deliver 2 .chunk 0 :: .redeliver 2 :: .deliver 3 .chunk 0 ::
    answers 3 [.ok, .ok, .ok, .ok] ++ answers 2 [.ok, .ok, .ok, .ok, .ok, .ok, .ok, .ok, .id ['e'], .ok] ++
    embedRun 4 ++ [.run 3 .ok]

/-- **A document can be `embedded` and have a chunk without an embedding.** -/
theorem not_embedded_means_embedded : ¬ ∀ (cfg : Config) (s : Sys) (d : DocId) (row : Document),
    Reachable cfg anyStep s → s.world.db.documents d = some row → row.status = .embedded →
      s.world.db.chunksOf d ≠ [] ∧ ∀ c ∈ s.world.db.chunksOf d, c.embedding.isSome := by
  intro hall
  obtain ⟨s, hs, hstatus, hnone⟩ := exists_run (step sampleConfig) .init replacedRun
    (fun s => (s.world.db.documents 1).map Document.status = some .embedded ∧
      ((s.world.db.chunksOf 1).any fun c => c.embedding.isNone) = true) (by decide)
  obtain ⟨row, hrow, hrs⟩ := Option.map_eq_some_iff.mp hstatus
  obtain ⟨c, hc, hcn⟩ := List.any_eq_true.mp hnone
  have hsome := (hall _ s 1 row (.of_run hs) hrow hrs).2 c hc
  rw [Option.isNone_iff_eq_none.mp hcn] at hsome
  cases hsome

end DigitalCip
