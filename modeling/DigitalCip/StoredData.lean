import DigitalCip.EmbeddedDocuments
import DigitalCip.EndToEnd
import DigitalCip.Invariant.Learning

/-!
# What is stored is never wrong

Redelivered messages let handlers of one document overlap, and a handler that is behind
writes over what one that is ahead has written.  The status can suffer from that; the data
does not.  Whatever the interleaving and the faults, a recognised text is one the engine
reads in the document's object, the chunks of a document are all the pieces of one such
text, and a vector is the model's for the content of its own chunk: chunk ids are never
used again, so a batch that comes too late finds no row.
-/

namespace DigitalCip
open Resumable

/-- The data of every document is what the engine, the chunker and the model make of its
object. -/
structure Genuine (cfg : Config) (T : Truth) (w : World) : Prop where
  text : ∀ d row t, w.db.documents d = some row → row.rawText = some t →
    ¬ Blank t ∧ w.Reads T row t
  chunks : ∀ d, w.db.chunksOf d ≠ [] → ∃ row t, w.db.documents d = some row ∧ w.Reads T row t ∧
    (w.db.chunksOf d).map DocumentChunk.row =
      Chunker.chunkRows (Chunker.split t cfg.chunkSize cfg.chunkOverlap)
  models : ∀ c ∈ w.db.chunks, ∀ v, c.embedding = some v → T.models c.content v

/-- What was read of document `d` and is still worth something. -/
structure Learned.Of (known : Learned) (T : Truth) (d : DocId) (w : World) : Prop where
  row : ∀ r, known.row = some r → ∃ row, w.db.documents d = some row ∧ r.Kept row ∧
    ∀ t, r.rawText = some t → w.Reads T row t
  blob : ∀ blob, known.blob = some blob → ∃ row, w.db.documents d = some row ∧
    w.objects row.objectKey = some blob
  pending : ∀ p ∈ known.pending, p.id < w.db.nextChunkId ∧
    ∀ c ∈ w.db.chunks, c.id = p.id → c.content = p.content

section Genuine
variable {cfg : Config} {T : Truth} {w w' : World} {d : DocId} {known : Learned}

theorem Reads.kept {row row' : Document} {t : Text} (h : w.Reads T row t) (hk : row.Kept row')
    (hg : Grows w w') : w'.Reads T row' t := by
  obtain ⟨blob, hblob, hreads⟩ := h
  exact ⟨blob, hk.objectKey ▸ hg.objects _ _ hblob, hk.contentType ▸ hreads⟩

theorem Learned.Of.mono (h : known.Of T d w) (hg : Grows w w') : known.Of T d w' := by
  refine ⟨fun r hr => ?_, fun blob hblob => ?_, fun p hp => ?_⟩
  · obtain ⟨row, hrow, hk, hreads⟩ := h.row r hr
    obtain ⟨row', hrow', hk'⟩ := hg.db.documents d row hrow
    exact ⟨row', hrow', hk.trans hk', fun t ht => Reads.kept (hreads t ht) hk' hg⟩
  · obtain ⟨row, hrow, hobject⟩ := h.blob blob hblob
    obtain ⟨row', hrow', hk⟩ := hg.db.documents d row hrow
    exact ⟨row', hrow', hk.objectKey ▸ hg.objects _ _ hobject⟩
  · obtain ⟨hlt, hcontent⟩ := h.pending p hp
    refine ⟨hlt.trans_le hg.db.nextChunkId, fun c hc hid => ?_⟩
    obtain ⟨c₀, hc₀, hk⟩ := hg.db.oldChunks c hc (hid ▸ hlt)
    exact hk.content.trans (hcontent c₀ hc₀ (hk.id.symm.trans hid))

/-- **What is read is worth something** in a genuine world. -/
theorem Learned.Of.learn {i : Nat} {S : Stage} {env : Envelope} {c : Call} {v : c.Val}
    (h : known.Of T env.documentId w) (hw : Genuine cfg T w) (hb : Base w)
    (hh : Handles w i S env) (hc : Founded cfg T S env known c) (hd : Does i c v w w')
    (hg : Grows w w') : (c.teaches (.ok v) known).Of T env.documentId w' := by
  cases c with
  | fetchDocument d =>
    obtain rfl : d = env.documentId := hc
    obtain ⟨rfl, rfl⟩ := hd
    refine ⟨fun r hr => ⟨r, hr, .refl r, fun t ht => (hw.text _ r t hr ht).2⟩, h.blob, h.pending⟩
  | downloadObject key =>
    obtain ⟨rfl, row, hrow, hkey⟩ := hc
    obtain ⟨hblob, rfl⟩ := hd
    refine ⟨h.row, fun blob he => ?_, h.pending⟩
    obtain rfl := Option.some.inj he
    obtain ⟨hready, hstage⟩ := hh.ready hb
    unfold Db.Ready at hready
    rw [hstage] at hready
    obtain ⟨row', hrow', hpayload⟩ := hready
    rw [hpayload, Option.getD_some] at hkey
    exact ⟨row', hrow', hkey ▸ hblob⟩
  | fetchChunksWithoutEmbedding d =>
    obtain rfl : d = env.documentId := hc
    obtain ⟨rfl, rfl⟩ := hd
    refine ⟨h.row, h.blob, fun p hp => ?_⟩
    obtain ⟨c, hmem, hid, hcontent⟩ := of_mem_chunksWithoutEmbedding hp
    obtain ⟨hmem, -⟩ := Db.mem_chunksOf.mp hmem
    refine ⟨hid ▸ hb.db.chunkIds_lt c hmem, fun c' hc' he => ?_⟩
    rw [List.inj_on_of_nodup_map hb.db.chunkIds hc' hmem (he.trans hid.symm), hcontent]
  | _ => exact h.mono hg

/-- A call that a handler may make after what it has read, or one of a request. -/
def Sound (cfg : Config) (T : Truth) (w : World) (c : Call) : Prop :=
  Api.RequestCall c ∨
    ∃ S env known, known.Of T env.documentId w ∧ Founded cfg T S env known c

variable {i : Nat} {c : Call} {v : c.Val}

theorem Genuine.text_does (h : Genuine cfg T w) (hg : Grows w w') (hd : Does i c v w w')
    (hc : Sound cfg T w c) {row' : Document} {t : Text} (hrow' : w'.db.documents d = some row')
    (ht : row'.rawText = some t) : ¬ Blank t ∧ w'.Reads T row' t := by
  rcases of_documents_of_does hd hrow' with hrow | ⟨u, row, rfl, hrow, rfl⟩ | ⟨stored, rfl⟩
  · exact (h.text d row' t hrow ht).imp_right fun hreads => hreads.mono hg
  · obtain ⟨r, hr, hk⟩ := hg.db.documents d row hrow
    obtain rfl := Option.some.inj (hrow'.symm.trans hr)
    suffices ¬ Blank t ∧ w.Reads T row t from this.imp_right fun hreads => Reads.kept hreads hk hg
    rcases Option.or_eq_some_iff.mp ht with hu | ⟨-, hold⟩
    · -- the text is the one the engine has read in the object
      obtain ⟨S, env, known, hknown, rfl, hfounded⟩ := hc.resolve_left id
      obtain ⟨hblank, r, blob, hr, hblob, hreads⟩ := hfounded t hu
      obtain ⟨row₁, hrow₁, hk₁, -⟩ := hknown.row r hr
      obtain ⟨row₂, hrow₂, hobject⟩ := hknown.blob blob hblob
      obtain rfl := Option.some.inj (hrow.symm.trans hrow₁)
      obtain rfl := Option.some.inj (hrow.symm.trans hrow₂)
      exact ⟨hblank, blob, hobject, hk₁.contentType ▸ hreads⟩
    · exact h.text d row t hrow hold
  · rcases hc with hc | ⟨S, env, known, -, hc⟩
    · rw [hc.2] at ht
      cases ht
    · exact hc.elim

/-- Chunks that are the pieces of a text stay the pieces of it. -/
theorem Genuine.chunks_does (h : Genuine cfg T w) (hg : Grows w w') (hd : Does i c v w w')
    (hc : Sound cfg T w c) (hne : w'.db.chunksOf d ≠ []) :
    ∃ row t, w'.db.documents d = some row ∧ w'.Reads T row t ∧
      (w'.db.chunksOf d).map DocumentChunk.row =
        Chunker.chunkRows (Chunker.split t cfg.chunkSize cfg.chunkOverlap) := by
  have hkeep : ∀ {row t}, w.db.documents d = some row → w.Reads T row t →
      (w'.db.chunksOf d).map DocumentChunk.row =
        Chunker.chunkRows (Chunker.split t cfg.chunkSize cfg.chunkOverlap) →
      ∃ row t, w'.db.documents d = some row ∧ w'.Reads T row t ∧
        (w'.db.chunksOf d).map DocumentChunk.row =
          Chunker.chunkRows (Chunker.split t cfg.chunkSize cfg.chunkOverlap) := by
    intro row t hrow hreads hrows
    obtain ⟨row', hrow', hk⟩ := hg.db.documents d row hrow
    exact ⟨row', t, hrow', Reads.kept hreads hk hg, hrows⟩
  have hsame : (w'.db.chunksOf d).map DocumentChunk.row = (w.db.chunksOf d).map DocumentChunk.row →
      ∃ row t, w'.db.documents d = some row ∧ w'.Reads T row t ∧
        (w'.db.chunksOf d).map DocumentChunk.row =
          Chunker.chunkRows (Chunker.split t cfg.chunkSize cfg.chunkOverlap) := by
    intro he
    have hold : w.db.chunksOf d ≠ [] := by
      intro hnil
      rw [hnil, List.map_nil, List.map_eq_nil_iff] at he
      exact hne he
    obtain ⟨row, t, hrow, hreads, hrows⟩ := h.chunks d hold
    exact hkeep hrow hreads (he.trans hrows)
  by_cases hinsert : ∃ rows, c = .insertChunks d rows
  · obtain ⟨rows, rfl⟩ := hinsert
    obtain ⟨S, env, known, hknown, rfl, r, t, hr, ht, rfl⟩ := hc.resolve_left id
    obtain ⟨row, hrow, hk, hreads⟩ := hknown.row r hr
    refine hkeep hrow (hreads t ht) ?_
    obtain rfl := hd
    rw [Db.chunksOf_insertChunks_self, Chunker.map_row_newChunk]
  · refine hsame ?_
    cases c with
    | insertChunks d' rows =>
      obtain rfl := hd
      have hdd : d ≠ d' := by
        rintro rfl
        exact hinsert ⟨rows, rfl⟩
      rw [Db.chunksOf_insertChunks_of_ne hdd]
    | writeEmbeddings rows =>
      obtain rfl := hd
      rw [chunksOf_writeEmbeddings, List.map_map]
      refine List.map_congr_left fun x _ => ?_
      obtain ⟨-, -, hposition, hcontent, htokens, -⟩ := kept_embedRow rows x
      simp only [Function.comp, DocumentChunk.row, hposition, hcontent, htokens]
    | _ =>
      have hchunks := chunks_eq_of_does hd (by simp) (by simp)
      unfold Db.chunksOf
      rw [hchunks]

theorem Genuine.models_does (h : Genuine cfg T w) (hd : Does i c v w w') (hc : Sound cfg T w c)
    {x : DocumentChunk} (hx : x ∈ w'.db.chunks) {vector : Vec} (hv : x.embedding = some vector) :
    T.models x.content vector := by
  cases c with
  | insertChunks d' rows =>
    obtain rfl := hd
    rcases List.mem_append.mp hx with hold | hnew
    · exact h.models x (List.mem_filter.mp hold).1 vector hv
    · obtain ⟨n, hn, rfl⟩ := List.mem_mapIdx.mp hnew
      cases hv
  | writeEmbeddings rows =>
    obtain ⟨S, env, known, hknown, hfounded⟩ := hc.resolve_left id
    obtain rfl := hd
    rw [writeEmbeddings_chunks] at hx
    obtain ⟨c₀, hc₀, rfl⟩ := List.mem_map.mp hx
    rw [(kept_embedRow rows c₀).content]
    rcases embedding_embedRow rows c₀ with hold | ⟨v', hmem, hnew⟩
    · exact h.models c₀ hc₀ vector (hold ▸ hv)
    · -- the chunk has the content that was fetched under its id
      obtain ⟨p, hp, hid, hmodels⟩ := hfounded _ hmem
      obtain rfl := Option.some.inj (hv.symm.trans hnew)
      rw [(hknown.pending p hp).2 c₀ hc₀ hid.symm]
      exact hmodels
  | _ =>
    rw [chunks_eq_of_does hd (by simp) (by simp)] at hx
    exact h.models x hx vector hv

/-- **A sound call keeps the data genuine.** -/
theorem Genuine.does (h : Genuine cfg T w) (hg : Grows w w') (hd : Does i c v w w')
    (hc : Sound cfg T w c) : Genuine cfg T w' :=
  ⟨fun _ _ _ hrow ht => h.text_does hg hd hc hrow ht, fun _ hne => h.chunks_does hg hd hc hne,
    fun _ hx _ hv => h.models_does hd hc hx hv⟩

/-! ## All runs -/

/-- An execution is a request, or a handler that writes what it has computed. -/
def Founding (cfg : Config) (T : Truth) (i : Nat) (p : Program Unit) (w : World) : Prop :=
  p.Calls Api.RequestCall ∨ ∃ S env known, Handles w i S env ∧ Founds cfg T S env p known ∧
    known.Of T env.documentId w

theorem says_of_reply {a : Answer} (ha : T.Admits c a) (hr : reply i c a w = some (v, w')) :
    T.Says c (.ok v) := by
  cases c with
  | extractText blob contentType =>
    cases a <;> simp only [reply, reduceCtorEq] at hr
    obtain ⟨rfl, -⟩ := Prod.mk.inj (Option.some.inj hr)
    exact ha
  | embedBatch texts =>
    cases a <;> simp only [reply, reduceCtorEq] at hr
    split at hr
    · obtain ⟨rfl, -⟩ := Prod.mk.inj (Option.some.inj hr)
      exact ha
    · cases hr
  | _ => trivial

/-- The steps of a run in which the engine and the model are truthful and the data is
genuine so far. -/
def genuineRun (cfg : Config) (T : Truth) (s : Sys) (l : Label) : Prop :=
  truthful T s l ∧ Genuine cfg T s.world

theorem founding_tracks (cfg : Config) (T : Truth) :
    Tracks cfg (genuineRun cfg T) (Founding cfg T) where
  stable s l s' i p hs _ hstep _ _ h := by
    have hg := grows_of_step hs hstep
    rcases h with h | ⟨S, env, known, hh, hp, hknown⟩
    · exact Or.inl h
    · exact Or.inr ⟨S, env, known, hh.mono hg, hp, hknown.mono hg⟩
  upload s i u t x _ _ _ :=
    Or.inl (.bind ((Api.createDocument_calls cfg u t x).mono fun _ => Api.request_of_upload)
      fun _ => trivial)
  retryRequest s i d _ _ _ := Or.inl (.bind (Api.retryAction_requests d) fun _ => trivial)
  consumer s i S n copy w _ _ hi hb hw := by
    obtain ⟨hworking, -, -⟩ := hb.delivered hi hw
    refine Or.inr ⟨S, copy.message.body, {}, hworking.handles, consumer_founds cfg T S _ _, ?_⟩
    constructor
    · exact fun _ h => by cases h
    · exact fun _ h => by cases h
    · exact fun _ h => by cases h
  run s i a c k r w hs hl hp hx hg h := by
    rcases h with h | ⟨S, env, known, hh, hfounds, hknown⟩
    · exact Or.inl (h.2 r)
    refine Or.inr ⟨S, env, c.teaches r known, hh.mono hg, ?_, ?_⟩
    · refine hfounds.2 r _ ⟨?_, rfl⟩
      rcases exec_cases hx with ⟨reason, -, rfl, -, -⟩ | ⟨v, rfl, hreply, -⟩
      · cases c <;> trivial
      · exact says_of_reply (hl.1 c (Pool.pending_of_progs hp)) hreply
    · rcases exec_cases hx with ⟨reason, -, rfl, -, rfl⟩ | ⟨v, rfl, -, hd⟩
      · exact (teaches_error (c := c) reason).symm ▸ hknown
      · exact hknown.learn hl.2 (reachable_base hs) hh hfounds.1 hd hg
  died _ _ _ := Or.inl trivial

theorem Founding.sound {p : Call.Reply c → Program Unit} (h : Founding cfg T i (.call c p) w) :
    Sound cfg T w c := by
  rcases h with h | ⟨S, env, known, -, hfounds, hknown⟩
  · exact Or.inl h.1
  · exact Or.inr ⟨S, env, known, hknown, hfounds.1⟩

variable {s : Sys}

theorem genuine_of_genuineRun (h : Reachable cfg (genuineRun cfg T) s) : Genuine cfg T s.world := by
  refine (founding_tracks cfg T).keeps ⟨?_, ?_, ?_⟩ ?_ ?_ h
  · exact fun d row t hrow => by cases hrow
  · exact fun d hne => absurd rfl hne
  · exact fun c hc => by cases hc
  · rintro w w' hdb hobjects - ⟨h₁, h₂, h₃⟩
    have hreads : ∀ {row t}, w.Reads T row t → w'.Reads T row t := by
      rintro row t ⟨blob, hblob, h⟩
      exact ⟨blob, hobjects ▸ hblob, h⟩
    rw [← hdb] at h₁ h₂ h₃
    refine ⟨fun d row t hrow ht => (h₁ d row t hrow ht).imp_right hreads, fun d hne => ?_, h₃⟩
    obtain ⟨row, t, hrow, ht, hrows⟩ := h₂ d hne
    exact ⟨row, t, hrow, hreads ht, hrows⟩
  · intro s i c k v w _ _ hk hd _ hg hw
    exact hw.does hg hd hk.sound

/-- **The data is genuine in every run** whose engine and model are truthful. -/
theorem genuine_of_reachable (h : Reachable cfg (truthful T) s) : Genuine cfg T s.world :=
  genuine_of_genuineRun (h.imp fun _ _ _ _ hs hl _ => ⟨hl, genuine_of_genuineRun hs⟩)

end Genuine

/-- **What is stored is never wrong**, whatever overlaps, fails or dies: a recognised text
is the one of the document's object, the chunks are none or all its pieces, and a vector
is the model's for its own chunk.  Once the status says that there are chunks, they are
the pieces of the text in the row. -/
theorem stored_data_never_wrong {cfg : Config} {ocr : Blob → Text → Text} {model : Text → Vec}
    {s : Sys} (h : Reachable cfg (truthful (Truth.of ocr model)) s) {d : DocId} {row : Document}
    (hrow : s.world.db.documents d = some row) :
    ∃ blob, s.world.objects row.objectKey = some blob ∧
      (∀ t, row.rawText = some t → t = ocr blob row.contentType ∧ ¬ Blank t) ∧
      (s.world.db.chunksOf d ≠ [] → (s.world.db.chunksOf d).map DocumentChunk.row =
        Chunker.chunkRows
          (Chunker.split (ocr blob row.contentType) cfg.chunkSize cfg.chunkOverlap)) ∧
      (∀ c ∈ s.world.db.chunksOf d, ∀ v, c.embedding = some v → v = model c.content) ∧
      (row.status.divided = true → row.rawText = some (ocr blob row.contentType) ∧
        s.world.db.chunksOf d ≠ []) := by
  have hgenuine := genuine_of_reachable h
  have hb := reachable_base h
  obtain ⟨blob, hblob, -⟩ := hb.files.stored d row hrow
  have hreads : ∀ {t}, s.world.Reads (Truth.of ocr model) row t → t = ocr blob row.contentType := by
    rintro t ⟨blob', hblob', rfl⟩
    rw [Option.some.inj (hblob.symm.trans hblob')]
  have htext : ∀ t, row.rawText = some t → t = ocr blob row.contentType ∧ ¬ Blank t := by
    intro t ht
    obtain ⟨hblank, ht'⟩ := hgenuine.text d row t hrow ht
    exact ⟨hreads ht', hblank⟩
  refine ⟨blob, hblob, htext, fun hne => ?_, fun c hc v hv => ?_, fun hs => ?_⟩
  · obtain ⟨row', t, hrow', ht, hrows⟩ := hgenuine.chunks d hne
    obtain rfl := Option.some.inj (hrow.symm.trans hrow')
    rw [hrows, hreads ht]
  · exact hgenuine.models c (Db.mem_chunksOf.mp hc).1 v hv
  · have hrecognised : row.status.recognised = true := by
      revert hs
      cases row.status <;> decide
    obtain ⟨⟨t, ht, -⟩, -⟩ := (hb.db.rows d row hrow).recognised hrecognised
    exact ⟨ht.trans (congrArg some (htext t ht).1), ((hb.db.rows d row hrow).divided hs).1⟩

/-- The engine reads the sample text, and the model is asked for it alone. -/
def readsSample (s : Sys) : Label → Bool
  | .run _ (.text t _) => t = sampleText
  | .run i (.vectors _) => match s.pending i with
    | some (.embedBatch texts) => texts = [sampleText]
    | _ => true
  | _ => true

theorem truthful_of_readsSample {s : Sys} {l : Label} (h : readsSample s l = true) (hl : l.Embeds) :
    truthful (Truth.of (fun _ _ => sampleText) sampleModel) s l := by
  cases l with
  | run i a =>
    intro c hc
    cases a with
    | text t pages =>
      obtain rfl := of_decide_eq_true h
      cases c <;> trivial
    | vectors vs =>
      obtain rfl : vs = [sampleModel sampleText] := hl
      cases c with
      | embedBatch texts =>
        dsimp only [readsSample] at h
        rw [hc] at h
        obtain rfl := of_decide_eq_true h
        exact .cons rfl .nil
      | _ => trivial
    | _ => cases c <;> trivial
  | _ => trivial

theorem embeds_of_mem_replacedRun : ∀ l ∈ replacedRun, l.Embeds := by
  simp [replacedRun, uploadRun, ocrRun, embedRun, answers, Label.Embeds]

/-- The run after which a document is `embedded` and its chunk has no vector: the chunk is
the right one all the same. -/
theorem stored_data_never_wrong_replaced : ∃ (s : Sys) (row : Document),
    s.world.db.documents 1 = some row ∧ row.status = .embedded ∧
      (s.world.db.chunksOf 1).any (fun c => c.embedding.isNone) = true ∧
      row.rawText = some sampleText ∧ (s.world.db.chunksOf 1).map DocumentChunk.row =
        Chunker.chunkRows (Chunker.split sampleText 200 20) := by
  obtain ⟨s, hs, hstatus, hnone⟩ := exists_run (Reaches.guarded (step sampleConfig) readsSample) .init
    replacedRun (fun s => (s.world.db.documents 1).map Document.status = some .embedded ∧
      ((s.world.db.chunksOf 1).any fun c => c.embedding.isNone) = true) (by decide)
  obtain ⟨row, hrow, hrs⟩ := Option.map_eq_some_iff.mp hstatus
  classical
  have hreach : Reachable sampleConfig (truthful (Truth.of (fun _ _ => sampleText) sampleModel)) s :=
    .of_guarded (fun s l h => truthful_of_readsSample (Bool.and_eq_true_iff.mp h).1
      (of_decide_eq_true (Bool.and_eq_true_iff.mp h).2))
      (Reaches.run_guarded_and embeds_of_mem_replacedRun hs)
  obtain ⟨blob, -, -, hchunks, -, hdivided⟩ := stored_data_never_wrong hreach hrow
  obtain ⟨htext, hne⟩ := hdivided (by rw [hrs]; rfl)
  exact ⟨s, row, hrow, hrs, hnone, htext, hchunks hne⟩

end DigitalCip
