import DigitalCip.Invariant.Growth

/-!
# Consistent rows

What the columns of a document say must agree with its status and with the
chunks that are stored for it.  `Db.Ok` says this of every row, together with
what the sequences guarantee, and each statement of the workers and the API
keeps it under the condition its caller meets.
-/

namespace DigitalCip

/-- The states a document is in once its text has been recognised. -/
def Status.recognised : Status → Bool
  | .ocrCompleted | .chunking | .chunked | .embedding | .embedded => true
  | .uploaded | .ocrProcessing | .failed => false

/-- The states a document is in once its chunks have been stored. -/
def Status.divided : Status → Bool
  | .chunked | .embedding | .embedded => true
  | .uploaded | .ocrProcessing | .ocrCompleted | .chunking | .failed => false

/-- The columns of a row agree with its status. -/
structure Document.Consistent (row : Document) (chunks : List DocumentChunk) : Prop where
  recognised : row.status.recognised = true → row.TextReady
  divided : row.status.divided = true → chunks ≠ [] ∧ row.chunkedAt.isSome
  embedded : row.status = .embedded → row.embeddedAt.isSome
  failed : row.status = .failed → row.failureReason.isSome ∧ row.failedAt.isSome

/-- The database between any two statements. -/
structure Db.Ok (db : Db) : Prop where
  positive : 0 < db.nextDocumentId
  unnumbered : db.documents 0 = none
  unused : ∀ d, db.nextDocumentId ≤ d → db.documents d = none
  rows : ∀ d row, db.documents d = some row → row.Consistent (db.chunksOf d)
  chunkIds : (db.chunks.map DocumentChunk.id).Nodup
  chunkIds_lt : ∀ c ∈ db.chunks, c.id < db.nextChunkId

namespace Db.Ok
variable {db : Db}

theorem empty : Db.Ok .empty :=
  ⟨Nat.one_pos, rfl, fun _ _ => rfl, fun _ _ h => (nomatch h), List.nodup_nil, fun _ h => (nomatch h)⟩

/-- A statement that leaves documents and chunks alone. -/
theorem of_eq {db' : Db} (h : db.Ok) (hdocs : db'.documents = db.documents)
    (hnext : db'.nextDocumentId = db.nextDocumentId) (hchunks : db'.chunks = db.chunks)
    (hnextChunk : db'.nextChunkId = db.nextChunkId) : db'.Ok := by
  obtain ⟨hpos, h₀, hunused, hrows, hids, hlt⟩ := h
  refine ⟨by rwa [hnext], by rwa [hdocs], by rwa [hdocs, hnext], ?_, by rwa [hchunks], by rwa [hchunks, hnextChunk]⟩
  unfold chunksOf
  rwa [hdocs, hchunks]

theorem recordEvent (h : db.Ok) (e : ProcessingEvent) : (db.recordEvent e).Ok :=
  h.of_eq rfl rfl rfl rfl

theorem recordProcessed (h : db.Ok) (i : Nat) (row : ProcessedMessage) :
    (db.recordProcessed i row).Ok :=
  h.of_eq rfl rfl rfl rfl

/-- An update must leave its row consistent. -/
theorem updateDocument (h : db.Ok) {d : DocId} {u : DocumentUpdate}
    (hu : ∀ row, db.documents d = some row → (u.apply row).Consistent (db.chunksOf d)) :
    (db.updateDocument d u).Ok := by
  refine ⟨h.positive, ?_, fun d' hd' => ?_, fun d' row' hd' => ?_, h.chunkIds, h.chunkIds_lt⟩
  · rw [updateDocument_documents]
    split
    · rename_i he
      rw [← he, h.unnumbered]
      rfl
    · exact h.unnumbered
  · rw [updateDocument_documents]
    split
    · rename_i he
      rw [← he, h.unused d' hd']
      rfl
    · exact h.unused d' hd'
  · rw [updateDocument_documents] at hd'
    split at hd'
    · rename_i he
      subst he
      obtain ⟨row, hrow, rfl⟩ := Option.map_eq_some_iff.mp hd'
      exact hu row hrow
    · exact h.rows d' row' hd'

theorem insertChunks (h : db.Ok) (d : DocId) {rows : List ChunkRow} (hrows : rows ≠ []) :
    (db.insertChunks d rows).Ok := by
  have hold : ∀ c ∈ db.chunks.filter (fun c => c.documentId ≠ d), c.id < db.nextChunkId :=
    fun c hc => h.chunkIds_lt c (List.mem_filter.mp hc).1
  have hnew : ∀ c ∈ rows.mapIdx fun i row => newChunk d db.nextChunkId row i,
      db.nextChunkId ≤ c.id ∧ c.id < db.nextChunkId + rows.length := by
    intro c hc
    obtain ⟨n, hn, rfl⟩ := List.mem_mapIdx.mp hc
    exact ⟨Nat.le_add_right _ _, Nat.add_lt_add_left hn _⟩
  refine ⟨h.positive, h.unnumbered, h.unused, fun d' row hd' => ?_, ?_, fun c hc => ?_⟩
  · have hrow := h.rows d' row hd'
    refine ⟨hrow.recognised, fun hs => ⟨?_, (hrow.divided hs).2⟩, hrow.embedded, hrow.failed⟩
    exact (grows_insertChunks db d rows hrows).chunks d' (hrow.divided hs).1
  · rw [insertChunks_chunks, List.map_append]
    refine List.nodup_append.mpr ⟨(List.filter_sublist.map _).nodup h.chunkIds, ?_, ?_⟩
    · have hmap : (rows.mapIdx fun i row => newChunk d db.nextChunkId row i).map DocumentChunk.id
          = (List.range rows.length).map (db.nextChunkId + ·) := by
        refine List.ext_getElem (by simp) fun n h₁ h₂ => ?_
        simp [newChunk]
      rw [hmap]
      exact (List.nodup_range).map fun a b hab => Nat.add_left_cancel hab
    · intro a ha b hb hab
      obtain ⟨c, hc, rfl⟩ := List.mem_map.mp ha
      obtain ⟨c', hc', rfl⟩ := List.mem_map.mp hb
      exact absurd hab (ne_of_lt ((hold c hc).trans_le (hnew c' hc').1))
  · rw [insertChunks_nextChunkId]
    rw [insertChunks_chunks] at hc
    rcases List.mem_append.mp hc with hc | hc
    · exact (hold c hc).trans_le (Nat.le_add_right _ _)
    · exact (hnew c hc).2

theorem map_id_writeEmbeddings (rows : List (ChunkId × Vec)) (chunks : List DocumentChunk) :
    (rows.foldl (fun chunks row => chunks.map (setEmbedding row.1 row.2)) chunks).map
      DocumentChunk.id = chunks.map DocumentChunk.id := by
  induction rows generalizing chunks with
  | nil => rfl
  | cons row rows ih =>
    rw [List.foldl_cons, ih, List.map_map]
    refine List.map_congr_left fun c _ => ?_
    simp only [Function.comp, setEmbedding]
    split <;> rfl

theorem writeEmbeddings (h : db.Ok) (rows : List (ChunkId × Vec)) : (db.writeEmbeddings rows).Ok := by
  refine ⟨h.positive, h.unnumbered, h.unused, fun d row hd => ?_, ?_, fun c hc => ?_⟩
  · have hrow := h.rows d row hd
    refine ⟨hrow.recognised, fun hs => ⟨?_, (hrow.divided hs).2⟩, hrow.embedded, hrow.failed⟩
    exact (grows_writeEmbeddings db rows).chunks d (hrow.divided hs).1
  · show (List.map _ (rows.foldl _ db.chunks)).Nodup
    rw [map_id_writeEmbeddings]
    exact h.chunkIds
  · obtain ⟨c₀, hc₀, hk⟩ := kept_writeEmbeddings hc
    rw [hk.id]
    exact h.chunkIds_lt c₀ hc₀

/-- A new document is consistent as long as it is `uploaded`. -/
theorem insertDocument (h : db.Ok) {row : Document} (hrow : row.status = .uploaded) :
    (db.insertDocument row).Ok := by
  refine ⟨Nat.succ_pos _, ?_, fun d hd => ?_, fun d row' hd => ?_, h.chunkIds, h.chunkIds_lt⟩
  · rw [insertDocument_documents, if_neg h.positive.ne, h.unnumbered]
  · rw [insertDocument_nextDocumentId] at hd
    rw [insertDocument_documents, if_neg (Nat.ne_of_gt hd)]
    exact h.unused d (Nat.le_of_succ_le hd)
  · rw [insertDocument_documents] at hd
    split at hd
    · obtain rfl := Option.some.inj hd
      constructor <;> simp [hrow, Status.recognised, Status.divided]
    · exact h.rows d row' hd

end Db.Ok
end DigitalCip
