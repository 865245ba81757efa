import DigitalCip.World

/-!
# What never goes back

No step of the system takes back a document, a recognised text, the chunks of a
document, a dedupe row, an accepted message or a stored object.  `Grows w w'`
says that `w'` has all of these that `w` has; the facts a handler learns from the
database are mostly of this kind, so they survive whatever else runs meanwhile.
-/

namespace DigitalCip

/-- The OCR stage is done: a text that is not blank, and the time. -/
def Document.TextReady (row : Document) : Prop :=
  (∃ t, row.rawText = some t ∧ ¬ Blank t) ∧ row.ocrCompletedAt.isSome

/-- What a row keeps for good: what the upload set, and what the stages have
filled in. -/
structure Document.Kept (row row' : Document) : Prop where
  objectKey : row'.objectKey = row.objectKey
  contentType : row'.contentType = row.contentType
  tenantId : row'.tenantId = row.tenantId
  byteSize : row'.byteSize = row.byteSize
  text : row.TextReady → row'.TextReady
  chunkedAt : row.chunkedAt.isSome → row'.chunkedAt.isSome
  embeddedAt : row.embeddedAt.isSome → row'.embeddedAt.isSome
  failure : row.failureReason.isSome ∧ row.failedAt.isSome →
    row'.failureReason.isSome ∧ row'.failedAt.isSome

theorem Document.Kept.refl (row : Document) : row.Kept row :=
  ⟨rfl, rfl, rfl, rfl, id, id, id, id⟩

theorem Document.Kept.trans {a b c : Document} (h : a.Kept b) (h' : b.Kept c) : a.Kept c :=
  ⟨h'.objectKey.trans h.objectKey, h'.contentType.trans h.contentType,
    h'.tenantId.trans h.tenantId, h'.byteSize.trans h.byteSize, h'.text ∘ h.text,
    h'.chunkedAt ∘ h.chunkedAt, h'.embeddedAt ∘ h.embeddedAt, h'.failure ∘ h.failure⟩

/-- A chunk row that was already there, up to its embedding. -/
structure DocumentChunk.Kept (c c' : DocumentChunk) : Prop where
  id : c'.id = c.id
  documentId : c'.documentId = c.documentId
  position : c'.position = c.position
  content : c'.content = c.content
  tokenCount : c'.tokenCount = c.tokenCount
  embedding : c.embedding.isSome → c'.embedding.isSome

theorem DocumentChunk.Kept.refl (c : DocumentChunk) : c.Kept c := ⟨rfl, rfl, rfl, rfl, rfl, fun h => h⟩

theorem DocumentChunk.Kept.trans {a b c : DocumentChunk} (h : a.Kept b) (h' : b.Kept c) :
    a.Kept c :=
  ⟨h'.id.trans h.id, h'.documentId.trans h.documentId, h'.position.trans h.position,
    h'.content.trans h.content, h'.tokenCount.trans h.tokenCount, h'.embedding ∘ h.embedding⟩

/-- The database has what it had. -/
structure Db.Grows (db db' : Db) : Prop where
  documents : ∀ d row, db.documents d = some row →
    ∃ row', db'.documents d = some row' ∧ row.Kept row'
  chunks : ∀ d, db.chunksOf d ≠ [] → db'.chunksOf d ≠ []
  nextChunkId : db.nextChunkId ≤ db'.nextChunkId
  oldChunks : ∀ c' ∈ db'.chunks, c'.id < db.nextChunkId → ∃ c ∈ db.chunks, c.Kept c'
  processed : ∀ m row, db.processed m = some row → db'.processed m = some row

/-- The broker has what it had; a delivery stays the delivery of its copy. -/
structure Broker.Grows (b b' : Broker) : Prop where
  accepted : ∀ p ∈ b.accepted, p ∈ b'.accepted
  settled : ∀ p ∈ b.settled, p ∈ b'.settled
  nextCopy : b.nextCopy ≤ b'.nextCopy
  deliveries : ∀ i d, b.deliveries i = some d →
    ∃ d', b'.deliveries i = some d' ∧ d'.copy = d.copy ∧ d'.queue = d.queue ∧
      (d'.unsettled → d.unsettled)

/-- The world has what it had. -/
structure Grows (w w' : World) : Prop where
  db : w.db.Grows w'.db
  broker : w.broker.Grows w'.broker
  objects : ∀ k blob, w.objects k = some blob → w'.objects k = some blob
  ids : ∀ p ∈ w.ids, p ∈ w'.ids
  created : ∀ p ∈ w.created, p ∈ w'.created

namespace Db.Grows

theorem refl (db : Db) : db.Grows db :=
  ⟨fun _ row h => ⟨row, h, .refl row⟩, fun _ => id, le_refl _, fun c hc _ => ⟨c, hc, .refl c⟩,
    fun _ _ => id⟩

theorem trans {a b c : Db} (h : a.Grows b) (h' : b.Grows c) : a.Grows c := by
  refine ⟨?_, fun d hd => h'.chunks d (h.chunks d hd), h.nextChunkId.trans h'.nextChunkId, ?_,
    fun m row hm => h'.processed m row (h.processed m row hm)⟩
  · intro d row hd
    obtain ⟨row', hd', hk⟩ := h.documents d row hd
    obtain ⟨row'', hd'', hk'⟩ := h'.documents d row' hd'
    exact ⟨row'', hd'', hk.trans hk'⟩
  · intro x hx hlt
    obtain ⟨y, hy, hk'⟩ := h'.oldChunks x hx (hlt.trans_le h.nextChunkId)
    obtain ⟨z, hz, hk⟩ := h.oldChunks y hy (hk'.id ▸ hlt)
    exact ⟨z, hz, hk.trans hk'⟩

end Db.Grows

namespace Broker.Grows

theorem refl (b : Broker) : b.Grows b :=
  ⟨fun _ => id, fun _ => id, le_refl _, fun _ d h => ⟨d, h, rfl, rfl, id⟩⟩

theorem trans {a b c : Broker} (h : a.Grows b) (h' : b.Grows c) : a.Grows c := by
  refine ⟨fun p hp => h'.accepted p (h.accepted p hp), fun p hp => h'.settled p (h.settled p hp),
    h.nextCopy.trans h'.nextCopy, ?_⟩
  intro i d hd
  obtain ⟨d', hd', hc, hq, hu⟩ := h.deliveries i d hd
  obtain ⟨d'', hd'', hc', hq', hu'⟩ := h'.deliveries i d' hd'
  exact ⟨d'', hd'', hc'.trans hc, hq'.trans hq, hu ∘ hu'⟩

end Broker.Grows

namespace Grows

theorem refl (w : World) : Grows w w :=
  ⟨.refl _, .refl _, fun _ _ => id, fun _ => id, fun _ => id⟩

theorem trans {a b c : World} (h : Grows a b) (h' : Grows b c) : Grows a c :=
  ⟨h.db.trans h'.db, h.broker.trans h'.broker,
    fun k blob hk => h'.objects k blob (h.objects k blob hk),
    fun p hp => h'.ids p (h.ids p hp), fun p hp => h'.created p (h.created p hp)⟩

/-- A step that only touches the database. -/
theorem of_db {w : World} {db : Db} (h : w.db.Grows db) : Grows w { w with db := db } :=
  ⟨h, .refl _, fun _ _ => id, fun _ => id, fun _ => id⟩

/-- A step that only touches the broker. -/
theorem of_broker {w : World} {b : Broker} (h : w.broker.Grows b) :
    Grows w { w with broker := b } :=
  ⟨.refl _, h, fun _ _ => id, fun _ => id, fun _ => id⟩

end Grows

/-! ## Each statement grows the database -/

namespace Db
variable (db : Db)

theorem grows_recordEvent (e : ProcessingEvent) : db.Grows (db.recordEvent e) :=
  ⟨fun _ row h => ⟨row, h, .refl row⟩, fun _ => id, le_refl _, fun c hc _ => ⟨c, hc, .refl c⟩,
    fun _ _ => id⟩

theorem grows_recordProcessed (i : Nat) (row : ProcessedMessage) :
    db.Grows (db.recordProcessed i row) :=
  ⟨fun _ row h => ⟨row, h, .refl row⟩, fun _ => id, le_refl _, fun c hc _ => ⟨c, hc, .refl c⟩,
    fun _ _ h => processed_recordProcessed h i row⟩

/-- An update that sets `raw_text`, if it does, to a text that is not blank. -/
theorem kept_apply (u : DocumentUpdate) (hu : ∀ t, u.rawText = some t → ¬ Blank t)
    (row : Document) : row.Kept (u.apply row) := by
  have hor : ∀ {α : Type} (a b : Option α), b.isSome → (a.or b).isSome := by
    intro α a b h
    cases a <;> simp_all
  refine ⟨rfl, rfl, rfl, rfl, ?_, hor _ _, hor _ _, fun h => ⟨hor _ _ h.1, hor _ _ h.2⟩⟩
  rintro ⟨⟨t, ht, hblank⟩, hat⟩
  refine ⟨?_, hor _ _ hat⟩
  cases hr : u.rawText with
  | none => exact ⟨t, by simp [DocumentUpdate.apply, hr, ht], hblank⟩
  | some t' => exact ⟨t', by simp [DocumentUpdate.apply, hr], hu t' hr⟩

theorem grows_updateDocument (d : DocId) (u : DocumentUpdate)
    (hu : ∀ t, u.rawText = some t → ¬ Blank t) : db.Grows (db.updateDocument d u) := by
  refine ⟨?_, fun _ => id, le_refl _, fun c hc _ => ⟨c, hc, .refl c⟩, fun _ _ => id⟩
  intro d' row hrow
  rw [updateDocument_documents]
  split
  · rename_i he
    subst he
    exact ⟨u.apply row, by simp [hrow], kept_apply u hu row⟩
  · exact ⟨row, hrow, .refl row⟩

theorem grows_insertChunks (d : DocId) (rows : List ChunkRow) (hrows : rows ≠ []) :
    db.Grows (db.insertChunks d rows) := by
  refine ⟨fun _ row h => ⟨row, h, .refl row⟩, ?_, Nat.le_add_right _ _, ?_, fun _ _ => id⟩
  · intro d' hd'
    by_cases he : d' = d
    · subst he
      rw [chunksOf_insertChunks_self]
      simpa using hrows
    · rwa [chunksOf_insertChunks_of_ne he]
  · intro c hc hlt
    rw [insertChunks_chunks] at hc
    rcases List.mem_append.mp hc with hc | hc
    · exact ⟨c, (List.mem_filter.mp hc).1, .refl c⟩
    · obtain ⟨n, hn, rfl⟩ := List.mem_mapIdx.mp hc
      exact absurd hlt (by simp [newChunk])

/-- `write_embeddings` changes nothing of a chunk but its embedding. -/
theorem kept_writeEmbeddings {rows : List (ChunkId × Vec)} {chunks : List DocumentChunk}
    {c' : DocumentChunk}
    (h : c' ∈ rows.foldl (fun chunks row => chunks.map (setEmbedding row.1 row.2)) chunks) :
    ∃ c ∈ chunks, c.Kept c' := by
  induction rows generalizing chunks with
  | nil => exact ⟨c', h, .refl c'⟩
  | cons row rows ih =>
    obtain ⟨c₁, hc₁, hk⟩ := ih h
    obtain ⟨c, hc, rfl⟩ := List.mem_map.mp hc₁
    refine ⟨c, hc, .trans ?_ hk⟩
    unfold setEmbedding
    split
    · exact ⟨rfl, rfl, rfl, rfl, rfl, fun _ => rfl⟩
    · exact .refl c

/-- A chunk of the batch has an embedding after `write_embeddings`. -/
theorem embedding_writeEmbeddings {rows : List (ChunkId × Vec)} {chunks : List DocumentChunk}
    {c' : DocumentChunk} (hid : c'.id ∈ rows.map Prod.fst)
    (h : c' ∈ rows.foldl (fun chunks row => chunks.map (setEmbedding row.1 row.2)) chunks) :
    c'.embedding.isSome := by
  induction rows generalizing chunks with
  | nil => cases hid
  | cons row rows ih =>
    rcases List.mem_cons.mp hid with he | hid
    · obtain ⟨c₁, hc₁, hk⟩ : ∃ c₁ ∈ chunks.map (setEmbedding row.1 row.2), c₁.Kept c' :=
        kept_writeEmbeddings h
      obtain ⟨c, -, rfl⟩ := List.mem_map.mp hc₁
      refine hk.embedding ?_
      have hc : c.id = row.1 := by
        rw [← he, hk.id]
        unfold setEmbedding
        split <;> rfl
      rw [setEmbedding, if_pos hc]
      rfl
    · exact ih hid h

/-- Every chunk is still there after `write_embeddings`. -/
theorem exists_writeEmbeddings (rows : List (ChunkId × Vec)) {chunks : List DocumentChunk}
    {c : DocumentChunk} (h : c ∈ chunks) :
    ∃ c' ∈ rows.foldl (fun chunks row => chunks.map (setEmbedding row.1 row.2)) chunks,
      c.Kept c' := by
  induction rows generalizing chunks c with
  | nil => exact ⟨c, h, .refl c⟩
  | cons row rows ih =>
    obtain ⟨c', hc', hk⟩ := ih (List.mem_map_of_mem (f := setEmbedding row.1 row.2) h)
    refine ⟨c', hc', .trans ?_ hk⟩
    unfold setEmbedding
    split
    · exact ⟨rfl, rfl, rfl, rfl, rfl, fun _ => rfl⟩
    · exact .refl c

theorem mem_chunksOf {db : Db} {d : DocId} {c : DocumentChunk} :
    c ∈ db.chunksOf d ↔ c ∈ db.chunks ∧ c.documentId = d := by
  simp [chunksOf]

theorem grows_writeEmbeddings (rows : List (ChunkId × Vec)) : db.Grows (db.writeEmbeddings rows) := by
  refine ⟨fun _ row h => ⟨row, h, .refl row⟩, ?_, le_refl _, fun c hc _ => kept_writeEmbeddings hc,
    fun _ _ => id⟩
  intro d hd
  obtain ⟨c, hc⟩ := List.exists_mem_of_ne_nil _ hd
  obtain ⟨hc, hdoc⟩ := mem_chunksOf.mp hc
  obtain ⟨c', hc', hk⟩ := exists_writeEmbeddings rows hc
  exact List.ne_nil_of_mem (mem_chunksOf.mpr ⟨hc', hk.documentId.trans hdoc⟩)

theorem grows_insertDocument (row : Document)
    (hfree : ∀ d, db.nextDocumentId ≤ d → db.documents d = none) :
    db.Grows (db.insertDocument row) := by
  refine ⟨?_, fun _ => id, le_refl _, fun c hc _ => ⟨c, hc, .refl c⟩, fun _ _ => id⟩
  intro d old hold
  refine ⟨old, ?_, .refl old⟩
  rw [insertDocument_documents, if_neg, hold]
  rintro rfl
  rw [hfree _ (le_refl _)] at hold
  cases hold

end Db

/-! ## Each operation grows the broker -/

namespace Broker
variable (b : Broker)

theorem grows_push (copy : Copy) (q : Queue) : b.Grows (b.push copy q) :=
  ⟨fun _ => id, fun _ => id, le_refl _, fun _ d h => ⟨d, h, rfl, rfl, id⟩⟩

theorem grows_enqueue (origin : Nat) (m : Message) (q : Queue) :
    b.Grows (b.enqueue origin m q) :=
  ⟨fun _ => id, fun _ => id, Nat.le_succ _, fun _ d h => ⟨d, h, rfl, rfl, id⟩⟩

theorem grows_remove (q : Queue) (n : Nat) : b.Grows (b.remove q n) :=
  ⟨fun _ => id, fun _ => id, le_refl _, fun _ d h => ⟨d, h, rfl, rfl, id⟩⟩

theorem grows_release (i : Nat) : b.Grows (b.release i) := by
  refine ⟨fun _ => id, fun _ => id, le_refl _, fun j d hj => ?_⟩
  by_cases hji : j = i
  · subst hji
    exact ⟨{ d with unsettled := false }, by simp [release, hj], rfl, rfl, by simp⟩
  · exact ⟨d, by simp [release, hji, hj], rfl, rfl, id⟩

theorem grows_ack (i : Nat) (copy : Copy) (o : Outcome) : b.Grows (b.ack i copy o) :=
  have h := b.grows_release i
  ⟨h.accepted, fun _ hp => List.mem_cons_of_mem _ hp, h.nextCopy, h.deliveries⟩

theorem grows_deadLetter (copy : Copy) (q : Queue) : b.Grows (b.deadLetter copy q) := by
  unfold deadLetter
  generalize deadLetterTargets q = qs
  induction qs generalizing b with
  | nil => exact .refl b
  | cons q' qs ih => exact (b.grows_push copy q').trans (ih _)

theorem grows_nack (i : Nat) (copy : Copy) (q : Queue) : b.Grows (b.nack i copy q) :=
  (b.grows_release i).trans (grows_deadLetter _ _ _)

theorem grows_requeue (i : Nat) (copy : Copy) (q : Queue) : b.Grows (b.requeue i copy q) :=
  (b.grows_release i).trans (grows_push _ _ _)

theorem grows_expire (q : Queue) (n : Nat) (copy : Copy) : b.Grows (b.expire q n copy) :=
  (b.grows_remove q n).trans (grows_deadLetter _ _ _)

theorem grows_deliver {i : Nat} (h : b.deliveries i = none) (q : Queue) (n : Nat) (copy : Copy) :
    b.Grows (b.deliver i q n copy) := by
  refine ⟨fun _ => id, fun _ => id, le_refl _, fun j d hj => ⟨d, ?_, rfl, rfl, id⟩⟩
  have hji : j ≠ i := by
    rintro rfl
    rw [h] at hj
    cases hj
  simpa [deliver, remove, hji] using hj

theorem grows_publish (i : Nat) (exchange : Exchange) (key : RoutingKey) (m : Message) :
    b.Grows (b.publish i exchange key m) := by
  have hlog : b.Grows (b.log i exchange m) := by
    unfold log
    split
    · exact ⟨fun _ hp => List.mem_append_left _ hp, fun _ => id, le_refl _,
        fun _ d h => ⟨d, h, rfl, rfl, id⟩⟩
    · exact .refl b
  unfold publish
  generalize b.log i exchange m = b₁ at hlog
  generalize b.originOf i exchange = origin
  induction route exchange key generalizing b₁ with
  | nil => exact hlog
  | cons q qs ih => exact ih _ (hlog.trans (grows_enqueue _ _ _ _))

end Broker
end DigitalCip
