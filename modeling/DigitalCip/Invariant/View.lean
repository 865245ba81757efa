import DigitalCip.Invariant.Ownership

/-!
# What the world has of a document

The `View` of a document is its row, its chunks, and which stages have been sent
a message for it and have recorded one as processed.  A call concerns the view of
one document at most, that of the execution that makes it.
-/

namespace DigitalCip
open Resumable

/-! ## Chunks after `write_embeddings` -/

/-- One chunk after the updates of a batch. -/
def embedRow (rows : List (ChunkId × Vec)) (c : DocumentChunk) : DocumentChunk :=
  rows.foldl (fun c row => Db.setEmbedding row.1 row.2 c) c

section EmbedRow
variable (rows : List (ChunkId × Vec)) (c : DocumentChunk)

theorem kept_setEmbedding (id : ChunkId) (v : Vec) : c.Kept (Db.setEmbedding id v c) := by
  unfold Db.setEmbedding
  split
  · exact ⟨rfl, rfl, rfl, rfl, rfl, fun _ => rfl⟩
  · exact .refl c

theorem kept_embedRow : c.Kept (embedRow rows c) := by
  induction rows generalizing c with
  | nil => exact .refl c
  | cons row rows ih => exact (kept_setEmbedding c row.1 row.2).trans (ih _)

/-- The embedding of a chunk is the old one, or the batch has it. -/
theorem embedding_embedRow : (embedRow rows c).embedding = c.embedding ∨
    ∃ v, (c.id, v) ∈ rows ∧ (embedRow rows c).embedding = some v := by
  induction rows generalizing c with
  | nil => exact Or.inl rfl
  | cons row rows ih =>
    have hid : (Db.setEmbedding row.1 row.2 c).id = c.id := (kept_setEmbedding c row.1 row.2).id
    rcases ih (Db.setEmbedding row.1 row.2 c) with hold | ⟨v, hv, he⟩
    · by_cases hc : c.id = row.1
      · refine Or.inr ⟨row.2, ?_, ?_⟩
        · rw [hc]
          exact List.mem_cons_self
        · refine hold.trans ?_
          rw [Db.setEmbedding, if_pos hc]
      · refine Or.inl (hold.trans ?_)
        rw [Db.setEmbedding, if_neg hc]
    · rw [hid] at hv
      exact Or.inr ⟨v, List.mem_cons_of_mem _ hv, he⟩

theorem embedRow_of_ne (h : ∀ row ∈ rows, c.id ≠ row.1) : embedRow rows c = c := by
  induction rows generalizing c with
  | nil => rfl
  | cons row rows ih =>
    have hrow : Db.setEmbedding row.1 row.2 c = c := by
      rw [Db.setEmbedding, if_neg (h row List.mem_cons_self)]
    show embedRow rows (Db.setEmbedding row.1 row.2 c) = c
    rw [hrow]
    exact ih c fun row' hrow' => h row' (List.mem_cons_of_mem _ hrow')

theorem writeEmbeddings_chunks (db : Db) :
    (db.writeEmbeddings rows).chunks = db.chunks.map (embedRow rows) := by
  show rows.foldl _ db.chunks = _
  generalize db.chunks = chunks
  induction rows generalizing chunks with
  | nil => exact (List.map_id chunks).symm
  | cons row rows ih =>
    rw [List.foldl_cons, ih, List.map_map]
    rfl

theorem chunksOf_writeEmbeddings (db : Db) (d : DocId) :
    (db.writeEmbeddings rows).chunksOf d = (db.chunksOf d).map (embedRow rows) := by
  unfold Db.chunksOf
  rw [writeEmbeddings_chunks, List.filter_map]
  congr 1
  refine List.filter_congr fun c _ => ?_
  simp only [Function.comp, (kept_embedRow rows c).documentId]

end EmbedRow

/-! ## Chunks that have no embedding -/

section Covered

/-- Every chunk of the document has an embedding. -/
def Db.AllEmbedded (db : Db) (d : DocId) : Prop := ∀ c ∈ db.chunksOf d, c.embedding.isSome

/-- Every chunk of the document that has no embedding has one of these ids. -/
def Covered (d : DocId) (ids : List ChunkId) (db : Db) : Prop :=
  ∀ c ∈ db.chunksOf d, c.embedding = none → c.id ∈ ids

/-- A fetched chunk is one of the document's. -/
theorem of_mem_chunksWithoutEmbedding {d : DocId} {db : Db} {p : PendingChunk}
    (h : p ∈ db.chunksWithoutEmbedding d) : ∃ c ∈ db.chunksOf d, c.id = p.id ∧ c.content = p.content := by
  obtain ⟨c, hc, rfl⟩ := List.mem_map.mp ((List.mem_insertionSort _).mp h)
  exact ⟨c, (List.mem_filter.mp hc).1, rfl, rfl⟩

/-- The fetch covers the document. -/
theorem covered_fetched (d : DocId) (db : Db) :
    Covered d ((db.chunksWithoutEmbedding d).map PendingChunk.id) db := by
  intro c hc hnone
  refine List.mem_map.mpr ⟨⟨c.id, c.position, c.content⟩, ?_, rfl⟩
  refine (List.mem_insertionSort _).mpr (List.mem_map.mpr ⟨c, ?_, rfl⟩)
  exact List.mem_filter.mpr ⟨hc, by simp [hnone]⟩

theorem Covered.allEmbedded {d : DocId} {db : Db} (h : Covered d [] db) : db.AllEmbedded d := by
  intro c hc
  by_contra hno
  exact absurd (h c hc (Option.not_isSome_iff_eq_none.mp hno)) List.not_mem_nil

/-- A batch with a vector for each covered chunk embeds the document. -/
theorem Covered.allEmbedded_writeEmbeddings {d : DocId} {db : Db} {rows : List (ChunkId × Vec)}
    (h : Covered d (rows.map Prod.fst) db) : (db.writeEmbeddings rows).AllEmbedded d := by
  intro c' hc'
  obtain ⟨hmem, hdoc⟩ := Db.mem_chunksOf.mp hc'
  obtain ⟨c, hc, hk⟩ := Db.kept_writeEmbeddings hmem
  by_cases hsome : c.embedding.isSome
  · exact hk.embedding hsome
  · refine Db.embedding_writeEmbeddings ?_ hmem
    rw [hk.id]
    exact h c (Db.mem_chunksOf.mpr ⟨hc, hk.documentId.symm.trans hdoc⟩)
      (Option.not_isSome_iff_eq_none.mp hsome)

end Covered

/-! ## Views -/

/-- What there is of one document. -/
@[ext] structure View where
  row : Option Document
  chunks : List DocumentChunk
  /-- A message of the stage has been accepted.  The OCR message is left out: the
  API sends it. -/
  sent : Stage → Prop
  /-- A message of the stage has a dedupe row. -/
  done : Stage → Prop

/-- The view of document `d`. -/
def World.view (w : World) (d : DocId) : View where
  row := w.db.documents d
  chunks := w.db.chunksOf d
  sent S := S ≠ .ocr ∧ ∃ p ∈ w.broker.accepted, p.message.body.stage = S ∧
    p.message.body.documentId = d
  done S := ∃ m row, w.db.processed m = some row ∧ row.stage = S ∧ row.documentId = d

/-- The document whose view a call may change. -/
def Call.concerns (w : World) (d : DocId) : Call → Prop
  | .updateDocument d' _ | .insertChunks d' _ => d' = d
  | .recordProcessed row => row.documentId = d
  | .writeEmbeddings rows => ∃ row ∈ rows, ∃ c ∈ w.db.chunks, c.id = row.1 ∧ c.documentId = d
  | .createDocument _ _ => d = w.db.nextDocumentId
  | .publish .ingest _ m => m.body.stage ≠ .ocr ∧ m.body.documentId = d
  | _ => False

section Views
variable {i : Nat} {c : Call} {v : c.Val} {w w' : World} {d : DocId}

theorem view_congr (hdocs : w'.db.documents d = w.db.documents d)
    (hchunks : w'.db.chunksOf d = w.db.chunksOf d)
    (haccepted : w'.broker.accepted = w.broker.accepted)
    (hprocessed : w'.db.processed = w.db.processed) : w'.view d = w.view d := by
  unfold World.view
  rw [hdocs, hchunks, haccepted, hprocessed]

/-- The dedupe rows of a document after an insert. -/
theorem done_recordProcessed (row : ProcessedMessage) (S : Stage)
    (h : ({ w with db := w.db.recordProcessed i row } : World).view d |>.done S) :
    (w.view d).done S ∨ row.stage = S ∧ row.documentId = d := by
  obtain ⟨m, stored, hm, hS, hd⟩ := h
  rcases Db.of_processed_recordProcessed hm with hold | ⟨-, -, rfl⟩
  · exact Or.inl ⟨m, stored, hold, hS, hd⟩
  · exact Or.inr ⟨hS, hd⟩

theorem done_mono (row : ProcessedMessage) (S : Stage) (h : (w.view d).done S) :
    ({ w with db := w.db.recordProcessed i row } : World).view d |>.done S := by
  obtain ⟨m, stored, hm, hrest⟩ := h
  exact ⟨m, stored, Db.processed_recordProcessed hm i row, hrest⟩

/-- What has been sent for a document after a publish. -/
theorem sent_publish (key : RoutingKey) (m : Message) (S : Stage) :
    (({ w with broker := w.broker.publish i .ingest key m } : World).view d).sent S ↔
      (w.view d).sent S ∨ S ≠ .ocr ∧ m.body.stage = S ∧ m.body.documentId = d := by
  have hmem : ∀ p, p ∈ (w.broker.publish i .ingest key m).accepted ↔
      p ∈ w.broker.accepted ∨ p = ⟨w.broker.nextCopy, i, m⟩ := by
    intro p
    rw [Broker.publish_accepted]
    show p ∈ w.broker.accepted ++ [_] ↔ _
    rw [List.mem_append, List.mem_singleton]
  constructor
  · rintro ⟨hS, p, hp, hstage, hdoc⟩
    rcases (hmem p).mp hp with hold | rfl
    · exact Or.inl ⟨hS, p, hold, hstage, hdoc⟩
    · exact Or.inr ⟨hS, hstage, hdoc⟩
  · rintro (⟨hS, p, hp, hrest⟩ | ⟨hS, hrest⟩)
    · exact ⟨hS, p, (hmem p).mpr (Or.inl hp), hrest⟩
    · exact ⟨hS, _, (hmem _).mpr (Or.inr rfl), hrest⟩

/-- **A call leaves every view alone that it does not concern.** -/
theorem view_of_does (hd : Does i c v w w') (hc : ¬ c.concerns w d) : w'.view d = w.view d := by
  cases c with
  | alreadyProcessed | fetchDocument | fetchChunksWithoutEmbedding | downloadObject | embedBatch
  | retryDocument | freshId =>
    obtain ⟨-, rfl⟩ := hd
    rfl
  | updateDocument d' u =>
    obtain rfl := hd
    refine view_congr ?_ rfl rfl rfl
    rw [Db.updateDocument_documents, if_neg fun he => hc he.symm]
  | insertChunks d' rows =>
    obtain rfl := hd
    exact view_congr rfl (Db.chunksOf_insertChunks_of_ne (fun he => hc he.symm) rows) rfl rfl
  | recordProcessed row =>
    obtain rfl := hd
    refine View.ext rfl rfl rfl (funext fun S => propext ⟨fun h => ?_, done_mono row S⟩)
    exact (done_recordProcessed row S h).resolve_right fun hr => hc hr.2
  | writeEmbeddings rows =>
    obtain rfl := hd
    refine view_congr rfl ?_ rfl rfl
    rw [chunksOf_writeEmbeddings]
    refine (List.map_congr_left fun x hx => ?_).trans (List.map_id _)
    obtain ⟨hmem, hdoc⟩ := Db.mem_chunksOf.mp hx
    exact embedRow_of_ne rows x fun row hrow he => hc ⟨row, hrow, x, hmem, he, hdoc⟩
  | createDocument row stored =>
    rcases hd with ⟨e, -, rfl⟩ | ⟨d', db, -, htx, rfl⟩
    · rfl
    · obtain ⟨-, rfl, rfl⟩ := Api.createTransaction_ok htx
      refine view_congr ?_ rfl rfl rfl
      have hne : d ≠ w.db.nextDocumentId := hc
      rw [Db.recordEvent_documents, Db.insertDocument_documents, if_neg hne]
  | publish exchange key m =>
    obtain rfl := hd
    by_cases he : exchange = .ingest
    · subst he
      refine View.ext rfl rfl (funext fun S => propext ?_) rfl
      rw [sent_publish]
      refine ⟨fun h => h.resolve_right ?_, Or.inl⟩
      rintro ⟨hS, rfl, hdoc⟩
      exact hc ⟨hS, hdoc⟩
    · refine view_congr rfl rfl ?_ rfl
      show (w.broker.publish i exchange key m).accepted = _
      rw [Broker.publish_accepted, Broker.log, if_neg he]
  | ack =>
    obtain ⟨copy, -, rfl⟩ := hd
    rfl
  | nack =>
    obtain ⟨copy, q, -, rfl⟩ := hd
    exact view_congr rfl rfl (Broker.nack_accepted _ _ _ _) rfl
  | _ =>
    obtain rfl := hd
    rfl

/-! ### What a call does to the view it concerns -/

theorem view_updateDocument (u : DocumentUpdate) {row : Document}
    (hrow : w.db.documents d = some row) :
    ({ w with db := w.db.updateDocument d u } : World).view d =
      { w.view d with row := some (u.apply row) } := by
  refine View.ext ?_ rfl rfl rfl
  show (w.db.updateDocument d u).documents d = _
  rw [Db.updateDocument_documents, if_pos rfl, hrow]
  rfl

theorem view_insertChunks (rows : List ChunkRow) :
    ({ w with db := w.db.insertChunks d rows } : World).view d =
      { w.view d with chunks := rows.mapIdx fun n row => Db.newChunk d w.db.nextChunkId row n } :=
  View.ext rfl (Db.chunksOf_insertChunks_self d rows) rfl rfl

theorem view_writeEmbeddings (rows : List (ChunkId × Vec)) :
    ({ w with db := w.db.writeEmbeddings rows } : World).view d =
      { w.view d with chunks := (w.view d).chunks.map (embedRow rows) } :=
  View.ext rfl (chunksOf_writeEmbeddings rows w.db d) rfl rfl

theorem view_publish (key : RoutingKey) (m : Message) (hd : m.body.documentId = d) :
    ({ w with broker := w.broker.publish i .ingest key m } : World).view d =
      { w.view d with sent := fun S => (w.view d).sent S ∨ S ≠ .ocr ∧ m.body.stage = S } := by
  refine View.ext rfl rfl (funext fun S => propext ?_) rfl
  rw [sent_publish]
  constructor
  · exact fun h => h.imp_right fun h => ⟨h.1, h.2.1⟩
  · exact fun h => h.imp_right fun h => ⟨h.1, h.2, hd⟩

/-- The environment changes no view. -/
theorem view_of_envMove {s : Sys} {l : Label} (h : EnvMove s l w) : w.view d = s.world.view d := by
  have hdb := db_of_envMove h
  exact view_congr (by rw [hdb]) (by rw [hdb]) (accepted_of_envMove h) (by rw [hdb])

end Views

/-! ## What the invariant says about views -/

section Base
variable {w : World} {i : Nat} {S : Stage} {env : Envelope}

/-- The message an execution handles has been sent. -/
theorem Handles.sent (h : Handles w i S env) (hS : S ≠ .ocr) : (w.view env.documentId).sent S := by
  obtain ⟨c, -, hstems, halike⟩ := h
  obtain ⟨p, hp, -, hstage, hpa⟩ := hstems.source
  exact ⟨hS, p, hp, hstage, (hpa.trans halike).documentId.symm⟩

variable (hb : Base w)
include hb

/-- Nothing is recorded that has not been sent. -/
theorem Base.sent_of_done {d : DocId} (h : (w.view d).done S) (hS : S ≠ .ocr) :
    (w.view d).sent S := by
  obtain ⟨m, row, hm, rfl, rfl⟩ := h
  obtain ⟨env, hh, -, hdoc⟩ := (hb.recorded m row hm).handled
  rw [← hdoc]
  exact hh.sent hS

/-- The document of a message is there. -/
theorem Base.row_of_sent {d : DocId} (h : (w.view d).sent S) : ∃ row, w.db.documents d = some row := by
  obtain ⟨hS, p, hp, rfl, rfl⟩ := h
  have hready := (hb.mail.published p hp).ready
  unfold Db.Ready at hready
  cases hstage : p.message.body.stage with
  | ocr => exact absurd hstage hS
  | chunk =>
    rw [hstage] at hready
    obtain ⟨row, hrow, -⟩ := hready
    exact ⟨row, hrow⟩
  | embed =>
    rw [hstage] at hready
    obtain ⟨⟨row, hrow, -⟩, -⟩ := hready
    exact ⟨row, hrow⟩

/-- The document of the message an execution handles is there. -/
theorem Handles.ready (h : Handles w i S env) : w.db.Ready env ∧ env.stage = S := by
  obtain ⟨c, -, hstems, halike⟩ := h
  obtain ⟨p, hp, -, hstage, hpa⟩ := hstems.source
  have hready := (hb.mail.published p hp).ready
  have ha := hpa.trans halike
  refine ⟨?_, ha.stage.trans hstage⟩
  unfold Db.Ready at hready ⊢
  rwa [ha.stage, ha.documentId, ha.payload]

theorem Handles.row (h : Handles w i S env) : ∃ row, w.db.documents env.documentId = some row := by
  obtain ⟨hready, hS⟩ := h.ready hb
  unfold Db.Ready at hready
  rw [hS] at hready
  cases S with
  | ocr =>
    obtain ⟨row, hrow, -⟩ := hready
    exact ⟨row, hrow⟩
  | chunk =>
    obtain ⟨row, hrow, -⟩ := hready
    exact ⟨row, hrow⟩
  | embed =>
    obtain ⟨⟨row, hrow, -⟩, -⟩ := hready
    exact ⟨row, hrow⟩

/-- The text that a chunk message promises is there. -/
theorem Handles.text (h : Handles w i .chunk env) {row : Document}
    (hrow : w.db.documents env.documentId = some row) : ∃ t, row.rawText = some t ∧ ¬ Blank t := by
  obtain ⟨hready, hS⟩ := h.ready hb
  unfold Db.Ready at hready
  rw [hS] at hready
  obtain ⟨row', hrow', htext, -⟩ := hready
  obtain rfl := Option.some.inj (hrow.symm.trans hrow')
  exact htext

theorem Handles.numbered (h : Handles w i S env) : env.documentId ≠ 0 := by
  intro he
  obtain ⟨row, hrow⟩ := h.row hb
  rw [he, hb.db.unnumbered] at hrow
  cases hrow

/-- The row that is fetched is there. -/
theorem Handles.fetched {v : Option Document} {w' : World} (h : Handles w i S env)
    (hd : Does i (.fetchDocument env.documentId) v w w') :
    ∃ row, v = some row ∧ w.db.documents env.documentId = some row ∧ w' = w := by
  obtain ⟨hv, rfl⟩ := hd
  obtain ⟨row, hrow⟩ := h.row hb
  exact ⟨row, hv.trans hrow, hrow, rfl⟩

/-- A message that has a dedupe row is done for its document. -/
theorem Handles.done (h : Handles w i S env) (hm : (w.db.processed env.messageId).isSome) :
    (w.view env.documentId).done S := by
  obtain ⟨row, hrow⟩ := Option.isSome_iff_exists.mp hm
  obtain ⟨env', hh', hid, hdoc⟩ := (hb.recorded _ row hrow).handled
  obtain ⟨hS, hd⟩ := hb.sameHandled hh' h hid
  exact ⟨env.messageId, row, hrow, hS, hdoc.symm.trans hd⟩

/-- The OCR message of a document. -/
theorem Base.ocr_unique {p p' : Publication} (hp : p ∈ w.broker.accepted)
    (hp' : p' ∈ w.broker.accepted) (hS : p.message.body.stage = .ocr)
    (hS' : p'.message.body.stage = .ocr)
    (hd : p.message.body.documentId = p'.message.body.documentId) : p = p' := by
  have hsource := (hb.mail.published p hp).source
  have hsource' := (hb.mail.published p' hp').source
  unfold Source at hsource hsource'
  rw [hS] at hsource
  rw [hS'] at hsource'
  exact hb.mail.once p hp p' hp'
    (Prod.mk.inj (hb.names.created _ hsource.2 _ hsource'.2 hd)).1

/-- The OCR messages, and the chunk messages, of a document have one id. -/
theorem Base.sameDocument {i' : Nat} {env' : Envelope} (h : Handles w i S env)
    (h' : Handles w i' S env') (hS : S ≠ .embed) (hd : env.documentId = env'.documentId) :
    env.messageId = env'.messageId := by
  have hocr : ∀ {i i' : Nat} {env env' : Envelope}, Handles w i .ocr env → Handles w i' .ocr env' →
      env.documentId = env'.documentId → env.messageId = env'.messageId := by
    rintro i i' env env' ⟨c, -, hstems, halike⟩ ⟨c', -, hstems', halike'⟩ hd
    obtain ⟨p, hp, -, hpS, hpa⟩ := hstems.source
    obtain ⟨p', hp', -, hpS', hpa'⟩ := hstems'.source
    have ha := hpa.trans halike
    have ha' := hpa'.trans halike'
    obtain rfl := hb.ocr_unique hp hp' hpS hpS'
      (ha.documentId.symm.trans (hd.trans ha'.documentId))
    exact ha.messageId.trans ha'.messageId.symm
  cases S with
  | ocr => exact hocr h h' hd
  | chunk =>
    obtain ⟨c, -, hstems, halike⟩ := h
    obtain ⟨c', -, hstems', halike'⟩ := h'
    obtain ⟨p, hp, -, hpS, hpa⟩ := hstems.source
    obtain ⟨p', hp', -, hpS', hpa'⟩ := hstems'.source
    have ha := hpa.trans halike
    have ha' := hpa'.trans halike'
    have hsource := (hb.mail.published p hp).source
    have hsource' := (hb.mail.published p' hp').source
    unfold Source at hsource hsource'
    rw [hpS] at hsource
    rw [hpS'] at hsource'
    obtain ⟨e, he, hdoc, hid⟩ := hsource
    obtain ⟨e', he', hdoc', hid'⟩ := hsource'
    have hde : e.documentId = e'.documentId := by
      rw [← hdoc, ← hdoc', ← ha.documentId, ← ha'.documentId]
      exact hd
    rw [ha.messageId, ha'.messageId, hid, hid', hocr he he' hde]
  | embed => exact absurd rfl hS

/-- The dedupe row of a document's OCR or chunk message. -/
theorem Base.processed_of_done (h : Handles w i S env) (hS : S ≠ .embed)
    (hdone : (w.view env.documentId).done S) : (w.db.processed env.messageId).isSome := by
  obtain ⟨m, row, hm, rfl, hdoc⟩ := hdone
  obtain ⟨env', hh', hid, hd'⟩ := (hb.recorded m row hm).handled
  have he := hb.sameDocument hh' h hS (hd'.trans hdoc)
  rw [← he, hid, hm]
  rfl

end Base
end DigitalCip
