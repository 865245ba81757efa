import DigitalCip.Invariant.Runs
import DigitalCip.Invariant.View
import DigitalCip.Replaying

/-!
# Replaying the embedding worker

An execution of `handle` on an embed message can be cut off between any two of its
calls, and the message is then delivered again.  The model is a function `f` of a
text.  Whatever the executions before have done, the chunks of the document are
those from before the first one, or the same with every missing embedding filled
in by `f` of that chunk's content.  Once an execution returns they are the latter,
and the document is `embedded`, unless the dedupe row of the message was there from
the start (`resumes`).
-/

namespace DigitalCip.Embedder
open Resumable

/-- The chunk, with the model's vector of its content if it had none. -/
def fill (f : Text → Vec) (c : DocumentChunk) : DocumentChunk :=
  { c with embedding := some (c.embedding.getD (f c.content)) }

/-- The batch that embeds what is missing of document `d`. -/
def batch (f : Text → Vec) (db : Db) (d : DocId) : List (ChunkId × Vec) :=
  (db.chunksWithoutEmbedding d).map fun p => (p.id, f p.content)

section Batch
variable {f : Text → Vec} {db : Db} {d : DocId}

theorem fill_of_isSome {c : DocumentChunk} (h : c.embedding.isSome) : fill f c = c := by
  obtain ⟨v, hv⟩ := Option.isSome_iff_exists.mp h
  cases c
  simp only at hv
  subst hv
  rfl

theorem fill_fill (c : DocumentChunk) : fill f (fill f c) = fill f c := fill_of_isSome rfl

theorem map_fill_fill (cs : List DocumentChunk) : (cs.map (fill f)).map (fill f) = cs.map (fill f) := by
  rw [List.map_map]
  exact List.map_congr_left fun c _ => fill_fill c

/-- A row of the batch belongs to a chunk that has no embedding. -/
theorem mem_batch {id : ChunkId} {v : Vec} (h : (id, v) ∈ batch f db d) :
    ∃ c ∈ db.chunksOf d, c.embedding = none ∧ c.id = id ∧ f c.content = v := by
  obtain ⟨p, hp, he⟩ := List.mem_map.mp h
  obtain ⟨rfl, rfl⟩ := Prod.mk.inj he
  obtain ⟨c, hc, rfl⟩ := List.mem_map.mp ((List.mem_insertionSort _).mp hp)
  obtain ⟨hc, hnone⟩ := List.mem_filter.mp hc
  exact ⟨c, hc, Option.isNone_iff_eq_none.mp hnone, rfl, rfl⟩

/-- A chunk in the batch gets an embedding. -/
theorem isSome_embedRow {rows : List (ChunkId × Vec)} {c : DocumentChunk}
    (h : c.id ∈ rows.map Prod.fst) : (embedRow rows c).embedding.isSome := by
  induction rows generalizing c with
  | nil => cases h
  | cons row rows ih =>
    show (embedRow rows (Db.setEmbedding row.1 row.2 c)).embedding.isSome
    by_cases hc : c.id = row.1
    · refine (kept_embedRow rows _).embedding ?_
      rw [Db.setEmbedding, if_pos hc]
      rfl
    · rw [Db.setEmbedding, if_neg hc]
      exact ih ((List.mem_cons.mp h).resolve_left hc)

/-- A chunk that differs from another in its embedding at most. -/
theorem eq_of_kept {c c' c'' : DocumentChunk} (h : c.Kept c') (h' : c.Kept c'')
    (he : c'.embedding = c''.embedding) : c' = c'' := by
  obtain ⟨hid, hdoc, hpos, hcontent, hcount, -⟩ := h
  obtain ⟨hid', hdoc', hpos', hcontent', hcount', -⟩ := h'
  cases c'
  cases c''
  congr
  · exact hid.trans hid'.symm
  · exact hdoc.trans hdoc'.symm
  · exact hpos.trans hpos'.symm
  · exact hcontent.trans hcontent'.symm
  · exact hcount.trans hcount'.symm

theorem kept_fill (c : DocumentChunk) : c.Kept (fill f c) := ⟨rfl, rfl, rfl, rfl, rfl, fun _ => rfl⟩

/-- **A batch pairs every chunk of the document that misses an embedding with the
vector of its own content**, and reaches no other chunk. -/
theorem embedRow_batch (hids : (db.chunks.map DocumentChunk.id).Nodup) {c : DocumentChunk}
    (hc : c ∈ db.chunks) :
    embedRow (batch f db d) c = if c.documentId = d then fill f c else c := by
  have hown : ∀ v, (c.id, v) ∈ batch f db d →
      c.documentId = d ∧ c.embedding = none ∧ v = f c.content := by
    intro v hv
    obtain ⟨c', hc', hnone, hid, rfl⟩ := mem_batch hv
    obtain ⟨hmem, hdoc⟩ := Db.mem_chunksOf.mp hc'
    obtain rfl : c' = c := List.inj_on_of_nodup_map hids hmem hc hid
    exact ⟨hdoc, hnone, rfl⟩
  by_cases hin : c.id ∈ (batch f db d).map Prod.fst
  · obtain ⟨⟨id, v⟩, hv, rfl⟩ := List.mem_map.mp hin
    obtain ⟨hdoc, hnone, rfl⟩ := hown v hv
    rw [if_pos hdoc]
    refine eq_of_kept (kept_embedRow _ c) (kept_fill c) ?_
    rcases embedding_embedRow (batch f db d) c with hold | ⟨v, hv, he⟩
    · have hsome := isSome_embedRow hin
      rw [hold, hnone] at hsome
      cases hsome
    · rw [he, (hown v hv).2.2, fill, hnone]
      rfl
  · rw [embedRow_of_ne _ _ fun row hrow he => hin (List.mem_map.mpr ⟨row, hrow, he.symm⟩)]
    split
    · -- the fetch finds every chunk of the document that has no embedding
      rename_i hdoc
      have hsome : c.embedding.isSome := by
        by_contra hno
        have hnone := Option.not_isSome_iff_eq_none.mp hno
        have hmem := covered_fetched d db c (Db.mem_chunksOf.mpr ⟨hc, hdoc⟩) hnone
        refine hin ?_
        rw [batch, List.map_map]
        exact hmem
      exact (fill_of_isSome hsome).symm
    · rfl

/-- No chunk gets another id. -/
theorem ids_writeEmbeddings (rows : List (ChunkId × Vec)) :
    (db.writeEmbeddings rows).chunks.map DocumentChunk.id = db.chunks.map DocumentChunk.id := by
  rw [writeEmbeddings_chunks, List.map_map]
  exact List.map_congr_left fun c _ => (kept_embedRow rows c).id

/-- The chunk table after the batch. -/
theorem chunks_writeEmbeddings_batch (hids : (db.chunks.map DocumentChunk.id).Nodup) :
    (db.writeEmbeddings (batch f db d)).chunks =
      db.chunks.map fun c => if c.documentId = d then fill f c else c := by
  rw [writeEmbeddings_chunks]
  exact List.map_congr_left fun c hc => embedRow_batch hids hc

theorem chunksOf_writeEmbeddings_batch (hids : (db.chunks.map DocumentChunk.id).Nodup) :
    (db.writeEmbeddings (batch f db d)).chunksOf d = (db.chunksOf d).map (fill f) := by
  rw [chunksOf_writeEmbeddings]
  refine List.map_congr_left fun c hc => ?_
  obtain ⟨hmem, hdoc⟩ := Db.mem_chunksOf.mp hc
  rw [embedRow_batch hids hmem, if_pos hdoc]

/-- When the fetch finds nothing, nothing is missing. -/
theorem map_fill_of_isEmpty (h : (db.chunksWithoutEmbedding d).isEmpty) :
    (db.chunksOf d).map (fill f) = db.chunksOf d := by
  have hall : db.AllEmbedded d := by
    have hcovered := covered_fetched d db
    rw [List.isEmpty_iff.mp h] at hcovered
    exact hcovered.allEmbedded
  rw [List.map_congr_left fun c hc => fill_of_isSome (hall c hc), List.map_id']

end Batch

/-! ## What the executions keep -/

/-- An execution of `handle` on message `m` of document `d`. -/
def Attempt (d : DocId) (m : MessageId) (p : Program Unit) : Prop :=
  ∃ env : Envelope, env.documentId = d ∧ env.messageId = m ∧ p = handle env

/-- The model is the function `f`, elementwise. -/
def Models (f : Text → Vec) : Call → Answer → Prop
  | .embedBatch texts, .vectors vs => vs = texts.map f
  | _, _ => True

/-- The document is there, and its status is not terminal. -/
def Unfinished (d : DocId) (w : World) : Prop :=
  ∃ status, (w.db.documents d).map Document.status = some status ∧ status.terminal = false

/-- What happens around the executions on message `m` of document `d` leaves its chunks and the
dedupe row of the message alone, and the ids of chunks stay a key.  The status may change as long
as nobody else finishes the document or takes `embedded` back. -/
structure Aside (d : DocId) (m : MessageId) (w w' : World) : Prop where
  unfinished : Unfinished d w → Unfinished d w'
  embedded : (w.db.documents d).map Document.status = some .embedded →
    (w'.db.documents d).map Document.status = some .embedded
  chunks : w'.db.chunksOf d = w.db.chunksOf d
  processed : w'.db.processed m = w.db.processed m
  key : (w.db.chunks.map DocumentChunk.id).Nodup → (w'.db.chunks.map DocumentChunk.id).Nodup

/-- Every chunk of document `d` that had no embedding in `w₀` has been embedded. -/
def FilledIn (f : Text → Vec) (d : DocId) (w₀ w : World) : Prop :=
  w.db.chunksOf d = (w₀.db.chunksOf d).map (fill f)

/-- The document is `embedded`, and so are its chunks. -/
def EmbeddedBy (f : Text → Vec) (d : DocId) (w₀ w : World) : Prop :=
  (w.db.documents d).map Document.status = some .embedded ∧ FilledIn f d w₀ w

/-- Between any two calls: the document is not finished or everything is done, the
missing embeddings are all there or none is, and a dedupe row that was not there at
the start means that everything is done. -/
structure Halfway (f : Text → Vec) (d : DocId) (m : MessageId) (w₀ w : World) : Prop where
  row : Unfinished d w ∨ EmbeddedBy f d w₀ w
  chunks : w.db.chunksOf d = w₀.db.chunksOf d ∨ FilledIn f d w₀ w
  done : w₀.db.processed m = none → (w.db.processed m).isSome → EmbeddedBy f d w₀ w
  handled : (w₀.db.processed m).isSome → (w.db.processed m).isSome ∧ Unfinished d w ∧
    w.db.chunksOf d = w₀.db.chunksOf d
  key : (w.db.chunks.map DocumentChunk.id).Nodup

section Halfway
variable {f : Text → Vec} {d : DocId} {m : MessageId} {w₀ w w' : World}

theorem EmbeddedBy.aside (h : EmbeddedBy f d w₀ w) (ha : Aside d m w w') :
    EmbeddedBy f d w₀ w' :=
  ⟨ha.embedded h.1, ha.chunks.trans h.2⟩

theorem Halfway.aside (h : Halfway f d m w₀ w) (ha : Aside d m w w') : Halfway f d m w₀ w' := by
  refine ⟨h.row.imp ha.unfinished fun he => he.aside ha, ?_, ?_, ?_, ha.key h.key⟩
  · unfold FilledIn
    rw [ha.chunks]
    exact h.chunks
  · intro hfresh hdone
    rw [ha.processed] at hdone
    exact (h.done hfresh hdone).aside ha
  · rw [ha.chunks, ha.processed]
    exact fun hsome => (h.handled hsome).imp_right fun hrest => hrest.imp_left ha.unfinished

/-- At the start. -/
theorem Halfway.refl (hopen : Unfinished d w) (hkey : (w.db.chunks.map DocumentChunk.id).Nodup) :
    Halfway f d m w w where
  row := Or.inl hopen
  chunks := Or.inl rfl
  done hfresh hdone := by
    rw [hfresh] at hdone
    cases hdone
  handled h := ⟨h, hopen, rfl⟩
  key := hkey

end Halfway

/-! ## One execution -/

section Execution
variable {f : Text → Vec} {d : DocId} {m : MessageId} {w₀ w w' : World}

/-- The handler writes no embeddings but those that are missing, and inserts no rows
of `documents` or `document_chunks`. -/
def Within (f : Text → Vec) (d : DocId) (w : World) : Call → Prop
  | .writeEmbeddings rows => rows = batch f w.db d
  | .insertChunks _ _ | .createDocument _ _ | .retryDocument _ _ _ => False
  | _ => True

/-- The executions keep the document halfway. -/
abbrev replay (f : Text → Vec) (d : DocId) (m : MessageId) (w₀ : World) :
    Automaton World Call Call.Reply :=
  replaying (Aside d m) (Models f) fun w c => Halfway f d m w₀ w ∧ Within f d w c

/-- How an execution ends when it returns. -/
def Finished (f : Text → Vec) (d : DocId) (m : MessageId) (w₀ w : World) : Prop :=
  Halfway f d m w₀ w ∧ (w₀.db.processed m = none → EmbeddedBy f d w₀ w)

/-- How the `try` block ends when it raises. -/
def Interrupted (f : Text → Vec) (d : DocId) (m : MessageId) (w₀ : World) (e : Exc) (w : World) :
    Prop :=
  Halfway f d m w₀ w ∧ ∀ reason, e ≠ .permanent reason

theorem Halfway.interrupted (h : Halfway f d m w₀ w) (reason : String) :
    Interrupted f d m w₀ (.other reason) w :=
  ⟨h, fun _ he => nomatch he⟩

/-- The message has no dedupe row. -/
structure Unhandled (f : Text → Vec) (d : DocId) (m : MessageId) (w₀ w : World) : Prop
    extends Halfway f d m w₀ w where
  fresh : w.db.processed m = none

/-- The message has no dedupe row, and nothing is missing. -/
structure Complete (f : Text → Vec) (d : DocId) (m : MessageId) (w₀ w : World) : Prop
    extends Unhandled f d m w₀ w where
  filled : FilledIn f d w₀ w

/-- The document is done, but for the dedupe row. -/
structure Finishing (f : Text → Vec) (d : DocId) (m : MessageId) (w₀ w : World) : Prop
    extends Halfway f d m w₀ w where
  embedded : EmbeddedBy f d w₀ w

theorem Unhandled.aside (h : Unhandled f d m w₀ w) (ha : Aside d m w w') :
    Unhandled f d m w₀ w' :=
  ⟨h.toHalfway.aside ha, ha.processed.trans h.fresh⟩

theorem Complete.aside (h : Complete f d m w₀ w) (ha : Aside d m w w') : Complete f d m w₀ w' :=
  ⟨h.toUnhandled.aside ha, ha.chunks.trans h.filled⟩

theorem Finishing.aside (h : Finishing f d m w₀ w) (ha : Aside d m w w') :
    Finishing f d m w₀ w' :=
  ⟨h.toHalfway.aside ha, h.embedded.aside ha⟩

/-- A message without a dedupe row had none at the start. -/
theorem Unhandled.fresh_start (h : Unhandled f d m w₀ w) : w₀.db.processed m = none := by
  by_contra hsome
  have hdone : (w.db.processed m).isSome :=
    (h.handled (Option.isSome_iff_ne_none.mpr hsome)).1
  rw [h.fresh] at hdone
  cases hdone

/-- What is to be shown of a message without a dedupe row. -/
theorem Unhandled.of_fresh (h₀ : w₀.db.processed m = none) (hfresh : w.db.processed m = none)
    (hrow : Unfinished d w ∨ EmbeddedBy f d w₀ w)
    (hchunks : w.db.chunksOf d = w₀.db.chunksOf d ∨ FilledIn f d w₀ w)
    (hkey : (w.db.chunks.map DocumentChunk.id).Nodup) : Unhandled f d m w₀ w where
  row := hrow
  chunks := hchunks
  done _ hdone := by
    rw [hfresh] at hdone
    cases hdone
  handled hsome := by
    rw [h₀] at hsome
    cases hsome
  key := hkey
  fresh := hfresh

/-- The row is there. -/
theorem Halfway.status (h : Halfway f d m w₀ w) :
    ∃ status, (w.db.documents d).map Document.status = some status := by
  rcases h.row with ⟨status, hstatus, -⟩ | hembedded
  · exact ⟨status, hstatus⟩
  · exact ⟨.embedded, hembedded.1⟩

/-- The status after an update of the row. -/
theorem Halfway.updated_status (h : Halfway f d m w₀ w) {u : DocumentUpdate}
    (hdb : w'.db = w.db.updateDocument d u) :
    (w'.db.documents d).map Document.status = some u.status := by
  obtain ⟨status, hstatus⟩ := h.status
  obtain ⟨row, hrow, -⟩ := Option.map_eq_some_iff.mp hstatus
  rw [hdb, Db.updateDocument_documents, if_pos rfl, hrow]
  rfl

theorem Unhandled.update (h : Unhandled f d m w₀ w) {u : DocumentUpdate}
    (hu : u.status.terminal = false) (hdb : w'.db = w.db.updateDocument d u) :
    Unhandled f d m w₀ w' := by
  have hchunks : w'.db.chunksOf d = w.db.chunksOf d := by rw [hdb]; rfl
  refine .of_fresh h.fresh_start ?_ (Or.inl ⟨u.status, h.updated_status hdb, hu⟩) ?_ ?_
  · rw [hdb]
    exact h.fresh
  · unfold FilledIn
    rw [hchunks]
    exact h.chunks
  · rw [hdb]
    exact h.key

/-- After the batch nothing is missing. -/
theorem Unhandled.write (h : Unhandled f d m w₀ w)
    (hdb : w'.db = w.db.writeEmbeddings (batch f w.db d)) : Complete f d m w₀ w' := by
  have hchunks : w'.db.chunksOf d = (w.db.chunksOf d).map (fill f) := by
    rw [hdb]
    exact chunksOf_writeEmbeddings_batch h.key
  have hfilled : FilledIn f d w₀ w' := by
    refine hchunks.trans ?_
    rcases h.chunks with hold | hnew
    · rw [hold]
    · rw [hnew, map_fill_fill]
  refine ⟨.of_fresh h.fresh_start ?_ (h.row.imp ?_ fun he => ⟨?_, hfilled⟩) (Or.inr hfilled) ?_,
    hfilled⟩
  · rw [hdb]
    exact h.fresh
  · unfold Unfinished
    rw [hdb]
    exact id
  · rw [hdb]
    exact he.1
  · rw [hdb, ids_writeEmbeddings]
    exact h.key

theorem Complete.finish (h : Complete f d m w₀ w) {u : DocumentUpdate} (hu : u.status = .embedded)
    (hdb : w'.db = w.db.updateDocument d u) : Finishing f d m w₀ w' := by
  have hchunks : w'.db.chunksOf d = w.db.chunksOf d := by rw [hdb]; rfl
  have hstatus : (w'.db.documents d).map Document.status = some .embedded :=
    hu ▸ h.updated_status hdb
  have hembedded : EmbeddedBy f d w₀ w' := ⟨hstatus, hchunks.trans h.filled⟩
  have hunhandled : Unhandled f d m w₀ w' := by
    refine .of_fresh h.fresh_start ?_ (Or.inr hembedded) (Or.inr hembedded.2) ?_
    · rw [hdb]
      exact h.fresh
    · rw [hdb]
      exact h.key
  exact ⟨hunhandled.toHalfway, hembedded⟩

/-- The dedupe row comes when everything is done. -/
theorem Finishing.record (h : Finishing f d m w₀ w) {i : Nat} {row : ProcessedMessage}
    (hm : row.messageId = m) (hdb : w'.db = w.db.recordProcessed i row) : Finished f d m w₀ w' := by
  have hembedded : EmbeddedBy f d w₀ w' := by
    unfold EmbeddedBy FilledIn
    rw [hdb]
    exact h.embedded
  refine ⟨⟨Or.inr hembedded, Or.inr hembedded.2, fun _ _ => hembedded,
    fun hsome => ⟨?_, ?_, ?_⟩, ?_⟩, fun _ => hembedded⟩
  · rw [hdb, ← hm]
    exact Db.recordProcessed_isSome i row
  · unfold Unfinished
    rw [hdb]
    exact (h.handled hsome).2.1
  · rw [hdb]
    exact (h.handled hsome).2.2
  · rw [hdb]
    exact h.key

/-- A call that reads, or that writes nothing of documents, chunks and dedupe rows. -/
theorem Aside.of_db (h : w'.db.documents = w.db.documents) (hc : w'.db.chunks = w.db.chunks)
    (hp : w'.db.processed = w.db.processed) : Aside d m w w' :=
  ⟨by unfold Unfinished; rw [h]; exact id, by rw [h]; exact id, by unfold Db.chunksOf; rw [hc],
    congrFun hp m, fun hkey => by rwa [hc]⟩

/-- The write of the status `embedded`, the event and the dedupe row. -/
theorem finish_replay {env : Envelope} (hd : env.documentId = d) (hm : env.messageId = m)
    {u : DocumentUpdate} (hu : u.status = .embedded) {e : ProcessingEvent} {n : Nat}
    (hw : Complete f d m w₀ w) :
    (replay f d m w₀).Accepts
      (do
        call (.updateDocument env.documentId u)
        call (.recordEvent e)
        call (.recordProcessed (processedRow env n)))
      (fun _ => Finished f d m w₀) (Interrupted f d m w₀) w := by
  subst hd hm
  rw [Automaton.accepts_bind]
  refine accepts_python_call ⟨hw.toHalfway, trivial⟩
    (fun reason w₁ ha => (hw.aside ha).toHalfway.interrupted reason) ?_
  intro i a v w₁ w₂ ha _ _ hdoes
  have h₂ := (hw.aside ha).finish hu (congrArg World.db hdoes)
  rw [Automaton.accepts_bind]
  refine accepts_python_look (Finishing f _ _ w₀) (fun _ _ h => h.aside) ?_ ⟨h₂.toHalfway, trivial⟩
    h₂ (fun reason _ h => h.toHalfway.interrupted reason) ?_
  · rintro i v w w' rfl
    exact .of_db rfl rfl rfl
  intro _ w₃ h₃
  refine accepts_python_call ⟨h₃.toHalfway, trivial⟩
    (fun reason w₁ ha => (h₃.aside ha).toHalfway.interrupted reason) ?_
  intro i a v w₄ w₅ ha _ _ hdoes
  exact (h₃.aside ha).record rfl (congrArg World.db hdoes)

/-- The chunks that the fetch has found are those that miss an embedding. -/
structure FetchedFrom (f : Text → Vec) (d : DocId) (m : MessageId) (w₀ : World)
    (found : List PendingChunk) (w : World) : Prop extends Unhandled f d m w₀ w where
  missing : w.db.chunksWithoutEmbedding d = found

section Fetched
variable {found : List PendingChunk}

theorem FetchedFrom.aside (h : FetchedFrom f d m w₀ found w) (ha : Aside d m w w') :
    FetchedFrom f d m w₀ found w' := by
  refine ⟨h.toUnhandled.aside ha, ?_⟩
  unfold Db.chunksWithoutEmbedding
  rw [ha.chunks]
  exact h.missing

/-- The rows that the handler writes are the batch. -/
theorem FetchedFrom.rows_eq (h : FetchedFrom f d m w₀ found w) :
    (found.map PendingChunk.id).zip ((found.map PendingChunk.content).map f) = batch f w.db d := by
  rw [batch, h.missing, List.map_map, List.zip_map']
  rfl

theorem FetchedFrom.complete (h : FetchedFrom f d m w₀ found w) (hempty : found.isEmpty = true) :
    Complete f d m w₀ w := by
  have hsame : (w.db.chunksOf d).map (fill f) = w.db.chunksOf d :=
    map_fill_of_isEmpty (h.missing ▸ hempty)
  refine ⟨h.toUnhandled, ?_⟩
  rcases h.chunks with hold | hnew
  · unfold FilledIn
    rw [← hsame, hold]
  · exact hnew

end Fetched

/-- The vectors of a batch are those of the model. -/
theorem eq_map_of_models {i : Nat} {a : Answer} {texts : List Text} {vs : List Vec}
    (htrue : Models f (.embedBatch texts) a)
    (h : reply i (.embedBatch texts) a w = some (vs, w')) : vs = texts.map f := by
  cases a <;> simp only [reply, reduceCtorEq] at h
  split at h
  · obtain ⟨rfl, -⟩ := Prod.mk.inj (Option.some.inj h)
    exact htrue
  · cases h

theorem embed_replay {env : Envelope} (hd : env.documentId = d) (hm : env.messageId = m)
    (document : Document) (hw : Unhandled f d m w₀ w) :
    (replay f d m w₀).Accepts (embed env document) (fun _ => Finished f d m w₀)
      (Interrupted f d m w₀) w := by
  subst hd hm
  unfold embed updateDocument Python.recordEvent Python.recordProcessed
  rw [Automaton.accepts_bind]
  refine accepts_python_call ⟨hw.toHalfway, trivial⟩
    (fun reason w₁ ha => (hw.aside ha).toHalfway.interrupted reason) ?_
  intro i a v w₁ w₂ ha _ _ hdoes
  have h₂ := (hw.aside ha).update rfl (congrArg World.db hdoes)
  rw [Automaton.accepts_bind]
  refine accepts_python_look (Unhandled f _ _ w₀) (fun _ _ h => h.aside) ?_ ⟨h₂.toHalfway, trivial⟩
    h₂ (fun reason _ h => h.toHalfway.interrupted reason) ?_
  · rintro i v w w' rfl
    exact .of_db rfl rfl rfl
  intro _ w₃ h₃
  rw [Automaton.accepts_bind]
  refine accepts_python_call ⟨h₃.toHalfway, trivial⟩
    (fun reason w₁ ha => (h₃.aside ha).toHalfway.interrupted reason) ?_
  rintro i a found w₄ w₅ ha - - ⟨hfound, rfl⟩
  have h₅ : FetchedFrom f env.documentId env.messageId w₀ found w₅ := ⟨h₃.aside ha, hfound.symm⟩
  split
  · -- nothing is missing
    rename_i hempty
    exact finish_replay rfl rfl rfl (h₅.complete hempty)
  rename_i hsome
  rw [Automaton.accepts_bind]
  refine accepts_python_call ⟨h₅.toHalfway, trivial⟩
    (fun reason w₁ ha => (h₅.aside ha).toHalfway.interrupted reason) ?_
  rintro i a vs w₆ w₇ ha htrue hreply ⟨-, rfl⟩
  have h₇ := h₅.aside ha
  obtain rfl := eq_map_of_models htrue hreply
  have hzip : ∀ w, FetchedFrom f env.documentId env.messageId w₀ found w → _ :=
    fun _ h => h.rows_eq
  generalize (found.map PendingChunk.id).zip ((found.map PendingChunk.content).map f) = rows
    at hzip ⊢
  dsimp only
  unfold writeEmbeddings
  split
  · -- there is a row for every chunk found
    rename_i hempty
    have hbatch : batch f w₇.db env.documentId = [] := by
      rw [← hzip w₇ h₇]
      exact List.isEmpty_iff.mp hempty
    have hfound : found = [] := h₇.missing.symm.trans (List.map_eq_nil_iff.mp hbatch)
    exact absurd (List.isEmpty_iff.mpr hfound) hsome
  rw [Automaton.accepts_bind]
  refine accepts_python_call ⟨h₇.toHalfway, hzip w₇ h₇⟩
    (fun reason w₁ ha => (h₇.aside ha).toHalfway.interrupted reason) ?_
  intro i a v w₈ w₉ ha _ _ hdoes
  have h₈ := h₇.aside ha
  refine finish_replay rfl rfl rfl (h₈.toUnhandled.write ?_)
  rw [← hzip w₈ h₈]
  exact congrArg World.db hdoes

/-- No exception of the `try` block is `PermanentError`. -/
theorem onError_replay {env : Envelope} {e : Exc} (hw : Interrupted f d m w₀ e w) :
    (replay f d m w₀).Accepts (onError env e) (fun _ => Finished f d m w₀)
      (fun _ => Halfway f d m w₀) w := by
  have htransient : ∀ (e : ProcessingEvent) (reason : String),
      (replay f d m w₀).Accepts (call (.recordEvent e) >>= fun _ => throw (.transient reason))
        (fun _ : Unit => Finished f d m w₀) (fun _ => Halfway f d m w₀) w := by
    intro e reason
    rw [Automaton.accepts_bind]
    refine accepts_python_look (Halfway f d m w₀) (fun _ _ h => h.aside) ?_ ⟨hw.1, trivial⟩ hw.1
      (fun _ _ h => h) fun _ _ h => h
    rintro i v w w' rfl
    exact .of_db rfl rfl rfl
  cases e with
  | permanent reason => exact absurd rfl (hw.2 reason)
  | transient reason => exact htransient _ _
  | other reason => exact htransient _ _

theorem handle_replay {env : Envelope} (hd : env.documentId = d) (hm : env.messageId = m)
    (hw : Halfway f d m w₀ w) :
    (replay f d m w₀).Accepts (handle env) (fun _ => Finished f d m w₀) (fun _ => Halfway f d m w₀)
      w := by
  subst hd hm
  unfold handle Python.handle Python.alreadyProcessed Python.fetchDocument
  rw [Automaton.accepts_bind]
  refine accepts_python_call ⟨hw, trivial⟩ (fun reason w₁ ha => hw.aside ha) ?_
  rintro i a v w₁ w₂ ha - - ⟨rfl, rfl⟩
  have h₂ := hw.aside ha
  cases hseen : w₂.db.alreadyProcessed env.messageId with
  | true =>
    -- a duplicate
    exact ⟨h₂, fun hfresh => h₂.done hfresh hseen⟩
  | false =>
    have h₂ : Unhandled f env.documentId env.messageId w₀ w₂ :=
      ⟨h₂, Option.isNone_iff_eq_none.mp (Option.isSome_eq_false_iff.mp hseen)⟩
    simp only [Bool.false_eq_true, if_false]
    rw [Automaton.accepts_bind]
    refine accepts_python_call ⟨h₂.toHalfway, trivial⟩ (fun _ _ ha => (h₂.aside ha).toHalfway) ?_
    rintro i a found w₃ w₄ ha - - ⟨rfl, rfl⟩
    have h₄ := h₂.aside ha
    obtain ⟨status, hstatus⟩ := h₄.toHalfway.status
    obtain ⟨document, hdocument, rfl⟩ := Option.map_eq_some_iff.mp hstatus
    simp only [hdocument]
    split
    · -- only the executions themselves have finished the document
      rename_i hterminal
      have hembedded := h₄.row.resolve_left fun hopen => by
        obtain ⟨status, hstatus', hopen⟩ := hopen
        obtain rfl := Option.some.inj (hstatus.symm.trans hstatus')
        rw [hterminal] at hopen
        cases hopen
      exact ⟨h₄.toHalfway, fun _ => hembedded⟩
    · exact (embed_replay rfl rfl document h₄).tryCatch fun e w h => onError_replay h

/-- **One call writes the missing embeddings of the document, all of them, or leaves
the chunk table as it is.** -/
theorem chunks_of_within {c : Call} (hw : Halfway f d m w₀ w) (hc : Within f d w c)
    (ha : Aside d m w w') {i : Nat} {a : Answer} {r : c.Reply} {w'' : World}
    (hx : exec i c a w' = some (r, w'')) :
    w''.db.chunks = w'.db.chunks ∨
      w''.db.chunks = w'.db.chunks.map fun c => if c.documentId = d then fill f c else c := by
  rcases exec_cases hx with ⟨_, -, -, -, rfl⟩ | ⟨v, -, -, hdoes⟩
  · exact Or.inl rfl
  cases c with
  | writeEmbeddings rows =>
    have hrows : rows = batch f w'.db d := by
      refine Eq.trans hc ?_
      unfold batch Db.chunksWithoutEmbedding
      rw [ha.chunks]
    subst hrows
    obtain rfl := hdoes
    exact Or.inr (chunks_writeEmbeddings_batch (ha.key hw.key))
  | insertChunks | createDocument | retryDocument => exact hc.elim
  | alreadyProcessed | fetchDocument | fetchChunksWithoutEmbedding | downloadObject | embedBatch
  | freshId =>
    obtain ⟨-, rfl⟩ := hdoes
    exact Or.inl rfl
  | updateDocument | recordEvent | recordProcessed | putObject | extractText | publish =>
    obtain rfl := hdoes
    exact Or.inl rfl
  | ack outcome =>
    obtain ⟨_, -, rfl⟩ := hdoes
    exact Or.inl rfl
  | nack =>
    obtain ⟨_, _, -, rfl⟩ := hdoes
    exact Or.inl rfl

end Execution

/-! ## Any number of executions -/

/-- The world `w` is reached by executions of `handle` on message `m` of document `d`
that start in `w₀`, and `p` is what is left of the last one. -/
abbrev Attempts (f : Text → Vec) (d : DocId) (m : MessageId) (w₀ : World) (p : Program Unit)
    (w : World) : Prop :=
  Replays (Attempt d m) (amid (Aside d m) (Models f)) w₀ p w

section Attempts
variable {f : Text → Vec} {d : DocId} {m : MessageId} {w₀ w : World} {p : Program Unit}

theorem Attempts.accepts (h : Attempts f d m w₀ p w) (hw₀ : Halfway f d m w₀ w₀) :
    Halfway f d m w₀ w ∧
      (replay f d m w₀).Accepts p (fun _ => Finished f d m w₀) (fun _ => Halfway f d m w₀) w := by
  have hstart : ∀ p w, Attempt d m p → Halfway f d m w₀ w →
      (replay f d m w₀).Accepts p (fun _ => Finished f d m w₀) (fun _ => Halfway f d m w₀) w := by
    rintro p w ⟨env, hd, hm, rfl⟩ hw
    exact handle_replay hd hm hw
  exact ⟨Replays.invariant h hw₀ hstart (fun _ _ h => h.1) (fun _ _ h => h.1) fun _ _ h => h,
    Replays.accepts h hw₀ hstart (fun _ _ h => h.1) (fun _ _ h => h.1) fun _ _ h => h⟩

/-- **The embedding worker resumes where it was cut off.** -/
theorem resumes (hopen : Unfinished d w₀) (hkey : (w₀.db.chunks.map DocumentChunk.id).Nodup)
    (h : Attempts f d m w₀ p w) :
    (w.db.chunksOf d = w₀.db.chunksOf d ∨ FilledIn f d w₀ w) ∧
      (∀ c k, p = .call c k → ∀ w₁ i a r w₂, Aside d m w w₁ → exec i c a w₁ = some (r, w₂) →
        w₂.db.chunks = w₁.db.chunks ∨
          w₂.db.chunks = w₁.db.chunks.map fun c => if c.documentId = d then fill f c else c) ∧
      (p = .ret () → EmbeddedBy f d w₀ w ∨ (w₀.db.processed m).isSome ∧ Unfinished d w ∧
        w.db.chunksOf d = w₀.db.chunksOf d) := by
  obtain ⟨hw, haccepts⟩ := h.accepts (.refl hopen hkey)
  refine ⟨hw.chunks, ?_, ?_⟩
  · rintro c k rfl w₁ i a r w₂ ha hx
    exact chunks_of_within hw haccepts.1.2 ha hx
  · rintro rfl
    by_cases hfresh : w₀.db.processed m = none
    · exact Or.inl (haccepts.2 hfresh)
    · have hsome : (w₀.db.processed m).isSome := Option.isSome_iff_ne_none.mpr hfresh
      obtain ⟨-, hstill, hchunks⟩ := hw.handled hsome
      exact Or.inr ⟨hsome, hstill, hchunks⟩

end Attempts

/-- The environment answers with the vectors of the model. -/
def asModelled (f : Text → Vec) : Call → Answer → Answer
  | .embedBatch texts, _ => .vectors (texts.map f)
  | _, a => a

theorem models_asModelled (f : Text → Vec) (c : Call) (a : Answer) :
    Models f c (asModelled f c a) := by
  cases c with
  | embedBatch texts => rfl
  | _ => trivial

/-- A call with nothing else around it. -/
theorem amid_of_exec {f : Text → Vec} {d : DocId} {m : MessageId} {i : Nat} {c : Call} {a : Answer}
    {w w' : World} {r : c.Reply} (h : exec i c (asModelled f c a) w = some (r, w')) :
    amid (Aside d m) (Models f) c w r w' :=
  ⟨w, .of_db rfl rfl rfl, i, _, models_asModelled f c a, h⟩

/-- The embed message that the chunker of `chunkRun` publishes. -/
def lastMessage : Message := Chunker.nextMessage firstMessage.body ['e'] 1

/-- Settings under which the sample text has three chunks. -/
def smallChunks : Config := { sampleConfig with chunkSize := 2, chunkOverlap := 0 }

/-- The first chunk has its embedding already. -/
def partlyEmbedded (w : World) : World :=
  { w with db := w.db.writeEmbeddings [(1, sampleModel "Invoice 17,".toList)] }

/-- A late execution of the OCR worker starts on document 1, unless it is embedded. -/
def lateStart (w : World) : Option World :=
  if (w.db.documents 1).map Document.status = some .embedding then
    some { w with db := w.db.updateDocument 1 { status := .ocrProcessing } }
  else none

theorem aside_lateStart {m : MessageId} {w w' : World} (h : lateStart w = some w') : Aside 1 m w w' := by
  unfold lateStart at h
  split at h
  · rename_i hembedding
    obtain rfl := Option.some.inj h
    obtain ⟨row, hrow, -⟩ := Option.map_eq_some_iff.mp hembedding
    refine ⟨fun _ => ⟨.ocrProcessing, ?_, rfl⟩, fun hembedded => ?_, rfl, rfl, id⟩
    · rw [Db.updateDocument_documents, if_pos rfl, hrow]
      rfl
    · rw [hembedding] at hembedded
      cases hembedded
  · cases h

/-- One execution is cut off before it has written the batch, the OCR worker starts late on
the document, and a second execution embeds what is missing and finishes. -/
theorem resumes_sample : ∃ w₀ w : World,
    (w₀.db.chunksOf 1).map DocumentChunk.content =
        ["Invoice 17,".toList, "due in".toList, "May".toList] ∧
      (w₀.db.chunksOf 1).map (fun c => c.embedding.isSome) = [true, false, false] ∧
      EmbeddedBy sampleModel 1 w₀ w := by
  obtain ⟨s, hs, hstatus, hcontents, hsome, hfresh, hrun⟩ := exists_run (step smallChunks) .init
    (uploadRun ++ ocrRun 1 ++ chunkRun 2)
    (fun s => ((partlyEmbedded s.world).db.documents 1).map Document.status = some .chunked ∧
      ((partlyEmbedded s.world).db.chunksOf 1).map DocumentChunk.content =
        ["Invoice 17,".toList, "due in".toList, "May".toList] ∧
      ((partlyEmbedded s.world).db.chunksOf 1).map (fun c => c.embedding.isSome) =
        [true, false, false] ∧
      (partlyEmbedded s.world).db.processed ['e'] = none ∧
      (feed (fun c a => exec 3 c (asModelled sampleModel c a)) [.ok, .ok, .ok, .ok, .ok, .ok]
        (handle lastMessage.body) (partlyEmbedded s.world)).any (fun r =>
          (feed (fun c a w => (lateStart w).bind (exec 4 c (asModelled sampleModel c a))) [.ok]
            (handle lastMessage.body) r.2).any (fun r =>
              (feed (fun c a => exec 4 c (asModelled sampleModel c a))
                [.ok, .ok, .ok, .ok, .ok, .ok, .ok, .ok, .ok] r.1 r.2).any
                  (fun r => r.1.value = some ()) = true) = true) = true) (by decide)
  obtain ⟨⟨p₁, w₁⟩, hfeed₁, hrun⟩ := (Option.any_eq_true _ _).mp hrun
  obtain ⟨⟨p₂, w₂⟩, hfeed₂, hrun⟩ := (Option.any_eq_true _ _).mp (of_decide_eq_true hrun)
  obtain ⟨⟨p₃, w₃⟩, hfeed₃, hvalue⟩ := (Option.any_eq_true _ _).mp (of_decide_eq_true hrun)
  have hattempt : Attempt 1 ['e'] (handle lastMessage.body) := ⟨lastMessage.body, rfl, rfl, rfl⟩
  have h₁ : Attempts sampleModel 1 ['e'] (partlyEmbedded s.world) p₁ w₁ :=
    (Replays.start hattempt).feed (fun _ _ _ _ _ => amid_of_exec) hfeed₁
  have h₂ : Attempts sampleModel 1 ['e'] (partlyEmbedded s.world) p₂ w₂ := by
    refine (h₁.again hattempt).feed (fun c a w r w' hx => ?_) hfeed₂
    obtain ⟨w'', hlate, hx⟩ := Option.bind_eq_some_iff.mp hx
    exact ⟨w'', aside_lateStart hlate, 4, _, models_asModelled _ c a, hx⟩
  have h₃ : Attempts sampleModel 1 ['e'] (partlyEmbedded s.world) p₃ w₃ :=
    h₂.feed (fun _ _ _ _ _ => amid_of_exec) hfeed₃
  have hkey : ((partlyEmbedded s.world).db.chunks.map DocumentChunk.id).Nodup := by
    rw [partlyEmbedded, ids_writeEmbeddings]
    exact (reachable_base (Reaches.of_run hs)).db.chunkIds
  refine ⟨partlyEmbedded s.world, w₃, hcontents, hsome, ?_⟩
  have hresumes := (resumes ⟨.chunked, hstatus, rfl⟩ hkey h₃).2.2
    (Prog.eq_ret_of_value (of_decide_eq_true hvalue))
  refine hresumes.resolve_right fun hdone => ?_
  rw [hfresh] at hdone
  cases hdone.1

/-- No step of the chunker on document `d`, and nothing that handles message `m`. -/
structure NoChunker (d : DocId) (m : MessageId) (w w' : World) : Prop where
  chunks : w'.db.chunksOf d = w.db.chunksOf d
  processed : w'.db.processed m = w.db.processed m
  key : (w.db.chunks.map DocumentChunk.id).Nodup → (w'.db.chunks.map DocumentChunk.id).Nodup

/-- In every reachable state in which the embed message of a document is queued and the
document has chunks and is not finished, executions after which one returns leave it
`embedded`, with what `start` allows at the start and what `aside` allows in between. -/
def AlwaysResumes (start : World → MessageId → Prop)
    (aside : DocId → MessageId → World → World → Prop) : Prop :=
  ∀ (cfg : Config) (f : Text → Vec) (s : Sys) (copy : Copy) (d : DocId) (m : MessageId)
    (p : Program Unit) (w : World), Reachable cfg anyStep s →
      copy ∈ s.world.broker.queues ⟨.embed, .work⟩ → copy.message.body.documentId = d →
      copy.message.body.messageId = m →
      (∃ row, s.world.db.documents d = some row ∧ row.status.terminal = false) →
      s.world.db.chunksOf d ≠ [] → start s.world m →
      Replays (Attempt d m) (amid (aside d m) (Models f)) s.world p w → p = .ret () →
        EmbeddedBy f d s.world w

/-- Two executions of the chunker overlap: the second hands the document on, it is
embedded, its delivery is taken back, and the first divides it again. -/
def overtakenRun : List Label :=
  uploadRun ++ ocrRun 1 ++ .deliver 2 .chunk 0 :: answers 2 [.ok, .ok] ++ .redeliver 2 :: chunkRun 3 ++
    .deliver 4 .embed 0 :: answers 4 [.ok, .ok, .ok, .ok, .ok, .vectors [sampleModel sampleText], .ok, .ok, .ok, .ok] ++
    .redeliver 4 :: answers 2 [.ok, .ok, .ok, .ok]

/-- How the OCR worker gives up. -/
def lateFailure : DocumentUpdate :=
  { status := .failed, failureReason := some "OCR produced empty text", failedAt := some .now }

/-- A late execution of the OCR worker has given up on document 1. -/
def afterFailure (w : World) : World := { w with db := w.db.updateDocument 1 lateFailure }

theorem noChunker_afterFailure (m : MessageId) (w : World) : NoChunker 1 m w (afterFailure w) :=
  ⟨rfl, rfl, id⟩

/-- **A message that has been handled before resumes nothing, and a document that the OCR
worker fails in between is not embedded.** -/
theorem not_resumes : (¬ AlwaysResumes (fun _ _ => True) Aside) ∧
    ¬ AlwaysResumes (fun w m => w.db.processed m = none) NoChunker := by
  constructor
  · intro hall
    obtain ⟨s, hs, hqueue, hrow, hchunks, hrun⟩ := exists_run (step sampleConfig) .init overtakenRun
      (fun s => ((s.world.broker.queues ⟨.embed, .work⟩)[0]?).any (fun copy =>
          copy.message = lastMessage) = true ∧
        (s.world.db.documents 1).any (fun row => row.status.terminal = false) = true ∧
        (s.world.db.chunksOf 1).isEmpty = false ∧
        (feed (fun c a => exec 5 c (asModelled sampleModel c a)) [.ok] (handle lastMessage.body)
          s.world).any (fun r => r.1.value = some () ∧
            (r.2.db.documents 1).map Document.status ≠ some .embedded) = true) (by decide)
    obtain ⟨copy, hcopy, hmessage⟩ := (Option.any_eq_true _ _).mp hqueue
    have hmessage := of_decide_eq_true hmessage
    obtain ⟨row, hrow, hterminal⟩ := (Option.any_eq_true _ _).mp hrow
    obtain ⟨⟨p, w⟩, hfeed, hrun⟩ := (Option.any_eq_true _ _).mp hrun
    obtain ⟨hvalue, hstatus⟩ := of_decide_eq_true hrun
    have h : Attempts sampleModel 1 ['e'] s.world p w :=
      (Replays.start ⟨lastMessage.body, rfl, rfl, rfl⟩).feed (fun _ _ _ _ _ => amid_of_exec) hfeed
    have hembedded := hall _ _ s copy 1 ['e'] p w (.of_run hs) (List.mem_of_getElem? hcopy)
      (by rw [hmessage]; rfl) (by rw [hmessage]; rfl) ⟨row, hrow, of_decide_eq_true hterminal⟩
      (List.isEmpty_eq_false_iff.mp hchunks) trivial h (Prog.eq_ret_of_value hvalue)
    exact hstatus hembedded.1
  · intro hall
    obtain ⟨s, hs, hqueue, hrow, hchunks, hfresh, hrun⟩ := exists_run (step sampleConfig) .init
      (uploadRun ++ ocrRun 1 ++ chunkRun 2)
      (fun s => ((s.world.broker.queues ⟨.embed, .work⟩)[0]?).any (fun copy =>
          copy.message = lastMessage) = true ∧
        (s.world.db.documents 1).any (fun row => row.status.terminal = false) = true ∧
        (s.world.db.chunksOf 1).isEmpty = false ∧ s.world.db.processed ['e'] = none ∧
        (feed (fun c a => exec 3 c (asModelled sampleModel c a)) [.ok] (handle lastMessage.body)
          s.world).any (fun r =>
            (feed (fun c a w => exec 3 c (asModelled sampleModel c a) (afterFailure w)) [.ok]
              r.1 r.2).any (fun r => r.1.value = some () ∧
                (r.2.db.documents 1).map Document.status ≠ some .embedded) = true) = true) (by decide)
    obtain ⟨copy, hcopy, hmessage⟩ := (Option.any_eq_true _ _).mp hqueue
    have hmessage := of_decide_eq_true hmessage
    obtain ⟨row, hrow, hterminal⟩ := (Option.any_eq_true _ _).mp hrow
    obtain ⟨⟨p₁, w₁⟩, hfeed₁, hrun⟩ := (Option.any_eq_true _ _).mp hrun
    obtain ⟨⟨p₂, w₂⟩, hfeed₂, hrun⟩ := (Option.any_eq_true _ _).mp (of_decide_eq_true hrun)
    obtain ⟨hvalue, hstatus⟩ := of_decide_eq_true hrun
    have h₁ : Replays (Attempt 1 ['e']) (amid (NoChunker 1 ['e']) (Models sampleModel)) s.world
        p₁ w₁ :=
      (Replays.start ⟨lastMessage.body, rfl, rfl, rfl⟩).feed
        (fun c a w r w' hx => ⟨w, ⟨rfl, rfl, id⟩, 3, _, models_asModelled _ c a, hx⟩) hfeed₁
    -- the document fails between the first call and the second
    have h₂ : Replays (Attempt 1 ['e']) (amid (NoChunker 1 ['e']) (Models sampleModel)) s.world
        p₂ w₂ :=
      h₁.feed (fun c a w r w' hx =>
        ⟨afterFailure w, noChunker_afterFailure _ w, 3, _, models_asModelled _ c a, hx⟩) hfeed₂
    have hembedded := hall _ _ s copy 1 ['e'] p₂ w₂ (.of_run hs) (List.mem_of_getElem? hcopy)
      (by rw [hmessage]; rfl) (by rw [hmessage]; rfl) ⟨row, hrow, of_decide_eq_true hterminal⟩
      (List.isEmpty_eq_false_iff.mp hchunks) hfresh h₂ (Prog.eq_ret_of_value hvalue)
    exact hstatus hembedded.1

end DigitalCip.Embedder
