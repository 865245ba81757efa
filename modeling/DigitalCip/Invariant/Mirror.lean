import DigitalCip.Invariant.Slice
import DigitalCip.Invariant.Twins

/-!
# Two worlds that hold the same of one document

`Mirror ρ d w w'` says that `w` and `w'` hold the same of document `d`, up to the
ids of its chunks, which `ρ` pairs.  A call of a handler of `d` in `w` can be made in
`w'` as well, with the same answer, and leaves two worlds that again hold the same
(`Mirror.exec`).
-/

namespace DigitalCip
open Resumable

/-- The same chunk under another id. -/
structure DocumentChunk.Twin (ρ : IdPairs) (c c' : DocumentChunk) : Prop where
  id : (c.id, c'.id) ∈ ρ
  data : c'.data = c.data

/-- The pairs are of ids below `n` and `n'`, and each id is in one pair at most. -/
structure Pairing (ρ : IdPairs) (n n' : ChunkId) : Prop where
  lt : ∀ p ∈ ρ, p.1 < n ∧ p.2 < n'
  inj : ∀ p ∈ ρ, ∀ q ∈ ρ, p.1 = q.1 ↔ p.2 = q.2

/-- Two databases that hold the same of document `d`. -/
structure Db.Mirror (ρ : IdPairs) (d : DocId) (db db' : Db) : Prop where
  row : db'.documents d = db.documents d
  chunks : List.Forall₂ (DocumentChunk.Twin ρ) (db.chunksOf d) (db'.chunksOf d)
  trail : db'.trail d = db.trail d
  processed : db'.processedOf d = db.processedOf d
  pairing : Pairing ρ db.nextChunkId db'.nextChunkId

/-- Two worlds that hold the same of document `d`.  More ids may be in use in the
first. -/
structure Mirror (ρ : IdPairs) (d : DocId) (w w' : World) : Prop where
  db : w.db.Mirror ρ d w'.db
  mailbox : w'.broker.mailbox d = w.broker.mailbox d
  objects : w'.objects = w.objects
  ids : ∀ p ∈ w'.ids, p ∈ w.ids

/-! ## Chunks and their twins -/

section Twins
variable {ρ ρ' : IdPairs} {n n' : ChunkId} {c c' : DocumentChunk} {p p' : PendingChunk}

/-- Both get the new embedding, or neither does. -/
theorem twin_setEmbedding (hρ : Pairing ρ n n') (h : c.Twin ρ c') {id id' : ChunkId}
    (hid : (id, id') ∈ ρ) (v : Vec) :
    (Db.setEmbedding id v c).Twin ρ (Db.setEmbedding id' v c') := by
  have hsame : c.id = id ↔ c'.id = id' := hρ.inj _ h.id _ hid
  obtain ⟨hpos, hcontent, htokens, -⟩ : c'.position = c.position ∧ c'.content = c.content ∧
      c'.tokenCount = c.tokenCount ∧ c'.embedding = c.embedding := by
    simpa [DocumentChunk.data] using h.data
  unfold Db.setEmbedding
  by_cases hc : c.id = id
  · rw [if_pos hc, if_pos (hsame.mp hc)]
    exact ⟨h.id, by simp [DocumentChunk.data, hpos, hcontent, htokens]⟩
  · rw [if_neg hc, if_neg fun he => hc (hsame.mpr he)]
    exact h

theorem twin_embedRow (hρ : Pairing ρ n n') {rows rows' : List (ChunkId × Vec)}
    (hrows : List.Forall₂ (RowTwin ρ) rows rows') (h : c.Twin ρ c') :
    (embedRow rows c).Twin ρ (embedRow rows' c') := by
  induction hrows generalizing c c' with
  | nil => exact h
  | @cons row row' _ _ hrow _ ih =>
    obtain ⟨hid, hv⟩ := hrow
    refine ih ?_
    show (Db.setEmbedding row.1 row.2 c).Twin ρ (Db.setEmbedding row'.1 row'.2 c')
    rw [hv]
    exact twin_setEmbedding hρ h hid row.2

/-- What the embedding worker sees of the chunks without an embedding. -/
theorem twin_pending {cs cs' : List DocumentChunk}
    (h : List.Forall₂ (DocumentChunk.Twin ρ) cs cs') :
    List.Forall₂ (PendingChunk.Twin ρ)
      ((cs.filter fun c => c.embedding.isNone).map fun c => ⟨c.id, c.position, c.content⟩)
      ((cs'.filter fun c => c.embedding.isNone).map fun c => ⟨c.id, c.position, c.content⟩) := by
  induction h with
  | nil => exact .nil
  | @cons c c' cs cs' hc _ ih =>
    obtain ⟨hpos, hcontent, -, hembedding⟩ : c'.position = c.position ∧ c'.content = c.content ∧
        c'.tokenCount = c.tokenCount ∧ c'.embedding = c.embedding := by
      simpa [DocumentChunk.data] using hc.data
    rw [List.filter_cons, List.filter_cons, hembedding]
    by_cases he : c.embedding.isNone
    · rw [if_pos he, if_pos he]
      exact .cons ⟨hc.id, hpos, hcontent⟩ ih
    · rw [if_neg he, if_neg he]
      exact ih

/-- Sorting by position keeps twins together. -/
theorem twin_insertionSort {ps ps' : List PendingChunk}
    (h : List.Forall₂ (PendingChunk.Twin ρ) ps ps') :
    List.Forall₂ (PendingChunk.Twin ρ) (ps.insertionSort fun a b => a.position ≤ b.position)
      (ps'.insertionSort fun a b => a.position ≤ b.position) := by
  have hinsert : ∀ {qs qs'}, List.Forall₂ (PendingChunk.Twin ρ) qs qs' → ∀ {p p'}, p.Twin ρ p' →
      List.Forall₂ (PendingChunk.Twin ρ) (qs.orderedInsert (fun a b => a.position ≤ b.position) p)
        (qs'.orderedInsert (fun a b => a.position ≤ b.position) p') := by
    intro qs qs' hqs p p' hp
    induction hqs with
    | nil => exact .cons hp .nil
    | @cons q q' qs qs' hq hrest ih =>
      rw [List.orderedInsert_cons, List.orderedInsert_cons, hp.position, hq.position]
      by_cases hle : p.position ≤ q.position
      · rw [if_pos hle, if_pos hle]
        exact .cons hp (.cons hq hrest)
      · rw [if_neg hle, if_neg hle]
        exact .cons hq ih
  induction h with
  | nil => exact .nil
  | cons hp _ ih => exact hinsert ih hp

theorem twin_data {cs cs' : List DocumentChunk} (h : List.Forall₂ (DocumentChunk.Twin ρ) cs cs') :
    cs'.map DocumentChunk.data = cs.map DocumentChunk.data := by
  induction h with
  | nil => rfl
  | cons hc _ ih => rw [List.map_cons, List.map_cons, hc.data, ih]

/-- The pairs of the ids of `k` new chunks. -/
def newPairs (n n' : ChunkId) (k : Nat) : IdPairs := {p | ∃ j < k, p = (n + j, n' + j)}

theorem Pairing.insert (h : Pairing ρ n n') (k : Nat) :
    Pairing (ρ ∪ newPairs n n' k) (n + k) (n' + k) := by
  have hold : ∀ p ∈ ρ, ∀ j, p.1 < n + j ∧ p.2 < n' + j := fun p hp j =>
    ⟨(h.lt p hp).1.trans_le (Nat.le_add_right n j), (h.lt p hp).2.trans_le (Nat.le_add_right n' j)⟩
  constructor
  · rintro p (hp | ⟨j, hj, rfl⟩)
    · exact hold p hp k
    · exact ⟨Nat.add_lt_add_left hj n, Nat.add_lt_add_left hj n'⟩
  · rintro p (hp | ⟨j, -, rfl⟩) q (hq | ⟨j', -, rfl⟩)
    · exact h.inj p hp q hq
    · exact iff_of_false (hold p hp j').1.ne (hold p hp j').2.ne
    · exact iff_of_false (hold q hq j).1.ne' (hold q hq j).2.ne'
    · exact Nat.add_left_cancel_iff.trans Nat.add_left_cancel_iff.symm

theorem Pairing.mono {m m' : ChunkId} (h : Pairing ρ n n') (hm : n ≤ m) (hm' : n' ≤ m') :
    Pairing ρ m m' :=
  ⟨fun p hp => ⟨(h.lt p hp).1.trans_le hm, (h.lt p hp).2.trans_le hm'⟩, h.inj⟩

end Twins

/-! ## Statements on both databases -/

namespace Db.Mirror
variable {ρ : IdPairs} {d : DocId} {db db' : Db} (h : db.Mirror ρ d db')
include h

theorem updateDocument (u : DocumentUpdate) :
    (db.updateDocument d u).Mirror ρ d (db'.updateDocument d u) := by
  refine ⟨?_, h.chunks, h.trail, h.processed, h.pairing⟩
  rw [updateDocument_documents, updateDocument_documents, if_pos rfl, if_pos rfl, h.row]

theorem recordEvent {e : ProcessingEvent} (he : e.documentId = d) :
    (db.recordEvent e).Mirror ρ d (db'.recordEvent e) := by
  refine ⟨h.row, h.chunks, ?_, h.processed, h.pairing⟩
  rw [trail_recordEvent, trail_recordEvent, if_pos he, if_pos he, h.trail]

/-- A dedupe row that is for `d`, if there is one, is the same in both. -/
theorem processed_eq {m : MessageId} (hm : ∀ row, db.processed m = some row → row.documentId = d)
    (hm' : ∀ row, db'.processed m = some row → row.documentId = d) :
    db'.processed m = db.processed m := by
  have hkeep : ∀ {o : Option StoredMessage}, (∀ row, o = some row → row.documentId = d) →
      o.filter (fun row => row.documentId = d) = o := by
    intro o ho
    cases o with
    | none => rfl
    | some row => simp [Option.filter, ho row rfl]
  calc db'.processed m = db'.processedOf d m := (hkeep hm').symm
    _ = db.processedOf d m := congrFun h.processed m
    _ = db.processed m := hkeep hm

theorem recordProcessed {i : Nat} {row : ProcessedMessage}
    (hm : ∀ row', db.processed row.messageId = some row' → row'.documentId = d)
    (hm' : ∀ row', db'.processed row.messageId = some row' → row'.documentId = d) :
    (db.recordProcessed i row).Mirror ρ d (db'.recordProcessed i row) := by
  refine ⟨h.row, h.chunks, h.trail, funext fun m => ?_, h.pairing⟩
  unfold processedOf
  rw [recordProcessed_processed, recordProcessed_processed]
  by_cases he : m = row.messageId
  · rw [if_pos he, if_pos he, h.processed_eq hm hm']
  · rw [if_neg he, if_neg he]
    exact congrFun h.processed m

/-- The new chunks get the next ids of either database. -/
theorem insertChunks (rows : List ChunkRow) :
    (db.insertChunks d rows).Mirror (ρ ∪ newPairs db.nextChunkId db'.nextChunkId rows.length) d
      (db'.insertChunks d rows) := by
  refine ⟨h.row, ?_, h.trail, h.processed, h.pairing.insert rows.length⟩
  rw [chunksOf_insertChunks_self, chunksOf_insertChunks_self, List.forall₂_iff_get]
  refine ⟨by simp, fun j hj hj' => ?_⟩
  have hlt : j < rows.length := by simpa using hj
  exact ⟨Or.inr ⟨j, hlt, by simp [newChunk]⟩, by simp [newChunk, DocumentChunk.data]⟩

theorem writeEmbeddings {rows rows' : List (ChunkId × Vec)}
    (hrows : List.Forall₂ (RowTwin ρ) rows rows') :
    (db.writeEmbeddings rows).Mirror ρ d (db'.writeEmbeddings rows') := by
  refine ⟨h.row, ?_, h.trail, h.processed, h.pairing⟩
  rw [chunksOf_writeEmbeddings, chunksOf_writeEmbeddings, List.forall₂_map_left_iff,
    List.forall₂_map_right_iff]
  exact h.chunks.imp fun _ _ hc => twin_embedRow h.pairing hrows hc

theorem chunksWithoutEmbedding :
    List.Forall₂ (PendingChunk.Twin ρ) (db.chunksWithoutEmbedding d)
      (db'.chunksWithoutEmbedding d) :=
  twin_insertionSort (twin_pending h.chunks)

/-- What does not concern `d` happens to the first database only. -/
theorem aside {db₁ : Db} (hrow : db₁.documents d = db.documents d)
    (hchunks : db₁.chunksOf d = db.chunksOf d) (htrail : db₁.trail d = db.trail d)
    (hprocessed : db₁.processedOf d = db.processedOf d)
    (hnext : db.nextChunkId ≤ db₁.nextChunkId) : db₁.Mirror ρ d db' :=
  ⟨h.row.trans hrow.symm, hchunks ▸ h.chunks, h.trail.trans htrail.symm,
    h.processed.trans hprocessed.symm, h.pairing.mono hnext (le_refl _)⟩

/-- What the tables hold of `d`. -/
theorem ledger : db'.ledger d = db.ledger d :=
  Ledger.ext h.row (twin_data h.chunks) h.trail h.processed

end Db.Mirror

/-! ## Calls in both worlds -/

/-- The dedupe row of a message that is being handled is for its document. -/
theorem Base.recorded_document {w : World} (hb : Base w) {i : Nat} {copy : Copy}
    (hi : w.broker.handled i = some copy) {row : StoredMessage}
    (h : w.db.processed copy.message.body.messageId = some row) :
    row.documentId = copy.message.body.documentId := by
  obtain ⟨-, env, hhandles, hid, hdoc⟩ := hb.recorded _ row h
  obtain ⟨S, hstems⟩ := hb.stems_of_handled hi
  have hself : Handles w i S copy.message.body := ⟨copy, hi, hstems, .refl _⟩
  exact hdoc.symm.trans (hb.sameHandled hhandles hself hid).2

namespace Mirror
variable {ρ : IdPairs} {d : DocId} {w w' : World} (h : Mirror ρ d w w')
include h

theorem of_db {ρ' : IdPairs} {db db' : Db} (hdb : db.Mirror ρ' d db') :
    Mirror ρ' d { w with db := db } { w' with db := db' } := ⟨hdb, h.mailbox, h.objects, h.ids⟩

theorem of_broker {b b' : Broker} (hb : b'.mailbox d = b.mailbox d) :
    Mirror ρ d { w with broker := b } { w' with broker := b' } := ⟨h.db, hb, h.objects, h.ids⟩

/-- A message of the document is published. -/
theorem publish (i : Nat) (exchange : Exchange) (key : RoutingKey) {m : Message}
    (hm : m.body.documentId = d) :
    Mirror ρ d { w with broker := w.broker.publish i exchange key m }
      { w' with broker := w'.broker.publish i exchange key m } := by
  refine h.of_broker ?_
  rw [Broker.mailbox_publish _ hm, Broker.mailbox_publish _ hm, h.mailbox]

/-- An execution holds the same delivery in both. -/
theorem delivery {i : Nat} {copy : Copy} {q : Queue} {u : Bool}
    (hi : w.broker.deliveries i = some ⟨copy, q, u⟩) (hd : copy.message.body.documentId = d) :
    ∃ copy', w'.broker.deliveries i = some ⟨copy', q, u⟩ ∧ copy'.message = copy.message := by
  have hdelivery := w.broker.mailbox_deliveries hi hd
  rw [← h.mailbox] at hdelivery
  obtain ⟨copy', hi', hm, -⟩ := w'.broker.of_mailbox_deliveries hdelivery
  exact ⟨copy', hi', hm⟩

theorem handled {i : Nat} {copy : Copy} (hi : w.broker.handled i = some copy)
    (hd : copy.message.body.documentId = d) :
    ∃ copy', w'.broker.handled i = some copy' ∧ copy'.message = copy.message := by
  obtain ⟨⟨copy, q, u⟩, hdl, rfl⟩ := Option.map_eq_some_iff.mp hi
  obtain ⟨copy', hdl', hm⟩ := h.delivery hdl hd
  exact ⟨copy', by rw [Broker.handled, hdl']; rfl, hm⟩

/-- A copy of the document in a queue has a place among the copies of the document, and
the other queue has one in that place. -/
theorem queued {q : Queue} {n : Nat} {copy : Copy} (hn : (w.broker.queues q)[n]? = some copy)
    (hd : copy.message.body.documentId = d) :
    ∃ n' copy', (w'.broker.queues q)[n']? = some copy' ∧ copy'.message = copy.message ∧
      rankOf d (w'.broker.queues q) n' = rankOf d (w.broker.queues q) n := by
  have hmail : mailOf d (w'.broker.queues q) = mailOf d (w.broker.queues q) :=
    congrFun (congrArg Mailbox.queues h.mailbox) q
  have hrank := (mailOf_getElem? hn hd).1
  rw [← hmail] at hrank
  obtain ⟨n', copy', hn', hm, -, hrank'⟩ := exists_of_mailOf_getElem? hrank
  exact ⟨n', copy', hn', hm, hrank'⟩

/-- The broker takes a delivery back. -/
theorem takeBack {i : Nat} {copy : Copy} (hi : w.broker.handled i = some copy)
    (hd : copy.message.body.documentId = d) : Mirror ρ d (w.takeBack i) (w'.takeBack i) := by
  obtain ⟨copy', hi', hm⟩ := h.handled hi hd
  obtain ⟨dl, hdl, rfl⟩ := Option.map_eq_some_iff.mp hi
  obtain ⟨dl', hdl', rfl⟩ := Option.map_eq_some_iff.mp hi'
  have hmailbox : (w'.takeBack i).broker.mailbox d = (w.takeBack i).broker.mailbox d := by
    rw [mailbox_takeBack w i hdl hd, mailbox_takeBack w' i hdl' (hm ▸ hd), h.mailbox]
  have hrest : ∀ w : World, w.takeBack i = { w with broker := (w.takeBack i).broker } := by
    intro w
    rcases takeBack_cases w i with he | ⟨copy, q, -, he⟩ <;> rw [he]
  rw [hrest w, hrest w']
  exact h.of_broker hmailbox

theorem release (i : Nat) : (w'.broker.release i).mailbox d = (w.broker.release i).mailbox d := by
  rw [Broker.mailbox_release, Broker.mailbox_release, h.mailbox]

end Mirror

/-- `c'` does in `w'` what `c` has done in `w`, with the reply `v` and leaving `w₁`. -/
def Follows (ρ : IdPairs) (d : DocId) (i : Nat) (a : Answer) (c c' : Call) (v : c.Val)
    (w₁ w' : World) : Prop :=
  ∃ σ v' w₁', ρ ⊆ σ ∧ reply i c' a w' = some (v', w₁') ∧ ReplyTwin σ c c' (.ok v) (.ok v') ∧
    Mirror σ d w₁ w₁'

section Calls
variable {ρ : IdPairs} {i : Nat} {a : Answer} {c : Call} {v : c.Val} {w w₁ w' : World} {S : Stage}
  {d : DocId}

theorem Follows.same {w₁' : World} (hc : IdFree c) (hx : reply i c a w' = some (v, w₁'))
    (h : Mirror ρ d w₁ w₁') : Follows ρ d i a c c v w₁ w' :=
  ⟨ρ, v, w₁', subset_rfl, hx, replyTwin_refl hc _, h⟩

/-- A handler's call. -/
theorem follows_of_internal {m : MessageId} (h : Mirror ρ d w w') (hc : Internal S m d c)
    (hm : ∀ row, w.db.processed m = some row → row.documentId = d)
    (hm' : ∀ row, w'.db.processed m = some row → row.documentId = d)
    (hfree : ∀ rows, c ≠ .writeEmbeddings rows) (hx : reply i c a w = some (v, w₁)) :
    Follows ρ d i a c c v w₁ w' := by
  cases c with
  | alreadyProcessed m' =>
    obtain rfl : m' = m := hc
    cases a <;> simp only [reply, reduceCtorEq] at hx
    obtain ⟨rfl, rfl⟩ := Prod.mk.inj (Option.some.inj hx)
    refine .same trivial ?_ h
    show some (w'.db.alreadyProcessed m', w') = _
    unfold Db.alreadyProcessed
    rw [h.db.processed_eq hm hm']
  | fetchDocument d' =>
    obtain rfl : d' = d := hc
    cases a <;> simp only [reply, reduceCtorEq] at hx
    obtain ⟨rfl, rfl⟩ := Prod.mk.inj (Option.some.inj hx)
    refine .same trivial ?_ h
    show some (w'.db.documents d', w') = _
    rw [h.db.row]
  | updateDocument d' u =>
    obtain ⟨rfl, -⟩ : d' = d ∧ _ := hc
    cases a <;> simp only [reply, reduceCtorEq] at hx
    obtain ⟨rfl, rfl⟩ := Prod.mk.inj (Option.some.inj hx)
    exact .same trivial rfl (h.of_db (h.db.updateDocument u))
  | recordEvent e =>
    cases a <;> simp only [reply, reduceCtorEq] at hx
    obtain ⟨rfl, rfl⟩ := Prod.mk.inj (Option.some.inj hx)
    exact .same trivial rfl (h.of_db (h.db.recordEvent hc))
  | recordProcessed row =>
    obtain ⟨rfl, -⟩ : row.messageId = m ∧ _ := hc
    cases a <;> simp only [reply, reduceCtorEq] at hx
    obtain ⟨rfl, rfl⟩ := Prod.mk.inj (Option.some.inj hx)
    exact .same trivial rfl (h.of_db (h.db.recordProcessed hm hm'))
  | insertChunks d' rows =>
    obtain ⟨rfl, -⟩ : d' = d ∧ _ := hc
    cases a <;> simp only [reply, reduceCtorEq] at hx
    obtain ⟨rfl, rfl⟩ := Prod.mk.inj (Option.some.inj hx)
    exact ⟨_, (), _, Set.subset_union_left, rfl, HEq.rfl, h.of_db (h.db.insertChunks rows)⟩
  | fetchChunksWithoutEmbedding d' =>
    obtain ⟨rfl, -⟩ : d' = d ∧ _ := hc
    cases a <;> simp only [reply, reduceCtorEq] at hx
    obtain ⟨rfl, rfl⟩ := Prod.mk.inj (Option.some.inj hx)
    exact ⟨ρ, _, w', subset_rfl, rfl, h.db.chunksWithoutEmbedding, h⟩
  | writeEmbeddings rows => exact absurd rfl (hfree rows)
  | downloadObject key =>
    cases a <;> simp only [reply, reduceCtorEq] at hx
    obtain ⟨blob, hblob, he⟩ := Option.map_eq_some_iff.mp hx
    obtain ⟨rfl, rfl⟩ := Prod.mk.inj he
    refine .same trivial ?_ h
    show (w'.objects key).map _ = _
    rw [h.objects, hblob]
    rfl
  | extractText =>
    cases a <;> simp only [reply, reduceCtorEq] at hx
    obtain ⟨rfl, rfl⟩ := Prod.mk.inj (Option.some.inj hx)
    exact .same trivial rfl h
  | embedBatch texts =>
    cases a with
    | vectors vs =>
      simp only [reply] at hx
      split at hx
      · rename_i hlen
        obtain ⟨rfl, rfl⟩ := Prod.mk.inj (Option.some.inj hx)
        exact .same trivial (if_pos hlen) h
      · cases hx
    | _ => cases hx
  | _ => exact hc.elim

/-- A call that settles the delivery. -/
theorem follows_of_settling {copy : Copy} (h : Mirror ρ d w w')
    (hi : w.broker.handled i = some copy) (hd : copy.message.body.documentId = d)
    (hc : Settling S copy.message c ∨ c = .ack .success) (hx : reply i c a w = some (v, w₁)) :
    Follows ρ d i a c c v w₁ w' := by
  have hcopy : ∀ {copy' q u}, w.broker.deliveries i = some ⟨copy', q, u⟩ → copy' = copy :=
    fun hdl => by simpa [Broker.handled, hdl] using hi
  cases c with
  | publish exchange key m =>
    cases a <;> simp only [reply, reduceCtorEq] at hx
    obtain ⟨rfl, rfl⟩ := Prod.mk.inj (Option.some.inj hx)
    have hsubject : ConsumerCall S copy.message (.publish exchange key m) := Or.inr (Or.inl hc)
    exact .same trivial rfl (h.publish i exchange key ((hsubject.subject rfl).trans hd))
  | ack outcome =>
    cases a <;> simp only [reply, reduceCtorEq] at hx
    split at hx
    · rename_i copy' q hdl
      obtain ⟨rfl, rfl⟩ := Prod.mk.inj (Option.some.inj hx)
      obtain ⟨copy'', hdl', -⟩ := h.delivery hdl (hcopy hdl ▸ hd)
      have hreply : reply i (.ack outcome) .ok w' =
          some ((), { w' with broker := w'.broker.ack i copy'' outcome }) := by
        simp only [reply, hdl']
      exact .same trivial hreply (h.of_broker (h.release i))
    · cases hx
  | nack =>
    cases a <;> simp only [reply, reduceCtorEq] at hx
    split at hx
    · rename_i copy' q hdl
      obtain ⟨rfl, rfl⟩ := Prod.mk.inj (Option.some.inj hx)
      have hd' : copy'.message.body.documentId = d := hcopy hdl ▸ hd
      obtain ⟨copy'', hdl', hm⟩ := h.delivery hdl hd'
      have hreply : reply i .nack .ok w' =
          some ((), { w' with broker := w'.broker.nack i copy'' q }) := by
        simp only [reply, hdl']
      refine .same trivial hreply (h.of_broker ?_)
      unfold Broker.nack
      rw [Broker.mailbox_deadLetter _ hd', Broker.mailbox_deadLetter _ (hm ▸ hd'), h.release, hm]
    · cases hx
  | _ =>
    rcases hc with hc | hc
    · exact hc.elim
    · cases hc

/-- A call that hands the document on. -/
theorem follows_of_handing (h : Mirror ρ d w w') (hc : Handing S d c)
    (hx : reply i c a w = some (v, w₁)) : Follows ρ d i a c c v w₁ w' := by
  cases c with
  | freshId =>
    cases a <;> simp only [reply, reduceCtorEq] at hx
    split at hx
    · rename_i t hfresh
      obtain ⟨rfl, rfl⟩ := Prod.mk.inj (Option.some.inj hx)
      -- an id that nobody has is one that fewer have
      have hfresh' : FreshId w' t := ⟨fun p hp => hfresh.1 p (h.ids p hp), hfresh.2⟩
      refine .same trivial (if_pos hfresh') ⟨h.db, h.mailbox, h.objects, fun p hp => ?_⟩
      rcases List.mem_cons.mp hp with rfl | hp
      · exact List.mem_cons_self
      · exact List.mem_cons_of_mem _ (h.ids p hp)
    · cases hx
  | publish exchange key m =>
    cases exchange with
    | ingest =>
      cases a <;> simp only [reply, reduceCtorEq] at hx
      obtain ⟨rfl, rfl⟩ := Prod.mk.inj (Option.some.inj hx)
      exact .same trivial rfl (h.publish i .ingest key hc.2.2)
    | retry | dlx => exact hc.elim
  | _ => exact hc.elim

/-- The embedding worker's update, with the ids of either world. -/
theorem follows_write {rows rows' : List (ChunkId × Vec)} {v : Unit} (h : Mirror ρ d w w')
    (hrows : List.Forall₂ (RowTwin ρ) rows rows')
    (hx : reply i (.writeEmbeddings rows) a w = some (v, w₁)) :
    Follows ρ d i a (.writeEmbeddings rows) (.writeEmbeddings rows') v w₁ w' := by
  cases a <;> simp only [reply, reduceCtorEq] at hx
  obtain ⟨-, rfl⟩ := Prod.mk.inj (Option.some.inj hx)
  exact ⟨ρ, (), _, subset_rfl, rfl, HEq.rfl, h.of_db (h.db.writeEmbeddings hrows)⟩

/-- **A handler's call can be made in the other world as well**, with the same answer. -/
theorem Mirror.exec {copy : Copy} {c' : Call} {r : c.Reply} (h : Mirror ρ d w w') (hb : Base w)
    (hb' : Base w') (hi : w.broker.handled i = some copy) (hd : copy.message.body.documentId = d)
    (hcalls : (consumption S copy.message).calls ρ c c') (hx : exec i c a w = some (r, w₁)) :
    ∃ σ r' w₁', ρ ⊆ σ ∧ DigitalCip.exec i c' a w' = some (r', w₁') ∧ ReplyTwin σ c c' r r' ∧
      Mirror σ d w₁ w₁' := by
  obtain ⟨htwin, hcall⟩ := hcalls
  rcases exec_cases hx with ⟨reason, rfl, rfl, hremote, rfl⟩ | ⟨v, rfl, hreply, -⟩
  · have hremote' : c'.remote := by
      cases htwin with
      | same => exact hremote
      | write => rfl
    refine ⟨ρ, .error reason, w', subset_rfl, if_pos hremote', ?_, h⟩
    cases htwin with
    | same => cases c <;> exact HEq.rfl
    | write => exact HEq.rfl
  · have hfollows : Follows ρ d i a c c' v w₁ w' := by
      cases htwin with
      | write hrows => exact follows_write h hrows hreply
      | same hfree =>
        rcases hcall with hinternal | hsettling | ⟨T, -, hhanding⟩
        · obtain ⟨copy', hi', hm⟩ := h.handled hi hd
          refine follows_of_internal h (hd ▸ hinternal) (fun row hrow => ?_) (fun row hrow => ?_)
            hfree hreply
          · exact (hb.recorded_document hi hrow).trans hd
          · rw [← hm] at hrow hd
            exact (hb'.recorded_document hi' hrow).trans hd
        · exact follows_of_settling h hi hd hsettling hreply
        · exact follows_of_handing h (hd ▸ hhanding) hreply
    obtain ⟨σ, v', w₁', hσ, hreply', hr, hm⟩ := hfollows
    exact ⟨σ, .ok v', w₁', hσ, exec_of_reply hreply', hr, hm⟩

end Calls

end DigitalCip
