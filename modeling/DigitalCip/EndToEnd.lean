import DigitalCip.Conservation
import DigitalCip.Invariant.Outcomes
import DigitalCip.Invariant.Retained

/-!
# From the upload to the embeddings

In a successful run a document whose messages are all settled has gone all the way:
it is `embedded`, with the chunks its text is divided into and the vectors the model
gives them, or it is `failed`, because there is no text in its object
(`end_to_end`).

No message is lost, so each of the document's messages has been settled, and its
stage is done with the document or the document is finished.  A stage that is done
has handed on, unless its execution is still at work; but then a copy of its message
is still on its way.
-/

namespace DigitalCip
open Resumable

/-- The engine reads `ocr blob contentType` in an object, and the model gives a text
the vector `model text`. -/
def Truth.of (ocr : Blob → Text → Text) (model : Text → Vec) : Truth where
  reads blob contentType t := t = ocr blob contentType
  models t v := v = model t

/-- No message of document `d` is queued or in an unsettled delivery. -/
def Broker.Quiet (b : Broker) (d : DocId) : Prop :=
  ∀ copy, b.Live copy → copy.message.body.documentId ≠ d

/-- What the pipeline makes of document `d`, in whose object the engine reads `t`. -/
structure Ingested (cfg : Config) (model : Text → Vec) (w : World) (d : DocId) (row : Document)
    (t : Text) : Prop where
  failed : Blank t → row.status = .failed
  embedded : ¬ Blank t → row.status = .embedded
  text : ¬ Blank t → row.rawText = some t
  chunks : ¬ Blank t → (w.db.chunksOf d).map DocumentChunk.row =
    Chunker.chunkRows (Chunker.split t cfg.chunkSize cfg.chunkOverlap)
  vectors : ¬ Blank t → ∀ c ∈ w.db.chunksOf d, c.embedding = some (model c.content)

theorem chunkerRepublishes_of_succeed {s : Sys} {l : Label} (h : callsSucceed s l) :
    chunkerRepublishes s l := by
  cases l with
  | run i a =>
    cases a with
    | fail =>
      intro exchange key m hp
      obtain ⟨c, hc, hsettles, -⟩ := h
      obtain rfl := Option.some.inj (hc.symm.trans hp)
      rcases hsettles with he | ⟨o, he⟩ <;> cases he
    | _ => trivial
  | _ => trivial

section Runs
variable {cfg : Config} {T : Truth} {s : Sys} {d : DocId} {p : Publication}

/-- The dedupe row of an accepted message. -/
theorem Base.recorded_accepted {w : World} (hb : Base w) (hp : p ∈ w.broker.accepted)
    {row : StoredMessage} (hm : w.db.processed p.message.body.messageId = some row) :
    row.stage = p.message.body.stage ∧ row.documentId = p.message.body.documentId := by
  obtain ⟨-, env, ⟨c, -, hstems, halike⟩, hid, hdoc⟩ := hb.recorded _ row hm
  obtain ⟨p', hp', -, hS, halike'⟩ := hstems.source
  have ha := halike'.trans halike
  obtain ⟨hstage, hd⟩ := hb.sameMessage hp' hp (ha.messageId.symm.trans hid)
  exact ⟨hS.symm.trans hstage, hdoc.symm.trans (ha.documentId.trans hd)⟩

/-- A copy with the origin of an accepted message is of that message. -/
theorem Stems.alike {b : Broker} {S : Stage} {c : Copy} (h : Stems b S c)
    (hcopies : ∀ p ∈ b.accepted, ∀ p' ∈ b.accepted, p.copy = p'.copy → p = p')
    (hp : p ∈ b.accepted) (hc : c.origin = p.copy) : p.message.body.Alike c.message.body := by
  obtain ⟨p', hp', ho, -, halike⟩ := h.source
  obtain rfl := hcopies p hp p' hp' (hc.symm.trans ho.symm)
  exact halike

/-- **A message that is not on its way any more** is going to be skipped. -/
theorem skipped_of_quiet (h : Reachable cfg (successfulRun T) s) (hquiet : s.world.broker.Quiet d)
    (hp : p ∈ s.world.broker.accepted) (hd : p.message.body.documentId = d) :
    Skipped p.message.body.messageId d s.world := by
  have hb := reachable_base h
  have hsmooth := smooth_of_reachable h
  have hconserved := conserved (h.mono fun _ _ hl => chunkerRepublishes_of_succeed hl.2.2)
  have hlive : ∀ c S, Stems s.world.broker S c → c.origin = p.copy → ¬ s.world.broker.Live c := by
    intro c S hstems ho hc
    exact hquiet c hc ((hstems.alike hb.mail.copies hp ho).documentId.trans hd)
  rcases hconserved.accepted p hp with ⟨c, hc, ho, -⟩ | ⟨c, o, hc, ho, -⟩
  · -- a copy that is located is live, as no copy is dead-lettered
    rcases hc with ⟨leg, hc⟩ | ⟨i, hdel⟩
    · have hleg : leg ≠ .dlq := by
        rintro rfl
        exact hsmooth.dlq _ c hc
      exact absurd (Or.inl ⟨_, leg, hleg, hc⟩) (hlive c _ (hb.mail.held _ c (.queued leg hc)) ho)
    · have hstems := hb.mail.held _ c (.delivered i _ hdel rfl rfl)
      exact absurd (Or.inr ⟨i, _, hdel⟩) (hlive c _ hstems ho)
  · obtain ⟨⟨S, hstems⟩, hskipped⟩ := hsmooth.closed c o hc
    have halike := hstems.alike hb.mail.copies hp ho
    rwa [halike.messageId, halike.documentId, hd] at hskipped

/-- What has been processed has been handed on. -/
theorem handedOn_of_quiet (h : Reachable cfg (successfulRun T) s)
    (hquiet : s.world.broker.Quiet d) {m : MessageId} {row : StoredMessage}
    (hm : s.world.db.processed m = some row) (hS : row.stage ≠ .embed) (hd : row.documentId = d) :
    HandedOn s.world m row.stage row.documentId := by
  by_contra hno
  have hwork := atWork_of_owes (fun _ _ hl => hl.2.2) h hm hS hno
  obtain ⟨copy, hlive, hdoc⟩ := live_of_atWork (fun _ _ hl => hl.1) h hwork
  exact hquiet copy hlive (hdoc.trans hd)

/-- A stage has handed the document on, or the document is finished. -/
theorem next_of_quiet (h : Reachable cfg (successfulRun T) s) (hquiet : s.world.broker.Quiet d)
    (hp : p ∈ s.world.broker.accepted) (hd : p.message.body.documentId = d)
    (hS : p.message.body.stage ≠ .embed) :
    s.world.db.Finished d ∨ ∃ p' ∈ s.world.broker.accepted,
      p.message.body.stage.next = some p'.message.body.stage ∧ p'.message.body.documentId = d := by
  rcases skipped_of_quiet h hquiet hp hd with hm | hfinished
  · obtain ⟨row, hrow⟩ := Option.isSome_iff_exists.mp hm
    obtain ⟨hstage, hdoc⟩ := (reachable_base h).recorded_accepted hp hrow
    obtain ⟨p', hp', hnext, hd', -⟩ :=
      handedOn_of_quiet h hquiet hrow (hstage ▸ hS) (hdoc.trans hd)
    exact Or.inr ⟨p', hp', hstage ▸ hnext, hd'.trans (hdoc.trans hd)⟩
  · exact Or.inl hfinished

/-- The last stage has finished the document. -/
theorem finished_of_embed (h : Reachable cfg (successfulRun T) s) (hquiet : s.world.broker.Quiet d)
    (hp : p ∈ s.world.broker.accepted) (hd : p.message.body.documentId = d)
    (hS : p.message.body.stage = .embed) : s.world.db.Finished d := by
  rcases skipped_of_quiet h hquiet hp hd with hm | hfinished
  · have hb := reachable_base h
    obtain ⟨row, hrow⟩ := Option.isSome_iff_exists.mp hm
    obtain ⟨hstage, hdoc⟩ := hb.recorded_accepted hp hrow
    obtain ⟨document, hdocument⟩ := hb.row_of_sent (d := d) (S := .embed) ⟨by decide, p, hp, hS, hd⟩
    have horderly := orderly_of_reachable (orderly_of_successful h) hdocument
    have hstatus := horderly.finished ⟨_, row, hrow, hstage.trans hS, hdoc.trans hd⟩
    exact ⟨document, hdocument, by rw [hstatus]; rfl⟩
  · exact hfinished

/-- **A document whose messages are all settled is finished.** -/
theorem finished_of_quiet (h : Reachable cfg (successfulRun T) s) (hquiet : s.world.broker.Quiet d)
    (hp : p ∈ s.world.broker.accepted) (hd : p.message.body.documentId = d) :
    s.world.db.Finished d := by
  have hchunk : ∀ p ∈ s.world.broker.accepted, p.message.body.documentId = d →
      p.message.body.stage = .chunk → s.world.db.Finished d := by
    intro p hp hd hS
    rcases next_of_quiet h hquiet hp hd (by rw [hS]; decide) with hfinished | ⟨p', hp', hnext, hd'⟩
    · exact hfinished
    · rw [hS] at hnext
      exact finished_of_embed h hquiet hp' hd' (Option.some.inj hnext).symm
  cases hS : p.message.body.stage with
  | ocr =>
    rcases next_of_quiet h hquiet hp hd (by rw [hS]; decide) with hfinished | ⟨p', hp', hnext, hd'⟩
    · exact hfinished
    · rw [hS] at hnext
      exact hchunk p' hp' hd' (Option.some.inj hnext).symm
  | chunk => exact hchunk p hp hd hS
  | embed => exact finished_of_embed h hquiet hp hd hS

end Runs

/-- What a finished document of an exclusive run holds. -/
theorem ingested_of_finished {cfg : Config} {ocr : Blob → Text → Text} {model : Text → Vec} {s : Sys}
    {d : DocId} (h : Reachable cfg (orderlyRun (Truth.of ocr model)) s)
    (hfinished : s.world.db.Finished d) :
    ∃ row blob, s.world.db.documents d = some row ∧
      s.world.objects row.objectKey = some blob ∧
      Ingested cfg model s.world d row (ocr blob row.contentType) := by
  obtain ⟨row, hrow, hterminal⟩ := hfinished
  have horderly := orderly_of_reachable h hrow
  have hreads : ∀ t, s.world.Reads (Truth.of ocr model) row t → ∃ blob,
      s.world.objects row.objectKey = some blob ∧ t = ocr blob row.contentType := fun _ ht => ht
  have hstatus : row.status = .failed ∨ row.status = .embedded := by
    cases hs : row.status with
    | failed => exact Or.inl rfl
    | embedded => exact Or.inr rfl
    | _ =>
      rw [hs] at hterminal
      cases hterminal
  rcases hstatus with hs | hs
  · obtain ⟨t, ht, hblank⟩ := horderly.failed hs
    obtain ⟨blob, hblob, rfl⟩ := hreads t ht
    exact ⟨row, blob, hrow, hblob, fun _ => hs, fun hn => absurd hblank hn,
      fun hn => absurd hblank hn, fun hn => absurd hblank hn, fun hn => absurd hblank hn⟩
  · obtain ⟨⟨t, ht, hblank⟩, -⟩ :=
      ((reachable_base h).db.rows d row hrow).recognised (by rw [hs]; rfl)
    obtain ⟨blob, hblob, rfl⟩ := hreads t (horderly.text t ht)
    refine ⟨row, blob, hrow, hblob, fun hb => absurd hb hblank, fun _ => hs, fun _ => ht, fun _ => ?_,
      fun _ c hc => ?_⟩
    · obtain ⟨t', ht', hchunks⟩ := horderly.divided (by rw [hs]; rfl)
      obtain rfl := Option.some.inj (ht.symm.trans ht')
      exact hchunks
    · obtain ⟨v, hv⟩ := Option.isSome_iff_exists.mp (horderly.embedded hs c hc)
      have hmodel : v = model c.content := horderly.models c hc v hv
      rw [hv, hmodel]

/-- **From the upload to the embeddings.**  Once no message of an uploaded document is
queued or unsettled, the document is `failed` if the text of its object is blank, and
otherwise `embedded`, with this text, its chunks and their vectors. -/
theorem end_to_end {cfg : Config} {ocr : Blob → Text → Text} {model : Text → Vec} {s : Sys}
    {d : DocId} {p : Publication} (h : Reachable cfg (successfulRun (Truth.of ocr model)) s)
    (hp : p ∈ s.world.broker.accepted) (hd : p.message.body.documentId = d)
    (hquiet : s.world.broker.Quiet d) :
    ∃ row blob, s.world.db.documents d = some row ∧
      s.world.objects row.objectKey = some blob ∧
      Ingested cfg model s.world d row (ocr blob row.contentType) :=
  ingested_of_finished (orderly_of_successful h) (finished_of_quiet h hquiet hp hd)

/-! ### A run with a duplicate -/

/-- Whether a step is one of the executions below `n`, nobody of them is at work when a
message is delivered, the engine reads the sample text and the model is asked for it alone,
and only a settled delivery cannot be settled. -/
def smoothly (n : Nat) (s : Sys) (l : Label) : Bool :=
  l.execution.all (· < n) && match l with
    | .deliver _ _ _ => (List.range n).all fun j => (s.pending j).isNone
    | .run i (.fail _) => ((s.world.broker.deliveries i).all fun d => !d.unsettled) &&
      match s.pending i with
      | some (.ack _) | some .nack => true
      | _ => false
    | .run _ (.text t _) => t = sampleText
    | .run i (.vectors _) => match s.pending i with
      | some (.embedBatch texts) => texts = [sampleText]
      | _ => true
    | .die _ => false
    | _ => true

theorem below_of_smoothly {n : Nat} (s : Sys) (l : Label) (h : smoothly n s l = true) :
    l.execution.all (· < n) = true :=
  (Bool.and_eq_true_iff.mp h).1

theorem successfulRun_of_smoothly {n : Nat} (s : Sys) (l : Label)
    (hs : ∀ j, n ≤ j → s.progs j = none) (h : smoothly n s l = true) (hl : l.Embeds) :
    successfulRun (Truth.of (fun _ _ => sampleText) sampleModel) s l := by
  have hcheck := (Bool.and_eq_true_iff.mp h).2
  cases l with
  | deliver i S k => exact ⟨fun copy _ j => not_atWork_of_below hs hcheck j _, trivial, trivial⟩
  | die => cases hcheck
  | run i a =>
    refine ⟨trivial, fun c hc => ?_, ?_⟩
    · cases a with
      | text t pages =>
        obtain rfl := of_decide_eq_true hcheck
        cases c <;> trivial
      | vectors vs =>
        obtain rfl : vs = [sampleModel sampleText] := hl
        cases c with
        | embedBatch texts =>
          dsimp only at hcheck
          rw [hc] at hcheck
          obtain rfl := of_decide_eq_true hcheck
          exact .cons rfl .nil
        | _ => trivial
      | _ => cases c <;> trivial
    · cases a with
      | fail reason =>
        obtain ⟨hdelivery, hcall⟩ := Bool.and_eq_true_iff.mp hcheck
        have hno : ∀ copy, ¬ s.world.broker.Unsettled i copy := by
          rintro copy ⟨q, hd⟩
          rw [hd] at hdelivery
          cases hdelivery
        cases hp : s.pending i with
        | none =>
          rw [hp] at hcall
          cases hcall
        | some c =>
          rw [hp] at hcall
          cases c with
          | ack o => exact ⟨_, hp, Or.inr ⟨o, rfl⟩, hno⟩
          | nack => exact ⟨_, hp, Or.inl rfl, hno⟩
          | _ => cases hcall
      | _ => trivial
  | _ => exact ⟨trivial, trivial, trivial⟩

/-- The OCR message is delivered twice: the broker takes the delivery back from
execution 1 before its ack. -/
def duplicateRun : List Label :=
  uploadRun ++ (ocrRun 1).dropLast ++ .redeliver 1 :: answers 1 [.fail "closed", .fail "closed"] ++
    .deliver 2 .ocr 0 :: answers 2 [.ok, .ok] ++ chunkRun 3 ++ embedRun 4

theorem embeds_of_mem_duplicateRun : ∀ l ∈ duplicateRun, l.Embeds := by
  simp [duplicateRun, uploadRun, ocrRun, chunkRun, embedRun, answers, Label.Embeds]

/-- The document of `duplicateRun` goes all the way. -/
theorem end_to_end_duplicate : ∃ (s : Sys) (row : Document) (blob : Blob),
    s.world.db.documents 1 = some row ∧ s.world.objects row.objectKey = some blob ∧
      Ingested sampleConfig sampleModel s.world 1 row sampleText := by
  obtain ⟨s, hs, haccepted, hidle⟩ := exists_run
    (Reaches.guarded (step sampleConfig) (smoothly 5)) .init duplicateRun
    (fun s : Sys => (s.world.broker.accepted.any fun p => p.message.body.documentId = 1) = true ∧
      s.Idle 5) (by decide)
  obtain ⟨p, hp, hd⟩ := List.any_eq_true.mp haccepted
  classical
  obtain ⟨hreach, -⟩ := reachable_of_below
    (fun s l h => below_of_smoothly s l (Bool.and_eq_true_iff.mp h).1)
    (fun s l hs h => successfulRun_of_smoothly s l hs (Bool.and_eq_true_iff.mp h).1
      (of_decide_eq_true (Bool.and_eq_true_iff.mp h).2))
    (Reaches.run_guarded_and embeds_of_mem_duplicateRun hs)
  have hlive := hidle.not_live (Reaches.run_of_guarded hs) (by decide)
  have hquiet : s.world.broker.Quiet 1 := fun copy h => absurd h (hlive copy)
  exact ⟨s, end_to_end hreach hp (of_decide_eq_true hd) hquiet⟩

end DigitalCip
