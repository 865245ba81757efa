import DigitalCip.Chunker.RoundTrip
import DigitalCip.Invariant.Chunkable

/-!
# What OCR accepts the chunker can chunk

The OCR worker accepts a text by Python's `str.strip`, and the chunker divides it at
Go's `unicode.IsSpace`; and the chunk message is published after the text has been
committed.  So whenever a chunk message is on its way, its document has a text with
words, and the two permanent errors of `process` that are about the text are not
reached.
-/

namespace DigitalCip
open Resumable

/-- The calls that follow a permanent error of `process`, "document has no raw_text" and
"no chunks produced" among them: the ack of a permanent failure, or the status `failed`. -/
def GivesUpText (c : Call) : Prop :=
  c = .ack .permanent ∨ ∃ d u, c = .updateDocument d u ∧ u.status = .failed

/-- Any run.  No execution of the chunker gives its document up. -/
def chunkableDiscipline : Discipline where
  ok := anyStep
  known := Base
  moves := Grows
  admits _ _ _ _ := True
  inv _ := True
  rely _ _ _ _ := True
  guar i c w _ _ := (∃ env, Handles w i .chunk env) → ¬ GivesUpText c
  moves_refl := .refl
  moves_trans _ _ _ := .trans
  rely_refl _ _ _ := trivial
  rely_trans _ _ _ _ _ _ _ := trivial
  post _ _ := True

section Handlers
variable {i : Nat} {S : Stage} {env : Envelope} {w : World} {cfg : Config}

theorem keeps_notGivingUp {K : World → Prop} (hK : ∀ w w', K w → Grows w w' → K w') :
    chunkableDiscipline.Keeps i K fun c => ¬ GivesUpText c where
  stable _ w w' _ h hg _ _ _ := hK w w' h hg
  fail _ _ _ hc _ _ _ _ := hc
  does _ w _ w' _ hc h _ _ _ hg _ _ _ := ⟨trivial, fun _ => hc, hK w w' h hg⟩

/-- The executions of the other two workers may call what they like. -/
theorem keeps_elsewhere (hS : S ≠ .chunk) :
    chunkableDiscipline.Keeps i (fun w => Handles w i S env) fun _ => True where
  stable _ _ _ _ h hg _ _ _ := h.mono hg
  fail _ _ _ _ h _ _ := fun ⟨_, h'⟩ => absurd (h.unique h').1 hS
  does _ _ _ _ _ _ h _ _ _ hg _ _ _ :=
    ⟨trivial, fun ⟨_, h'⟩ => absurd (h.unique h').1 hS, h.mono hg⟩

theorem not_givesUpText_of_hopeful {c : Call} (hc : Hopeful c) : ¬ GivesUpText c := by
  rintro (rfl | ⟨d, u, rfl, hu⟩)
  · exact hc.1 trivial
  · exact hc.2 d u rfl hu

/-- The chunker's executions. -/
theorem Chunker.handle_chunkable {m : Message} (hb : Base w) (hw : Handles w i .chunk m.body) :
    wp chunkableDiscipline.rules i (handle cfg m) (fun _ _ => True) (fun _ _ => True) w := by
  have hkeeps : ∀ {env}, chunkableDiscipline.Keeps i (fun w => Handles w i .chunk env)
      fun c => ¬ GivesUpText c := keeps_notGivingUp fun _ _ h => h.mono
  unfold handle
  dsimp only
  have halike := alike_defaultAttempt m.body
  have hne : m.body.documentId ≠ 0 := hw.numbered hb
  rw [← halike.documentId] at hne
  generalize (if m.body.attempt = 0 then { m.body with attempt := 1 } else m.body) = env
    at halike hne ⊢
  rw [wp_bind]
  refine wp_mono (process_tried (hkeeps.mono fun _ => not_givesUpText_of_hopeful) (fun _ h => h) hne
    (hw.alike halike)) ?_ fun _ _ h => h.elim
  rintro r w₁ ⟨h₁, hr⟩
  split
  · exact hkeeps.perform_then (by simp [GivesUpText]) h₁ fun _ _ _ => trivial
  · exact absurd rfl (hr _)
  · split
    · refine hkeeps.perform_then (by simp [GivesUpText]) h₁ ?_
      intro _ w₂ h₂
      exact hkeeps.perform_then (by simp [GivesUpText]) h₂ fun _ _ _ => trivial
    · refine hkeeps.perform_then (by simp [GivesUpText]) h₁ ?_
      intro _ w₂ h₂
      exact hkeeps.perform_then (by simp [GivesUpText]) h₂ fun _ _ _ => trivial

end Handlers

theorem chunkable_sound (cfg : Config) : chunkableDiscipline.Sound cfg .init where
  reached := .start
  start := Discipline.safe_init trivial
  known s h := reachable_base h
  moves s l s' h _ hstep := grows_of_step h hstep
  admits _ _ _ _ _ _ _ _ _ := trivial
  others _ _ _ _ _ _ _ _ _ _ _ _ _ _ _ _ _ _ := trivial
  env _ _ _ _ _ _ _ _ _ := ⟨trivial, fun _ _ _ _ _ => trivial⟩
  upload s i upload title tenantId _ _ _ _ _ := by
    refine Api.upload_keeps (K := fun _ => True) ((keeps_notGivingUp fun _ _ _ _ => trivial).mono
      fun c hc => ?_) _ _ _ trivial
    rintro (rfl | ⟨d, u, rfl, -⟩) <;> exact hc
  retryRequest s i documentId _ _ _ _ _ := by
    refine Api.retryAction_keeps (K := fun _ => True) ((keeps_notGivingUp fun _ _ _ _ => trivial).mono
      fun c hc => ?_) _ trivial
    rintro (rfl | ⟨d, u, rfl, -⟩) <;> exact hc
  consumer s i S n copy w _ _ _ _ hi _ hw hb _ := by
    obtain ⟨hwork, -, -⟩ := hb.delivered hi hw
    cases S with
    | chunk => exact Chunker.handle_chunkable hb hwork.handles
    | ocr | embed =>
      exact wp_mono ((keeps_elsewhere (by decide)).calls (.of_forall (fun _ => trivial) _)
        hwork.handles) (fun _ _ _ => trivial) fun _ _ _ => trivial

section Runs
variable {cfg : Config} {s : Sys} {i : Nat} {copy : Copy}

/-- The document has a text that the OCR worker accepts. -/
def Db.HasText (db : Db) (d : DocId) : Prop :=
  ∃ row text, db.documents d = some row ∧ row.rawText = some text ∧ ¬ Blank text

/-- Whoever handles a chunk message finds the text. -/
theorem Handles.hasText {env : Envelope} {w : World} (h : Handles w i .chunk env) (hb : Base w) :
    w.db.HasText env.documentId := by
  obtain ⟨row, hrow⟩ := h.row hb
  obtain ⟨text, htext, hblank⟩ := h.text hb hrow
  exact ⟨row, text, hrow, htext, hblank⟩

/-- A copy in a queue of the chunker promises the text. -/
theorem Base.hasText {w : World} (hb : Base w) (h : w.broker.Holds .chunk copy) :
    w.db.HasText copy.message.body.documentId := by
  obtain ⟨p, hp, -, hstage, halike⟩ := (hb.mail.held _ _ h).source
  have hready := (hb.mail.published p hp).ready
  unfold Db.Ready at hready
  rw [hstage] at hready
  obtain ⟨row, hrow, ⟨text, htext, hblank⟩, -⟩ := hready
  exact ⟨row, text, halike.documentId ▸ hrow, htext, hblank⟩

/-- The executions of the chunker do not give their document up. -/
theorem not_givesUpText_of_pending (h : Reachable cfg anyStep s) {env : Envelope}
    (hi : Handles s.world i .chunk env) {c : Call} (hc : s.pending i = some c) : ¬ GivesUpText c := by
  intro hgives
  obtain ⟨k, hp⟩ := Pool.pending_eq_some.mp hc
  have hb := reachable_base h
  obtain ⟨r, hfail⟩ : ∃ r, exec i c (.fail "") s.world = some (r, s.world) := by
    rcases hgives with rfl | ⟨d, u, rfl, -⟩ <;> exact ⟨_, rfl⟩
  exact (((chunkable_sound cfg).safe h).exec hp
    ⟨hb, hb, .refl _, .fail "", trivial, hfail⟩).2.1 ⟨env, hi⟩ hgives

/-- **What OCR accepts the chunker can chunk.**  In every reachable state the document
of a chunk message, in the queues or delivered, has a text that is not blank to Python;
such a text is not empty and has chunks, each with a word, for every size and overlap;
and no execution of the chunker is about to do what follows a permanent error. -/
theorem accepted_text_chunkable (cfg : Config) (s : Sys) (h : Reachable cfg anyStep s) :
    (∀ copy, s.world.broker.Holds .chunk copy →
      s.world.db.HasText copy.message.body.documentId) ∧
    (∀ i copy, s.world.broker.handled i = some copy → copy.message.body.stage = .chunk →
      s.world.db.HasText copy.message.body.documentId ∧
        ∀ c, s.pending i = some c → ¬ GivesUpText c) ∧
    ∀ text, ¬ Blank text → text ≠ [] ∧ ∀ size overlap, Chunker.split text size overlap ≠ [] ∧
      ∀ piece ∈ Chunker.split text size overlap, 1 ≤ Chunker.approxTokenCount piece := by
  have hb := reachable_base h
  refine ⟨fun copy hcopy => hb.hasText hcopy, fun i copy hcopy hstage => ?_, fun text hblank => ?_⟩
  · obtain ⟨S, hstems⟩ := hb.stems_of_handled hcopy
    obtain ⟨p, -, -, hS, halike⟩ := hstems.source
    obtain rfl : S = .chunk := hS.symm.trans (halike.stage.symm.trans hstage)
    have hi : Handles s.world i .chunk copy.message.body := ⟨copy, hcopy, hstems, .refl _⟩
    exact ⟨hi.hasText hb, fun c hc => not_givesUpText_of_pending h hi hc⟩
  · have htext := exists_goText_of_not_blank hblank
    refine ⟨?_, fun size overlap => ⟨Chunker.split_ne_nil htext size overlap, fun piece hpiece => ?_⟩⟩
    · rintro rfl
      exact hblank rfl
    · exact Chunker.one_le_approxTokenCount hpiece

end Runs

/-- Execution 2 is started for the chunk message of a recognised text. -/
theorem accepted_text_chunkable_sample : ∃ (s : Sys) (copy : Copy),
    s.world.broker.handled 2 = some copy ∧ copy.message.body.stage = .chunk ∧
      s.world.db.HasText copy.message.body.documentId := by
  obtain ⟨s, hs, hdelivered⟩ := exists_run (step sampleConfig) .init
    (uploadRun ++ ocrRun 1 ++ [.deliver 2 .chunk 0])
    (fun s => ((s.world.broker.handled 2).any fun c => c.message.body.stage = .chunk) = true)
    (by decide)
  obtain ⟨copy, hcopy, hstage⟩ := (Option.any_eq_true _ _).mp hdelivered
  have hstage := of_decide_eq_true hstage
  exact ⟨s, copy, hcopy, hstage,
    ((accepted_text_chunkable sampleConfig s (.of_run hs)).2.1 2 copy hcopy hstage).1⟩

end DigitalCip
