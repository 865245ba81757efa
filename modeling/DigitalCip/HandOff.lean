import DigitalCip.Invariant.Footprint
import DigitalCip.Invariant.Live
import DigitalCip.Invariant.Runs
import DigitalCip.Python.Handler

/-!
# The hand-off between stages

The OCR worker and the chunker commit the dedupe row of a message before they
publish the message of the next stage.  What is lost when something happens in
between is lost for good: the redelivered message finds its dedupe row and is
acked (`not_handOff`).  Between these two points the execution *owes* a message;
in runs in which nothing happens to an execution that owes one, no hand-off is
lost (`handOff`).
-/

namespace DigitalCip
open Resumable

/-- The stage a stage hands on to. -/
def Stage.next : Stage → Option Stage
  | .ocr => some .chunk
  | .chunk => some .embed
  | .embed => none

/-- A delivery of message `m` is unsettled, queued or in a retry queue. -/
def Live (w : World) (m : MessageId) : Prop :=
  ∃ copy, w.broker.Live copy ∧ copy.message.body.messageId = m

/-- `ingest` has accepted a message of the stage after `S` for document `d`, from
an execution that was handling `m`. -/
def HandedOn (w : World) (m : MessageId) (S : Stage) (d : DocId) : Prop :=
  ∃ p ∈ w.broker.accepted, S.next = some p.message.body.stage ∧ p.message.body.documentId = d ∧
    ∃ c, w.broker.handled p.publisher = some c ∧ c.message.body.messageId = m

/-- Stage hand-off is not lost. -/
def HandOff (w : World) : Prop :=
  ∀ m row, w.db.processed m = some row → row.stage ≠ .embed → ¬ Live w m →
    HandedOn w m row.stage row.documentId

/-- Execution `i` has inserted a dedupe row and not yet handed on. -/
def Owes (w : World) (i : Nat) : Prop :=
  ∃ m row, w.db.processed m = some row ∧ row.execution = i ∧ row.stage ≠ .embed ∧
    ¬ HandedOn w m row.stage row.documentId

/-- Nothing happens to an execution that owes a message: its process does not
die, its delivery is not taken back, and none of its calls fails.  And an
execution inserts a dedupe row only while it holds its delivery. -/
def undisturbed (s : Sys) : Label → Prop
  | .die i | .redeliver i | .run i (.fail _) => ¬ Owes s.world i
  | .run i _ => ∀ row, s.pending i = some (.recordProcessed row) →
      ∃ copy, s.world.broker.Unsettled i copy
  | _ => True

section Mono
variable {w w' : World} {i : Nat}

theorem HandedOn.mono {m : MessageId} {S : Stage} {d : DocId} (h : HandedOn w m S d)
    (hg : Grows w w') : HandedOn w' m S d := by
  obtain ⟨p, hp, hS, hd, c, hc, hm⟩ := h
  exact ⟨p, hg.broker.accepted p hp, hS, hd, c, hg.broker.handled hc, hm⟩

/-- An execution comes to owe a message only by inserting a dedupe row. -/
theorem Owes.of_grows (h : Owes w' i) (hg : Grows w w')
    (hold : ∀ m row, w'.db.processed m = some row → row.execution = i →
      w.db.processed m = some row) : Owes w i := by
  obtain ⟨m, row, hm, hi, hS, hno⟩ := h
  exact ⟨m, row, hold m row hm hi, hi, hS, fun hh => hno (hh.mono hg)⟩

end Mono

/-! ## The invariant -/

/-- What has a dedupe row has been handed on, or is still held by the execution
that inserted the row. -/
def Accounted (w : World) : Prop :=
  ∀ m row, w.db.processed m = some row → row.stage ≠ .embed →
    HandedOn w m row.stage row.documentId ∨ ∃ copy, w.broker.Unsettled row.execution copy

/-- A step that inserts no dedupe row of the first two stages and settles no
delivery of an execution that owes a message. -/
theorem Accounted.grow {w w' : World} (h : Accounted w) (hg : Grows w w')
    (hprocessed : ∀ m row, w'.db.processed m = some row → row.stage ≠ .embed →
      w.db.processed m = some row)
    (hheld : ∀ j, Owes w j → w'.broker.deliveries j = w.broker.deliveries j) : Accounted w' := by
  intro m row hm hS
  have hold := hprocessed m row hm hS
  by_cases hh : HandedOn w m row.stage row.documentId
  · exact Or.inl (hh.mono hg)
  · obtain ⟨copy, q, hd⟩ := (h m row hold hS).resolve_left hh
    exact Or.inr ⟨copy, q, (hheld _ ⟨m, row, hold, rfl, hS, hh⟩).trans hd⟩

/-- The runs in which no execution that owes a message is disturbed. -/
def handOffDiscipline : Discipline where
  ok := undisturbed
  known := Base
  moves := Grows
  admits i c a w := (∀ reason, a = .fail reason → ¬ Owes w i) ∧
    ∀ row, c = .recordProcessed row → (∀ reason, a ≠ .fail reason) →
      ∃ copy, w.broker.Unsettled i copy
  inv := Accounted
  rely _ _ _ _ := True
  guar _ _ _ _ _ := True
  moves_refl := .refl
  moves_trans _ _ _ := .trans
  rely_refl _ _ _ := trivial
  rely_trans _ _ _ _ _ _ _ := trivial
  post _ _ := True

/-! ## The handlers -/

section Handlers
variable {i : Nat} {S : Stage} {env : Envelope} {w : World} {cfg : Config}

/-- Execution `i` handles `env` and owes nothing. -/
def Free (i : Nat) (S : Stage) (env : Envelope) (w : World) : Prop :=
  Handles w i S env ∧ ¬ Owes w i

/-- The calls that neither insert a dedupe row nor hand on. -/
def Quiet (c : Call) : Prop :=
  (∀ row, c ≠ .recordProcessed row) ∧ ∀ key m, c ≠ .publish .ingest key m

theorem Free.around {w w' : World} (h : Free i S env w) (hg : Grows w w') (ha : Apart i w w') :
    Free i S env w' :=
  ⟨h.1.mono hg, fun ho => h.2 (ho.of_grows hg ha.processed)⟩

theorem keeps_free : handOffDiscipline.Keeps i (Free i S env) Quiet where
  stable c w w' _ h hg ha _ _ := h.around hg ha
  fail _ _ _ _ _ _ _ := trivial
  does c w v w' a hc h _ hinv _ hg _ _ hd := by
    have hprocessed := processed_of_does hd hc.1
    refine ⟨hinv.grow hg (fun m row hm _ => hprocessed ▸ hm) fun j hj => ?_, trivial, h.1.mono hg,
      fun ho => ?_⟩
    · refine deliveries_of_does hd (Or.inl ?_)
      rintro rfl
      exact h.2 hj
    · exact h.2 (ho.of_grows hg fun m row hm _ => hprocessed ▸ hm)

variable {α : Type} {Q : α → World → Prop} {E : Exc → World → Prop}

/-- Inserting the dedupe row: from here on the execution may owe a message. -/
theorem wp_recordProcessed {row : ProcessedMessage}
    {k : (Call.recordProcessed row).Reply → Program α} (hw : Free i S env w)
    (hfail : ∀ reason w, Free i S env w →
      wp handOffDiscipline.rules i (k (.error reason)) Q E w)
    (hok : ∀ w, Handles w i S env → wp handOffDiscipline.rules i (k (.ok ())) Q E w) :
    wp handOffDiscipline.rules i (Prog.perform (.recordProcessed row) >>= k) Q E w := by
  refine Discipline.wp_perform (D := handOffDiscipline) (Free i S env) hw
    (fun w w' h hg ha _ _ => h.around hg ha) ?_ ?_
  · exact fun w reason h _ _ _ _ => ⟨trivial, hfail reason w h⟩
  · intro w _ w' a h _ hinv _ hg hadmits hreply hd
    obtain rfl := hd
    refine ⟨fun m stored hm hS => ?_, trivial, hok _ (h.1.mono hg)⟩
    rcases Db.of_processed_recordProcessed hm with hold | ⟨-, -, rfl⟩
    · exact (hinv m stored hold hS).imp_left fun hh => hh.mono hg
    · refine Or.inr (hadmits.2 row rfl ?_)
      rintro reason rfl
      simp [reply] at hreply

/-- **Who hands on owes nothing any more**, whether it did or not. -/
theorem not_owes_of_handOn {m : Message} {key : RoutingKey} (hb : Base w) (h : Handles w i S env)
    (hS : S.next = some m.body.stage) (hdoc : m.body.documentId = env.documentId)
    (hg : Grows w { w with broker := w.broker.publish i .ingest key m }) :
    ¬ Owes { w with broker := w.broker.publish i .ingest key m } i := by
  rintro ⟨m', row, hm', hi, -, hno⟩
  -- every row of this execution is for the message it handles
  obtain ⟨rfl, hrowS, hrowDoc⟩ := (hb.recorded m' row hm').unique (hi ▸ h)
  obtain ⟨c, hc, -, halike⟩ := h
  refine hno ⟨⟨w.broker.nextCopy, i, m⟩, ?_, by rw [hrowS, hS], hdoc.trans hrowDoc.symm, c, ?_,
    halike.messageId.symm⟩
  · exact w.broker.mem_publish_accepted i key m
  · exact hg.broker.handled hc

/-- Handing on clears the account. -/
theorem wp_handOn {m : Message} {key : RoutingKey}
    {k : (Call.publish .ingest key m).Reply → Program α} (hw : Handles w i S env)
    (hS : S.next = some m.body.stage) (hdoc : m.body.documentId = env.documentId)
    (hk : ∀ r w, Free i S env w → wp handOffDiscipline.rules i (k r) Q E w) :
    wp handOffDiscipline.rules i (Prog.perform (.publish .ingest key m) >>= k) Q E w := by
  refine Discipline.wp_perform (D := handOffDiscipline) (fun w => Handles w i S env) hw
    (fun w w' h hg _ _ _ => h.mono hg) ?_ ?_
  · exact fun w reason h _ _ _ hadmits => ⟨trivial, hk _ w ⟨h, hadmits.1 reason rfl⟩⟩
  · intro w v w' a h hbase hinv _ hg _ _ hd
    obtain rfl := hd
    exact ⟨hinv.grow hg (fun _ _ hm _ => hm) fun j _ => by simp, trivial,
      hk _ _ ⟨h.mono hg, not_owes_of_handOn hbase h hS hdoc hg⟩⟩

end Handlers

/-! ### The OCR worker -/

theorem quiet_of_settling {T : Stage} {m : Message} {c : Call} (h : Settling T m c) : Quiet c := by
  refine ⟨?_, ?_⟩
  · rintro row rfl
    exact h
  · rintro key m' rfl
    exact h

namespace Ocr
variable {i : Nat} {env : Envelope} {w : World} {cfg : Config}

theorem recognise_handOff (document : Document) (objectKey : ObjectKey) (hw : Free i .ocr env w) :
    wp handOffDiscipline.rules i (recognise env document objectKey)
      (fun r w => Handles w i .ocr env ∧ (r = none → ¬ Owes w i)) (fun _ => Free i .ocr env) w := by
  unfold recognise updateDocumentStatus Python.recordEvent Python.recordProcessed
  refine keeps_free.call_then ⟨by simp, by simp⟩ hw (fun _ _ h => h) fun _ w₁ h₁ => ?_
  refine keeps_free.call_then ⟨by simp, by simp⟩ h₁ (fun _ _ h => h) fun _ w₂ h₂ => ?_
  refine keeps_free.call_then ⟨by simp, by simp⟩ h₂ (fun _ _ h => h) fun blob w₃ h₃ => ?_
  split
  · exact h₃
  refine keeps_free.call_then ⟨by simp, by simp⟩ h₃ (fun _ _ h => h) fun ⟨text, pages⟩ w₄ h₄ => ?_
  dsimp only
  split
  · exact h₄
  refine keeps_free.call_then ⟨by simp, by simp⟩ h₄ (fun _ _ h => h) fun _ w₅ h₅ => ?_
  refine keeps_free.call_then ⟨by simp, by simp⟩ h₅ (fun _ _ h => h) fun _ w₆ h₆ => ?_
  rw [wp_bind]
  exact wp_recordProcessed h₆ (fun _ _ h => h) fun _ h => ⟨h, by simp⟩

theorem onError_quiet (e : Exc) : (onError env e).Calls Quiet :=
  Python.onError_calls (fun _ => ⟨by simp, by simp⟩) (fun _ _ => ⟨by simp, by simp⟩) e

theorem handle_handOff (hw : Free i .ocr env w) :
    wp handOffDiscipline.rules i (handle env)
      (fun r w => Handles w i .ocr env ∧ (r = none → ¬ Owes w i)) (fun _ => Free i .ocr env) w := by
  refine Python.handle_wp keeps_free ⟨by simp, by simp⟩ ⟨by simp, by simp⟩ (fun _ _ h => h)
    (fun _ _ h _ => ⟨h.1, fun _ => h.2⟩) (fun _ _ _ h _ => h) (fun _ _ _ h _ _ => ⟨h.1, fun _ => h.2⟩)
    (fun w document _ h _ _ => ?_) hw
  refine wp_try (recognise_handOff document _ h) fun e w₁ h₁ => ?_
  exact wp_mono (keeps_free.calls (onError_quiet e) h₁) (fun _ _ h => ⟨h.1, fun _ => h.2⟩)
    fun _ _ h => h

theorem onMessage_handOff {m : Message} (hw : Free i .ocr m.body w) :
    wp handOffDiscipline.rules i (onMessage cfg m) (fun _ => Free i .ocr m.body)
      (fun _ => Free i .ocr m.body) w := by
  have hack : ∀ o w, Free i .ocr m.body w →
      wp handOffDiscipline.rules i ((Python.channel .ocr m).ack o) (fun _ => Free i .ocr m.body)
        (fun _ => Free i .ocr m.body) w :=
    fun o w h => keeps_free.calls (calls_call ⟨by simp, by simp⟩) h
  show wp handOffDiscipline.rules i (tryCatch _ _) _ _ w
  refine wp_try (F := fun _ => Free i .ocr m.body) ?_ ?_
  · rw [wp_bind]
    refine wp_mono (handle_handOff hw) (fun r w₁ h₁ => ?_) fun _ _ h => h
    cases r with
    | none => exact hack _ w₁ ⟨h₁.1, h₁.2 rfl⟩
    | some payload =>
      rw [wp_bind]
      refine wp_handOn h₁.1 rfl rfl fun r w₂ h₂ => ?_
      cases r with
      | error reason => exact h₂
      | ok => exact hack _ w₂ h₂
  · intro e w₁ h₁
    cases e with
    | permanent => exact hack _ w₁ h₁
    | transient =>
      exact keeps_free.calls
        ((Python.retry_settling _ _ _).mono fun _ => quiet_of_settling) h₁
    | other =>
      exact keeps_free.calls ((Python.unhandled_settling _ _).mono fun _ => quiet_of_settling) h₁

end Ocr

/-! ### The chunker -/

namespace Chunker
variable {i : Nat} {env : Envelope} {w : World} {cfg : Config}

theorem publishNext_handOff (n : Nat) (hw : Handles w i .chunk env) :
    wp handOffDiscipline.rules i (publishNext env n) (fun _ => Free i .chunk env)
      (fun _ _ => False) w := by
  unfold publishNext
  refine Discipline.wp_perform (D := handOffDiscipline) (fun w => Handles w i .chunk env) hw
    (fun w w' h hg _ _ _ => h.mono hg) (fun _ _ _ _ _ hr => by cases hr) ?_
  intro w id w' a h _ hinv _ hg _ _ hd
  obtain ⟨-, rfl⟩ := hd
  exact ⟨hinv.grow hg (fun _ _ hm _ => hm) fun _ _ => rfl, trivial,
    wp_handOn (h.mono hg) rfl rfl fun _ _ h => h⟩

theorem chunkDocument_handOff (rawText : Text) (hw : Free i .chunk env w) :
    wp handOffDiscipline.rules i (chunkDocument cfg env rawText) (fun _ => Free i .chunk env)
      (fun _ _ => False) w := by
  unfold chunkDocument
  dsimp only
  split
  · refine keeps_free.perform_then ⟨by simp, by simp⟩ hw fun _ w₁ h₁ => ?_
    exact keeps_free.perform_then ⟨by simp, by simp⟩ h₁ fun _ _ h₂ => h₂
  refine keeps_free.perform_then ⟨by simp, by simp⟩ hw fun r w₁ h₁ => ?_
  cases r with
  | error e => exact h₁
  | ok =>
    refine keeps_free.perform_then ⟨by simp, by simp⟩ h₁ fun r w₂ h₂ => ?_
    cases r with
    | error e => exact h₂
    | ok =>
      refine keeps_free.perform_then ⟨by simp, by simp⟩ h₂ fun _ w₃ h₃ => ?_
      exact wp_recordProcessed h₃ (fun _ w h => publishNext_handOff _ h.1)
        fun w h => publishNext_handOff _ h

theorem process_handOff (hw : Free i .chunk env w) :
    wp handOffDiscipline.rules i (process cfg env) (fun _ => Free i .chunk env)
      (fun _ _ => False) w := by
  unfold process
  split
  · exact hw
  refine keeps_free.perform_then ⟨by simp, by simp⟩ hw fun r w₁ h₁ => ?_
  match r with
  | .error e => exact h₁
  | .ok true => exact h₁
  | .ok false =>
    refine keeps_free.perform_then ⟨by simp, by simp⟩ h₁ fun r w₂ h₂ => ?_
    match r with
    | .error e => exact h₂
    | .ok none => exact h₂
    | .ok (some doc) =>
      dsimp only
      split
      · exact h₂
      split
      · exact h₂
      refine keeps_free.perform_then ⟨by simp, by simp⟩ h₂ fun r w₃ h₃ => ?_
      cases r with
      | error e => exact h₃
      | ok =>
        exact keeps_free.perform_then ⟨by simp, by simp⟩ h₃ fun _ w₄ h₄ =>
          chunkDocument_handOff _ h₄

theorem handle_handOff {d : Message} (hw : Free i .chunk d.body w) :
    wp handOffDiscipline.rules i (handle cfg d) (fun _ _ => True) (fun _ _ => False) w := by
  unfold handle
  dsimp only
  have halike := alike_defaultAttempt d.body
  generalize (if d.body.attempt = 0 then { d.body with attempt := 1 } else d.body) = env
    at halike ⊢
  rw [wp_bind]
  refine wp_mono (process_handOff ⟨hw.1.alike halike, hw.2⟩) (fun r w₁ h₁ => ?_) fun _ _ h => h
  -- every path ends with settling calls, whose replies do not matter
  have hack : ∀ o w, Free i .chunk env w → wp handOffDiscipline.rules i
      (Prog.perform (.ack o) >>= fun _ => pure ()) (fun _ _ => True) (fun _ _ => False) w :=
    fun o w h => keeps_free.perform_then ⟨by simp, by simp⟩ h fun _ _ _ => trivial
  split
  · exact hack _ w₁ h₁
  · exact hack _ w₁ h₁
  · split
    · exact keeps_free.perform_then ⟨by simp, by simp⟩ h₁ fun _ w₂ h₂ => hack _ w₂ h₂
    · exact keeps_free.perform_then ⟨by simp, by simp⟩ h₁ fun _ w₂ h₂ => hack _ w₂ h₂

end Chunker

/-! ### The embedding worker -/

/-- An execution of the last stage never owes a message. -/
theorem not_owes_embed {w : World} {i : Nat} {env : Envelope} (hb : Base w)
    (h : Handles w i .embed env) : ¬ Owes w i := by
  rintro ⟨m, row, hm, hi, hS, -⟩
  exact hS ((hb.recorded m row hm).unique (hi ▸ h)).2.1

theorem keeps_embed {i : Nat} {env : Envelope} :
    handOffDiscipline.Keeps i (fun w => Handles w i .embed env) fun _ => True where
  stable c w w' _ h hg _ _ _ := h.mono hg
  fail _ _ _ _ _ _ _ := trivial
  does c w v w' a _ h hbase hinv hbase' hg _ _ hd := by
    refine ⟨hinv.grow hg (fun m row hm hS => ?_) fun j hj => ?_, trivial, h.mono hg⟩
    · refine (of_processed_of_does hd hm).resolve_right fun hi => ?_
      exact hS ((hbase'.recorded m row hm).unique (hi ▸ h.mono hg)).2.1
    · refine deliveries_of_does hd (Or.inl ?_)
      rintro rfl
      exact not_owes_embed hbase h hj

/-! ## Every run -/

/-- Execution `i` has inserted no dedupe row. -/
def Unrecorded (i : Nat) (w : World) : Prop :=
  ∀ m row, w.db.processed m = some row → row.execution ≠ i

theorem keeps_unrecorded {i : Nat} :
    handOffDiscipline.Keeps i (Unrecorded i) fun c => ∀ row, c ≠ .recordProcessed row where
  stable c w w' _ h _ ha _ _ := fun m row hm hi => h m row (ha.processed m row hm hi) hi
  fail _ _ _ _ _ _ _ := trivial
  does c w v w' a hc h _ hinv _ hg _ _ hd := by
    have hprocessed := processed_of_does hd hc
    refine ⟨hinv.grow hg (fun m row hm _ => hprocessed ▸ hm) fun j hj => ?_, trivial,
      fun m row hm => h m row (hprocessed ▸ hm)⟩
    refine deliveries_of_does hd (Or.inl ?_)
    rintro rfl
    obtain ⟨m, row, hm, hi, -, -⟩ := hj
    exact h m row hm hi

theorem ne_recordProcessed_of_upload {c : Call} (h : Api.UploadCall c) (row : ProcessedMessage) :
    c ≠ .recordProcessed row := by
  rintro rfl
  exact h

theorem ne_recordProcessed_of_retry {c : Call} (h : Api.RetryCall c) (row : ProcessedMessage) :
    c ≠ .recordProcessed row := by
  rintro rfl
  exact h

theorem handOff_env {s : Sys} {l : Label} {w : World} (hs : Reachable cfg undisturbed s)
    (hinv : Accounted s.world) (hok : undisturbed s l) (h : EnvMove s l w)
    (hg : Grows s.world w) : Accounted w := by
  refine hinv.grow hg (fun m row hm _ => db_of_envMove h ▸ hm) fun j hj => ?_
  refine deliveries_of_envMove h ⟨?_, ?_, ?_⟩
  · rintro rfl
    exact hok hj
  · rintro rfl
    exact hok hj
  · rintro S n rfl
    cases h with
    | deliver hunused _ =>
      obtain ⟨m, row, hm, hi, -, -⟩ := hj
      exact (hunused.untouched hs).processed m row hm hi

theorem handOff_sound (cfg : Config) : handOffDiscipline.Sound cfg .init where
  reached := .start
  known s h := reachable_base h
  moves s l s' h _ hstep := grows_of_step h hstep
  start := Discipline.safe_init fun m row hm => nomatch hm
  admits s i a c k _ _ hok hp := by
    have hpending : s.pending i = some c := Pool.pending_of_progs hp
    refine ⟨?_, ?_⟩
    · rintro reason rfl
      exact hok
    · rintro row rfl ha
      cases a with
      | fail reason => exact absurd rfl (ha reason)
      | ok | id | text | vectors => exact hok row hpending
  others _ _ _ _ _ _ _ _ _ _ _ _ _ _ _ _ _ _ := trivial
  env s l w hs hsafe hok hmove _ hg :=
    ⟨handOff_env hs hsafe.1 hok hmove hg, fun _ _ _ _ _ => trivial⟩
  upload s i upload title tenantId _ _ _ _ hi :=
    wp_mono (Api.upload_keeps (keeps_unrecorded.mono fun _ => ne_recordProcessed_of_upload) _ _ _
      hi.processed) (fun _ _ _ => trivial) fun _ _ _ => trivial
  retryRequest s i documentId _ _ _ _ hi :=
    wp_mono (Api.retryAction_keeps (keeps_unrecorded.mono fun _ => ne_recordProcessed_of_retry) _
      hi.processed) (fun _ _ _ => trivial) fun _ _ _ => trivial
  consumer s i S n copy w _ _ _ _ hi _ hw hb _ := by
    obtain ⟨hwork, -, -⟩ := hb.delivered hi hw
    have hfree : ¬ Owes w i := fun ⟨m, row, hm, he, _, _⟩ => hi.processed m row hm he
    cases S with
    | ocr =>
      exact wp_mono (Ocr.onMessage_handOff ⟨hwork.handles, hfree⟩) (fun _ _ _ => trivial)
        fun _ _ _ => trivial
    | chunk =>
      exact wp_mono (Chunker.handle_handOff ⟨hwork.handles, hfree⟩) (fun _ _ _ => trivial)
        fun _ _ h => h.elim
    | embed =>
      exact wp_mono (keeps_embed.calls ((consumer_calls cfg .embed _).mono fun _ _ => trivial)
        hwork.handles) (fun _ _ _ => trivial) fun _ _ _ => trivial

/-- **No hand-off is lost in a run that disturbs no execution that owes a
message.** -/
theorem handOff {cfg : Config} {s : Sys} (h : Reachable cfg undisturbed s) : HandOff s.world := by
  intro m row hm hS hlive
  have hbase := reachable_base h
  refine (((handOff_sound cfg).safe h).1 m row hm hS).resolve_right ?_
  rintro ⟨copy, q, hd⟩
  obtain ⟨env, ⟨c, hc, -, halike⟩, hid, -⟩ := (hbase.recorded m row hm).handled
  refine hlive ⟨copy, Or.inr ⟨row.execution, q, hd⟩, ?_⟩
  simp only [Broker.handled, hd, Option.map_some, Option.some.injEq] at hc
  rw [hc, ← halike.messageId, hid]

/-- The steps of a run in which nothing fails and every execution holds its
delivery are all admitted. -/
def smooth (s : Sys) : Label → Bool
  | .die _ | .redeliver _ | .run _ (.fail _) => false
  | .run i _ => ((s.world.broker.deliveries i).any Delivery.unsettled) || (s.pending i).all fun
    | .recordProcessed _ => false
    | _ => true
  | _ => true

theorem undisturbed_of_smooth {s : Sys} {l : Label} (h : smooth s l = true) : undisturbed s l := by
  have hrun : ∀ i, ((s.world.broker.deliveries i).any Delivery.unsettled || (s.pending i).all fun
      | .recordProcessed _ => false
      | _ => true) = true → ∀ row, s.pending i = some (.recordProcessed row) →
        ∃ copy, s.world.broker.Unsettled i copy := by
    intro i h row hp
    rw [hp, Option.all_some, Bool.or_false] at h
    obtain ⟨⟨copy, q, u⟩, hd, hu⟩ := (Option.any_eq_true _ _).mp h
    exact ⟨copy, q, by rw [hd, show u = true from hu]⟩
  cases l with
  | run i a =>
    cases a with
    | fail => cases h
    | ok | id | text | vectors => exact hrun i h
  | die | redeliver => cases h
  | upload | retryRequest | deliver | expire => trivial

/-- After a smooth run to the end of the OCR stage, the chunk message is there. -/
theorem handOff_smooth : ∃ s : Sys, (s.world.db.processed ['m']).isSome ∧ HandOff s.world := by
  obtain ⟨s, hs, hm⟩ := exists_run (Reaches.guarded (step sampleConfig) smooth) .init
    (uploadRun ++ ocrRun 1) (fun s : Sys => (s.world.db.processed ['m']).isSome = true) (by decide)
  exact ⟨s, hm, handOff (.of_guarded (fun _ _ => undisturbed_of_smooth) hs)⟩

/-- The publish of the chunk message fails, right after the dedupe row has been
inserted.  The message comes back from the retry queue and is skipped. -/
def lostRun : List Label :=
  uploadRun ++
    .deliver 1 .ocr 0 :: answers 1 [.ok, .ok, .ok, .ok, .ok, .text sampleText 1, .ok, .ok, .ok, .fail "down",
      .ok] ++
    .expire .ocr 0 :: .deliver 2 .ocr 0 :: answers 2 [.ok, .ok]

/-- **The hand-off can be lost.** -/
theorem not_handOff : ¬ ∀ (cfg : Config) (s : Sys), Reachable cfg anyStep s → HandOff s.world := by
  intro hall
  obtain ⟨s, hs, hm, haccepted, hidle⟩ := exists_run (step sampleConfig) .init lostRun
    (fun s : Sys => (s.world.db.processed ['m']).map (fun row => row.stage) = some .ocr ∧
      (∀ p ∈ s.world.broker.accepted, p.message.body.stage = .ocr) ∧ s.Idle 3) (by decide)
  obtain ⟨row, hrow, hstage⟩ := Option.map_eq_some_iff.mp hm
  obtain ⟨p, hp, hnext, -⟩ := hall sampleConfig s (.of_run hs) ['m'] row hrow (by simp [hstage])
    fun ⟨copy, hlive, _⟩ => hidle.not_live hs (by decide) copy hlive
  rw [haccepted p hp, hstage] at hnext
  cases hnext

end DigitalCip
