import DigitalCip.Invariant.Finished
import DigitalCip.Invariant.Footprint

/-!
# Redelivery after success

A handler that returns success has left its message processed or has found its
document finished, and either makes it skip the message the next time.  There
are two ways out of this.  The chunker returns success even if the insert of its
dedupe row has failed, so it divides the document again
(`not_redelivered_noop`); and a late update of another handler can take a
finished document back to work.  In runs with neither, a message that is
delivered again changes nothing (`redelivered_noop`).
-/

namespace DigitalCip
open Resumable

/-- The calls that come right after a handler's success: the ack, or the OCR
worker's `publish_next`. -/
def Returns (c : Call) : Prop :=
  c = .ack .success ∨ ∃ m, c = .publish .ingest ⟨.chunk, .work⟩ m

/-- The handler of execution `i` has just returned success. -/
def Returned (s : Sys) (i : Nat) : Prop := ∃ c, s.pending i = some c ∧ Returns c

/-- Execution `j` handles a message again: the message was delivered to `j` after
the handler of some execution `i` had returned success for it. -/
def HandledAgain (cfg : Config) (ok : Sys → Label → Prop) (j : Nat) (s : Sys) : Prop :=
  ∃ (s₁ s₂ s₃ : Sys) (i : Nat) (S : Stage) (n : Nat) (copy copy' : Copy),
    Reachable cfg ok s₁ ∧ Returned s₁ i ∧ s₁.world.broker.handled i = some copy ∧
    Reaches (step cfg) ok s₁ s₂ ∧ step cfg s₂ (.deliver j S n) = some s₃ ∧
    s₃.world.broker.handled j = some copy' ∧
    copy'.message.body.messageId = copy.message.body.messageId ∧ Reaches (step cfg) ok s₃ s

/-- The step from `s` to `s'`, by execution `j`, changes no row and hands no
message on; and if it is a step of the handler it changes nothing at all. -/
structure NoOp (s : Sys) (j : Nat) (s' : Sys) : Prop where
  documents : s'.world.db.documents = s.world.db.documents
  chunks : s'.world.db.chunks = s.world.db.chunks
  events : s'.world.db.events = s.world.db.events
  accepted : s'.world.broker.accepted = s.world.broker.accepted
  handler : s'.world = s.world ∨ ∃ c, s.pending j = some c ∧ Settles c

/-- Nothing happens that lets a handled message be handled again: the chunker's
dedupe rows are inserted, and no update hits a finished document. -/
def skipsHold (s : Sys) (l : Label) : Prop := chunkerRecords s l ∧ keepsFinished s l

/-! ## What a success leaves behind -/

/-- Message `m` of document `d` is going to be skipped. -/
def Skipped (m : MessageId) (d : DocId) (w : World) : Prop :=
  (w.db.processed m).isSome ∨ w.db.Finished d

/-- What has been processed or finished stays so. -/
def Lasts (w w' : World) : Prop := Grows w w' ∧ ∀ d, w.db.Finished d → w'.db.Finished d

theorem Lasts.refl (w : World) : Lasts w w := ⟨.refl w, fun _ => id⟩

theorem Lasts.trans {w w' w'' : World} (h : Lasts w w') (h' : Lasts w' w'') : Lasts w w'' :=
  ⟨h.1.trans h'.1, fun d hd => h'.2 d (h.2 d hd)⟩

theorem Skipped.lasts {m : MessageId} {d : DocId} {w w' : World} (h : Skipped m d w)
    (hl : Lasts w w') : Skipped m d w' := by
  rcases h with h | h
  · obtain ⟨row, hrow⟩ := Option.isSome_iff_exists.mp h
    exact Or.inl (Option.isSome_iff_exists.mpr ⟨row, hl.1.db.processed m row hrow⟩)
  · exact Or.inr (hl.2 d h)

theorem lasts_of_step {cfg : Config} {s s' : Sys} {l : Label} (hs : Reachable cfg skipsHold s)
    (hl : skipsHold s l) (hstep : step cfg s l = some s') : Lasts s.world s'.world :=
  ⟨grows_of_step hs hstep, fun _ => finished_of_step hs hl.2 hstep⟩

/-- The runs in which a success lasts; a handler that returns success leaves its
message to be skipped. -/
def successDiscipline : Discipline where
  ok := skipsHold
  known := Base
  moves := Lasts
  admits _ c a _ := ∀ reason, a = .fail reason → ∀ row, c = .recordProcessed row → row.stage ≠ .chunk
  inv _ := True
  rely _ _ _ _ := True
  guar i c w _ _ := Returns c →
    ∃ S env, Handles w i S env ∧ Skipped env.messageId env.documentId w
  moves_refl := .refl
  moves_trans _ _ _ := .trans
  rely_refl _ _ _ := trivial
  rely_trans _ _ _ _ _ _ _ := trivial
  post _ _ := True

section Handlers
variable {i : Nat} {S : Stage} {env : Envelope} {w : World} {cfg : Config} {α : Type}
  {Q : α → World → Prop} {E : Exc → World → Prop}

theorem keeps_before : successDiscipline.Keeps i (fun w => Handles w i S env) fun c => ¬ Returns c where
  stable _ _ _ _ h hl _ _ _ := h.mono hl.1
  fail _ _ _ hc _ _ _ hr := absurd hr hc
  does _ _ _ _ _ hc h _ _ _ hl _ _ _ := ⟨trivial, fun hr => absurd hr hc, h.mono hl.1⟩

/-- Execution `i` handles `env`, which is going to be skipped. -/
def Done (i : Nat) (S : Stage) (env : Envelope) (w : World) : Prop :=
  Handles w i S env ∧ Skipped env.messageId env.documentId w

theorem keeps_done : successDiscipline.Keeps i (Done i S env) fun _ => True where
  stable _ _ _ _ h hl _ _ _ := ⟨h.1.mono hl.1, h.2.lasts hl⟩
  fail _ _ _ _ h _ _ _ := ⟨S, env, h⟩
  does _ _ _ _ _ _ h _ _ _ hl _ _ _ := ⟨trivial, fun _ => ⟨S, env, h⟩, h.1.mono hl.1, h.2.lasts hl⟩

/-- A call before the success, with what it does. -/
theorem wp_before {c : Call} {k : c.Reply → Program α} (hw : Handles w i S env) (hc : ¬ Returns c)
    (hfail : ∀ reason w, Handles w i S env → (∀ row, c = .recordProcessed row → row.stage ≠ .chunk) →
      wp successDiscipline.rules i (k (.error reason)) Q E w)
    (hok : ∀ w v w', Handles w' i S env → Does i c v w w' →
      wp successDiscipline.rules i (k (.ok v)) Q E w') :
    wp successDiscipline.rules i (Prog.perform c >>= k) Q E w := by
  refine Discipline.wp_perform (D := successDiscipline) (fun w => Handles w i S env) hw
    (fun w w' h hl _ _ _ => h.mono hl.1) ?_ ?_
  · exact fun w reason h _ _ _ hadmits => ⟨fun hr => absurd hr hc, hfail reason w h (hadmits reason rfl)⟩
  · exact fun w v w' a h _ _ _ hl _ _ hd =>
      ⟨trivial, fun hr => absurd hr hc, hok w v w' (h.mono hl.1) hd⟩

/-- Such a call in Python. -/
theorem wp_before_call {c : Call} {k : c.Val → Program α} (hw : Handles w i S env)
    (hc : ¬ Returns c) (hok : ∀ w v w', Handles w' i S env → Does i c v w w' →
      wp successDiscipline.rules i (k v) Q (fun _ w => Handles w i S env) w') :
    wp successDiscipline.rules i (call c >>= k) Q (fun _ w => Handles w i S env) w := by
  rw [wp_bind]
  exact wp_before hw hc (fun _ _ h _ => h) hok

theorem skipped_of_seen {m : MessageId} {d : DocId} {w : World}
    (h : w.db.alreadyProcessed m = true) : Skipped m d w := Or.inl h

theorem skipped_of_fetched {m : MessageId} {d : DocId} {w : World} {row : Document}
    (h : w.db.documents d = some row) (ht : row.status.terminal = true) : Skipped m d w :=
  Or.inr ⟨row, h, ht⟩

theorem not_returns_settling {T : Stage} {m : Message} {c : Call} (h : Settling T m c) :
    ¬ Returns c := by
  rintro (rfl | ⟨m, rfl⟩)
  · exact h rfl
  · exact h

end Handlers

/-! ### The Python workers -/

theorem Python.onMessage_done {i : Nat} {S : Stage} {m : Message} {w : World} {cfg : Config}
    {N : Type} {handler : Envelope → Program (Option N)} {publishNext : Envelope → N → Program Unit}
    (hhandler : wp successDiscipline.rules i (handler m.body) (fun _ => Done i S m.body)
      (fun _ w => Handles w i S m.body) w)
    (hnext : ∀ n, (publishNext m.body n).Calls fun _ => True) :
    wp successDiscipline.rules i (onMessage cfg.maxRetries envelopeCodec (channel S m) handler
      publishNext m.body) (fun _ w => Handles w i S m.body) (fun _ w => Handles w i S m.body) w := by
  show wp successDiscipline.rules i (tryCatch _ _) _ _ w
  refine wp_try (F := fun _ w => Handles w i S m.body) ?_ ?_
  · rw [wp_bind]
    refine wp_mono hhandler (fun r w₁ h₁ => ?_) fun _ _ h => h
    have hack : ((channel S m).ack .success).Calls fun _ => True := calls_call trivial
    cases r with
    | none => exact wp_mono (keeps_done.calls hack h₁) (fun _ _ h => h.1) fun _ _ h => h.1
    | some next =>
      exact wp_mono (keeps_done.calls (.bind (hnext next) fun _ => hack) h₁) (fun _ _ h => h.1)
        fun _ _ h => h.1
  · intro e w₁ h₁
    cases e with
    | permanent => exact keeps_before.calls (calls_call (by simp [Returns])) h₁
    | transient =>
      exact keeps_before.calls ((retry_settling _ _ _).mono fun _ => not_returns_settling) h₁
    | other =>
      exact keeps_before.calls ((unhandled_settling _ _).mono fun _ => not_returns_settling) h₁

/-- A message that the checks skip is done. -/
theorem Python.handle_done {α : Type} {i : Nat} {S : Stage} {env : Envelope} {w : World} {skipped : α}
    {work : Document → Program α}
    (hwork : ∀ w document, Handles w i S env → wp successDiscipline.rules i (work document)
      (fun _ => Done i S env) (fun _ w => Handles w i S env) w) (hw : Handles w i S env) :
    wp successDiscipline.rules i (handle S skipped work env) (fun _ => Done i S env)
      (fun _ w => Handles w i S env) w := by
  refine handle_wp keeps_before (by simp [Returns]) (by simp [Returns]) (fun _ _ h => h)
    (fun _ _ h hs => ⟨h, skipped_of_seen hs⟩) (fun _ _ _ h _ => h)
    (fun _ _ _ h hrow ht => ⟨h, skipped_of_fetched hrow ht⟩) (fun w document _ h _ _ => ?_) hw
  exact wp_try (hwork w document h) fun e _ h₁ => onError_wp keeps_before (by simp [Returns])
    (by simp [Returns]) (fun _ _ h => h) e h₁

namespace Ocr
variable {i : Nat} {env : Envelope} {w : World}

theorem recognise_done (document : Document) (objectKey : ObjectKey) (hw : Handles w i .ocr env) :
    wp successDiscipline.rules i (recognise env document objectKey) (fun _ => Done i .ocr env)
      (fun _ w => Handles w i .ocr env) w := by
  unfold recognise updateDocumentStatus Python.recordEvent Python.recordProcessed
  refine keeps_before.call_then (by simp [Returns]) hw (fun _ _ h => h) fun _ w₁ h₁ => ?_
  refine keeps_before.call_then (by simp [Returns]) h₁ (fun _ _ h => h) fun _ w₂ h₂ => ?_
  refine keeps_before.call_then (by simp [Returns]) h₂ (fun _ _ h => h) fun blob w₃ h₃ => ?_
  split
  · exact h₃
  refine keeps_before.call_then (by simp [Returns]) h₃ (fun _ _ h => h) fun ⟨text, pages⟩ w₄ h₄ => ?_
  dsimp only
  split
  · exact h₄
  refine keeps_before.call_then (by simp [Returns]) h₄ (fun _ _ h => h) fun _ w₅ h₅ => ?_
  refine keeps_before.call_then (by simp [Returns]) h₅ (fun _ _ h => h) fun _ w₆ h₆ => ?_
  refine wp_before_call h₆ (by simp [Returns]) fun w _ w₇ h₇ hd => ⟨h₇, ?_⟩
  obtain rfl := hd
  exact Or.inl (Db.recordProcessed_isSome i _)

theorem handle_done (hw : Handles w i .ocr env) :
    wp successDiscipline.rules i (handle env) (fun _ => Done i .ocr env)
      (fun _ w => Handles w i .ocr env) w :=
  Python.handle_done (fun _ document h => recognise_done document _ h) hw

end Ocr

namespace Embedder
variable {i : Nat} {env : Envelope} {w : World}

theorem embed_done (document : Document) (hw : Handles w i .embed env) :
    wp successDiscipline.rules i (embed env document) (fun _ => Done i .embed env)
      (fun _ w => Handles w i .embed env) w := by
  unfold embed updateDocument writeEmbeddings Python.recordEvent Python.recordProcessed
  have hrecord : ∀ n w, Handles w i .embed env →
      wp successDiscipline.rules i (call (.recordProcessed (processedRow env n)))
        (fun _ => Done i .embed env) (fun _ w => Handles w i .embed env) w := by
    intro n w h
    refine wp_before h (by simp [Returns]) (fun _ _ h _ => h) fun w _ w' h' hd => ⟨h', ?_⟩
    obtain rfl := hd
    exact Or.inl (Db.recordProcessed_isSome i (processedRow env n))
  have hfinish : ∀ n e w, Handles w i .embed env → wp successDiscipline.rules i
      (do
        call (.updateDocument env.documentId { status := .embedded, embeddedAt := some .now })
        call (.recordEvent e)
        call (.recordProcessed (processedRow env n)))
        (fun _ => Done i .embed env) (fun _ w => Handles w i .embed env) w := by
    intro n e w h
    refine keeps_before.call_then (by simp [Returns]) h (fun _ _ h => h) fun _ w₁ h₁ => ?_
    exact keeps_before.call_then (by simp [Returns]) h₁ (fun _ _ h => h) fun _ w₂ h₂ => hrecord n w₂ h₂
  refine keeps_before.call_then (by simp [Returns]) hw (fun _ _ h => h) fun _ w₁ h₁ => ?_
  refine keeps_before.call_then (by simp [Returns]) h₁ (fun _ _ h => h) fun _ w₂ h₂ => ?_
  refine keeps_before.call_then (by simp [Returns]) h₂ (fun _ _ h => h) fun chunks w₃ h₃ => ?_
  split
  · exact hfinish _ _ w₃ h₃
  refine keeps_before.call_then (by simp [Returns]) h₃ (fun _ _ h => h) fun vectors w₄ h₄ => ?_
  dsimp only
  split
  · exact hfinish _ _ w₄ h₄
  · exact keeps_before.call_then (by simp [Returns]) h₄ (fun _ _ h => h) fun _ w₅ h₅ =>
      hfinish _ _ w₅ h₅

theorem handle_done (hw : Handles w i .embed env) :
    wp successDiscipline.rules i (handle env) (fun _ => Done i .embed env)
      (fun _ w => Handles w i .embed env) w :=
  Python.handle_done (fun _ document h => embed_done document h) hw

end Embedder

/-! ### The chunker -/

namespace Chunker
variable {i : Nat} {env : Envelope} {w : World} {cfg : Config}

theorem chunkDocument_done (rawText : Text) (hw : Handles w i .chunk env) :
    wp successDiscipline.rules i (chunkDocument cfg env rawText)
      (fun r w => Handles w i .chunk env ∧ (r = none → Skipped env.messageId env.documentId w))
      (fun _ _ => False) w := by
  unfold chunkDocument
  dsimp only
  split
  · refine keeps_before.perform_then (by simp [Returns]) hw fun _ w₁ h₁ => ?_
    exact keeps_before.perform_then (by simp [Returns]) h₁ fun _ _ h₂ => ⟨h₂, by simp⟩
  refine keeps_before.perform_then (by simp [Returns]) hw fun r w₁ h₁ => ?_
  cases r with
  | error e => exact ⟨h₁, by simp⟩
  | ok =>
    refine keeps_before.perform_then (by simp [Returns]) h₁ fun r w₂ h₂ => ?_
    cases r with
    | error e => exact ⟨h₂, by simp⟩
    | ok =>
      refine keeps_before.perform_then (by simp [Returns]) h₂ fun _ w₃ h₃ => ?_
      refine wp_before h₃ (by simp [Returns]) (fun _ _ _ hstage => absurd rfl (hstage _ rfl))
        fun w _ w₄ h₄ hd => ?_
      have hdone : Done i .chunk env w₄ := by
        obtain rfl := hd
        exact ⟨h₄, Or.inl (Db.recordProcessed_isSome i _)⟩
      unfold publishNext
      refine keeps_done.perform_then trivial hdone fun r w₅ h₅ => ?_
      cases r with
      | error e => exact ⟨h₅.1, fun _ => h₅.2⟩
      | ok id => exact keeps_done.perform_then trivial h₅ fun _ w₆ h₆ => ⟨h₆.1, fun _ => h₆.2⟩

theorem process_done (hw : Handles w i .chunk env) :
    wp successDiscipline.rules i (process cfg env)
      (fun r w => Handles w i .chunk env ∧ (r = none → Skipped env.messageId env.documentId w))
      (fun _ _ => False) w := by
  unfold process
  split
  · exact ⟨hw, by simp⟩
  refine wp_before hw (by simp [Returns]) (fun _ _ h _ => ⟨h, by simp⟩) fun w seen w₁ h₁ hd => ?_
  obtain ⟨hseen, rfl⟩ := hd
  cases seen with
  | true => exact ⟨h₁, fun _ => skipped_of_seen hseen.symm⟩
  | false =>
    refine wp_before h₁ (by simp [Returns]) (fun _ _ h _ => ⟨h, by simp⟩) fun w found w₂ h₂ hd => ?_
    obtain ⟨hfound, rfl⟩ := hd
    cases found with
    | none => exact ⟨h₂, by simp⟩
    | some doc =>
      dsimp only
      split
      · exact ⟨h₂, fun _ => skipped_of_fetched hfound.symm ‹_›⟩
      split
      · exact ⟨h₂, by simp⟩
      refine keeps_before.perform_then (by simp [Returns]) h₂ fun r w₃ h₃ => ?_
      cases r with
      | error e => exact ⟨h₃, by simp⟩
      | ok =>
        exact keeps_before.perform_then (by simp [Returns]) h₃ fun _ w₄ h₄ =>
          chunkDocument_done _ h₄

theorem handle_done {d : Message} (hw : Handles w i .chunk d.body) :
    wp successDiscipline.rules i (handle cfg d) (fun _ _ => True) (fun _ _ => True) w := by
  unfold handle
  dsimp only
  have halike := alike_defaultAttempt d.body
  generalize (if d.body.attempt = 0 then { d.body with attempt := 1 } else d.body) = env
    at halike ⊢
  rw [wp_bind]
  refine wp_mono (process_done (hw.alike halike)) (fun r w₁ ⟨h₁, hskip⟩ => ?_) fun _ _ h => h.elim
  have hack : ∀ o w, o ≠ .success → Handles w i .chunk env → wp successDiscipline.rules i
      (Prog.perform (.ack o) >>= fun _ => pure ()) (fun _ _ => True) (fun _ _ => True) w :=
    fun o w ho h => keeps_before.perform_then (by simpa [Returns] using ho) h fun _ _ _ => trivial
  split
  · exact keeps_done.perform_then trivial ⟨h₁, hskip rfl⟩ fun _ _ _ => trivial
  · exact hack _ w₁ (by simp) h₁
  · split
    · exact keeps_before.perform_then (by simp [Returns]) h₁ fun _ w₂ h₂ => hack _ w₂ (by simp) h₂
    · exact keeps_before.perform_then (by simp [Returns]) h₁ fun _ w₂ h₂ => hack _ w₂ (by simp) h₂

end Chunker

/-! ### Every run -/

theorem keeps_unreturned : successDiscipline.Keeps i (fun _ => True) fun c => ¬ Returns c where
  stable _ _ _ _ _ _ _ _ _ := trivial
  fail _ _ _ hc _ _ _ hr := absurd hr hc
  does _ _ _ _ _ hc _ _ _ _ _ _ _ _ := ⟨trivial, fun hr => absurd hr hc, trivial⟩

theorem success_sound (cfg : Config) : successDiscipline.Sound cfg .init where
  reached := .start
  start := Discipline.safe_init trivial
  known s h := reachable_base h
  moves s l s' h hok hstep := lasts_of_step h hok hstep
  admits s i a c k _ _ hok hp := by
    rintro reason rfl row rfl
    exact hok.1 row (Pool.pending_of_progs hp)
  others _ _ _ _ _ _ _ _ _ _ _ _ _ _ _ _ _ _ := trivial
  env _ _ _ _ _ _ _ _ _ := ⟨trivial, fun _ _ _ _ _ => trivial⟩
  upload s i upload title tenantId _ _ _ _ _ := by
    refine Api.upload_keeps (keeps_unreturned.mono fun c hc => ?_) _ _ _ trivial
    rintro (rfl | ⟨m, rfl⟩)
    · exact hc
    · exact absurd hc.1 (by simp)
  retryRequest s i documentId _ _ _ _ _ := by
    refine Api.retryAction_keeps (keeps_unreturned.mono fun c hc => ?_) _ trivial
    rintro (rfl | ⟨m, rfl⟩) <;> exact hc
  consumer s i S n copy w _ _ _ _ hi _ hw hb _ := by
    obtain ⟨hwork, -, -⟩ := hb.delivered hi hw
    cases S with
    | ocr =>
      exact wp_mono (Python.onMessage_done (Ocr.handle_done hwork.handles)
        fun _ => calls_call trivial) (fun _ _ _ => trivial) fun _ _ _ => trivial
    | chunk => exact Chunker.handle_done hwork.handles
    | embed =>
      show wp successDiscipline.rules i (Embedder.onMessage cfg copy.message) _ _ w
      unfold Embedder.onMessage
      refine wp_mono (Python.onMessage_done (S := .embed) ?_ fun n => nomatch n)
        (fun _ _ _ => trivial) fun _ _ _ => trivial
      rw [wp_bind]
      exact wp_mono (Embedder.handle_done hwork.handles) (fun _ _ h => h) fun _ _ h => h

/-- **A success leaves its message to be skipped.** -/
theorem skipped_of_returned {cfg : Config} {s : Sys} (hs : Reachable cfg skipsHold s) {i : Nat}
    (h : Returned s i) :
    ∃ S env, Handles s.world i S env ∧ Skipped env.messageId env.documentId s.world := by
  obtain ⟨c, hc, hr⟩ := h
  obtain ⟨k, hp⟩ := Pool.pending_eq_some.mp hc
  have hbase := reachable_base hs
  -- the call may fail, and then it guarantees what it would have
  have hx : exec i c (.fail "") s.world = some (.error "", s.world) := by
    rcases hr with rfl | ⟨m, rfl⟩ <;> rfl
  refine (((success_sound cfg).safe hs).exec hp ⟨hbase, hbase, .refl _, .fail "", ?_, hx⟩).2.1 hr
  rintro reason - row rfl
  rcases hr with he | ⟨m, he⟩ <;> cases he

/-! ## The message again -/

/-- A call that changes no row and hands no message on, and that is a lookup or
settles the delivery. -/
structure Idle (c : Call) (w w' : World) : Prop where
  documents : w'.db.documents = w.db.documents
  chunks : w'.db.chunks = w.db.chunks
  events : w'.db.events = w.db.events
  accepted : w'.broker.accepted = w.broker.accepted
  handler : w' = w ∨ Settles c

theorem Idle.refl (c : Call) (w : World) : Idle c w w := ⟨rfl, rfl, rfl, rfl, Or.inl rfl⟩

/-- A lookup of the handler, or a call that settles the delivery. -/
def LooksOrSettles (c : Call) : Prop :=
  (∃ m, c = .alreadyProcessed m) ∨ (∃ d, c = .fetchDocument d) ∨ Settles c

theorem idle_of_does {i : Nat} {c : Call} {v : c.Val} {w w' : World} (hc : LooksOrSettles c)
    (hd : Does i c v w w') : Idle c w w' := by
  rcases hc with ⟨m, rfl⟩ | ⟨d, rfl⟩ | hc
  · obtain ⟨-, rfl⟩ := hd
    exact .refl _ _
  · obtain ⟨-, rfl⟩ := hd
    exact .refl _ _
  · cases c with
    | ack =>
      obtain ⟨copy, -, rfl⟩ := hd
      exact ⟨rfl, rfl, rfl, rfl, Or.inr hc⟩
    | nack =>
      obtain ⟨copy, q, -, rfl⟩ := hd
      exact ⟨rfl, rfl, rfl, Broker.nack_accepted _ _ _ _, Or.inr hc⟩
    | publish exchange key m =>
      obtain rfl := hd
      refine ⟨rfl, rfl, rfl, ?_, Or.inr hc⟩
      show (w.broker.publish i exchange key m).accepted = _
      rw [Broker.publish_accepted, Broker.log, if_neg hc]
    | _ => exact hc.elim

/-- The runs from a state in which message `m` of document `d` is going to be
skipped and execution `j` is handling it. -/
def againDiscipline (j : Nat) (m : MessageId) (d : DocId) : Discipline where
  ok := skipsHold
  known w := Skipped m d w
  moves := Lasts
  admits _ _ _ _ := True
  inv _ := True
  rely _ _ _ _ := True
  guar i c w _ w' := i = j → Idle c w w'
  moves_refl := .refl
  moves_trans _ _ _ := .trans
  rely_refl _ _ _ := trivial
  rely_trans _ _ _ _ _ _ _ := trivial
  post _ _ := True

section Again
variable {i j : Nat} {m : MessageId} {d : DocId} {w : World} {α : Type}

/-- The other executions owe nothing. -/
theorem again_other (hi : i ≠ j) (p : Program Unit) : (againDiscipline j m d).Verified i p w :=
  wp_of_calls (.of_forall (fun _ => trivial) p) trivial (fun _ _ _ _ _ _ _ => trivial)
    fun _ _ _ _ _ _ _ _ => ⟨trivial, fun he => absurd he hi, trivial⟩

theorem again_keeps (K : World → Prop) (hK : ∀ w w', K w → Lasts w w' → K w') :
    (againDiscipline j m d).Keeps i K LooksOrSettles where
  stable _ w w' _ h hl _ _ _ := hK w w' h hl
  fail c w _ _ _ _ _ := fun _ => .refl c w
  does _ w _ w' _ hc h _ _ _ hl _ _ hd := ⟨trivial, fun _ => idle_of_does hc hd, hK w w' h hl⟩

variable {Q : α → World → Prop} {E : Exc → World → Prop}

/-- The dedupe check: if it does not find the message, the document is finished. -/
theorem wp_seen {k : (Call.alreadyProcessed m).Reply → Program α}
    (hfail : ∀ reason w, wp (againDiscipline j m d).rules i (k (.error reason)) Q E w)
    (hseen : ∀ w, wp (againDiscipline j m d).rules i (k (.ok true)) Q E w)
    (hnew : ∀ w, w.db.Finished d → wp (againDiscipline j m d).rules i (k (.ok false)) Q E w) :
    wp (againDiscipline j m d).rules i (Prog.perform (.alreadyProcessed m) >>= k) Q E w := by
  refine Discipline.wp_perform (D := againDiscipline j m d) (fun _ => True) trivial
    (fun _ _ _ _ _ _ _ => trivial) (fun w reason _ _ _ _ _ => ⟨fun _ => .refl _ w, hfail reason w⟩) ?_
  rintro w v w' a - hskip - - - - - ⟨hv, rfl⟩
  refine ⟨trivial, fun _ => .refl _ _, ?_⟩
  cases v with
  | true => exact hseen _
  | false =>
    refine hnew _ (hskip.resolve_left fun h => ?_)
    rw [show w'.db.alreadyProcessed m = (w'.db.processed m).isSome from rfl, h] at hv
    cases hv

/-- The fetch, which finds the document finished. -/
theorem wp_finished {k : (Call.fetchDocument d).Reply → Program α} (hw : w.db.Finished d)
    (hfail : ∀ reason w, wp (againDiscipline j m d).rules i (k (.error reason)) Q E w)
    (hok : ∀ row w, row.status.terminal = true →
      wp (againDiscipline j m d).rules i (k (.ok (some row))) Q E w) :
    wp (againDiscipline j m d).rules i (Prog.perform (.fetchDocument d) >>= k) Q E w := by
  refine Discipline.wp_perform (D := againDiscipline j m d) (fun w => w.db.Finished d) hw
    (fun _ _ h hl _ _ _ => hl.2 d h) (fun w reason _ _ _ _ _ => ⟨fun _ => .refl _ w, hfail reason w⟩) ?_
  rintro w v w' a ⟨row, hrow, hterminal⟩ - - - - - - ⟨rfl, rfl⟩
  refine ⟨trivial, fun _ => .refl _ _, ?_⟩
  rw [hrow]
  exact hok row _ hterminal

end Again

theorem Python.onMessage_again {i j : Nat} {S : Stage} {m : Message} {w : World} {cfg : Config}
    {N : Type} {handler : Envelope → Program (Option N)} {publishNext : Envelope → N → Program Unit}
    (hhandler : wp (againDiscipline j m.body.messageId m.body.documentId).rules i (handler m.body)
      (fun r _ => r = none) (fun _ _ => True) w) :
    (againDiscipline j m.body.messageId m.body.documentId).Verified i
      (onMessage cfg.maxRetries envelopeCodec (channel S m) handler publishNext m.body) w := by
  have hkeeps := again_keeps (i := i) (j := j) (m := m.body.messageId) (d := m.body.documentId)
    (fun _ => True) fun _ _ _ _ => trivial
  have hack : ∀ o, ((channel S m).ack o).Calls LooksOrSettles :=
    fun o => calls_call (Or.inr (Or.inr trivial))
  show wp _ i (tryCatch _ _) _ _ w
  refine wp_try (F := fun _ _ => True) ?_ ?_
  · rw [wp_bind]
    refine wp_mono hhandler (fun r w₁ h₁ => ?_) fun _ _ h => h
    obtain rfl := h₁
    exact hkeeps.calls (hack _) trivial
  · intro e w₁ _
    cases e with
    | permanent => exact hkeeps.calls (hack _) trivial
    | transient =>
      exact hkeeps.calls ((retry_settling _ _ _).mono fun _ h => Or.inr (Or.inr (settles_of_settling h))) trivial
    | other =>
      exact hkeeps.calls ((unhandled_settling _ _).mono fun _ h => Or.inr (Or.inr (settles_of_settling h)))
        trivial

/-- A Python handler skips the message, whatever its `try` block does. -/
theorem Python.handle_again {i j : Nat} {S : Stage} {env : Envelope} {w : World} {α : Type}
    {skipped : α} {work : Document → Program α} :
    wp (againDiscipline j env.messageId env.documentId).rules i (handle S skipped work env)
      (fun r _ => r = skipped) (fun _ _ => True) w := by
  unfold handle alreadyProcessed fetchDocument
  rw [wp_bind]
  refine wp_seen (fun _ _ => trivial) (fun _ => rfl) fun w₁ h₁ => ?_
  show wp _ i (call _ >>= _) _ _ w₁
  rw [wp_bind]
  refine wp_finished h₁ (fun _ _ => trivial) fun row w₂ h₂ => ?_
  simp [h₂]

theorem Chunker.process_again {i j : Nat} {cfg : Config} {w : World} (env : Envelope) :
    wp (againDiscipline j env.messageId env.documentId).rules i (process cfg env)
      (fun _ _ => True) (fun _ _ => True) w := by
  unfold process
  split
  · trivial
  refine wp_seen (fun _ _ => trivial) (fun _ => trivial) fun w₁ h₁ => ?_
  refine wp_finished h₁ (fun _ _ => trivial) fun row w₂ h₂ => ?_
  simp [h₂]

theorem Chunker.handle_again {i j : Nat} {m : Message} {cfg : Config} {w : World} :
    (againDiscipline j m.body.messageId m.body.documentId).Verified i (handle cfg m) w := by
  unfold handle Discipline.Verified
  dsimp only
  obtain ⟨a, henv⟩ := alike_defaultAttempt m.body
  rw [henv, wp_bind]
  refine wp_mono (process_again { m.body with attempt := a }) (fun r w₁ _ => ?_)
    fun _ _ _ => trivial
  have hkeeps := again_keeps (i := i) (j := j) (m := m.body.messageId) (d := m.body.documentId)
    (fun _ => True) fun _ _ _ _ => trivial
  have hack : ∀ o, (Prog.perform (.ack o) >>= fun _ => pure () : Program Unit).Calls LooksOrSettles :=
    fun o => .bind (.perform (Or.inr (Or.inr trivial))) fun _ => trivial
  refine hkeeps.calls (K := fun _ => True) ?_ trivial
  split
  · exact hack _
  · exact hack _
  · split
    · exact .bind (.bind (.perform (Or.inr (Or.inr (by simp [Settles])))) fun _ => trivial)
        fun _ => hack _
    · exact .bind (.bind (.perform (Or.inr (Or.inr (by simp [Settles])))) fun _ => trivial)
        fun _ => hack _

theorem consumer_again {i j : Nat} {S : Stage} {m : Message} {cfg : Config} {w : World} :
    (againDiscipline j m.body.messageId m.body.documentId).Verified i (consumer cfg S m) w := by
  cases S with
  | ocr => exact Python.onMessage_again Python.handle_again
  | chunk => exact Chunker.handle_again
  | embed =>
    show (againDiscipline j m.body.messageId m.body.documentId).Verified i (Embedder.onMessage cfg m) w
    unfold Embedder.onMessage
    refine Python.onMessage_again (S := .embed) ?_
    rw [wp_bind]
    exact wp_mono Python.handle_again (fun _ _ _ => rfl) fun _ _ h => h

section Runs
variable {cfg : Config} {s s' : Sys} {j : Nat}

theorem lasts_of_reaches (hs : Reachable cfg skipsHold s) (h : Reaches (step cfg) skipsHold s s') :
    Lasts s.world s'.world := by
  induction h with
  | start => exact .refl _
  | next h hok hstep ih => exact ih.trans (lasts_of_step (hs.trans h) hok hstep)

theorem again_sound {S : Stage} {m : Message} (hs : Reachable cfg skipsHold s)
    (hj : s.progs j = some (consumer cfg S m))
    (hskip : Skipped m.body.messageId m.body.documentId s.world) :
    (againDiscipline j m.body.messageId m.body.documentId).Sound cfg s where
  reached := hs
  start := by
    refine ⟨trivial, fun i c k hp => ?_⟩
    by_cases hij : i = j
    · subst hij
      exact Option.some.inj (hj.symm.trans hp) ▸ consumer_again
    · exact again_other hij _
  known _ h := hskip.lasts (lasts_of_reaches hs h)
  moves _ _ _ h hok hstep := lasts_of_step (hs.trans h) hok hstep
  admits _ _ _ _ _ _ _ _ _ := trivial
  others _ _ _ _ _ _ _ _ _ _ _ _ _ _ _ _ _ _ := trivial
  env _ _ _ _ _ _ _ _ _ := ⟨trivial, fun _ _ _ _ _ => trivial⟩
  upload s₁ i _ _ _ h _ _ hunused _ := again_other (unused_ne h hunused) _
  retryRequest s₁ i _ h _ _ hunused _ := again_other (unused_ne h hunused) _
  consumer s₁ i _ _ _ _ h _ _ hunused _ _ _ _ _ := again_other (unused_ne h hunused) _
where
  unused_ne {s₁ : Sys} {i : Nat} (h : Reaches (step cfg) skipsHold s s₁) (hunused : s₁.Unused i) :
      i ≠ j := by
    rintro rfl
    have hsome := progs_isSome_of_reaches h (by rw [hj]; rfl)
    rw [Option.isNone_iff_eq_none.mp hunused.1] at hsome
    cases hsome

/-- **A message handled again after success changes nothing**, in a run in which
the chunker's dedupe rows are inserted and no update hits a finished document. -/
theorem redelivered_noop {a : Answer} (h : HandledAgain cfg skipsHold j s)
    (hok : skipsHold s (.run j a)) (hstep : step cfg s (.run j a) = some s') : NoOp s j s' := by
  obtain ⟨s₁, s₂, s₃, i, S, n, copy, copy', h₁, hret, hcopy, h₂, hdel, hcopy', hid, h₃⟩ := h
  have hs₂ := h₁.trans h₂
  have hdelOk : skipsHold s₂ (.deliver j S n) := ⟨trivial, trivial⟩
  have hs₃ : Reachable cfg skipsHold s₃ := hs₂.next hdelOk hdel
  have hlasts := (lasts_of_reaches h₁ h₂).trans (lasts_of_step hs₂ hdelOk hdel)
  obtain ⟨S₀, env, hh, hskip⟩ := skipped_of_returned h₁ hret
  obtain ⟨c, hunused, hc, rfl⟩ := step_deliver hdel
  have hbase := reachable_base hs₃
  obtain ⟨hwork, -, -⟩ := hbase.delivered
    ((apart_of_step (i := j) hdel (by simp)).untouched (hunused.untouched hs₂)) rfl
  obtain rfl : copy' = c := by
    simpa [Broker.handled, Broker.deliver] using hcopy'.symm
  -- the message is the one that was handled before
  have henv : copy'.message.body.messageId = env.messageId := by
    obtain ⟨c₁, hc₁, -, halike⟩ := hh
    obtain rfl := Option.some.inj (hc₁.symm.trans hcopy)
    exact hid.trans halike.messageId.symm
  obtain ⟨-, hdoc⟩ := hbase.sameHandled hwork.handles (hh.mono hlasts.1) henv
  have hskip₃ := hskip.lasts hlasts
  rw [← henv, ← hdoc] at hskip₃
  have hsafe := (again_sound hs₃ (Pool.spawn_progs_self _ _ _) hskip₃).safe h₃
  have hlasts' := lasts_of_step (hs₃.trans h₃) hok hstep
  have hskip' := hskip₃.lasts (lasts_of_reaches hs₃ h₃)
  obtain ⟨ch, k, r, w, hp, hx, rfl⟩ := step_run hstep
  have hidle : Idle ch s.world w :=
    (hsafe.exec hp ⟨hskip', hskip'.lasts hlasts', hlasts', a, trivial, hx⟩).2.1 rfl
  exact ⟨hidle.documents, hidle.chunks, hidle.events, hidle.accepted,
    hidle.handler.imp_right fun hc => ⟨ch, Pool.pending_of_progs hp, hc⟩⟩

end Runs

/-! ## Runs on fixed inputs -/

/-- Whether a step keeps what was skipped skipped, in a run in which no call fails. -/
def calm (s : Sys) : Label → Bool
  | .run _ (.fail _) => false
  | .run i .ok => (s.pending i).all fun
    | .updateDocument d _ => !decide (s.world.db.Finished d)
    | _ => true
  | _ => true

theorem skipsHold_of_calm {s : Sys} {l : Label} (h : calm s l = true) : skipsHold s l := by
  cases l with
  | run i a =>
    cases a with
    | fail => cases h
    | ok =>
      refine ⟨trivial, fun d u hp hfinished => ?_⟩
      rw [calm, hp, Option.all_some] at h
      simp [hfinished] at h
    | id | text | vectors => exact ⟨trivial, trivial⟩
  | upload | retryRequest | deliver | die | redeliver | expire => exact ⟨trivial, trivial⟩

/-- Whether execution `i` is about to ack, or to publish the chunk message. -/
def returns (s : Sys) (i : Nat) : Bool :=
  (s.pending i).any fun
    | .ack .success => true
    | .publish .ingest key _ => key = ⟨.chunk, .work⟩
    | _ => false

theorem returned_of_returns {s : Sys} {i : Nat} (h : returns s i = true) : Returned s i := by
  obtain ⟨c, hc, hr⟩ := (Option.any_eq_true _ _).mp h
  refine ⟨c, hc, ?_⟩
  cases c with
  | ack o =>
    cases o with
    | success => exact Or.inl rfl
    | _ => cases hr
  | publish exchange key m =>
    cases exchange with
    | ingest => exact Or.inr ⟨m, by rw [of_decide_eq_true hr]⟩
    | _ => cases hr
  | _ => cases hr

/-- Whether execution `i` handles message `m`. -/
def handles (s : Sys) (i : Nat) (m : MessageId) : Bool :=
  (s.world.broker.handled i).any fun c => c.message.body.messageId = m

/-- Execution `i` returns success for `m` after `before` and loses its delivery;
execution `j` is given the message and goes on as `after` says. -/
theorem exists_handledAgain (cfg : Config) (ok : Sys → Label → Prop) (check : Sys → Label → Bool)
    (hcheck : ∀ s l, check s l = true → ok s l) (i j : Nat) (S : Stage) (m : MessageId)
    (before after : List Label) (P : Sys → Bool)
    (h : ((run (Reaches.guarded (step cfg) check) .init before).any fun s₁ =>
      returns s₁ i && handles s₁ i m &&
        (run (Reaches.guarded (step cfg) check) s₁ [.redeliver i]).any fun s₂ =>
          (step cfg s₂ (.deliver j S 0)).any fun s₃ =>
            handles s₃ j m && (run (Reaches.guarded (step cfg) check) s₃ after).any P) = true) :
    ∃ s, HandledAgain cfg ok j s ∧ P s = true := by
  obtain ⟨s₁, hs₁, h⟩ := (Option.any_eq_true _ _).mp h
  obtain ⟨⟨hret, hm⟩, h⟩ := (Bool.and_eq_true_iff.mp h).imp_left Bool.and_eq_true_iff.mp
  obtain ⟨s₂, hs₂, h⟩ := (Option.any_eq_true _ _).mp h
  obtain ⟨s₃, hs₃, h⟩ := (Option.any_eq_true _ _).mp h
  obtain ⟨hm', h⟩ := Bool.and_eq_true_iff.mp h
  obtain ⟨s, hs, hP⟩ := (Option.any_eq_true _ _).mp h
  obtain ⟨copy, hcopy, hid⟩ := (Option.any_eq_true _ _).mp hm
  obtain ⟨copy', hcopy', hid'⟩ := (Option.any_eq_true _ _).mp hm'
  refine ⟨s, ⟨s₁, s₂, s₃, i, S, 0, copy, copy', .of_guarded hcheck hs₁, returned_of_returns hret,
    hcopy, .of_guarded hcheck hs₂, hs₃, hcopy', ?_, .of_guarded hcheck hs⟩, hP⟩
  rw [of_decide_eq_true hid, of_decide_eq_true hid']

/-- The OCR message is delivered again before its first delivery is acked: the
second handler finds the dedupe row. -/
theorem redelivered_noop_sample : ∃ s s' : Sys, step sampleConfig s (.run 2 .ok) = some s' ∧
    NoOp s 2 s' := by
  obtain ⟨s, hagain, hP⟩ := exists_handledAgain sampleConfig skipsHold calm (fun _ _ => skipsHold_of_calm)
    1 2 .ocr ['m'] (uploadRun ++ (ocrRun 1).dropLast) []
    (fun s => (Reaches.guarded (step sampleConfig) calm s (.run 2 .ok)).isSome) (by decide)
  obtain ⟨s', hs'⟩ := Option.isSome_iff_exists.mp hP
  obtain ⟨hcalm, hstep⟩ := Reaches.guarded_eq_some.mp hs'
  exact ⟨s, s', hstep, redelivered_noop hagain (skipsHold_of_calm hcalm) hstep⟩

/-- Execution 2 divides the document, but the insert of its dedupe row fails. -/
def unrecordedRun : List Label :=
  uploadRun ++ ocrRun 1 ++ .deliver 2 .chunk 0 ::
    answers 2 [.ok, .ok, .ok, .ok, .ok, .ok, .ok, .fail "db", .id ['e'], .ok]

/-- **A message that was handled with success can be handled anew**: the chunker
returns success without a dedupe row, and the message delivered again takes the
document from `chunked` back to `chunking`. -/
theorem not_redelivered_noop : ¬ ∀ (cfg : Config) (s s' : Sys) (j : Nat) (a : Answer),
    HandledAgain cfg anyStep j s → step cfg s (.run j a) = some s' → NoOp s j s' := by
  intro hall
  obtain ⟨s, hagain, hP⟩ := exists_handledAgain sampleConfig anyStep (fun _ _ => true)
    (fun _ _ _ => trivial) 2 3 .chunk "m:chunk".toList unrecordedRun
    (answers 3 [.ok, .ok])
    (fun s => (step sampleConfig s (.run 3 .ok)).any fun s' =>
      (s.world.db.documents 1).map Document.status = some .chunked ∧
        (s'.world.db.documents 1).map Document.status = some .chunking) (by decide)
  obtain ⟨s', hs', hstatus⟩ := (Option.any_eq_true _ _).mp hP
  obtain ⟨hbefore, hafter⟩ := of_decide_eq_true hstatus
  rw [(hall _ s s' 3 .ok hagain hs').documents, hbefore] at hafter
  cases hafter

end DigitalCip
