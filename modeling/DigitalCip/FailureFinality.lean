import DigitalCip.Invariant.Chunkable
import DigitalCip.Invariant.Finished

/-!
# Giving a message up

A worker gives a message up for one of two reasons, and does one of two things.  When
its handler fails for good, the document is marked `failed` and the message is acked;
when the retries are exhausted, the message goes to the dead-letter queue and the
document stays as it is.  Each path leaves out what the other one does
(`not_failureFinality`), so a message that is given up is dead-lettered with its
document marked only if the other half has been done before (`failureFinal_iff`).  It is
another execution that has done it (`OtherHalf.lean`).
-/

namespace DigitalCip
open Resumable

/-! ## What is promised -/

/-- The document is `failed`, with the reason and the time. -/
def Db.Failed (db : Db) (d : DocId) : Prop :=
  ∃ row, db.documents d = some row ∧ row.status = .failed ∧ row.failureReason.isSome ∧
    row.failedAt.isSome

/-- There is an event that leads to `failed`. -/
def Db.FailureLogged (db : Db) (d : DocId) : Prop :=
  ∃ e ∈ db.events, e.documentId = d ∧ e.toState = .failed

/-- The failure of the document is recorded. -/
def Db.Marked (db : Db) (d : DocId) : Prop := db.Failed d ∧ db.FailureLogged d

/-- Message `m` is in the dead-letter queue of its stage. -/
def Broker.DeadLettered (b : Broker) (S : Stage) (m : MessageId) : Prop :=
  ∃ c ∈ b.queues ⟨S, .dlq⟩, c.message.body.messageId = m

/-- The failure of the copy's message is final. -/
structure FailureFinal (w : World) (copy : Copy) : Prop where
  marked : w.db.Marked copy.message.body.documentId
  deadLettered : w.broker.DeadLettered copy.message.body.stage copy.message.body.messageId

/-- Execution `i` is about to settle its delivery of the copy, and gives its message up:
for good, or because the retries are exhausted. -/
structure GivesUp (s : Sys) (i : Nat) (copy : Copy) (o : Outcome) : Prop where
  pending : s.pending i = some (.ack o)
  outcome : o = .permanent ∨ o = .deadLettered
  unsettled : s.world.broker.Unsettled i copy

/-- The database is available when a failure is recorded. -/
def failuresRecorded (s : Sys) : Label → Bool
  | .run i (.fail _) => (s.pending i).all fun c => !c.recordsFailure
  | _ => true

/-- Every message of a document that is not embedded is given up with outcome `o` for
good. -/
def FailureFinality (o : Outcome) : Prop :=
  ∀ (cfg : Config) (s s' : Sys) (i : Nat) (copy : Copy) (row : Document),
    Reachable cfg (fun s l => failuresRecorded s l = true) s → GivesUp s i copy o →
      s.world.db.documents copy.message.body.documentId = some row → row.status ≠ .embedded →
        step cfg s (.run i .ok) = some s' → FailureFinal s'.world copy

/-! ## What is done -/

/-- The chunker's publishes to `ingest.dlx` do not fail. -/
def chunkerDeadLetters (s : Sys) : Label → Prop
  | .run i (.fail _) => ∀ key m, s.pending i = some (.publish .dlx key m) → key.stage ≠ .chunk
  | _ => True

/-- Finished documents are left alone, and what the chunker dead-letters is accepted. -/
def conclusive (s : Sys) (l : Label) : Prop := keepsFinished s l ∧ chunkerDeadLetters s l

/-- What the worker does not do itself when it gives the copy's message up. -/
def OtherHalf (w : World) (copy : Copy) : Outcome → Prop
  | .permanent => w.broker.DeadLettered copy.message.body.stage copy.message.body.messageId
  | _ => w.db.Marked copy.message.body.documentId

/-- A failure that is recorded, and a message that is dead-lettered, stay so. -/
structure Remains (w w' : World) : Prop where
  grows : Grows w w'
  failed : ∀ d, w.db.Failed d → w'.db.Failed d
  logged : ∀ d, w.db.FailureLogged d → w'.db.FailureLogged d
  deadLettered : ∀ S m, w.broker.DeadLettered S m → w'.broker.DeadLettered S m

namespace Remains
variable {w w' w'' : World} {d : DocId}

theorem refl (w : World) : Remains w w := ⟨.refl w, fun _ => id, fun _ => id, fun _ _ => id⟩

theorem trans (h : Remains w w') (h' : Remains w' w'') : Remains w w'' :=
  ⟨h.grows.trans h'.grows, fun d hd => h'.failed d (h.failed d hd),
    fun d hd => h'.logged d (h.logged d hd),
    fun S m hm => h'.deadLettered S m (h.deadLettered S m hm)⟩

theorem marked (h : Remains w w') (hd : w.db.Marked d) : w'.db.Marked d :=
  ⟨h.failed d hd.1, h.logged d hd.2⟩

end Remains

theorem remains_of_step {cfg : Config} {ok : Sys → Label → Prop} {s s' : Sys} {l : Label}
    (hs : Reachable cfg ok s) (hl : keepsFinished s l) (hstep : step cfg s l = some s') :
    Remains s.world s'.world := by
  refine ⟨grows_of_step hs hstep, ?_, ?_, ?_⟩
  · rintro d ⟨row, hrow, hstatus, hfailure⟩
    exact ⟨row, row_of_step hs hl hstep hrow (by rw [hstatus]; rfl), hstatus, hfailure⟩
  · rintro d ⟨e, he, hevent⟩
    obtain ⟨new, hnew⟩ := events_of_step hstep
    exact ⟨e, hnew ▸ List.mem_append_left new he, hevent⟩
  · rintro S m ⟨c, hc, hm⟩
    refine ⟨c, ?_, hm⟩
    rcases world_of_step hstep with he | hmove | ⟨i, a, c, k, v, -, -, hreply⟩
    · rwa [he]
    · rwa [dlq_of_envMove (reachable_base hs) hmove]
    · exact mem_queues_of_does (does_of_reply hreply) hc

/-- The conclusive runs.  Who gives a message up has done one of the two things. -/
def finalityDiscipline : Discipline where
  ok := conclusive
  known := Base
  moves := Remains
  admits _ c a _ := ∀ reason, a = .fail reason → ∀ key m, c = .publish .dlx key m →
    key.stage ≠ .chunk
  inv _ := True
  rely _ _ _ _ := True
  guar i c w _ _ :=
    (c = .ack .permanent → ∃ S env, Handles w i S env ∧ w.db.Marked env.documentId) ∧
      (c = .ack .deadLettered →
        ∃ S env, Handles w i S env ∧ w.broker.DeadLettered S env.messageId)
  moves_refl := .refl
  moves_trans _ _ _ := .trans
  rely_refl _ _ _ := trivial
  rely_trans _ _ _ _ _ _ _ := trivial
  post _ _ := True

section Handlers
variable {i : Nat} {S : Stage} {env : Envelope} {w : World} {cfg : Config} {α : Type} {c : Call}
  {Q : α → World → Prop} {E : Exc → World → Prop}

/-- The calls that give nothing up. -/
def Trying (c : Call) : Prop := c ≠ .ack .permanent ∧ c ≠ .ack .deadLettered

theorem guar_of_trying (hc : Trying c) {r : c.Reply} {w' : World} :
    finalityDiscipline.guar i c w r w' :=
  ⟨fun he => absurd he hc.1, fun he => absurd he hc.2⟩

theorem keeps_trying {K : World → Prop} (hK : ∀ w w', K w → Remains w w' → K w') :
    finalityDiscipline.Keeps i K Trying where
  stable _ w w' _ h hm _ _ _ := hK w w' h hm
  fail _ _ _ hc _ _ _ := guar_of_trying hc
  does _ w _ w' _ hc h _ _ _ hm _ _ _ := ⟨trivial, guar_of_trying hc, hK w w' h hm⟩

theorem keeps_tried : finalityDiscipline.Keeps i (fun w => Handles w i S env) Trying :=
  keeps_trying fun _ _ h hm => h.mono hm.grows

theorem trying_of_not_settles (hc : ¬ Settles c) : Trying c := by
  refine ⟨?_, ?_⟩
  · rintro rfl
    exact hc trivial
  · rintro rfl
    exact hc trivial

/-- A call, with what it does. -/
theorem wp_trying {k : c.Reply → Program α} (hw : Handles w i S env) (hc : ¬ Settles c)
    (hfail : ∀ reason w, Handles w i S env → wp finalityDiscipline.rules i (k (.error reason)) Q E w)
    (hok : ∀ w v w', Base w → Handles w i S env → Handles w' i S env → Does i c v w w' →
      wp finalityDiscipline.rules i (k (.ok v)) Q E w') :
    wp finalityDiscipline.rules i (Prog.perform c >>= k) Q E w :=
  keeps_tried.perform_does (trying_of_not_settles hc) hw hfail hok

/-- What a handler leaves when it raises: if it fails for good, the failure is recorded. -/
def Raised (i : Nat) (S : Stage) (env : Envelope) (e : Exc) (w : World) : Prop :=
  Handles w i S env ∧ ∀ reason, e = .permanent reason → w.db.Marked env.documentId

theorem raised_of_other {reason : String} (h : Handles w i S env) :
    Raised i S env (.other reason) w :=
  ⟨h, fun _ he => nomatch he⟩

theorem wp_trying_call {k : c.Val → Program α} (hw : Handles w i S env) (hc : ¬ Settles c)
    (hok : ∀ w v w', Base w → Handles w i S env → Handles w' i S env → Does i c v w w' →
      wp finalityDiscipline.rules i (k v) Q (Raised i S env) w') :
    wp finalityDiscipline.rules i (call c >>= k) Q (Raised i S env) w := by
  rw [wp_bind]
  exact wp_trying hw hc (fun _ _ h => raised_of_other h) hok

theorem trying_of_internal {S : Stage} {m : MessageId} {d : DocId} {c : Call}
    (h : Internal S m d c) : Trying c :=
  trying_of_not_settles (not_settles_of_internal h)

/-- Marking the document `failed`, and the event. -/
theorem wp_markFailed {u : DocumentUpdate} {e : ProcessingEvent} {reason : String}
    (hu : u.status = .failed) (hreason : u.failureReason.isSome) (hat : u.failedAt.isSome)
    (hdoc : e.documentId = env.documentId) (hto : e.toState = .failed) (hw : Handles w i S env) :
    wp finalityDiscipline.rules i
      (do
        call (.updateDocument env.documentId u)
        call (.recordEvent e)
        throw (.permanent reason))
      Q (Raised i S env) w := by
  refine wp_trying_call hw id fun w v w₁ hb h h₁ hd => ?_
  have hfailed : w₁.db.Failed env.documentId := by
    obtain ⟨row, hrow⟩ := h.row hb
    obtain rfl := hd
    refine ⟨u.apply row, ?_, hu, ?_, ?_⟩
    · exact (Db.updateDocument_documents _ _ _).trans (by rw [if_pos rfl, hrow]; rfl)
    · simp [DocumentUpdate.apply, hreason]
    · simp [DocumentUpdate.apply, hat]
  clear hd
  rw [wp_bind]
  refine Discipline.wp_perform (D := finalityDiscipline)
    (fun w => Handles w i S env ∧ w.db.Failed env.documentId) ⟨h₁, hfailed⟩
    (fun w w' h hm _ _ _ => ⟨h.1.mono hm.grows, hm.failed _ h.2⟩) ?_ ?_
  · exact fun w _ h _ _ _ _ => ⟨guar_of_trying (trying_of_not_settles id), raised_of_other h.1⟩
  · intro w _ w' a h _ _ _ hm _ _ hd
    refine ⟨trivial, guar_of_trying (trying_of_not_settles id), h.1.mono hm.grows, fun _ _ => ?_⟩
    refine ⟨hm.failed _ h.2, e, ?_, hdoc, hto⟩
    obtain rfl := hd
    exact List.mem_append_right w.db.events List.mem_cons_self

end Handlers

/-! ### The Python workers -/

namespace Python
variable {i : Nat} {S : Stage} {m m' : Message} {w : World} {cfg : Config} {α : Type}

theorem onError_gives {env : Envelope} {Q : α → World → Prop} (e : Exc) (hw : Handles w i S env) :
    wp finalityDiscipline.rules i (onError S env e) Q (Raised i S env) w := by
  unfold onError recordEvent
  cases e with
  | permanent reason => exact wp_markFailed rfl rfl rfl rfl rfl hw
  | transient reason | other reason =>
    exact wp_trying_call hw id fun _ _ _ _ _ h₁ _ => ⟨h₁, fun _ he => nomatch he⟩

/-- A handler that raises `PermanentError` has recorded the failure: the document of a message
is there, so only the `except` clause raises it. -/
theorem handle_gives {env : Envelope} {skipped : α} {work : Document → Program α}
    (hwork : ∀ document, (work document).Calls (Internal S env.messageId env.documentId))
    (hw : Handles w i S env) :
    wp finalityDiscipline.rules i (handle S skipped work env) (fun _ w => Handles w i S env)
      (Raised i S env) w := by
  refine handle_wp keeps_tried (trying_of_not_settles id) (trying_of_not_settles id)
    (fun _ _ h => raised_of_other h) (fun _ _ h _ => h) (fun _ w hb h hnone => ?_)
    (fun _ _ _ h _ _ => h) (fun w document _ h _ _ => ?_) hw
  · obtain ⟨row, hrow⟩ := h.row hb
    rw [hnone] at hrow
    cases hrow
  · exact wp_try (keeps_tried.calls ((hwork document).mono fun _ => trying_of_internal) h)
      fun e _ h₁ => onError_gives e h₁

/-- The message is published to `ingest.dlx`. -/
theorem wp_deadLetter {k : (Call.publish .dlx ⟨S, .dlq⟩ m').Reply → Program α}
    {Q : α → World → Prop} {E : Exc → World → Prop} {env : Envelope}
    (hm : m'.body.messageId = env.messageId) (hw : Handles w i S env)
    (hfail : ∀ reason w, S ≠ .chunk → Handles w i S env →
      wp finalityDiscipline.rules i (k (.error reason)) Q E w)
    (hok : ∀ w, Handles w i S env ∧ w.broker.DeadLettered S env.messageId →
      wp finalityDiscipline.rules i (k (.ok ())) Q E w) :
    wp finalityDiscipline.rules i (Prog.perform (.publish .dlx ⟨S, .dlq⟩ m') >>= k) Q E w := by
  refine Discipline.wp_perform (D := finalityDiscipline) (fun w => Handles w i S env) hw
    (fun w w' h hm _ _ _ => h.mono hm.grows) ?_ ?_
  · exact fun w reason h _ _ _ hadmits => ⟨guar_of_trying ⟨by simp, by simp⟩,
      hfail reason w (hadmits reason rfl _ _ rfl) h⟩
  · intro w _ w' a h _ _ _ hmoves _ _ hd
    refine ⟨trivial, guar_of_trying ⟨by simp, by simp⟩, hok w' ⟨h.mono hmoves.grows, ?_⟩⟩
    obtain rfl := hd
    show (w.broker.publish i .dlx ⟨S, .dlq⟩ m').DeadLettered S env.messageId
    rw [Broker.publish_dlx]
    exact ⟨_, Broker.mem_push.mpr (Or.inr ⟨rfl, rfl⟩), hm⟩

/-- An ack, once what it says of the message is on record. -/
theorem wp_ack {o : Outcome} {K : World → Prop} {k : (Call.ack o).Reply → Program α}
    {Q : α → World → Prop} {E : Exc → World → Prop}
    (hkeep : ∀ w w', K w → Remains w w' → K w')
    (hguar : ∀ w r w', K w → finalityDiscipline.guar i (.ack o) w r w') (hw : K w)
    (hk : ∀ r w, wp finalityDiscipline.rules i (k r) Q E w) :
    wp finalityDiscipline.rules i (Prog.perform (.ack o) >>= k) Q E w :=
  Discipline.wp_perform (D := finalityDiscipline) K hw (fun w w' h hm _ _ _ => hkeep w w' h hm)
    (fun w _ h _ _ _ _ => ⟨hguar w _ w h, hk _ w⟩)
    (fun w _ w' _ h _ _ _ _ _ _ _ => ⟨trivial, hguar w _ w' h, hk _ w'⟩)

/-- The ack of a message that is in the dead-letter queue. -/
theorem wp_ackDeadLettered {env : Envelope} {k : (Call.ack .deadLettered).Reply → Program α}
    {Q : α → World → Prop} {E : Exc → World → Prop}
    (hw : Handles w i S env ∧ w.broker.DeadLettered S env.messageId)
    (hk : ∀ r w, wp finalityDiscipline.rules i (k r) Q E w) :
    wp finalityDiscipline.rules i (Prog.perform (.ack .deadLettered) >>= k) Q E w :=
  wp_ack (K := fun w => Handles w i S env ∧ w.broker.DeadLettered S env.messageId)
    (fun _ _ h hm => ⟨h.1.mono hm.grows, hm.deadLettered _ _ h.2⟩)
    (fun _ _ _ h => ⟨(fun he => nomatch he), fun _ => ⟨S, env, h⟩⟩) hw hk

/-- The ack of a message whose failure is recorded. -/
theorem wp_ackPermanent {env : Envelope} {k : (Call.ack .permanent).Reply → Program α}
    {Q : α → World → Prop} {E : Exc → World → Prop}
    (hw : Handles w i S env ∧ w.db.Marked env.documentId)
    (hk : ∀ r w, wp finalityDiscipline.rules i (k r) Q E w) :
    wp finalityDiscipline.rules i (Prog.perform (.ack .permanent) >>= k) Q E w :=
  wp_ack (K := fun w => Handles w i S env ∧ w.db.Marked env.documentId)
    (fun _ _ h hm => ⟨h.1.mono hm.grows, hm.marked h.2⟩)
    (fun _ _ _ h => ⟨fun _ => ⟨S, env, h⟩, fun he => nomatch he⟩) hw hk

/-- One more attempt, or the dead-letter queue. -/
theorem retry_gives (hw : Handles w i S m.body) :
    wp finalityDiscipline.rules i (retry cfg.maxRetries envelopeCodec (channel S m) m.body)
      (fun _ _ => True) (fun _ _ => True) w := by
  unfold retry
  simp only [envelopeCodec, channel]
  split
  · trivial
  · rw [wp_bind]
    refine wp_deadLetter rfl hw (fun _ _ _ _ => trivial) fun w₁ h₁ => ?_
    exact wp_ackDeadLettered h₁ fun r _ => by cases r <;> trivial
  · refine wp_mono (keeps_tried.calls ?_ hw) (fun _ _ _ => trivial) fun _ _ _ => trivial
    exact .bind (calls_call ⟨by simp, by simp⟩) fun _ => calls_call ⟨by simp, by simp⟩

theorem onMessage_gives {N : Type} {handler : Envelope → Program (Option N)}
    {publishNext : Envelope → N → Program Unit}
    (hhandler : wp finalityDiscipline.rules i (handler m.body) (fun _ w => Handles w i S m.body)
      (Raised i S m.body) w)
    (hnext : ∀ n w, Handles w i S m.body → wp finalityDiscipline.rules i (publishNext m.body n)
      (fun _ w => Handles w i S m.body) (Raised i S m.body) w) :
    wp finalityDiscipline.rules i (onMessage cfg.maxRetries envelopeCodec (channel S m) handler
      publishNext m.body) (fun _ _ => True) (fun _ _ => True) w := by
  have hack : ∀ w, Handles w i S m.body → wp finalityDiscipline.rules i ((channel S m).ack .success)
      (fun _ _ => True) (Raised i S m.body) w := by
    intro w h
    refine keeps_tried.perform_then ⟨by simp, by simp⟩ h fun r w₁ h₁ => ?_
    cases r with
    | error reason => exact raised_of_other h₁
    | ok => trivial
  show wp _ i (tryCatch _ _) _ _ w
  refine wp_try (F := Raised i S m.body) ?_ ?_
  · rw [wp_bind]
    refine wp_mono hhandler (fun r w₁ h₁ => ?_) fun _ _ h => h
    cases r with
    | none => exact hack w₁ h₁
    | some next =>
      rw [wp_bind]
      exact wp_mono (hnext next w₁ h₁) (fun _ w₂ h₂ => hack w₂ h₂) fun _ _ h => h
  · rintro e w₁ ⟨h₁, hmarked⟩
    cases e with
    | permanent reason =>
      exact wp_ackPermanent ⟨h₁, hmarked reason rfl⟩ fun r _ => by cases r <;> trivial
    | transient => exact retry_gives h₁
    | other =>
      refine wp_mono (keeps_tried.calls ?_ h₁) (fun _ _ _ => trivial) fun _ _ _ => trivial
      exact .tryCatch (calls_call ⟨by simp, by simp⟩) fun _ => trivial

end Python

theorem Ocr.handle_gives {i : Nat} {env : Envelope} {w : World} (hw : Handles w i .ocr env) :
    wp finalityDiscipline.rules i (handle env) (fun _ w => Handles w i .ocr env)
      (Raised i .ocr env) w :=
  Python.handle_gives (fun _ => recognise_internal _ _ _) hw

theorem Embedder.handle_gives {i : Nat} {env : Envelope} {w : World} (hw : Handles w i .embed env) :
    wp finalityDiscipline.rules i (handle env) (fun _ w => Handles w i .embed env)
      (Raised i .embed env) w :=
  Python.handle_gives (fun _ => embed_internal _ _) hw

/-! ### The chunker -/

namespace Chunker
variable {i : Nat} {env : Envelope} {w : World} {cfg : Config}

theorem keeps_hopeful :
    finalityDiscipline.Keeps i (fun w => Handles w i .chunk env) Hopeful :=
  keeps_tried.mono fun _ hc => trying_of_not_settles hc.1

theorem handle_gives {m : Message} (hb : Base w) (hw : Handles w i .chunk m.body) :
    wp finalityDiscipline.rules i (handle cfg m) (fun _ _ => True) (fun _ _ => True) w := by
  unfold handle
  dsimp only
  have halike := alike_defaultAttempt m.body
  have hne : m.body.documentId ≠ 0 := hw.numbered hb
  rw [← halike.documentId] at hne
  have hid := halike.messageId
  generalize (if m.body.attempt = 0 then { m.body with attempt := 1 } else m.body) = env
    at halike hne hid ⊢
  rw [wp_bind]
  refine wp_mono (process_tried keeps_hopeful (fun _ h => h) hne (hw.alike halike)) ?_
    fun _ _ h => h.elim
  rintro r w₁ ⟨h₁, hr⟩
  split
  · exact keeps_tried.perform_then ⟨by simp, by simp⟩ h₁ fun _ _ _ => trivial
  · exact absurd rfl (hr _)
  · split
    · refine Python.wp_deadLetter hid.symm h₁ (fun _ _ h => absurd rfl h) fun w₂ h₂ => ?_
      exact Python.wp_ackDeadLettered h₂ fun _ _ => trivial
    · refine keeps_tried.perform_then ⟨by simp, by simp⟩ h₁ fun _ w₂ h₂ => ?_
      exact keeps_tried.perform_then ⟨by simp, by simp⟩ h₂ fun _ _ _ => trivial

end Chunker

/-! ## Every run -/

theorem finality_sound (cfg : Config) : finalityDiscipline.Sound cfg .init where
  reached := .start
  start := Discipline.safe_init trivial
  known s h := reachable_base h
  moves s l s' h hok hstep := remains_of_step h hok.1 hstep
  admits s i a c k _ _ hok hp := by
    rintro reason rfl key m rfl
    exact hok.2 key m (Pool.pending_of_progs hp)
  others _ _ _ _ _ _ _ _ _ _ _ _ _ _ _ _ _ _ := trivial
  env _ _ _ _ _ _ _ _ _ := ⟨trivial, fun _ _ _ _ _ => trivial⟩
  upload s i upload title tenantId _ _ _ _ _ :=
    Api.upload_keeps (K := fun _ => True) ((keeps_trying fun _ _ _ _ => trivial).mono
      fun _ hc => trying_of_not_settles (Api.not_settles_of_upload hc)) _ _ _ trivial
  retryRequest s i documentId _ _ _ _ _ :=
    Api.retryAction_keeps (K := fun _ => True) ((keeps_trying fun _ _ _ _ => trivial).mono
      fun _ hc => trying_of_not_settles (Api.not_settles_of_retry hc)) _ trivial
  consumer s i S n copy w _ _ _ _ hi _ hw hb _ := by
    obtain ⟨hwork, -, -⟩ := hb.delivered hi hw
    cases S with
    | ocr =>
      refine Python.onMessage_gives (Ocr.handle_gives hwork.handles) fun n w h => ?_
      refine keeps_tried.perform_then ⟨by simp, by simp⟩ h fun r w₁ h₁ => ?_
      cases r with
      | error reason => exact raised_of_other h₁
      | ok => exact h₁
    | chunk => exact Chunker.handle_gives hb hwork.handles
    | embed =>
      show wp finalityDiscipline.rules i (Embedder.onMessage cfg copy.message) _ _ w
      unfold Embedder.onMessage
      refine Python.onMessage_gives (S := .embed) ?_ fun n => nomatch n
      rw [wp_bind]
      exact wp_mono (Embedder.handle_gives hwork.handles) (fun _ _ h => h) fun _ _ h => h

section Runs
variable {cfg : Config} {s s' : Sys} {i : Nat} {copy : Copy} {o : Outcome}

/-- What the worker has done when it gives a message up. -/
theorem half_of_givesUp (h : Reachable cfg conclusive s) (hg : GivesUp s i copy o) :
    (o = .permanent → s.world.db.Marked copy.message.body.documentId) ∧
      (o = .deadLettered → s.world.broker.DeadLettered copy.message.body.stage
        copy.message.body.messageId) := by
  obtain ⟨k, hp⟩ := Pool.pending_eq_some.mp hg.pending
  have hb := reachable_base h
  have hguar := (((finality_sound cfg).safe h).exec hp
    ⟨hb, hb, .refl _, .fail "", (fun _ _ _ _ he => nomatch he), rfl⟩).2.1
  obtain ⟨q, hdel⟩ := hg.unsettled
  have hcopy : s.world.broker.handled i = some copy := by simp [Broker.handled, hdel]
  -- the execution handles the copy that it holds
  have hself : ∀ {S env}, Handles s.world i S env → S = copy.message.body.stage ∧
      env.documentId = copy.message.body.documentId ∧ env.messageId = copy.message.body.messageId := by
    rintro S env ⟨c, hc, hstems, halike⟩
    obtain rfl := Option.some.inj (hc.symm.trans hcopy)
    obtain ⟨p, -, -, hS, hpa⟩ := hstems.source
    exact ⟨hS.symm.trans hpa.stage.symm, halike.documentId, halike.messageId⟩
  refine ⟨?_, ?_⟩
  · rintro rfl
    obtain ⟨S, env, hhandles, hmarked⟩ := hguar.1 rfl
    rwa [(hself hhandles).2.1] at hmarked
  · rintro rfl
    obtain ⟨S, env, hhandles, hdead⟩ := hguar.2 rfl
    obtain ⟨rfl, -, hid⟩ := hself hhandles
    rwa [hid] at hdead

/-- **A failure is final if and only if the other half has been done**: in a conclusive
run, a message that is given up is dead-lettered with its document marked just if what
the worker leaves out has been done before. -/
theorem failureFinal_iff (h : Reachable cfg conclusive s) (hg : GivesUp s i copy o)
    (hstep : step cfg s (.run i .ok) = some s') :
    FailureFinal s'.world copy ↔ OtherHalf s.world copy o := by
  obtain ⟨hpermanent, hdead⟩ := half_of_givesUp h hg
  obtain ⟨c, k, r, w, hp, hx, rfl⟩ := step_run hstep
  obtain ⟨k', hp'⟩ := Pool.pending_eq_some.mp hg.pending
  obtain ⟨rfl, -⟩ := Prog.call.inj (Option.some.inj (hp.symm.trans hp'))
  rcases exec_cases hx with ⟨_, he, -⟩ | ⟨v, -, -, copy', -, rfl⟩
  · cases he
  -- the ack changes neither the tables nor the queues
  have hsame : FailureFinal ((s.move { s.world with
      broker := s.world.broker.ack i copy' o }).spawn i (k r)).world copy ↔
        FailureFinal s.world copy := ⟨fun h => ⟨h.1, h.2⟩, fun h => ⟨h.1, h.2⟩⟩
  rw [hsame]
  rcases hg.outcome with rfl | rfl
  · exact ⟨fun h => h.deadLettered, fun h => ⟨hpermanent rfl, h⟩⟩
  · exact ⟨fun h => h.marked, fun h => ⟨h, hdead rfl⟩⟩

end Runs

/-! ### Sample runs -/

/-- Execution `i` is checked to give up the OCR message of document 1. -/
def givesUp (s : Sys) (i : Nat) (o : Outcome) : Bool :=
  ((s.pending i).any fun
    | .ack o' => o' = o
    | _ => false) &&
    (s.world.broker.deliveries i).any fun d => d.unsettled && d.copy.message.body.stage = .ocr &&
      d.copy.message.body.documentId = 1 && d.copy.message.body.messageId = ['m']

theorem exists_givesUp {s : Sys} {i : Nat} {o : Outcome} (ho : o = .permanent ∨ o = .deadLettered)
    (h : givesUp s i o = true) : ∃ copy, GivesUp s i copy o ∧ copy.message.body.stage = .ocr ∧
      copy.message.body.documentId = 1 ∧ copy.message.body.messageId = ['m'] := by
  obtain ⟨hpending, hdelivery⟩ := Bool.and_eq_true_iff.mp h
  obtain ⟨c, hc, hack⟩ := (Option.any_eq_true _ _).mp hpending
  obtain ⟨d, hd, hcopy⟩ := (Option.any_eq_true _ _).mp hdelivery
  obtain ⟨copy, q, unsettled⟩ := d
  simp only [Bool.and_eq_true, decide_eq_true_eq] at hcopy
  obtain ⟨⟨⟨rfl, hstage⟩, hdoc⟩, hid⟩ := hcopy
  cases c with
  | ack o' =>
    obtain rfl := of_decide_eq_true hack
    exact ⟨copy, ⟨hc, ho, q, hd⟩, hstage, hdoc, hid⟩
  | _ => cases hack

/-- Whether a step leaves finished documents alone, and no publish of the chunker to
`ingest.dlx` fails. -/
def concludes (s : Sys) : Label → Bool
  | .run i .ok => (s.pending i).all fun
    | .updateDocument d _ => !decide (s.world.db.Finished d)
    | _ => true
  | .run i (.fail _) => (s.pending i).all fun
    | .publish .dlx key _ => key.stage ≠ .chunk
    | _ => true
  | _ => true

theorem conclusive_of_concludes (s : Sys) (l : Label) (h : concludes s l = true) :
    conclusive s l := by
  cases l with
  | run i a =>
    cases a with
    | ok =>
      refine ⟨fun d u hp hfinished => ?_, trivial⟩
      simp [concludes, hp, hfinished] at h
    | fail =>
      refine ⟨trivial, fun key m hp => ?_⟩
      simpa [concludes, hp] using h
    | _ => exact ⟨trivial, trivial⟩
  | _ => exact ⟨trivial, trivial⟩

/-- One attempt for each message. -/
def impatientConfig : Config := { sampleConfig with maxRetries := 1 }

/-- The OCR message is delivered to executions 1 and 2, because the broker takes it back
from 1.  Execution 1 dead-letters it and 2 fails for good. -/
def bothHalvesRun : List Label :=
  uploadRun ++ .deliver 1 .ocr 0 :: answers 1 [.ok, .ok, .ok, .ok, .fail "s3", .ok] ++
    .redeliver 1 :: .deliver 2 .ocr 0 :: answers 1 [.ok] ++
    answers 2 [.ok, .ok, .ok, .ok, .ok, .text [] 1, .ok, .ok]

/-- Between them the two executions of `bothHalvesRun` do all that is promised. -/
theorem failureFinal_of_both : ∃ (s : Sys) (copy : Copy), GivesUp s 2 copy .permanent ∧
    ∃ s', step impatientConfig s (.run 2 .ok) = some s' ∧ FailureFinal s'.world copy := by
  obtain ⟨s, hs, hgives, hdlq, hstep⟩ := exists_run
    (Reaches.guarded (step impatientConfig) concludes) .init bothHalvesRun
    (fun s => givesUp s 2 .permanent = true ∧
      ((s.world.broker.queues ⟨.ocr, .dlq⟩).any fun c => c.message.body.messageId = ['m']) = true ∧
      (step impatientConfig s (.run 2 .ok)).isSome = true) (by decide)
  obtain ⟨copy, hg, hstage, -, hid⟩ := exists_givesUp (Or.inl rfl) hgives
  obtain ⟨s', hs'⟩ := Option.isSome_iff_exists.mp hstep
  obtain ⟨c, hc, hcid⟩ := List.any_eq_true.mp hdlq
  refine ⟨s, copy, hg, s', hs', ?_⟩
  refine (failureFinal_iff (.of_guarded conclusive_of_concludes hs) hg hs').mpr ?_
  show s.world.broker.DeadLettered _ _
  rw [hstage, hid]
  exact ⟨c, hc, of_decide_eq_true hcid⟩

/-- The engine reads no text. -/
def blankRun : List Label :=
  uploadRun ++ .deliver 1 .ocr 0 :: answers 1 [.ok, .ok, .ok, .ok, .ok, .text [] 1, .ok, .ok]

/-- The object store cannot be reached. -/
def exhaustedRun : List Label :=
  uploadRun ++ .deliver 1 .ocr 0 :: answers 1 [.ok, .ok, .ok, .ok, .fail "s3", .ok, .ok]

/-- **Neither way of giving a message up does what is promised**: one does not dead-letter
the message, the other does not mark the document. -/
theorem not_failureFinality : ¬ FailureFinality .permanent ∧ ¬ FailureFinality .deadLettered := by
  refine ⟨fun hall => ?_, fun hall => ?_⟩
  · obtain ⟨s, hs, hgives, hrow, hdlq⟩ := exists_run
      (Reaches.guarded (step sampleConfig) failuresRecorded) .init blankRun
      (fun s => givesUp s 1 .permanent = true ∧
        ((s.world.db.documents 1).any fun row => row.status ≠ .embedded) = true ∧
        ((step sampleConfig s (.run 1 .ok)).any fun s' =>
          (s'.world.broker.queues ⟨.ocr, .dlq⟩).isEmpty) = true) (by decide)
    obtain ⟨copy, hg, hstage, hdoc, -⟩ := exists_givesUp (Or.inl rfl) hgives
    obtain ⟨row, hrow, hstatus⟩ := (Option.any_eq_true _ _).mp hrow
    obtain ⟨s', hs', hempty⟩ := (Option.any_eq_true _ _).mp hdlq
    obtain ⟨-, c, hc, -⟩ := hall _ s s' 1 copy row (.of_guarded (fun _ _ h => h) hs) hg
      (hdoc ▸ hrow) (of_decide_eq_true hstatus) hs'
    rw [hstage, List.isEmpty_iff.mp hempty] at hc
    cases hc
  · obtain ⟨s, hs, hgives, hrow, hevents⟩ := exists_run
      (Reaches.guarded (step impatientConfig) failuresRecorded) .init exhaustedRun
      (fun s => givesUp s 1 .deadLettered = true ∧
        ((s.world.db.documents 1).any fun row => row.status ≠ .embedded) = true ∧
        ((step impatientConfig s (.run 1 .ok)).any fun s' =>
          s'.world.db.events.all fun e => e.toState ≠ .failed) = true) (by decide)
    obtain ⟨copy, hg, -, hdoc, -⟩ := exists_givesUp (Or.inr rfl) hgives
    obtain ⟨row, hrow, hstatus⟩ := (Option.any_eq_true _ _).mp hrow
    obtain ⟨s', hs', hnone⟩ := (Option.any_eq_true _ _).mp hevents
    obtain ⟨⟨-, e, he, -, hto⟩, -⟩ := hall _ s s' 1 copy row (.of_guarded (fun _ _ h => h) hs) hg
      (hdoc ▸ hrow) (of_decide_eq_true hstatus) hs'
    exact absurd hto (of_decide_eq_true (List.all_eq_true.mp hnone e he))

end DigitalCip
