import DigitalCip.Resumable.Calls
import DigitalCip.System

/-!
# What a consumer touches

The calls that the consumer of a message can make at all, whatever the replies:
its handler stays with the message's own document and dedupe row (`Internal`),
and the rest settles the delivery (`Settling`) or publishes the next message.
-/

namespace DigitalCip
open Resumable

/-- The status of a document whose stage is completed. -/
def Stage.completed : Stage → Status
  | .ocr => .ocrCompleted
  | .chunk => .chunked
  | .embed => .embedded

/-- The states the worker of a stage writes. -/
inductive Stage.Writes (S : Stage) : Status → Prop where
  | processing : S.Writes S.processing
  | completed : S.Writes S.completed
  | failed : S.Writes .failed

/-- A call of the stage-`S` handler for message `m` and document `d` that stays off
the broker. -/
def Internal (S : Stage) (m : MessageId) (d : DocId) : Call → Prop
  | .alreadyProcessed m' => m' = m
  | .fetchDocument d' => d' = d
  | .updateDocument d' u => d' = d ∧ S.Writes u.status
  | .recordEvent e => e.documentId = d
  | .recordProcessed row => row.messageId = m ∧ row.documentId = d ∧ row.stage = S
  | .insertChunks d' _ => d' = d ∧ S = .chunk
  | .fetchChunksWithoutEmbedding d' => d' = d ∧ S = .embed
  | .writeEmbeddings _ | .embedBatch _ => S = .embed
  | .downloadObject _ | .extractText _ _ => S = .ocr
  | _ => False

/-- Whether a call records a failure. -/
def Call.recordsFailure : Call → Bool
  | .updateDocument _ u => u.status = .failed
  | .recordEvent e => e.toState = .failed
  | _ => false

/-- A call of the `try` block of a Python handler, which records no failure. -/
def Works (S : Stage) (m : MessageId) (d : DocId) (c : Call) : Prop :=
  Internal S m d c ∧ c.recordsFailure = false

/-- A call that settles a delivery of `m` from the queue of `S` whose handler has
not returned success. -/
def Settling (S : Stage) (m : Message) : Call → Prop
  | .publish .retry key m' => key = ⟨S, .retry⟩ ∧ ∃ attempt, m'.body = { m.body with attempt := attempt }
  | .publish .dlx key m' => key = ⟨S, .dlq⟩ ∧ m'.body = m.body
  | .ack outcome => outcome ≠ .success
  | .nack => True
  | _ => False

/-- A call by which a consumer settles its delivery. -/
def Settles : Call → Prop
  | .ack _ | .nack => True
  | .publish exchange _ _ => exchange ≠ .ingest
  | _ => False

/-- A call that hands document `d` on to stage `S`. -/
def Handing (S : Stage) (d : DocId) : Call → Prop
  | .freshId => True
  | .publish .ingest key m => key = ⟨S, .work⟩ ∧ m.body.stage = S ∧ m.body.documentId = d
  | _ => False

theorem calls_call {P : Call → Prop} {c : Call} (h : P c) : (call c).Calls P :=
  .bind (.perform h) fun r => by cases r <;> trivial

theorem settles_of_settling {S : Stage} {m : Message} {c : Call} (h : Settling S m c) :
    Settles c := by
  cases c with
  | publish exchange key m' =>
    cases exchange with
    | ingest => exact h.elim
    | retry | dlx => simp [Settles]
  | ack | nack => trivial
  | _ => exact h.elim

theorem not_settles_of_internal {S : Stage} {m : MessageId} {d : DocId} {c : Call}
    (h : Internal S m d c) : ¬ Settles c := by
  cases c with
  | publish | ack | nack => exact h.elim
  | _ => exact id

theorem not_settles_of_handing {S : Stage} {d : DocId} {c : Call} (h : Handing S d c) :
    ¬ Settles c := by
  cases c with
  | publish exchange key m =>
    cases exchange with
    | ingest => exact fun hs => hs rfl
    | retry | dlx => exact h.elim
  | freshId => exact id
  | _ => exact h.elim

/-! ## The handlers -/

namespace Python
variable {α : Type} {S : Stage} {env : Envelope}

/-- What the two `except` clauses call. -/
theorem onError_calls {P : Call → Prop} (hupdate : ∀ reason, P (.updateDocument env.documentId
      { status := .failed, failureReason := some reason, failedAt := some .now }))
    (hevent : ∀ e : ProcessingEvent, e.documentId = env.documentId → P (.recordEvent e)) (e : Exc) :
    (onError S env e : Program α).Calls P := by
  unfold onError recordEvent
  cases e with
  | permanent reason =>
    exact .bind (calls_call (hupdate reason)) fun _ => .bind (calls_call (hevent _ rfl)) fun _ => trivial
  | transient reason | other reason => exact .bind (calls_call (hevent _ rfl)) fun _ => trivial

/-- What a Python handler calls around its `try` block. -/
theorem handle_calls {P : Call → Prop} {skipped : α} {work : Document → Program α}
    (hseen : P (.alreadyProcessed env.messageId)) (hfetch : P (.fetchDocument env.documentId))
    (hupdate : ∀ reason, P (.updateDocument env.documentId
      { status := .failed, failureReason := some reason, failedAt := some .now }))
    (hevent : ∀ e : ProcessingEvent, e.documentId = env.documentId → P (.recordEvent e))
    (hwork : ∀ document, (work document).Calls P) : (handle S skipped work env).Calls P := by
  unfold handle alreadyProcessed fetchDocument
  refine .bind (calls_call hseen) fun seen => ?_
  split
  · trivial
  refine .bind (calls_call hfetch) fun found => ?_
  split
  · trivial
  split
  · trivial
  exact .tryCatch (hwork _) (onError_calls hupdate hevent)

theorem handle_internal {skipped : α} {work : Document → Program α}
    (hwork : ∀ document, (work document).Calls (Internal S env.messageId env.documentId)) :
    (handle S skipped work env).Calls (Internal S env.messageId env.documentId) :=
  handle_calls rfl rfl (fun _ => ⟨rfl, .failed⟩) (fun _ he => he) hwork

end Python

namespace Ocr

theorem recognise_works (env : Envelope) (document : Document) (objectKey : ObjectKey) :
    (recognise env document objectKey).Calls (Works .ocr env.messageId env.documentId) := by
  unfold recognise updateDocumentStatus Python.recordEvent Python.recordProcessed
  refine .bind (calls_call ⟨⟨rfl, .processing⟩, rfl⟩) fun _ => .bind (calls_call ⟨rfl, rfl⟩) fun _ =>
    .bind (calls_call ⟨rfl, rfl⟩) fun blob => ?_
  split
  · trivial
  refine .bind (calls_call ⟨rfl, rfl⟩) fun ⟨text, pages⟩ => ?_
  dsimp only
  split
  · trivial
  exact .bind (calls_call ⟨⟨rfl, .completed⟩, rfl⟩) fun _ => .bind (calls_call ⟨rfl, rfl⟩) fun _ =>
    .bind (calls_call ⟨⟨rfl, rfl, rfl⟩, rfl⟩) fun _ => trivial

theorem recognise_internal (env : Envelope) (document : Document) (objectKey : ObjectKey) :
    (recognise env document objectKey).Calls (Internal .ocr env.messageId env.documentId) :=
  (recognise_works env document objectKey).mono fun _ => And.left

theorem handle_internal (env : Envelope) :
    (handle env).Calls (Internal .ocr env.messageId env.documentId) :=
  Python.handle_internal fun _ => recognise_internal _ _ _

theorem publishNext_handing (env : Envelope) (payload : Payload) :
    (publishNext env payload).Calls (Handing .chunk env.documentId) :=
  calls_call ⟨rfl, rfl, rfl⟩

end Ocr

namespace Embedder

theorem embed_works (env : Envelope) (document : Document) :
    (embed env document).Calls (Works .embed env.messageId env.documentId) := by
  unfold embed updateDocument Python.recordEvent Python.recordProcessed
  refine .bind (calls_call ⟨⟨rfl, .processing⟩, rfl⟩) fun _ => .bind (calls_call ⟨rfl, rfl⟩) fun _ =>
    .bind (calls_call ⟨⟨rfl, rfl⟩, rfl⟩) fun chunks => ?_
  split
  · exact .bind (calls_call ⟨⟨rfl, .completed⟩, rfl⟩) fun _ => .bind (calls_call ⟨rfl, rfl⟩) fun _ =>
      calls_call ⟨⟨rfl, rfl, rfl⟩, rfl⟩
  refine .bind (calls_call ⟨rfl, rfl⟩) fun vectors => .bind ?_ fun _ =>
    .bind (calls_call ⟨⟨rfl, .completed⟩, rfl⟩) fun _ => .bind (calls_call ⟨rfl, rfl⟩) fun _ =>
      calls_call ⟨⟨rfl, rfl, rfl⟩, rfl⟩
  unfold writeEmbeddings
  split
  · trivial
  · exact calls_call ⟨rfl, rfl⟩

theorem embed_internal (env : Envelope) (document : Document) :
    (embed env document).Calls (Internal .embed env.messageId env.documentId) :=
  (embed_works env document).mono fun _ => And.left

theorem handle_internal (env : Envelope) :
    (handle env).Calls (Internal .embed env.messageId env.documentId) :=
  Python.handle_internal fun _ => embed_internal _ _

end Embedder

namespace Chunker

theorem publishNext_handing (env : Envelope) (n : Nat) :
    (publishNext env n).Calls (Handing .embed env.documentId) := by
  unfold publishNext
  refine .bind (.perform trivial) fun r => ?_
  cases r with
  | error e => trivial
  | ok id => exact .bind (.perform ⟨rfl, rfl, rfl⟩) fun _ => trivial

/-- What `process` calls: the statements of the handler, and the hand-off. -/
def ProcessCall (m : MessageId) (d : DocId) (c : Call) : Prop :=
  Internal .chunk m d c ∨ Handing .embed d c

section Process
variable {P : Call → Prop} {cfg : Config} {env : Envelope}
  (hinternal : ∀ c, Internal .chunk env.messageId env.documentId c → P c)
  (hnext : ∀ n, (publishNext env n).Calls P)
include hinternal hnext

theorem chunkDocument_calls (rawText : Text) : (chunkDocument cfg env rawText).Calls P := by
  unfold chunkDocument
  dsimp only
  split
  · exact .bind (.perform (hinternal _ ⟨rfl, .failed⟩)) fun _ =>
      .bind (.perform (hinternal _ rfl)) fun _ => trivial
  refine .bind (.perform (hinternal _ ⟨rfl, rfl⟩)) fun r => ?_
  cases r with
  | error e => trivial
  | ok =>
    refine .bind (.perform (hinternal _ ⟨rfl, .completed⟩)) fun r => ?_
    cases r with
    | error e => trivial
    | ok =>
      exact .bind (.perform (hinternal _ rfl)) fun _ =>
        .bind (.perform (hinternal _ ⟨rfl, rfl, rfl⟩)) fun _ => hnext _

/-- `process` makes the calls of a handler and those of `publishNext`. -/
theorem process_calls_of : (process cfg env).Calls P := by
  unfold process
  split
  · trivial
  refine .bind (.perform (hinternal _ rfl)) fun r => ?_
  match r with
  | .error e => trivial
  | .ok true => trivial
  | .ok false =>
    refine .bind (.perform (hinternal _ rfl)) fun r => ?_
    match r with
    | .error e => trivial
    | .ok none => trivial
    | .ok (some doc) =>
      dsimp only
      split
      · trivial
      split
      · trivial
      refine .bind (.perform (hinternal _ ⟨rfl, .processing⟩)) fun r => ?_
      cases r with
      | error e => trivial
      | ok =>
        exact .bind (.perform (hinternal _ rfl)) fun _ => chunkDocument_calls hinternal hnext _

end Process

theorem process_calls (cfg : Config) (env : Envelope) :
    (process cfg env).Calls (ProcessCall env.messageId env.documentId) :=
  process_calls_of (fun _ => Or.inl) fun n => (publishNext_handing env n).mono fun _ => Or.inr

end Chunker

/-! ## The consumers -/

/-- What the consumer of a message calls. -/
def ConsumerCall (S : Stage) (m : Message) (c : Call) : Prop :=
  Internal S m.body.messageId m.body.documentId c ∨ (Settling S m c ∨ c = .ack .success) ∨
    ∃ T, (S = .ocr ∧ T = .chunk ∨ S = .chunk ∧ T = .embed) ∧ Handing T m.body.documentId c

namespace Python

theorem retry_settling (maxRetries : Int) (S : Stage) (m : Message) :
    (retry maxRetries envelopeCodec (channel S m) m.body).Calls (Settling S m) := by
  unfold retry
  simp only [envelopeCodec, channel]
  split
  · trivial
  · exact .bind (calls_call ⟨rfl, rfl⟩) fun _ => calls_call (by simp [Settling])
  · exact .bind (calls_call ⟨rfl, _, rfl⟩) fun _ => calls_call (by simp [Settling])

theorem unhandled_settling (S : Stage) (m : Message) :
    (unhandled (channel S m)).Calls (Settling S m) :=
  .tryCatch (calls_call trivial) fun _ => trivial

/-- `on_message` makes the calls of its handler and `publish_next`, and settles. -/
theorem onMessage_calls {P : Call → Prop} {N : Type} {maxRetries : Int} {S : Stage} {m : Message}
    {handler : Envelope → Program (Option N)} {publishNext : Envelope → N → Program Unit}
    (hsettling : ∀ c, Settling S m c → P c) (hsuccess : P (.ack .success))
    (hhandler : (handler m.body).Calls P) (hnext : ∀ n, (publishNext m.body n).Calls P) :
    (onMessage maxRetries envelopeCodec (channel S m) handler publishNext m.body).Calls P := by
  refine .tryCatch (.bind hhandler fun r => ?_) fun e => ?_
  · cases r with
    | none => exact calls_call hsuccess
    | some next => exact .bind (hnext next) fun _ => calls_call hsuccess
  · cases e with
    | permanent => exact calls_call (hsettling _ (by simp [Settling]))
    | transient => exact (retry_settling _ _ _).mono hsettling
    | other => exact (unhandled_settling _ _).mono hsettling

end Python

theorem Chunker.handle_calls {P : Call → Prop} {cfg : Config} {m : Message}
    (hsettling : ∀ c, Settling .chunk m c → P c) (hsuccess : P (.ack .success))
    (hprocess : ∀ c, ProcessCall m.body.messageId m.body.documentId c → P c) :
    (Chunker.handle cfg m).Calls P := by
  unfold handle
  dsimp only
  have hack : ∀ o, (Prog.perform (.ack o) >>= fun _ => pure () : Program Unit).Calls P := by
    intro o
    refine .bind (.perform ?_) fun _ => trivial
    by_cases ho : o = .success
    · exact ho ▸ hsuccess
    · exact hsettling _ ho
  have henv : ∃ a, (if m.body.attempt = 0 then { m.body with attempt := 1 } else m.body) =
      { m.body with attempt := a } := by
    split
    · exact ⟨1, rfl⟩
    · exact ⟨_, rfl⟩
  obtain ⟨a, henv⟩ := henv
  rw [henv]
  refine .bind ((process_calls cfg _).mono hprocess) fun r => ?_
  split
  · exact hack _
  · exact hack _
  · split
    · exact .bind (.bind (.perform (hsettling _ ⟨rfl, rfl⟩)) fun _ => trivial) fun _ => hack _
    · exact .bind (.bind (.perform (hsettling _ ⟨rfl, _, rfl⟩)) fun _ => trivial) fun _ => hack _

/-- **A consumer makes no other calls.** -/
theorem consumer_calls (cfg : Config) (S : Stage) (m : Message) :
    (consumer cfg S m).Calls (ConsumerCall S m) := by
  cases S with
  | ocr =>
    exact Python.onMessage_calls (fun _ h => Or.inr (Or.inl (Or.inl h))) (Or.inr (Or.inl (Or.inr rfl)))
      ((Ocr.handle_internal _).mono fun _ h => Or.inl h)
      fun n => (Ocr.publishNext_handing _ n).mono fun _ h =>
        Or.inr (Or.inr ⟨.chunk, Or.inl ⟨rfl, rfl⟩, h⟩)
  | chunk =>
    refine Chunker.handle_calls (fun _ h => Or.inr (Or.inl (Or.inl h))) (Or.inr (Or.inl (Or.inr rfl)))
      fun c h => ?_
    rcases h with h | h
    · exact Or.inl h
    · exact Or.inr (Or.inr ⟨.embed, Or.inr ⟨rfl, rfl⟩, h⟩)
  | embed =>
    show (Embedder.onMessage cfg m).Calls _
    unfold Embedder.onMessage
    refine Python.onMessage_calls (fun _ h => Or.inr (Or.inl (Or.inl h)))
      (Or.inr (Or.inl (Or.inr rfl))) ?_ fun n => nomatch n
    exact .bind ((Embedder.handle_internal m.body).mono fun _ h => Or.inl h) fun _ => trivial

/-- The document that a call names. -/
def Call.subject : Call → Option DocId
  | .fetchDocument d | .updateDocument d _ | .insertChunks d _ | .fetchChunksWithoutEmbedding d =>
    some d
  | .recordEvent e => some e.documentId
  | .recordProcessed row => some row.documentId
  | .publish _ _ m => some m.body.documentId
  | _ => none

section ConsumerCall
variable {S : Stage} {m : Message} {c : Call} {d : DocId}

/-- A consumer names no document but that of its message. -/
theorem ConsumerCall.subject (h : ConsumerCall S m c) (hc : c.subject = some d) :
    d = m.body.documentId := by
  rcases h with h | (h | rfl) | ⟨T, -, h⟩
  · cases c with
    | fetchDocument | recordEvent => exact (Option.some.inj hc).symm.trans h
    | updateDocument | insertChunks | fetchChunksWithoutEmbedding =>
      exact (Option.some.inj hc).symm.trans h.1
    | recordProcessed => exact (Option.some.inj hc).symm.trans h.2.1
    | publish => exact h.elim
    | _ => cases hc
  · cases c with
    | publish exchange key m' =>
      refine (Option.some.inj hc).symm.trans ?_
      cases exchange with
      | ingest => exact h.elim
      | retry =>
        obtain ⟨-, attempt, hbody⟩ := h
        rw [hbody]
      | dlx => rw [h.2]
    | ack | nack => cases hc
    | _ => exact h.elim
  · cases hc
  · cases c with
    | publish exchange key m' =>
      cases exchange with
      | ingest => exact (Option.some.inj hc).symm.trans h.2.2
      | retry | dlx => exact h.elim
    | freshId => cases hc
    | _ => exact h.elim

/-- A consumer creates no document. -/
theorem ConsumerCall.not_create (h : ConsumerCall S m c) :
    ∀ row stored, c ≠ .createDocument row stored := by
  rintro row stored rfl
  rcases h with h | (h | h) | ⟨T, -, h⟩
  · exact h
  · exact h
  · cases h
  · exact h

/-- A consumer stores no object. -/
theorem ConsumerCall.not_putObject (h : ConsumerCall S m c) : ∀ key body, c ≠ .putObject key body := by
  rintro key body rfl
  rcases h with h | (h | h) | ⟨T, -, h⟩
  · exact h
  · exact h
  · cases h
  · exact h

end ConsumerCall

/-! ### The end of an execution

Once an execution has made a call that settles its delivery, it makes no others. -/

namespace Python

theorem onMessage_closes {N : Type} {maxRetries : Int} {S : Stage} {m : Message}
    {handler : Envelope → Program (Option N)} {publishNext : Envelope → N → Program Unit}
    (hhandler : (handler m.body).Calls fun c => ¬ Settles c)
    (hnext : ∀ n, (publishNext m.body n).Calls fun c => ¬ Settles c) :
    (onMessage maxRetries envelopeCodec (channel S m) handler publishNext m.body).Closes Settles := by
  refine .tryCatch (.bind hhandler fun r => ?_) fun e => ?_
  · have hack : ((channel S m).ack .success).Closes Settles := .of_calls (calls_call trivial)
    cases r with
    | none => exact hack
    | some next => exact .bind (hnext next) fun _ => hack
  · cases e with
    | permanent => exact calls_call trivial
    | transient => exact (retry_settling _ _ _).mono fun _ => settles_of_settling
    | other => exact (unhandled_settling _ _).mono fun _ => settles_of_settling

end Python

theorem Chunker.handle_closes (cfg : Config) (m : Message) :
    (Chunker.handle cfg m).Closes Settles := by
  unfold handle
  dsimp only
  generalize (if m.body.attempt = 0 then { m.body with attempt := 1 } else m.body) = env
  have hack : ∀ o, (Prog.perform (.ack o) >>= fun _ => pure () : Program Unit).Calls Settles :=
    fun o => .bind (.perform trivial) fun _ => trivial
  refine .bind ((process_calls cfg _).mono fun c h => ?_) fun r => .of_calls ?_
  · exact h.elim not_settles_of_internal not_settles_of_handing
  split
  · exact hack _
  · exact hack _
  · split
    · exact .bind (.bind (.perform (nomatch ·)) fun _ => trivial) fun _ => hack _
    · exact .bind (.bind (.perform (nomatch ·)) fun _ => trivial) fun _ => hack _

theorem consumer_closes (cfg : Config) (S : Stage) (m : Message) :
    (consumer cfg S m).Closes Settles := by
  cases S with
  | ocr =>
    exact Python.onMessage_closes ((Ocr.handle_internal _).mono fun _ => not_settles_of_internal)
      fun n => (Ocr.publishNext_handing _ n).mono fun _ => not_settles_of_handing
  | chunk => exact Chunker.handle_closes cfg m
  | embed =>
    show (Embedder.onMessage cfg m).Closes Settles
    unfold Embedder.onMessage
    refine Python.onMessage_closes ?_ fun n => nomatch n
    exact .bind ((Embedder.handle_internal m.body).mono fun _ => not_settles_of_internal)
      fun _ => trivial

/-! ## The API -/

namespace Api

/-- What an upload calls. -/
def UploadCall : Call → Prop
  | .createDocument row _ => row.status = .uploaded ∧ row.rawText = none
  | .putObject _ _ | .freshId => True
  | .publish .ingest key m => key = ⟨.ocr, .work⟩ ∧ m.body.stage = .ocr
  | _ => False

/-- What a manual retry calls: it does not get as far as its publish. -/
def RetryCall : Call → Prop
  | .fetchDocument _ | .retryDocument _ _ _ => True
  | _ => False

/-- An upload makes four kinds of calls: two before the row is inserted, and two after. -/
theorem createDocument_calls_of {P : Call → Prop} {cfg : Config} {upload : Option Upload}
    {title : Option Text} {tenantId : Text} (hfresh : P .freshId)
    (hput : ∀ key body, P (.putObject key body))
    (hcreate : ∀ upload key, P (.createDocument (newDocument cfg upload title tenantId key)
      (storedDetails cfg upload key)))
    (hpublish : ∀ d key messageId traceId, P (.publish .ingest ⟨.ocr, .work⟩ (publishedMessage
      (buildEnvelope .ocr d tenantId { objectKey := some key } 1 messageId traceId)))) :
    (createDocument cfg upload title tenantId).Calls P := by
  unfold createDocument
  cases upload with
  | none => trivial
  | some upload =>
    dsimp only
    split
    · trivial
    refine .bind (calls_call hfresh) fun _ => .bind (calls_call (hput _ _)) fun _ =>
      .bind (calls_call (hcreate _ _)) fun r => ?_
    match r with
    | .error (.recordInvalid _) => trivial
    | .error (.argumentError _) => trivial
    | .ok d =>
      refine .bind ?_ fun _ => trivial
      exact .bind (calls_call hfresh) fun _ => .bind (calls_call hfresh) fun _ =>
        .bind (calls_call (hpublish d _ _ _)) fun _ => trivial

theorem createDocument_calls (cfg : Config) (upload : Option Upload) (title : Option Text)
    (tenantId : Text) : (createDocument cfg upload title tenantId).Calls UploadCall :=
  createDocument_calls_of trivial (fun _ _ => trivial) (fun _ _ => ⟨rfl, rfl⟩)
    fun _ _ _ _ => ⟨rfl, rfl⟩

theorem not_settles_of_upload {c : Call} (h : UploadCall c) : ¬ Settles c := by
  cases c with
  | publish exchange key m =>
    cases exchange with
    | ingest => exact fun hs => hs rfl
    | retry | dlx => exact h.elim
  | ack | nack => exact h.elim
  | _ => exact id

theorem not_settles_of_retry {c : Call} (h : RetryCall c) : ¬ Settles c := by
  cases c <;> first | exact id | exact h.elim

theorem retryAction_calls (documentId : DocId) :
    (retryAction documentId).Calls fun c => ¬ Settles c := by
  unfold retryAction
  refine .bind (calls_call id) fun found => ?_
  cases found with
  | none => trivial
  | some document =>
    dsimp only
    unfold retryDocument publish
    split
    · trivial
    refine .bind (calls_call id) fun r => ?_
    cases r with
    | error e => trivial
    | ok =>
      refine .bind (.bind (calls_call id) fun _ => .bind (calls_call id) fun _ =>
        .bind (calls_call fun h => h rfl) fun _ => trivial) fun _ => trivial

/-- A manual retry creates no document. -/
theorem retryAction_not_create (documentId : DocId) :
    (retryAction documentId).Calls fun c => ∀ row stored, c ≠ .createDocument row stored := by
  unfold retryAction retryDocument publish
  refine .bind (calls_call (by simp)) fun found => ?_
  split
  · trivial
  split
  · trivial
  refine .bind (calls_call (by simp)) fun r => ?_
  split
  · trivial
  exact .bind (.bind (calls_call (by simp)) fun _ => .bind (calls_call (by simp)) fun _ =>
    .bind (calls_call (by simp)) fun _ => trivial) fun _ => trivial

/-- What a request to the API calls. -/
def RequestCall : Call → Prop
  | .createDocument row _ => row.status = .uploaded ∧ row.rawText = none
  | .publish exchange _ _ => exchange = .ingest
  | .putObject _ _ | .freshId | .fetchDocument _ | .retryDocument _ _ _ => True
  | _ => False

theorem request_of_upload {c : Call} (h : UploadCall c) : RequestCall c := by
  cases c with
  | publish exchange key m =>
    cases exchange with
    | ingest => exact rfl
    | retry | dlx => exact h.elim
  | createDocument => exact h
  | putObject | freshId => trivial
  | _ => exact h.elim

theorem retryAction_requests (documentId : DocId) : (retryAction documentId).Calls RequestCall := by
  unfold retryAction
  refine .bind (calls_call trivial) fun found => ?_
  cases found with
  | none => trivial
  | some document =>
    dsimp only
    unfold retryDocument publish
    split
    · trivial
    refine .bind (calls_call trivial) fun r => ?_
    cases r with
    | error e => trivial
    | ok =>
      refine .bind (.bind (calls_call trivial) fun _ => .bind (calls_call trivial) fun _ =>
        .bind (calls_call rfl) fun _ => trivial) fun _ => trivial

end Api
end DigitalCip
