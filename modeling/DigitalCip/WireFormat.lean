import DigitalCip.QueueContent
import DigitalCip.Wire.Structs

/-!
# What is on the wire

The bodies of the pipeline's messages are written by `Oj.dump`, by `json.dumps` and by
`json.Marshal`, each from what the writer read of the body before (`Written`).  However many
of them took part, a body is read as the envelope that the message is about, by the consumer
of its stage (`read_as_written`), and every copy in the queues has such a body
(`queues_are_written`).
-/

namespace DigitalCip
open JsonText (Style)
open Resumable

/-! ## The next body, from the body before -/

namespace Ocr
open Python

/-- `f'{x}'` of an `int` and of a `str`; no other value has that place. -/
def format : Json → Option Str
  | .int n => some (codes (decimal n))
  | .str s => some s
  | _ => none

/-- The body that `_publish_next` publishes.  Nothing where it raises. -/
def nextBody (publishedAt : Text) (envelope nextPayload : Dict) : Option Dict := do
  let documentId ← envelope.lookup (str "document_id")
  let key ← format documentId
  match envelope.lookup (str "message_id") with
  | some (.str messageId) =>
    return [(str "message_id", .str (messageId ++ str ":chunk")),
      (str "idempotency_key", .str (key ++ str ":chunk")),
      (str "trace_id", (envelope.lookup (str "trace_id")).getD .null),
      (str "stage", .str (str "chunk")),
      (str "document_id", documentId),
      (str "tenant_id", (envelope.lookup (str "tenant_id")).getD .null),
      (str "attempt", .int 1),
      (str "published_at", .str (codes publishedAt)),
      (str "payload", .dict nextPayload)]
  | _ => none

end Ocr

namespace Chunker

/-- The body that `publishNext` publishes. -/
def nextBody (env : RawEnvelope) (id publishedAt : Text) (chunkCount : Nat) : BodyText :=
  (envelopeValue
    { messageId := codes id
      idempotencyKey := codes (decimal env.documentId) ++ str ":embed"
      traceId := env.traceId
      stage := str "embed"
      documentId := env.documentId
      tenantId := env.tenantId
      attempt := 1
      publishedAt := codes publishedAt }
    (.object [(str "chunks", .number (.ofInt chunkCount))])).print style

end Chunker

/-- A body on its way, and the envelope that its message is about. -/
inductive Written (maxRetries : Int) (oj : Style) (spell : ObjectKey → Text) :
    BodyText → Envelope → Prop where
  /-- `publish` of the API. -/
  | published (stage : Stage) (documentId : DocId) (tenantId : Text) (k : ObjectKey)
      (messageId traceId publishedAt : Text) :
      Written maxRetries oj spell
        (((Api.buildEnvelope stage documentId tenantId { objectKey := some k } 1 messageId
          traceId).value spell publishedAt).print oj)
        (Api.buildEnvelope stage documentId tenantId { objectKey := some k } 1 messageId traceId)
  /-- `_publish_next` of the OCR worker. -/
  | recognised {text text' : BodyText} {e : Envelope} {envelope body : Python.Dict} (k : ObjectKey)
      (publishedAt : Text) (h : Written maxRetries oj spell text e) (hstage : e.stage = .ocr)
      (hread : Python.loads text = some (.dict envelope))
      (hbody : Ocr.nextBody publishedAt envelope (Payload.dict spell { objectKey := some k }) =
        some body)
      (hdump : Python.dumps (.dict body) = some text') :
      Written maxRetries oj spell text' (Ocr.nextMessage e { objectKey := some k }).body
  /-- The clause `except TransientError` of a Python worker. -/
  | retried {text text' : BodyText} {e : Envelope} {envelope : Python.Dict}
      (h : Written maxRetries oj spell text e) (hstage : e.stage ≠ .chunk)
      (hread : Python.loads text = some (.dict envelope))
      (hleft : Python.bodyCodec.exhausted maxRetries envelope = .ok false)
      (hdump : Python.dumps (.dict (Python.bodyCodec.bump envelope)) = some text') :
      Written maxRetries oj spell text' (Python.envelopeCodec.bump e)
  /-- `publishNext` of the chunker. -/
  | chunked {text : BodyText} {e : Envelope} {env : Chunker.RawEnvelope} (id publishedAt : Text)
      (chunkCount : Nat) (h : Written maxRetries oj spell text e) (hstage : e.stage = .chunk)
      (hread : Chunker.unmarshalText text = some env) :
      Written maxRetries oj spell (Chunker.nextBody env id publishedAt chunkCount)
        (Chunker.nextMessage e id chunkCount).body
  /-- `publishRetry` of the chunker. -/
  | retriedChunk {text text' : BodyText} {e : Envelope} {env : Chunker.RawEnvelope}
      (h : Written maxRetries oj spell text e) (hstage : e.stage = .chunk)
      (hread : Chunker.unmarshalText text = some env)
      (hleft : (Chunker.counted env).attempt < maxRetries)
      (hmarshal : Chunker.retryBody env = some text') :
      Written maxRetries oj spell text' { e with attempt := e.attempt + 1 }

/-! ## Writing what was read -/

section Steps
variable {spell : ObjectKey → Text} {publishedAt : Text} {e : Envelope}

theorem codes_append (t u : Text) : codes (t ++ u) = codes t ++ codes u := List.map_append

theorem codes_text (d : DocId) (S : Stage) : codes (IdempotencyKey.text ⟨d, S⟩) =
    codes (decimal d) ++ codes (':' :: (Api.stageName S).toList) :=
  codes_append ..

theorem Ocr.nextBody_dict (publishedAt' : Text) (payload : Payload) :
    nextBody publishedAt' (e.dict spell publishedAt) (payload.dict spell) =
      some ((nextMessage e payload).body.dict spell publishedAt') := by
  have hid : codes (e.messageId ++ ":chunk".toList) = codes e.messageId ++ Python.str ":chunk" :=
    codes_append ..
  have hkey : codes (IdempotencyKey.text ⟨e.documentId, .chunk⟩) =
      codes (decimal e.documentId) ++ Python.str ":chunk" :=
    (codes_text ..).trans (congrArg _ (by decide))
  unfold Envelope.dict nextMessage
  rw [hid, hkey]
  rfl

/-- The retry of Python is the envelope with one attempt more. -/
theorem Python.bump_dict :
    bodyCodec.bump (e.dict spell publishedAt) = (envelopeCodec.bump e).dict spell publishedAt := rfl

theorem Python.exhausted_dict (maxRetries : Int) :
    bodyCodec.exhausted maxRetries (e.dict spell publishedAt) =
      envelopeCodec.exhausted maxRetries e := rfl

theorem Python.dumps_dict :
    dumps (.dict (e.dict spell publishedAt)) = some ((e.value spell publishedAt).print style) := by
  unfold dumps
  rw [Envelope.toValue_dict, Option.map_some]

theorem Chunker.nextBody_raw (id publishedAt' : Text) (chunkCount : Nat) :
    nextBody (e.raw spell publishedAt) id publishedAt' chunkCount =
      ((nextMessage e id chunkCount).body.value spell publishedAt').print style := by
  have hkey : codes (IdempotencyKey.text ⟨e.documentId, .embed⟩) =
      codes (decimal e.documentId) ++ str ":embed" :=
    (codes_text ..).trans (congrArg _ (by decide))
  unfold nextBody Envelope.value nextMessage
  rw [hkey]
  rfl

theorem Chunker.retryBody_raw {k : ObjectKey} (hattempt : e.attempt ≠ 0)
    (hkey : e.payload = { objectKey := some k }) :
    retryBody (e.raw spell publishedAt) =
      some ((Envelope.value spell publishedAt
        { e with attempt := e.attempt + 1 }).print style) := by
  have hcounted : counted (e.raw spell publishedAt) = e.raw spell publishedAt := if_neg hattempt
  unfold retryBody
  rw [hcounted]
  exact marshal_raw (e := { e with attempt := e.attempt + 1 }) hkey

end Steps

/-! ## Every body -/

/-- What a body says of its envelope: it is the envelope, in some style. -/
structure Carries (maxRetries : Int) (spell : ObjectKey → Text) (text : BodyText) (e : Envelope) :
    Prop where
  text : ∃ style publishedAt, text = (e.value spell publishedAt).print style
  pos : 1 ≤ e.attempt
  le : e.attempt ≤ max 1 maxRetries
  payload : e.stage = .chunk → ∃ k, e.payload = { objectKey := some k }

section Bodies
variable {maxRetries : Int} {oj : Style} {spell : ObjectKey → Text} {text : BodyText} {e : Envelope}

namespace Carries

/-- How it is read. -/
theorem read (h : Carries maxRetries spell text e) (hmax : maxRetries < 2 ^ 63)
    (hid : e.documentId < 2 ^ 63) :
    ∃ publishedAt, Python.loads text = some (.dict (e.dict spell publishedAt)) ∧
      (e.stage = .chunk → Chunker.unmarshalText text = some (e.raw spell publishedAt)) := by
  obtain ⟨style, publishedAt, rfl⟩ := h.text
  refine ⟨publishedAt, Envelope.loads_print style, fun hstage => ?_⟩
  obtain ⟨k, hk⟩ := h.payload hstage
  have hpos := h.pos
  have hle := h.le
  exact Chunker.unmarshalText_print style hid (by omega) (by omega) (by rw [hk])

/-- A first attempt of what was read, published anew. -/
theorem first {style : Style} {publishedAt : Text} (hattempt : e.attempt = 1)
    (hpayload : e.stage = .chunk → ∃ k, e.payload = { objectKey := some k }) :
    Carries maxRetries spell ((e.value spell publishedAt).print style) e :=
  ⟨⟨style, publishedAt, rfl⟩, by omega, by omega, hpayload⟩

/-- One more attempt, while there are some left. -/
theorem retry {style : Style} {publishedAt : Text} (h : Carries maxRetries spell text e)
    (hlt : e.attempt < maxRetries) :
    Carries maxRetries spell
      ((Envelope.value spell publishedAt { e with attempt := e.attempt + 1 }).print style)
      { e with attempt := e.attempt + 1 } := by
  have hpos := h.pos
  refine ⟨⟨style, publishedAt, rfl⟩, ?_, ?_, h.payload⟩
  · show 1 ≤ e.attempt + 1
    omega
  · show e.attempt + 1 ≤ max 1 maxRetries
    omega

end Carries

/-- **Every body says what its message is about**, whoever had it in hand. -/
theorem Written.carries (hmax : maxRetries < 2 ^ 63) (h : Written maxRetries oj spell text e)
    (hid : e.documentId < 2 ^ 63) : Carries maxRetries spell text e := by
  induction h with
  | published stage documentId tenantId k => exact .first rfl fun _ => ⟨k, rfl⟩
  | recognised k publishedAt' _ hstage hread hbody hdump ih =>
    obtain ⟨publishedAt, hloads, -⟩ := (ih hid).read hmax hid
    cases Python.Json.dict.inj (Option.some.inj (hread.symm.trans hloads))
    cases Option.some.inj (hbody.symm.trans (Ocr.nextBody_dict publishedAt' _))
    cases Option.some.inj (hdump.symm.trans Python.dumps_dict)
    exact .first rfl fun _ => ⟨k, rfl⟩
  | @retried _ _ e _ _ hstage hread hleft hdump ih =>
    obtain ⟨publishedAt, hloads, -⟩ := (ih hid).read hmax hid
    cases Python.Json.dict.inj (Option.some.inj (hread.symm.trans hloads))
    rw [Python.exhausted_dict] at hleft
    have hge : ¬ e.attempt ≥ maxRetries := of_decide_eq_false (Except.ok.inj hleft)
    rw [Python.bump_dict] at hdump
    cases Option.some.inj (hdump.symm.trans Python.dumps_dict)
    exact (ih hid).retry (by omega)
  | chunked id publishedAt' chunkCount _ hstage hread ih =>
    obtain ⟨publishedAt, -, hraw⟩ := (ih hid).read hmax hid
    cases Option.some.inj (hread.symm.trans (hraw hstage))
    rw [Chunker.nextBody_raw]
    exact .first rfl fun he => by cases he
  | @retriedChunk _ _ e _ _ hstage hread hleft hmarshal ih =>
    have hcarries := ih hid
    obtain ⟨publishedAt, -, hraw⟩ := hcarries.read hmax hid
    obtain ⟨k, hk⟩ := hcarries.payload hstage
    have hattempt : e.attempt ≠ 0 := by
      have hpos := hcarries.pos
      omega
    cases Option.some.inj (hread.symm.trans (hraw hstage))
    have hcounted : Chunker.counted (e.raw spell publishedAt) = e.raw spell publishedAt :=
      if_neg hattempt
    rw [hcounted] at hleft
    cases Option.some.inj (hmarshal.symm.trans (Chunker.retryBody_raw hattempt hk))
    exact hcarries.retry hleft

/-! ### There is a next body -/

theorem Written.recognise (hmax : maxRetries < 2 ^ 63) (h : Written maxRetries oj spell text e)
    (hid : e.documentId < 2 ^ 63) (hstage : e.stage = .ocr) (k : ObjectKey) :
    ∃ text', Written maxRetries oj spell text'
      (Ocr.nextMessage e { objectKey := some k }).body := by
  obtain ⟨publishedAt, hloads, -⟩ := (h.carries hmax hid).read hmax hid
  exact ⟨_, .recognised k [] h hstage hloads (Ocr.nextBody_dict [] _) Python.dumps_dict⟩

theorem Written.chunk (hmax : maxRetries < 2 ^ 63) (h : Written maxRetries oj spell text e)
    (hid : e.documentId < 2 ^ 63) (hstage : e.stage = .chunk) (id : MessageId) (chunkCount : Nat) :
    ∃ text', Written maxRetries oj spell text' (Chunker.nextMessage e id chunkCount).body := by
  obtain ⟨publishedAt, -, hraw⟩ := (h.carries hmax hid).read hmax hid
  exact ⟨_, .chunked id [] chunkCount h hstage (hraw hstage)⟩

/-- Whoever fails to handle a message can write it once more. -/
theorem Written.retry (hmax : maxRetries < 2 ^ 63) (h : Written maxRetries oj spell text e)
    (hid : e.documentId < 2 ^ 63) (hlt : e.attempt < maxRetries) :
    ∃ text', Written maxRetries oj spell text' { e with attempt := e.attempt + 1 } := by
  have hcarries := h.carries hmax hid
  by_cases hstage : e.stage = .chunk
  · obtain ⟨publishedAt, -, hraw⟩ := hcarries.read hmax hid
    obtain ⟨k, hk⟩ := hcarries.payload hstage
    have hattempt : e.attempt ≠ 0 := by
      have hpos := hcarries.pos
      omega
    have hcounted : Chunker.counted (e.raw spell publishedAt) = e.raw spell publishedAt :=
      if_neg hattempt
    refine ⟨_, .retriedChunk h hstage (hraw hstage) ?_ (Chunker.retryBody_raw hattempt hk)⟩
    rw [hcounted]
    exact hlt
  · obtain ⟨publishedAt, hloads, -⟩ := hcarries.read hmax hid
    refine ⟨_, .retried h hstage hloads ?_ (Python.bump_dict ▸ Python.dumps_dict)⟩
    rw [Python.exhausted_dict]
    exact congrArg Except.ok (decide_eq_false (by omega))

/-- No body is about two envelopes, if no two object keys are spelled alike. -/
theorem Written.unique {e' : Envelope} (hmax : maxRetries < 2 ^ 63)
    (h : Written maxRetries oj spell text e) (hid : e.documentId < 2 ^ 63)
    (hspell : Function.Injective spell) (h' : Written maxRetries oj spell text e')
    (hid' : e'.documentId < 2 ^ 63) : e' = e := by
  obtain ⟨publishedAt, hloads, -⟩ := (h.carries hmax hid).read hmax hid
  obtain ⟨publishedAt', hloads', -⟩ := (h'.carries hmax hid').read hmax hid'
  exact Envelope.dict_injective hspell
    (Python.Json.dict.inj (Option.some.inj (hloads'.symm.trans hloads)))

/-- **A body is read as it was meant.**  However many components have written it anew, each
from what it read, Python reads it as the envelope of its message, and Go does in the stage
that is Go's; it is the body of no other envelope; and while there are attempts left it can
be written for the next one. -/
theorem read_as_written (hmax : maxRetries < 2 ^ 63) (h : Written maxRetries oj spell text e)
    (hid : e.documentId < 2 ^ 63) :
    (∃ publishedAt, Python.loads text = some (.dict (e.dict spell publishedAt)) ∧
      (e.stage = .chunk → Chunker.unmarshalText text = some (e.raw spell publishedAt))) ∧
    (Function.Injective spell → ∀ e', Written maxRetries oj spell text e' →
      e'.documentId < 2 ^ 63 → e' = e) ∧
    (e.attempt < maxRetries →
      ∃ text', Written maxRetries oj spell text' { e with attempt := e.attempt + 1 }) :=
  ⟨(h.carries hmax hid).read hmax hid, fun hspell _ => h.unique hmax hid hspell, h.retry hmax hid⟩

/-- The envelope of a scan. -/
def scanEnvelope : Envelope :=
  Api.buildEnvelope .ocr 1 ['t'] { objectKey := some ⟨['t'], ['u']⟩ } 1 ['m'] ['x']

/-- Its chunk message, at the second attempt. -/
def scanRetried : Envelope :=
  { (Ocr.nextMessage scanEnvelope { objectKey := some ⟨['t'], ['u']⟩ }).body with attempt := 2 }

/-- The OCR worker hands a scan on at its second attempt, and the chunker fails once. -/
theorem read_as_written_retried :
    ∃ text publishedAt, Written 3 Chunker.style ObjectKey.uuid text scanRetried ∧
      Chunker.unmarshalText text = some (scanRetried.raw ObjectKey.uuid publishedAt) := by
  have hscan : Written 3 Chunker.style ObjectKey.uuid _ scanEnvelope :=
    .published .ocr 1 ['t'] ⟨['t'], ['u']⟩ ['m'] ['x'] []
  obtain ⟨text₁, h₁⟩ := (read_as_written (by decide) hscan (by decide)).2.2 (by decide)
  obtain ⟨text₂, h₂⟩ := h₁.recognise (by decide) (by decide) rfl ⟨['t'], ['u']⟩
  obtain ⟨text, h⟩ := (read_as_written (by decide) h₂ (by decide)).2.2 (by decide)
  obtain ⟨publishedAt, -, hread⟩ := (read_as_written (by decide) h (by decide)).1
  exact ⟨text, publishedAt, h, hread rfl⟩

end Bodies

/-! ## Every copy -/

/-- The message has a body, as long as its document's id is a `bigint`. -/
def OnWire (maxRetries : Int) (oj : Style) (spell : ObjectKey → Text) (m : Message) : Prop :=
  m.body.documentId < 2 ^ 63 → ∃ text, Written maxRetries oj spell text m.body

/-- What is published has a body. -/
def Writes (maxRetries : Int) (oj : Style) (spell : ObjectKey → Text) : Call → Prop
  | .publish _ _ m => OnWire maxRetries oj spell m
  | _ => True

section Calls
variable {cfg : Config} {oj : Style} {spell : ObjectKey → Text} {m : Message} {S : Stage}

theorem writes_of_internal {id : MessageId} {d : DocId} {c : Call} (h : Internal S id d c) :
    Writes cfg.maxRetries oj spell c := by
  cases c with
  | publish => exact h.elim
  | _ => trivial

namespace Python

theorem retry_writes (hmax : cfg.maxRetries < 2 ^ 63) (hm : OnWire cfg.maxRetries oj spell m) :
    (retry cfg.maxRetries envelopeCodec (channel S m) m.body).Calls
      (Writes cfg.maxRetries oj spell) := by
  unfold retry
  simp only [envelopeCodec, channel]
  split
  · trivial
  · exact .bind (calls_call hm) fun _ => calls_call trivial
  · rename_i h
    have hlt : m.body.attempt < cfg.maxRetries := by
      have hge : ¬ m.body.attempt ≥ cfg.maxRetries := of_decide_eq_false (Except.ok.inj h)
      omega
    refine .bind (calls_call fun hid => ?_) fun _ => calls_call trivial
    obtain ⟨text, htext⟩ := hm hid
    exact htext.retry hmax hid hlt

theorem onMessage_writes {N : Type} {handler : Envelope → Program (Option N)}
    {publishNext : Envelope → N → Program Unit} {Q : N → Prop} (hmax : cfg.maxRetries < 2 ^ 63)
    (hm : OnWire cfg.maxRetries oj spell m)
    (hhandler : (handler m.body).Calls (Writes cfg.maxRetries oj spell))
    (hreturns : (handler m.body).Returns fun r => ∀ n ∈ r, Q n)
    (hnext : ∀ n, Q n → (publishNext m.body n).Calls (Writes cfg.maxRetries oj spell)) :
    (onMessage cfg.maxRetries envelopeCodec (channel S m) handler publishNext m.body).Calls
      (Writes cfg.maxRetries oj spell) := by
  have hack : ∀ o, ((channel S m).ack o).Calls (Writes cfg.maxRetries oj spell) :=
    fun o => calls_call trivial
  refine .tryCatch (hreturns.calls_bind hhandler fun r hr => ?_) fun e => ?_
  · cases r with
    | none => exact hack _
    | some next => exact .bind (hnext next (hr next rfl)) fun _ => hack _
  · cases e with
    | permanent => exact hack _
    | transient => exact retry_writes hmax hm
    | other => exact .tryCatch (calls_call trivial) fun _ => trivial

end Python

/-- The OCR worker hands on an object key and nothing else. -/
theorem Ocr.handle_returns (envelope : Envelope) :
    (handle envelope).Returns fun r => ∀ next ∈ r, ∃ k, next = { objectKey := some k } := by
  have hnone : ∀ next ∈ (none : Option Payload), ∃ k, next = { objectKey := some k } :=
    fun next h => by cases h
  unfold handle
  refine .bind fun seen => ?_
  split
  · exact hnone
  refine .bind fun document => ?_
  match document with
  | none => trivial
  | some document =>
    dsimp only
    split
    · exact hnone
    refine .tryCatch ?_ fun e => ?_
    · unfold recognise
      refine .bind fun _ => .bind fun _ => .bind fun blob => ?_
      split
      · trivial
      refine .bind fun r => ?_
      dsimp only
      split
      · trivial
      refine .bind fun _ => .bind fun _ => .bind fun _ => ?_
      rintro next ⟨⟩
      exact ⟨_, rfl⟩
    · cases e with
      | permanent => exact .bind fun _ => .bind fun _ => trivial
      | transient => exact .bind fun _ => trivial
      | other => exact .bind fun _ => trivial

theorem Ocr.onMessage_writes (hmax : cfg.maxRetries < 2 ^ 63)
    (hm : OnWire cfg.maxRetries oj spell m) (hstage : m.body.stage = .ocr) :
    (onMessage cfg m).Calls (Writes cfg.maxRetries oj spell) := by
  refine Python.onMessage_writes hmax hm ((handle_internal _).mono fun _ => writes_of_internal)
    (handle_returns _) ?_
  rintro next ⟨k, rfl⟩
  refine calls_call fun hid => ?_
  obtain ⟨text, htext⟩ := hm hid
  exact htext.recognise hmax hid hstage k

theorem Embedder.onMessage_writes (hmax : cfg.maxRetries < 2 ^ 63)
    (hm : OnWire cfg.maxRetries oj spell m) :
    (onMessage cfg m).Calls (Writes cfg.maxRetries oj spell) := by
  unfold onMessage
  refine Python.onMessage_writes (Q := fun _ => True) hmax hm ?_ ?_ fun n => nomatch n
  · exact .bind ((handle_internal _).mono fun _ => writes_of_internal) fun _ => trivial
  · exact .bind fun _ next h => trivial

namespace Chunker

theorem process_writes {e : Envelope}
    (hnext : ∀ n id, OnWire cfg.maxRetries oj spell (nextMessage e id n)) :
    (process cfg e).Calls (Writes cfg.maxRetries oj spell) := by
  refine process_calls_of (fun _ => writes_of_internal) fun n => ?_
  unfold publishNext
  refine .bind (.perform trivial) fun r => ?_
  cases r with
  | error e => trivial
  | ok id => exact .bind (.perform (hnext n id)) fun _ => trivial

theorem handle_writes (hmax : cfg.maxRetries < 2 ^ 63) (hm : OnWire cfg.maxRetries oj spell m)
    (hstage : m.body.stage = .chunk) : (handle cfg m).Calls (Writes cfg.maxRetries oj spell) := by
  have hack : ∀ o, (Prog.perform (.ack o) >>= fun _ => pure () : Program Unit).Calls
      (Writes cfg.maxRetries oj spell) := fun o => .bind (.perform trivial) fun _ => trivial
  have hid : ∀ e : Envelope,
      (e = if m.body.attempt = 0 then { m.body with attempt := 1 } else m.body) →
      e.documentId = m.body.documentId ∧ (m.body.documentId < 2 ^ 63 → e = m.body) := by
    rintro e rfl
    refine ⟨by split <;> rfl, fun hid => if_neg ?_⟩
    obtain ⟨text, htext⟩ := hm hid
    have hpos := (htext.carries hmax hid).pos
    omega
  unfold handle
  dsimp only
  generalize he : (if m.body.attempt = 0 then { m.body with attempt := 1 } else m.body) = e
  obtain ⟨hdoc, heq⟩ := hid e he.symm
  refine .bind (process_writes fun n id hn => ?_) fun r => ?_
  · have hid' : m.body.documentId < 2 ^ 63 := hdoc ▸ hn
    obtain ⟨text, htext⟩ := hm hid'
    rw [heq hid']
    exact htext.chunk hmax hid' hstage id n
  · split
    · exact hack _
    · exact hack _
    · split
      · refine .bind (.bind (.perform ?_) fun _ => trivial) fun _ => hack _
        exact hm
      · rename_i hlt
        refine .bind (.bind (.perform fun hn => ?_) fun _ => trivial) fun _ => hack _
        have hid' : m.body.documentId < 2 ^ 63 := hdoc ▸ hn
        obtain ⟨text, htext⟩ := hm hid'
        rw [heq hid'] at hlt ⊢
        exact htext.retry hmax hid' (by omega)

end Chunker

theorem consumer_writes (hmax : cfg.maxRetries < 2 ^ 63) (hm : OnWire cfg.maxRetries oj spell m)
    (hstage : m.body.stage = S) : (consumer cfg S m).Calls (Writes cfg.maxRetries oj spell) := by
  cases S with
  | ocr => exact Ocr.onMessage_writes hmax hm hstage
  | chunk => exact Chunker.handle_writes hmax hm hstage
  | embed => exact Embedder.onMessage_writes hmax hm

theorem Api.createDocument_writes (upload : Option Api.Upload) (title : Option Text)
    (tenantId : Text) : (Api.createDocument cfg upload title tenantId).Calls
      (Writes cfg.maxRetries oj spell) :=
  createDocument_calls_of trivial (fun _ _ => trivial) (fun _ _ => trivial)
    fun d _ _ _ _ => ⟨_, .published .ocr d tenantId _ _ _ []⟩

end Calls

/-! ### Every run -/

/-- Any run at all; every copy has a body. -/
def wireDiscipline (maxRetries : Int) (oj : Style) (spell : ObjectKey → Text) : Discipline where
  ok := anyStep
  known := Base
  moves := Grows
  admits _ _ _ _ := True
  inv w := ∀ S c, w.broker.Holds S c → OnWire maxRetries oj spell c.message
  rely _ _ _ _ := True
  guar _ _ _ _ _ := True
  moves_refl := .refl
  moves_trans _ _ _ := .trans
  rely_refl _ _ _ := trivial
  rely_trans _ _ _ _ _ _ _ := trivial
  post _ _ := True

section Runs
variable {cfg : Config} {oj : Style} {spell : ObjectKey → Text}

theorem keeps_writes (i : Nat) : (wireDiscipline cfg.maxRetries oj spell).Keeps i (fun _ => True)
    (Writes cfg.maxRetries oj spell) where
  stable _ _ _ _ _ _ _ _ _ := trivial
  fail _ _ _ _ _ _ _ := trivial
  does c w v w' a hc _ hb hinv _ _ _ _ hd := by
    refine ⟨fun S x hx => ?_, trivial, trivial⟩
    rcases holds_of_does hb hd hx with hold | ⟨exchange, key, m, rfl, rfl⟩
    · exact hinv S x hold
    · exact hc

theorem wire_sound (hmax : cfg.maxRetries < 2 ^ 63) :
    (wireDiscipline cfg.maxRetries oj spell).Sound cfg .init where
  reached := .start
  start := by
    refine Discipline.safe_init ?_
    rintro S c (⟨leg, h⟩ | ⟨i, d, h, -, -⟩)
    · cases h
    · cases h
  known s h := reachable_base h
  moves s l s' h _ hstep := grows_of_step h hstep
  admits _ _ _ _ _ _ _ _ _ := trivial
  others _ _ _ _ _ _ _ _ _ _ _ _ _ _ _ _ _ _ := trivial
  env s l w _ hsafe _ hmove _ _ :=
    ⟨fun S c hc => hsafe.1 S c (holds_of_envMove hmove hc), fun _ _ _ _ _ => trivial⟩
  upload s i upload title tenantId _ _ _ _ _ :=
    wp_mono ((keeps_writes i).calls
      (.bind (Api.createDocument_writes upload title tenantId) fun _ => trivial) trivial)
      (fun _ _ _ => trivial) fun _ _ _ => trivial
  retryRequest s i documentId _ _ _ _ _ := by
    have hkeeps : (wireDiscipline cfg.maxRetries oj spell).Keeps i (fun _ => True) Api.RetryCall :=
      (keeps_writes i).mono fun c hc => by
        cases c <;> trivial
    exact wp_mono (Api.retryAction_keeps hkeeps documentId trivial) (fun _ _ _ => trivial)
      fun _ _ _ => trivial
  consumer s i S n copy w _ _ _ _ _ _ hw hb hinv := by
    have hd : w.broker.deliveries i = some ⟨copy, ⟨S, .work⟩, true⟩ := by
      rw [hw]
      simp [Broker.deliver]
    have hholds : w.broker.Holds S copy := .delivered i _ hd rfl rfl
    obtain ⟨p, -, -, hstage, halike⟩ := (hb.mail.held S copy hholds).source
    exact wp_mono ((keeps_writes i).calls
      (consumer_writes hmax (hinv S copy hholds) (halike.stage.trans hstage)) trivial)
      (fun _ _ _ => trivial) fun _ _ _ => trivial

/-- **Every copy has a body that says what it is about**, in every state of every run, if
`MAX_RETRIES` is an `int` in Go and ids are `bigint`s: a text that the components have
written one after the other, each from what it read, and that the consumer reads as the
envelope. -/
theorem queues_are_written {s : Sys} (hmax : cfg.maxRetries < 2 ^ 63)
    (h : Reachable cfg anyStep s) {S : Stage} {c : Copy} (hc : s.world.broker.Holds S c)
    (hid : c.message.body.documentId < 2 ^ 63) :
    ∃ text publishedAt, Written cfg.maxRetries oj spell text c.message.body ∧
      Python.loads text = some (.dict (c.message.body.dict spell publishedAt)) ∧
      (S = .chunk → Chunker.unmarshalText text = some (c.message.body.raw spell publishedAt)) := by
  obtain ⟨p, -, -, hstage, halike⟩ := ((reachable_base h).mail.held S c hc).source
  have hsound : (wireDiscipline cfg.maxRetries oj spell).Sound cfg .init := wire_sound hmax
  obtain ⟨text, htext⟩ := (hsound.safe h).1 S c hc hid
  obtain ⟨publishedAt, hloads, hraw⟩ := (htext.carries hmax hid).read hmax hid
  exact ⟨text, publishedAt, htext, hloads, fun hS => hraw (halike.stage.trans (hstage.trans hS))⟩

/-- The chunk message of a scan is one of them. -/
theorem queues_are_written_sample :
    ∃ s c, run (step sampleConfig) .init (uploadRun ++ ocrRun 1) = some s ∧
      s.world.broker.queues ⟨.chunk, .work⟩ = [c] ∧
      ∃ text publishedAt, Written 3 Chunker.style ObjectKey.uuid text c.message.body ∧
        Chunker.unmarshalText text = some (c.message.body.raw ObjectKey.uuid publishedAt) := by
  obtain ⟨s, hs, hids⟩ := exists_run (step sampleConfig) .init (uploadRun ++ ocrRun 1)
    (fun s => (s.world.broker.queues ⟨.chunk, .work⟩).map
      (fun c => c.message.body.documentId) = [1]) (by decide)
  obtain ⟨c, hc, hid⟩ := List.map_eq_singleton_iff.mp hids
  have hholds : s.world.broker.Holds .chunk c := .queued .work (hc ▸ List.mem_cons_self ..)
  have hbody : ∃ text publishedAt, Written 3 Chunker.style ObjectKey.uuid text c.message.body ∧
      Python.loads text = some (.dict (c.message.body.dict ObjectKey.uuid publishedAt)) ∧
      (Stage.chunk = .chunk →
        Chunker.unmarshalText text = some (c.message.body.raw ObjectKey.uuid publishedAt)) :=
    queues_are_written (by decide) (Reaches.of_run hs) hholds (by rw [hid]; decide)
  obtain ⟨text, publishedAt, hwritten, -, hread⟩ := hbody
  exact ⟨s, c, hs, hc, text, publishedAt, hwritten, hread rfl⟩

end Runs
end DigitalCip
