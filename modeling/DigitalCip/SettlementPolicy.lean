import DigitalCip.Chunker.Json
import DigitalCip.Python.Delivery

/-!
# One settlement policy in two languages

The Go chunker and the two Python workers settle a delivery by the same rules,
each with its own decoding.  They agree on the messages of the pipeline as long as
every error of a handler is classified.  They part on a body that is no JSON
object, which Go drops and Python sends round; on an error that is neither
permanent nor transient, which Go counts and Python does not; and on an `attempt`
of zero, which Go takes for a first attempt.  `settles_alike_iff` says exactly
where they agree.
-/

namespace DigitalCip
open Python (Json Dict Body)

/-- A body, as each of the two languages reads its bytes.  Either may read what the
other does not (Python takes `NaN` and UTF-16, Go repeats the keys of an object). -/
structure RawBody where
  python : Body
  go : Option Chunker.Value

/-- What comes of the handler of a message. -/
inductive HandlerResult where
  | success
  | permanent
  | transient
  | unclassified
  deriving DecidableEq, Repr

/-- What a consumer asks of the broker.  A retry is published with its attempt. -/
inductive Action where
  | publishDlq
  | publishRetry (attempt : Json)
  | ack
  | nack

/-- How a delivery is settled: by a final ack, a retry or a dead-letter copy with an
ack, or a rejection; or it is not. -/
inductive Settlement where
  | acked
  | retried (attempt : Json)
  | deadLettered
  | rejected
  | unsettled

/-- The settlement that a list of actions makes. -/
def Settlement.of : List Action → Settlement
  | [.ack] => .acked
  | [.publishRetry attempt, .ack] => .retried attempt
  | [.publishDlq, .ack] => .deadLettered
  | [.nack] => .rejected
  | _ => .unsettled

/-- The broker is available: it takes whatever is asked of it. -/
def record (action : Action) (actions : List Action) : List Action := actions ++ [action]

/-! ## The two consumers -/

namespace Python

/-- What the handler does for a result. -/
def outcomeFor : HandlerResult → HandlerOutcome
  | .success => .ok none
  | .permanent => .error (.permanent "")
  | .transient => .error (.transient "")
  | .unclassified => .error (.other "")

/-- What a channel operation asks of the broker. -/
def ChannelCall.action : ChannelCall → Action
  | .publish .dlx _ _ => .publishDlq
  | .publish _ _ m => .publishRetry ((m.headers.lookup (str "x-attempt")).getD .null)
  | .ack => .ack
  | .nack => .nack

/-- How `on_message` settles a delivery of a message without headers.  `encodes` says which
values `pika` can write into a header; it raises on the others. -/
def settles (encodes : Json → Bool) (maxRetries : Int) (S : Stage) (o : HandlerResult)
    (body : Body) : Settlement :=
  .of ((delivery encodes maxRetries S (fun c => record c.action) (outcomeFor o)
    ⟨body, none, []⟩).run []).2

end Python

namespace Chunker

/-- The error of a result. -/
def errorFor : HandlerResult → Option GoError
  | .success => none
  | .permanent => some (.permanent "")
  | .transient => some (.transient "")
  | .unclassified => some (.other "")

def recordingChannel : Channel (StateM (List Action)) RawEnvelope where
  publishDLQ _ := modify (record .publishDlq)
  publishRetry env := modify (record (.publishRetry (.int env.attempt)))
  ack _ := modify (record .ack)

/-- How `handle` settles a delivery. -/
def settles (maxRetries : Int) (o : HandlerResult) (body : Option Value) : Settlement :=
  .of ((consume maxRetries bodyCodec recordingChannel (fun _ => pure (errorFor o)) body).run []).2

end Chunker

/-! ## What each of them does -/

namespace Python
variable {encodes : Json → Bool} {maxRetries : Int} {S : Stage} {o : HandlerResult} {body : Body}

theorem settles_unreadable (h : ∀ envelope, body ≠ some (.dict envelope)) :
    settles encodes maxRetries S o body = .rejected := by
  have hread : ∃ e, bodyCodec.loads body = .error e := by
    match body with
    | none | some .null | some (.bool _) | some (.int _) | some (.float _) | some (.str _)
    | some (.list _) => exact ⟨_, rfl⟩
    | some (.dict envelope) => exact absurd rfl (h envelope)
  obtain ⟨e, he⟩ := hread
  unfold settles
  rw [delivery_unreadable he]
  rfl

/-- The settlement of a body that is a JSON object. -/
theorem settles_readable (envelope : Dict) :
    settles encodes maxRetries S o (some (.dict envelope)) =
      match o with
      | .success | .permanent => .acked
      | .unclassified => .rejected
      | .transient =>
        match envelope.attempt.ge maxRetries with
        | .error _ => .unsettled
        | .ok true => .deadLettered
        | .ok false =>
          if encodes envelope.attempt.addOne then .retried envelope.attempt.addOne
          else .unsettled := by
  have hread : bodyCodec.loads (RawMessage.body ⟨some (.dict envelope), none, []⟩) = .ok envelope :=
    rfl
  unfold settles
  rw [delivery_readable hread]
  cases o with
  | success | permanent | unclassified => rfl
  | transient =>
    have hheaders : (RawMessage.retry ⟨some (.dict envelope), none, []⟩
        (bodyCodec.bump envelope)).headers = [(str "x-attempt", envelope.attempt.addOne)] := by
      unfold RawMessage.retry
      rw [attempt_bump]
      rfl
    have hencodable : encodable encodes [(str "x-attempt", envelope.attempt.addOne)] =
        encodes envelope.attempt.addOne := Bool.and_true _
    dsimp only [HandlerOutcome.raised, outcomeFor]
    rw [retry_run, hheaders, hencodable]
    rcases envelope.attempt.ge maxRetries with e | ⟨_ | _⟩
    · rfl
    · dsimp only
      split
      · have haction : (ChannelCall.publish .retry ⟨S, .retry⟩
            (RawMessage.retry ⟨some (.dict envelope), none, []⟩ (bodyCodec.bump envelope))).action =
              .publishRetry envelope.attempt.addOne := by
          show Action.publishRetry _ = _
          rw [hheaders]
          rfl
        simp only [record, haction]
        rfl
      · rfl
    · rfl

end Python

namespace Chunker
variable {maxRetries : Int} {o : HandlerResult} {body : Option Value}

theorem settles_invalid (h : unmarshal body = none) : settles maxRetries o body = .acked := by
  unfold settles consume bodyCodec
  simp only [h]
  rfl

/-- The attempt that a message is handled under. -/
def RawEnvelope.counted (env : RawEnvelope) : Int := if env.attempt = 0 then 1 else env.attempt

theorem settles_valid {env : RawEnvelope} (h : unmarshal body = some env) :
    settles maxRetries o body =
      match o with
      | .success | .permanent => .acked
      | .transient | .unclassified =>
        if env.counted ≥ maxRetries then .deadLettered else .retried (.int (env.counted + 1)) := by
  have hcounted : (if env.attempt = 0 then { env with attempt := 1 } else env).attempt =
      env.counted := by
    unfold RawEnvelope.counted
    split <;> rfl
  unfold settles consume bodyCodec
  simp only [h]
  generalize (if env.attempt = 0 then { env with attempt := 1 } else env) = env' at hcounted ⊢
  cases o with
  | success | permanent => rfl
  | transient | unclassified =>
    rw [← hcounted]
    simp only [errorFor, pure_bind]
    split
    · rfl
    · rfl

theorem settles_done (ho : o = .success ∨ o = .permanent) : settles maxRetries o body = .acked := by
  cases h : unmarshal body with
  | none => exact settles_invalid h
  | some env =>
    rw [settles_valid h]
    rcases ho with rfl | rfl <;> rfl

/-- Go never rejects a delivery. -/
theorem settles_ne_rejected : settles maxRetries o body ≠ .rejected := by
  cases h : unmarshal body with
  | none =>
    rw [settles_invalid h]
    exact fun he => nomatch he
  | some env =>
    rw [settles_valid h]
    cases o with
    | success | permanent => exact fun he => nomatch he
    | transient | unclassified =>
      dsimp only
      split
      · exact fun he => nomatch he
      · exact fun he => nomatch he

end Chunker

/-! ## Where they agree -/

/-- In Python the value is the whole number `n`; `True` is 1. -/
def Python.Json.IsWhole (x : Json) (n : Int) : Prop := x = .int n ∨ ∃ b : Bool, x = .bool b ∧ b.toInt = n

/-- The attempts are used up in both readings of a message, or in neither, and then
the attempt is one number, and Python can publish the next one. -/
def SameAttempt (encodes : Json → Bool) (maxRetries : Int) (envelope : Dict)
    (env : Chunker.RawEnvelope) : Prop :=
  (env.counted ≥ maxRetries ∧ envelope.attempt.ge maxRetries = .ok true) ∨
    env.counted < maxRetries ∧ envelope.attempt.IsWhole env.counted ∧
      encodes (.int (env.counted + 1)) = true

/-- The body is a JSON object in Python, and its handler succeeds, or fails for good,
or fails for now, and the attempt of the message is the same in both languages. -/
def SettledAlike (encodes : Json → Bool) (maxRetries : Int) (o : HandlerResult) (body : RawBody) :
    Prop :=
  ∃ envelope, body.python = some (.dict envelope) ∧
    match o with
    | .success | .permanent => True
    | .unclassified => False
    | .transient => ∃ env, Chunker.unmarshal body.go = some env ∧
        SameAttempt encodes maxRetries envelope env

namespace Python.Json
variable {x : Json} {n maxRetries : Int}

theorem IsWhole.ge (h : x.IsWhole n) : x.ge maxRetries = .ok (decide (n ≥ maxRetries)) := by
  rcases h with rfl | ⟨b, rfl, rfl⟩ <;> rfl

theorem IsWhole.addOne (h : x.IsWhole n) : x.addOne = .int (n + 1) := by
  rcases h with rfl | ⟨b, rfl, rfl⟩ <;> rfl

/-- A value that Python compares and counts up to a whole number is a whole number. -/
theorem isWhole_of_addOne {b : Bool} (hge : x.ge maxRetries = .ok b) (hadd : x.addOne = .int (n + 1)) :
    x.IsWhole n := by
  cases x with
  | int k =>
    have hk : k + 1 = n + 1 := Json.int.inj hadd
    obtain rfl : k = n := by omega
    exact Or.inl rfl
  | bool b =>
    have hb : b.toInt + 1 = n + 1 := Json.int.inj hadd
    exact Or.inr ⟨b, rfl, by omega⟩
  | float => cases hadd
  | null | str | list | dict => cases hge

end Python.Json

/-- **On a transient error** of a message that both can read. -/
theorem settles_transient_iff {encodes : Json → Bool} {maxRetries : Int} {S : Stage}
    {envelope : Dict} {env : Chunker.RawEnvelope} {body : Option Chunker.Value} (h : Chunker.unmarshal body = some env) :
    Python.settles encodes maxRetries S .transient (some (.dict envelope)) =
        Chunker.settles maxRetries .transient body ↔ SameAttempt encodes maxRetries envelope env := by
  rw [Python.settles_readable, Chunker.settles_valid h]
  unfold SameAttempt
  dsimp only
  constructor
  · intro he
    split at he
    · split at he <;> cases he
    · rename_i hge
      split at he
      · exact Or.inl ⟨‹_›, hge⟩
      · cases he
    · rename_i hge
      split at he
      · rename_i hencodes
        split at he
        · cases he
        · rename_i hlt
          have hadd : envelope.attempt.addOne = .int (env.counted + 1) := Settlement.retried.inj he
          rw [hadd] at hencodes
          exact Or.inr ⟨by omega, Python.Json.isWhole_of_addOne hge hadd, hencodes⟩
      · split at he <;> cases he
  · rintro (⟨hge, hp⟩ | ⟨hlt, hwhole, hencodes⟩)
    · rw [hp, if_pos hge]
    · rw [hwhole.ge, hwhole.addOne, decide_eq_false (by omega)]
      dsimp only
      rw [if_pos hencodes, if_neg (by omega)]

/-- **The two languages settle a delivery alike** exactly if its body is a JSON object
in Python, the error of its handler, if any, is classified, and on a transient error
the attempt is the same in both. -/
theorem settles_alike_iff (encodes : Json → Bool) (maxRetries : Int) (S : Stage)
    (o : HandlerResult) (body : RawBody) :
    Python.settles encodes maxRetries S o body.python = Chunker.settles maxRetries o body.go ↔
      SettledAlike encodes maxRetries o body := by
  by_cases hdict : ∃ envelope, body.python = some (.dict envelope)
  · obtain ⟨envelope, hpython⟩ := hdict
    unfold SettledAlike
    rw [hpython]
    cases o with
    | success =>
      rw [Python.settles_readable, Chunker.settles_done (Or.inl rfl)]
      exact ⟨fun _ => ⟨envelope, rfl, trivial⟩, fun _ => rfl⟩
    | permanent =>
      rw [Python.settles_readable, Chunker.settles_done (Or.inr rfl)]
      exact ⟨fun _ => ⟨envelope, rfl, trivial⟩, fun _ => rfl⟩
    | unclassified =>
      rw [Python.settles_readable]
      exact ⟨fun h => absurd h.symm Chunker.settles_ne_rejected, fun ⟨_, _, h⟩ => h.elim⟩
    | transient =>
      cases hgo : Chunker.unmarshal body.go with
      | none =>
        -- Go acks what it cannot read, and Python acks no message that it has to retry
        rw [Chunker.settles_invalid hgo]
        refine ⟨fun h => ?_, fun ⟨_, _, _, h, _⟩ => nomatch h⟩
        rw [Python.settles_readable] at h
        dsimp only at h
        split at h
        · cases h
        · cases h
        · split at h <;> cases h
      | some env =>
        rw [settles_transient_iff hgo]
        constructor
        · exact fun h => ⟨envelope, rfl, env, rfl, h⟩
        · rintro ⟨envelope', he, env', he', h⟩
          cases he
          cases he'
          exact h
  · have hno : ∀ envelope, body.python ≠ some (.dict envelope) := fun e he => hdict ⟨e, he⟩
    rw [Python.settles_unreadable hno]
    exact ⟨fun h => absurd h.symm Chunker.settles_ne_rejected,
      fun ⟨envelope, he, _⟩ => absurd he (hno envelope)⟩

/-! ### What an attempt may be -/

section Attempts
variable {encodes : Json → Bool} {maxRetries : Int} {envelope : Dict} {env : Chunker.RawEnvelope}
  {n : Int}

/-- A whole number, in both readings of the body: only zero makes a difference, if
any retry is allowed at all. -/
theorem sameAttempt_whole_iff (hp : envelope.attempt = .int n) (hg : env.attempt = n)
    (hencodes : encodes (.int (n + 1)) = true) :
    SameAttempt encodes maxRetries envelope env ↔ n ≠ 0 ∨ maxRetries ≤ 0 := by
  have hge : envelope.attempt.ge maxRetries = .ok (decide (n ≥ maxRetries)) := by rw [hp]; rfl
  unfold SameAttempt
  rw [hge]
  by_cases hn : n = 0
  · have hcounted : env.counted = 1 := by simp [Chunker.RawEnvelope.counted, hg, hn]
    rw [hcounted, hp, hn]
    constructor
    · rintro (⟨-, h⟩ | ⟨-, h | ⟨b, h, -⟩, -⟩)
      · have := of_decide_eq_true (Except.ok.inj h)
        omega
      · cases h
      · cases h
    · intro h
      exact Or.inl ⟨by omega, by rw [decide_eq_true (by omega)]⟩
  · have hcounted : env.counted = n := by simp [Chunker.RawEnvelope.counted, hg, hn]
    rw [hcounted, hp]
    refine ⟨fun _ => Or.inl hn, fun _ => ?_⟩
    by_cases hlt : n < maxRetries
    · exact Or.inr ⟨hlt, Or.inl rfl, hencodes⟩
    · exact Or.inl ⟨by omega, by rw [decide_eq_true (by omega)]⟩

/-- No attempt is a first attempt in both languages. -/
theorem sameAttempt_absent (hp : envelope.lookup (Python.str "attempt") = none)
    (hg : env.attempt = 0) (hencodes : encodes (.int 2) = true) :
    SameAttempt encodes maxRetries envelope env := by
  have hattempt : envelope.attempt = .int 1 := by simp [Dict.attempt, hp]
  have hcounted : env.counted = 1 := by simp [Chunker.RawEnvelope.counted, hg]
  unfold SameAttempt
  rw [hcounted, hattempt]
  by_cases hlt : 1 < maxRetries
  · exact Or.inr ⟨hlt, Or.inl rfl, hencodes⟩
  · refine Or.inl ⟨by omega, ?_⟩
    show Except.ok (decide ((1 : Int) ≥ maxRetries)) = .ok true
    rw [decide_eq_true (by omega)]

end Attempts

/-- Go drops a body that is no JSON text, and Python sends it round. -/
theorem not_settles_alike : ¬ ∀ (encodes : Json → Bool) (maxRetries : Int) (S : Stage)
    (o : HandlerResult) (body : RawBody),
    Python.settles encodes maxRetries S o body.python = Chunker.settles maxRetries o body.go := by
  intro hall
  have hgo : Chunker.settles 5 .success none = .acked := Chunker.settles_invalid rfl
  have hpython : Python.settles (fun _ => true) 5 .ocr .success none = .rejected := rfl
  have hboth := hall (fun _ => true) 5 .ocr .success ⟨none, none⟩
  rw [hgo, hpython] at hboth
  cases hboth

end DigitalCip
