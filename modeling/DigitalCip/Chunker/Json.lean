import DigitalCip.Chunker.Worker
import Mathlib.Data.Rat.Defs
import Mathlib.Algebra.Order.Ring.Unbundled.Rat

/-!
# Bodies that are not envelopes, in Go

`handle` looks at the bytes of a body through `json.Unmarshal` into the struct
`Envelope` only, so a body is what the scanner of `encoding/json` makes of it: a
`Value`, or nothing when the bytes are no JSON text.  `handle` is written once
more here, over what it needs to know of a body (`Codec`) and of the delivery
(`Channel`); on the pipeline's own messages it is the `handle` of the worker
(`handle_eq_consume`).
-/

namespace DigitalCip.Chunker
open Resumable

/-- A Go string: its code points. -/
abbrev Str := List Nat

/-- `"…"` in the source. -/
def str (s : String) : Str := s.toList.map Char.toNat

/-- A JSON text as it is scanned: the members of an object in their order, and of a
number whether it is written without a fraction and an exponent, and with a minus sign. -/
inductive Value where
  | null
  | bool (b : Bool)
  | number (q : ℚ) (whole negative : Bool)
  | string (s : Str)
  | array (xs : List Value)
  | object (members : List (Str × Value))

/-- `strconv.ParseFloat` finds the number in range. -/
def fitsFloat (q : ℚ) : Bool := -(2 ^ 1024 - 2 ^ 970) < q && q < 2 ^ 1024 - 2 ^ 970

mutual

/-- The value can be stored in an `any`. -/
def Value.fitsAny : Value → Bool
  | .number q _ _ => fitsFloat q
  | .array xs => fitsAnyAll xs
  | .object members => fitsAnyMembers members
  | _ => true

def fitsAnyAll : List Value → Bool
  | [] => true
  | x :: xs => x.fitsAny && fitsAnyAll xs

def fitsAnyMembers : List (Str × Value) → Bool
  | [] => true
  | (_, x) :: members => x.fitsAny && fitsAnyMembers members

end

/-- The struct `Envelope`, before anything is known of its contents. -/
structure RawEnvelope where
  messageId : Str := []
  idempotencyKey : Str := []
  traceId : Str := []
  stage : Str := []
  documentId : Int := 0
  tenantId : Str := []
  attempt : Int := 0
  publishedAt : Str := []
  payload : List (Str × Value) := []

/-- The fields of the struct. -/
inductive Field where
  | messageId
  | idempotencyKey
  | traceId
  | stage
  | documentId
  | tenantId
  | attempt
  | publishedAt
  | payload
  deriving DecidableEq, Repr

/-- The names in the struct's tags. -/
def fields : List (Str × Field) :=
  [(str "message_id", .messageId), (str "idempotency_key", .idempotencyKey),
    (str "trace_id", .traceId), (str "stage", .stage), (str "document_id", .documentId),
    (str "tenant_id", .tenantId), (str "attempt", .attempt), (str "published_at", .publishedAt),
    (str "payload", .payload)]

/-- The fold of a code point to the small letter it is equal to but for the case.
Besides the capitals two code points fold to ASCII letters: the long s and the
Kelvin sign. -/
def foldRune (r : Nat) : Nat :=
  if 0x41 ≤ r ∧ r ≤ 0x5A then r + 0x20
  else if r = 0x17F then 0x73
  else if r = 0x212A then 0x6B
  else r

/-- The field a key is for; keys are compared without their case. -/
def fieldOf (key : Str) : Option Field := fields.lookup (key.map foldRune)

/-- The number as an `int64` or an `int`. -/
def toInt64 (q : ℚ) (whole : Bool) : Option Int :=
  if whole = true ∧ -2 ^ 63 ≤ q.num ∧ q.num < 2 ^ 63 then some q.num else none

/-- One member of the object is stored.  A value that is not of the field's type is
an error; `null` leaves the field alone, and empties a map. -/
def setMember (env : RawEnvelope) (member : Str × Value) : Option RawEnvelope :=
  match fieldOf member.1, member.2 with
  | none, _ => some env
  | some .payload, .null => some { env with payload := [] }
  | some _, .null => some env
  | some .messageId, .string s => some { env with messageId := s }
  | some .idempotencyKey, .string s => some { env with idempotencyKey := s }
  | some .traceId, .string s => some { env with traceId := s }
  | some .stage, .string s => some { env with stage := s }
  | some .documentId, .number q whole _ =>
    (toInt64 q whole).map fun n => { env with documentId := n }
  | some .tenantId, .string s => some { env with tenantId := s }
  | some .attempt, .number q whole _ => (toInt64 q whole).map fun n => { env with attempt := n }
  | some .publishedAt, .string s => some { env with publishedAt := s }
  | some .payload, .object members =>
    if fitsAnyMembers members then some { env with payload := env.payload ++ members } else none
  | some _, _ => none

/-- `json.Unmarshal(body, &env)`; nothing when it returns an error. -/
def unmarshal : Option Value → Option RawEnvelope
  | some .null => some {}
  | some (.object members) => members.foldlM setMember {}
  | _ => none

/-! ## `handle` over any body -/

/-- How `handle` reads a body of type `B` as an envelope of type `E`. -/
structure Codec (B E : Type) where
  /-- `json.Unmarshal`. -/
  unmarshal : B → Option E
  /-- `env.Attempt`. -/
  attempt : E → Int
  /-- `env.Attempt = n`. -/
  setAttempt : Int → E → E

/-- The operations on one delivery.  Errors of the two publishes are logged, those
of the ack are dropped. -/
structure Channel (P : Type → Type) (E : Type) where
  /-- `publishDLQ`. -/
  publishDLQ : E → P Unit
  /-- `publishRetry`. -/
  publishRetry : E → P Unit
  /-- `d.Ack(false)`, of an invalid envelope for no outcome. -/
  ack : Option Outcome → P Unit

/-- `handle`. -/
def consume {P : Type → Type} [Monad P] {B E : Type} (maxRetries : Int) (codec : Codec B E)
    (channel : Channel P E) (process : E → P (Option GoError)) (body : B) : P Unit :=
  match codec.unmarshal body with
  | none => channel.ack none
  | some env => do
    let env := if codec.attempt env = 0 then codec.setAttempt 1 env else env
    match ← process env with
    | none => channel.ack (some .success)
    | some (.permanent _) => channel.ack (some .permanent)
    | some _ =>
      if codec.attempt env ≥ maxRetries then do
        channel.publishDLQ env
        channel.ack (some .deadLettered)
      else do
        channel.publishRetry (codec.setAttempt (codec.attempt env + 1) env)
        channel.ack (some .retried)

/-- The pipeline's own messages: the body is an envelope. -/
def envelopeCodec : Codec Envelope Envelope where
  unmarshal envelope := some envelope
  attempt := Envelope.attempt
  setAttempt n envelope := { envelope with attempt := n }

/-- The channel of a delivery of `d`. -/
def channel (d : Message) : Channel Program Envelope where
  publishDLQ env := do let _ ← publishDLQ env d
  publishRetry env := do let _ ← publishRetry env
  ack
    | some outcome => do let _ ← Prog.perform (.ack outcome)
    | none => pure ()

/-- A body of any kind. -/
def bodyCodec : Codec (Option Value) RawEnvelope where
  unmarshal := unmarshal
  attempt := RawEnvelope.attempt
  setAttempt n env := { env with attempt := n }

/-- **On the pipeline's own messages** this is the `handle` of the worker. -/
theorem handle_eq_consume (cfg : Config) (d : Message) :
    handle cfg d = consume cfg.maxRetries envelopeCodec (channel d) (process cfg) d.body := rfl

end DigitalCip.Chunker
