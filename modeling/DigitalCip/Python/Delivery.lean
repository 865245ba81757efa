import DigitalCip.Broker
import DigitalCip.Python.Json

/-!
# One delivery to a Python consumer

`on_message` for any message, whatever its handler does.  The connection is up, so a
channel operation raises only before anything is sent: `pika` has to encode the headers
of what is published, and raises if it cannot.  What an operation does to the state is a
parameter: the broker may be followed, or what has been asked of it (`delivery_readable`,
`retry_run`).
-/

namespace DigitalCip.Python

/-- A message as the broker keeps it, with the properties the consumer reads. -/
structure RawMessage where
  body : Body
  messageId : Option Str
  headers : Dict

/-- What the clause for `TransientError` publishes for `m`. -/
def RawMessage.retry (m : RawMessage) (envelope : Dict) : RawMessage where
  body := some (.dict envelope)
  messageId := m.messageId
  headers := Dict.set (str "x-attempt") envelope.attempt m.headers

/-- What comes of `handler` and `publish_next` in one delivery: `handler` raises,
or returns nothing, or returns a payload, for which `publish_next` may raise. -/
abbrev HandlerOutcome := Except Exc (Option (Except Exc Unit))

/-- The exception that leaves them, if any. -/
def HandlerOutcome.raised : HandlerOutcome → Option Exc
  | .error e | .ok (some (.error e)) => some e
  | .ok none | .ok (some (.ok ())) => none

/-- The outcome is a `TransientError`. -/
def HandlerOutcome.transient (o : HandlerOutcome) : Bool :=
  match o.raised with
  | some (.transient _) => true
  | _ => false

/-- A channel operation of `on_message`. -/
inductive ChannelCall where
  | publish (exchange : Exchange) (key : RoutingKey) (m : RawMessage)
  | ack
  | nack

section Delivery
variable {σ : Type} (encodes : Json → Bool) (maxRetries : Int) (S : Stage)
  (perform : ChannelCall → σ → σ)

/-- `pika` can write the headers. -/
def encodable (headers : Dict) : Bool := headers.all fun header => encodes header.2

/-- `basic_publish`.  `encodes` says which values `pika` can write into a header; it raises on
the others. -/
def basicPublish (exchange : Exchange) (key : RoutingKey) (m : RawMessage) :
    ExceptT Exc (StateM σ) Unit :=
  if encodable encodes m.headers then modify (perform (.publish exchange key m))
  else throw (.other "UnsupportedAMQPFieldException")

/-- The channel of a delivery of `m`. -/
def rawChannel (m : RawMessage) : Channel (ExceptT Exc (StateM σ)) Dict where
  publishDlq := basicPublish encodes perform .dlx ⟨S, .dlq⟩ m
  publishRetry envelope := basicPublish encodes perform .retry ⟨S, .retry⟩ (m.retry envelope)
  ack _ := modify (perform .ack)
  nack := modify (perform .nack)

/-- `on_message`, for a delivery of `m` in which the handler does what `o` says. -/
def delivery (o : HandlerOutcome) (m : RawMessage) : StateM σ (Except Exc Unit) :=
  (onMessage (P := ExceptT Exc (StateM σ)) maxRetries bodyCodec (rawChannel encodes S perform m)
    (fun _ => ofExcept o) (fun _ next => ofExcept next) m.body).run

end Delivery

section Delivery
variable {σ : Type} {encodes : Json → Bool} {maxRetries : Int} {S : Stage}
  {perform : ChannelCall → σ → σ} {o : HandlerOutcome} {m : RawMessage} {s : σ}

/-- A body that is no JSON object is nacked. -/
theorem delivery_unreadable {e : Exc} (h : bodyCodec.loads m.body = .error e) :
    (delivery encodes maxRetries S perform o m).run s = (.ok (), perform .nack s) := by
  unfold delivery onMessage
  rw [h]
  rfl

theorem basicPublish_run {exchange : Exchange} {key : RoutingKey} (next : ChannelCall) :
    ((basicPublish encodes perform exchange key m >>= fun _ =>
        (modify (perform next) : ExceptT Exc (StateM σ) Unit)).run).run s =
      if encodable encodes m.headers then
        (.ok (), perform next (perform (.publish exchange key m) s))
      else (.error (.other "UnsupportedAMQPFieldException"), s) := by
  unfold basicPublish
  split <;> rfl

/-- **The clause for `TransientError`.**  Nothing guards what it does. -/
theorem retry_run (envelope : Dict) :
    (retry (P := ExceptT Exc (StateM σ)) maxRetries bodyCodec (rawChannel encodes S perform m)
        envelope).run.run s =
      match envelope.attempt.ge maxRetries with
      | .error e => (.error e, s)
      | .ok true =>
        if encodable encodes m.headers then
          (.ok (), perform .ack (perform (.publish .dlx ⟨S, .dlq⟩ m) s))
        else (.error (.other "UnsupportedAMQPFieldException"), s)
      | .ok false =>
        if encodable encodes (m.retry (bodyCodec.bump envelope)).headers then
          (.ok (), perform .ack
            (perform (.publish .retry ⟨S, .retry⟩ (m.retry (bodyCodec.bump envelope))) s))
        else (.error (.other "UnsupportedAMQPFieldException"), s) := by
  have hexhausted : bodyCodec.exhausted maxRetries envelope = envelope.attempt.ge maxRetries := rfl
  unfold retry
  rw [hexhausted]
  rcases envelope.attempt.ge maxRetries with e | ⟨_ | _⟩
  · rfl
  · exact basicPublish_run .ack
  · exact basicPublish_run .ack

/-- **What is done for a JSON object**, by the exception that is caught. -/
theorem delivery_readable {envelope : Dict} (h : bodyCodec.loads m.body = .ok envelope) :
    (delivery encodes maxRetries S perform o m).run s =
      match o.raised with
      | none | some (.permanent _) => (.ok (), perform .ack s)
      | some (.transient _) =>
        (retry (P := ExceptT Exc (StateM σ)) maxRetries bodyCodec (rawChannel encodes S perform m)
          envelope).run.run s
      | some (.other _) => (.ok (), perform .nack s) := by
  unfold delivery onMessage
  rw [h]
  match o with
  | .error (.permanent _) | .error (.transient _) | .error (.other _) => rfl
  | .ok none | .ok (some (.ok ())) => rfl
  | .ok (some (.error (.permanent _))) | .ok (some (.error (.transient _)))
  | .ok (some (.error (.other _))) => rfl

end Delivery
end DigitalCip.Python
