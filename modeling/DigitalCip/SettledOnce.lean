import DigitalCip.Python.Delivery

/-!
# Settling a delivery once

`on_message` settles its delivery whatever the body is and whatever the handler
does, but for one clause, the one for `TransientError`, which no other clause guards.
It compares `attempt` with `MAX_RETRIES`, which raises if `attempt` is no number, and it
publishes, which raises if `pika` cannot encode the headers: they hold `attempt + 1`, which
may be a float or too large.  The exception leaves `on_message`, nothing is settled and
the worker ends (`settledOnce_iff`).
-/

namespace DigitalCip.Python

/-- `basic_ack` and `basic_nack`. -/
def ChannelCall.settles : ChannelCall → Bool
  | .ack | .nack => true
  | .publish .. => false

/-- A channel operation that succeeds. -/
def note (c : ChannelCall) (calls : List ChannelCall) : List ChannelCall := calls ++ [c]

section Settling
variable (encodes : Json → Bool) (maxRetries : Int) (S : Stage) (o : HandlerOutcome) (m : RawMessage)

/-- `on_message` for a delivery of `m` in which the handler does what `o` says, and the
channel operations it performs. -/
def settle : Except Exc Unit × List ChannelCall :=
  (delivery encodes maxRetries S note o m).run []

/-- `on_message` returns, and has acked or nacked exactly once. -/
def SettledOnce : Prop :=
  (settle encodes maxRetries S o m).1 = .ok () ∧
    (settle encodes maxRetries S o m).2.countP ChannelCall.settles = 1

end Settling

/-- The clause for `TransientError` can publish `envelope`: its `attempt` is a number, and
`pika` can encode the headers as they came, or for a retry with `attempt + 1` among them. -/
def Publishable (encodes : Json → Bool) (maxRetries : Int) (headers envelope : Dict) : Prop :=
  match envelope.attempt.ge maxRetries with
  | .error _ => False
  | .ok true => encodable encodes headers = true
  | .ok false =>
    encodable encodes (Dict.set (str "x-attempt") envelope.attempt.addOne headers) = true

section Delivery
variable {encodes : Json → Bool} {maxRetries : Int} {S : Stage} {m : RawMessage} {o : HandlerOutcome}

theorem headers_retry_bump (envelope : Dict) :
    (m.retry (bodyCodec.bump envelope)).headers =
      Dict.set (str "x-attempt") envelope.attempt.addOne m.headers := by
  unfold RawMessage.retry
  rw [attempt_bump]

/-- On a `TransientError` for a JSON object. -/
theorem settledOnce_transient {envelope : Dict} (h : bodyCodec.loads m.body = .ok envelope)
    {reason : String} (ho : o.raised = some (.transient reason)) :
    SettledOnce encodes maxRetries S o m ↔ Publishable encodes maxRetries m.headers envelope := by
  have hno : ∀ e, ¬ ((.error e, []) : Except Exc Unit × List ChannelCall).1 = .ok () :=
    fun e he => nomatch he
  unfold SettledOnce settle Publishable
  rw [delivery_readable h, ho]
  dsimp only
  rw [retry_run, headers_retry_bump]
  rcases envelope.attempt.ge maxRetries with e | ⟨_ | _⟩
  · exact iff_of_false (fun hs => hno _ hs.1) id
  · dsimp only
    split
    · exact iff_of_true ⟨rfl, rfl⟩ ‹_›
    · exact iff_of_false (fun hs => hno _ hs.1) ‹_›
  · dsimp only
    split
    · exact iff_of_true ⟨rfl, rfl⟩ ‹_›
    · exact iff_of_false (fun hs => hno _ hs.1) ‹_›

/-- On everything else. -/
theorem settledOnce_of_not_transient {envelope : Dict} (h : bodyCodec.loads m.body = .ok envelope)
    (ho : o.transient = false) : SettledOnce encodes maxRetries S o m := by
  unfold SettledOnce settle
  rw [delivery_readable h]
  unfold HandlerOutcome.transient at ho
  generalize o.raised = raised at ho ⊢
  rcases raised with _ | ⟨_ | _ | _⟩
  · exact ⟨rfl, rfl⟩
  · exact ⟨rfl, rfl⟩
  · cases ho
  · exact ⟨rfl, rfl⟩

end Delivery

/-- **A delivery is settled exactly once**, by an `on_message` that returns, unless the
handler raises `TransientError` for a JSON object that cannot be published. -/
theorem settledOnce_iff (encodes : Json → Bool) (maxRetries : Int) (S : Stage) (o : HandlerOutcome)
    (m : RawMessage) :
    SettledOnce encodes maxRetries S o m ↔ ¬ (o.transient = true ∧ ∃ envelope,
      bodyCodec.loads m.body = .ok envelope ∧
        ¬ Publishable encodes maxRetries m.headers envelope) := by
  cases hread : bodyCodec.loads m.body with
  | error e =>
    have hsettled : SettledOnce encodes maxRetries S o m := by
      unfold SettledOnce settle
      rw [delivery_unreadable hread]
      exact ⟨rfl, rfl⟩
    exact iff_of_true hsettled fun ⟨_, _, h, _⟩ => nomatch h
  | ok envelope =>
    cases ho : o.transient with
    | false =>
      exact iff_of_true (settledOnce_of_not_transient hread ho) fun h => nomatch h.1
    | true =>
      obtain ⟨reason, hraised⟩ : ∃ reason, o.raised = some (.transient reason) := by
        unfold HandlerOutcome.transient at ho
        split at ho
        · exact ⟨_, ‹_›⟩
        · cases ho
      rw [settledOnce_transient hread hraised]
      constructor
      · rintro h ⟨-, envelope', he, hno⟩
        obtain rfl := Except.ok.inj he
        exact hno h
      · intro h
        by_contra hno
        exact h ⟨rfl, envelope, rfl, hno⟩

/-- An OCR message whose `attempt` is a string. -/
def stringAttempt : RawMessage where
  body := some (.dict
    [(str "message_id", .str (str "m")), (str "document_id", .int 1), (str "attempt", .str (str "1"))])
  messageId := some (str "m")
  headers := []

/-- **One `TransientError` for it ends the worker**, and the delivery is not settled. -/
theorem not_settledOnce : ¬ ∀ (encodes : Json → Bool) (maxRetries : Int) (S : Stage)
    (o : HandlerOutcome) (m : RawMessage), SettledOnce encodes maxRetries S o m := by
  intro hall
  exact nomatch (hall (fun _ => true) 5 .ocr (.error (.transient "s3")) stringAttempt).1

end DigitalCip.Python
