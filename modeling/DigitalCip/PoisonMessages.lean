import DigitalCip.Python.Delivery
import Mathlib.Order.Lattice

/-!
# Poison messages

The retry budget of a message is the `attempt` in its body, and `on_message`
touches it in the clause for `TransientError` only.  Every other exception is
answered by a nack, which sends the message through the retry queue as it is, and
so is a body that is no JSON object; such a message comes back for ever
(`not_poison_bounded`).  `poison_bounded` says exactly which bodies and which
outcomes of the handler stay within `max(1, MAX_RETRIES)` deliveries.

A message is followed from delivery to delivery.  The worker lives and the broker
takes every publish, ack and nack, so where the message is next depends only on
the outcomes of its handler (`afterwards_cases`).
-/

namespace DigitalCip.Python

/-- One delivery: the copies of its message that the broker keeps, and whether it
still has to be settled. -/
structure Relay where
  resting : List (Queue × RawMessage)
  unsettled : Bool

namespace Relay

/-- An accepted publish. -/
def publish (exchange : Exchange) (key : RoutingKey) (m : RawMessage) (r : Relay) : Relay :=
  { r with resting := r.resting ++ (route exchange key).map fun q => (q, m) }

def ack (r : Relay) : Relay := { r with unsettled := false }

/-- A nack with `requeue=False` of `m` from `q`. -/
def nack (q : Queue) (m : RawMessage) (r : Relay) : Relay where
  resting := r.resting ++ (deadLetterTargets q).map fun q' => (q', m)
  unsettled := false

/-- The broker takes every operation on a delivery of `m`. -/
def perform (S : Stage) (m : RawMessage) : ChannelCall → Relay → Relay
  | .publish exchange key m' => publish exchange key m'
  | .ack => ack
  | .nack => nack ⟨S, .work⟩ m

end Relay

section Deliveries
variable (encodes : Json → Bool) (maxRetries : Int) (S : Stage)

/-- What `on_message` leaves of a delivery of `m` in which the handler does what `o` says. -/
def deliver (o : HandlerOutcome) (m : RawMessage) : Except Exc Unit × Relay :=
  (delivery encodes maxRetries S (Relay.perform S m) o m).run ⟨[], true⟩

/-- What has become of a message: it is in its queue again, it is over with, or an
exception has left `on_message` and ended the worker. -/
inductive Fate where
  | waiting (m : RawMessage)
  | over (r : Relay)
  | escaped

/-- A copy whose TTL expires, if it is in a retry queue. -/
def expire (rest : Queue × RawMessage) : List (Queue × RawMessage) :=
  if rest.1.leg = .retry then (deadLetterTargets rest.1).map fun q => (q, rest.2) else [rest]

/-- Where the message is after a delivery and the TTL of the retry queue. -/
def afterwards : Except Exc Unit × Relay → Fate
  | (.error _, _) => .escaped
  | (.ok _, r) =>
    match (r.resting.flatMap expire).find? fun rest => rest.1 = ⟨S, .work⟩ with
    | some rest => .waiting rest.2
    | none => .over r

/-- What has become of `m` after `n` deliveries. -/
def life (outcomes : Nat → HandlerOutcome) (m : RawMessage) : Nat → Fate
  | 0 => .waiting m
  | n + 1 =>
    match life outcomes m n with
    | .waiting m' => afterwards S (deliver encodes maxRetries S (outcomes n) m')
    | fate => fate

/-- The message has been acked for good, or rests in the dead-letter queue. -/
def Fate.Over : Fate → Prop
  | .over r => r.unsettled = false ∧ ∀ rest ∈ r.resting, rest.1 = ⟨S, .dlq⟩
  | _ => False

/-- The message is over with after at most `max(1, MAX_RETRIES)` deliveries. -/
def Bounded (outcomes : Nat → HandlerOutcome) (m : RawMessage) : Prop :=
  ∃ n ≤ (max 1 maxRetries).toNat, (life encodes maxRetries S outcomes m n).Over S

end Deliveries

/-! ## One delivery -/

/-- The outcomes that end a message: nothing is raised, or a `PermanentError`, or a
`TransientError` when the attempts are used up. -/
def Ends (maxRetries : Int) (envelope : Dict) (o : HandlerOutcome) : Prop :=
  match o.raised with
  | none | some (.permanent _) => True
  | some (.transient _) => envelope.attempt.ge maxRetries = .ok true
  | some (.other _) => False

section Delivery
variable {encodes : Json → Bool} {maxRetries : Int} {S : Stage} {m : RawMessage} {o : HandlerOutcome}

/-- A message whose body is no JSON object is rejected. -/
theorem afterwards_of_unreadable {e : Exc} (h : bodyCodec.loads m.body = .error e) :
    afterwards S (deliver encodes maxRetries S o m) = .waiting m := by
  unfold deliver
  rw [delivery_unreadable h]
  simp [afterwards, Relay.perform, Relay.nack, expire]

/-- **One delivery of a readable message** kills the worker, ends the message, or sends it
round once more, with its attempt raised after a `TransientError`. -/
theorem afterwards_cases {envelope : Dict} (h : bodyCodec.loads m.body = .ok envelope) :
    afterwards S (deliver encodes maxRetries S o m) = .escaped ∨
      (Ends maxRetries envelope o ∧
        (afterwards S (deliver encodes maxRetries S o m)).Over S) ∨
      ¬ Ends maxRetries envelope o ∧
        ∃ m', afterwards S (deliver encodes maxRetries S o m) = .waiting m' ∧
          bodyCodec.loads m'.body =
            .ok (if o.transient then bodyCodec.bump envelope else envelope) := by
  unfold deliver
  rw [delivery_readable h]
  unfold Ends HandlerOutcome.transient
  rcases o.raised with _ | ⟨_ | _ | _⟩
  · exact Or.inr (Or.inl ⟨trivial, rfl, fun rest hrest => nomatch hrest⟩)
  · exact Or.inr (Or.inl ⟨trivial, rfl, fun rest hrest => nomatch hrest⟩)
  · dsimp only
    rw [retry_run]
    rcases envelope.attempt.ge maxRetries with e | ⟨_ | _⟩
    · exact Or.inl rfl
    · dsimp only
      split
      · refine Or.inr (Or.inr ⟨by simp, m.retry (bodyCodec.bump envelope), ?_, rfl⟩)
        simp [afterwards, Relay.perform, Relay.publish, Relay.ack, expire]
      · exact Or.inl rfl
    · dsimp only
      split
      · refine Or.inr (Or.inl ⟨rfl, ?_⟩)
        simp [afterwards, Relay.perform, Relay.publish, Relay.ack, expire, Fate.Over]
      · exact Or.inl rfl
  · refine Or.inr (Or.inr ⟨id, m, ?_, h⟩)
    simp [afterwards, Relay.perform, Relay.nack, expire]

end Delivery

/-! ## One delivery after the other -/

section Lives
variable {encodes : Json → Bool} {maxRetries : Int} {S : Stage} {m : RawMessage}
  {outcomes : Nat → HandlerOutcome}

/-- A message whose body is no JSON object is delivered again and again. -/
theorem life_of_unreadable {e : Exc} (h : bodyCodec.loads m.body = .error e) (n : Nat) :
    life encodes maxRetries S outcomes m n = .waiting m := by
  induction n with
  | zero => rfl
  | succ n ih =>
    unfold life
    rw [ih]
    exact afterwards_of_unreadable h

/-- The `TransientError`s among the first `n` outcomes. -/
def transients (outcomes : Nat → HandlerOutcome) : Nat → Nat
  | 0 => 0
  | n + 1 => transients outcomes n + if (outcomes n).transient then 1 else 0

/-- The envelope of the `n`-th delivery. -/
def envelopeAt (outcomes : Nat → HandlerOutcome) (envelope : Dict) (n : Nat) : Dict :=
  bodyCodec.bump^[transients outcomes n] envelope

theorem envelopeAt_succ (outcomes : Nat → HandlerOutcome) (envelope : Dict) (n : Nat) :
    envelopeAt outcomes envelope (n + 1) =
      if (outcomes n).transient then bodyCodec.bump (envelopeAt outcomes envelope n)
      else envelopeAt outcomes envelope n := by
  unfold envelopeAt
  by_cases h : (outcomes n).transient = true
  · simp only [transients, h, if_true, Function.iterate_succ_apply']
  · simp only [transients, h, Bool.false_eq_true, if_false, Nat.add_zero]

/-- As long as no outcome has ended it, a readable message is in its queue. -/
theorem life_waiting {envelope : Dict} (h : bodyCodec.loads m.body = .ok envelope) (n : Nat)
    (hlives : ∀ k ≤ n, life encodes maxRetries S outcomes m k ≠ .escaped)
    (hends : ∀ k < n, ¬ Ends maxRetries (envelopeAt outcomes envelope k) (outcomes k)) :
    ∃ m', life encodes maxRetries S outcomes m n = .waiting m' ∧
      bodyCodec.loads m'.body = .ok (envelopeAt outcomes envelope n) := by
  induction n with
  | zero => exact ⟨m, rfl, h⟩
  | succ n ih =>
    obtain ⟨m₁, hm₁, hread⟩ := ih (fun k hk => hlives k (by omega)) fun k hk => hends k (by omega)
    have hnext : life encodes maxRetries S outcomes m (n + 1) =
        afterwards S (deliver encodes maxRetries S (outcomes n) m₁) := by
      rw [life, hm₁]
    rw [envelopeAt_succ]
    rcases @afterwards_cases encodes maxRetries S m₁ (outcomes n) _ hread with
      hescaped | ⟨hend, -⟩ | ⟨-, m₂, hm₂, hread₂⟩
    · exact absurd (hnext.trans hescaped) (hlives (n + 1) (le_refl _))
    · exact absurd hend (hends n (Nat.lt_succ_self n))
    · exact ⟨m₂, hnext.trans hm₂, hread₂⟩

/-- The delivery whose outcome ends a message is its last one. -/
theorem life_over {envelope : Dict} (h : bodyCodec.loads m.body = .ok envelope) {n : Nat}
    (hlives : ∀ k ≤ n + 1, life encodes maxRetries S outcomes m k ≠ .escaped)
    (hbefore : ∀ k < n, ¬ Ends maxRetries (envelopeAt outcomes envelope k) (outcomes k))
    (hend : Ends maxRetries (envelopeAt outcomes envelope n) (outcomes n)) :
    (life encodes maxRetries S outcomes m (n + 1)).Over S := by
  obtain ⟨m', hm', hread⟩ := life_waiting h n (fun k hk => hlives k (by omega)) hbefore
  have hnext : life encodes maxRetries S outcomes m (n + 1) =
      afterwards S (deliver encodes maxRetries S (outcomes n) m') := by
    rw [life, hm']
  rcases @afterwards_cases encodes maxRetries S m' (outcomes n) _ hread with
    hescaped | ⟨-, hover⟩ | ⟨hno, -⟩
  · exact absurd (hnext.trans hescaped) (hlives (n + 1) (le_refl _))
  · exact hnext ▸ hover
  · exact absurd hend hno

/-- Some outcome among the first `max(1, MAX_RETRIES)` ends the message, whose body
is a JSON object. -/
def Tolerable (maxRetries : Int) (outcomes : Nat → HandlerOutcome) (body : Body) : Prop :=
  ∃ envelope, bodyCodec.loads body = .ok envelope ∧
    ∃ n < (max 1 maxRetries).toNat, Ends maxRetries (envelopeAt outcomes envelope n) (outcomes n)

theorem bounded_of_tolerable (hlives : ∀ n, life encodes maxRetries S outcomes m n ≠ .escaped)
    (h : Tolerable maxRetries outcomes m.body) : Bounded encodes maxRetries S outcomes m := by
  obtain ⟨envelope, hread, hex⟩ := h
  -- the first outcome that ends the message
  classical
  have hspec := Nat.find_spec hex
  have hfirst : ∀ k < Nat.find hex,
      ¬ Ends maxRetries (envelopeAt outcomes envelope k) (outcomes k) := by
    intro k hk hend
    have hk' : k < (max 1 maxRetries).toNat := by omega
    exact Nat.find_min hex hk ⟨hk', hend⟩
  exact ⟨Nat.find hex + 1, hspec.1, life_over hread (fun k _ => hlives k) hfirst hspec.2⟩

theorem tolerable_of_bounded (hlives : ∀ n, life encodes maxRetries S outcomes m n ≠ .escaped)
    (h : Bounded encodes maxRetries S outcomes m) : Tolerable maxRetries outcomes m.body := by
  obtain ⟨n, hn, hover⟩ := h
  cases hread : bodyCodec.loads m.body with
  | error e =>
    rw [life_of_unreadable hread] at hover
    exact hover.elim
  | ok envelope =>
    refine ⟨envelope, hread, ?_⟩
    by_contra hno
    have hends : ∀ k < n, ¬ Ends maxRetries (envelopeAt outcomes envelope k) (outcomes k) :=
      fun k hk hend => hno ⟨k, by omega, hend⟩
    obtain ⟨m', hm', -⟩ := life_waiting hread n (fun k _ => hlives k) hends
    rw [hm'] at hover
    exact hover.elim

/-- **A message is delivered at most `max(1, MAX_RETRIES)` times** exactly if its
body is a JSON object and one of that many outcomes ends it. -/
theorem poison_bounded (hlives : ∀ n, life encodes maxRetries S outcomes m n ≠ .escaped) :
    Bounded encodes maxRetries S outcomes m ↔ Tolerable maxRetries outcomes m.body :=
  ⟨tolerable_of_bounded hlives, bounded_of_tolerable hlives⟩

/-- Without exceptions that are neither `PermanentError` nor `TransientError` the
pipeline's own messages stay within the bound. -/
theorem bounded_of_classified {envelope : Dict} (hread : bodyCodec.loads m.body = .ok envelope)
    (hattempt : envelope.attempt = .int 1)
    (hlives : ∀ n, life encodes maxRetries S outcomes m n ≠ .escaped)
    (hclassified : ∀ n < (max 1 maxRetries).toNat, ∀ reason,
      (outcomes n).raised ≠ some (.other reason)) :
    Bounded encodes maxRetries S outcomes m := by
  refine bounded_of_tolerable hlives ⟨envelope, hread, ?_⟩
  by_contra hno
  have htransient : ∀ n < (max 1 maxRetries).toNat, (outcomes n).transient = true := by
    intro n hn
    have hends : ¬ Ends maxRetries (envelopeAt outcomes envelope n) (outcomes n) :=
      fun h => hno ⟨n, hn, h⟩
    have hother := hclassified n hn
    unfold Ends at hends
    unfold HandlerOutcome.transient
    generalize (outcomes n).raised = raised at hends hother
    rcases raised with _ | ⟨_ | _ | reason⟩
    · exact absurd trivial hends
    · exact absurd trivial hends
    · rfl
    · exact absurd rfl (hother reason)
  have hcount : ∀ n ≤ (max 1 maxRetries).toNat, transients outcomes n = n := by
    intro n
    induction n with
    | zero => exact fun _ => rfl
    | succ n ih =>
      intro hn
      rw [transients, htransient n (by omega), ih (by omega)]
      rfl
  -- the last of these outcomes finds the attempts used up
  obtain ⟨n, hn⟩ : ∃ n, (max 1 maxRetries).toNat = n + 1 := ⟨(max 1 maxRetries).toNat - 1, by omega⟩
  refine hno ⟨n, by omega, ?_⟩
  have hraised := htransient n (by omega)
  unfold HandlerOutcome.transient at hraised
  unfold Ends
  split at hraised
  · rename_i hr
    rw [hr]
    show (envelopeAt outcomes envelope n).attempt.ge maxRetries = .ok true
    unfold envelopeAt
    rw [hcount n (by omega), attempt_iterate_bump hattempt]
    show Except.ok (decide (1 + (n : Int) ≥ maxRetries)) = .ok true
    rw [decide_eq_true (by omega)]
  · cases hraised

end Lives

/-- A message of the pipeline, as it is first published. -/
def pipelineMessage : RawMessage where
  body := some (.dict
    [(str "message_id", .str (str "m")), (str "document_id", .int 1), (str "attempt", .int 1)])
  messageId := some (str "m")
  headers := [(str "x-attempt", .int 1)]

/-- The object store fails for now, then the database fails, then all goes well. -/
def recovers : Nat → HandlerOutcome
  | 0 => .error (.transient "s3")
  | 1 => .error (.other "OperationalError")
  | _ => .ok none

/-- With three attempts that is in time. -/
theorem poison_bounded_sample :
    (∀ n, life (fun _ => true) 3 .ocr recovers pipelineMessage n ≠ .escaped) ∧
      Bounded (fun _ => true) 3 .ocr recovers pipelineMessage := by
  have hlives : ∀ n, life (fun _ => true) 3 .ocr recovers pipelineMessage n ≠ .escaped := by
    have hover : ∀ n, life (fun _ => true) 3 .ocr recovers pipelineMessage (n + 3) =
        .over ⟨[], false⟩ := by
      intro n
      induction n with
      | zero => rfl
      | succ n ih =>
        rw [life, ih]
    intro n
    match n with
    | 0 | 1 | 2 => exact fun h => nomatch h
    | n + 3 =>
      rw [hover n]
      exact fun h => nomatch h
  exact ⟨hlives, (poison_bounded hlives).mpr ⟨_, rfl, 2, by decide, trivial⟩⟩

/-- **A body that is no JSON comes back for ever.** -/
theorem not_poison_bounded : ¬ ∀ (encodes : Json → Bool) (maxRetries : Int) (S : Stage)
    (outcomes : Nat → HandlerOutcome) (m : RawMessage),
    (∀ n, life encodes maxRetries S outcomes m n ≠ .escaped) →
      Bounded encodes maxRetries S outcomes m := by
  intro hall
  have hwaits : ∀ n, life (fun _ => true) 5 .ocr (fun _ => .ok none) ⟨none, none, []⟩ n =
      .waiting ⟨none, none, []⟩ := fun n => life_of_unreadable rfl n
  obtain ⟨n, -, hover⟩ := hall (fun _ => true) 5 .ocr (fun _ => .ok none) ⟨none, none, []⟩
    fun n he => by
      rw [hwaits n] at he
      cases he
  rw [hwaits n] at hover
  exact hover

end DigitalCip.Python
