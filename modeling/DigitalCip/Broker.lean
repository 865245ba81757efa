import DigitalCip.Schema
import Mathlib.Data.List.Basic
import Mathlib.Logic.Function.Basic

/-!
# The broker

The exchanges, queues, bindings and dead-letter arguments of
`infra/rabbitmq/definitions.json`, and what RabbitMQ does with a publish, a
delivery, an ack, a nack, a lost connection and an expired TTL.

A message is in a queue as a `Copy`.  A copy keeps its `id` while the broker
moves it (delivery, requeue, dead-lettering); a publish makes a new copy.  Its
`origin` is the copy that the `ingest` exchange first accepted, so a retry copy
and a dead-letter copy have the origin of the delivery they were published for.
Ids and origins are bookkeeping: no worker can see them.
-/

namespace DigitalCip

/-- The three exchanges. -/
inductive Exchange where
  | ingest
  | retry
  | dlx
  deriving DecidableEq, Repr

/-- Which of a stage's three queues. -/
inductive Leg where
  | work
  | retry
  | dlq
  deriving DecidableEq, Repr

/-- The queue `ingest.<stage>`, `ingest.<stage>.retry` or `ingest.<stage>.dlq`. -/
structure Queue where
  stage : Stage
  leg : Leg
  deriving DecidableEq, Repr

/-- Routing keys are spelled like the queues. -/
abbrev RoutingKey := Queue

/-- The bindings: source exchange, routing key, destination queue. -/
def bindings : List (Exchange × RoutingKey × Queue) :=
  [(.ingest, ⟨.ocr, .work⟩, ⟨.ocr, .work⟩),
   (.retry, ⟨.ocr, .retry⟩, ⟨.ocr, .retry⟩),
   (.dlx, ⟨.ocr, .dlq⟩, ⟨.ocr, .dlq⟩),
   (.ingest, ⟨.chunk, .work⟩, ⟨.chunk, .work⟩),
   (.retry, ⟨.chunk, .retry⟩, ⟨.chunk, .retry⟩),
   (.dlx, ⟨.chunk, .dlq⟩, ⟨.chunk, .dlq⟩),
   (.ingest, ⟨.embed, .work⟩, ⟨.embed, .work⟩),
   (.retry, ⟨.embed, .retry⟩, ⟨.embed, .retry⟩),
   (.dlx, ⟨.embed, .dlq⟩, ⟨.embed, .dlq⟩)]

/-- `x-dead-letter-exchange` and `x-dead-letter-routing-key` of the queues that
have them. -/
def deadLetterArguments : List (Queue × Exchange × RoutingKey) :=
  [(⟨.ocr, .work⟩, .retry, ⟨.ocr, .retry⟩),
   (⟨.ocr, .retry⟩, .ingest, ⟨.ocr, .work⟩),
   (⟨.chunk, .work⟩, .retry, ⟨.chunk, .retry⟩),
   (⟨.chunk, .retry⟩, .ingest, ⟨.chunk, .work⟩),
   (⟨.embed, .work⟩, .retry, ⟨.embed, .retry⟩),
   (⟨.embed, .retry⟩, .ingest, ⟨.embed, .work⟩)]

/-- The queues an exchange routes a key to. -/
def route (exchange : Exchange) (key : RoutingKey) : List Queue :=
  (bindings.filter fun b => b.1 = exchange ∧ b.2.1 = key).map fun b => b.2.2

/-- The queues a message goes to when it is dead-lettered from `q`. -/
def deadLetterTargets (q : Queue) : List Queue :=
  (deadLetterArguments.filter fun a => a.1 = q).flatMap fun a => route a.2.1 a.2.2

@[simp] theorem route_ingest (S : Stage) : route .ingest ⟨S, .work⟩ = [⟨S, .work⟩] := by
  cases S <;> rfl

@[simp] theorem route_retry (S : Stage) : route .retry ⟨S, .retry⟩ = [⟨S, .retry⟩] := by
  cases S <;> rfl

@[simp] theorem route_dlx (S : Stage) : route .dlx ⟨S, .dlq⟩ = [⟨S, .dlq⟩] := by
  cases S <;> rfl

/-- The kind of queue an exchange routes to. -/
def Exchange.leg : Exchange → Leg
  | .ingest => .work
  | .retry => .retry
  | .dlx => .dlq

theorem leg_of_route {exchange : Exchange} {key : RoutingKey} {q : Queue}
    (h : q ∈ route exchange key) : q.leg = exchange.leg := by
  have hbindings : ∀ b ∈ bindings, b.2.2.leg = b.1.leg := by decide
  obtain ⟨b, hb, rfl⟩ := List.mem_map.mp h
  obtain ⟨hb, hp⟩ := List.mem_filter.mp hb
  rw [hbindings b hb, (of_decide_eq_true hp).1]

theorem eq_of_route {exchange : Exchange} {key : RoutingKey} {q : Queue}
    (h : q ∈ route exchange key) : key = q := by
  have hbindings : ∀ b ∈ bindings, b.2.1 = b.2.2 := by decide
  obtain ⟨b, hb, rfl⟩ := List.mem_map.mp h
  obtain ⟨hb, hp⟩ := List.mem_filter.mp hb
  rw [← hbindings b hb, (of_decide_eq_true hp).2]

/-- A rejected message goes to its stage's retry queue. -/
@[simp] theorem deadLetterTargets_work (S : Stage) :
    deadLetterTargets ⟨S, .work⟩ = [⟨S, .retry⟩] := by
  cases S <;> rfl

/-- A message whose TTL expires in the retry queue goes back to its stage's queue. -/
@[simp] theorem deadLetterTargets_retry (S : Stage) :
    deadLetterTargets ⟨S, .retry⟩ = [⟨S, .work⟩] := by
  cases S <;> rfl

/-- A copy of a message, in a queue or delivered. -/
structure Copy where
  id : Nat
  origin : Nat
  message : Message
  deriving DecidableEq, Repr

/-- A delivery of a copy from a queue.  It stays unsettled until it is acked or
rejected, or until the broker takes it back. -/
structure Delivery where
  copy : Copy
  queue : Queue
  unsettled : Bool
  deriving DecidableEq, Repr

/-- Why a consumer settles a delivery with an ack. -/
inductive Outcome where
  | success
  | permanent
  | retried
  | deadLettered
  deriving DecidableEq, Repr

/-- A message the `ingest` exchange accepted: the copy it became, and the
execution that published it. -/
structure Publication where
  copy : Nat
  publisher : Nat
  message : Message
  deriving DecidableEq, Repr

/-- The broker.  `deliveries` is keyed by handler execution.  `accepted` and
`settled` record what the `ingest` exchange accepted and what was acked. -/
structure Broker where
  queues : Queue → List Copy
  deliveries : Nat → Option Delivery
  nextCopy : Nat
  accepted : List Publication
  settled : List (Copy × Outcome)

namespace Broker

def empty : Broker where
  queues := fun _ => []
  deliveries := fun _ => none
  nextCopy := 0
  accepted := []
  settled := []

/-- The copy execution `i` was started for. -/
def handled (b : Broker) (i : Nat) : Option Copy := (b.deliveries i).map Delivery.copy

/-- Execution `i` holds an unsettled delivery of `copy`. -/
def Unsettled (b : Broker) (i : Nat) (copy : Copy) : Prop :=
  ∃ q, b.deliveries i = some ⟨copy, q, true⟩

/-- Put a copy at the end of a queue. -/
def push (b : Broker) (copy : Copy) (q : Queue) : Broker :=
  { b with queues := Function.update b.queues q (b.queues q ++ [copy]) }

/-- Put a new copy of a message at the end of a queue. -/
def enqueue (b : Broker) (origin : Nat) (message : Message) (q : Queue) : Broker :=
  { b.push ⟨b.nextCopy, origin, message⟩ q with nextCopy := b.nextCopy + 1 }

/-- Note what the `ingest` exchange accepts. -/
def log (b : Broker) (i : Nat) (exchange : Exchange) (message : Message) : Broker :=
  if exchange = .ingest then
    { b with accepted := b.accepted ++ [⟨b.nextCopy, i, message⟩] }
  else b

/-- The origin of a message that execution `i` publishes. -/
def originOf (b : Broker) (i : Nat) (exchange : Exchange) : Nat :=
  if exchange = .ingest then b.nextCopy
  else ((b.handled i).map Copy.origin).getD b.nextCopy

/-- An accepted publish by execution `i`. -/
def publish (b : Broker) (i : Nat) (exchange : Exchange) (key : RoutingKey) (message : Message) :
    Broker :=
  (route exchange key).foldl (fun b' q => b'.enqueue (b.originOf i exchange) message q)
    (b.log i exchange message)

/-- Execution `i` no longer holds its delivery. -/
def release (b : Broker) (i : Nat) : Broker :=
  { b with
    deliveries := Function.update b.deliveries i
      ((b.deliveries i).map fun d => { d with unsettled := false }) }

/-- `basic_ack`, on an unsettled delivery. -/
def ack (b : Broker) (i : Nat) (copy : Copy) (outcome : Outcome) : Broker :=
  { b.release i with settled := (copy, outcome) :: b.settled }

/-- The broker dead-letters a copy from a queue. -/
def deadLetter (b : Broker) (copy : Copy) (q : Queue) : Broker :=
  (deadLetterTargets q).foldl (fun b' q' => b'.push copy q') b

/-- `basic_nack` with `requeue=False`, on an unsettled delivery from `q`. -/
def nack (b : Broker) (i : Nat) (copy : Copy) (q : Queue) : Broker :=
  (b.release i).deadLetter copy q

/-- The broker takes an unsettled delivery back, because the connection it was
made on is gone. -/
def requeue (b : Broker) (i : Nat) (copy : Copy) (q : Queue) : Broker := (b.release i).push copy q

/-- Take the `n`-th copy out of a queue. -/
def remove (b : Broker) (q : Queue) (n : Nat) : Broker :=
  { b with queues := Function.update b.queues q ((b.queues q).eraseIdx n) }

/-- Deliver the `n`-th copy of `q`, which is `copy`, to execution `i`. -/
def deliver (b : Broker) (i : Nat) (q : Queue) (n : Nat) (copy : Copy) : Broker :=
  { b.remove q n with deliveries := Function.update b.deliveries i (some ⟨copy, q, true⟩) }

/-- The TTL of the `n`-th copy of `q`, which is `copy`, expires. -/
def expire (b : Broker) (q : Queue) (n : Nat) (copy : Copy) : Broker :=
  (b.remove q n).deadLetter copy q

/-! ## The topology at work -/

section Topology
variable (b : Broker)

theorem publish_ingest (i : Nat) (S : Stage) (m : Message) :
    b.publish i .ingest ⟨S, .work⟩ m =
      { b.enqueue b.nextCopy m ⟨S, .work⟩ with
        accepted := b.accepted ++ [⟨b.nextCopy, i, m⟩] } := by
  simp [publish, originOf, log, enqueue, push]

theorem publish_retry (i : Nat) (S : Stage) (m : Message) :
    b.publish i .retry ⟨S, .retry⟩ m = b.enqueue (b.originOf i .retry) m ⟨S, .retry⟩ := by
  simp [publish, log]

theorem publish_dlx (i : Nat) (S : Stage) (m : Message) :
    b.publish i .dlx ⟨S, .dlq⟩ m = b.enqueue (b.originOf i .dlx) m ⟨S, .dlq⟩ := by
  simp [publish, log]

theorem nack_work (i : Nat) (copy : Copy) (S : Stage) :
    b.nack i copy ⟨S, .work⟩ = (b.release i).push copy ⟨S, .retry⟩ := by
  simp [nack, deadLetter]

theorem expire_retry (S : Stage) (n : Nat) (copy : Copy) :
    b.expire ⟨S, .retry⟩ n copy = (b.remove ⟨S, .retry⟩ n).push copy ⟨S, .work⟩ := by
  simp [expire, deadLetter]

end Topology

end Broker
end DigitalCip
