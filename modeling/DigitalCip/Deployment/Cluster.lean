import DigitalCip.System

/-!
# The processes of the deployment

`run_consumer` of the two Python workers, and `amqp.Dial` and `worker.Run` of the chunker:
how a worker process connects, what its channel is sent, when it starts a handler, and
what becomes of all that when it is stopped, when it dies, or when its connection is lost.

A worker prefetches: the broker pushes deliveries until the limit of `basic_qos`, and the
process works through them one at a time, in a single thread.  The number of a delivery is
the number of the execution that is started for it.  When a connection is gone the broker
takes back whatever it has pushed on it, but the process works on for a while: it may be
in the middle of a handler, and it may still start one for a delivery in its buffer.  A
Python worker then connects again; the chunker gives up and is restarted.
-/

namespace DigitalCip.Deployment
open Resumable

/-- How it stands with the connection of a worker process. -/
inductive Link where
  /-- The process does not run. -/
  | down
  /-- `_connect` or `Dial`, after so many failed attempts. -/
  | connecting (attempts : Nat)
  /-- `start_consuming`, or the loop of `Run`. -/
  | consuming
  /-- `stop` has cancelled the consumer. -/
  | stopping
  /-- The connection is gone. -/
  | lost
  deriving DecidableEq, Repr

/-- A worker process: what the broker has pushed on its connection, the deliveries that
are still in its buffer, and the handler it runs. -/
structure Worker where
  link : Link
  pushed : List Nat
  buffer : List Nat
  running : Option (Nat × Program Unit)

/-- A process with nothing in hand. -/
def Worker.fresh (link : Link) : Worker := ⟨link, [], [], none⟩

/-- The deliveries that a process has in hand: the one it handles, and those in its buffer. -/
def Worker.inHand (x : Worker) : List Nat := (x.running.map Prod.fst).toList ++ x.buffer

/-- The shared world, the requests to the API, and the worker processes.  `next` is the
number of the next execution. -/
structure Cluster where
  world : World
  requests : Nat → Option (Program Unit)
  workers : Nat → Worker
  next : Nat

/-- Which process is a worker of which stage, and `WORKER_CONCURRENCY`, which is the
prefetch count. -/
structure Plan where
  stage : Nat → Stage
  prefetch : Nat → Nat

/-- How often `_connect` and `Dial` try. -/
def connectAttempts : Stage → Nat
  | .ocr | .embed => 20
  | .chunk => 30

/-- What happens next; workers are named by their numbers. -/
inductive Event where
  | upload (upload : Option Api.Upload) (title : Option Text) (tenantId : Text)
  | retryRequest (documentId : DocId)
  | serve (i : Nat) (a : Answer)
  | abort (i : Nat)
  | boot (n : Nat)
  | dial (n : Nat) (answered : Bool)
  | push (n : Nat) (k : Nat)
  | dispatch (n : Nat)
  | call (n : Nat) (a : Answer)
  | finish (n : Nat)
  | lose (n : Nat)
  | reconnect (n : Nat)
  | stop (n : Nat)
  | exit (n : Nat)
  | expire (stage : Stage) (k : Nat)

namespace Cluster

/-- Nothing runs. -/
def init : Cluster where
  world := .empty
  requests := fun _ => none
  workers := fun _ => .fresh .down
  next := 0

/-- Process `n` becomes `x`. -/
def setWorker (c : Cluster) (n : Nat) (x : Worker) : Cluster :=
  { c with workers := Function.update c.workers n x }

/-- A new request. -/
def accept (c : Cluster) (p : Program Unit) : Cluster :=
  { c with requests := Function.update c.requests c.next (some p), next := c.next + 1 }

/-- Whether an execution holds an unsettled delivery. -/
def holds (c : Cluster) (i : Nat) : Bool := (c.world.broker.deliveries i).any Delivery.unsettled

/-- How many deliveries on the connection of a process are unsettled. -/
def unsettled (c : Cluster) (n : Nat) : Nat := (c.workers n).pushed.countP c.holds

end Cluster

/-- The broker takes these deliveries back. -/
def takeBackAll (w : World) (is : List Nat) : World := is.foldl World.takeBack w

/-- A call that goes over the channel. -/
def overChannel : Call → Bool
  | .publish _ _ _ | .ack _ | .nack => true
  | _ => false

/-- What a call can be answered; on a lost connection the channel gives errors only. -/
def Link.admits (link : Link) (c : Call) : Answer → Bool
  | .fail _ => true
  | _ => link ≠ .lost || !overChannel c

/-- Whether `on_message` has raised, or is not running. -/
def Worker.raised (x : Worker) : Bool :=
  match x.running with
  | none | some (_, .raise _) => true
  | _ => false

open Cluster in
/-- One step. -/
def step (cfg : Config) (plan : Plan) (c : Cluster) : Event → Option Cluster
  | .upload upload title tenantId =>
    some (c.accept (do let _ ← Api.createDocument cfg upload title tenantId; return ()))
  | .retryRequest documentId => some (c.accept (do let _ ← Api.retryAction documentId; return ()))
  | .serve i a =>
    match c.requests i with
    | some (.call q k) => (exec i q a c.world).map fun r =>
        { c with world := r.2, requests := Function.update c.requests i (some (k r.1)) }
    | _ => none
  -- the API process dies in the middle of the request
  | .abort i =>
    if (c.requests i).isSome then some { c with requests := Function.update c.requests i none }
    else none
  | .boot n =>
    if (c.workers n).link = .down then some (c.setWorker n (.fresh (.connecting 0)))
    else none
  | .dial n answered =>
    match (c.workers n).link with
    | .connecting attempts =>
      if answered then some (c.setWorker n (.fresh .consuming))
      else if attempts + 1 < connectAttempts (plan.stage n) then
        some (c.setWorker n (.fresh (.connecting (attempts + 1))))
      else some (c.setWorker n (.fresh .down))
    | _ => none
  -- a prefetch count of 0 is no limit
  | .push n k =>
    if (c.workers n).link = .consuming ∧ (plan.prefetch n = 0 ∨ c.unsettled n < plan.prefetch n) then
      ((c.world.broker.queues ⟨plan.stage n, .work⟩)[k]?).map fun copy =>
        { c with
          world := { c.world with
            broker := c.world.broker.deliver c.next ⟨plan.stage n, .work⟩ k copy }
          workers := Function.update c.workers n
            { c.workers n with
              pushed := (c.workers n).pushed ++ [c.next], buffer := (c.workers n).buffer ++ [c.next] }
          next := c.next + 1 }
    else none
  | .dispatch n =>
    match (c.workers n).link, (c.workers n).buffer, (c.workers n).running with
    | .consuming, i :: rest, none | .lost, i :: rest, none =>
      (c.world.broker.handled i).map fun copy =>
        c.setWorker n { c.workers n with
          buffer := rest, running := some (i, consumer cfg (plan.stage n) copy.message) }
    | _, _, _ => none
  | .call n a =>
    match (c.workers n).running with
    | some (i, .call q k) =>
      if (c.workers n).link.admits q a then
        (exec i q a c.world).map fun r =>
          { c with world := r.2 }.setWorker n { c.workers n with running := some (i, k r.1) }
      else none
    | _ => none
  | .finish n =>
    match (c.workers n).running with
    | some (_, .ret _) => some (c.setWorker n { c.workers n with running := none })
    | _ => none
  | .lose n =>
    if (c.workers n).link = .consuming ∨ (c.workers n).link = .stopping then
      some ({ c with world := takeBackAll c.world (c.workers n).pushed }.setWorker n
        { c.workers n with link := .lost, pushed := [] })
    else none
  -- `except AMQPConnectionError`
  | .reconnect n =>
    if (c.workers n).link = .lost ∧ plan.stage n ≠ .chunk ∧ (c.workers n).raised then
      some (c.setWorker n (.fresh (.connecting 0)))
    else none
  -- `stop_consuming` rejects what is in the buffer, and the broker requeues it
  | .stop n =>
    if (c.workers n).link = .consuming ∧ plan.stage n ≠ .chunk then
      some ({ c with world := takeBackAll c.world (c.workers n).buffer }.setWorker n
        { c.workers n with link := .stopping, buffer := [] })
    else none
  -- the process ends: it returns, it is killed, or an exception leaves `run_consumer`
  | .exit n =>
    if (c.workers n).link ≠ .down then
      some ({ c with world := takeBackAll c.world (c.workers n).pushed }.setWorker n (.fresh .down))
    else none
  | .expire stage k =>
    ((c.world.broker.queues ⟨stage, .retry⟩)[k]?).map fun copy =>
      { c with world := { c.world with broker := c.world.broker.expire ⟨stage, .retry⟩ k copy } }

/-- The deployment reaches `c` by steps that `ok` admits. -/
abbrev Reachable (cfg : Config) (plan : Plan) (ok : Cluster → Event → Prop) : Cluster → Prop :=
  Reaches (step cfg plan) ok .init

/-! ## What each step is -/

section Steps
variable {cfg : Config} {plan : Plan} {c c' : Cluster} {n i : Nat} {a : Answer}

theorem step_serve (h : step cfg plan c (.serve i a) = some c') :
    ∃ q k r w, c.requests i = some (.call q k) ∧ exec i q a c.world = some (r, w) ∧
      c' = { c with world := w, requests := Function.update c.requests i (some (k r)) } := by
  simp only [step] at h
  split at h
  · rename_i q k hp
    obtain ⟨⟨r, w⟩, hx, rfl⟩ := Option.map_eq_some_iff.mp h
    exact ⟨q, k, r, w, hp, hx, rfl⟩
  · cases h

theorem step_abort (h : step cfg plan c (.abort i) = some c') :
    (c.requests i).isSome ∧ c' = { c with requests := Function.update c.requests i none } := by
  simp only [step] at h
  split at h
  · exact ⟨‹_›, (Option.some.inj h).symm⟩
  · cases h

theorem step_boot (h : step cfg plan c (.boot n) = some c') :
    (c.workers n).link = .down ∧ c' = c.setWorker n (.fresh (.connecting 0)) := by
  simp only [step] at h
  split at h
  · exact ⟨‹_›, (Option.some.inj h).symm⟩
  · cases h

theorem step_dial {answered : Bool} (h : step cfg plan c (.dial n answered) = some c') :
    ∃ attempts link, (c.workers n).link = .connecting attempts ∧
      c' = c.setWorker n (.fresh link) := by
  simp only [step] at h
  split at h
  · rename_i attempts hlink
    refine ⟨attempts, ?_⟩
    split at h
    · exact ⟨_, hlink, (Option.some.inj h).symm⟩
    split at h
    · exact ⟨_, hlink, (Option.some.inj h).symm⟩
    · exact ⟨_, hlink, (Option.some.inj h).symm⟩
  · cases h

theorem step_push {k : Nat} (h : step cfg plan c (.push n k) = some c') :
    ∃ copy, (c.workers n).link = .consuming ∧
      (plan.prefetch n = 0 ∨ c.unsettled n < plan.prefetch n) ∧
      (c.world.broker.queues ⟨plan.stage n, .work⟩)[k]? = some copy ∧
      c' = { c with
        world := { c.world with
          broker := c.world.broker.deliver c.next ⟨plan.stage n, .work⟩ k copy }
        workers := Function.update c.workers n
          { c.workers n with
            pushed := (c.workers n).pushed ++ [c.next], buffer := (c.workers n).buffer ++ [c.next] }
        next := c.next + 1 } := by
  simp only [step] at h
  split at h
  · rename_i hcond
    obtain ⟨copy, hcopy, rfl⟩ := Option.map_eq_some_iff.mp h
    exact ⟨copy, hcond.1, hcond.2, hcopy, rfl⟩
  · cases h

theorem step_dispatch (h : step cfg plan c (.dispatch n) = some c') :
    ∃ i rest copy, ((c.workers n).link = .consuming ∨ (c.workers n).link = .lost) ∧
      (c.workers n).buffer = i :: rest ∧ (c.workers n).running = none ∧
      c.world.broker.handled i = some copy ∧
      c' = c.setWorker n { c.workers n with
        buffer := rest, running := some (i, consumer cfg (plan.stage n) copy.message) } := by
  simp only [step] at h
  split at h
  · rename_i hlink hbuffer hrunning
    obtain ⟨copy, hcopy, rfl⟩ := Option.map_eq_some_iff.mp h
    exact ⟨_, _, copy, Or.inl hlink, hbuffer, hrunning, hcopy, rfl⟩
  · rename_i hlink hbuffer hrunning
    obtain ⟨copy, hcopy, rfl⟩ := Option.map_eq_some_iff.mp h
    exact ⟨_, _, copy, Or.inr hlink, hbuffer, hrunning, hcopy, rfl⟩
  · cases h

theorem step_call (h : step cfg plan c (.call n a) = some c') :
    ∃ i q k r w, (c.workers n).running = some (i, .call q k) ∧ (c.workers n).link.admits q a = true ∧
      exec i q a c.world = some (r, w) ∧
      c' = { c with world := w }.setWorker n { c.workers n with running := some (i, k r) } := by
  simp only [step] at h
  split at h
  · rename_i i q k hp
    split at h
    · obtain ⟨⟨r, w⟩, hx, rfl⟩ := Option.map_eq_some_iff.mp h
      exact ⟨i, q, k, r, w, hp, ‹_›, hx, rfl⟩
    · cases h
  · cases h

theorem step_finish (h : step cfg plan c (.finish n) = some c') :
    ∃ i v, (c.workers n).running = some (i, .ret v) ∧
      c' = c.setWorker n { c.workers n with running := none } := by
  simp only [step] at h
  split at h
  · exact ⟨_, _, ‹_›, (Option.some.inj h).symm⟩
  · cases h

theorem step_lose (h : step cfg plan c (.lose n) = some c') :
    ((c.workers n).link = .consuming ∨ (c.workers n).link = .stopping) ∧
      c' = { c with world := takeBackAll c.world (c.workers n).pushed }.setWorker n
        { c.workers n with link := .lost, pushed := [] } := by
  simp only [step] at h
  split at h
  · exact ⟨‹_›, (Option.some.inj h).symm⟩
  · cases h

theorem step_reconnect (h : step cfg plan c (.reconnect n) = some c') :
    (c.workers n).link = .lost ∧ plan.stage n ≠ .chunk ∧ (c.workers n).raised = true ∧
      c' = c.setWorker n (.fresh (.connecting 0)) := by
  simp only [step] at h
  split at h
  · rename_i hcond
    exact ⟨hcond.1, hcond.2.1, hcond.2.2, (Option.some.inj h).symm⟩
  · cases h

theorem step_stop (h : step cfg plan c (.stop n) = some c') :
    (c.workers n).link = .consuming ∧ plan.stage n ≠ .chunk ∧
      c' = { c with world := takeBackAll c.world (c.workers n).buffer }.setWorker n
        { c.workers n with link := .stopping, buffer := [] } := by
  simp only [step] at h
  split at h
  · rename_i hcond
    exact ⟨hcond.1, hcond.2, (Option.some.inj h).symm⟩
  · cases h

theorem step_exit (h : step cfg plan c (.exit n) = some c') :
    (c.workers n).link ≠ .down ∧
      c' = { c with world := takeBackAll c.world (c.workers n).pushed }.setWorker n (.fresh .down) := by
  simp only [step] at h
  split at h
  · exact ⟨‹_›, (Option.some.inj h).symm⟩
  · cases h

theorem step_expire {S : Stage} {k : Nat} (h : step cfg plan c (.expire S k) = some c') :
    ∃ copy, (c.world.broker.queues ⟨S, .retry⟩)[k]? = some copy ∧
      c' = { c with world := { c.world with broker := c.world.broker.expire ⟨S, .retry⟩ k copy } } := by
  simp only [step] at h
  obtain ⟨copy, hcopy, rfl⟩ := Option.map_eq_some_iff.mp h
  exact ⟨copy, hcopy, rfl⟩

end Steps

end DigitalCip.Deployment
