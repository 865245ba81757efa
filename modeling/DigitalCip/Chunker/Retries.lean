import DigitalCip.Invariant.Copies
import DigitalCip.Chunker.Json
import DigitalCip.Resumable.Run

/-!
# The chunker and its three queues

Chunk messages on their way through `ingest.chunk`, its retry queue and its
dead-letter queue, in runs without crashes in which the broker takes every publish and
every ack.  What `process` makes of a message is left open: `outcomes` says, for the
message of each publication, how each call of `process` ends.  `handle` is the one of
the worker (`handle_eq_consume`), one call of it at a time, and any number of deliveries
may be handled side by side.
-/

namespace DigitalCip.Chunker
open Resumable

/-- The calls of `handle`. -/
inductive Request where
  | process (env : Envelope)
  | publish (exchange : Exchange) (key : RoutingKey) (m : Message)
  | ack (outcome : Outcome)

/-- What they return. -/
@[reducible] def Request.Reply : Request → Type
  | .process _ => Option GoError
  | _ => Unit

/-- What runs for one delivery. -/
abbrev Handler := Prog Request Request.Reply Empty

/-- One call. -/
def request (r : Request) : Handler r.Reply := Prog.perform r

/-- The message that `publishDLQ` publishes. -/
def dlqMessage (env : Envelope) (d : Message) : Message where
  messageId := some env.messageId
  headers := d.headers
  body := d.body

/-- The channel of a delivery of `d`. -/
def brokerChannel (d : Message) : Channel Handler Envelope where
  publishDLQ env := request (.publish .dlx ⟨.chunk, .dlq⟩ (dlqMessage env d))
  publishRetry env := request (.publish .retry ⟨.chunk, .retry⟩ (retryMessage env))
  ack
    | some outcome => request (.ack outcome)
    | none => pure ()

/-- `handle`, for a delivery of `d`. -/
def handling (maxRetries : Int) (d : Message) : Handler Unit :=
  consume maxRetries envelopeCodec (brokerChannel d) (fun env => request (.process env)) d.body

/-- The broker, and for the message of each publication the envelopes that have been
delivered and those that `process` has been called with, in their order. -/
structure Traffic where
  broker : Broker
  delivered : Nat → List Envelope
  processed : Nat → List Envelope

/-- The traffic and the deliveries that are handled. -/
abbrev Workers := Pool Traffic Request Request.Reply Empty Unit

/-- Nothing has been published. -/
def Workers.init : Workers where
  world := ⟨.empty, fun _ => [], fun _ => []⟩
  progs := fun _ => none

/-- What happens next. -/
inductive Event where
  | publish (i : Nat) (m : Message)
  | deliver (i n : Nat)
  | run (i : Nat)
  | expire (n : Nat)

/-- The handler that an event starts or lets go on. -/
def Event.handler : Event → Option Nat
  | .deliver i _ | .run i => some i
  | .publish _ _ | .expire _ => none

section Steps
variable (maxRetries : Int) (outcomes : Nat → Nat → Option GoError)

/-- A call by the handler of delivery `i`. -/
def answer (i : Nat) : (r : Request) → Traffic → Option (r.Reply × Traffic)
  | .process env, t => (t.broker.handled i).map fun copy =>
    (outcomes copy.origin (t.processed copy.origin).length,
      { t with processed :=
          Function.update t.processed copy.origin (t.processed copy.origin ++ [env]) })
  | .publish exchange key m, t => some ((), { t with broker := t.broker.publish i exchange key m })
  | .ack outcome, t =>
    match t.broker.deliveries i with
    | some ⟨copy, _, true⟩ => some ((), { t with broker := t.broker.ack i copy outcome })
    | _ => none

/-- One step: a message is published, one is delivered, a handler makes its next call, or
the TTL of a copy in the retry queue expires. -/
def advance (s : Workers) : Event → Option Workers
  | .publish i m =>
    some (s.move { s.world with broker := s.world.broker.publish i .ingest ⟨.chunk, .work⟩ m })
  | .deliver i n =>
    if (s.progs i).isNone then
      ((s.world.broker.queues ⟨.chunk, .work⟩)[n]?).map fun copy =>
        (s.move
          { s.world with
            broker := s.world.broker.deliver i ⟨.chunk, .work⟩ n copy
            delivered := Function.update s.world.delivered copy.origin
              (s.world.delivered copy.origin ++ [copy.message.body]) }).spawn i
          (handling maxRetries copy.message)
    else none
  | .run i =>
    match s.progs i with
    | some (.call r k) => (answer outcomes i r s.world).map fun a => (s.move a.2).spawn i (k a.1)
    | _ => none
  | .expire n =>
    ((s.world.broker.queues ⟨.chunk, .retry⟩)[n]?).map fun copy =>
      s.move { s.world with broker := s.world.broker.expire ⟨.chunk, .retry⟩ n copy }

end Steps

/-! ## What a handler does -/

/-- The ack that ends a handler. -/
def acking (outcome : Outcome) : Handler Unit := request (.ack outcome)

@[simp] theorem acking_pending (outcome : Outcome) :
    (acking outcome).pending = some (.ack outcome) := rfl

/-- What is left of the handler of `d` when `process` has returned. -/
def respond (maxRetries : Int) (d : Message) (env : Envelope) : Option GoError → Handler Unit
  | none => acking .success
  | some (.permanent _) => acking .permanent
  | some _ =>
    if env.attempt ≥ maxRetries then do
      request (.publish .dlx ⟨.chunk, .dlq⟩ (dlqMessage env d))
      acking .deadLettered
    else do
      request (.publish .retry ⟨.chunk, .retry⟩
        (retryMessage { env with attempt := env.attempt + 1 }))
      acking .retried

/-- The envelope that `process` is called with. -/
def defaulted (env : Envelope) : Envelope := if env.attempt = 0 then { env with attempt := 1 } else env

/-- **A handler calls `process`, and then settles by what it returns.** -/
theorem handling_eq (maxRetries : Int) (d : Message) : handling maxRetries d =
    .call (.process (defaulted d.body)) (respond maxRetries d (defaulted d.body)) := rfl

/-- Whether `process` returned an error that is not permanent. -/
def failed : Option GoError → Bool
  | none | some (.permanent _) => false
  | some (.transient _) | some (.other _) => true

section Respond
variable {maxRetries : Int} {d : Message} {env : Envelope} {e : Option GoError}

theorem respond_of_not_failed (h : failed e = false) :
    ∃ outcome, outcome ≠ .retried ∧ respond maxRetries d env e = acking outcome := by
  match e with
  | none => exact ⟨.success, by decide, rfl⟩
  | some (.permanent _) => exact ⟨.permanent, by decide, rfl⟩
  | some (.transient _) | some (.other _) => cases h

theorem respond_of_exhausted (h : failed e = true) (hattempt : env.attempt ≥ maxRetries) :
    respond maxRetries d env e =
      .call (.publish .dlx ⟨.chunk, .dlq⟩ (dlqMessage env d)) fun _ => acking .deadLettered := by
  match e with
  | none | some (.permanent _) => cases h
  | some (.transient _) | some (.other _) => exact if_pos hattempt

theorem respond_of_retried (h : failed e = true) (hattempt : ¬ env.attempt ≥ maxRetries) :
    respond maxRetries d env e = .call (.publish .retry ⟨.chunk, .retry⟩
      (retryMessage { env with attempt := env.attempt + 1 })) fun _ => acking .retried := by
  match e with
  | none | some (.permanent _) => cases h
  | some (.transient _) | some (.other _) => exact if_neg hattempt

end Respond

/-! ## What is kept of a message -/

/-- The second message has the body of the first but for the attempt, and it has the
`message_id` of the first or of its body. -/
structure Alike (m m' : Message) : Prop where
  body : m'.body = { m.body with attempt := m'.body.attempt }
  messageId : m'.messageId = m.messageId ∨ m'.messageId = some m.body.messageId

namespace Alike
variable {m m' m'' : Message}

theorem refl (m : Message) : Alike m m := ⟨rfl, Or.inl rfl⟩

theorem trans (h : Alike m m') (h' : Alike m' m'') : Alike m m'' := by
  refine ⟨?_, ?_⟩
  · rw [h'.body, h.body]
  · rcases h'.messageId with heq | heq
    · rw [heq]
      exact h.messageId
    · rw [heq, h.body]
      exact Or.inr rfl

end Alike

/-- The default leaves all but the attempt alone. -/
theorem defaulted_eq (env : Envelope) :
    defaulted env = { env with attempt := (defaulted env).attempt } := by
  unfold defaulted
  split <;> rfl

theorem defaulted_of_ne {env : Envelope} (h : env.attempt ≠ 0) : defaulted env = env := if_neg h

/-- A retry message keeps all but the attempt. -/
theorem alike_retryMessage (d : Message) (attempt : Int) :
    Alike d (retryMessage { defaulted d.body with attempt := attempt }) := by
  rw [defaulted_eq d.body]
  exact ⟨rfl, Or.inr rfl⟩

/-- A dead-letter message keeps all. -/
theorem alike_dlqMessage (d : Message) : Alike d (dlqMessage (defaulted d.body) d) := by
  rw [defaulted_eq d.body]
  exact ⟨rfl, Or.inr rfl⟩

/-- Where a handler publishes to, and the ack that follows. -/
inductive Republishes : Exchange → Leg → Outcome → Prop where
  | retry : Republishes .retry .retry .retried
  | dlq : Republishes .dlx .dlq .deadLettered

/-- What is left after `process` has returned. -/
theorem respond_cases (maxRetries : Int) (d : Message) (e : Option GoError) :
    (∃ outcome, outcome ≠ .retried ∧
        respond maxRetries d (defaulted d.body) e = acking outcome) ∨
      ∃ exchange leg outcome m, Republishes exchange leg outcome ∧ Alike d m ∧
        respond maxRetries d (defaulted d.body) e =
          .call (.publish exchange ⟨.chunk, leg⟩ m) fun _ => acking outcome := by
  cases hf : failed e with
  | false => exact Or.inl (respond_of_not_failed hf)
  | true =>
    by_cases hattempt : (defaulted d.body).attempt ≥ maxRetries
    · exact Or.inr ⟨_, _, _, _, .dlq, alike_dlqMessage d, respond_of_exhausted hf hattempt⟩
    · exact Or.inr ⟨_, _, _, _, .retry, alike_retryMessage d _, respond_of_retried hf hattempt⟩

/-! ## What a step is -/

/-- What is left of the handler of `d`; whether its delivery is unsettled. -/
inductive Doing (maxRetries : Int) (d : Message) : Bool → Handler Unit → Prop where
  | started : Doing maxRetries d true (handling maxRetries d)
  | answered (e : Option GoError) : Doing maxRetries d true (respond maxRetries d (defaulted d.body) e)
  | settling (outcome : Outcome) : Doing maxRetries d true (acking outcome)
  | done : Doing maxRetries d false (.ret ())

/-- A call of a handler, for a delivery of `copy`. -/
inductive Ran (maxRetries : Int) (outcomes : Nat → Nat → Option GoError) (s : Workers) (i : Nat)
    (copy : Copy) : Workers → Prop where
  | processed (hp : s.progs i = some (handling maxRetries copy.message)) :
      Ran maxRetries outcomes s i copy
        ((s.move
          { s.world with
            processed := Function.update s.world.processed copy.origin
              (s.world.processed copy.origin ++ [defaulted copy.message.body]) }).spawn i
          (respond maxRetries copy.message (defaulted copy.message.body)
            (outcomes copy.origin (s.world.processed copy.origin).length)))
  | published {exchange : Exchange} {leg : Leg} {m : Message} {outcome : Outcome}
      (hleg : Republishes exchange leg outcome)
      (hm : Alike copy.message m)
      (hp : s.progs i = some (.call (.publish exchange ⟨.chunk, leg⟩ m) fun _ => acking outcome)) :
      Ran maxRetries outcomes s i copy
        ((s.move { s.world with broker := s.world.broker.enqueue copy.origin m ⟨.chunk, leg⟩ }).spawn i
          (acking outcome))
  | acked {outcome : Outcome} (hp : s.progs i = some (acking outcome)) :
      Ran maxRetries outcomes s i copy
        ((s.move { s.world with broker := s.world.broker.ack i copy outcome }).spawn i (.ret ()))

/-- What a step is. -/
inductive Advanced (maxRetries : Int) (outcomes : Nat → Nat → Option GoError) (s : Workers) :
    Event → Workers → Prop where
  | published (i : Nat) (m : Message) : Advanced maxRetries outcomes s (.publish i m)
      (s.move { s.world with broker := s.world.broker.publish i .ingest ⟨.chunk, .work⟩ m })
  | delivered {i n : Nat} {copy : Copy} (hi : s.progs i = none)
      (hn : (s.world.broker.queues ⟨.chunk, .work⟩)[n]? = some copy) :
      Advanced maxRetries outcomes s (.deliver i n)
        ((s.move
          { s.world with
            broker := s.world.broker.deliver i ⟨.chunk, .work⟩ n copy
            delivered := Function.update s.world.delivered copy.origin
              (s.world.delivered copy.origin ++ [copy.message.body]) }).spawn i
          (handling maxRetries copy.message))
  | ran {i : Nat} {copy : Copy} {s' : Workers}
      (hd : s.world.broker.deliveries i = some ⟨copy, ⟨.chunk, .work⟩, true⟩)
      (h : Ran maxRetries outcomes s i copy s') : Advanced maxRetries outcomes s (.run i) s'
  | expired {n : Nat} {copy : Copy}
      (hn : (s.world.broker.queues ⟨.chunk, .retry⟩)[n]? = some copy) :
      Advanced maxRetries outcomes s (.expire n)
        (s.move { s.world with broker := s.world.broker.expire ⟨.chunk, .retry⟩ n copy })

/-! ## What is always so -/

/-- What holds in every state that is reached. -/
structure Sane (maxRetries : Int) (s : Workers) : Prop where
  bounded : ∃ bound, ∀ i, bound ≤ i → s.progs i = none
  unused : ∀ i, s.progs i = none → s.world.broker.deliveries i = none
  handlers : ∀ i p, s.progs i = some p → ∃ copy unsettled,
    s.world.broker.deliveries i = some ⟨copy, ⟨.chunk, .work⟩, unsettled⟩ ∧
      Doing maxRetries copy.message unsettled p
  held : ∀ c, s.world.broker.Holds .chunk c → c.origin < s.world.broker.nextCopy
  accepted : ∀ p ∈ s.world.broker.accepted, p.copy < s.world.broker.nextCopy
  kept : ∀ p ∈ s.world.broker.accepted, ∀ c, s.world.broker.Holds .chunk c → c.origin = p.copy →
    Alike p.message c.message
  settled : ∀ x ∈ s.world.broker.settled, x.1.origin < s.world.broker.nextCopy
  fresh : ∀ origin, s.world.broker.nextCopy ≤ origin →
    s.world.delivered origin = [] ∧ s.world.processed origin = []

section Steps
variable {maxRetries : Int} {outcomes : Nat → Nat → Option GoError} {s s' : Workers} {i n : Nat}
  {event : Event}

/-- The call of `process`. -/
theorem advance_process {copy : Copy} {q : Queue} {unsettled : Bool} {env : Envelope}
    {k : Option GoError → Handler Unit}
    (hd : s.world.broker.deliveries i = some ⟨copy, q, unsettled⟩)
    (hp : s.progs i = some (.call (.process env) k)) :
    advance maxRetries outcomes s (.run i) = some
      ((s.move
        { s.world with
          processed := Function.update s.world.processed copy.origin
            (s.world.processed copy.origin ++ [env]) }).spawn i
        (k (outcomes copy.origin (s.world.processed copy.origin).length))) := by
  have hhandled : s.world.broker.handled i = some copy := by simp [Broker.handled, hd]
  simp only [advance, hp, answer, hhandled, Option.map_some]

/-- A publish by a handler: the copy goes back to the same publication. -/
theorem advance_publish {copy : Copy} {q : Queue} {unsettled : Bool} {exchange : Exchange}
    {leg : Leg} {outcome : Outcome} {m : Message} {k : Unit → Handler Unit}
    (hleg : Republishes exchange leg outcome)
    (hd : s.world.broker.deliveries i = some ⟨copy, q, unsettled⟩)
    (hp : s.progs i = some (.call (.publish exchange ⟨.chunk, leg⟩ m) k)) :
    advance maxRetries outcomes s (.run i) = some
      ((s.move { s.world with broker := s.world.broker.enqueue copy.origin m ⟨.chunk, leg⟩ }).spawn i
        (k ())) := by
  have hhandled : s.world.broker.handled i = some copy := by simp [Broker.handled, hd]
  simp only [advance, hp, answer, Option.map_some]
  cases hleg with
  | retry =>
    rw [Broker.publish_retry]
    simp only [Broker.originOf, hhandled]
    rfl
  | dlq =>
    rw [Broker.publish_dlx]
    simp only [Broker.originOf, hhandled]
    rfl

/-- The ack of an unsettled delivery. -/
theorem advance_ack {copy : Copy} {q : Queue} {outcome : Outcome}
    (hd : s.world.broker.deliveries i = some ⟨copy, q, true⟩)
    (hp : s.progs i = some (acking outcome)) : advance maxRetries outcomes s (.run i) = some
      ((s.move { s.world with broker := s.world.broker.ack i copy outcome }).spawn i
        (.ret ())) := by
  simp only [acking, request, Prog.perform] at hp
  simp only [advance, hp, answer, hd, Option.map_some]

/-- **A handler at work makes its next call.** -/
theorem exists_ran {copy : Copy}
    (hd : s.world.broker.deliveries i = some ⟨copy, ⟨.chunk, .work⟩, true⟩)
    {p : Handler Unit} (hp : s.progs i = some p) (hdoing : Doing maxRetries copy.message true p) :
    ∃ s', advance maxRetries outcomes s (.run i) = some s' ∧ Ran maxRetries outcomes s i copy s' := by
  cases hdoing with
  | started => exact ⟨_, advance_process hd hp, .processed hp⟩
  | answered e =>
    rcases respond_cases maxRetries copy.message e with
      ⟨outcome, -, he⟩ | ⟨exchange, leg, outcome, m, hleg, hm, he⟩
    · rw [he] at hp
      exact ⟨_, advance_ack hd hp, .acked hp⟩
    · rw [he] at hp
      exact ⟨_, advance_publish hleg hd hp, .published hleg hm hp⟩
  | settling outcome => exact ⟨_, advance_ack hd hp, .acked hp⟩

/-- **Every step is one of these.** -/
theorem advance_cases (hs : Sane maxRetries s) (h : advance maxRetries outcomes s event = some s') :
    Advanced maxRetries outcomes s event s' := by
  cases event with
  | publish i m =>
    obtain rfl := Option.some.inj h
    exact .published i m
  | deliver i n =>
    simp only [advance] at h
    split at h
    · rename_i hi
      obtain ⟨copy, hn, rfl⟩ := Option.map_eq_some_iff.mp h
      exact .delivered (Option.isNone_iff_eq_none.mp hi) hn
    · cases h
  | run i =>
    cases hp : s.progs i with
    | none =>
      simp only [advance, hp] at h
      cases h
    | some p =>
      obtain ⟨copy, unsettled, hd, hdoing⟩ := hs.handlers i p hp
      cases unsettled with
      | true =>
        obtain ⟨s'', hstep, hran⟩ := exists_ran hd hp hdoing
        obtain rfl := Option.some.inj (hstep.symm.trans h)
        exact .ran hd hran
      | false =>
        cases hdoing
        simp only [advance, hp] at h
        cases h
  | expire n =>
    obtain ⟨copy, hn, rfl⟩ := Option.map_eq_some_iff.mp h
    exact .expired hn

theorem sane_init : Sane maxRetries Workers.init where
  bounded := ⟨0, fun _ _ => rfl⟩
  unused _ _ := rfl
  handlers _ _ h := nomatch h
  held _ h := by rcases h with ⟨_, h⟩ | ⟨_, _, h⟩ <;> cases h
  accepted _ h := nomatch h
  kept _ h := nomatch h
  settled _ h := nomatch h
  fresh _ _ := ⟨rfl, rfl⟩

/-- A copy after a step was there before, or it was made of one that was, or it has
just been published. -/
theorem held_advance (h : Advanced maxRetries outcomes s event s') {c : Copy}
    (hc : s'.world.broker.Holds .chunk c) :
    (∃ c₀, s.world.broker.Holds .chunk c₀ ∧ c.origin = c₀.origin ∧ Alike c₀.message c.message) ∨
      ∃ i, event = .publish i c.message ∧ c.origin = s.world.broker.nextCopy := by
  have hsame : s.world.broker.Holds .chunk c → (∃ c₀, s.world.broker.Holds .chunk c₀ ∧
      c.origin = c₀.origin ∧ Alike c₀.message c.message) := fun h => ⟨c, h, rfl, .refl _⟩
  cases h with
  | published i m =>
    rcases hc.of_publish_ingest with hc | ⟨-, rfl⟩
    · exact Or.inl (hsame hc)
    · exact Or.inr ⟨i, rfl, rfl⟩
  | delivered hi hn => exact Or.inl (hsame (hc.of_deliver hn))
  | ran hd h =>
    left
    cases h with
    | processed hp => exact hsame hc
    | published hleg hm hp =>
      rcases hc.of_enqueue with hc | ⟨-, rfl⟩
      · exact hsame hc
      · exact ⟨_, .delivered _ _ hd rfl rfl, rfl, hm⟩
    | acked hp => exact hsame hc.of_ack
  | expired hn => exact Or.inl (hsame (hc.of_expire hn))

/-- Only the handler of a step moves. -/
theorem handler_of_ne (h : Advanced maxRetries outcomes s event s') {j : Nat}
    (hj : event.handler ≠ some j) :
    s'.progs j = s.progs j ∧ s'.world.broker.deliveries j = s.world.broker.deliveries j := by
  cases h with
  | published i m =>
    rw [Broker.publish_ingest]
    exact ⟨rfl, rfl⟩
  | @delivered i n copy hi hn =>
    have hji : j ≠ i := fun he => hj (congrArg some he.symm)
    exact ⟨Pool.spawn_progs_of_ne _ _ _ hji, Function.update_of_ne hji _ _⟩
  | @ran i copy s' hd h =>
    have hji : j ≠ i := fun he => hj (congrArg some he.symm)
    cases h with
    | processed | published => exact ⟨Pool.spawn_progs_of_ne _ _ _ hji, rfl⟩
    | acked => exact ⟨Pool.spawn_progs_of_ne _ _ _ hji, Function.update_of_ne hji _ _⟩
  | expired hn =>
    rw [Broker.expire_retry]
    exact ⟨rfl, rfl⟩

/-- The handler of a step is one of those that are described. -/
theorem handler_advance (h : Advanced maxRetries outcomes s event s') {i : Nat}
    (hi : event.handler = some i) : ∃ copy unsettled p, s'.progs i = some p ∧
      s'.world.broker.deliveries i = some ⟨copy, ⟨.chunk, .work⟩, unsettled⟩ ∧
      Doing maxRetries copy.message unsettled p := by
  cases h with
  | published | expired => cases hi
  | @delivered _ n copy _ hn =>
    obtain rfl := Option.some.inj hi
    exact ⟨copy, true, _, Pool.spawn_progs_self .., Function.update_self .., .started⟩
  | @ran _ copy s' hd h =>
    obtain rfl := Option.some.inj hi
    cases h with
    | processed => exact ⟨copy, true, _, Pool.spawn_progs_self .., hd, .answered _⟩
    | published => exact ⟨copy, true, _, Pool.spawn_progs_self .., hd, .settling _⟩
    | acked =>
      refine ⟨copy, false, _, Pool.spawn_progs_self .., ?_, .done⟩
      simp [Broker.ack, Broker.release, hd]

/-- All but finitely many numbers stay unused. -/
theorem bounded_advance (hs : Sane maxRetries s) (h : Advanced maxRetries outcomes s event s') :
    ∃ bound, ∀ i, bound ≤ i → s'.progs i = none := by
  obtain ⟨bound, hbound⟩ := hs.bounded
  refine ⟨max bound (event.handler.getD 0 + 1), fun j hj => ?_⟩
  have hne : event.handler ≠ some j := by
    intro he
    rw [he, Option.getD_some] at hj
    omega
  rw [(handler_of_ne h hne).1]
  exact hbound j (by omega)

theorem nextCopy_advance (h : Advanced maxRetries outcomes s event s') :
    s.world.broker.nextCopy ≤ s'.world.broker.nextCopy := by
  cases h with
  | published i m =>
    rw [Broker.publish_ingest]
    exact Nat.le_succ _
  | delivered => exact Nat.le_refl _
  | ran hd h =>
    cases h with
    | processed | acked => exact Nat.le_refl _
    | published => exact Nat.le_succ _
  | expired hn =>
    rw [Broker.expire_retry]
    exact Nat.le_refl _

/-- What is accepted is what the events publish. -/
theorem accepted_advance (h : Advanced maxRetries outcomes s event s') :
    s'.world.broker.accepted = s.world.broker.accepted ∨ ∃ i m, event = .publish i m ∧
      s'.world.broker.nextCopy = s.world.broker.nextCopy + 1 ∧
      s'.world.broker.accepted =
        s.world.broker.accepted ++ [⟨s.world.broker.nextCopy, i, m⟩] := by
  cases h with
  | published i m =>
    rw [Broker.publish_ingest]
    exact Or.inr ⟨i, m, rfl, rfl, rfl⟩
  | delivered => exact Or.inl rfl
  | ran hd h => cases h <;> exact Or.inl rfl
  | expired hn =>
    rw [Broker.expire_retry]
    exact Or.inl rfl

theorem settled_advance (h : Advanced maxRetries outcomes s event s') :
    s'.world.broker.settled = s.world.broker.settled ∨ ∃ i copy outcome,
      s.world.broker.deliveries i = some ⟨copy, ⟨.chunk, .work⟩, true⟩ ∧
      s.progs i = some (acking outcome) ∧ event = .run i ∧
      s'.world.broker.settled = (copy, outcome) :: s.world.broker.settled := by
  cases h with
  | published i m =>
    rw [Broker.publish_ingest]
    exact Or.inl rfl
  | delivered => exact Or.inl rfl
  | ran hd h =>
    cases h with
    | processed | published => exact Or.inl rfl
    | acked hp => exact Or.inr ⟨_, _, _, hd, hp, rfl, rfl⟩
  | expired hn =>
    rw [Broker.expire_retry]
    exact Or.inl rfl

/-- What is delivered and processed is a copy that there is. -/
theorem logs_advance (hs : Sane maxRetries s) (h : Advanced maxRetries outcomes s event s')
    {origin : Nat} (horigin : s.world.broker.nextCopy ≤ origin) :
    s'.world.delivered origin = s.world.delivered origin ∧
      s'.world.processed origin = s.world.processed origin := by
  have hne : ∀ {c : Copy}, s.world.broker.Holds .chunk c → origin ≠ c.origin := by
    rintro c hc rfl
    exact absurd (hs.held c hc) (Nat.not_lt.mpr horigin)
  cases h with
  | published | expired => exact ⟨rfl, rfl⟩
  | delivered hi hn =>
    exact ⟨Function.update_of_ne (hne (.queued .work (List.mem_of_getElem? hn))) _ _, rfl⟩
  | ran hd h =>
    cases h with
    | processed => exact ⟨rfl, Function.update_of_ne (hne (.delivered _ _ hd rfl rfl)) _ _⟩
    | published | acked => exact ⟨rfl, rfl⟩

/-- **Every step keeps what is always so.** -/
theorem Sane.advance (hs : Sane maxRetries s) (h : Advanced maxRetries outcomes s event s') :
    Sane maxRetries s' where
  bounded := bounded_advance hs h
  unused i hi := by
    by_cases he : event.handler = some i
    · obtain ⟨_, _, _, hp, -⟩ := handler_advance h he
      rw [hi] at hp
      cases hp
    · obtain ⟨hp, hd⟩ := handler_of_ne h he
      rw [hd]
      exact hs.unused i (hp.symm.trans hi)
  handlers i p hi := by
    by_cases he : event.handler = some i
    · obtain ⟨copy, unsettled, p', hp, hd, hdoing⟩ := handler_advance h he
      obtain rfl := Option.some.inj (hi.symm.trans hp)
      exact ⟨copy, unsettled, hd, hdoing⟩
    · obtain ⟨hp, hd⟩ := handler_of_ne h he
      rw [hd]
      exact hs.handlers i p (hp.symm.trans hi)
  held c hc := by
    have hle := nextCopy_advance h
    rcases held_advance h hc with ⟨c₀, hc₀, horigin, -⟩ | ⟨i, rfl, horigin⟩
    · have hlt := hs.held c₀ hc₀
      omega
    · cases h
      rw [horigin, Broker.publish_ingest]
      exact Nat.lt_succ_self _
  accepted p hp := by
    have hle := nextCopy_advance h
    rcases accepted_advance h with heq | ⟨i, m, -, hnext, heq⟩
    · exact Nat.lt_of_lt_of_le (hs.accepted p (heq ▸ hp)) hle
    · rw [heq] at hp
      rcases List.mem_append.mp hp with hp | hp
      · exact Nat.lt_of_lt_of_le (hs.accepted p hp) hle
      · obtain rfl := List.mem_singleton.mp hp
        exact hnext ▸ Nat.lt_succ_self _
  kept p hp c hc horigin := by
    have hold : p ∈ s.world.broker.accepted → Alike p.message c.message := by
      intro hp
      rcases held_advance h hc with ⟨c₀, hc₀, heq, hkept⟩ | ⟨i, -, heq⟩
      · exact (hs.kept p hp c₀ hc₀ (heq.symm.trans horigin)).trans hkept
      · exact absurd (hs.accepted p hp) (by omega)
    rcases accepted_advance h with heq | ⟨i, m, rfl, -, heq⟩
    · exact hold (heq ▸ hp)
    · rw [heq] at hp
      rcases List.mem_append.mp hp with hp | hp
      · exact hold hp
      · obtain rfl := List.mem_singleton.mp hp
        -- the copy of the message that has just been published
        rcases held_advance h hc with ⟨c₀, hc₀, heq', -⟩ | ⟨_, he, -⟩
        · have hlt := hs.held c₀ hc₀
          simp only at horigin
          omega
        · cases he
          exact .refl _
  settled x hx := by
    have hle := nextCopy_advance h
    rcases settled_advance h with heq | ⟨i, copy, outcome, hd, -, -, heq⟩
    · exact Nat.lt_of_lt_of_le (hs.settled x (heq ▸ hx)) hle
    · rw [heq] at hx
      rcases List.mem_cons.mp hx with rfl | hx
      · exact Nat.lt_of_lt_of_le (hs.held copy (.delivered i _ hd rfl rfl)) hle
      · exact Nat.lt_of_lt_of_le (hs.settled x hx) hle
  fresh origin horigin := by
    have hle := Nat.le_trans (nextCopy_advance h) horigin
    obtain ⟨hdelivered, hprocessed⟩ := logs_advance hs h hle
    rw [hdelivered, hprocessed]
    exact hs.fresh origin hle

/-- What is always so holds in every state that is reached. -/
theorem sane_of_reaches
    (h : Reaches (advance maxRetries outcomes) (fun _ _ => True) Workers.init s) : Sane maxRetries s :=
  h.invariant sane_init fun _ _ _ hs _ hstep => hs.advance (advance_cases hs hstep)

end Steps

end DigitalCip.Chunker
