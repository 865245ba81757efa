import DigitalCip.Invariant.Ownership

/-!
# What the queues contain

Envelopes are built by the API and by two workers, copied into retry and
dead-letter messages by three, and moved by the broker.  Whatever happens, a copy
in a stage's queues or in a delivery is for that stage, counts its attempts, and
belongs to the API request it goes back to (`StemsFrom`).

What a consumer puts into its messages can be read off its text (`Posts`), with
one restriction: the chunker writes `x-attempt` as an `int32`, so the header is
the attempt only as long as `MAX_RETRIES` fits (`queue_content`,
`not_queue_content`).
-/

namespace DigitalCip
open Resumable

/-- The publication by the API that a copy goes back to: the one that made its
origin, or the one that the message goes back to whose handler made its origin. -/
inductive StemsFrom (w : World) : Copy → Publication → Prop where
  | api {c : Copy} {q : Publication} (hq : q ∈ w.broker.accepted) (hc : q.copy = c.origin)
      (hi : (q.publisher, q.message.body.documentId) ∈ w.created) : StemsFrom w c q
  | handed {c c' : Copy} {p q : Publication} (hp : p ∈ w.broker.accepted) (hc : p.copy = c.origin)
      (hi : w.broker.handled p.publisher = some c') (h : StemsFrom w c' q) : StemsFrom w c q

/-- The two envelopes are for the same request. -/
structure Envelope.SameRequest (e e' : Envelope) : Prop where
  documentId : e.documentId = e'.documentId
  traceId : e.traceId = e'.traceId
  tenantId : e.tenantId = e'.tenantId

/-- The attempt of a message is within its bounds, and its header says the same. -/
structure Message.Counted (cfg : Config) (m : Message) : Prop where
  pos : 1 ≤ m.body.attempt
  le : m.body.attempt ≤ max 1 cfg.maxRetries
  header : m.headers.attempt = some m.body.attempt

/-- What a copy that stage `S` holds contains. -/
structure Proper (cfg : Config) (w : World) (S : Stage) (c : Copy) : Prop where
  stage : c.message.body.stage = S
  key : c.message.body.idempotencyKey = ⟨c.message.body.documentId, S⟩
  counted : c.message.Counted cfg
  stems : ∃ q, StemsFrom w c q
  request : ∀ q, StemsFrom w c q → c.message.body.SameRequest q.message.body

/-- Every copy in a queue or a delivery is proper. -/
def QueueContent (cfg : Config) (w : World) : Prop := ∀ S c, w.broker.Holds S c → Proper cfg w S c

/-- A first attempt is counted. -/
theorem Message.Counted.first {cfg : Config} {m : Message} (hattempt : m.body.attempt = 1)
    (hheader : m.headers.attempt = some 1) : m.Counted cfg := by
  refine ⟨by omega, by omega, ?_⟩
  rw [hheader, hattempt]

namespace Envelope.SameRequest
variable {e e' e'' : Envelope}

theorem trans (h : e.SameRequest e') (h' : e'.SameRequest e'') : e.SameRequest e'' :=
  ⟨h.documentId.trans h'.documentId, h.traceId.trans h'.traceId, h.tenantId.trans h'.tenantId⟩

theorem of_alike (h : e.Alike e') : e'.SameRequest e := by
  obtain ⟨a, rfl⟩ := h
  exact ⟨rfl, rfl, rfl⟩

end Envelope.SameRequest

/-! ## What is posted -/

/-- What the consumer of `m` publishes. -/
def Posts (cfg : Config) (m : Message) : Call → Prop
  | .publish .ingest _ m' => m'.body.SameRequest m.body ∧ m'.body.attempt = 1 ∧
      m'.headers.attempt = some 1
  | .publish .retry _ m' => m.body.attempt < cfg.maxRetries ∧
      m'.body.attempt = m.body.attempt + 1 ∧ m'.headers.attempt = some (m.body.attempt + 1)
  | .publish .dlx _ m' => m'.body = m.body ∧ m'.headers = m.headers
  | _ => True

theorem posts_of_internal {cfg : Config} {m : Message} {S : Stage} {id : MessageId} {d : DocId}
    {c : Call} (h : Internal S id d c) : Posts cfg m c := by
  cases c with
  | publish => exact h.elim
  | _ => trivial

namespace Python

theorem retry_posts (cfg : Config) (S : Stage) (m : Message) :
    (retry cfg.maxRetries envelopeCodec (channel S m) m.body).Calls (Posts cfg m) := by
  unfold retry
  simp only [envelopeCodec, channel]
  split
  · trivial
  · exact .bind (calls_call ⟨rfl, rfl⟩) fun _ => calls_call trivial
  · rename_i h
    have hlt : m.body.attempt < cfg.maxRetries := by
      have hge : ¬ m.body.attempt ≥ cfg.maxRetries := of_decide_eq_false (Except.ok.inj h)
      omega
    exact .bind (calls_call ⟨hlt, rfl, rfl⟩) fun _ => calls_call trivial

theorem onMessage_posts {N : Type} {cfg : Config} {S : Stage} {m : Message}
    {handler : Envelope → Program (Option N)} {publishNext : Envelope → N → Program Unit}
    (hhandler : (handler m.body).Calls (Posts cfg m))
    (hnext : ∀ n, (publishNext m.body n).Calls (Posts cfg m)) :
    (onMessage cfg.maxRetries envelopeCodec (channel S m) handler publishNext m.body).Calls
      (Posts cfg m) := by
  have hack : ∀ o, ((channel S m).ack o).Calls (Posts cfg m) := fun o => calls_call trivial
  refine .tryCatch (.bind hhandler fun r => ?_) fun e => ?_
  · cases r with
    | none => exact hack _
    | some next => exact .bind (hnext next) fun _ => hack _
  · cases e with
    | permanent => exact hack _
    | transient => exact retry_posts cfg S m
    | other => exact .tryCatch (calls_call trivial) fun _ => trivial

end Python

namespace Chunker

theorem process_posts (cfg : Config) (m : Message) :
    (process cfg m.body).Calls (Posts cfg m) := by
  refine process_calls_of (fun _ => posts_of_internal) fun n => ?_
  unfold publishNext
  refine .bind (.perform trivial) fun r => ?_
  cases r with
  | error e => trivial
  | ok id => exact .bind (.perform ⟨⟨rfl, rfl, rfl⟩, rfl, rfl⟩) fun _ => trivial

theorem handle_posts {cfg : Config} {m : Message} (hm : m.Counted cfg)
    (hmax : cfg.maxRetries < 2 ^ 31) : (handle cfg m).Calls (Posts cfg m) := by
  unfold handle
  have hattempt : m.body.attempt ≠ 0 := by
    have := hm.pos
    omega
  rw [if_neg hattempt]
  have hack : ∀ o, (Prog.perform (.ack o) >>= fun _ => pure () : Program Unit).Calls (Posts cfg m) :=
    fun o => .bind (.perform trivial) fun _ => trivial
  refine .bind (process_posts cfg m) fun r => ?_
  split
  · exact hack _
  · exact hack _
  · split
    · exact .bind (.bind (.perform ⟨rfl, rfl⟩) fun _ => trivial) fun _ => hack _
    · rename_i hlt
      have hint : int32 (m.body.attempt + 1) = m.body.attempt + 1 := by
        have := hm.pos
        unfold int32
        omega
      refine .bind (.bind (.perform ⟨by omega, rfl, ?_⟩) fun _ => trivial) fun _ => hack _
      exact congrArg some hint

end Chunker

theorem consumer_posts {cfg : Config} {S : Stage} {m : Message} (hm : m.Counted cfg)
    (hmax : cfg.maxRetries < 2 ^ 31) : (consumer cfg S m).Calls (Posts cfg m) := by
  cases S with
  | ocr =>
    refine Python.onMessage_posts ((Ocr.handle_internal _).mono fun _ => posts_of_internal) fun n => ?_
    exact calls_call ⟨⟨rfl, rfl, rfl⟩, rfl, rfl⟩
  | chunk => exact Chunker.handle_posts hm hmax
  | embed =>
    show (Embedder.onMessage cfg m).Calls _
    unfold Embedder.onMessage
    refine Python.onMessage_posts ?_ fun n => nomatch n
    exact .bind ((Embedder.handle_internal _).mono fun _ => posts_of_internal) fun _ => trivial

/-- What an upload publishes. -/
def FirstPost : Call → Prop
  | .publish exchange _ m => exchange = .ingest ∧ m.body.attempt = 1 ∧ m.headers.attempt = some 1
  | _ => True

theorem Api.createDocument_posts (cfg : Config) (upload : Option Api.Upload) (title : Option Text)
    (tenantId : Text) : (Api.createDocument cfg upload title tenantId).Calls FirstPost :=
  createDocument_calls_of trivial (fun _ _ => trivial) (fun _ _ => trivial)
    fun _ _ _ _ => ⟨rfl, rfl, rfl⟩

/-! ## What stays in the queues -/

/-- The copies count their attempts, and a message that a worker handed on is for
the request of the message it handled. -/
structure Posted (cfg : Config) (w : World) : Prop where
  counted : ∀ S c, w.broker.Holds S c → c.message.Counted cfg
  handed : ∀ p ∈ w.broker.accepted, ∀ c, w.broker.handled p.publisher = some c →
    p.message.body.SameRequest c.message.body

/-- Any run at all; a request to the API stays one. -/
def contentDiscipline (cfg : Config) : Discipline where
  ok := anyStep
  known := Base
  moves := Grows
  admits _ _ _ _ := True
  inv := Posted cfg
  rely i _ w w' := w.broker.handled i = none → w'.broker.handled i = none
  guar _ _ _ _ _ := True
  moves_refl := .refl
  moves_trans _ _ _ := .trans
  rely_refl _ _ _ := id
  rely_trans _ _ _ _ _ h h' hi := h' (h hi)
  post _ _ := True

section Steps
variable {cfg : Config} {i : Nat} {c : Call} {v : c.Val} {w w' : World}

/-- The copies a step adds are of the message it publishes. -/
theorem holds_of_does (hb : Base w) (hd : Does i c v w w') {S : Stage} {x : Copy}
    (hx : w'.broker.Holds S x) :
    w.broker.Holds S x ∨ ∃ exchange key m, c = .publish exchange key m ∧ x.message = m := by
  cases c with
  | alreadyProcessed | fetchDocument | fetchChunksWithoutEmbedding | downloadObject | embedBatch
  | retryDocument | freshId =>
    obtain ⟨-, rfl⟩ := hd
    exact Or.inl hx
  | createDocument =>
    rcases hd with ⟨e, -, rfl⟩ | ⟨d, db, -, -, rfl⟩ <;> exact Or.inl hx
  | publish exchange key m =>
    obtain rfl := hd
    exact hx.of_publish.imp_right fun hm => ⟨exchange, key, m, rfl, hm⟩
  | ack o =>
    obtain ⟨copy, -, rfl⟩ := hd
    exact Or.inl hx.of_ack
  | nack =>
    obtain ⟨copy, ⟨T, leg⟩, hdel, rfl⟩ := hd
    obtain rfl : leg = .work := hb.mail.fromWork i _ hdel
    exact Or.inl (hx.of_nack hdel)
  | _ =>
    obtain rfl := hd
    exact Or.inl hx

/-- What a step hands to `ingest`. -/
theorem of_accepted_of_does (hd : Does i c v w w') {p : Publication} (hp : p ∈ w'.broker.accepted) :
    p ∈ w.broker.accepted ∨ ∃ key m, c = .publish .ingest key m ∧ p = ⟨w.broker.nextCopy, i, m⟩ := by
  by_cases hc : ∃ key m, c = .publish .ingest key m
  · obtain ⟨key, m, rfl⟩ := hc
    obtain rfl := hd
    exact (w.broker.of_mem_publish_accepted hp).imp_right fun h => ⟨key, m, rfl, h.2⟩
  · rw [accepted_of_does hd fun key m he => hc ⟨key, m, he⟩] at hp
    exact Or.inl hp

/-- **A step keeps what is posted**, when the message it publishes is as it should be. -/
theorem Posted.does (h : Posted cfg w) (hb : Base w) (hd : Does i c v w w')
    (hcounted : ∀ exchange key m, c = .publish exchange key m → m.Counted cfg)
    (hhanded : ∀ key m, c = .publish .ingest key m → ∀ x, w.broker.handled i = some x →
      m.body.SameRequest x.message.body) : Posted cfg w' := by
  constructor
  · intro S x hx
    rcases holds_of_does hb hd hx with hold | ⟨exchange, key, m, hc, rfl⟩
    · exact h.counted S x hold
    · exact hcounted exchange key _ hc
  · intro p hp x hx
    rw [handled_of_does hd] at hx
    rcases of_accepted_of_does hd hp with hold | ⟨key, m, hc, rfl⟩
    · exact h.handed p hold x hx
    · exact hhanded key m hc x hx

/-- Execution `i` handles a message that counts its attempts. -/
def Consumes (cfg : Config) (i : Nat) (m : Message) (w : World) : Prop :=
  (∃ x, w.broker.handled i = some x ∧ x.message = m) ∧ m.Counted cfg

theorem keeps_consumes (m : Message) :
    (contentDiscipline cfg).Keeps i (Consumes cfg i m) (Posts cfg m) where
  stable c w w' _ h hg _ _ _ := by
    obtain ⟨⟨x, hx, hm⟩, hcounted⟩ := h
    exact ⟨⟨x, hg.broker.handled hx, hm⟩, hcounted⟩
  fail _ _ _ _ _ _ _ := trivial
  does c w v w' a hc h hb hinv _ hg _ _ hd := by
    obtain ⟨⟨x, hx, hm⟩, hcounted⟩ := h
    refine ⟨hinv.does hb hd ?_ ?_, trivial, ⟨x, hg.broker.handled hx, hm⟩, hcounted⟩
    · rintro exchange key m' rfl
      have hpos := hcounted.pos
      cases exchange with
      | ingest =>
        obtain ⟨-, hattempt, hheader⟩ := hc
        exact .first hattempt hheader
      | retry =>
        obtain ⟨hlt, hattempt, hheader⟩ := hc
        exact ⟨by omega, by omega, hheader.trans (congrArg some hattempt.symm)⟩
      | dlx =>
        obtain ⟨hbody, hheaders⟩ := hc
        refine ⟨hbody ▸ hcounted.pos, hbody ▸ hcounted.le, ?_⟩
        rw [hbody, hheaders]
        exact hcounted.header
    · rintro key m' rfl x' hx'
      obtain rfl := Option.some.inj (hx.symm.trans hx')
      exact hm ▸ hc.1

theorem keeps_request_content :
    (contentDiscipline cfg).Keeps i (fun w => w.broker.handled i = none) FirstPost where
  stable c w w' _ h _ _ hr _ := hr h
  fail _ _ _ _ _ _ _ := trivial
  does c w v w' a hc h hb hinv _ _ _ _ hd := by
    refine ⟨hinv.does hb hd ?_ ?_, trivial, (handled_of_does hd i).trans h⟩
    · rintro exchange key m rfl
      obtain ⟨-, hattempt, hheader⟩ := hc
      exact .first hattempt hheader
    · rintro key m rfl x hx
      rw [h] at hx
      cases hx

end Steps

/-! ## Every run -/

theorem holds_of_envMove {s : Sys} {l : Label} {w : World} (h : EnvMove s l w) {S : Stage}
    {x : Copy} (hx : w.broker.Holds S x) : s.world.broker.Holds S x := by
  have htake : ∀ i, (s.world.takeBack i).broker.Holds S x → s.world.broker.Holds S x := by
    intro i hx
    rcases takeBack_cases s.world i with he | ⟨copy, q, hd, he⟩ <;> rw [he] at hx
    · exact hx
    · exact hx.of_requeue hd
  cases h with
  | deliver _ hcopy => exact hx.of_deliver hcopy
  | die => exact htake _ hx
  | redeliver => exact htake _ hx
  | expire hcopy => exact hx.of_expire hcopy

theorem content_sound {cfg : Config} (hmax : cfg.maxRetries < 2 ^ 31) :
    (contentDiscipline cfg).Sound cfg .init where
  reached := .start
  start := by
    refine Discipline.safe_init ⟨?_, fun p hp => nomatch hp⟩
    rintro S c (⟨leg, h⟩ | ⟨i, d, h, -, -⟩)
    · exact nomatch h
    · exact nomatch h
  known s h := reachable_base h
  moves s l s' h _ hstep := grows_of_step h hstep
  admits _ _ _ _ _ _ _ _ _ := trivial
  others s i a c k r w _ _ _ _ hx _ j c' k' _ _ := by
    intro hj
    rcases exec_cases hx with ⟨-, -, -, -, rfl⟩ | ⟨v, -, -, hd⟩
    · exact hj
    · exact (handled_of_does hd j).trans hj
  env s l w hs hsafe _ hmove _ _ := by
    constructor
    · refine ⟨fun S c hc => hsafe.1.counted S c (holds_of_envMove hmove hc),
        fun p hp c hc => ?_⟩
      rw [accepted_of_envMove hmove] at hp
      by_cases hdeliver : ∃ S n, l = .deliver p.publisher S n
      · -- nobody has published under the number of a new execution
        obtain ⟨S, n, rfl⟩ := hdeliver
        cases hmove with
        | deliver hunused => exact absurd rfl ((hunused.untouched hs).accepted p hp)
      · rw [handled_of_envMove hmove fun S n he => hdeliver ⟨S, n, he⟩] at hc
        exact hsafe.1.handed p hp c hc
    · intro j c k hj _ hnone
      refine (handled_of_envMove hmove fun S n he => ?_).trans hnone
      subst he
      cases hmove with
      | deliver hunused =>
        rw [Option.isNone_iff_eq_none.mp hunused.1] at hj
        cases hj
  upload s i upload title tenantId _ _ _ hunused _ := by
    have hnone : s.world.broker.handled i = none := by
      unfold Broker.handled
      rw [Option.isNone_iff_eq_none.mp hunused.2]
      rfl
    exact wp_mono (keeps_request_content.calls
      (.bind (Api.createDocument_posts cfg upload title tenantId) fun _ => trivial) hnone)
      (fun _ _ _ => trivial) fun _ _ _ => trivial
  retryRequest s i documentId _ _ _ hunused _ := by
    have hnone : s.world.broker.handled i = none := by
      unfold Broker.handled
      rw [Option.isNone_iff_eq_none.mp hunused.2]
      rfl
    have hkeeps : (contentDiscipline cfg).Keeps i (fun w => w.broker.handled i = none) Api.RetryCall :=
      keeps_request_content.mono fun c hc => by
        cases c <;> trivial
    exact wp_mono (Api.retryAction_keeps hkeeps documentId hnone) (fun _ _ _ => trivial)
      fun _ _ _ => trivial
  consumer s i S n copy w _ hsafe _ _ _ hcopy hw _ hinv := by
    have hd : w.broker.deliveries i = some ⟨copy, ⟨S, .work⟩, true⟩ := by
      rw [hw]
      simp [Broker.deliver]
    have hconsumes : Consumes cfg i copy.message w :=
      ⟨⟨copy, by simp [Broker.handled, hd], rfl⟩, hinv.counted S copy (.delivered i _ hd rfl rfl)⟩
    exact wp_mono ((keeps_consumes copy.message).calls (consumer_posts hconsumes.2 hmax) hconsumes)
      (fun _ _ _ => trivial) fun _ _ _ => trivial

/-! ### Back to the request -/

section Request
variable {cfg : Config} {w : World} {S : Stage} {c : Copy}

/-- Every copy goes back to a publication by the API: one stage after the other. -/
theorem Stems.stemsFrom (hb : Base w) (h : Stems w.broker S c) : ∃ q, StemsFrom w c q := by
  have hocr : ∀ c, Stems w.broker .ocr c → ∃ q, StemsFrom w c q := by
    intro c h
    obtain ⟨p, hp, hc, hstage, -⟩ := h.source
    have hsource := (hb.mail.published p hp).source
    unfold Source at hsource
    rw [hstage] at hsource
    exact ⟨p, .api hp hc hsource.2⟩
  have hchunk : ∀ c, Stems w.broker .chunk c → ∃ q, StemsFrom w c q := by
    intro c h
    obtain ⟨p, hp, hc, hstage, -⟩ := h.source
    have hsource := (hb.mail.published p hp).source
    unfold Source at hsource
    rw [hstage] at hsource
    obtain ⟨env, ⟨c', hc', hstems, -⟩, -⟩ := hsource
    obtain ⟨q, hq⟩ := hocr c' hstems
    exact ⟨q, .handed hp hc hc' hq⟩
  cases S with
  | ocr => exact hocr c h
  | chunk => exact hchunk c h
  | embed =>
    obtain ⟨p, hp, hc, hstage, -⟩ := h.source
    have hsource := (hb.mail.published p hp).source
    unfold Source at hsource
    rw [hstage] at hsource
    obtain ⟨-, env, ⟨c', hc', hstems, -⟩, -⟩ := hsource
    obtain ⟨q, hq⟩ := hchunk c' hstems
    exact ⟨q, .handed hp hc hc' hq⟩

/-- All the copies that go back to a publication are for its request. -/
theorem StemsFrom.sameRequest (hb : Base w) (hposted : Posted cfg w) {q : Publication}
    (h : StemsFrom w c q) : ∀ S, Stems w.broker S c → c.message.body.SameRequest q.message.body := by
  induction h with
  | api hq hc _ =>
    intro S hstems
    obtain ⟨p, hp, hcopy, -, halike⟩ := hstems.source
    obtain rfl := hb.mail.copies p hp _ hq (hcopy.trans hc.symm)
    exact .of_alike halike
  | handed hp hc hi _ ih =>
    intro S hstems
    obtain ⟨p', hp', hcopy, -, halike⟩ := hstems.source
    obtain rfl := hb.mail.copies p' hp' _ hp (hcopy.trans hc.symm)
    obtain ⟨S', hstems'⟩ := hb.stems_of_handled hi
    exact (Envelope.SameRequest.of_alike halike).trans
      ((hposted.handed _ hp _ hi).trans (ih S' hstems'))

end Request

/-- **The queues contain what they should**, in every state of every run, if
`MAX_RETRIES` fits into an `int32`. -/
theorem queue_content {cfg : Config} {s : Sys} (hmax : cfg.maxRetries < 2 ^ 31)
    (h : Reachable cfg anyStep s) : QueueContent cfg s.world := by
  intro S c hc
  have hb := reachable_base h
  have hposted : Posted cfg s.world := ((content_sound hmax).safe h).1
  have hstems := hb.mail.held S c hc
  obtain ⟨p, hp, -, hstage, halike⟩ := hstems.source
  refine ⟨halike.stage.trans hstage, ?_, hposted.counted S c hc, hstems.stemsFrom hb,
    fun q hq => hq.sameRequest hb hposted S hstems⟩
  rw [halike.idempotencyKey, halike.documentId, (hb.mail.published p hp).key, hstage]

/-- The run in which the text has been recognised is one of them. -/
theorem queue_content_sample :
    ∃ s, run (step sampleConfig) .init (uploadRun ++ ocrRun 1) = some s ∧
      (s.world.broker.queues ⟨.chunk, .work⟩).length = 1 ∧ QueueContent sampleConfig s.world := by
  obtain ⟨s, hs, hlength⟩ := exists_run (step sampleConfig) .init (uploadRun ++ ocrRun 1)
    (fun s => (s.world.broker.queues ⟨.chunk, .work⟩).length = 1) (by decide)
  exact ⟨s, hs, hlength, queue_content (by decide) (Reaches.of_run hs)⟩

/-! ## More retries than an `int32` can count -/

/-- As many retries as it takes. -/
def patientConfig : Config := { sampleConfig with maxRetries := 2 ^ 31 }

/-- The chunk message `m` waits alone, and the numbers from `i` on are unused. -/
structure Waits (s : Sys) (i : Nat) (m : Message) : Prop where
  work : ∃ id origin, s.world.broker.queues ⟨.chunk, .work⟩ = [⟨id, origin, m⟩]
  retry : s.world.broker.queues ⟨.chunk, .retry⟩ = []
  unused : ∀ j, i ≤ j → s.Unused j
  document : m.body.documentId ≠ 0

section Retries
variable {cfg : Config} {s : Sys} {i : Nat} {m : Message}

/-- When the first query fails, the chunker publishes a retry and acks. -/
theorem Chunker.handle_retries (hattempt : m.body.attempt ≠ 0) (hdoc : m.body.documentId ≠ 0)
    (hlt : m.body.attempt < cfg.maxRetries) :
    ∃ k, handle cfg m = .call (.alreadyProcessed m.body.messageId) k ∧
    ∃ k', k (.error "") = .call (.publish .retry ⟨.chunk, .retry⟩
      (retryMessage { m.body with attempt := m.body.attempt + 1 })) k' ∧
    ∃ k'', k' (.ok ()) = .call (.ack .retried) k'' := by
  have hge : ¬ m.body.attempt ≥ cfg.maxRetries := by omega
  unfold handle process
  rw [if_neg hattempt]
  dsimp only
  rw [if_neg hdoc]
  refine ⟨_, rfl, ?_⟩
  have hretry : ∃ k', (if m.body.attempt ≥ cfg.maxRetries then (do
        let _ ← publishDLQ m.body m
        let _ ← Prog.perform (.ack .deadLettered))
      else (do
        let _ ← publishRetry { m.body with attempt := m.body.attempt + 1 }
        let _ ← Prog.perform (.ack .retried)) : Program Unit) =
      .call (.publish .retry ⟨.chunk, .retry⟩
        (retryMessage { m.body with attempt := m.body.attempt + 1 })) k' ∧
      ∃ k'', k' (.ok ()) = .call (.ack .retried) k'' := by
    rw [if_neg hge]
    exact ⟨_, rfl, _, rfl⟩
  exact hretry

/-- One call of execution `i`, whose other executions stand still. -/
theorem reaches_run {t : Sys} {a : Answer} {c : Call} {k : c.Reply → Program Unit} {r : c.Reply}
    {w w' : World} (h : Reaches (step cfg) anyStep s ((t.move w).spawn i (.call c k)))
    (hx : exec i c a w = some (r, w')) :
    Reaches (step cfg) anyStep s ((t.move w').spawn i (k r)) := by
  refine h.next (l := .run i a) trivial ?_
  simp [step, hx]
  simp [Pool.spawn, Pool.move]

/-- A delivery of the message that waits alone, and a retry published for it. -/
theorem Broker.deliver_retry {b : Broker} {S : Stage} {c : Copy}
    (hwork : b.queues ⟨S, .work⟩ = [c]) (hretry : b.queues ⟨S, .retry⟩ = []) (i : Nat) (m : Message) :
    let b' := (b.deliver i ⟨S, .work⟩ 0 c).publish i .retry ⟨S, .retry⟩ m
    b'.deliveries i = some ⟨c, ⟨S, .work⟩, true⟩ ∧ b'.queues ⟨S, .work⟩ = [] ∧
      (∃ id origin, b'.queues ⟨S, .retry⟩ = [⟨id, origin, m⟩]) ∧
      ∀ j, j ≠ i → b'.deliveries j = b.deliveries j := by
  intro b'
  have hb' : b' = (b.deliver i ⟨S, .work⟩ 0 c).enqueue
      ((b.deliver i ⟨S, .work⟩ 0 c).originOf i .retry) m ⟨S, .retry⟩ := publish_retry _ _ _ _
  rw [hb']
  refine ⟨by simp [enqueue, push, deliver], by simp [enqueue, push, deliver, remove, hwork],
    ⟨b.nextCopy, (b.deliver i ⟨S, .work⟩ 0 c).originOf i .retry, ?_⟩, fun j hj => ?_⟩
  · simp [enqueue, push, deliver, remove, hretry]
  · simp [enqueue, push, deliver, remove, hj]

/-- **One more retry**: the message is delivered, published again and expires back. -/
theorem Waits.retries (h : Waits s i m) (hattempt : m.body.attempt ≠ 0)
    (hlt : m.body.attempt < cfg.maxRetries) : ∃ s', Reaches (step cfg) anyStep s s' ∧
      Waits s' (i + 1) (Chunker.retryMessage { m.body with attempt := m.body.attempt + 1 }) := by
  obtain ⟨id, origin, hwork⟩ := h.work
  obtain ⟨k, hk, k', hk', k'', hk''⟩ := Chunker.handle_retries hattempt h.document hlt
  -- the delivery
  have hdeliver : step cfg s (.deliver i .chunk 0) = some ((s.move { s.world with
      broker := s.world.broker.deliver i ⟨.chunk, .work⟩ 0 ⟨id, origin, m⟩ }).spawn i
        (Chunker.handle cfg m)) := by
    simp [step, h.unused i le_rfl, hwork, consumer]
  have h₁ : Reaches (step cfg) anyStep s _ := Reaches.start.next trivial hdeliver
  rw [hk] at h₁
  -- the query fails, the retry is published and the delivery acked
  have h₂ := reaches_run (a := .fail "") h₁ rfl
  rw [hk'] at h₂
  have h₃ := reaches_run (a := .ok) h₂ rfl
  rw [hk''] at h₃
  generalize hm' : Chunker.retryMessage { m.body with attempt := m.body.attempt + 1 } = m' at h₃ ⊢
  obtain ⟨hdelivery, hempty, ⟨id', origin', hretry⟩, hothers⟩ :=
    Broker.deliver_retry hwork h.retry i m'
  generalize (s.world.broker.deliver i ⟨.chunk, .work⟩ 0 ⟨id, origin, m⟩).publish i .retry
    ⟨.chunk, .retry⟩ m' = b at h₃ hdelivery hempty hretry hothers
  have hack : exec i (.ack .retried) .ok { s.world with broker := b } =
      some (.ok (), { s.world with broker := b.ack i ⟨id, origin, m⟩ .retried }) := by
    simp [exec, reply, hdelivery]
  have h₄ := reaches_run h₃ hack
  -- the retry expires
  have hexpire : ∀ t : Sys, t.world.broker.queues ⟨.chunk, .retry⟩ = [⟨id', origin', m'⟩] →
      step cfg t (.expire .chunk 0) = some (t.move { t.world with
        broker := t.world.broker.expire ⟨.chunk, .retry⟩ 0 ⟨id', origin', m'⟩ }) := by
    intro t ht
    simp [step, ht]
  refine ⟨_, h₄.next trivial (hexpire _ hretry), ?_⟩
  refine ⟨⟨id', origin', ?_⟩, ?_, fun j hj => ?_, ?_⟩
  · simp [Broker.expire_retry, Broker.push, Broker.remove, Broker.ack, hempty]
  · simp [Broker.expire_retry, Broker.push, Broker.remove, Broker.ack, hretry]
  · have hne : j ≠ i := by omega
    obtain ⟨hprog, hdel⟩ := h.unused j (by omega)
    refine ⟨by simpa [Pool.spawn_progs_of_ne _ _ _ hne] using hprog, ?_⟩
    rw [Broker.expire_retry]
    simpa [Broker.ack, Broker.release_deliveries, hne, hothers j hne] using hdel
  · rw [← hm']
    exact h.document

/-- As many retries as `MAX_RETRIES` allows. -/
theorem Waits.count (h : Waits s i m) (hm : m.body.attempt = 1) (n : Nat)
    (hn : (n : Int) + 1 < cfg.maxRetries) : ∃ s' m', Reaches (step cfg) anyStep s s' ∧
      Waits s' (i + (n + 1)) (Chunker.retryMessage m') ∧ m'.attempt = n + 2 := by
  induction n with
  | zero =>
    have hlt : m.body.attempt < cfg.maxRetries := by omega
    obtain ⟨s', hs', h'⟩ := h.retries (by omega) hlt
    exact ⟨s', _, hs', h', by simp [hm]⟩
  | succ n ih =>
    obtain ⟨s₁, m₁, hs₁, h₁, hattempt⟩ := ih (by omega)
    have hbody : (Chunker.retryMessage m₁).body.attempt = n + 2 := hattempt
    have hlt : (Chunker.retryMessage m₁).body.attempt < cfg.maxRetries := by omega
    obtain ⟨s', hs', h'⟩ := h₁.retries (by omega) hlt
    refine ⟨s', _, hs₁.trans hs', h', ?_⟩
    show (Chunker.retryMessage m₁).body.attempt + 1 = _
    omega

end Retries

/-- A document's text has been recognised; its chunk message waits. -/
theorem exists_waits : ∃ s m, Reachable patientConfig anyStep s ∧ Waits s 2 m ∧ m.body.attempt = 1 := by
  have hrun : ∃ s, run (step patientConfig) .init (uploadRun ++ ocrRun 1) = some s ∧
      ((s.world.broker.queues ⟨.chunk, .work⟩).map fun c =>
        (c.message.body.documentId, c.message.body.attempt)) = [(1, 1)] ∧
      s.world.broker.queues ⟨.chunk, .retry⟩ = [] :=
    exists_run (step patientConfig) .init (uploadRun ++ ocrRun 1) (fun s => _ ∧ _) (by decide)
  obtain ⟨s, hs, hwork, hretry⟩ := hrun
  obtain ⟨⟨id, origin, m⟩, hc, hm⟩ := List.map_eq_singleton_iff.mp hwork
  obtain ⟨hdoc, hattempt⟩ := Prod.mk.inj hm
  refine ⟨s, m, (Reaches.of_run hs).mono fun _ _ _ => trivial, ⟨⟨id, origin, hc⟩, hretry, ?_, ?_⟩,
    hattempt⟩
  · intro j hj
    exact unused_of_run hs (by decide) hj
  · show m.body.documentId ≠ 0
    rw [show m.body.documentId = 1 from hdoc]
    decide

/-- With 2³¹ retries the header of the last one is negative. -/
theorem not_queue_content :
    ¬ ∀ (cfg : Config) (s : Sys), Reachable cfg anyStep s → QueueContent cfg s.world := by
  intro hall
  obtain ⟨s, m, hs, hwaits, hattempt⟩ := exists_waits
  have hmax : ((2 ^ 31 - 2 : Nat) : Int) + 1 < patientConfig.maxRetries := by decide
  obtain ⟨s', m', hs', hwaits', hcount⟩ := hwaits.count hattempt (2 ^ 31 - 2) hmax
  obtain ⟨id, origin, hwork⟩ := hwaits'.work
  have hheld : s'.world.broker.Holds .chunk ⟨id, origin, Chunker.retryMessage m'⟩ :=
    .queued .work (by rw [hwork]; exact List.mem_singleton_self _)
  have hheader := (hall patientConfig s' (hs.trans hs') .chunk _ hheld).counted.header
  have hint : Chunker.int32 m'.attempt = m'.attempt := Option.some.inj hheader
  rw [hcount] at hint
  revert hint
  decide

end DigitalCip
