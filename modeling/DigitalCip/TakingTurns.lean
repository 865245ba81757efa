import DigitalCip.EmbeddedDocuments
import DigitalCip.Invariant.Finished
import DigitalCip.Invariant.Tracking
import DigitalCip.Resumable.Automaton

/-!
# Chunkers that take turns

What makes a document `embedded` that has chunks without an embedding is a chunker that is
overtaken: it has looked for the dedupe row before another one has inserted it.  When
chunkers take turns, one that finds no dedupe row is the only one that has begun, and it
hands the document on after it has inserted the row.  So no chunks are replaced once the
document has been handed on, and no assumption is needed on when they are inserted.
-/

namespace DigitalCip
open Resumable

/-- No chunker makes a call while another one has begun and has not ended. -/
def chunkersTakeTurns (cfg : Config) (s : Sys) : Label → Prop
  | .run i _ => ∀ m, s.world.broker.handled i = some m → m.message.body.stage = .chunk →
      ∀ j copy, j ≠ i → s.world.broker.handled j = some copy → copy.message.body.stage = .chunk →
        (s.pending j).isSome → s.progs j = some (consumer cfg .chunk copy.message)
  | _ => True

/-- Chunkers take turns, and their dedupe rows are inserted. -/
def inTurn (cfg : Config) (s : Sys) (l : Label) : Prop :=
  chunkersTakeTurns cfg s l ∧ chunkerRecords s l

/-! ## Who calls what -/

section OnTask
variable {cfg : Config} {ok : Sys → Label → Prop} {w : World} {i : Nat} {copy : Copy}

/-- An execution makes the calls of a request, or those of the consumer of its message. -/
def OnTask (i : Nat) (p : Program Unit) (w : World) : Prop :=
  p.Calls Api.RequestCall ∨ ∃ copy, w.broker.handled i = some copy ∧
    p.Calls (ConsumerCall copy.message.body.stage copy.message)

theorem onTask_tracks (cfg : Config) (ok : Sys → Label → Prop) : Tracks cfg ok OnTask where
  stable s l s' i p hs _ hstep _ _ h := by
    refine h.imp_right ?_
    rintro ⟨copy, hcopy, hp⟩
    exact ⟨copy, (grows_of_step hs hstep).broker.handled hcopy, hp⟩
  upload s i u t x _ _ _ :=
    Or.inl (.bind ((Api.createDocument_calls cfg u t x).mono fun _ => Api.request_of_upload)
      fun _ => trivial)
  retryRequest s i d _ _ _ := Or.inl (.bind (Api.retryAction_requests d) fun _ => trivial)
  consumer s i S n copy w _ _ hi hb hw := by
    obtain ⟨-, hstage, -⟩ := hb.delivered hi hw
    refine Or.inr ⟨copy, ?_, hstage.symm ▸ consumer_calls cfg S copy.message⟩
    rw [hw]
    simp [Broker.handled, Broker.deliver]
  run s i a c k r w _ _ _ _ hg h := by
    rcases h with h | ⟨copy, hcopy, h⟩
    · exact Or.inl (h.2 r)
    · exact Or.inr ⟨copy, hg.broker.handled hcopy, h.2 r⟩
  died _ _ _ := Or.inl trivial

/-- The message that an execution was started for. -/
theorem Base.handles (hb : Base w) (hi : w.broker.handled i = some copy) :
    Handles w i copy.message.body.stage copy.message.body := by
  obtain ⟨d, hd, rfl⟩ := Option.map_eq_some_iff.mp hi
  have hstems := hb.mail.held d.queue.stage d.copy (.delivered i d hd rfl rfl)
  obtain ⟨p, -, -, hstage, halike⟩ := hstems.source
  rw [halike.stage, hstage]
  exact ⟨d.copy, hi, hstems, .refl _⟩

/-- Only chunkers insert chunks, insert dedupe rows of that stage and hand documents on to
the embedder. -/
theorem stage_of_chunkerCall {S : Stage} {m : Message} {c : Call} (h : ConsumerCall S m c)
    (hc : (∃ d rows, c = .insertChunks d rows) ∨ (∃ row, c = .recordProcessed row ∧ row.stage = .chunk) ∨
      ∃ key m', c = .publish .ingest key m' ∧ m'.body.stage = .embed) : S = .chunk := by
  rcases hc with ⟨d, rows, rfl⟩ | ⟨row, rfl, hrow⟩ | ⟨key, m', rfl, hm'⟩
  · rcases h with h | (h | h) | ⟨T, -, h⟩
    · exact h.2
    · exact h.elim
    · cases h
    · exact h.elim
  · rcases h with h | (h | h) | ⟨T, -, h⟩
    · exact h.2.2.symm.trans hrow
    · exact h.elim
    · cases h
    · exact h.elim
  · rcases h with h | (h | h) | ⟨T, ⟨-, rfl⟩ | ⟨hS, -⟩, h⟩
    · exact h.elim
    · exact h.elim
    · cases h
    · rw [h.2.1] at hm'
      cases hm'
    · exact hS

/-- Only the embedding worker makes the calls between its fetch and its write of the
status. -/
theorem stage_of_embedding {S : Stage} {m : Message} {c : Call} (h : ConsumerCall S m c)
    (hc : c.embedding = true) : S = .embed := by
  by_contra hS
  cases c with
  | embedBatch | writeEmbeddings =>
    rcases h with h | (h | h) | ⟨T, -, h⟩
    · exact hS h
    · exact h.elim
    · cases h
    · exact h.elim
  | updateDocument d u => exact unembedding_of_consumer hS h (of_decide_eq_true hc)
  | _ => cases hc

end OnTask

/-! ## Turns -/

/-- How far a chunker is: it has found no dedupe row, or it has inserted one. -/
inductive Turn where
  | before
  | checked
  | recorded
  deriving DecidableEq, Repr

/-- What a call and its reply make of it. -/
def Call.turns : (c : Call) → c.Reply → Turn → Turn
  | .alreadyProcessed _, .ok false, _ => .checked
  | .recordProcessed _, .ok _, _ => .recorded
  | _, _, turn => turn

/-- A chunker inserts chunks only if it has found no dedupe row, and hands on only after it
has inserted one. -/
def Turn.Allows (env : Envelope) (turn : Turn) : Call → Prop
  | .alreadyProcessed m => m = env.messageId
  | .recordProcessed row =>
    row.messageId = env.messageId ∧ row.documentId = env.documentId ∧ row.stage = .chunk
  | .insertChunks d _ => d = env.documentId ∧ turn = .checked
  | .publish .ingest _ m => m.body.documentId = env.documentId ∧ turn = .recorded
  | _ => True

/-- The inserts of dedupe rows do not fail. -/
def turning (env : Envelope) : Automaton Turn Call Call.Reply where
  moves c turn r turn' := (∀ row reason, c = .recordProcessed row → r ≠ .error reason) ∧ turn' = c.turns r turn
  owed turn c := turn.Allows env c

namespace Chunker
variable {cfg : Config} {env : Envelope} {turn : Turn} {α : Type} {c : Call}

/-- The program keeps to its turn. -/
abbrev Turns (env : Envelope) (p : Program α) (turn : Turn) : Prop :=
  (turning env).Accepts p (fun _ _ => True) (fun _ _ => True) turn

theorem turns_perform {k : c.Reply → Program α} (hc : turn.Allows env c)
    (hk : ∀ r : c.Reply, (∀ row reason, c = .recordProcessed row → r ≠ .error reason) →
      Turns env (k r) (c.turns r turn)) :
    Turns env (Prog.perform c >>= k) turn := by
  refine Automaton.accepts_perform hc ?_
  rintro r _ ⟨hr, rfl⟩
  exact hk r hr

theorem publishNext_turns (n : Nat) : Turns env (publishNext env n) .recorded := by
  unfold publishNext
  refine turns_perform trivial fun r _ => ?_
  cases r with
  | error => trivial
  | ok id => exact turns_perform ⟨rfl, rfl⟩ fun _ _ => trivial

theorem chunkDocument_turns (rawText : Text) : Turns env (chunkDocument cfg env rawText) .checked := by
  unfold chunkDocument
  dsimp only
  split
  · exact turns_perform trivial fun _ _ => turns_perform trivial fun _ _ => trivial
  refine turns_perform ⟨rfl, rfl⟩ fun r _ => ?_
  cases r with
  | error => trivial
  | ok =>
    refine turns_perform trivial fun r _ => ?_
    cases r with
    | error => trivial
    | ok =>
      refine turns_perform trivial fun _ _ => turns_perform ⟨rfl, rfl, rfl⟩ fun r hr => ?_
      cases r with
      | error reason => exact absurd rfl (hr _ reason rfl)
      | ok => exact publishNext_turns _

theorem process_turns (env : Envelope) : Turns env (process cfg env) turn := by
  unfold process
  split
  · trivial
  refine turns_perform rfl fun seen _ => ?_
  match seen with
  | .error _ => trivial
  | .ok true => trivial
  | .ok false =>
    refine turns_perform trivial fun found _ => ?_
    match found with
    | .error _ => trivial
    | .ok none => trivial
    | .ok (some document) =>
      dsimp only
      split
      · trivial
      split
      · trivial
      refine turns_perform trivial fun r _ => ?_
      cases r with
      | error => trivial
      | ok => exact turns_perform trivial fun _ _ => chunkDocument_turns _

/-- **A chunker keeps to its turn.** -/
theorem handle_turns (m : Message) : Turns m.body (handle cfg m) turn := by
  have hack : ∀ o turn, Turns m.body (Prog.perform (.ack o) >>= fun _ => pure () : Program Unit) turn :=
    fun o turn => turns_perform trivial fun _ _ => trivial
  have hpublish : ∀ (e : Exchange) (q : RoutingKey) (m' : Message) (turn : Turn), e ≠ .ingest →
      Turns m.body (Prog.perform (.publish e q m') >>= fun r => pure (errorOf r)) turn := by
    intro e q m' turn he
    refine turns_perform ?_ fun _ _ => trivial
    cases e with
    | ingest => exact absurd rfl he
    | retry | dlx => trivial
  have hbind : ∀ {β : Type} {p : Program β} {f : β → Program Unit} {turn}, Turns m.body p turn →
      (∀ x turn, Turns m.body (f x) turn) → Turns m.body (p >>= f) turn := by
    intro β p f turn hp hf
    rw [Turns, Automaton.accepts_bind]
    exact hp.mono (fun x turn _ => hf x turn) fun _ _ _ => trivial
  unfold handle
  dsimp only
  have hprocess : Turns m.body
      (process cfg (if m.body.attempt = 0 then { m.body with attempt := 1 } else m.body)) turn := by
    split
    · exact process_turns { m.body with attempt := 1 }
    · exact process_turns m.body
  generalize (if m.body.attempt = 0 then { m.body with attempt := 1 } else m.body) = env at hprocess ⊢
  refine hbind hprocess fun r turn => ?_
  split
  · exact hack _ turn
  · exact hack _ turn
  · split
    · exact hbind (hpublish _ _ _ turn (by simp)) fun _ => hack _
    · exact hbind (hpublish _ _ _ turn (by simp)) fun _ => hack _

end Chunker

/-! ## What a turn says of the world -/

/-- The chunk message of document `d` has no dedupe row, or it has one. -/
def Turn.Holds (d : DocId) (w : World) : Turn → Prop
  | .before => True
  | .checked => ¬ (w.view d).done .chunk
  | .recorded => (w.view d).done .chunk

/-- A chunker has not begun, or it keeps to its turn. -/
def TakesTurn (cfg : Config) (i : Nat) (p : Program Unit) (w : World) : Prop :=
  ∀ copy, w.broker.handled i = some copy → copy.message.body.stage = .chunk →
    p = consumer cfg .chunk copy.message ∨
      ∃ turn : Turn, Chunker.Turns copy.message.body p turn ∧
        turn.Holds copy.message.body.documentId w

section Turns
variable {cfg : Config} {ok : Sys → Label → Prop} {s s' : Sys} {w w' : World} {d : DocId} {S : Stage}
  {i : Nat} {c : Call} {v : c.Val}

theorem Grows.done (hg : Grows w w') (h : (w.view d).done S) : (w'.view d).done S := by
  obtain ⟨m, row, hm, hrest⟩ := h
  exact ⟨m, row, hg.db.processed m row hm, hrest⟩

theorem Grows.sent (hg : Grows w w') (h : (w.view d).sent S) : (w'.view d).sent S := by
  obtain ⟨hS, p, hp, hrest⟩ := h
  exact ⟨hS, p, hg.broker.accepted p hp, hrest⟩

theorem done_of_does (hd : Does i c v w w') (h : (w'.view d).done S) :
    (w.view d).done S ∨ ∃ row, c = .recordProcessed row ∧ row.stage = S := by
  obtain ⟨m, row, hm, hS, hdoc⟩ := h
  by_cases hc : ∀ row, c ≠ .recordProcessed row
  · exact Or.inl ⟨m, row, processed_of_does hd hc ▸ hm, hS, hdoc⟩
  · obtain ⟨row', rfl⟩ := not_forall_not.mp hc
    obtain rfl := hd
    rcases Db.of_processed_recordProcessed hm with hold | ⟨-, -, rfl⟩
    · exact Or.inl ⟨m, row, hold, hS, hdoc⟩
    · exact Or.inr ⟨row', rfl, hS⟩

/-- A turn goes on to hold as long as nobody else inserts a dedupe row. -/
theorem Turn.Holds.mono {turn : Turn} (h : turn.Holds d w) (hg : Grows w w')
    (hdone : (w'.view d).done .chunk → (w.view d).done .chunk) : turn.Holds d w' := by
  cases turn with
  | before => trivial
  | checked => exact fun hd => h (hdone hd)
  | recorded => exact hg.done h

/-- What is left of a chunker is what is left of a turn. -/
theorem TakesTurn.turn {p : Program Unit} (h : TakesTurn cfg i p w) {copy : Copy}
    (hi : w.broker.handled i = some copy) (hS : copy.message.body.stage = .chunk) :
    ∃ turn : Turn, Chunker.Turns copy.message.body p turn ∧
      turn.Holds copy.message.body.documentId w := by
  rcases h copy hi hS with rfl | hturn
  · exact ⟨.before, Chunker.handle_turns copy.message, trivial⟩
  · exact hturn

/-- **A call of a chunker** takes it from turn to turn. -/
theorem turn_of_does {env : Envelope} {turn : Turn} (hb : Base w) (hh : Handles w i .chunk env)
    (hallows : turn.Allows env c) (hholds : turn.Holds env.documentId w) (hd : Does i c v w w')
    (hg : Grows w w') : (c.turns (.ok v) turn).Holds env.documentId w' := by
  have hkeep : (∀ row, c ≠ .recordProcessed row) → turn.Holds env.documentId w' := fun hc =>
    hholds.mono hg fun hdone => (done_of_does hd hdone).resolve_right fun ⟨row, he, _⟩ => hc row he
  cases c with
  | alreadyProcessed m =>
    obtain rfl : m = env.messageId := hallows
    obtain ⟨hv, rfl⟩ := hd
    cases v with
    | true => exact hkeep (by simp)
    | false =>
      intro hdone
      have hsome := hb.processed_of_done hh (by simp) hdone
      rw [show (w'.db.processed env.messageId).isSome = false from hv.symm] at hsome
      cases hsome
  | recordProcessed row =>
    obtain ⟨hm, hdoc, hS⟩ := hallows
    obtain rfl := hd
    obtain ⟨stored, hstored⟩ : ∃ stored,
        (w.db.recordProcessed i row).processed row.messageId = some stored :=
      Option.isSome_iff_exists.mp (Db.recordProcessed_isSome i row)
    rcases Db.of_processed_recordProcessed hstored with hold | ⟨-, -, rfl⟩
    · exact hg.done (hh.done hb (hm ▸ Option.isSome_of_eq_some hold))
    · exact ⟨row.messageId, _, hstored, hS, hdoc⟩
  | _ => exact hkeep (by simp)

/-! ## Every run in which they take turns -/

/-- The calls of an execution that was given a copy. -/
theorem consumerCall_of_onTask {k : c.Reply → Program Unit} (h : OnTask i (.call c k) w)
    (hc : ¬ Api.RequestCall c) : ∃ copy, w.broker.handled i = some copy ∧
      ConsumerCall copy.message.body.stage copy.message c := by
  rcases h with h | ⟨copy, hcopy, h⟩
  · exact absurd h.1 hc
  · exact ⟨copy, hcopy, h.1⟩

/-- Nobody else inserts a dedupe row while a chunker is at work. -/
theorem done_of_step {l : Label} (hs : Reachable cfg ok s) (hl : chunkersTakeTurns cfg s l)
    (hstep : step cfg s l = some s') {p : Program Unit} {copy : Copy} (hp : s.progs i = some p)
    (hi : s.world.broker.handled i = some copy) (hS : copy.message.body.stage = .chunk)
    (hother : ∀ a, l ≠ .run i a) (hdone : (s'.world.view d).done .chunk) :
    (s.world.view d).done .chunk ∨ p.pending = none ∨ p = consumer cfg .chunk copy.message := by
  rcases world_of_step hstep with he | hmove | ⟨j, a, c, k, v, rfl, hprog, hreply⟩
  · exact Or.inl (he ▸ hdone)
  · exact Or.inl (view_of_envMove hmove ▸ hdone)
  rcases done_of_does (does_of_reply hreply) hdone with hold | ⟨row, rfl, hrow⟩
  · exact Or.inl hold
  have hij : i ≠ j := by
    rintro rfl
    exact hother a rfl
  obtain ⟨m, hm, hcall⟩ := consumerCall_of_onTask ((onTask_tracks cfg ok).holds hs hprog) (by simp [Api.RequestCall])
  have hstage := stage_of_chunkerCall hcall (Or.inr (Or.inl ⟨row, rfl, hrow⟩))
  cases hpending : p.pending with
  | none => exact Or.inr (Or.inl rfl)
  | some c' =>
    have hsome : (s.pending i).isSome := by
      rw [Pool.pending, hp, Option.bind_some, hpending]
      rfl
    exact Or.inr (Or.inr (Option.some.inj (hp.symm.trans (hl m hm hstage i copy hij hi hS hsome))))

theorem takesTurn_tracks (cfg : Config) : Tracks cfg (inTurn cfg) (TakesTurn cfg) where
  stable s l s' i p hs hl hstep haside hp h copy hi hS := by
    rw [handled_of_step hstep fun S n he => ?_] at hi
    · rcases h copy hi hS with hfresh | ⟨turn, hturns, hholds⟩
      · exact Or.inl hfresh
      by_cases hdone : (s'.world.view copy.message.body.documentId).done .chunk →
          (s.world.view copy.message.body.documentId).done .chunk
      · exact Or.inr ⟨turn, hturns, hholds.mono (grows_of_step hs hstep) hdone⟩
      · push Not at hdone
        rcases done_of_step hs hl.1 hstep hp hi hS (ne_run_of_aside haside) hdone.1 with
          hold | hnone | hfresh
        · exact absurd hold hdone.2
        · -- it has come to its end
          refine Or.inr ⟨.before, ?_, trivial⟩
          cases p with
          | ret | raise => trivial
          | call => cases hnone
        · exact Or.inl hfresh
    · rcases haside with hne | rfl
      · exact hne (by rw [he]; rfl)
      · cases he
  upload s i u t x _ hunused _ copy hi := by
    rw [Broker.handled, Option.isNone_iff_eq_none.mp hunused.2] at hi
    cases hi
  retryRequest s i d _ hunused _ copy hi := by
    rw [Broker.handled, Option.isNone_iff_eq_none.mp hunused.2] at hi
    cases hi
  consumer s i S n copy w _ _ huntouched hb hw copy' hi hS := by
    obtain ⟨-, hstage, -⟩ := hb.delivered huntouched hw
    have hcopy : w.broker.handled i = some copy := by
      rw [hw]
      simp [Broker.handled, Broker.deliver]
    obtain rfl := Option.some.inj (hcopy.symm.trans hi)
    obtain rfl := hstage.symm.trans hS
    exact Or.inl rfl
  run s i a c k r w hs hl hp hx hg h copy hi hS := by
    have hb := reachable_base hs
    have hi : s.world.broker.handled i = some copy := by
      rcases exec_cases hx with ⟨-, -, -, -, rfl⟩ | ⟨v, -, -, hd⟩
      · exact hi
      · exact (handled_of_does hd i).symm.trans hi
    obtain ⟨turn, hturns, hholds⟩ := h.turn hi hS
    refine Or.inr ⟨c.turns r turn, hturns.2 r _ ⟨?_, rfl⟩, ?_⟩
    · rintro row reason rfl rfl
      rcases exec_cases hx with ⟨reason', rfl, -, -, -⟩ | ⟨v, he, -, -⟩
      · exact hl.2 row (Pool.pending_of_progs hp) hturns.1.2.2
      · cases he
    · rcases exec_cases hx with ⟨reason, -, rfl, -, rfl⟩ | ⟨v, rfl, -, hd⟩
      · have hsame : c.turns (.error reason) turn = turn := by cases c <;> rfl
        exact hsame.symm ▸ hholds
      · exact turn_of_does hb (hS ▸ hb.handles hi) hturns.1 hholds hd hg
  died _ _ _ _ _ _ := Or.inr ⟨.before, trivial, trivial⟩

/-- **A document that has been handed on has its dedupe row.** -/
theorem done_of_sent (h : Reachable cfg (inTurn cfg) s) (hsent : (s.world.view d).sent .embed) :
    (s.world.view d).done .chunk := by
  suffices ∀ d, (s.world.view d).sent .embed → (s.world.view d).done .chunk from this d hsent
  refine (takesTurn_tracks cfg).keeps (I := fun w => ∀ d, (w.view d).sent .embed → (w.view d).done .chunk)
    ?_ ?_ ?_ h
  · rintro d ⟨-, p, hp, -⟩
    cases hp
  · intro w w' hdb _ haccepted hw d hsent
    unfold World.view at hsent ⊢
    rw [hdb]
    rw [haccepted] at hsent
    exact hw d hsent
  · rintro s i c k v w hs hp hturn hd hb hg hw d ⟨-, p, hpub, hS, rfl⟩
    by_cases hc : ∀ key m, c ≠ .publish .ingest key m
    · rw [accepted_of_does hd hc] at hpub
      exact hg.done (hw _ ⟨by simp, p, hpub, hS, rfl⟩)
    obtain ⟨key, m, rfl⟩ : ∃ key m, c = .publish .ingest key m := by
      by_contra hno
      exact hc fun key m he => hno ⟨key, m, he⟩
    have hsource := (hb.mail.published p hpub).source
    have hhandled := handled_of_does hd i
    obtain rfl := hd
    rcases Broker.of_mem_publish_accepted _ hpub with hold | ⟨-, rfl⟩
    · exact hg.done (hw _ ⟨by simp, p, hold, hS, rfl⟩)
    -- a chunker publishes it, in its last turn
    unfold Source at hsource
    rw [hS] at hsource
    obtain ⟨-, env, ⟨copy, hi, hstems, -⟩, -⟩ := hsource
    obtain ⟨q, -, -, hstage, halike⟩ := hstems.source
    obtain ⟨turn, hturns, hholds⟩ := hturn.turn (hhandled.symm.trans hi) (halike.stage.trans hstage)
    obtain ⟨hdoc, rfl⟩ := hturns.1
    rw [hdoc]
    exact hg.done hholds

/-- **An embedded document has been handed on.** -/
theorem sent_of_embedded (h : Reachable cfg ok s) (hd : s.world.db.Embedded d) :
    (s.world.view d).sent .embed := by
  suffices ∀ d, s.world.db.Embedded d → (s.world.view d).sent .embed from this d hd
  refine (onTask_tracks cfg ok).keeps (I := fun w => ∀ d, w.db.Embedded d → (w.view d).sent .embed)
    ?_ ?_ ?_ h
  · rintro d ⟨row, hrow, -⟩
    cases hrow
  · intro w w' hdb _ haccepted hw d hemb
    unfold World.view
    rw [haccepted]
    exact hw d (hdb ▸ hemb)
  · intro s i c k v w hs _ htask hd _ hg hw d hemb
    have hcreate : ∀ row stored, c = .createDocument row stored → row.status = .uploaded := by
      rintro row stored rfl
      rcases htask with h | ⟨copy, -, h⟩
      · exact h.1.1
      · exact absurd rfl (h.1.not_create row stored)
    rcases embedded_of_does hd hcreate hemb with hold | ⟨u, rfl, hu⟩
    · exact hg.sent (hw d hold)
    · obtain ⟨copy, hcopy, hcall⟩ := consumerCall_of_onTask htask (by simp [Api.RequestCall])
      have hstage := stage_of_embedding hcall (decide_eq_true hu)
      rw [hcall.subject rfl]
      exact hg.sent (Handles.sent (hstage ▸ (reachable_base hs).handles hcopy) (by simp))

/-- **Chunkers that take turns insert their chunks in time.** -/
theorem insertsInTime_of_inTurn (h : Reachable cfg (inTurn cfg) s) (l : Label) : insertsInTime s l := by
  have hb := reachable_base h
  match l with
  | .run i .ok =>
    intro d rows hpending
    obtain ⟨k, hp⟩ := Pool.pending_eq_some.mp hpending
    obtain ⟨copy, hcopy, hcall⟩ := consumerCall_of_onTask ((onTask_tracks cfg _).holds h hp) (by simp [Api.RequestCall])
    have hstage := stage_of_chunkerCall hcall (Or.inl ⟨d, rows, rfl⟩)
    obtain ⟨turn, hturns, hholds⟩ := ((takesTurn_tracks cfg).holds h hp).turn hcopy hstage
    obtain ⟨rfl, rfl⟩ := hturns.1
    -- the document has not been handed on
    have hsent : ¬ (s.world.view copy.message.body.documentId).sent .embed :=
      fun hsent => hholds (done_of_sent h hsent)
    refine ⟨fun hemb => hsent (sent_of_embedded h hemb), fun j c hj hemb hdoc => hsent ?_⟩
    obtain ⟨k', hp'⟩ := Pool.pending_eq_some.mp hj
    obtain ⟨copy', hcopy', hcall'⟩ := consumerCall_of_onTask ((onTask_tracks cfg _).holds h hp')
      (by cases c <;> first | exact id | cases hemb)
    have hh := hb.handles hcopy'
    rw [stage_of_embedding hcall' hemb] at hh
    rw [← Option.some.inj (hh.documentOf.symm.trans hdoc)]
    exact hh.sent (by simp)
  | .run _ (.fail _) | .run _ (.id _) | .run _ (.text _ _) | .run _ (.vectors _) => trivial
  | .upload .. | .retryRequest .. | .deliver .. | .die _ | .redeliver _ | .expire .. => trivial

/-- **Embedded means embedded** when chunkers take turns. -/
theorem embeddedMeans_of_inTurn (h : Reachable cfg (inTurn cfg) s) : EmbeddedMeans s.world.db :=
  ((embedded_sound cfg).safe
    (h.imp fun _ l _ hs _ _ _ => insertsInTime_of_inTurn hs l)).1

end Turns

end DigitalCip
