import DigitalCip.HandOff
import DigitalCip.Invariant.Ownership
import DigitalCip.Resumable.Automaton

/-!
# Who still has to hand on

Between the insert of a dedupe row and the hand-off a consumer owes a message.
`debts` follows this through the text of a program: as long as its calls succeed, a
consumer never settles or ends while it owes (`consumer_debts`).  So in the runs in
which they do, and in which no process dies that owes a message, an execution that
owes one is at work (`atWork_of_owes`).
-/

namespace DigitalCip
open Resumable

/-- Whether a message is owed after a call that succeeds. -/
def Call.debt (owes : Bool) : Call → Bool
  | .recordProcessed row => owes || row.stage ≠ .embed
  | .publish .ingest _ _ => false
  | _ => owes

/-- The account of one execution.  Only the calls that settle a delivery may fail,
and nobody settles who owes. -/
def debts : Automaton Bool Call Call.Reply where
  moves c owes r owes' := (Settles c ∨ ∃ v, r = .ok v) ∧ owes' = c.debt owes
  owed owes c := owes = true → ¬ Settles c

/-- The program pays what it owes before it ends. -/
abbrev Pays {α : Type} (p : Program α) (owes : Bool) : Prop :=
  debts.Accepts p (fun _ owes' => owes' = false) (fun _ owes' => owes' = false) owes

section Pays
variable {α : Type} {c : Call} {owes : Bool} {Q : α → Bool → Prop} {E : Exc → Bool → Prop}

theorem debt_of_ne (hc : ∀ row, c ≠ .recordProcessed row) : c.debt false = false := by
  cases c with
  | recordProcessed row => exact absurd rfl (hc row)
  | publish exchange => cases exchange <;> rfl
  | _ => rfl

/-- A program none of whose calls runs up a debt. -/
theorem pays_of_calls {p : Program α} (hp : p.Calls fun c => c.debt false = false) :
    Pays p false := by
  induction p with
  | ret => rfl
  | raise => rfl
  | call c k ih =>
    refine ⟨fun h => absurd h Bool.false_ne_true, ?_⟩
    rintro r _ ⟨-, rfl⟩
    rw [hp.1]
    exact ih r (hp.2 r)

/-- A call before the hand-off. -/
theorem debts_perform {k : c.Reply → Program α} (hc : ¬ Settles c)
    (hk : ∀ v, debts.Accepts (k (.ok v)) Q E (c.debt owes)) :
    debts.Accepts (Prog.perform c >>= k) Q E owes := by
  refine Automaton.accepts_perform (fun _ => hc) ?_
  rintro r _ ⟨hr, rfl⟩
  obtain ⟨v, rfl⟩ := hr.resolve_left hc
  exact hk v

/-- The same in Python. -/
theorem debts_call {k : c.Val → Program α} (hc : ¬ Settles c)
    (hk : ∀ v, debts.Accepts (k v) Q E (c.debt owes)) :
    debts.Accepts (call c >>= k) Q E owes := by
  rw [Automaton.accepts_bind]
  refine debts_perform hc fun v => ?_
  rw [Automaton.accepts_pure]
  exact hk v

end Pays

/-! ## The consumers -/

theorem debt_of_settling {S : Stage} {m : Message} {c : Call} (h : Settling S m c) :
    c.debt false = false :=
  debt_of_ne (quiet_of_settling h).1

/-- Success hands on what is owed. -/
theorem Python.onMessage_pays {N : Type} {cfg : Config} {S : Stage} {m : Message}
    {handler : Envelope → Program (Option N)} {publishNext : Envelope → N → Program Unit}
    (hhandler : debts.Accepts (handler m.body) (fun r owes => r = none → owes = false)
      (fun _ owes => owes = false) false)
    (hnext : ∀ n owes, debts.Accepts (publishNext m.body n) (fun _ owes' => owes' = false)
      (fun _ owes' => owes' = false) owes) :
    Pays (onMessage cfg.maxRetries envelopeCodec (channel S m) handler publishNext m.body) false := by
  have hack : ∀ o, Pays ((channel S m).ack o) false := fun o => pays_of_calls (calls_call rfl)
  show debts.Accepts (tryCatch _ _) _ _ _
  refine Automaton.Accepts.tryCatch (F := fun _ owes => owes = false) ?_ ?_
  · rw [Automaton.accepts_bind]
    refine hhandler.mono (fun r owes h => ?_) fun _ _ h => h
    cases r with
    | none =>
      rw [h rfl]
      exact hack .success
    | some next =>
      rw [Automaton.accepts_bind]
      refine (hnext next owes).mono (fun _ owes' h' => ?_) fun _ _ h => h
      rw [h']
      exact hack .success
  · rintro e _ rfl
    cases e with
    | permanent => exact hack .permanent
    | transient =>
      exact pays_of_calls ((retry_settling _ _ _).mono fun _ => debt_of_settling)
    | other => exact pays_of_calls ((unhandled_settling _ _).mono fun _ => debt_of_settling)

namespace Ocr
variable {env : Envelope}

theorem recognise_debts (document : Document) (objectKey : ObjectKey) :
    debts.Accepts (recognise env document objectKey) (fun r owes => r = none → owes = false)
      (fun _ owes => owes = false) false := by
  unfold recognise updateDocumentStatus Python.recordEvent Python.recordProcessed
  refine debts_call id fun _ => debts_call id fun _ => debts_call id fun blob => ?_
  split
  · rfl
  refine debts_call id fun ⟨text, pages⟩ => ?_
  dsimp only
  split
  · rfl
  refine debts_call id fun _ => debts_call id fun _ => debts_call id fun _ => ?_
  simp

theorem handle_debts : debts.Accepts (handle env) (fun r owes => r = none → owes = false)
    (fun _ owes => owes = false) false := by
  unfold handle Python.handle Python.alreadyProcessed Python.fetchDocument
  refine debts_call id fun seen => ?_
  split
  · exact fun _ => rfl
  refine debts_call id fun found => ?_
  split
  · rfl
  split
  · exact fun _ => rfl
  refine (recognise_debts _ _).tryCatch ?_
  rintro e _ rfl
  have hpays : Pays (onError env e) false :=
    pays_of_calls ((onError_quiet e).mono fun _ h => debt_of_ne h.1)
  exact hpays.mono (fun _ _ h _ => h) fun _ _ h => h

theorem publishNext_pays (payload : Payload) (owes : Bool) : Pays (publishNext env payload) owes :=
  debts_perform (by simp [Settles]) fun _ => rfl

end Ocr

namespace Chunker
variable {cfg : Config} {env : Envelope}

theorem publishNext_pays (n : Nat) (owes : Bool) : Pays (publishNext env n) owes := by
  unfold publishNext
  exact debts_perform id fun id => debts_perform (by simp [Settles]) fun _ => rfl

theorem chunkDocument_pays (rawText : Text) : Pays (chunkDocument cfg env rawText) false := by
  unfold chunkDocument
  dsimp only
  split
  · exact debts_perform id fun _ => debts_perform id fun _ => rfl
  · exact debts_perform id fun _ => debts_perform id fun _ => debts_perform id fun _ =>
      debts_perform id fun _ => publishNext_pays _ _

theorem process_pays : Pays (process cfg env) false := by
  unfold process
  split
  · rfl
  refine debts_perform id fun seen => ?_
  cases seen with
  | true => rfl
  | false =>
    refine debts_perform id fun found => ?_
    cases found with
    | none => rfl
    | some doc =>
      dsimp only
      split
      · rfl
      split
      · rfl
      exact debts_perform id fun _ => debts_perform id fun _ => chunkDocument_pays _

theorem handle_pays {m : Message} : Pays (handle cfg m) false := by
  unfold handle
  dsimp only
  generalize (if m.body.attempt = 0 then { m.body with attempt := 1 } else m.body) = env
  show debts.Accepts (process cfg env >>= _) _ _ _
  rw [Automaton.accepts_bind]
  refine process_pays.mono (fun r owes h => ?_) fun _ _ h => h
  subst h
  have hack : ∀ o, (Prog.perform (.ack o) >>= fun _ => pure () : Program Unit).Calls
      fun c => c.debt false = false := fun o => .bind (.perform rfl) fun _ => trivial
  refine pays_of_calls ?_
  split
  · exact hack _
  · exact hack _
  · split
    · exact .bind (.bind (.perform rfl) fun _ => trivial) fun _ => hack _
    · exact .bind (.bind (.perform rfl) fun _ => trivial) fun _ => hack _

end Chunker

/-- The embedding worker inserts dedupe rows, but it has nobody to hand on to. -/
theorem Embedder.onMessage_pays {cfg : Config} {m : Message} : Pays (onMessage cfg m) false := by
  refine pays_of_calls ((consumer_calls cfg .embed m).mono fun c hc => ?_)
  rcases hc with hc | (hc | rfl) | ⟨T, hT, -⟩
  · cases c with
    | recordProcessed row =>
      obtain ⟨-, -, hstage⟩ := hc
      simp [Call.debt, hstage]
    | publish => exact hc.elim
    | _ => rfl
  · exact debt_of_settling hc
  · rfl
  · simp at hT

/-- **A consumer whose calls succeed hands on what it owes before it settles.** -/
theorem consumer_debts (cfg : Config) (S : Stage) (m : Message) : Pays (consumer cfg S m) false := by
  cases S with
  | ocr => exact Python.onMessage_pays Ocr.handle_debts Ocr.publishNext_pays
  | chunk => exact Chunker.handle_pays
  | embed => exact Embedder.onMessage_pays

/-! ## Runs in which debts are paid -/

/-- The calls of the run succeed, except that nobody can settle a delivery that the
broker has taken back; and no process dies that owes a message. -/
def callsSucceed (s : Sys) : Label → Prop
  | .run i (.fail _) => ∃ c, s.pending i = some c ∧ (c = .nack ∨ ∃ o, c = .ack o) ∧
      ∀ copy, ¬ s.world.broker.Unsettled i copy
  | .die i => ¬ Owes s.world i
  | _ => True

/-- Execution `i` is on its way to pay what it owes. -/
def Solvent (s : Sys) (i : Nat) (p : Program Unit) : Prop :=
  ∃ S m owes, Handles s.world i S m.body ∧ p.Calls (ConsumerCall S m) ∧ Pays p owes ∧
    (owes = false → ¬ Owes s.world i)

section Runs
variable {cfg : Config} {ok : Sys → Label → Prop} {s s' : Sys}

/-- An execution that was started for no message owes none. -/
theorem not_owes_of_unhandled {w : World} (hb : Base w) {i : Nat} (hi : w.broker.handled i = none) :
    ¬ Owes w i := by
  rintro ⟨m, row, hm, rfl, -, -⟩
  obtain ⟨env, ⟨c, hc, -⟩, -⟩ := (hb.recorded m row hm).handled
  rw [hi] at hc
  cases hc

/-- A consumer hands on to the next stage. -/
theorem ConsumerCall.next {S : Stage} {m m' : Message} {key : RoutingKey}
    (h : ConsumerCall S m (.publish .ingest key m')) : S.next = some m'.body.stage := by
  rcases h with h | (h | h) | ⟨T, hT, -, hstage, -⟩
  · exact h.elim
  · exact h.elim
  · cases h
  · rcases hT with ⟨rfl, rfl⟩ | ⟨rfl, rfl⟩ <;> rw [hstage] <;> rfl

theorem Solvent.grow {i : Nat} {p : Program Unit} (h : Solvent s i p)
    (hg : Grows s.world s'.world) (ha : Apart i s.world s'.world) : Solvent s' i p := by
  obtain ⟨S, m, owes, hi, hcalls, hpays, hno⟩ := h
  exact ⟨S, m, owes, hi.mono hg, hcalls, hpays, fun ho hw => hno ho (hw.of_grows hg ha.processed)⟩

/-- A call of the execution itself. -/
theorem Solvent.run {i : Nat} {a : Answer} {c : Call} {k : c.Reply → Program Unit} {r : c.Reply}
    {w : World} (hb : Base s.world) (h : Solvent s i (.call c k))
    (hx : exec i c a s.world = some (r, w)) (hg : Grows s.world w)
    (hr : Settles c ∨ ∃ v, r = .ok v) : Solvent ((s.move w).spawn i (k r)) i (k r) := by
  obtain ⟨S, m, owes, hi, hcalls, hpays, hno⟩ := h
  refine ⟨S, m, c.debt owes, hi.mono hg, hcalls.2 r, hpays.2 r _ ⟨hr, rfl⟩, fun hdebt => ?_⟩
  show ¬ Owes w i
  rcases exec_cases hx with ⟨reason, -, rfl, -, rfl⟩ | ⟨v, rfl, -, hd⟩
  · -- only a call that settles may fail, and it leaves the account alone
    have hc : Settles c := hr.resolve_right fun ⟨v, he⟩ => nomatch he
    refine hno (Eq.trans (Eq.symm ?_) hdebt)
    cases c with
    | publish exchange =>
      cases exchange with
      | ingest => exact absurd rfl hc
      | retry | dlx => rfl
    | ack | nack => rfl
    | _ => exact hc.elim
  · by_cases hrecord : ∀ row, c ≠ .recordProcessed row
    · have hkeep : c.debt owes = owes → ¬ Owes w i := fun he how => hno (he.symm.trans hdebt)
        (how.of_grows hg fun _ _ hm _ => processed_of_does hd hrecord ▸ hm)
      cases c with
      | recordProcessed row => exact absurd rfl (hrecord row)
      | publish exchange key m' =>
        cases exchange with
        | ingest =>
          obtain rfl := hd
          exact not_owes_of_handOn hb hi hcalls.1.next (hcalls.1.subject rfl) hg
        | retry | dlx => exact hkeep rfl
      | _ => exact hkeep rfl
    · obtain ⟨row, rfl⟩ := not_forall_not.mp hrecord
      obtain rfl := hd
      obtain ⟨howes, hstage⟩ : owes = false ∧ row.stage = .embed := by
        simpa [Call.debt] using hdebt
      rintro ⟨id, row', hm, he, hS, hno'⟩
      rcases Db.of_processed_recordProcessed hm with hold | ⟨-, -, rfl⟩
      · exact hno howes ⟨id, row', hold, he, hS, fun hh => hno' (hh.mono hg)⟩
      · exact hS hstage

/-- **What an execution owes, it is about to hand on.** -/
theorem solvent_of_reachable (hok : ∀ s l, ok s l → callsSucceed s l) (h : Reachable cfg ok s)
    {i : Nat} : s.world.broker.handled i = none ∨ ∃ p, s.progs i = some p ∧ Solvent s i p := by
  induction h with
  | start => exact Or.inl rfl
  | @next s s' l hs hl hstep ih =>
    have hg := grows_of_step hs hstep
    have hb := reachable_base hs
    have hb' := reachable_base (hs.next hl hstep)
    by_cases he : l.execution = some i
    · cases l with
      | upload j u t x =>
        obtain rfl := Option.some.inj he
        obtain ⟨hunused, rfl⟩ := step_upload hstep
        refine Or.inl ?_
        rw [Pool.spawn_world, Broker.handled, Option.isNone_iff_eq_none.mp hunused.2]
        rfl
      | retryRequest j d =>
        obtain rfl := Option.some.inj he
        obtain ⟨hunused, rfl⟩ := step_retryRequest hstep
        refine Or.inl ?_
        rw [Pool.spawn_world, Broker.handled, Option.isNone_iff_eq_none.mp hunused.2]
        rfl
      | deliver j S n =>
        obtain rfl := Option.some.inj he
        have hapart := apart_of_step (i := j) hstep (by simp)
        obtain ⟨copy, hunused, -, rfl⟩ := step_deliver hstep
        have huntouched := hapart.untouched (hunused.untouched hs)
        refine Or.inr ⟨_, Pool.spawn_progs_self .., S, copy.message, false,
          (hb'.delivered huntouched rfl).1.handles, consumer_calls cfg S copy.message,
          consumer_debts cfg S copy.message, fun _ => ?_⟩
        rintro ⟨id, row, hm, hi, -, -⟩
        exact huntouched.processed id row hm hi
      | run j a =>
        obtain rfl := Option.some.inj he
        rw [handled_of_step hstep (by simp)]
        refine ih.imp_right ?_
        rintro ⟨p, hp, hsolvent⟩
        obtain ⟨c, k, r, w, hprog, hx, rfl⟩ := step_run hstep
        obtain rfl := Option.some.inj (hp.symm.trans hprog)
        refine ⟨k r, Pool.spawn_progs_self .., hsolvent.run hb hx hg ?_⟩
        rcases exec_cases hx with ⟨reason, rfl, -, -, -⟩ | ⟨v, rfl, -, -⟩
        · obtain ⟨c', hc', hsettles, -⟩ := hok _ _ hl
          obtain rfl := Option.some.inj (hc'.symm.trans (Pool.pending_of_progs hprog))
          rcases hsettles with rfl | ⟨o, rfl⟩ <;> exact Or.inl trivial
        · exact Or.inr ⟨v, rfl⟩
      | die j =>
        obtain rfl := Option.some.inj he
        rw [handled_of_step hstep (by simp)]
        have hapart := apart_of_step (i := j) hstep (by simp)
        obtain ⟨-, rfl⟩ := step_die hstep
        refine ih.imp_right ?_
        rintro ⟨p, hp, S, m, _, hi, _⟩
        refine ⟨.raise died, ?_, S, m, false, hi.mono hg, trivial, rfl, fun _ how => ?_⟩
        · rw [Pool.move_progs, Pool.kill_progs_self]
        · exact hok _ _ hl (how.of_grows hg hapart.processed)
      | redeliver j =>
        obtain rfl := Option.some.inj he
        rw [handled_of_step hstep (by simp)]
        have hapart := apart_of_step (i := j) hstep (by simp)
        refine ih.imp_right ?_
        rintro ⟨p, hp, hsolvent⟩
        refine ⟨p, ?_, hsolvent.grow hg hapart⟩
        obtain ⟨-, -, rfl⟩ := step_redeliver hstep
        exact hp
      | expire => cases he
    · have hapart := apart_of_step (i := i) hstep fun a hl' => he (by rw [hl']; rfl)
      rw [handled_of_step hstep fun S n hl' => he (by rw [hl']; rfl), progs_of_step hstep he]
      refine ih.imp_right ?_
      rintro ⟨p, hp, hsolvent⟩
      exact ⟨p, hp, hsolvent.grow hg hapart⟩

/-- **An execution that owes a message is at work.** -/
theorem atWork_of_owes (hok : ∀ s l, ok s l → callsSucceed s l) (h : Reachable cfg ok s)
    {m : MessageId} {row : StoredMessage} (hm : s.world.db.processed m = some row)
    (hS : row.stage ≠ .embed) (hno : ¬ HandedOn s.world m row.stage row.documentId) :
    s.AtWork row.execution row.documentId := by
  have hb := reachable_base h
  have howes : Owes s.world row.execution := ⟨m, row, hm, rfl, hS, hno⟩
  obtain ⟨env, hhandles, -, hdoc⟩ := (hb.recorded m row hm).handled
  refine ⟨hdoc ▸ hhandles.documentOf, ?_⟩
  rcases solvent_of_reachable hok h (i := row.execution) with hi | ⟨p, hp, S, m', owes, -, -, hpays, hpaid⟩
  · exact absurd howes (not_owes_of_unhandled hb hi)
  · cases owes with
    | false => exact absurd howes (hpaid rfl)
    | true =>
      cases p with
      | ret => exact absurd hpays.symm Bool.false_ne_true
      | raise => exact absurd hpays.symm Bool.false_ne_true
      | call c k => exact ⟨c, Pool.pending_of_progs hp, hpays.1 rfl⟩

end Runs
end DigitalCip
