import DigitalCip.FailureFinality
import DigitalCip.Invariant.Tracking
import DigitalCip.Resumable.Automaton

/-!
# Who does the other half

Whoever gives a message up leaves one half of what is promised to others.  An execution
that has tried to record a failure does not ack its message as exhausted, and one that has
tried to publish to `ingest.dlx` does not ack it as a permanent failure
(`not_givesUp_of_completes`).  So where the other half is done, another execution has done
it, in an earlier step of the run (`otherHalf_of_another`).
-/

namespace DigitalCip
open Resumable

/-- The outcomes with which an execution no longer settles once it has made the call. -/
def Call.RulesOut : Call → Outcome → Prop
  | .updateDocument _ u, o => u.status = .failed ∧ o = .deadLettered
  | .recordEvent e, o => e.toState = .failed ∧ o = .deadLettered
  | .publish .dlx _ _, o => o = .permanent
  | _, _ => False

/-- An execution does not settle with an outcome that it has ruled out. -/
def ruling : Automaton (Outcome → Prop) Call Call.Reply where
  moves c out _ out' := out' = fun o => out o ∨ c.RulesOut o
  owed out c := ∀ o, c = .ack o → ¬ out o

/-- Nothing is ruled out. -/
def Open (out : Outcome → Prop) : Prop := ∀ o, ¬ out o

/-- At most what a recorded failure rules out. -/
def Noted (out : Outcome → Prop) : Prop := ∀ o, out o → o = .deadLettered

/-- A handler that has recorded a failure does not ask for a retry. -/
def Narrow (e : Exc) (out : Outcome → Prop) : Prop :=
  Noted out ∧ ((∃ reason, e = .transient reason) → Open out)

theorem noted_of_open {out : Outcome → Prop} (h : Open out) : Noted out :=
  fun o ho => absurd ho (h o)

theorem narrow_of_open {e : Exc} {out : Outcome → Prop} (h : Open out) : Narrow e out :=
  ⟨noted_of_open h, fun _ => h⟩

/-- The program settles with no outcome that it has ruled out. -/
abbrev Abides (p : Program Unit) (out : Outcome → Prop) : Prop :=
  ruling.Accepts p (fun _ _ => True) (fun _ _ => True) out

/-! ## One call -/

/-- A call that rules nothing out and acks nothing. -/
def Call.Quiet (c : Call) : Prop := (∀ o, ¬ c.RulesOut o) ∧ ∀ o, c ≠ .ack o

section Calls
variable {α : Type} {out : Outcome → Prop} {Q : α → (Outcome → Prop) → Prop}
  {E : Exc → (Outcome → Prop) → Prop} {c : Call}

theorem ruledOut_quiet (hc : ∀ o, ¬ c.RulesOut o) : (fun o => out o ∨ c.RulesOut o) = out :=
  funext fun o => propext (or_iff_left (hc o))

theorem accepts_quiet {k : c.Reply → Program α} (hc : c.Quiet)
    (hk : ∀ r, ruling.Accepts (k r) Q E out) :
    ruling.Accepts (Prog.perform c >>= k) Q E out := by
  refine Automaton.accepts_perform (fun o he => absurd he (hc.2 o)) ?_
  rintro r _ rfl
  rw [ruledOut_quiet hc.1]
  exact hk r

/-- A program of such calls. -/
theorem accepts_of_quiet {p : Program α} (hp : p.Calls Call.Quiet) (hQ : ∀ x, Q x out)
    (hE : ∀ e, E e out) : ruling.Accepts p Q E out := by
  induction p with
  | ret x => exact hQ x
  | raise e => exact hE e
  | call c k ih => exact accepts_quiet hp.1 fun r => ih r (hp.2 r)

/-- An ack with an outcome that is not ruled out. -/
theorem accepts_openAck {o : Outcome} {k : (Call.ack o).Reply → Program α} (ho : ¬ out o)
    (hk : ∀ r, ruling.Accepts (k r) Q E out) :
    ruling.Accepts (Prog.perform (.ack o) >>= k) Q E out := by
  refine Automaton.accepts_perform ?_ ?_
  · rintro o' he
    obtain rfl := Call.ack.inj he
    exact ho
  · rintro r _ rfl
    rw [ruledOut_quiet fun _ => id]
    exact hk r

/-- A call that rules something out. -/
theorem accepts_ruling {k : c.Reply → Program α} (hc : ∀ o, c ≠ .ack o)
    (hk : ∀ r, ruling.Accepts (k r) Q E fun o => out o ∨ c.RulesOut o) :
    ruling.Accepts (Prog.perform c >>= k) Q E out := by
  refine Automaton.accepts_perform (fun o he => absurd he (hc o)) ?_
  rintro r _ rfl
  exact hk r

theorem quiet_of_works {S : Stage} {m : MessageId} {d : DocId} (h : Works S m d c) : c.Quiet := by
  obtain ⟨hinternal, hrecords⟩ := h
  cases c with
  | updateDocument | recordEvent =>
    refine ⟨fun o ho => ?_, by simp⟩
    simp [Call.recordsFailure, ho.1] at hrecords
  | publish | ack => exact hinternal.elim
  | _ => exact ⟨fun _ => id, by simp⟩

theorem quiet_of_handing {S : Stage} {d : DocId} (h : Handing S d c) : c.Quiet := by
  cases c with
  | publish exchange =>
    cases exchange with
    | ingest => exact ⟨fun _ => id, by simp⟩
    | retry | dlx => exact h.elim
  | freshId => exact ⟨fun _ => id, by simp⟩
  | _ => exact h.elim

/-- A program that settles nothing. -/
theorem abides_of_calls {p : Program Unit} (hp : p.Calls fun c => ¬ Settles c) : Abides p out := by
  induction p generalizing out with
  | ret | raise => trivial
  | call c k ih =>
    refine accepts_ruling (fun o he => hp.1 ?_) fun r => ih r (hp.2 r)
    rw [he]
    trivial

end Calls

/-! ## The workers -/

namespace Python
variable {S : Stage} {env : Envelope} {α : Type} {out : Outcome → Prop}

theorem accepts_quiet_call {c : Call} {k : c.Val → Program α} {Q : α → (Outcome → Prop) → Prop}
    {E : Exc → (Outcome → Prop) → Prop} (hc : c.Quiet) (hE : ∀ reason, E (.other reason) out)
    (hk : ∀ v, ruling.Accepts (k v) Q E out) : ruling.Accepts (call c >>= k) Q E out := by
  rw [Automaton.accepts_bind]
  refine accepts_quiet hc fun r => ?_
  cases r with
  | error reason => exact hE reason
  | ok v => exact hk v

/-- A call that records a failure. -/
theorem accepts_recording {c : Call} {k : c.Val → Program α} {Q : α → (Outcome → Prop) → Prop}
    (hack : ∀ o, c ≠ .ack o) (hc : Noted c.RulesOut) (hout : Noted out)
    (hk : ∀ v out', Noted out' → ruling.Accepts (k v) Q Narrow out') :
    ruling.Accepts (call c >>= k) Q Narrow out := by
  have hboth : Noted fun o => out o ∨ c.RulesOut o := fun o ho => ho.elim (hout o) (hc o)
  rw [Automaton.accepts_bind]
  refine accepts_ruling hack fun r => ?_
  cases r with
  | error reason => exact ⟨hboth, by rintro ⟨_, he⟩; cases he⟩
  | ok v => exact hk v _ hboth

theorem noted_update (d : DocId) (u : DocumentUpdate) :
    Noted (Call.RulesOut (.updateDocument d u)) := fun _ h => h.2

theorem noted_event (e : ProcessingEvent) : Noted (Call.RulesOut (.recordEvent e)) :=
  fun _ h => h.2

/-- Only the clause that raises `PermanentError` again records a failure. -/
theorem onError_narrows {Q : α → (Outcome → Prop) → Prop} (e : Exc) (hout : Open out) :
    ruling.Accepts (onError S env e) Q Narrow out := by
  unfold onError recordEvent
  cases e with
  | permanent reason =>
    refine accepts_recording (by simp) (noted_update _ _) (noted_of_open hout) fun _ out₁ h₁ => ?_
    refine accepts_recording (by simp) (noted_event _) h₁ fun _ out₂ h₂ => ?_
    exact ⟨h₂, by rintro ⟨_, he⟩; cases he⟩
  | transient reason | other reason =>
    have hquiet : Call.Quiet (.recordEvent
        { documentId := env.documentId, stage := .work S, fromState := some S.processing,
          toState := S.processing, message := some s!"transient: {reason}" }) := by
      refine ⟨fun o ho => ?_, by simp⟩
      cases S <;> cases ho.1
    exact accepts_quiet_call hquiet (fun _ => narrow_of_open hout) fun _ => narrow_of_open hout

/-- A handler that returns has recorded no failure. -/
theorem handle_narrows {skipped : α} {work : Document → Program α}
    (hwork : ∀ document, (work document).Calls (Works S env.messageId env.documentId))
    (hout : Open out) :
    ruling.Accepts (handle S skipped work env) (fun _ out => Open out) Narrow out := by
  unfold handle alreadyProcessed fetchDocument
  refine accepts_quiet_call ⟨fun _ => id, by simp⟩ (fun _ => narrow_of_open hout) fun seen => ?_
  split
  · exact hout
  refine accepts_quiet_call ⟨fun _ => id, by simp⟩ (fun _ => narrow_of_open hout) fun found => ?_
  split
  · exact narrow_of_open hout
  split
  · exact hout
  refine Automaton.Accepts.tryCatch (F := fun _ out => Open out) ?_ fun e _ h => onError_narrows e h
  exact accepts_of_quiet ((hwork _).mono fun _ => quiet_of_works) (fun _ => hout) fun _ => hout

/-- `on_message` settles with an outcome that is still open. -/
theorem onMessage_abides {N : Type} {maxRetries : Int} {m : Message}
    {handler : Envelope → Program (Option N)} {publishNext : Envelope → N → Program Unit}
    (hhandler : ruling.Accepts (handler m.body) (fun _ out => Open out) Narrow out)
    (hnext : ∀ n, (publishNext m.body n).Calls Call.Quiet) :
    Abides (onMessage maxRetries envelopeCodec (channel S m) handler publishNext m.body) out := by
  have hack : ∀ {o out} {Q : Unit → (Outcome → Prop) → Prop} {E}, ¬ out o → (∀ v, Q v out) →
      (∀ e, E e out) → ruling.Accepts ((channel S m).ack o) Q E out := by
    intro o out Q E ho hQ hE
    refine accepts_openAck ho fun r => ?_
    cases r with
    | error => exact hE _
    | ok v => exact hQ v
  refine Automaton.Accepts.tryCatch (F := Narrow) ?_ fun e out₁ h₁ => ?_
  · rw [Automaton.accepts_bind]
    refine hhandler.mono (fun r out₁ h₁ => ?_) fun _ _ h => h
    have hsuccess : ruling.Accepts ((channel S m).ack .success) (fun _ _ => True) Narrow out₁ :=
      hack (h₁ _) (fun _ => trivial) fun _ => narrow_of_open h₁
    cases r with
    | none => exact hsuccess
    | some next =>
      rw [Automaton.accepts_bind]
      exact accepts_of_quiet (hnext next) (fun _ => hsuccess) fun _ => narrow_of_open h₁
  · obtain ⟨hnoted, hopen⟩ := h₁
    cases e with
    | permanent =>
      refine hack (fun ho => ?_) (fun _ => trivial) fun _ => trivial
      cases hnoted _ ho
    | transient reason =>
      have hout₁ := hopen ⟨reason, rfl⟩
      show ruling.Accepts (retry maxRetries envelopeCodec (channel S m) m.body) _ _ _
      unfold retry
      simp only [envelopeCodec]
      split
      · trivial
      · -- the publish to `ingest.dlx` rules out another outcome than the ack's
        rw [Automaton.accepts_bind]
        refine accepts_ruling (by simp) fun r => ?_
        cases r with
        | error => trivial
        | ok =>
          refine hack (fun ho => ?_) (fun _ => trivial) fun _ => trivial
          rcases ho with ho | ho
          · exact hout₁ _ ho
          · cases ho
      · rw [Automaton.accepts_bind]
        refine accepts_quiet ⟨fun _ => id, by simp⟩ fun r => ?_
        cases r with
        | error => trivial
        | ok => exact hack (hout₁ _) (fun _ => trivial) fun _ => trivial
    | other =>
      have hnack : ((channel S m).nack).Calls Call.Quiet := calls_call ⟨fun _ => id, by simp⟩
      exact accepts_of_quiet (.tryCatch hnack fun _ => trivial) (fun _ => trivial) fun _ => trivial

end Python

namespace Chunker
variable {cfg : Config} {env : Envelope} {out : Outcome → Prop}

/-- `process` records a failure only if it returns `ErrPermanent`. -/
def Narrows (r : Option GoError) (out : Outcome → Prop) : Prop :=
  Noted out ∧ ((∀ reason, r ≠ some (.permanent reason)) → Open out)

theorem narrows_of_open {r : Option GoError} (h : Open out) : Narrows r out :=
  ⟨noted_of_open h, fun _ => h⟩

theorem publishNext_narrows (n : Nat) (hout : Open out) :
    ruling.Accepts (publishNext env n) Narrows (fun _ _ => True) out :=
  accepts_of_quiet ((publishNext_handing env n).mono fun _ => quiet_of_handing)
    (fun _ => narrows_of_open hout) fun _ => trivial

theorem chunkDocument_narrows (rawText : Text) (hout : Open out) :
    ruling.Accepts (chunkDocument cfg env rawText) Narrows (fun _ _ => True) out := by
  unfold chunkDocument
  dsimp only
  split
  · refine accepts_ruling (by simp) fun _ => accepts_ruling (by simp) fun _ => ⟨?_, ?_⟩
    · rintro o ((ho | ho) | ho)
      · exact absurd ho (hout o)
      · exact ho.2
      · exact ho.2
    · exact fun hr => absurd rfl (hr _)
  refine accepts_quiet ⟨fun _ => id, by simp⟩ fun r => ?_
  cases r with
  | error e => exact narrows_of_open hout
  | ok =>
    refine accepts_quiet ⟨by simp [Call.RulesOut], by simp⟩ fun r => ?_
    cases r with
    | error e => exact narrows_of_open hout
    | ok =>
      refine accepts_quiet ⟨by simp [Call.RulesOut], by simp⟩ fun _ => ?_
      exact accepts_quiet ⟨fun _ => id, by simp⟩ fun _ => publishNext_narrows _ hout

theorem process_narrows (hout : Open out) :
    ruling.Accepts (process cfg env) Narrows (fun _ _ => True) out := by
  unfold process
  split
  · exact narrows_of_open hout
  refine accepts_quiet ⟨fun _ => id, by simp⟩ fun r => ?_
  match r with
  | .error e => exact narrows_of_open hout
  | .ok true => exact narrows_of_open hout
  | .ok false =>
    refine accepts_quiet ⟨fun _ => id, by simp⟩ fun r => ?_
    match r with
    | .error e => exact narrows_of_open hout
    | .ok none => exact narrows_of_open hout
    | .ok (some doc) =>
      dsimp only
      split
      · exact narrows_of_open hout
      split
      · exact narrows_of_open hout
      refine accepts_quiet ⟨by simp [Call.RulesOut], by simp⟩ fun r => ?_
      cases r with
      | error e => exact narrows_of_open hout
      | ok =>
        exact accepts_quiet ⟨by simp [Call.RulesOut], by simp⟩ fun _ =>
          chunkDocument_narrows _ hout

theorem handle_abides (m : Message) (hout : Open out) : Abides (handle cfg m) out := by
  have hack : ∀ {o : Outcome} {out : Outcome → Prop}, ¬ out o →
      Abides (Prog.perform (.ack o) >>= fun _ => pure ()) out :=
    fun ho => accepts_openAck ho fun _ => trivial
  unfold handle
  dsimp only
  generalize (if m.body.attempt = 0 then { m.body with attempt := 1 } else m.body) = env
  rw [Abides, Automaton.accepts_bind]
  refine (process_narrows hout).mono (fun r out₁ h₁ => ?_) fun _ _ h => h
  obtain ⟨hnoted, hopen⟩ := h₁
  split
  · exact hack (hopen (by simp) _)
  · refine hack fun ho => ?_
    cases hnoted _ ho
  · rename_i hpermanent
    have hout₁ : Open out₁ := hopen fun reason he => hpermanent reason (Option.some.inj he)
    split
    · rw [Automaton.accepts_bind]
      refine accepts_ruling (by simp) fun r => hack fun ho => ?_
      rcases ho with ho | ho
      · exact hout₁ _ ho
      · cases ho
    · rw [Automaton.accepts_bind]
      exact accepts_quiet ⟨fun _ => id, by simp⟩ fun _ => hack (hout₁ _)

end Chunker

/-- **A consumer settles with no outcome that it has ruled out.** -/
theorem consumer_abides (cfg : Config) (S : Stage) (m : Message) {out : Outcome → Prop}
    (hout : Open out) : Abides (consumer cfg S m) out := by
  cases S with
  | ocr =>
    refine Python.onMessage_abides (Python.handle_narrows (fun _ => Ocr.recognise_works _ _ _) hout)
      fun n => ?_
    exact (Ocr.publishNext_handing _ n).mono fun _ => quiet_of_handing
  | chunk => exact Chunker.handle_abides m hout
  | embed =>
    show Abides (Embedder.onMessage cfg m) out
    unfold Embedder.onMessage
    refine Python.onMessage_abides (S := .embed) ?_ fun n => nomatch n
    rw [Automaton.accepts_bind]
    exact Automaton.Accepts.mono (Python.handle_narrows (fun _ => Embedder.embed_works _ _) hout)
      (fun _ _ h => h) fun _ _ h => h

/-! ## Every run -/

/-- The call does what is left to others by who gives the copy's message up. -/
def Call.Completes (copy : Copy) : Outcome → Call → Prop
  | .permanent, .publish .dlx key m =>
    key = ⟨copy.message.body.stage, .dlq⟩ ∧ m.body.messageId = copy.message.body.messageId
  | .deadLettered, .updateDocument d u => d = copy.message.body.documentId ∧ u.status = .failed
  | .deadLettered, .recordEvent e =>
    e.documentId = copy.message.body.documentId ∧ e.toState = .failed
  | _, _ => False

theorem rulesOut_of_completes {copy : Copy} {o : Outcome} {c : Call} (h : c.Completes copy o) :
    c.RulesOut o := by
  cases o with
  | permanent =>
    cases c with
    | publish exchange =>
      cases exchange with
      | dlx => rfl
      | ingest | retry => exact h.elim
    | _ => exact h.elim
  | deadLettered =>
    cases c with
    | updateDocument | recordEvent => exact ⟨h.2, rfl⟩
    | _ => exact h.elim
  | _ => exact h.elim

section Runs
variable {cfg : Config} {ok : Sys → Label → Prop} {s s₁ s₂ : Sys} {i : Nat} {copy : Copy}
  {o : Outcome} {c : Call}

/-- What is left of an execution settles with no outcome that is ruled out. -/
theorem abides_of_reachable (h : Reachable cfg ok s) {p : Program Unit}
    (hp : s.progs i = some p) : ∃ out, Abides p out := by
  have hopen : Open fun _ => False := fun _ h => h
  refine Tracks.holds (K := fun _ p _ => ∃ out, Abides p out)
    (.of_program (fun u t x => ⟨fun _ => False, abides_of_calls ?_⟩)
      (fun d => ⟨fun _ => False, abides_of_calls ?_⟩)
      (fun S m => ⟨fun _ => False, consumer_abides cfg S m hopen⟩)
      ⟨fun _ => False, trivial⟩ ?_) h hp
  · exact .bind ((Api.createDocument_calls cfg u t x).mono fun _ => Api.not_settles_of_upload)
      fun _ => trivial
  · exact .bind (Api.retryAction_calls d) fun _ => trivial
  · rintro c k r ⟨out, hp⟩
    exact ⟨_, hp.2 r _ rfl⟩

/-- What an execution has ruled out stays ruled out. -/
theorem abides_of_reaches (h : Reaches (step cfg) ok s s₁) {out : Outcome → Prop}
    {p : Program Unit} (hp : s.progs i = some p) (hout : Abides p out) :
    ∃ p' out', s₁.progs i = some p' ∧ Abides p' out' ∧ ∀ o, out o → out' o := by
  induction h with
  | start => exact ⟨p, out, hp, hout, fun _ => id⟩
  | @next s₁ s₂ l _ _ hstep ih =>
    obtain ⟨q, out₁, hq, habides, hmono⟩ := ih
    rcases progs_of_started hstep hq with hq₂ | hq₂ | ⟨c, k, r, rfl, hq₂⟩
    · exact ⟨q, out₁, hq₂, habides, hmono⟩
    · exact ⟨_, out₁, hq₂, trivial, hmono⟩
    · exact ⟨_, _, hq₂, habides.2 r _ rfl, fun o ho => Or.inl (hmono o ho)⟩

/-- **An execution that has made a call of the other half** does not give the message up this
way, in whatever run. -/
theorem not_givesUp_of_completes (h : Reachable cfg ok s₁) (hp : s₁.pending i = some c)
    (hc : c.Completes copy o) {a : Answer} (hstep : step cfg s₁ (.run i a) = some s₂)
    (hs : Reaches (step cfg) ok s₂ s) : ¬ GivesUp s i copy o := by
  intro hg
  obtain ⟨k, hk⟩ := Pool.pending_eq_some.mp hp
  obtain ⟨out, habides⟩ := abides_of_reachable h hk
  obtain ⟨c', k', r, w, hk', hx, rfl⟩ := step_run hstep
  obtain ⟨rfl, he⟩ := Prog.call.inj (Option.some.inj (hk.symm.trans hk'))
  obtain rfl := eq_of_heq he
  obtain ⟨p, out', hp', habides', hmono⟩ :=
    abides_of_reaches hs (Pool.spawn_progs_self _ _ _) (habides.2 r _ rfl)
  obtain ⟨k₁, hk₁⟩ := Pool.pending_eq_some.mp hg.pending
  obtain rfl := Option.some.inj (hk₁.symm.trans hp')
  exact habides'.1 o rfl (hmono o (Or.inr (rulesOut_of_completes hc)))

/-- A step that brings the other half about is a call of it. -/
theorem completes_of_step {l : Label} (h : Reachable cfg ok s₁)
    (ho : o = .permanent ∨ o = .deadLettered) (hstep : step cfg s₁ l = some s₂)
    (hnot : ¬ OtherHalf s₁.world copy o) (hhalf : OtherHalf s₂.world copy o) :
    ∃ j a c, l = .run j a ∧ s₁.pending j = some c ∧ c.Completes copy o := by
  have hb := reachable_base h
  rcases world_of_step hstep with he | hmove | ⟨j, a, c, k, v, rfl, hp, hreply⟩
  · rw [he] at hhalf
    exact absurd hhalf hnot
  · refine absurd ?_ hnot
    rcases ho with rfl | rfl
    · obtain ⟨x, hx, hid⟩ := hhalf
      exact ⟨x, dlq_of_envMove hb hmove ▸ hx, hid⟩
    · change s₂.world.db.Marked _ at hhalf
      rwa [db_of_envMove hmove] at hhalf
  · refine ⟨j, a, c, rfl, Pool.pending_of_progs hp, ?_⟩
    have hd := does_of_reply hreply
    rcases ho with rfl | rfl
    · obtain ⟨x, hx, hid⟩ := hhalf
      rcases of_mem_dlq_of_does hb hd hx with hold | rfl
      · exact absurd ⟨x, hold, hid⟩ hnot
      · exact ⟨rfl, hid⟩
    · -- the row or the event is the one that was missing
      obtain ⟨⟨row, hrow, hstatus, hfailure⟩, e, he, hdoc, hto⟩ := hhalf
      rcases of_documents_of_does hd hrow with hrow₁ | ⟨u, row₁, rfl, -, rfl⟩ | ⟨stored, rfl⟩
      · rcases of_mem_events_of_does hd he with he₁ | rfl | ⟨hup, -⟩
        · exact absurd ⟨⟨row, hrow₁, hstatus, hfailure⟩, e, he₁, hdoc, hto⟩ hnot
        · exact ⟨hdoc, hto⟩
        · rw [hup] at hto
          cases hto
      · exact ⟨rfl, hstatus⟩
      · rcases (mayCall_of_reachable h hp).1 with ⟨-, hrequest⟩ | ⟨S, m, -, hcall⟩
        · rw [hrequest.1] at hstatus
          cases hstatus
        · exact absurd rfl (hcall.not_create row stored)

/-- **Where the other half is done, another execution has done it**: an earlier step of the
run was its call, and brought it about. -/
theorem otherHalf_of_another (h : Reachable cfg ok s) (hg : GivesUp s i copy o)
    (hhalf : OtherHalf s.world copy o) :
    ∃ j a c s₁ s₂, j ≠ i ∧ Reachable cfg ok s₁ ∧ s₁.pending j = some c ∧ c.Completes copy o ∧
      step cfg s₁ (.run j a) = some s₂ ∧ ¬ OtherHalf s₁.world copy o ∧
        OtherHalf s₂.world copy o ∧ Reaches (step cfg) ok s₂ s := by
  have hinit : ¬ OtherHalf World.empty copy o := by
    intro hhalf
    rcases hg.outcome with rfl | rfl
    · obtain ⟨x, hx, -⟩ := hhalf
      cases hx
    · obtain ⟨⟨row, hrow, -⟩, -⟩ := hhalf
      cases hrow
  obtain ⟨s₁, l, s₂, h₁, -, hstep, hnot, hhalf₂, hrest⟩ :=
    h.exists_turn (P := fun s => OtherHalf s.world copy o) hinit hhalf
  obtain ⟨j, a, c, rfl, hp, hc⟩ := completes_of_step h₁ hg.outcome hstep hnot hhalf₂
  refine ⟨j, a, c, s₁, s₂, ?_, h₁, hp, hc, hstep, hnot, hhalf₂, hrest⟩
  rintro rfl
  exact not_givesUp_of_completes h₁ hp hc hstep hrest hg

end Runs
end DigitalCip
