import DigitalCip.Invariant.Audit
import DigitalCip.Invariant.Live
import DigitalCip.Invariant.View
import Mathlib.Data.List.Chain

/-!
# The audit log

The events of a document are meant to be the path its status has taken.  They are,
in every run in which nothing goes wrong between a status and its event
(`auditable`): each event starts where the one before it ended, and the last one
leads to the status of the document, or is about to be inserted
(`audit_path`, `status_recorded`).  A process that dies between the two leaves a status that
no event accounts for (`not_status_recorded`).
-/

namespace DigitalCip
open Resumable

/-- The `to_state` of the latest event of document `d`. -/
def Db.latest (db : Db) (d : DocId) : Option Status :=
  (db.trail d).getLast?.map ProcessingEvent.toState

/-- The audit of document `d`. -/
def World.audit (w : World) (d : DocId) : Audit where
  status := (w.db.documents d).map Document.status
  latest := w.db.latest d

/-- The events start with the upload, and each starts where the one before it ended. -/
structure Path (trail : List ProcessingEvent) : Prop where
  first : ∃ e, trail.head? = some e ∧ e.fromState = none ∧ e.toState = .uploaded
  chain : trail.IsChain fun e e' => e'.fromState = some e.toState

/-- Nothing goes wrong between a status of document `d` and its event: executions on
`d` do not overlap, no process dies before the insert of an event that leads to
another status, and no database call fails whose failure is not harmless. -/
def auditable (d : DocId) (s : Sys) (l : Label) : Prop :=
  exclusiveFor d s l ∧ match l with
    | .die i => ∀ e, s.pending i = some (.recordEvent e) → e.documentId = d →
        e.fromState = some e.toState
    | .run i (.fail _) => ∀ c, s.pending i = some c →
        c.Harmless d ((s.world.db.documents d).map Document.status)
    | _ => True

/-! ## The log after a call -/

section Trail
variable {db : Db} {d : DocId}

/-- A path goes on with an event that starts where it ends. -/
theorem Path.append {trail : List ProcessingEvent} (h : Path trail) {e : ProcessingEvent}
    (he : e.fromState = trail.getLast?.map ProcessingEvent.toState) : Path (trail ++ [e]) := by
  obtain ⟨first, hfirst, hfrom, hto⟩ := h.first
  refine ⟨⟨first, ?_, hfrom, hto⟩, ?_⟩
  · rw [List.head?_append, hfirst]
    rfl
  · refine h.chain.append (List.isChain_singleton e) fun x hx y hy => ?_
    obtain rfl : e = y := by simpa using hy
    rw [he, Option.mem_def.mp hx]
    rfl

/-- The call changes the status of document `d` or its log. -/
def Call.Audits (d : DocId) : Call → Prop
  | .updateDocument d' _ => d' = d
  | .recordEvent e => e.documentId = d
  | .createDocument _ _ => True
  | _ => False

/-- What no other call changes. -/
theorem unaudited_of_does {i : Nat} {c : Call} {v : c.Val} {w w' : World} (hd : Does i c v w w')
    (hc : ¬ c.Audits d) :
    w'.db.documents d = w.db.documents d ∧ w'.db.trail d = w.db.trail d := by
  cases c with
  | alreadyProcessed | fetchDocument | fetchChunksWithoutEmbedding | downloadObject | embedBatch
  | retryDocument | freshId =>
    obtain ⟨-, rfl⟩ := hd
    exact ⟨rfl, rfl⟩
  | updateDocument d' u =>
    obtain rfl := hd
    refine ⟨?_, rfl⟩
    show (w.db.updateDocument d' u).documents d = _
    rw [Db.updateDocument_documents, if_neg (Ne.symm hc)]
  | recordEvent e =>
    obtain rfl := hd
    refine ⟨rfl, ?_⟩
    show (w.db.recordEvent e).trail d = _
    have hother : e.documentId ≠ d := hc
    rw [Db.trail_recordEvent, if_neg hother]
  | createDocument => exact absurd trivial hc
  | ack =>
    obtain ⟨copy, -, rfl⟩ := hd
    exact ⟨rfl, rfl⟩
  | nack =>
    obtain ⟨copy, q, -, rfl⟩ := hd
    exact ⟨rfl, rfl⟩
  | _ =>
    obtain rfl := hd
    exact ⟨rfl, rfl⟩

theorem audit_congr {w w' : World} (hdoc : w'.db.documents d = w.db.documents d)
    (htrail : w'.db.trail d = w.db.trail d) : w'.audit d = w.audit d := by
  unfold World.audit Db.latest
  rw [hdoc, htrail]

theorem audit_updateDocument (w : World) (u : DocumentUpdate) :
    ({ w with db := w.db.updateDocument d u } : World).audit d =
      { w.audit d with status := (w.audit d).status.map fun _ => u.status } := by
  unfold World.audit
  show Audit.mk (((w.db.updateDocument d u).documents d).map Document.status) _ = _
  rw [Db.updateDocument_documents, if_pos rfl, Option.map_map, Option.map_map]
  rfl

theorem audit_recordEvent (w : World) {e : ProcessingEvent} (he : e.documentId = d) :
    ({ w with db := w.db.recordEvent e } : World).audit d =
      { w.audit d with latest := some e.toState } := by
  unfold World.audit Db.latest
  show Audit.mk _ (((w.db.recordEvent e).trail d).getLast?.map ProcessingEvent.toState) = _
  rw [Db.trail_recordEvent, if_pos he, List.getLast?_append]
  rfl

end Trail

/-! ## A handler moves its document as its automaton says -/

section Moves
variable {i : Nat} {S : Stage} {env : Envelope} {w w' : World} {c : Call}

theorem moves_error {a a' : Audit} {d : DocId} {reason : String} :
    a.Moves S d c (.error reason) a' ↔ a' = a ∧ c.Harmless d a.status := by
  cases c <;> exact Iff.rfl

/-- A consumer changes only its own document and its log, before it settles. -/
theorem ConsumerCall.of_audits {m : Message} {d : DocId} (h : ConsumerCall S m c)
    (hc : c.Audits d) : m.body.documentId = d ∧ ¬ Settles c := by
  cases c with
  | updateDocument | recordEvent =>
    obtain rfl := hc
    exact ⟨(h.subject rfl).symm, id⟩
  | createDocument row stored => exact absurd rfl (h.not_create row stored)
  | _ => exact hc.elim

/-- A call of a consumer that succeeds. -/
theorem moves_of_does {v : c.Val} (hb : Base w) (hh : Handles w i S env)
    (hc : ∀ row stored, c ≠ .createDocument row stored) (hd : Does i c v w w') :
    (w.audit env.documentId).Moves S env.documentId c (.ok v) (w'.audit env.documentId) := by
  have hkeep : ¬ c.Audits env.documentId → w'.audit env.documentId = w.audit env.documentId := by
    intro hc
    obtain ⟨hdoc, htrail⟩ := unaudited_of_does hd hc
    exact audit_congr hdoc htrail
  cases c with
  | updateDocument d u =>
    by_cases hdoc : d = env.documentId
    · subst hdoc
      obtain rfl := hd
      exact (audit_updateDocument w u).trans (if_pos rfl).symm
    · exact (hkeep hdoc).trans (if_neg hdoc).symm
  | recordEvent e =>
    by_cases hdoc : e.documentId = env.documentId
    · obtain rfl := hd
      exact (audit_recordEvent w hdoc).trans (if_pos hdoc).symm
    · exact (hkeep hdoc).trans (if_neg hdoc).symm
  | fetchDocument d =>
    refine ⟨hkeep id, ?_⟩
    rintro rfl
    obtain ⟨rfl, -⟩ := hd
    refine ⟨rfl, ?_⟩
    rintro rfl row t hrow ht hblank
    -- the chunk message promises a text
    obtain ⟨hready, hstage⟩ := hh.ready hb
    unfold Db.Ready at hready
    rw [hstage] at hready
    obtain ⟨row', hrow', ⟨t', ht', hnot⟩, -⟩ := hready
    obtain rfl := Option.some.inj (hrow.symm.trans hrow')
    obtain rfl := Option.some.inj (ht.symm.trans ht')
    exact hnot hblank
  | createDocument row stored => exact absurd rfl (hc row stored)
  | _ => exact hkeep id

end Moves

/-! ## Every run -/

/-- What holds of document `d` in every run in which its log is auditable. -/
structure Logged (d : DocId) (s : Sys) : Prop where
  absent : s.world.db.documents d = none → s.world.db.trail d = []
  path : ∀ row, s.world.db.documents d = some row → Path (s.world.db.trail d)
  idle : (∀ i, ¬ s.AtWork i d) → (s.world.audit d).Current
  working : ∀ i, s.AtWork i d → ∃ S env p, env.documentId = d ∧ Handles s.world i S env ∧
    s.progs i = some p ∧ (auditor S d).Accepts p (fun _ => Audit.Current) (fun _ => Audit.Current)
      (s.world.audit d)

section Runs
variable {cfg : Config} {ok : Sys → Label → Prop} {s s' : Sys} {d : DocId} {l : Label}

/-- The document of an execution is there. -/
theorem exists_row_of_atWork (hb : Base s.world) {i : Nat} (h : s.AtWork i d) :
    ∃ row, s.world.db.documents d = some row := by
  obtain ⟨copy, hcopy, rfl⟩ := Option.map_eq_some_iff.mp h.1
  obtain ⟨del, hdel, rfl⟩ := Option.map_eq_some_iff.mp hcopy
  have hstems := hb.mail.held del.queue.stage del.copy
    (.delivered i del hdel rfl rfl)
  exact Handles.row (S := del.queue.stage) hb ⟨del.copy, hcopy, hstems, .refl _⟩

/-- An execution that changes the document or its log, and does not create it, is at
work on it. -/
theorem atWork_of_audits (hs : Reachable cfg ok s) {i : Nat} {c : Call}
    {k : c.Reply → Program Unit} (hprog : s.progs i = some (.call c k)) (hc : c.Audits d)
    (hcreate : ∀ row stored, c ≠ .createDocument row stored) : s.AtWork i d := by
  rcases (mayCall_of_reachable hs hprog).1 with ⟨-, hrequest⟩ | ⟨S, m, hdoc, hcall⟩
  · cases c with
    | createDocument row stored => exact absurd rfl (hcreate row stored)
    | updateDocument | recordEvent => exact hrequest.elim
    | _ => exact hc.elim
  · obtain ⟨rfl, hns⟩ := hcall.of_audits hc
    exact ⟨hdoc, c, Pool.pending_of_progs hprog, hns⟩

/-- A document is created as an uploaded one. -/
theorem uploaded_of_create (hs : Reachable cfg ok s) {i : Nat} {row : Document}
    {stored : Details} {k : (Call.createDocument row stored).Reply → Program Unit}
    (hprog : s.progs i = some (.call (.createDocument row stored) k)) : row.status = .uploaded := by
  rcases (mayCall_of_reachable hs hprog).1 with ⟨-, hrequest⟩ | ⟨S, m, -, hcall⟩
  · exact hrequest.1
  · exact absurd rfl (hcall.not_create row stored)

/-- A step that leaves the document, its log, and who is at work on it, alone. -/
theorem Logged.of_same (h : Logged d s) (hg : Grows s.world s'.world)
    (hdoc : s'.world.db.documents d = s.world.db.documents d)
    (htrail : s'.world.db.trail d = s.world.db.trail d)
    (hwork : ∀ j, s'.AtWork j d ↔ s.AtWork j d)
    (hprogs : ∀ j, s.AtWork j d → s'.progs j = s.progs j) : Logged d s' := by
  have haudit := audit_congr hdoc htrail
  refine ⟨?_, ?_, ?_, ?_⟩
  · rw [hdoc, htrail]
    exact h.absent
  · rw [hdoc, htrail]
    exact h.path
  · intro hidle
    rw [haudit]
    exact h.idle fun i hi => hidle i ((hwork i).mpr hi)
  · intro i hi
    have hi₀ := (hwork i).mp hi
    obtain ⟨S, env, p, henv, hh, hp, hacc⟩ := h.working i hi₀
    exact ⟨S, env, p, henv, hh.mono hg, (hprogs i hi₀).trans hp, by rwa [haudit]⟩

/-- Who is at work is at work after a step about another execution. -/
theorem atWork_iff_of_step (hstep : step cfg s l = some s') {j : Nat} (hj : l.execution ≠ some j) :
    s'.AtWork j d ↔ s.AtWork j d := by
  have hdoc : s'.world.documentOf j = s.world.documentOf j :=
    documentOf_of_step hstep fun S n he => hj (by rw [he]; rfl)
  unfold Sys.AtWork Pool.pending
  rw [hdoc, progs_of_step hstep hj]

/-- A call of an execution that is at work on the document. -/
theorem Logged.run_own (h : Logged d s) (hs : Reachable cfg ok s) (hl : auditable d s l)
    (hunique : ∀ i j, s.AtWork i d → s.AtWork j d → i = j) {i : Nat} {a : Answer} (he : l = .run i a)
    (hi : s.AtWork i d) (hstep : step cfg s l = some s') : Logged d s' := by
  subst he
  have hb := reachable_base hs
  have hg := grows_of_step hs hstep
  have hdocument := documentOf_of_step hstep (j := i) (by simp)
  have hothers : ∀ j, j ≠ i → ¬ s'.AtWork j d := by
    intro j hji hj
    have hne : (Label.run i a).execution ≠ some j := fun he => hji (Option.some.inj he).symm
    exact hji (hunique j i ((atWork_iff_of_step hstep hne).mp hj) hi)
  obtain ⟨S, env, p, rfl, hh, hp, hacc⟩ := h.working i hi
  obtain ⟨row, hrow⟩ := exists_row_of_atWork hb hi
  obtain ⟨c, k, r, w, hprog, hx, rfl⟩ := step_run hstep
  obtain rfl := Option.some.inj (hp.symm.trans hprog)
  obtain ⟨howed, hmoves⟩ := hacc
  have hcreate : ∀ row stored, c ≠ .createDocument row stored := by
    rcases (mayCall_of_reachable hs hprog).1 with ⟨hnone, -⟩ | ⟨T, m, -, hcall⟩
    · rw [hi.1] at hnone
      cases hnone
    · exact hcall.not_create
  have hmove : (s.world.audit env.documentId).Moves S env.documentId c r (w.audit env.documentId) := by
    rcases exec_cases hx with ⟨reason, rfl, rfl, -, rfl⟩ | ⟨v, rfl, -, hdoes⟩
    · exact moves_error.mpr ⟨rfl, hl.2 c (Pool.pending_of_progs hprog)⟩
    · exact moves_of_does hb hh hcreate hdoes
  have hnext := hmoves r _ hmove
  refine ⟨?_, ?_, ?_, ?_⟩
  · intro hnone
    obtain ⟨row', hrow', -⟩ := hg.db.documents _ row hrow
    exact nomatch hnone.symm.trans hrow'
  · intro row' _
    -- only the insert of an event adds to the log
    have hpath := h.path row hrow
    rcases exec_cases hx with ⟨-, -, -, -, rfl⟩ | ⟨v, -, -, hdoes⟩
    · exact hpath
    by_cases hc : c.Audits env.documentId
    · cases c with
      | recordEvent e =>
        obtain rfl := hdoes
        obtain ⟨-, hfrom, -⟩ := howed
        show Path ((s.world.db.recordEvent e).trail env.documentId)
        have hdoc : e.documentId = env.documentId := hc
        rw [Db.trail_recordEvent, if_pos hdoc]
        exact hpath.append hfrom
      | updateDocument d u =>
        obtain rfl := hdoes
        exact hpath
      | createDocument row stored => exact absurd rfl (hcreate row stored)
      | _ => exact hc.elim
    · show Path (w.db.trail env.documentId)
      rw [(unaudited_of_does hdoes hc).2]
      exact hpath
  · intro hidle
    -- the execution has ended, or only settles its delivery
    have hdone := hidle i
    show (w.audit env.documentId).Current
    cases hk : k r with
    | ret v =>
      rw [hk] at hnext
      exact hnext
    | raise e =>
      rw [hk] at hnext
      exact hnext
    | call c' k' =>
      rw [hk] at hnext
      have hsettles : Settles c' := by
        by_contra hns
        refine hdone ⟨hdocument.trans hi.1, c', ?_, hns⟩
        exact Pool.pending_eq_some.mpr ⟨k', by rw [← hk, Pool.spawn_progs_self]⟩
      have howed' := hnext.1
      cases c' with
      | recordEvent => exact hsettles.elim
      | _ => exact howed'
  · intro j hj
    by_cases hji : j = i
    · subst hji
      exact ⟨S, env, k r, rfl, hh.mono hg, Pool.spawn_progs_self _ _ _, hnext⟩
    · exact absurd hj (hothers j hji)

/-- A call of an execution that is not at work on the document: an upload may
create it, and nothing else happens to it. -/
theorem Logged.run_other (h : Logged d s) (hs : Reachable cfg ok s) {i : Nat} {a : Answer}
    (he : l = .run i a) (hi : ¬ s.AtWork i d) (hstep : step cfg s l = some s') : Logged d s' := by
  subst he
  have hb := reachable_base hs
  have hg := grows_of_step hs hstep
  have hwork : ∀ j, s'.AtWork j d ↔ s.AtWork j d := by
    intro j
    by_cases hji : j = i
    · subst hji
      refine ⟨fun hj => ?_, fun hj => absurd hj hi⟩
      rcases atWork_of_step hs hstep hj with hj | ⟨S, n, he⟩
      · exact hj
      · cases he
    · exact atWork_iff_of_step hstep fun he => hji (Option.some.inj he).symm
  have hprogs : ∀ j, s.AtWork j d → s'.progs j = s.progs j := by
    intro j hj
    refine progs_of_step hstep fun he => hi ?_
    rwa [Option.some.inj he]
  obtain ⟨c, k, r, w, hprog, hx, rfl⟩ := step_run hstep
  rcases exec_cases hx with ⟨-, -, -, -, rfl⟩ | ⟨v, -, -, hdoes⟩
  · exact h.of_same hg rfl rfl hwork hprogs
  by_cases hc : c.Audits d
  · -- an execution that changes the document or its log is at work on it
    by_cases hcreate : ∀ row stored, c ≠ .createDocument row stored
    · exact absurd (atWork_of_audits hs hprog hc hcreate) hi
    obtain ⟨row, stored, rfl⟩ : ∃ row stored, c = .createDocument row stored := by
      simpa only [not_forall, not_not] using hcreate
    rcases hdoes with ⟨e, -, rfl⟩ | ⟨d', db, -, htx, rfl⟩
    · exact h.of_same hg rfl rfl hwork hprogs
    obtain ⟨-, rfl, rfl⟩ := Api.createTransaction_ok htx
    have htrail := @Db.trail_recordEvent (s.world.db.insertDocument row) d
      { documentId := s.world.db.nextDocumentId, stage := .upload, fromState := none,
        toState := .uploaded, message := some "Document accepted", payload := stored }
    have hdocs := @Db.insertDocument_documents s.world.db row d
    by_cases hd : d = s.world.db.nextDocumentId
    · -- the new document, with its first event
      subst hd
      have hnone := hb.db.unused _ (Nat.le_refl _)
      have hempty : (s.world.db.insertDocument row).trail s.world.db.nextDocumentId = [] :=
        h.absent hnone
      have hnobody : ∀ j, ¬ s.AtWork j s.world.db.nextDocumentId := by
        intro j hj
        obtain ⟨row', hrow'⟩ := exists_row_of_atWork hb hj
        exact nomatch hnone.symm.trans hrow'
      rw [if_pos rfl, hempty] at htrail
      rw [if_pos rfl] at hdocs
      refine ⟨fun hno => (nomatch hdocs.symm.trans hno), fun _ _ => ?_, fun _ => ?_,
        fun j hj => absurd ((hwork j).mp hj) (hnobody j)⟩
      · exact htrail ▸ ⟨⟨_, rfl, rfl, rfl⟩, List.isChain_singleton _⟩
      · refine (congrArg (fun t => t.getLast?.map ProcessingEvent.toState) htrail).trans ?_
        show some Status.uploaded = ((s.world.db.insertDocument row).documents _).map Document.status
        rw [hdocs, Option.map_some, uploaded_of_create hs hprog]
    · rw [if_neg hd] at hdocs
      rw [if_neg (Ne.symm hd)] at htrail
      exact h.of_same hg hdocs htrail hwork hprogs
  · obtain ⟨hdoc, htrail⟩ := unaudited_of_does hdoes hc
    exact h.of_same hg hdoc htrail hwork hprogs

/-- The death of an execution that is at work on the document. -/
theorem Logged.die_own (h : Logged d s) (hl : auditable d s l)
    (hunique : ∀ i j, s.AtWork i d → s.AtWork j d → i = j) {i : Nat} (he : l = .die i)
    (hi : s.AtWork i d) (hstep : step cfg s l = some s') : Logged d s' := by
  subst he
  obtain ⟨S, env, p, rfl, hh, hp, hacc⟩ := h.working i hi
  obtain ⟨c, hpending, -⟩ := hi.2
  obtain ⟨k, hk⟩ := Pool.pending_eq_some.mp hpending
  obtain rfl := Option.some.inj (hp.symm.trans hk)
  have howed := hacc.1
  -- no event is missing: one that is about to be inserted leads nowhere
  have hcurrent : (s.world.audit env.documentId).Current := by
    cases c with
    | recordEvent e =>
      obtain ⟨hdoc, hfrom, hto⟩ := howed
      have hsame := hl.2 e hpending hdoc
      exact (hfrom.symm.trans hsame).trans hto
    | _ => exact howed
  obtain ⟨hsome, rfl⟩ := step_die hstep
  have hdb : (s.world.takeBack i).db = s.world.db := db_of_envMove (.die hsome)
  have haudit : (s.world.takeBack i).audit env.documentId = s.world.audit env.documentId := by
    unfold World.audit
    rw [hdb]
  refine ⟨?_, ?_, fun _ => ?_, fun j hj => ?_⟩
  · show (s.world.takeBack i).db.documents _ = none → (s.world.takeBack i).db.trail _ = []
    rw [hdb]
    exact h.absent
  · show ∀ row, (s.world.takeBack i).db.documents _ = some row → Path ((s.world.takeBack i).db.trail _)
    rw [hdb]
    exact h.path
  · show ((s.world.takeBack i).audit _).Current
    rw [haudit]
    exact hcurrent
  · exfalso
    by_cases hji : j = i
    · subst hji
      obtain ⟨-, c', hc', -⟩ := hj
      obtain ⟨k', hk'⟩ := Pool.pending_eq_some.mp hc'
      rw [Pool.move_progs, Pool.kill_progs_self] at hk'
      cases hk'
    · have hne : (Label.die i).execution ≠ some j := fun he => hji (Option.some.inj he).symm
      exact hji (hunique j i ((atWork_iff_of_step hstep hne).mp hj) hi)

/-- A delivery to a new execution. -/
theorem Logged.deliver (h : Logged d s) (hs : Reachable cfg ok s) (hb' : Base s'.world)
    (hl : auditable d s l) {i n : Nat} {T : Stage} (he : l = .deliver i T n)
    (hstep : step cfg s l = some s') : Logged d s' := by
  subst he
  have hb := reachable_base hs
  have hg := grows_of_step hs hstep
  have hother : ∀ j, j ≠ i → (s'.AtWork j d ↔ s.AtWork j d) := fun j hji =>
    atWork_iff_of_step hstep fun he => hji (Option.some.inj he).symm
  obtain ⟨copy, hunused, hcopy, rfl⟩ := step_deliver hstep
  have hnew : ¬ s.AtWork i d := by
    rintro ⟨-, c, hc, -⟩
    obtain ⟨k, hk⟩ := Pool.pending_eq_some.mp hc
    have hnone := hunused.1
    rw [hk] at hnone
    cases hnone
  have hdoc : ({ s.world with broker := s.world.broker.deliver i ⟨T, .work⟩ n copy } : World).documentOf
      i = some copy.message.body.documentId := by
    simp [World.documentOf, Broker.handled, Broker.deliver]
  by_cases hd : copy.message.body.documentId = d
  · -- nobody else is at work on the document
    have hidle := hl.1 copy hcopy hd
    have hstems := hb.mail.held T copy (.queued .work (List.mem_of_getElem? hcopy))
    have hcurrent := h.idle hidle
    refine ⟨h.absent, h.path, fun _ => hcurrent, fun j hj => ?_⟩
    by_cases hji : j = i
    · subst hji
      have hhandled : Handles { s.world with broker := s.world.broker.deliver j ⟨T, .work⟩ n copy } j T
          copy.message.body :=
        ⟨copy, by simp [Broker.handled, Broker.deliver], hstems.mono hg.broker, .refl _⟩
      obtain ⟨row, hrow⟩ := hhandled.row hb'
      have hrow : s.world.db.documents d = some row := hd ▸ hrow
      have hsettled : s.world.audit d = .settled row.status := by
        unfold Audit.Current World.audit at hcurrent
        unfold World.audit Audit.settled
        simp only [hrow, Option.map_some] at hcurrent ⊢
        rw [hcurrent]
      refine ⟨T, copy.message.body, consumer cfg T copy.message, hd, hhandled,
        Pool.spawn_progs_self _ _ _, ?_⟩
      show (auditor T d).Accepts _ _ _ (s.world.audit d)
      rw [hsettled, ← hd]
      exact consumer_audited cfg T copy.message row.status
    · exact absurd ((hother j hji).mp hj) (hidle j)
  · -- a message of another document
    have hself : ¬ (Sys.AtWork ((s.move { s.world with
        broker := s.world.broker.deliver i ⟨T, .work⟩ n copy }).spawn i (consumer cfg T copy.message))
          i d) := by
      rintro ⟨hdoc', -⟩
      exact hd (Option.some.inj (hdoc.symm.trans hdoc'))
    refine h.of_same hg rfl rfl (fun j => ?_) fun j hj => ?_
    · by_cases hji : j = i
      · subst hji
        exact ⟨fun hj => absurd hj hself, fun hj => absurd hj hnew⟩
      · exact hother j hji
    · have hji : j ≠ i := by
        rintro rfl
        exact hnew hj
      exact Pool.spawn_progs_of_ne _ _ _ hji

theorem logged_init : Logged d .init :=
  ⟨fun _ => rfl, fun _ h => (nomatch h), fun _ => rfl, fun _ h => by
    obtain ⟨-, c, hc, -⟩ := h
    cases hc⟩

/-- The start of a request, which has no document. -/
theorem Logged.start (h : Logged d s) (hs : Reachable cfg ok s) {i : Nat} {p : Program Unit}
    (hunused : s.Unused i) (he : s' = s.spawn i p) (hstep : step cfg s l = some s') : Logged d s' := by
  have hg := grows_of_step hs hstep
  subst he
  have hnone : s.world.documentOf i = none := by
    rw [World.documentOf, Broker.handled, Option.isNone_iff_eq_none.mp hunused.2]
    rfl
  have hnot : ∀ t : Sys, t.world = s.world → ¬ t.AtWork i d := by
    rintro t ht ⟨hdoc, -⟩
    rw [ht, hnone] at hdoc
    cases hdoc
  refine h.of_same hg rfl rfl (fun j => ?_) fun j hj => ?_
  · by_cases hji : j = i
    · subst hji
      exact ⟨fun hj => absurd hj (hnot _ rfl), fun hj => absurd hj (hnot _ rfl)⟩
    · unfold Sys.AtWork Pool.pending
      rw [Pool.spawn_progs_of_ne _ _ _ hji]
      rfl
  · refine Pool.spawn_progs_of_ne _ _ _ fun hji => ?_
    subst hji
    exact hnot s rfl hj

/-- A move of the broker, which touches neither the database nor the programs. -/
theorem Logged.move (h : Logged d s) (hs : Reachable cfg ok s) {w : World} (hw : EnvMove s l w)
    (he : s' = s.move w) (hl : ∀ j S n, l ≠ .deliver j S n) (hstep : step cfg s l = some s') :
    Logged d s' := by
  have hg := grows_of_step hs hstep
  have hdoc : ∀ j, s'.world.documentOf j = s.world.documentOf j := fun j =>
    documentOf_of_step hstep (hl j)
  subst he
  have hdb := db_of_envMove hw
  refine h.of_same hg (congrArg (fun db => db.documents d) hdb)
    (congrArg (fun db => db.trail d) hdb) (fun j => ?_) fun _ _ => rfl
  unfold Sys.AtWork
  rw [hdoc j]
  rfl

/-- The death of an execution that is not at work on the document. -/
theorem Logged.die_other (h : Logged d s) (hs : Reachable cfg ok s) {i : Nat} (he : l = .die i)
    (hi : ¬ s.AtWork i d) (hstep : step cfg s l = some s') : Logged d s' := by
  subst he
  have hg := grows_of_step hs hstep
  have hother : ∀ j, j ≠ i → (s'.AtWork j d ↔ s.AtWork j d) := fun j hji =>
    atWork_iff_of_step hstep fun he => hji (Option.some.inj he).symm
  have hprogs : ∀ j, j ≠ i → s'.progs j = s.progs j := fun j hji =>
    progs_of_step hstep fun he => hji (Option.some.inj he).symm
  obtain ⟨hsome, rfl⟩ := step_die hstep
  have hdb := db_of_envMove (.die hsome)
  refine h.of_same hg (congrArg (fun db => db.documents d) hdb)
    (congrArg (fun db => db.trail d) hdb) (fun j => ?_) fun j hj => ?_
  · by_cases hji : j = i
    · subst hji
      refine ⟨fun hj => ?_, fun hj => absurd hj hi⟩
      obtain ⟨-, c, hc, -⟩ := hj
      obtain ⟨k, hk⟩ := Pool.pending_eq_some.mp hc
      rw [Pool.move_progs, Pool.kill_progs_self] at hk
      cases hk
    · exact hother j hji
  · refine hprogs j fun hji => hi ?_
    rwa [hji] at hj

/-- **Every step keeps it.** -/
theorem Logged.step (h : Logged d s) (hs : Reachable cfg (auditable d) s) (hl : auditable d s l)
    (hstep : step cfg s l = some s') : Logged d s' := by
  have hunique : ∀ i j, s.AtWork i d → s.AtWork j d → i = j := fun i j =>
    atWork_unique (fun _ _ h => h.1) hs
  cases l with
  | upload =>
    obtain ⟨hunused, he⟩ := step_upload hstep
    exact h.start hs hunused he hstep
  | retryRequest =>
    obtain ⟨hunused, he⟩ := step_retryRequest hstep
    exact h.start hs hunused he hstep
  | deliver i T n => exact h.deliver hs (reachable_base (hs.next hl hstep)) hl rfl hstep
  | run i a =>
    by_cases hi : s.AtWork i d
    · exact h.run_own hs hl hunique rfl hi hstep
    · exact h.run_other hs rfl hi hstep
  | die i =>
    by_cases hi : s.AtWork i d
    · exact h.die_own hl hunique rfl hi hstep
    · exact h.die_other hs rfl hi hstep
  | redeliver =>
    obtain ⟨copy, hunsettled, he⟩ := step_redeliver hstep
    exact h.move hs (.redeliver hunsettled) he (by simp) hstep
  | expire =>
    obtain ⟨copy, hcopy, he⟩ := step_expire hstep
    exact h.move hs (.expire hcopy) he (by simp) hstep

/-- **The log of document `d`** in every run in which it is auditable. -/
theorem logged_of_reachable (h : Reachable cfg (auditable d) s) : Logged d s := by
  induction h with
  | start => exact logged_init
  | next hs hl hstep ih => exact ih.step hs hl hstep

/-- While somebody is at work on the document, its latest event leads to its
status, or the event that leads there is about to be inserted. -/
theorem Logged.current_or_owed (h : Logged d s) {i : Nat} (hi : s.AtWork i d) :
    (s.world.audit d).Current ∨ ∃ e, s.pending i = some (.recordEvent e) ∧ e.documentId = d ∧
      e.fromState = s.world.db.latest d ∧ some e.toState = (s.world.audit d).status := by
  obtain ⟨S, env, p, rfl, -, hp, hacc⟩ := h.working i hi
  obtain ⟨c, hpending, -⟩ := hi.2
  obtain ⟨k, hk⟩ := Pool.pending_eq_some.mp hpending
  obtain rfl := Option.some.inj (hp.symm.trans hk)
  have howed := hacc.1
  cases c with
  | recordEvent e =>
    obtain ⟨hdoc, hfrom, hto⟩ := howed
    exact Or.inr ⟨e, hpending, hdoc, hfrom, hto⟩
  | _ => exact Or.inl howed

/-- A status that the latest event does not lead to waits for its event. -/
theorem Logged.awaited (h : Logged d s) {t : Status} (hstatus : (s.world.audit d).status = some t)
    (hlatest : s.world.db.latest d ≠ some t) :
    ∃ i e, s.AtWork i d ∧ s.pending i = some (.recordEvent e) ∧ e.documentId = d ∧
      e.toState = t ∧ e.fromState ≠ some t := by
  have hnot : ¬ (s.world.audit d).Current := fun hcurrent => hlatest (hcurrent.trans hstatus)
  obtain ⟨i, hi⟩ : ∃ i, s.AtWork i d := by
    by_contra hnobody
    exact hnot (h.idle (not_exists.mp hnobody))
  rcases h.current_or_owed hi with hcurrent | ⟨e, hpending, hdoc, hfrom, hto⟩
  · exact absurd hcurrent hnot
  · exact ⟨i, e, hi, hpending, hdoc, Option.some.inj (hto.trans hstatus), hfrom ▸ hlatest⟩

end Runs

/-! ## The path of a document -/

/-- The calls that the database answers. -/
def Call.toDatabase : Call → Bool
  | .alreadyProcessed _ | .fetchDocument _ | .updateDocument _ _ | .recordEvent _
  | .recordProcessed _ | .insertChunks _ _ | .fetchChunksWithoutEmbedding _ | .writeEmbeddings _
  | .createDocument _ _ | .retryDocument _ _ _ => true
  | _ => false

/-- Executions on document `d` do not overlap, database calls succeed, and no
process dies right before it inserts an event of `d`. -/
def databaseUp (d : DocId) (s : Sys) (l : Label) : Prop :=
  exclusiveFor d s l ∧ match l with
    | .die i => ∀ e, s.pending i = some (.recordEvent e) → e.documentId ≠ d
    | .run i (.fail _) => ∀ c, s.pending i = some c → c.toDatabase = false
    | _ => True

theorem auditable_of_databaseUp {d : DocId} {s : Sys} {l : Label} (h : databaseUp d s l) :
    auditable d s l := by
  refine ⟨h.1, ?_⟩
  have hrest := h.2
  cases l with
  | die i => exact fun e he hd => absurd hd (hrest e he)
  | run i a =>
    cases a with
    | fail reason =>
      intro c hc
      have hdb := hrest c hc
      cases c with
      | updateDocument | recordEvent | recordProcessed => cases hdb
      | _ => trivial
    | _ => trivial
  | _ => trivial

/-- **The audit log is a path.**  In every run in which executions on the document do
not overlap and database calls succeed, its events start with the upload, each
starts where the one before it ended, and the last one ends in the status of the
document, or the one that does is about to be inserted. -/
theorem audit_path {cfg : Config} {s : Sys} {d : DocId} (h : Reachable cfg (databaseUp d) s)
    {row : Document} (hrow : s.world.db.documents d = some row) :
    Path (s.world.db.trail d) ∧
      ((∀ i, ¬ s.AtWork i d) → s.world.db.latest d = some row.status) ∧
        ∀ i, s.AtWork i d → s.world.db.latest d = some row.status ∨
          ∃ e, s.pending i = some (.recordEvent e) ∧ e.documentId = d ∧
            e.fromState = s.world.db.latest d ∧ e.toState = row.status := by
  have hlogged : Logged d s := logged_of_reachable (h.mono fun _ _ => auditable_of_databaseUp)
  have hstatus : (s.world.audit d).status = some row.status := congrArg (Option.map Document.status) hrow
  refine ⟨hlogged.path row hrow, fun hidle => ?_, fun i hi => ?_⟩
  · have hcurrent := hlogged.idle hidle
    rwa [Audit.Current, hstatus] at hcurrent
  · rcases hlogged.current_or_owed hi with hcurrent | ⟨e, hpending, hdoc, hfrom, hto⟩
    · rw [Audit.Current, hstatus] at hcurrent
      exact Or.inl hcurrent
    · rw [hstatus] at hto
      exact Or.inr ⟨e, hpending, hdoc, hfrom, Option.some.inj hto⟩

/-- Whether nothing overlaps, nobody dies and no call fails. -/
def undisturbedBelow (n : Nat) (s : Sys) (l : Label) : Bool :=
  alone n s l && match l with
    | .die _ => false
    | _ => true

theorem databaseUp_of_undisturbedBelow {n : Nat} {d : DocId} (s : Sys) (l : Label)
    (hs : ∀ j, n ≤ j → s.progs j = none) (h : undisturbedBelow n s l = true) : databaseUp d s l := by
  obtain ⟨halone, halive⟩ := Bool.and_eq_true_iff.mp h
  have hanswered := answered_of_alone halone
  refine ⟨(exclusive_of_alone hs halone).exclusiveFor d, ?_⟩
  cases l with
  | die => cases halive
  | run i a =>
    cases a with
    | fail => cases hanswered
    | _ => trivial
  | _ => trivial

/-- The log of the document of the sample run. -/
theorem audit_path_sample : ∃ (s : Sys) (row : Document), s.world.db.documents 1 = some row ∧
    row.status = .embedded ∧ Path (s.world.db.trail 1) ∧
      ((∀ i, ¬ s.AtWork i 1) → s.world.db.latest 1 = some row.status) ∧
        ∀ i, s.AtWork i 1 → s.world.db.latest 1 = some row.status ∨
          ∃ e, s.pending i = some (.recordEvent e) ∧ e.documentId = 1 ∧
            e.fromState = s.world.db.latest 1 ∧ e.toState = row.status := by
  obtain ⟨s, hs, hstatus⟩ := exists_run (Reaches.guarded (step sampleConfig) (undisturbedBelow 4))
    .init wholeRun (fun s => (s.world.db.documents 1).map Document.status = some .embedded)
    (by decide)
  obtain ⟨row, hrow, hrs⟩ := Option.map_eq_some_iff.mp hstatus
  obtain ⟨hreach, -⟩ := reachable_of_below
    (fun s l h => below_of_alone s l (Bool.and_eq_true_iff.mp h).1)
    (databaseUp_of_undisturbedBelow (d := 1)) hs
  exact ⟨s, row, hrow, hrs, audit_path hreach hrow⟩

/-! ## No status without its event -/

/-- The step from `s` to `s'` gives document `d` the status `t`. -/
def Changes (s s' : Sys) (d : DocId) (t : Status) : Prop :=
  (s'.world.audit d).status = some t ∧ (s.world.audit d).status ≠ some t

/-- Since the log was `old`, an event of document `d` that leads to `t` has been
inserted, or is about to be. -/
def Entered (old : List ProcessingEvent) (d : DocId) (t : Status) (s : Sys) : Prop :=
  ∃ new, s.world.db.events = old ++ new ∧
    ((∃ e ∈ new, e.documentId = d ∧ e.toState = t) ∨
      ∃ i e, s.AtWork i d ∧ s.pending i = some (.recordEvent e) ∧ e.documentId = d ∧
        e.toState = t ∧ e.fromState ≠ some t)

section Entered
variable {cfg : Config} {s s' : Sys} {d : DocId} {l : Label}

/-- An event that is about to be inserted is inserted. -/
theorem Entered.step {old : List ProcessingEvent} {t : Status} (h : Entered old d t s)
    (hl : auditable d s l) (hstep : step cfg s l = some s') : Entered old d t s' := by
  obtain ⟨new, hnew, hentered⟩ := h
  obtain ⟨more, hmore⟩ := events_of_step hstep
  refine ⟨new ++ more, by rw [hmore, hnew, List.append_assoc], ?_⟩
  rcases hentered with ⟨e, he, hdoc, hto⟩ | ⟨i, e, hi, hpending, hdoc, hto, hfrom⟩
  · exact Or.inl ⟨e, List.mem_append_left _ he, hdoc, hto⟩
  have hkeep : s'.AtWork i d → s'.pending i = some (.recordEvent e) →
      (∃ e ∈ new ++ more, e.documentId = d ∧ e.toState = t) ∨
        ∃ i e, s'.AtWork i d ∧ s'.pending i = some (.recordEvent e) ∧ e.documentId = d ∧
          e.toState = t ∧ e.fromState ≠ some t :=
    fun hi' hp' => Or.inr ⟨i, e, hi', hp', hdoc, hto, hfrom⟩
  have hused : ¬ s.Unused i := by
    rintro ⟨hnone, -⟩
    obtain ⟨k, hk⟩ := Pool.pending_eq_some.mp hpending
    rw [hk] at hnone
    cases hnone
  by_cases he : l.execution = some i
  · cases l with
    | upload j u t x =>
      obtain rfl := Option.some.inj he
      exact absurd (step_upload hstep).1 hused
    | retryRequest j d' =>
      obtain rfl := Option.some.inj he
      exact absurd (step_retryRequest hstep).1 hused
    | deliver j S n =>
      obtain rfl := Option.some.inj he
      obtain ⟨copy, hunused, -⟩ := step_deliver hstep
      exact absurd hunused hused
    | run j a =>
      obtain rfl := Option.some.inj he
      obtain ⟨c, k, r, w, hprog, hx, rfl⟩ := step_run hstep
      obtain ⟨k', hk'⟩ := Pool.pending_eq_some.mp hpending
      obtain ⟨rfl, -⟩ := Prog.call.inj (Option.some.inj (hprog.symm.trans hk'))
      rcases exec_cases hx with ⟨reason, rfl, -, -, -⟩ | ⟨v, -, -, hd⟩
      · exact absurd (hto ▸ hl.2 _ hpending hdoc) hfrom
      · obtain rfl := hd
        have hmem : e ∈ more := by
          have hlog : s.world.db.events ++ [e] = s.world.db.events ++ more := hmore
          rw [← List.append_cancel_left hlog]
          exact List.mem_singleton_self e
        exact Or.inl ⟨e, List.mem_append_right _ hmem, hdoc, hto⟩
    | die j =>
      obtain rfl := Option.some.inj he
      exact absurd (hto ▸ hl.2 e hpending hdoc) hfrom
    | redeliver j =>
      have hdocument := documentOf_of_step hstep (j := i) (by simp)
      obtain ⟨copy, -, rfl⟩ := step_redeliver hstep
      exact hkeep ⟨hdocument.trans hi.1, hi.2⟩ hpending
    | expire => cases he
  · refine hkeep ((atWork_iff_of_step hstep he).mpr hi) ?_
    unfold Pool.pending at hpending ⊢
    rwa [progs_of_step hstep he]

/-- A status that a worker sets waits for its event; a new document has it. -/
theorem entered_of_changes {t : Status} (hs : Reachable cfg (auditable d) s) (hl : auditable d s l)
    (hstep : step cfg s l = some s') (hc : Changes s s' d t) :
    Entered s.world.db.events d t s' := by
  obtain ⟨hnew, hold⟩ := hc
  have hlogged := logged_of_reachable hs
  have hlogged' := logged_of_reachable (hs.next hl hstep)
  have hsame : s'.world.audit d = s.world.audit d → False := fun h => hold (h ▸ hnew)
  rcases world_of_step hstep with he | hmove | ⟨i, a, c, k, v, rfl, hprog, hreply⟩
  · exact (hsame (congrArg (fun w => World.audit w d) he)).elim
  · have hdb := db_of_envMove hmove
    exact (hsame (audit_congr (by rw [hdb]) (by rw [hdb]))).elim
  have hd := does_of_reply hreply
  by_cases hcd : c.Audits d
  · cases c with
    | updateDocument d' u =>
      obtain rfl : d' = d := hcd
      have hworld : s'.world = { s.world with db := s.world.db.updateDocument d' u } := hd
      -- before the update the log led to the old status, so now it does not
      have hwork : s.AtWork i d' := atWork_of_audits hs hprog rfl (by simp)
      have hcurrent : (s.world.audit d').Current := by
        rcases hlogged.current_or_owed hwork with hcurrent | ⟨e, he, -⟩
        · exact hcurrent
        · cases (Pool.pending_of_progs hprog).symm.trans he
      have hlatest : s'.world.db.latest d' ≠ some t := by
        rw [hworld]
        exact fun h => hold (hcurrent.symm.trans h)
      refine ⟨[], ?_, Or.inr (hlogged'.awaited hnew hlatest)⟩
      rw [hworld, List.append_nil]
      rfl
    | createDocument row stored =>
      rcases hd with ⟨e, -, he⟩ | ⟨d', db, -, htx, he⟩
      · exact (hsame (congrArg (fun w => World.audit w d) he)).elim
      obtain ⟨-, rfl, rfl⟩ := Api.createTransaction_ok htx
      have hdocs := @Db.insertDocument_documents s.world.db row d
      have hstatus : ((s.world.db.insertDocument row).documents d).map Document.status = some t := by
        rw [he] at hnew
        exact hnew
      refine ⟨[_], by rw [he]; rfl, Or.inl ⟨_, List.mem_singleton_self _, ?_⟩⟩
      by_cases hdn : d = s.world.db.nextDocumentId
      · refine ⟨hdn.symm, ?_⟩
        rw [hdocs, if_pos hdn, Option.map_some, uploaded_of_create hs hprog] at hstatus
        exact Option.some.inj hstatus
      · rw [hdocs, if_neg hdn] at hstatus
        exact absurd hstatus hold
    | recordEvent e =>
      have hworld : s'.world = { s.world with db := s.world.db.recordEvent e } := hd
      rw [hworld] at hnew
      exact absurd hnew hold
    | _ => exact hcd.elim
  · obtain ⟨hdoc, htrail⟩ := unaudited_of_does hd hcd
    exact (hsame (audit_congr hdoc htrail)).elim

end Entered

/-- **No status without its event**, in a run in which nothing goes wrong between the
two: while nobody is at work on the document its latest event leads to its status,
and for every status it has been given an event has been inserted since.  A call that fails has
had no effect: a commit whose reply is lost is not among the failures. -/
theorem status_recorded {cfg : Config} {s : Sys} {d : DocId} (h : Reachable cfg (auditable d) s)
    (hidle : ∀ i, ¬ s.AtWork i d) :
    (∀ row, s.world.db.documents d = some row → s.world.db.latest d = some row.status) ∧
      ∀ s₁ l s₂ t, Reachable cfg (auditable d) s₁ → auditable d s₁ l → step cfg s₁ l = some s₂ →
        Reaches (step cfg) (auditable d) s₂ s → Changes s₁ s₂ d t →
          ∃ new, s.world.db.events = s₁.world.db.events ++ new ∧
            ∃ e ∈ new, e.documentId = d ∧ e.toState = t := by
  refine ⟨fun row hrow => ?_, fun s₁ l s₂ t hs₁ hl hstep hs hc => ?_⟩
  · have hcurrent := (logged_of_reachable h).idle hidle
    rw [Audit.Current] at hcurrent
    exact hcurrent.trans (congrArg (Option.map Document.status) hrow)
  · have hentered : Entered s₁.world.db.events d t s :=
      hs.invariant (entered_of_changes hs₁ hl hstep hc) fun _ _ _ h hl hs => h.step hl hs
    obtain ⟨new, hnew, he | ⟨i, e, hi, -⟩⟩ := hentered
    · exact ⟨new, hnew, he⟩
    · exact absurd hi (hidle i)

/-- The log of the document of the sample run, at its end. -/
theorem status_recorded_sample : ∃ s : Sys, (s.world.audit 1).status = some .embedded ∧
    (∀ i, ¬ s.AtWork i 1) ∧ s.world.db.latest 1 = some .embedded := by
  obtain ⟨s, hs, hstatus, hnobody⟩ := exists_run
    (Reaches.guarded (step sampleConfig) (undisturbedBelow 4)) .init wholeRun
    (fun s => (s.world.audit 1).status = some .embedded ∧
      (List.range 4).all (fun j => (s.pending j).isNone) = true) (by decide)
  obtain ⟨hreach, hnone⟩ := reachable_of_below
    (fun s l h => below_of_alone s l (Bool.and_eq_true_iff.mp h).1)
    (databaseUp_of_undisturbedBelow (d := 1)) hs
  have hidle := fun i => not_atWork_of_below hnone hnobody i 1
  obtain ⟨row, hrow, hrs⟩ := Option.map_eq_some_iff.mp hstatus
  have hlatest := (status_recorded (hreach.mono fun _ _ => auditable_of_databaseUp) hidle).1 row hrow
  exact ⟨s, hstatus, hidle, hrs ▸ hlatest⟩

/-- The process of the OCR worker dies right after it has set the status to
`ocr_processing`. -/
def unloggedRun : List Label :=
  uploadRun ++ .deliver 1 .ocr 0 :: answers 1 [.ok, .ok, .ok] ++ [.die 1]

/-- **A status can be committed without its event**, and stay so when nobody is at work
on the document. -/
theorem not_status_recorded : ¬ ∀ (cfg : Config) (s : Sys) (d : DocId) (row : Document),
    Reachable cfg exclusive s → (∀ i, ¬ s.AtWork i d) → s.world.db.documents d = some row →
      (∃ e ∈ s.world.db.trail d, e.toState = row.status) ∧
        s.world.db.latest d = some row.status := by
  intro hall
  obtain ⟨s, hs, hstatus, hlog, hnobody⟩ := exists_run (Reaches.guarded (step sampleConfig) (alone 2))
    .init unloggedRun
    (fun s => (s.world.db.documents 1).map Document.status = some .ocrProcessing ∧
      (s.world.db.trail 1).map ProcessingEvent.toState = [.uploaded] ∧
      (List.range 2).all (fun j => (s.pending j).isNone) = true) (by decide)
  obtain ⟨hreach, hnone⟩ := reachable_of_below below_of_alone
    (fun _ _ hs h => exclusive_of_alone hs h) hs
  obtain ⟨row, hrow, hrs⟩ := Option.map_eq_some_iff.mp hstatus
  obtain ⟨⟨e, he, hto⟩, -⟩ := hall _ s 1 row hreach (fun i => not_atWork_of_below hnone hnobody i 1) hrow
  have hmem : e.toState ∈ (s.world.db.trail 1).map ProcessingEvent.toState := List.mem_map_of_mem he
  rw [hlog, hto, hrs] at hmem
  cases List.mem_singleton.mp hmem

end DigitalCip
