import DigitalCip.Invariant.Runs
import DigitalCip.Resumable.Outcome

/-!
# Manual retry

`RetryDocument#call` is meant to put a document that is stuck back to work.  It
never does: it passes `actor:` to `Document#record_event!`, which has no such
keyword, so Ruby raises an `ArgumentError` inside the transaction and nothing is
committed or published.
-/

namespace DigitalCip
open Resumable

/-- A call of execution `i` that the other side answers. -/
def replied (i : Nat) (c : Call) (w : World) (r : c.Reply) (w' : World) : Prop :=
  ∃ a, (∀ reason, a ≠ .fail reason) ∧ exec i c a w = some (r, w')

/-- The worker that is given message `m` from a queue that holds nothing else,
with every call replied, writes an event of the stage's processing status. -/
def RunsStage (cfg : Config) (S : Stage) (m : Message) (w : World) : Prop :=
  ∃ j n copy o w', w.broker.deliveries j = none ∧
    (w.broker.queues ⟨S, .work⟩)[n]? = some copy ∧ copy.message = m ∧
    Ends (replied j) (consumer cfg S m)
      { w with broker := w.broker.deliver j ⟨S, .work⟩ n copy } o w' ∧
    ∃ e ∈ w'.db.events.drop w.db.events.length,
      e.documentId = m.body.documentId ∧ e.toState = S.processing

/-- A manual retry of document `d` in `w` works: the request succeeds, the row
and the operator's event are committed, one message for the resume stage is
published, and its worker runs the stage. -/
structure Restarts (cfg : Config) (w : World) (d : DocId) (document : Document) : Prop where
  restarts : ∃ (i : Nat) (S : Stage) (result : Api.Result) (w' : World),
    Ends (replied i) (Api.retryDocument d document) w (.ok result) w' ∧ result.success = true ∧
    Api.resumeStage document.status = some S ∧
    (∃ row, w'.db.documents d = some row ∧ row.retryCount = document.retryCount + 1 ∧
      row.failureReason = none) ∧
    (∃ e, w'.db.events = w.db.events ++ [e] ∧ e.documentId = d ∧ e.actor = "operator") ∧
    ∃ p, w'.broker.accepted = w.broker.accepted ++ [p] ∧ p.message.body.stage = S ∧
      p.message.body.documentId = d ∧ RunsStage cfg S p.message w'

/-- The answer to the transaction of a manual retry. -/
theorem replied_retryDocument_iff {i : Nat} {w w' : World} {d : DocId} {document : Document}
    {S : Stage} {e : Api.RubyError} {r : (Call.retryDocument d document S).Reply}
    (hraise : Api.retryTransaction w.db d document S = .error e) :
    replied i (.retryDocument d document S) w r w' ↔ r = .ok (.error e) ∧ w' = w := by
  constructor
  · rintro ⟨a, ha, hx⟩
    rcases exec_cases hx with ⟨reason, rfl, -⟩ | ⟨v, rfl, hreply, -⟩
    · exact absurd rfl (ha reason)
    · cases a <;> simp only [reply, hraise, reduceCtorEq] at hreply
      obtain ⟨rfl, rfl⟩ := Prod.mk.inj (Option.some.inj hreply)
      exact ⟨rfl, rfl⟩
  · rintro ⟨rfl, rfl⟩
    exact ⟨.ok, by simp, by simp [exec, reply, hraise]⟩

/-- The request ends with the exception of the transaction, and leaves the world as it was. -/
theorem retryDocument_ends_iff {i : Nat} {w w' : World} {d : DocId} {document : Document} {S : Stage}
    {e : Api.RubyError} {o : Except Exc Api.Result}
    (hstage : Api.resumeStage document.status = some S)
    (hraise : Api.retryTransaction w.db d document S = .error e) :
    Ends (replied i) (Api.retryDocument d document) w o w' ↔
      o = .error (Api.escaped e) ∧ w' = w := by
  unfold Api.retryDocument
  rw [hstage]
  constructor
  · intro h
    rcases h.of_bind with ⟨e', rfl, hcall⟩ | ⟨r, w₁, hcall, hrest⟩
    · obtain ⟨r, w₁, hx, hk⟩ := hcall.of_call
      obtain ⟨rfl, rfl⟩ := (replied_retryDocument_iff hraise).mp hx
      cases hk.of_ret.1
    · obtain ⟨r', w₂, hx, hk⟩ := hcall.of_call
      obtain ⟨rfl, rfl⟩ := (replied_retryDocument_iff hraise).mp hx
      obtain ⟨he, rfl⟩ := hk.of_ret
      obtain rfl := Except.ok.inj he
      exact hrest.of_raise
  · rintro ⟨rfl, rfl⟩
    exact .call ((replied_retryDocument_iff hraise).mpr ⟨rfl, rfl⟩) .raise

/-- The request raises and leaves the world as it was, unless the document is
embedded. -/
theorem retryDocument_raises {i : Nat} {w w' : World} {d : DocId} {document : Document}
    {o : Except Exc Api.Result} (hstatus : document.status ≠ .embedded)
    (h : Ends (replied i) (Api.retryDocument d document) w o w') :
    (∃ e, o = .error e) ∧ w' = w := by
  obtain ⟨S, hstage⟩ := Api.exists_resumeStage hstatus
  obtain ⟨e, hraise⟩ := Api.retryTransaction_raises w.db d document S
  obtain ⟨rfl, rfl⟩ := (retryDocument_ends_iff hstage hraise).mp h
  exact ⟨⟨_, rfl⟩, rfl⟩

/-- **Manual retry never restarts anything**: not for any document, in any
reachable state. -/
theorem retry_never_restarts {cfg : Config} {s : Sys} (_ : Reachable cfg anyStep s) {d : DocId}
    {document : Document} (_ : s.world.db.documents d = some document)
    (hstatus : document.status ≠ .embedded) : ¬ Restarts cfg s.world d document := by
  rintro ⟨i, S, result, w', h, -⟩
  obtain ⟨⟨e, he⟩, -⟩ := retryDocument_raises hstatus h
  cases he

/-- A document that has just been uploaded. -/
theorem exists_uploaded : ∃ (s : Sys) (document : Document),
    Reachable sampleConfig anyStep s ∧ s.world.db.documents 1 = some document ∧
      document.status = .uploaded := by
  obtain ⟨s, hs, hstatus⟩ := exists_run (step sampleConfig) .init uploadRun
    (fun s : Sys => (s.world.db.documents 1).map Document.status = some .uploaded) (by decide)
  obtain ⟨row, hrow, hrs⟩ := Option.map_eq_some_iff.mp hstatus
  exact ⟨s, row, .of_run hs, hrow, hrs⟩

theorem retry_never_restarts_uploaded : ∃ (s : Sys) (document : Document),
    s.world.db.documents 1 = some document ∧ ¬ Restarts sampleConfig s.world 1 document := by
  obtain ⟨s, document, hs, hrow, hstatus⟩ := exists_uploaded
  exact ⟨s, document, hrow, retry_never_restarts hs hrow (by simp [hstatus])⟩

/-- Not every document that is not embedded can be retried: one that has just
been uploaded cannot. -/
theorem not_all_retries_restart : ¬ ∀ (cfg : Config) (s : Sys) (d : DocId) (document : Document),
    Reachable cfg anyStep s → s.world.db.documents d = some document →
      document.status ≠ .embedded → Restarts cfg s.world d document := by
  intro hall
  obtain ⟨s, document, hs, hrow, hstatus⟩ := exists_uploaded
  have hne : document.status ≠ .embedded := by simp [hstatus]
  obtain ⟨i, S, result, w', h, -⟩ := hall _ s 1 document hs hrow hne
  obtain ⟨⟨e, he⟩, -⟩ := retryDocument_raises hne h
  cases he

end DigitalCip
