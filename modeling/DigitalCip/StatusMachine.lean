import DigitalCip.Invariant.OrderlyRuns

/-!
# The status follows the state machine

The workers write the status by unguarded updates, some time after they have read
it.  When two executions are at work on a document, one may write its status over
what the other has made of the document in the meantime
(`not_status_follows_machine`).  In runs in which only one at a time is, and in
which the chunker's dedupe rows are inserted, every write goes along an edge
(`status_follows_machine`).
-/

namespace DigitalCip
open Resumable

/-- One execution at a time is at work on a document, and no insert of a dedupe
row by the chunker fails. -/
def oneAtATime (s : Sys) (l : Label) : Prop := exclusive s l ∧ chunkerRecords s l

/-- The engine and the model may say anything. -/
def Truth.any : Truth where
  reads _ _ _ := True
  models _ _ := True

theorem forall₂_true {α β : Type} {xs : List α} {ys : List β} (h : xs.length = ys.length) :
    List.Forall₂ (fun _ _ => True) xs ys := by
  induction xs generalizing ys with
  | nil =>
    obtain rfl := List.length_eq_zero_iff.mp h.symm
    exact .nil
  | cons x xs ih =>
    cases ys with
    | nil => cases h
    | cons y ys => exact .cons trivial (ih (Nat.succ.inj h))

/-- Whatever they answer is admitted then. -/
theorem truthful_any {cfg : Config} {s s' : Sys} {l : Label} (hstep : step cfg s l = some s') :
    truthful .any s l := by
  cases l with
  | run i a =>
    intro c hc
    obtain ⟨c', k, r, w, hp, hx, -⟩ := step_run hstep
    obtain rfl : c = c' := Option.some.inj (hc.symm.trans (Pool.pending_of_progs hp))
    cases c with
    | embedBatch texts =>
      cases a with
      | vectors vs =>
        rcases exec_cases hx with ⟨reason, he, -⟩ | ⟨v, -, hreply, -⟩
        · cases he
        · have hlength : vs.length = texts.length := by
            by_contra hne
            simp [reply, hne] at hreply
          exact forall₂_true hlength.symm
      | ok | fail | id | text => trivial
    | extractText => cases a <;> trivial
    | _ => trivial
  | upload | retryRequest | deliver | die | redeliver | expire => trivial

theorem orderlyRun_of_oneAtATime {cfg : Config} {s s' : Sys} {l : Label} (h : oneAtATime s l)
    (hstep : step cfg s l = some s') : orderlyRun .any s l :=
  ⟨h.1, h.2, truthful_any hstep⟩

/-- No edge leaves a final state, and the chunker does not take a document out of
`embedding`. -/
theorem not_terminal_of_edge {s s' : Status} (h : s.edge s' = true) :
    s.terminal = false ∧ (s = .embedding → s' ≠ .chunking ∧ s' ≠ .chunked) := by
  revert h
  cases s <;> cases s' <;> decide

/-- **Every status a worker writes** follows the one that is stored, in a run in
which one execution at a time is at work on a document and the chunker's dedupe
rows are inserted. -/
theorem status_follows_machine {cfg : Config} {s s' : Sys} (h : Reachable cfg oneAtATime s) {i : Nat}
    (hok : oneAtATime s (.run i .ok)) (hstep : step cfg s (.run i .ok) = some s') {d : DocId}
    {u : DocumentUpdate} (hp : s.pending i = some (.updateDocument d u)) {row : Document}
    (hrow : s.world.db.documents d = some row) : row.status.edge u.status = true :=
  edge_of_update (h.imp fun _ _ _ _ _ hl hs => orderlyRun_of_oneAtATime hl hs)
    (orderlyRun_of_oneAtATime hok hstep) hstep hp hrow

theorem oneAtATime_of_alone {n : Nat} (s : Sys) (l : Label) (hs : ∀ j, n ≤ j → s.progs j = none)
    (h : alone n s l = true) : oneAtATime s l := by
  refine ⟨exclusive_of_alone hs h, ?_⟩
  have hanswered := answered_of_alone h
  cases l with
  | run i a =>
    cases a with
    | fail => cases hanswered
    | _ => trivial
  | _ => trivial

/-- Whether execution `i` is about to give document `d` the status `st`. -/
def writes (s : Sys) (i : Nat) (d : DocId) (st : Status) : Bool :=
  (s.pending i).any fun
    | .updateDocument d' u => d' = d ∧ u.status = st
    | _ => false

theorem pending_of_writes {s : Sys} {i : Nat} {d : DocId} {st : Status}
    (h : writes s i d st = true) : ∃ u, s.pending i = some (.updateDocument d u) ∧ u.status = st := by
  obtain ⟨c, hc, hw⟩ := (Option.any_eq_true _ _).mp h
  cases c with
  | updateDocument d' u =>
    obtain ⟨rfl, hu⟩ := of_decide_eq_true hw
    exact ⟨u, hc, hu⟩
  | _ => cases hw

/-- The OCR worker of the sample run takes the document from `uploaded` to
`ocr_processing`. -/
theorem status_follows_machine_sample : ∃ (s s' : Sys) (d : DocId) (u : DocumentUpdate)
    (row : Document), step sampleConfig s (.run 1 .ok) = some s' ∧
      s.pending 1 = some (.updateDocument d u) ∧ s.world.db.documents d = some row ∧
        row.status.edge u.status = true := by
  obtain ⟨s, hs, hstatus, hnext, hu⟩ := exists_run (Reaches.guarded (step sampleConfig) (alone 2)) .init
    (uploadRun ++ .deliver 1 .ocr 0 :: answers 1 [.ok, .ok])
    (fun s => (s.world.db.documents 1).map Document.status = some .uploaded ∧
      (step sampleConfig s (.run 1 .ok)).isSome = true ∧
      writes s 1 1 .ocrProcessing = true) (by decide)
  obtain ⟨row, hrow, -⟩ := Option.map_eq_some_iff.mp hstatus
  obtain ⟨s', hs'⟩ := Option.isSome_iff_exists.mp hnext
  obtain ⟨u, hp, -⟩ := pending_of_writes hu
  obtain ⟨hreach, -⟩ := reachable_of_below below_of_alone oneAtATime_of_alone hs
  exact ⟨s, s', 1, u, row, hs', hp, hrow,
    status_follows_machine hreach ⟨trivial, trivial⟩ hs' hp hrow⟩

/-- The OCR message is delivered to executions 1 and 2, because the broker takes
it back from 1.  Execution 1 stops right before its first update, 2 recognises the
document, and execution 3 starts to divide it. -/
def overwrittenRun : List Label :=
  uploadRun ++ .deliver 1 .ocr 0 :: answers 1 [.ok, .ok] ++ .redeliver 1 :: ocrRun 2 ++
    .deliver 3 .chunk 0 :: answers 3 [.ok, .ok, .ok]

/-- **A worker can take a document from `chunking` back to `ocr_processing`.** -/
theorem not_status_follows_machine : ¬ ∀ (cfg : Config) (s s' : Sys) (i : Nat) (d : DocId)
    (u : DocumentUpdate) (row : Document), Reachable cfg anyStep s →
      step cfg s (.run i .ok) = some s' → s.pending i = some (.updateDocument d u) →
        s.world.db.documents d = some row → row.status.edge u.status = true := by
  intro hall
  obtain ⟨s, hs, hstatus, hnext, hw⟩ := exists_run (step sampleConfig) .init overwrittenRun
    (fun s => (s.world.db.documents 1).map Document.status = some .chunking ∧
      (step sampleConfig s (.run 1 .ok)).isSome = true ∧
      writes s 1 1 .ocrProcessing = true) (by decide)
  obtain ⟨row, hrow, hrs⟩ := Option.map_eq_some_iff.mp hstatus
  obtain ⟨s', hs'⟩ := Option.isSome_iff_exists.mp hnext
  obtain ⟨u, hp, hu⟩ := pending_of_writes hw
  have hedge := hall _ s s' 1 1 u row (.of_run hs) hs' hp hrow
  rw [hrs, hu] at hedge
  cases hedge

end DigitalCip
