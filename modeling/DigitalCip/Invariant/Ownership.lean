import DigitalCip.Invariant.Runs

/-!
# One document at a time

An execution is at work on the document of its message until all it has left to
do is to settle its delivery.  A run is exclusive when no message of a document
is delivered while another execution is at work on that document.  Then at most
one execution at a time is at work on a document, and nothing else changes what
is stored and what has been sent for it, its `View`.
-/

namespace DigitalCip
open Resumable

/-- The document execution `i` was started for. -/
def World.documentOf (w : World) (i : Nat) : Option DocId :=
  (w.broker.handled i).map fun c => c.message.body.documentId

theorem Handles.documentOf {w : World} {i : Nat} {S : Stage} {env : Envelope}
    (h : Handles w i S env) : w.documentOf i = some env.documentId := by
  obtain ⟨c, hc, -, halike⟩ := h
  rw [World.documentOf, hc, Option.map_some, halike.documentId]

theorem Grows.documentOf {w w' : World} (hg : Grows w w') {i : Nat} {d : DocId}
    (h : w.documentOf i = some d) : w'.documentOf i = some d := by
  obtain ⟨copy, hcopy, hdoc⟩ := Option.map_eq_some_iff.mp h
  exact Option.map_eq_some_iff.mpr ⟨copy, hg.broker.handled hcopy, hdoc⟩

/-- Execution `i` is at work on document `d`: it has a call to make before it
settles its delivery. -/
def Sys.AtWork (s : Sys) (i : Nat) (d : DocId) : Prop :=
  s.world.documentOf i = some d ∧ ∃ c, s.pending i = some c ∧ ¬ Settles c

/-- No message of a document is delivered while an execution is at work on the
document. -/
def exclusive (s : Sys) : Label → Prop
  | .deliver _ S n => ∀ copy, (s.world.broker.queues ⟨S, .work⟩)[n]? = some copy →
      ∀ j, ¬ s.AtWork j copy.message.body.documentId
  | _ => True

/-- The same, for the messages of document `d`. -/
def exclusiveFor (d : DocId) (s : Sys) : Label → Prop
  | .deliver _ S n => ∀ copy, (s.world.broker.queues ⟨S, .work⟩)[n]? = some copy →
      copy.message.body.documentId = d → ∀ j, ¬ s.AtWork j d
  | _ => True

theorem exclusive.exclusiveFor {s : Sys} {l : Label} (h : exclusive s l) (d : DocId) :
    exclusiveFor d s l := by
  cases l with
  | deliver i S n => exact fun copy hcopy hd => hd ▸ h copy hcopy
  | _ => trivial

/-! ## Whose the document is -/

theorem Broker.handled_release (b : Broker) (i j : Nat) :
    (b.release i).handled j = b.handled j := by
  unfold handled
  rw [release_deliveries]
  by_cases hj : j = i
  · rw [if_pos hj, hj, Option.map_map]
    rfl
  · rw [if_neg hj]

theorem handled_takeBack (w : World) (i j : Nat) :
    (w.takeBack i).broker.handled j = w.broker.handled j := by
  rcases takeBack_cases w i with h | ⟨copy, q, -, h⟩
  · rw [h]
  · rw [h]
    show ((w.broker.release i).push copy q).handled j = _
    exact w.broker.handled_release i j

/-- A call starts no execution. -/
theorem handled_of_does {i : Nat} {c : Call} {v : c.Val} {w w' : World} (hd : Does i c v w w')
    (j : Nat) : w'.broker.handled j = w.broker.handled j := by
  have hother : (∀ o, c ≠ .ack o) ∧ c ≠ .nack → w'.broker.handled j = w.broker.handled j := by
    intro hc
    unfold Broker.handled
    rw [deliveries_of_does hd (Or.inr hc)]
  cases c with
  | ack o =>
    obtain ⟨copy, -, rfl⟩ := hd
    exact w.broker.handled_release i j
  | nack =>
    obtain ⟨copy, q, -, rfl⟩ := hd
    show (w.broker.nack i copy q).handled j = _
    unfold Broker.handled
    rw [Broker.nack_deliveries]
    exact w.broker.handled_release i j
  | _ => exact hother ⟨by simp, by simp⟩

theorem handled_of_envMove {s : Sys} {l : Label} {w : World} (h : EnvMove s l w) {j : Nat}
    (hj : ∀ S n, l ≠ .deliver j S n) : w.broker.handled j = s.world.broker.handled j := by
  cases h with
  | die => exact handled_takeBack s.world _ j
  | redeliver => exact handled_takeBack s.world _ j
  | deliver hunused hcopy =>
    unfold Broker.handled
    rw [deliveries_of_envMove (.deliver hunused hcopy) ⟨by simp, by simp, hj⟩]
  | expire hcopy =>
    unfold Broker.handled
    rw [deliveries_of_envMove (.expire hcopy) ⟨by simp, by simp, by simp⟩]

section Exclusive
variable {cfg : Config} {ok : Sys → Label → Prop} {s s' : Sys}

/-- Only a delivery gives an execution its copy. -/
theorem handled_of_step {l : Label} (hstep : step cfg s l = some s') {j : Nat}
    (hl : ∀ S n, l ≠ .deliver j S n) : s'.world.broker.handled j = s.world.broker.handled j := by
  rcases world_of_step hstep with he | hmove | ⟨i, a, c, k, v, -, -, hreply⟩
  · rw [he]
  · exact handled_of_envMove hmove hl
  · exact handled_of_does (does_of_reply hreply) j

theorem documentOf_of_step {l : Label} (hstep : step cfg s l = some s') {j : Nat}
    (hl : ∀ S n, l ≠ .deliver j S n) : s'.world.documentOf j = s.world.documentOf j := by
  unfold World.documentOf
  rw [handled_of_step hstep hl]

/-- An execution that has made a call that settles its delivery makes no others. -/
theorem closes_of_reachable (h : Reachable cfg ok s) {i : Nat} {p : Program Unit}
    (hp : s.progs i = some p) : p.Closes Settles := by
  induction h generalizing i p with
  | start => cases hp
  | @next s s' l hs hl hstep ih =>
    by_cases he : l.execution = some i
    · cases l with
      | upload j u t x =>
        obtain rfl := Option.some.inj he
        obtain ⟨-, rfl⟩ := step_upload hstep
        rw [Pool.spawn_progs_self] at hp
        obtain rfl := Option.some.inj hp
        exact .of_calls_not (.bind ((Api.createDocument_calls cfg u t x).mono
          fun _ => Api.not_settles_of_upload) fun _ => trivial)
      | retryRequest j d =>
        obtain rfl := Option.some.inj he
        obtain ⟨-, rfl⟩ := step_retryRequest hstep
        rw [Pool.spawn_progs_self] at hp
        obtain rfl := Option.some.inj hp
        exact .of_calls_not (.bind (Api.retryAction_calls d) fun _ => trivial)
      | deliver j S n =>
        obtain rfl := Option.some.inj he
        obtain ⟨copy, -, -, rfl⟩ := step_deliver hstep
        rw [Pool.spawn_progs_self] at hp
        obtain rfl := Option.some.inj hp
        exact consumer_closes cfg S copy.message
      | run j a =>
        obtain rfl := Option.some.inj he
        obtain ⟨c, k, r, w, hprog, -, rfl⟩ := step_run hstep
        rw [Pool.spawn_progs_self] at hp
        obtain rfl := Option.some.inj hp
        exact (ih hprog).2 r
      | die j =>
        obtain rfl := Option.some.inj he
        obtain ⟨-, rfl⟩ := step_die hstep
        rw [Pool.move_progs, Pool.kill_progs_self] at hp
        obtain rfl := Option.some.inj hp
        trivial
      | redeliver j =>
        obtain ⟨-, -, rfl⟩ := step_redeliver hstep
        exact ih hp
      | expire => cases he
    · rw [progs_of_step hstep he] at hp
      exact ih hp

/-- An execution that is at work after a step was at work before it, or has just
been started. -/
theorem atWork_of_step {l : Label} (hs : Reachable cfg ok s) (hstep : step cfg s l = some s')
    {i : Nat} {d : DocId} (h : s'.AtWork i d) : s.AtWork i d ∨ ∃ S n, l = .deliver i S n := by
  obtain ⟨hdoc, c, hpending, hc⟩ := h
  by_cases hdeliver : ∃ S n, l = .deliver i S n
  · exact Or.inr hdeliver
  have hbefore : s.world.documentOf i = some d := by
    rwa [documentOf_of_step hstep fun S n he => hdeliver ⟨S, n, he⟩] at hdoc
  -- an execution that has no delivery has no document
  have hunused : ¬ s.Unused i := by
    intro hunused
    rw [World.documentOf, Broker.handled, Option.isNone_iff_eq_none.mp hunused.2] at hbefore
    cases hbefore
  refine Or.inl ⟨hbefore, ?_⟩
  by_cases he : l.execution = some i
  · cases l with
    | upload j u t x =>
      obtain rfl := Option.some.inj he
      exact absurd (step_upload hstep).1 hunused
    | retryRequest j d' =>
      obtain rfl := Option.some.inj he
      exact absurd (step_retryRequest hstep).1 hunused
    | deliver j S n =>
      obtain rfl := Option.some.inj he
      exact absurd ⟨S, n, rfl⟩ hdeliver
    | run j a =>
      obtain rfl := Option.some.inj he
      obtain ⟨c₀, k, r, w, hprog, -, rfl⟩ := step_run hstep
      refine ⟨c₀, Pool.pending_of_progs hprog, fun hc₀ => hc ?_⟩
      -- had it settled its delivery, it would only settle
      obtain ⟨k', hk'⟩ := Pool.pending_eq_some.mp hpending
      rw [Pool.spawn_progs_self] at hk'
      have hlast := (closes_of_reachable hs hprog).1 hc₀ r
      rw [Option.some.inj hk'] at hlast
      exact hlast.1
    | die j =>
      obtain rfl := Option.some.inj he
      obtain ⟨-, rfl⟩ := step_die hstep
      obtain ⟨k, hk⟩ := Pool.pending_eq_some.mp hpending
      rw [Pool.move_progs, Pool.kill_progs_self] at hk
      cases hk
    | redeliver j =>
      obtain ⟨-, -, rfl⟩ := step_redeliver hstep
      exact ⟨c, hpending, hc⟩
    | expire => cases he
  · refine ⟨c, ?_, hc⟩
    unfold Pool.pending at hpending ⊢
    rwa [progs_of_step hstep he] at hpending

/-- **At most one execution is at work on document `d`** in a run in which none of
its messages is delivered while somebody is at work on it. -/
theorem atWork_unique {d : DocId} (hok : ∀ s l, ok s l → exclusiveFor d s l)
    (h : Reachable cfg ok s) {i j : Nat} (hi : s.AtWork i d) (hj : s.AtWork j d) : i = j := by
  induction h generalizing i j with
  | start =>
    obtain ⟨-, c, hc, -⟩ := hi
    cases hc
  | @next s s' l hs hl hstep ih =>
    -- nobody else is at work on the document of the one delivered
    have hdelivered : ∀ k S n m, l = .deliver k S n → s'.AtWork k d → s.AtWork m d → False := by
      rintro k S n m rfl hk hm
      obtain ⟨copy, -, hcopy, rfl⟩ := step_deliver hstep
      have hdoc : copy.message.body.documentId = d := by
        simpa [World.documentOf, Broker.handled, Broker.deliver] using hk.1
      exact hok _ _ hl copy hcopy hdoc m hm
    rcases atWork_of_step hs hstep hi with hi₀ | ⟨S, n, hli⟩ <;>
      rcases atWork_of_step hs hstep hj with hj₀ | ⟨S', n', hlj⟩
    · exact ih hi₀ hj₀
    · exact (hdelivered j S' n' i hlj hj hi₀).elim
    · exact (hdelivered i S n j hli hi hj₀).elim
    · rw [hli] at hlj
      exact (Label.deliver.inj hlj).1

/-- **At most one execution is at work on a document** in an exclusive run. -/
theorem exclusive_atWork (hok : ∀ s l, ok s l → exclusive s l) (h : Reachable cfg ok s) {i j : Nat}
    {d : DocId} (hi : s.AtWork i d) (hj : s.AtWork j d) : i = j :=
  atWork_unique (fun s l hl => (hok s l hl).exclusiveFor d) h hi hj

/-- What execution `i` may call: what a request calls, or what the consumer of a
message of its document calls. -/
def Sys.MayCall (s : Sys) (i : Nat) (c : Call) : Prop :=
  (s.world.documentOf i = none ∧ Api.RequestCall c) ∨
    ∃ S m, s.world.documentOf i = some m.body.documentId ∧ ConsumerCall S m c

/-- An execution calls nothing else. -/
theorem mayCall_of_reachable (h : Reachable cfg ok s) {i : Nat} {p : Program Unit}
    (hp : s.progs i = some p) : p.Calls (s.MayCall i) := by
  induction h generalizing i p with
  | start => cases hp
  | @next s s' l hs hl hstep ih =>
    have hdocument : ∀ {j}, s.Unused j → s.world.documentOf j = none := by
      intro j hunused
      rw [World.documentOf, Broker.handled, Option.isNone_iff_eq_none.mp hunused.2]
      rfl
    -- what an execution may call does not change
    have hkeep : (∀ S n, l ≠ .deliver i S n) → ∀ {q : Program Unit}, q.Calls (s.MayCall i) →
        q.Calls (s'.MayCall i) := by
      intro hl' q hq
      refine hq.mono fun c hc => ?_
      unfold Sys.MayCall
      rwa [documentOf_of_step hstep hl']
    by_cases he : l.execution = some i
    · cases l with
      | upload j u t x =>
        obtain rfl := Option.some.inj he
        obtain ⟨hunused, rfl⟩ := step_upload hstep
        rw [Pool.spawn_progs_self] at hp
        obtain rfl := Option.some.inj hp
        exact .bind ((Api.createDocument_calls cfg u t x).mono
          fun _ hc => Or.inl ⟨hdocument hunused, Api.request_of_upload hc⟩) fun _ => trivial
      | retryRequest j d =>
        obtain rfl := Option.some.inj he
        obtain ⟨hunused, rfl⟩ := step_retryRequest hstep
        rw [Pool.spawn_progs_self] at hp
        obtain rfl := Option.some.inj hp
        exact .bind ((Api.retryAction_requests d).mono
          fun _ hc => Or.inl ⟨hdocument hunused, hc⟩) fun _ => trivial
      | deliver j S n =>
        obtain rfl := Option.some.inj he
        obtain ⟨copy, -, -, rfl⟩ := step_deliver hstep
        rw [Pool.spawn_progs_self] at hp
        obtain rfl := Option.some.inj hp
        refine (consumer_calls cfg S copy.message).mono fun c hc =>
          Or.inr ⟨S, copy.message, ?_, hc⟩
        simp [World.documentOf, Broker.handled, Broker.deliver]
      | run j a =>
        obtain rfl := Option.some.inj he
        refine hkeep (by simp) ?_
        obtain ⟨c, k, r, w, hprog, -, rfl⟩ := step_run hstep
        rw [Pool.spawn_progs_self] at hp
        obtain rfl := Option.some.inj hp
        exact (ih hprog).2 r
      | die j =>
        obtain rfl := Option.some.inj he
        obtain ⟨-, rfl⟩ := step_die hstep
        rw [Pool.move_progs, Pool.kill_progs_self] at hp
        obtain rfl := Option.some.inj hp
        trivial
      | redeliver j =>
        refine hkeep (by simp) ?_
        obtain ⟨-, -, rfl⟩ := step_redeliver hstep
        exact ih hp
      | expire => cases he
    · refine hkeep (fun S n hl' => he (by rw [hl']; rfl)) ?_
      rw [progs_of_step hstep he] at hp
      exact ih hp

end Exclusive

/-! ## Runs in which nothing overlaps -/

/-- Whether a step is one of the executions below `n`, and none of them is running
when a message is delivered, and no call fails. -/
def alone (n : Nat) (s : Sys) (l : Label) : Bool :=
  l.execution.all (· < n) && match l with
    | .deliver _ _ _ => (List.range n).all fun j => (s.pending j).isNone
    | .run _ (.fail _) => false
    | _ => true

theorem below_of_alone {n : Nat} (s : Sys) (l : Label) (h : alone n s l = true) :
    l.execution.all (· < n) = true :=
  (Bool.and_eq_true_iff.mp h).1

theorem answered_of_alone {n : Nat} {s : Sys} {l : Label} (h : alone n s l = true) :
    answered s l = true := by
  have h := (Bool.and_eq_true_iff.mp h).2
  cases l with
  | run i a =>
    cases a with
    | fail => cases h
    | _ => rfl
  | _ => rfl

/-- Nobody is at work when none of the executions below `n` is running, and there
are no others. -/
theorem not_atWork_of_below {n : Nat} {s : Sys} (hs : ∀ j, n ≤ j → s.progs j = none)
    (h : (List.range n).all (fun j => (s.pending j).isNone) = true) (j : Nat) (d : DocId) :
    ¬ s.AtWork j d := by
  rintro ⟨-, c, hc, -⟩
  by_cases hn : j < n
  · have hnone := List.all_eq_true.mp h j (List.mem_range.mpr hn)
    rw [hc] at hnone
    cases hnone
  · rw [Pool.pending, hs j (Nat.le_of_not_lt hn)] at hc
    cases hc

theorem exclusive_of_alone {n : Nat} {s : Sys} {l : Label} (hs : ∀ j, n ≤ j → s.progs j = none)
    (h : alone n s l = true) : exclusive s l := by
  cases l with
  | deliver i S k =>
    exact fun copy _ j => not_atWork_of_below hs (Bool.and_eq_true_iff.mp h).2 j _
  | _ => trivial

end DigitalCip
