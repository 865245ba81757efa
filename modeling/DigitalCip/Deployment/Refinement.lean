import DigitalCip.Deployment.Ownership
import DigitalCip.Resumable.Simulation

/-!
# The deployment refines the system

`System` knows executions and the moves of the broker; it knows no processes, no
connections and no buffers.  All that the processes do is what executions and the broker
can do there: a delivery that is pushed is an execution that starts, a connection that is
lost is a row of redeliveries, and a process that dies is a row of executions that die.
So what has been shown of every run of the system holds of every run of the deployment.
-/

namespace DigitalCip.Deployment
open Resumable

/-- The process has `p` left to do for delivery `i`: it is in the middle of it, or it has
not begun. -/
def Worker.Runs (cfg : Config) (stage : Stage) (b : Broker) (x : Worker) (i : Nat)
    (p : Program Unit) : Prop :=
  x.running = some (i, p) ∨
    i ∈ x.buffer ∧ ∃ copy, b.handled i = some copy ∧ p = consumer cfg stage copy.message

/-- Somebody has `p` left to do under the number `i`. -/
def Cluster.Runs (cfg : Config) (plan : Plan) (c : Cluster) (i : Nat) (p : Program Unit) : Prop :=
  c.requests i = some p ∨ ∃ n, (c.workers n).Runs cfg (plan.stage n) c.world.broker i p

/-- The executions of `s` are what the processes of `c` have to do. -/
structure Refines (cfg : Config) (plan : Plan) (c : Cluster) (s : Sys) : Prop where
  world : s.world = c.world
  unused : ∀ i, c.next ≤ i → s.progs i = none
  held : ∀ i p, c.Runs cfg plan i p → s.progs i = some p
  covers : ∀ i q, s.pending i = some q → ∃ p, c.Runs cfg plan i p

/-- The call that an event is, if it is one: of which execution, and the answer. -/
def Event.made (c : Cluster) : Event → Option (Nat × Answer)
  | .serve i a => (c.requests i).map fun _ => (i, a)
  | .call n a => (c.workers n).running.map fun r => (r.1, a)
  | _ => none

section Refines
variable {cfg : Config} {plan : Plan} {c c' : Cluster} {s s' : Sys} {n i : Nat} {x : Worker}
  {p : Program Unit}

theorem Worker.Runs.inHand {stage : Stage} {b : Broker} (h : x.Runs cfg stage b i p) : i ∈ x.inHand := by
  rcases h with h | ⟨h, -⟩ <;> simp [Worker.inHand, h]

theorem Worker.runs_congr {stage : Stage} {b b' : Broker} (hb : b'.handled i = b.handled i) :
    x.Runs cfg stage b' i p ↔ x.Runs cfg stage b i p := by
  unfold Worker.Runs
  rw [hb]

/-- What a process has in hand, it has something to do for. -/
theorem Worker.exists_runs (cfg : Config) (stage : Stage) {b : Broker} (hi : i ∈ x.inHand)
    (hd : (b.handled i).isSome) : ∃ p, x.Runs cfg stage b i p := by
  rcases List.mem_append.mp hi with hi | hi
  · obtain ⟨⟨j, p⟩, hr, rfl⟩ := Option.map_eq_some_iff.mp (Option.mem_toList.mp hi)
    exact ⟨p, Or.inl hr⟩
  · obtain ⟨copy, hcopy⟩ := Option.isSome_iff_exists.mp hd
    exact ⟨_, Or.inr ⟨hi, copy, hcopy, rfl⟩⟩

/-- A process that has nothing in hand runs nothing. -/
theorem Worker.not_runs_fresh {stage : Stage} {b : Broker} {link : Link} :
    ¬ (Worker.fresh link).Runs cfg stage b i p := by
  rintro (h | ⟨h, -⟩) <;> cases h

/-- A request is no delivery. -/
theorem Sane.request_ne (h : Sane plan c) (hi : (c.requests i).isSome) : ¬ (c.workers n).Owns i := by
  intro hown
  obtain ⟨d, hd, -⟩ := h.delivered n i hown
  rw [h.requests i hi] at hd
  cases hd

theorem refines_init (cfg : Config) (plan : Plan) : Refines cfg plan .init .init where
  world := rfl
  unused _ _ := rfl
  held i p h := by
    rcases h with h | ⟨n, h⟩
    · cases h
    · exact absurd h Worker.not_runs_fresh
  covers i q h := by cases h

/-- **One process does something**: it becomes `x`, and the executions it had in hand are
what `x` has in hand. -/
theorem Refines.worker (h : Refines cfg plan c s) (hsane : Sane plan c) {w : World}
    (hhandled : ∀ j, w.broker.handled j = c.world.broker.handled j) (hworld : s'.world = w)
    (hother : ∀ j, j ∉ (c.workers n).inHand → s'.progs j = s.progs j)
    (hheld : ∀ j p, x.Runs cfg (plan.stage n) c.world.broker j p →
      j ∈ (c.workers n).inHand ∧ s'.progs j = some p)
    (hcovers : ∀ j q, j ∈ (c.workers n).inHand → s'.pending j = some q → j ∈ x.inHand) :
    Refines cfg plan ({ c with world := w }.setWorker n x) s' := by
  have hself : ∀ m, ({ c with world := w }.setWorker n x).workers m =
      if m = n then x else c.workers m := fun m => Function.update_apply _ _ _ _
  refine ⟨hworld, fun j hj => ?_, fun j p hj => ?_, fun j q hj => ?_⟩
  · rw [hother j fun hmem => ?_]
    · exact h.unused j hj
    · obtain ⟨d, hd, -⟩ := hsane.delivered n j (Or.inr hmem)
      rw [(hsane.fresh j hj).2] at hd
      cases hd
  · rcases hj with hj | ⟨m, hj⟩
    · rw [hother j fun hmem => hsane.request_ne (Option.isSome_of_eq_some hj) (Or.inr hmem)]
      exact h.held j p (Or.inl hj)
    · rw [hself] at hj
      have hj := (Worker.runs_congr (hhandled j)).mp hj
      split at hj
      · rename_i he
        exact (hheld j p (he ▸ hj)).2
      · rename_i hne
        rw [hother j fun hmem => hne (hsane.unique m n j (Or.inr hj.inHand) (Or.inr hmem))]
        exact h.held j p (Or.inr ⟨m, hj⟩)
  · by_cases hmem : j ∈ (c.workers n).inHand
    · have hdelivered : (w.broker.handled j).isSome := by
        obtain ⟨d, hd, -⟩ := hsane.delivered n j (Or.inr hmem)
        rw [hhandled, Broker.handled, hd]
        rfl
      obtain ⟨p, hp⟩ := Worker.exists_runs cfg (plan.stage n) (hcovers j q hmem hj) hdelivered
      refine ⟨p, Or.inr ⟨n, ?_⟩⟩
      rw [hself, if_pos rfl]
      exact hp
    · have hold : s.pending j = some q := by
        rw [Pool.pending, ← hother j hmem]
        exact hj
      obtain ⟨p, hp | ⟨m, hp⟩⟩ := h.covers j q hold
      · exact ⟨p, Or.inl hp⟩
      · refine ⟨p, Or.inr ⟨m, ?_⟩⟩
        rw [hself, if_neg]
        · exact (Worker.runs_congr (hhandled j)).mpr hp
        · rintro rfl
          exact hmem hp.inHand

/-- **One request goes on**, or comes to an end. -/
theorem Refines.request (h : Refines cfg plan c s) {w : World} {next : Nat}
    {r : Option (Program Unit)} (hi : ∀ n, ¬ (c.workers n).Owns i)
    (hhandled : ∀ j, w.broker.handled j = c.world.broker.handled j) (hnext : c.next ≤ next)
    (hlt : i < next) (hworld : s'.world = w) (hother : ∀ j, j ≠ i → s'.progs j = s.progs j)
    (hself : ∀ p, r = some p → s'.progs i = some p) (hcovers : ∀ q, s'.pending i = some q → r.isSome) :
    Refines cfg plan { c with world := w, requests := Function.update c.requests i r, next := next }
      s' := by
  refine ⟨hworld, fun j hj => ?_, fun j p hj => ?_, fun j q hj => ?_⟩
  · exact (hother j (hlt.trans_le hj).ne').trans (h.unused j (hnext.trans hj))
  · by_cases he : j = i
    · subst he
      rcases hj with hj | ⟨m, hj⟩
      · exact hself p ((Function.update_self j r c.requests).symm.trans hj)
      · exact absurd (Or.inr hj.inHand) (hi m)
    · rw [hother j he]
      rcases hj with hj | ⟨m, hj⟩
      · exact h.held j p (Or.inl ((Function.update_of_ne he r c.requests).symm.trans hj))
      · exact h.held j p (Or.inr ⟨m, (Worker.runs_congr (hhandled j)).mp hj⟩)
  · by_cases he : j = i
    · subst he
      obtain ⟨p, hp⟩ := Option.isSome_iff_exists.mp (hcovers q hj)
      exact ⟨p, Or.inl ((Function.update_self j r c.requests).trans hp)⟩
    · have hold : s.pending j = some q := by
        rw [Pool.pending, ← hother j he]
        exact hj
      obtain ⟨p, hp | ⟨m, hp⟩⟩ := h.covers j q hold
      · exact ⟨p, Or.inl ((Function.update_of_ne he r c.requests).trans hp)⟩
      · exact ⟨p, Or.inr ⟨m, (Worker.runs_congr (hhandled j)).mpr hp⟩⟩

/-- A delivery that is pushed is an execution that starts. -/
theorem Refines.push (h : Refines cfg plan c s) (hsane : Sane plan c) {k : Nat} {copy : Copy} :
    Refines cfg plan { c with
      world := { c.world with broker := c.world.broker.deliver c.next ⟨plan.stage n, .work⟩ k copy }
      workers := Function.update c.workers n
        { c.workers n with
          pushed := (c.workers n).pushed ++ [c.next], buffer := (c.workers n).buffer ++ [c.next] }
      next := c.next + 1 }
      ((s.move { c.world with
        broker := c.world.broker.deliver c.next ⟨plan.stage n, .work⟩ k copy }).spawn c.next
          (consumer cfg (plan.stage n) copy.message)) := by
  generalize hw : { c.world with
    broker := c.world.broker.deliver c.next ⟨plan.stage n, .work⟩ k copy } = w
  have hnew : w.broker.handled c.next = some copy := by
    rw [← hw]
    show (Function.update c.world.broker.deliveries c.next _ c.next).map Delivery.copy = _
    rw [Function.update_self]
    rfl
  have hhandled : ∀ j, j ≠ c.next → w.broker.handled j = c.world.broker.handled j := by
    intro j hj
    rw [← hw]
    exact congrArg (Option.map Delivery.copy) (Function.update_of_ne hj _ _)
  -- what a process runs is what it ran, and the new one
  have hruns : ∀ m j p, (Function.update c.workers n { c.workers n with
      pushed := (c.workers n).pushed ++ [c.next], buffer := (c.workers n).buffer ++ [c.next] } m).Runs
        cfg (plan.stage m) w.broker j p ↔
      (c.workers m).Runs cfg (plan.stage m) c.world.broker j p ∨
        m = n ∧ j = c.next ∧ p = consumer cfg (plan.stage n) copy.message := by
    intro m j p
    by_cases he : j = c.next
    · have hno : ¬ (c.workers m).Owns j := fun hown => hsane.ne_next hown he
      have hold : ¬ (c.workers m).Runs cfg (plan.stage m) c.world.broker j p :=
        fun hr => hno (Or.inr hr.inHand)
      have hrunning : (c.workers m).running ≠ some (j, p) := fun hr => hold (Or.inl hr)
      have hbuffer : j ∉ (c.workers m).buffer :=
        fun hmem => hno (Or.inr (List.mem_append_right _ hmem))
      subst he
      by_cases hm : m = n
      · subst hm
        simp [Worker.Runs, hnew, hrunning, hbuffer, eq_comm]
      · simp [Worker.Runs, hrunning, hbuffer, hm]
    · by_cases hm : m = n
      · subst hm
        simp [Worker.Runs, hhandled j he, he]
      · simp [Worker.Runs, hhandled j he, he, hm]
  refine ⟨rfl, fun j hj => ?_, fun j p hj => ?_, fun j q hj => ?_⟩
  · rw [Pool.spawn_progs_of_ne _ _ _ (Nat.lt_of_succ_le hj).ne', Pool.move_progs]
    exact h.unused j (Nat.le_of_succ_le hj)
  · rcases hj with hj | ⟨m, hj⟩
    · have hne : j ≠ c.next := by
        rintro rfl
        rw [(hsane.fresh c.next le_rfl).1] at hj
        cases hj
      rw [Pool.spawn_progs_of_ne _ _ _ hne, Pool.move_progs]
      exact h.held j p (Or.inl hj)
    · rcases (hruns m j p).mp hj with hj | ⟨-, rfl, rfl⟩
      · rw [Pool.spawn_progs_of_ne _ _ _ (hsane.ne_next (Or.inr hj.inHand)), Pool.move_progs]
        exact h.held j p (Or.inr ⟨m, hj⟩)
      · exact Pool.spawn_progs_self _ _ _
  · by_cases he : j = c.next
    · exact ⟨_, Or.inr ⟨n, (hruns n j _).mpr (Or.inr ⟨rfl, he, rfl⟩)⟩⟩
    · have hold : s.pending j = some q := by
        rw [Pool.pending, Pool.spawn_progs_of_ne _ _ _ he, Pool.move_progs] at hj
        exact hj
      obtain ⟨p, hp | ⟨m, hp⟩⟩ := h.covers j q hold
      · exact ⟨p, Or.inl hp⟩
      · exact ⟨p, Or.inr ⟨m, (hruns m j p).mpr (Or.inl hp)⟩⟩

/-! ## Every step -/

variable {ok' : Sys → Label → Prop}

/-- The broker takes deliveries back one by one. -/
theorem reaches_takeBackAll (cfg : Config) (hfree : ∀ s l, (∀ i a, l ≠ .run i a) → ok' s l) (s : Sys)
    (is : List Nat) :
    Reaches (DigitalCip.step cfg) ok' s (s.move (takeBackAll s.world is)) := by
  induction is generalizing s with
  | nil => exact .start
  | cons i is ih =>
    rcases takeBack_cases s.world i with he | ⟨copy, q, hd, -⟩
    · show Reaches _ _ s (s.move (takeBackAll (s.world.takeBack i) is))
      rw [he]
      exact ih s
    · have hstep : DigitalCip.step cfg s (.redeliver i) = some (s.move (s.world.takeBack i)) := by
        simp only [DigitalCip.step, hd]
      exact (Reaches.start.next (hfree _ _ (by simp)) hstep).trans (ih _)

/-- Executions that have nothing unsettled die one by one. -/
theorem reaches_dieAll (cfg : Config) (s : Sys) (is : List Nat)
    (hfree : ∀ s l, (∀ i a, l ≠ .run i a) → ok' s l) (hsome : ∀ i ∈ is, (s.progs i).isSome)
    (hsettled : ∀ i ∈ is, ∀ copy, ¬ s.world.broker.Unsettled i copy) :
    ∃ s', Reaches (DigitalCip.step cfg) ok' s s' ∧ s'.world = s.world ∧
      (∀ j, j ∉ is → s'.progs j = s.progs j) ∧ ∀ j ∈ is, s'.pending j = none := by
  induction is generalizing s with
  | nil => exact ⟨s, .start, rfl, fun _ _ => rfl, fun _ hj => by cases hj⟩
  | cons i is ih =>
    have hnothing : s.world.takeBack i = s.world := by
      rcases takeBack_cases s.world i with he | ⟨copy, q, hd, -⟩
      · exact he
      · exact absurd ⟨q, hd⟩ (hsettled i (List.mem_cons_self ..) copy)
    have hstep : DigitalCip.step cfg s (.die i) = some (s.kill i died) := by
      simp only [DigitalCip.step, hsome i (List.mem_cons_self ..), if_true, hnothing]
      rfl
    have hprogs : ∀ j, j ≠ i → (s.kill i died).progs j = s.progs j :=
      fun j hj => Pool.kill_progs_of_ne s i died hj
    have hsome' : ∀ j ∈ is, ((s.kill i died).progs j).isSome := by
      intro j hj
      by_cases he : j = i
      · subst he
        rw [Pool.kill_progs_self]
        rfl
      · rw [hprogs j he]
        exact hsome j (List.mem_cons_of_mem i hj)
    obtain ⟨s', hs', hworld, hother, hdead⟩ := ih _ hsome' fun j hj =>
      hsettled j (List.mem_cons_of_mem i hj)
    refine ⟨s', (Reaches.start.next (hfree _ _ (by simp)) hstep).trans hs', hworld, fun j hj => ?_,
      fun j hj => ?_⟩
    · obtain ⟨hne, hj⟩ := not_or.mp (mt List.mem_cons.mpr hj)
      exact (hother j hj).trans (hprogs j hne)
    · by_cases hmem : j ∈ is
      · exact hdead j hmem
      · obtain rfl := (List.mem_cons.mp hj).resolve_right hmem
        rw [Pool.pending, hother j hmem, Pool.kill_progs_self]
        rfl

/-- **A process lets go of deliveries**: the broker takes some back, and the executions of
those that the process does not keep in hand die. -/
theorem Refines.drop (h : Refines cfg plan c s) (hsane : Sane plan c) (is : List Nat)
    (hfree : ∀ s l, (∀ i a, l ≠ .run i a) → ok' s l)
    (hruns : ∀ b j p, x.Runs cfg (plan.stage n) b j p → (c.workers n).Runs cfg (plan.stage n) b j p)
    (hsettled : ∀ i ∈ (c.workers n).inHand, i ∉ x.inHand →
      ∀ copy, ¬ (takeBackAll c.world is).broker.Unsettled i copy) :
    ∃ s', Reaches (DigitalCip.step cfg) ok' s s' ∧
      Refines cfg plan ({ c with world := takeBackAll c.world is }.setWorker n x) s' := by
  have hback := reaches_takeBackAll cfg hfree s is
  rw [h.world] at hback
  have hsome : ∀ i ∈ (c.workers n).inHand.filter (· ∉ x.inHand),
      ((s.move (takeBackAll c.world is)).progs i).isSome := by
    intro i hi
    have hmem := (List.mem_filter.mp hi).1
    obtain ⟨d, hd, -⟩ := hsane.delivered n i (Or.inr hmem)
    have hhandled : (c.world.broker.handled i).isSome := by
      rw [Broker.handled, hd]
      rfl
    obtain ⟨p, hp⟩ := Worker.exists_runs cfg (plan.stage n) hmem hhandled
    rw [Pool.move_progs, h.held i p (Or.inr ⟨n, hp⟩)]
    rfl
  obtain ⟨s', hs', hworld, hother, hdead⟩ := reaches_dieAll cfg _ _ hfree hsome fun i hi =>
    hsettled i (List.mem_filter.mp hi).1 (of_decide_eq_true (List.mem_filter.mp hi).2)
  have hkept : ∀ j, j ∉ (c.workers n).inHand ∨ j ∈ x.inHand → s'.progs j = s.progs j := by
    intro j hj
    refine hother j fun hmem => ?_
    obtain ⟨hmem, hx⟩ := List.mem_filter.mp hmem
    rcases hj with hj | hj
    · exact hj hmem
    · exact of_decide_eq_true hx hj
  refine ⟨s', hback.trans hs', h.worker hsane (closes_takeBackAll _ _).handled hworld
    (fun j hj => hkept j (Or.inl hj)) (fun j p hj => ?_) fun j q hj hq => ?_⟩
  · have hold := hruns _ j p hj
    exact ⟨hold.inHand, (hkept j (Or.inr hj.inHand)).trans (h.held j p (Or.inr ⟨n, hold⟩))⟩
  · by_contra hx
    rw [hdead j (List.mem_filter.mpr ⟨hj, decide_eq_true hx⟩)] at hq
    cases hq

/-- A request is a call further. -/
theorem Refines.serve (h : Refines cfg plan c s) (hsane : Sane plan c) {a : Answer}
    (hok : (c.requests i).isSome → ok' s (.run i a)) (hstep : step cfg plan c (.serve i a) = some c') :
    ∃ s', Reaches (DigitalCip.step cfg) ok' s s' ∧ Refines cfg plan c' s' := by
  obtain ⟨q, k, r, w, hp, hx, rfl⟩ := step_serve hstep
  have hprog := h.held i _ (Or.inl hp)
  have hlt : i < c.next := by
    by_contra hle
    rw [(hsane.fresh i (not_lt.mp hle)).1] at hp
    cases hp
  have hstep' : DigitalCip.step cfg s (.run i a) = some ((s.move w).spawn i (k r)) := by
    simp only [DigitalCip.step, hprog, h.world, hx, Option.map_some]
  refine ⟨_, .next .start (hok (Option.isSome_of_eq_some hp)) hstep', ?_⟩
  exact h.request (fun n => hsane.request_ne (Option.isSome_of_eq_some hp))
    (closes_exec hx).handled le_rfl hlt rfl (fun j hj => Pool.spawn_progs_of_ne _ _ _ hj)
    (fun q hq => (Pool.spawn_progs_self _ _ _).trans hq) fun _ _ => rfl

/-- The API process dies. -/
theorem Refines.abort (h : Refines cfg plan c s) (hsane : Sane plan c)
    (hfree : ∀ s l, (∀ i a, l ≠ .run i a) → ok' s l) (hstep : step cfg plan c (.abort i) = some c') :
    ∃ s', Reaches (DigitalCip.step cfg) ok' s s' ∧ Refines cfg plan c' s' := by
  obtain ⟨hsome, rfl⟩ := step_abort hstep
  obtain ⟨p, hp⟩ := Option.isSome_iff_exists.mp hsome
  have hnone := hsane.requests i hsome
  obtain ⟨s', hs', hworld, hother, hdead⟩ := reaches_dieAll cfg s [i] hfree
    (by simp [h.held i p (Or.inl hp)]) (by simp [h.world, Broker.Unsettled, hnone])
  have hlt : i < c.next := by
    by_contra hle
    rw [(hsane.fresh i (not_lt.mp hle)).1] at hp
    cases hp
  refine ⟨s', hs', h.request (fun n => hsane.request_ne hsome) (fun _ => rfl) le_rfl hlt
    (hworld.trans h.world) (fun j hj => hother j (by simpa using hj)) (fun q hq => by cases hq)
    fun q hq => ?_⟩
  rw [hdead i (List.mem_singleton_self i)] at hq
  cases hq

/-- A handler that begins is an execution that has not made a call yet. -/
theorem Refines.dispatch (h : Refines cfg plan c s) (hsane : Sane plan c)
    (hstep : step cfg plan c (.dispatch n) = some c') : Refines cfg plan c' s := by
  obtain ⟨i, rest, copy, -, hbuffer, hrunning, hcopy, rfl⟩ := step_dispatch hstep
  refine h.worker hsane (fun _ => rfl) h.world (fun _ _ => rfl) (fun j p hj => ?_)
    fun j q hj _ => by simpa [Worker.inHand, hbuffer, hrunning] using hj
  have hold : (c.workers n).Runs cfg (plan.stage n) c.world.broker j p := by
    rcases hj with hj | ⟨hj, hr⟩
    · obtain ⟨rfl, rfl⟩ := Prod.mk.inj (Option.some.inj hj)
      exact Or.inr ⟨by simp [hbuffer], copy, hcopy, rfl⟩
    · exact Or.inr ⟨hbuffer ▸ List.mem_cons_of_mem i hj, hr⟩
  exact ⟨hold.inHand, h.held j p (Or.inr ⟨n, hold⟩)⟩

/-- A handler is a call further. -/
theorem Refines.call (h : Refines cfg plan c s) (hsane : Sane plan c) {a : Answer}
    (hok : ∀ i p, (c.workers n).running = some (i, p) → ok' s (.run i a))
    (hstep : step cfg plan c (.call n a) = some c') :
    ∃ s', Reaches (DigitalCip.step cfg) ok' s s' ∧ Refines cfg plan c' s' := by
  obtain ⟨i, q, k, r, w, hp, -, hx, rfl⟩ := step_call hstep
  have hprog := h.held i _ (Or.inr ⟨n, Or.inl hp⟩)
  have hstep' : DigitalCip.step cfg s (.run i a) = some ((s.move w).spawn i (k r)) := by
    simp only [DigitalCip.step, hprog, h.world, hx, Option.map_some]
  have hnotin : i ∉ (c.workers n).buffer := by
    have hnodup := hsane.nodup n
    simp only [Worker.inHand, hp, Option.map_some, Option.toList_some, List.singleton_append,
      List.nodup_cons] at hnodup
    exact hnodup.1
  have hmem : i ∈ (c.workers n).inHand := by simp [Worker.inHand, hp]
  refine ⟨_, .next .start (hok i _ hp) hstep',
    h.worker hsane (closes_exec hx).handled rfl (fun j hj => ?_) (fun j p hj => ?_)
      fun j _ hj _ => by simpa [Worker.inHand, hp] using hj⟩
  · refine Pool.spawn_progs_of_ne _ _ _ ?_
    rintro rfl
    exact hj hmem
  · rcases hj with hj | ⟨hj, hr⟩
    · obtain ⟨rfl, rfl⟩ := Prod.mk.inj (Option.some.inj hj)
      exact ⟨hmem, Pool.spawn_progs_self _ _ _⟩
    · have hne : j ≠ i := by
        rintro rfl
        exact hnotin hj
      have hold : (c.workers n).Runs cfg (plan.stage n) c.world.broker j p := Or.inr ⟨hj, hr⟩
      exact ⟨hold.inHand,
        (Pool.spawn_progs_of_ne _ _ _ hne).trans (h.held j p (Or.inr ⟨n, hold⟩))⟩

/-- A handler has returned. -/
theorem Refines.finish (h : Refines cfg plan c s) (hsane : Sane plan c)
    (hstep : step cfg plan c (.finish n) = some c') : Refines cfg plan c' s := by
  obtain ⟨i, v, hp, rfl⟩ := step_finish hstep
  have hprog := h.held i _ (Or.inr ⟨n, Or.inl hp⟩)
  refine h.worker hsane (fun _ => rfl) h.world (fun _ _ => rfl) (fun j p hj => ?_)
    fun j q hj hq => ?_
  · rcases hj with hj | hj
    · cases hj
    · have hold : (c.workers n).Runs cfg (plan.stage n) c.world.broker j p := Or.inr hj
      exact ⟨hold.inHand, h.held j p (Or.inr ⟨n, hold⟩)⟩
  · have hne : j ≠ i := by
      rintro rfl
      rw [Pool.pending, hprog] at hq
      cases hq
    simpa [Worker.inHand, hp, hne] using hj

/-- **A step of the deployment** is any number of steps of the system, of which at most one
is a call. -/
theorem Refines.step (h : Refines cfg plan c s) (hsane : Sane plan c) {e : Event}
    (hfree : ∀ s l, (∀ i a, l ≠ .run i a) → ok' s l)
    (hrun : ∀ i a, e.made c = some (i, a) → ok' s (.run i a)) (hstep : step cfg plan c e = some c') :
    ∃ s', Reaches (DigitalCip.step cfg) ok' s s' ∧ Refines cfg plan c' s' := by
  have hunused : s.Unused c.next := by
    refine ⟨Option.isNone_iff_eq_none.mpr (h.unused c.next le_rfl), ?_⟩
    rw [h.world, (hsane.fresh c.next le_rfl).2]
    rfl
  have hnew : ∀ n, ¬ (c.workers n).Owns c.next := fun n hown => hsane.ne_next hown rfl
  -- the request gets the next number
  have haccept : ∀ p, Refines cfg plan (c.accept p) (s.spawn c.next p) := fun p =>
    h.request hnew (fun _ => rfl) (Nat.le_succ _) (Nat.lt_succ_self _) h.world
      (fun j hj => Pool.spawn_progs_of_ne _ _ _ hj)
      (fun q hq => (Pool.spawn_progs_self _ _ _).trans hq) fun _ _ => rfl
  -- a process that has nothing in hand stays so
  have hfresh : ∀ {n link}, ¬ (c.workers n).link.up →
      Refines cfg plan (c.setWorker n (.fresh link)) s := by
    intro n link hlink
    have hnothing := hsane.offline n hlink
    refine h.worker hsane (fun _ => rfl) h.world (fun _ _ => rfl)
      (fun _ _ hr => absurd hr Worker.not_runs_fresh) fun j q hj => ?_
    rw [hnothing] at hj
    cases hj
  cases e with
  | upload u t x =>
    obtain rfl := Option.some.inj hstep
    exact ⟨_, .next .start (hfree _ (.upload c.next u t x) (by simp)) (if_pos hunused), haccept _⟩
  | retryRequest d =>
    obtain rfl := Option.some.inj hstep
    exact ⟨_, .next .start (hfree _ (.retryRequest c.next d) (by simp)) (if_pos hunused), haccept _⟩
  | serve i a =>
    refine h.serve hsane (fun hsome => hrun i a ?_) hstep
    obtain ⟨p, hp⟩ := Option.isSome_iff_exists.mp hsome
    rw [Event.made, hp]
    rfl
  | abort i =>
    exact h.abort hsane hfree hstep
  | boot n =>
    obtain ⟨hlink, rfl⟩ := step_boot hstep
    exact ⟨s, .start, hfresh (by simp [hlink, Link.up, Link.live])⟩
  | dial n answered =>
    obtain ⟨attempts, link, hlink, rfl⟩ := step_dial hstep
    exact ⟨s, .start, hfresh (by simp [hlink, Link.up, Link.live])⟩
  | push n k =>
    obtain ⟨copy, -, -, hcopy, rfl⟩ := step_push hstep
    have hstep' : DigitalCip.step cfg s (.deliver c.next (plan.stage n) k) =
        some ((s.move { c.world with
          broker := c.world.broker.deliver c.next ⟨plan.stage n, .work⟩ k copy }).spawn c.next
            (consumer cfg (plan.stage n) copy.message)) := by
      simp only [DigitalCip.step, if_pos hunused, h.world, hcopy, Option.map_some]
    exact ⟨_, .next .start (hfree _ _ (by simp)) hstep', h.push hsane⟩
  | dispatch n =>
    exact ⟨s, .start, h.dispatch hsane hstep⟩
  | call n a =>
    refine h.call hsane (fun i p hp => hrun i a ?_) hstep
    rw [Event.made, hp]
    rfl
  | finish n =>
    exact ⟨s, .start, h.finish hsane hstep⟩
  | lose n =>
    obtain ⟨-, rfl⟩ := step_lose hstep
    exact h.drop hsane _ hfree (fun _ _ _ hr => hr) fun i hi hx => absurd hi hx
  | reconnect n =>
    obtain ⟨hlink, -, -, rfl⟩ := step_reconnect hstep
    refine h.drop hsane [] hfree (fun _ _ _ hr => absurd hr Worker.not_runs_fresh)
      fun i hi _ copy hunsettled => ?_
    have hno := hsane.unconnected n (by simp [hlink, Link.live])
    obtain ⟨m, hm⟩ := hsane.connected i copy hunsettled
    obtain rfl := hsane.unique n m i (Or.inr hi) (Or.inl hm)
    rw [hno] at hm
    cases hm
  | stop n =>
    obtain ⟨-, -, rfl⟩ := step_stop hstep
    refine h.drop hsane _ hfree (fun _ _ _ hr => ?_) fun i hi hx copy => ?_
    · rcases hr with hr | ⟨hr, -⟩
      · exact Or.inl hr
      · cases hr
    · refine not_unsettled_takeBackAll ?_ copy
      rcases List.mem_append.mp hi with hi | hi
      · exact absurd (List.mem_append_left _ hi) hx
      · exact hi
  | exit n =>
    obtain ⟨-, rfl⟩ := step_exit hstep
    refine h.drop hsane _ hfree (fun _ _ _ hr => absurd hr Worker.not_runs_fresh) fun i hi _ copy hu => ?_
    obtain ⟨m, hm⟩ := hsane.connected i copy ((closes_takeBackAll _ _).unsettled hu)
    obtain rfl := hsane.unique n m i (Or.inr hi) (Or.inl hm)
    exact not_unsettled_takeBackAll hm copy hu
  | expire S k =>
    obtain ⟨copy, hcopy, rfl⟩ := step_expire hstep
    have hstep' : DigitalCip.step cfg s (.expire S k) = some (s.move { c.world with
        broker := c.world.broker.expire ⟨S, .retry⟩ k copy }) := by
      simp only [DigitalCip.step, h.world, hcopy, Option.map_some]
    refine ⟨_, .next .start (hfree _ _ (by simp)) hstep', ?_⟩
    have hhandled : ∀ j, (c.world.broker.expire ⟨S, .retry⟩ k copy).handled j =
        c.world.broker.handled j := by
      intro j
      rw [Broker.expire_retry]
      rfl
    refine ⟨rfl, h.unused, fun j p hj => ?_, fun j q hj => ?_⟩
    · rcases hj with hj | ⟨m, hm⟩
      · exact h.held j p (Or.inl hj)
      · exact h.held j p (Or.inr ⟨m, (Worker.runs_congr (hhandled j)).mp hm⟩)
    · obtain ⟨p, hp | ⟨m, hm⟩⟩ := h.covers j q hj
      · exact ⟨p, Or.inl hp⟩
      · exact ⟨p, Or.inr ⟨m, (Worker.runs_congr (hhandled j)).mpr hm⟩⟩

/-- **The system simulates the deployment**, when it admits the calls that are made. -/
theorem simulates {ok : Cluster → Event → Prop} (hfree : ∀ s l, (∀ i a, l ≠ .run i a) → ok' s l)
    (hrun : ∀ c s e i a, Reachable cfg plan ok c → DigitalCip.Reachable cfg ok' s →
      Refines cfg plan c s → ok c e → e.made c = some (i, a) → ok' s (.run i a)) :
    Simulates (step cfg plan) ok .init (DigitalCip.step cfg) ok' .init (Refines cfg plan) where
  start := refines_init cfg plan
  next c e _ s hc hs h hok hstep :=
    h.step (sane_of_reachable hc) hfree (fun i a he => hrun c s e i a hc hs h hok he) hstep

end Refines

/-- **The deployment refines the system**: every state it reaches, however its processes
start, prefetch, stop, die and reconnect, is one that the system reaches, with the same
world and the same work left to do. -/
theorem deployment_refines {cfg : Config} {plan : Plan} {ok : Cluster → Event → Prop} {c : Cluster}
    (h : Reachable cfg plan ok c) : ∃ s, DigitalCip.Reachable cfg anyStep s ∧ s.world = c.world ∧
      (∀ i p, c.Runs cfg plan i p → s.progs i = some p) ∧
      ∀ i q, s.pending i = some q → ∃ p, c.Runs cfg plan i p := by
  have hsim : Simulates (step cfg plan) ok .init (DigitalCip.step cfg) anyStep .init
      (Refines cfg plan) := simulates (fun _ _ _ => trivial) fun _ _ _ _ _ _ _ _ _ _ => trivial
  obtain ⟨s, hs, hR⟩ := hsim.reaches h
  exact ⟨s, hs, hR.world, hR.held, hR.covers⟩

/-- A scan that is handled twice at once is handled by two executions of the system. -/
theorem deployment_refines_handedOver : ∃ (c : Cluster) (s : Sys),
    run (step sampleConfig samplePlan) .init handedOver = some c ∧
      DigitalCip.Reachable sampleConfig anyStep s ∧ s.world = c.world ∧
      (s.progs 1).isSome ∧ (s.progs 2).isSome := by
  obtain ⟨c, hc, h₁, h₂⟩ := exists_run (step sampleConfig samplePlan) .init handedOver
    (fun c => (c.workers 0).running.map Prod.fst = some 1 ∧
      (c.workers 3).running.map Prod.fst = some 2) (by decide)
  obtain ⟨s, hs, hworld, hheld, -⟩ := deployment_refines (.of_run hc)
  obtain ⟨⟨_, p₁⟩, hp₁, rfl⟩ := Option.map_eq_some_iff.mp h₁
  obtain ⟨⟨_, p₂⟩, hp₂, rfl⟩ := Option.map_eq_some_iff.mp h₂
  exact ⟨c, s, hc, hs, hworld, Option.isSome_of_eq_some (hheld _ _ (Or.inr ⟨0, Or.inl hp₁⟩)),
    Option.isSome_of_eq_some (hheld _ _ (Or.inr ⟨3, Or.inl hp₂⟩))⟩
end DigitalCip.Deployment
