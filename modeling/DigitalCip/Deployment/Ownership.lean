import DigitalCip.Deployment.Cluster
import DigitalCip.Invariant.Frame

/-!
# Who has which delivery

An unsettled delivery is in the hands of exactly one worker process, and that process is
connected: what a process had when it died or lost its connection is with the broker
again.  No process has more unsettled deliveries than its prefetch count, unless that is 0,
which is no limit.
-/

namespace DigitalCip.Deployment
open Resumable

/-- A delivery that is settled, or taken back. -/
def close (d : Delivery) : Delivery := { d with unsettled := false }

/-- Some deliveries are settled or taken back, and nothing else happens to any. -/
def Closes (is : List Nat) (w w' : World) : Prop :=
  ∀ j, w'.broker.deliveries j = w.broker.deliveries j ∨
    j ∈ is ∧ w'.broker.deliveries j = (w.broker.deliveries j).map close

namespace Closes
variable {is : List Nat} {w w' : World} {i : Nat}

theorem refl (is : List Nat) (w : World) : Closes is w w := fun _ => Or.inl rfl

theorem of_eq (h : w'.broker.deliveries = w.broker.deliveries) : Closes is w w' :=
  fun j => Or.inl (congrFun h j)

/-- What is delivered stays delivered. -/
theorem delivered (h : Closes is w w') {d : Delivery} (hd : w.broker.deliveries i = some d) :
    ∃ d', w'.broker.deliveries i = some d' ∧ d'.queue = d.queue ∧ d'.copy = d.copy := by
  rcases h i with he | ⟨-, he⟩
  · exact ⟨d, he.trans hd, rfl, rfl⟩
  · rw [hd] at he
    exact ⟨close d, he, rfl, rfl⟩

theorem handled (h : Closes is w w') (j : Nat) : w'.broker.handled j = w.broker.handled j := by
  unfold Broker.handled
  rcases h j with he | ⟨-, he⟩ <;> rw [he]
  cases w.broker.deliveries j <;> rfl

theorem none_iff (h : Closes is w w') :
    w'.broker.deliveries i = none ↔ w.broker.deliveries i = none := by
  rcases h i with he | ⟨-, he⟩ <;> rw [he]
  exact Option.map_eq_none_iff

/-- An unsettled delivery was unsettled before. -/
theorem unsettled (h : Closes is w w') {copy : Copy} (hi : w'.broker.Unsettled i copy) :
    w.broker.Unsettled i copy := by
  obtain ⟨q, hd⟩ := hi
  rcases h i with he | ⟨-, he⟩ <;> rw [he] at hd
  · exact ⟨q, hd⟩
  · obtain ⟨d, -, hclose⟩ := Option.map_eq_some_iff.mp hd
    cases hclose

end Closes

section Worlds
variable {w w' : World} {i : Nat}

/-- A call closes at most the delivery of the execution that makes it. -/
theorem closes_exec {c : Call} {a : Answer} {r : c.Reply} (h : exec i c a w = some (r, w')) :
    Closes [i] w w' := by
  rcases exec_cases h with ⟨-, -, -, -, rfl⟩ | ⟨v, -, -, hd⟩
  · exact .refl _ _
  intro j
  by_cases hj : j ≠ i ∨ (∀ o, c ≠ .ack o) ∧ c ≠ .nack
  · exact Or.inl (deliveries_of_does hd hj)
  · push Not at hj
    obtain ⟨rfl, hclosing⟩ := hj
    refine Or.inr ⟨List.mem_singleton_self j, ?_⟩
    by_cases hnack : c = .nack
    · subst hnack
      obtain ⟨copy, q, -, rfl⟩ := hd
      rw [Broker.nack_deliveries, Broker.release_deliveries, if_pos rfl]
      rfl
    · obtain ⟨o, rfl⟩ : ∃ o, c = .ack o := by
        by_contra hno
        exact hnack (hclosing fun o he => hno ⟨o, he⟩)
      obtain ⟨copy, -, rfl⟩ := hd
      show (w.broker.release j).deliveries j = _
      rw [Broker.release_deliveries, if_pos rfl]
      rfl

/-- Taking a delivery back closes it. -/
theorem takeBack_closed (w : World) (i : Nat) :
    (w.takeBack i).broker.deliveries i = (w.broker.deliveries i).map close := by
  unfold World.takeBack
  split
  · show ((w.broker.release i).push _ _).deliveries i = _
    rw [Broker.push_deliveries, Broker.release_deliveries, if_pos rfl]
    rfl
  · rename_i hne
    cases hd : w.broker.deliveries i with
    | none => rfl
    | some d =>
      obtain ⟨copy, q, unsettled⟩ := d
      cases unsettled with
      | true => exact absurd hd (hne copy q)
      | false => rfl

theorem closes_takeBack (w : World) (i : Nat) : Closes [i] w (w.takeBack i) := by
  intro j
  by_cases hj : j = i
  · subst hj
    exact Or.inr ⟨List.mem_singleton_self j, takeBack_closed w j⟩
  · exact Or.inl (takeBack_deliveries hj w)

theorem Closes.trans {is js : List Nat} {w'' : World} (h : Closes is w w') (h' : Closes js w' w'') :
    Closes (is ++ js) w w'' := by
  have hclose : ∀ d : Option Delivery, (d.map close).map close = d.map close := by
    rintro (_ | d) <;> rfl
  intro j
  rcases h j with he | ⟨hj, he⟩ <;> rcases h' j with he' | ⟨hj', he'⟩ <;> rw [he', he]
  · exact Or.inl rfl
  · exact Or.inr ⟨List.mem_append_right is hj', rfl⟩
  · exact Or.inr ⟨List.mem_append_left js hj, rfl⟩
  · exact Or.inr ⟨List.mem_append_left js hj, hclose _⟩

theorem closes_takeBackAll (w : World) (is : List Nat) : Closes is w (takeBackAll w is) := by
  induction is generalizing w with
  | nil => exact .refl _ _
  | cons i is ih => exact (closes_takeBack w i).trans (ih (w.takeBack i))

/-- Nothing that was taken back is unsettled. -/
theorem not_unsettled_takeBackAll {is : List Nat} (hi : i ∈ is) (copy : Copy) :
    ¬ (takeBackAll w is).broker.Unsettled i copy := by
  induction is generalizing w with
  | nil => cases hi
  | cons j is ih =>
    rcases List.mem_cons.mp hi with rfl | hi
    · intro hunsettled
      obtain ⟨q, hd⟩ := (closes_takeBackAll (w.takeBack i) is).unsettled hunsettled
      rw [takeBack_closed] at hd
      obtain ⟨d, -, hclose⟩ := Option.map_eq_some_iff.mp hd
      cases hclose
    · exact ih hi

end Worlds

/-! ## The invariant -/

/-- A connection on which the broker can push. -/
def Link.live (link : Link) : Prop := link = .consuming ∨ link = .stopping

/-- A process that can have deliveries in hand. -/
def Link.up (link : Link) : Prop := link.live ∨ link = .lost

/-- The deliveries that a process has to do with. -/
def Worker.Owns (x : Worker) (i : Nat) : Prop := i ∈ x.pushed ∨ i ∈ x.inHand

/-- Numbers are used once, and every unsettled delivery is one on a live connection. -/
structure Sane (plan : Plan) (c : Cluster) : Prop where
  fresh : ∀ i, c.next ≤ i → c.requests i = none ∧ c.world.broker.deliveries i = none
  requests : ∀ i, (c.requests i).isSome → c.world.broker.deliveries i = none
  delivered : ∀ n i, (c.workers n).Owns i → ∃ d, c.world.broker.deliveries i = some d ∧
    d.queue = ⟨plan.stage n, .work⟩
  nodup : ∀ n, (c.workers n).inHand.Nodup
  unique : ∀ n m i, (c.workers n).Owns i → (c.workers m).Owns i → n = m
  offline : ∀ n, ¬ (c.workers n).link.up → (c.workers n).inHand = []
  unconnected : ∀ n, ¬ (c.workers n).link.live → (c.workers n).pushed = []
  connected : ∀ i copy, c.world.broker.Unsettled i copy → ∃ n, i ∈ (c.workers n).pushed
  prefetch : ∀ n, plan.prefetch n = 0 ∨ c.unsettled n ≤ plan.prefetch n

section Sane
variable {cfg : Config} {plan : Plan} {c c' : Cluster}

theorem holds_iff {i : Nat} : c.holds i = true ↔ ∃ copy, c.world.broker.Unsettled i copy := by
  unfold Cluster.holds Broker.Unsettled
  constructor
  · intro h
    obtain ⟨⟨copy, q, unsettled⟩, hd, hu⟩ := (Option.any_eq_true _ _).mp h
    obtain rfl : unsettled = true := hu
    exact ⟨copy, q, hd⟩
  · rintro ⟨copy, q, hd⟩
    rw [hd]
    rfl

/-- A process lets go of deliveries, and takes none. -/
structure Worker.Drops (x x' : Worker) : Prop where
  pushed : x'.pushed.Sublist x.pushed
  inHand : x'.inHand.Sublist x.inHand
  offline : ¬ x'.link.up → x'.inHand = []
  unconnected : ¬ x'.link.live → x'.pushed = []

theorem Worker.Drops.owns {x x' : Worker} (h : x.Drops x') {i : Nat} (hi : x'.Owns i) : x.Owns i :=
  hi.imp (h.pushed.subset ·) (h.inHand.subset ·)

/-- **A step that only settles, takes back and lets go** keeps the invariant, if what is
let go of is settled. -/
theorem Sane.shrink (h : Sane plan c) {is : List Nat} (hcloses : Closes is c.world c'.world)
    (hnext : c'.next = c.next) (hrequests : ∀ i, (c'.requests i).isSome → (c.requests i).isSome)
    (hdrops : ∀ n, (c.workers n).Drops (c'.workers n))
    (hsettled : ∀ n, ∀ i ∈ (c.workers n).pushed, (∃ copy, c'.world.broker.Unsettled i copy) →
      i ∈ (c'.workers n).pushed) : Sane plan c' := by
  refine ⟨fun i hi => ?_, fun i hi => ?_, fun n i hi => ?_, fun n => (hdrops n).inHand.nodup (h.nodup n),
    fun n m i hn hm => h.unique n m i ((hdrops n).owns hn) ((hdrops m).owns hm),
    fun n => (hdrops n).offline, fun n => (hdrops n).unconnected, fun i copy hi => ?_, fun n => ?_⟩
  · obtain ⟨hrequest, hd⟩ := h.fresh i (hnext ▸ hi)
    refine ⟨Option.not_isSome_iff_eq_none.mp fun hs => ?_, hcloses.none_iff.mpr hd⟩
    have := hrequests i hs
    rw [hrequest] at this
    cases this
  · exact hcloses.none_iff.mpr (h.requests i (hrequests i hi))
  · obtain ⟨d, hd, hq⟩ := h.delivered n i ((hdrops n).owns hi)
    obtain ⟨d', hd', hq', -⟩ := hcloses.delivered hd
    exact ⟨d', hd', hq'.trans hq⟩
  · obtain ⟨n, hmem⟩ := h.connected i copy (hcloses.unsettled hi)
    exact ⟨n, hsettled n i hmem ⟨copy, hi⟩⟩
  · refine (h.prefetch n).imp_right fun hle => le_trans ?_ hle
    unfold Cluster.unsettled
    refine (hdrops n).pushed.countP_le.trans (List.countP_mono_left fun i _ hi => ?_)
    obtain ⟨copy, hu⟩ := holds_iff.mp hi
    exact holds_iff.mpr ⟨copy, hcloses.unsettled hu⟩

/-- The process stays as it is. -/
theorem Sane.drops (h : Sane plan c) (n : Nat) : (c.workers n).Drops (c.workers n) :=
  ⟨.refl _, .refl _, h.offline n, h.unconnected n⟩

/-- The same for a step of one process, which becomes `x`. -/
theorem Sane.setWorker (h : Sane plan c) {n : Nat} {x : Worker} {w : World} {is : List Nat}
    (hcloses : Closes is c.world w) (hdrops : (c.workers n).Drops x)
    (hsettled : ∀ i ∈ (c.workers n).pushed, (∃ copy, w.broker.Unsettled i copy) → i ∈ x.pushed) :
    Sane plan ({ c with world := w }.setWorker n x) := by
  have hself : ∀ m, ({ c with world := w }.setWorker n x).workers m =
      if m = n then x else c.workers m := fun m => Function.update_apply _ _ _ _
  refine h.shrink hcloses rfl (fun _ => id) (fun m => ?_) fun m i => ?_ <;> rw [hself]
  · split
    · rename_i he
      exact he ▸ hdrops
    · exact h.drops m
  · split
    · rename_i he
      exact he ▸ hsettled i
    · exact fun hmem _ => hmem

/-- A new request has a new number. -/
theorem Sane.accept (h : Sane plan c) (p : Program Unit) : Sane plan (c.accept p) := by
  refine ⟨fun i hi => ⟨?_, (h.fresh i (Nat.le_of_succ_le hi)).2⟩, fun i hi => ?_, h.delivered, h.nodup,
    h.unique, h.offline, h.unconnected, h.connected, h.prefetch⟩
  · have hne : i ≠ c.next := (Nat.lt_of_succ_le hi).ne'
    exact (Function.update_of_ne hne _ _).trans (h.fresh i (Nat.le_of_succ_le hi)).1
  · by_cases he : i = c.next
    · exact (h.fresh i he.ge).2
    · refine h.requests i ?_
      rwa [← Function.update_of_ne he (some p) c.requests]

theorem Sane.ne_next (h : Sane plan c) {n i : Nat} (hi : (c.workers n).Owns i) : i ≠ c.next := by
  rintro rfl
  obtain ⟨d, hd, -⟩ := h.delivered n c.next hi
  rw [(h.fresh c.next le_rfl).2] at hd
  cases hd

/-- **A delivery** goes to a worker that is connected and below its prefetch count. -/
theorem Sane.push (h : Sane plan c) {n k : Nat} {copy : Copy} (hlink : (c.workers n).link = .consuming)
    (hprefetch : plan.prefetch n = 0 ∨ c.unsettled n < plan.prefetch n) :
    Sane plan { c with
      world := { c.world with broker := c.world.broker.deliver c.next ⟨plan.stage n, .work⟩ k copy }
      workers := Function.update c.workers n
        { c.workers n with
          pushed := (c.workers n).pushed ++ [c.next], buffer := (c.workers n).buffer ++ [c.next] }
      next := c.next + 1 } := by
  generalize hc : Cluster.mk _ _ _ _ = c'
  have hnext : c'.next = c.next + 1 := by rw [← hc]
  have hrequests : c'.requests = c.requests := by rw [← hc]
  have hdelivery : c'.world.broker.deliveries c.next =
      some ⟨copy, ⟨plan.stage n, .work⟩, true⟩ := by
    rw [← hc]
    exact Function.update_self _ _ _
  have hother : ∀ i, i ≠ c.next → c'.world.broker.deliveries i = c.world.broker.deliveries i := by
    intro i hi
    rw [← hc]
    exact Function.update_of_ne hi _ _
  have hself : c'.workers n = { c.workers n with
      pushed := (c.workers n).pushed ++ [c.next], buffer := (c.workers n).buffer ++ [c.next] } := by
    rw [← hc]
    exact Function.update_self _ _ _
  have hworker : ∀ m, m ≠ n → c'.workers m = c.workers m := by
    intro m hm
    rw [← hc]
    exact Function.update_of_ne hm _ _
  have hinHand : (c'.workers n).inHand = (c.workers n).inHand ++ [c.next] := by
    simp [hself, Worker.inHand]
  -- what a process owns now it owned before, or it is the new one
  have howns : ∀ m i, (c'.workers m).Owns i → (c.workers m).Owns i ∨ m = n ∧ i = c.next := by
    intro m i hi
    by_cases hm : m = n
    · subst hm
      unfold Worker.Owns at hi ⊢
      rw [hinHand, hself, List.mem_append, List.mem_append, List.mem_singleton] at hi
      tauto
    · exact Or.inl (hworker m hm ▸ hi)
  have hcount : ∀ m, (c.workers m).pushed.countP c'.holds = c.unsettled m := by
    intro m
    refine List.countP_congr fun i hi => ?_
    unfold Cluster.holds
    rw [hother i (h.ne_next (Or.inl hi))]
  refine ⟨fun i hi => ?_, fun i hi => ?_, fun m i hi => ?_, fun m => ?_, fun m m' i hi hi' => ?_,
    fun m hm => ?_, fun m hm => ?_, fun i copy' hi => ?_, fun m => ?_⟩
  · have hlt : c.next < i := by omega
    rw [hrequests, hother i hlt.ne']
    exact h.fresh i hlt.le
  · rw [hrequests] at hi
    have hne : i ≠ c.next := by
      rintro rfl
      rw [(h.fresh c.next le_rfl).1] at hi
      cases hi
    exact (hother i hne).trans (h.requests i hi)
  · rcases howns m i hi with hold | ⟨rfl, rfl⟩
    · rw [hother i (h.ne_next hold)]
      exact h.delivered m i hold
    · exact ⟨_, hdelivery, rfl⟩
  · by_cases hm : m = n
    · subst hm
      rw [hinHand]
      refine List.nodup_append.mpr ⟨h.nodup m, List.nodup_singleton _, fun i hi j hj he => ?_⟩
      exact h.ne_next (Or.inr hi) (he.trans (List.mem_singleton.mp hj))
    · rw [hworker m hm]
      exact h.nodup m
  · rcases howns m i hi with hold | ⟨rfl, he⟩ <;> rcases howns m' i hi' with hold' | ⟨rfl, he'⟩
    · exact h.unique m m' i hold hold'
    · exact absurd he' (h.ne_next hold)
    · exact absurd he (h.ne_next hold')
    · rfl
  · by_cases he : m = n
    · subst he
      rw [hself] at hm
      exact absurd (Or.inl (Or.inl hlink)) hm
    · rw [hworker m he] at hm ⊢
      exact h.offline m hm
  · by_cases he : m = n
    · subst he
      rw [hself] at hm
      exact absurd (Or.inl hlink) hm
    · rw [hworker m he] at hm ⊢
      exact h.unconnected m hm
  · by_cases he : i = c.next
    · refine ⟨n, ?_⟩
      rw [hself, he]
      exact List.mem_append_right _ (List.mem_singleton_self _)
    · obtain ⟨q, hd⟩ := hi
      obtain ⟨m, hmem⟩ := h.connected i copy' ⟨q, hother i he ▸ hd⟩
      refine ⟨m, ?_⟩
      by_cases hm : m = n
      · subst hm
        rw [hself]
        exact List.mem_append_left _ hmem
      · rwa [hworker m hm]
  · by_cases hm : m = n
    · subst hm
      refine hprefetch.imp_right fun hlt => ?_
      have hone : List.countP c'.holds [c.next] ≤ 1 := List.countP_le_length
      have hsum : c'.unsettled m = c.unsettled m + List.countP c'.holds [c.next] := by
        unfold Cluster.unsettled
        rw [hself, List.countP_append, hcount]
        rfl
      omega
    · refine (h.prefetch m).imp_right fun hle => ?_
      unfold Cluster.unsettled
      rw [hworker m hm, hcount]
      exact hle

theorem sane_init (plan : Plan) : Sane plan .init where
  fresh _ _ := ⟨rfl, rfl⟩
  requests i hi := by cases hi
  delivered n i hi := by rcases hi with hi | hi <;> cases hi
  nodup _ := List.nodup_nil
  unique n m i hi := by rcases hi with hi | hi <;> cases hi
  offline _ _ := rfl
  unconnected _ _ := rfl
  connected i copy hi := by
    obtain ⟨q, hd⟩ := hi
    cases hd
  prefetch _ := Or.inr (Nat.zero_le _)

/-- **Every step keeps the invariant.** -/
theorem Sane.step (h : Sane plan c) {e : Event} (hstep : step cfg plan c e = some c') : Sane plan c' := by
  -- a process that has no connection and is not working has nothing to let go of
  have hfresh : ∀ {n link}, ¬ (c.workers n).link.live → Sane plan (c.setWorker n (.fresh link)) := by
    intro n link hlink
    refine h.setWorker (.refl [] c.world) ⟨?_, List.nil_sublist _, fun _ => rfl, fun _ => rfl⟩
      fun i hi _ => ?_
    · exact List.nil_sublist _
    · rw [h.unconnected n hlink] at hi
      cases hi
  cases e with
  | upload u t x =>
    obtain rfl := Option.some.inj hstep
    exact h.accept _
  | retryRequest d =>
    obtain rfl := Option.some.inj hstep
    exact h.accept _
  | serve i a =>
    obtain ⟨q, k, r, w, hp, hx, rfl⟩ := step_serve hstep
    refine h.shrink (closes_exec hx) rfl (fun j hj => ?_) h.drops fun _ _ hi _ => hi
    by_cases he : j = i
    · rw [he, hp]
      rfl
    · rwa [← Function.update_of_ne he (some (k r)) c.requests]
  | abort i =>
    obtain ⟨-, rfl⟩ := step_abort hstep
    refine h.shrink (.refl [] _) rfl (fun j hj => ?_) h.drops fun _ _ hi _ => hi
    by_cases he : j = i
    · subst he
      simp at hj
    · rwa [← Function.update_of_ne he none c.requests]
  | boot n =>
    obtain ⟨hlink, rfl⟩ := step_boot hstep
    exact hfresh (by simp [hlink, Link.live])
  | dial n answered =>
    obtain ⟨attempts, link, hlink, rfl⟩ := step_dial hstep
    exact hfresh (by simp [hlink, Link.live])
  | push n k =>
    obtain ⟨copy, hlink, hprefetch, -, rfl⟩ := step_push hstep
    exact h.push hlink hprefetch
  | dispatch n =>
    obtain ⟨i, rest, copy, hlink, hbuffer, hrunning, -, rfl⟩ := step_dispatch hstep
    have hup : (c.workers n).link.up := by
      rcases hlink with hlink | hlink
      · exact Or.inl (Or.inl hlink)
      · exact Or.inr hlink
    refine h.setWorker (.refl [] c.world) ⟨.refl _, ?_, fun hno => absurd hup hno, h.unconnected n⟩
      fun _ hi _ => hi
    simp [Worker.inHand, hbuffer, hrunning]
  | call n a =>
    obtain ⟨i, q, k, r, w, hp, -, hx, rfl⟩ := step_call hstep
    have hsame : ({ c.workers n with running := some (i, k r) } : Worker).inHand =
        (c.workers n).inHand := by
      simp [Worker.inHand, hp]
    refine h.setWorker (closes_exec hx) ⟨.refl _, ?_, fun hno => ?_, h.unconnected n⟩ fun _ hi _ => hi
    · rw [hsame]
    · rw [hsame]
      exact h.offline n hno
  | finish n =>
    obtain ⟨i, v, hp, rfl⟩ := step_finish hstep
    have hsub : ({ c.workers n with running := none } : Worker).inHand.Sublist (c.workers n).inHand := by
      simp [Worker.inHand, hp]
    refine h.setWorker (.refl [] c.world) ⟨.refl _, hsub, fun hno => ?_, h.unconnected n⟩ fun _ hi _ => hi
    exact List.eq_nil_of_subset_nil (h.offline n hno ▸ hsub.subset)
  | lose n =>
    obtain ⟨-, rfl⟩ := step_lose hstep
    refine h.setWorker (closes_takeBackAll _ _)
      ⟨List.nil_sublist _, .refl _, fun hno => absurd (Or.inr rfl) hno, fun _ => rfl⟩ ?_
    rintro i hi ⟨copy, hunsettled⟩
    exact absurd hunsettled (not_unsettled_takeBackAll hi copy)
  | reconnect n =>
    obtain ⟨hlink, -, -, rfl⟩ := step_reconnect hstep
    exact hfresh (by simp [hlink, Link.live])
  | stop n =>
    obtain ⟨hlink, -, rfl⟩ := step_stop hstep
    refine h.setWorker (closes_takeBackAll _ _)
      ⟨.refl _, ?_, fun hno => absurd (Or.inl (Or.inr rfl)) hno, fun hno => absurd (Or.inr rfl) hno⟩
      fun _ hi _ => hi
    simp [Worker.inHand]
  | exit n =>
    obtain ⟨-, rfl⟩ := step_exit hstep
    refine h.setWorker (closes_takeBackAll _ _)
      ⟨List.nil_sublist _, List.nil_sublist _, fun _ => rfl, fun _ => rfl⟩ ?_
    rintro i hi ⟨copy, hunsettled⟩
    exact absurd hunsettled (not_unsettled_takeBackAll hi copy)
  | expire S k =>
    obtain ⟨copy, -, rfl⟩ := step_expire hstep
    have hcloses : Closes [] c.world
        { c.world with broker := c.world.broker.expire ⟨S, .retry⟩ k copy } := by
      refine .of_eq ?_
      rw [Broker.expire_retry, Broker.push_deliveries, Broker.remove_deliveries]
    exact h.shrink hcloses rfl (fun _ => id) h.drops fun _ _ hi _ => hi

variable {ok : Cluster → Event → Prop}

theorem sane_of_reachable (h : Reachable cfg plan ok c) : Sane plan c :=
  h.invariant (sane_init plan) fun _ _ _ hs _ hstep => hs.step hstep

end Sane

/-- **Every unsettled delivery is in one pair of hands**, however the workers die, lose
their connections and connect again: it was pushed to one process, whose connection is
live and whose stage's queue it comes from.  No two processes have the same delivery to
handle, and none with a prefetch count other than 0, which is no limit, has more unsettled
deliveries than that. -/
theorem unsettled_owned {cfg : Config} {plan : Plan} {ok : Cluster → Event → Prop} {c : Cluster}
    (h : Reachable cfg plan ok c) :
    (∀ i copy, c.world.broker.Unsettled i copy → ∃! n, i ∈ (c.workers n).pushed) ∧
    (∀ n, ∀ i ∈ (c.workers n).pushed, (c.workers n).link.live ∧
      ∃ d, c.world.broker.deliveries i = some d ∧ d.queue = ⟨plan.stage n, .work⟩) ∧
    (∀ n m i, i ∈ (c.workers n).inHand → i ∈ (c.workers m).inHand → n = m) ∧
    ∀ n, plan.prefetch n = 0 ∨ c.unsettled n ≤ plan.prefetch n := by
  have hsane := sane_of_reachable h
  refine ⟨fun i copy hi => ?_, fun n i hi => ⟨?_, hsane.delivered n i (Or.inl hi)⟩,
    fun n m i hn hm => hsane.unique n m i (Or.inr hn) (Or.inr hm), hsane.prefetch⟩
  · obtain ⟨n, hn⟩ := hsane.connected i copy hi
    exact ⟨n, hn, fun m hm => hsane.unique m n i (Or.inl hm) (Or.inl hn)⟩
  · by_contra hlive
    rw [hsane.unconnected n hlive] at hi
    cases hi

/-- Process 1 is the chunker, process 2 embeds, and the others recognise text. -/
def samplePlan : Plan where
  stage
    | 1 => .chunk
    | 2 => .embed
    | _ => .ocr
  prefetch _ := 2

/-- An OCR worker has begun with the scan when it loses its connection; the scan goes to
another one while the first is still at work on it. -/
def handedOver : List Event :=
  .upload (some sampleUpload) none ['t'] ::
    [.id ['u'], .ok, .ok, .id ['m'], .id ['x'], .ok].map (.serve 0) ++
    [.boot 0, .dial 0 false, .dial 0 true, .push 0 0, .dispatch 0, .call 0 .ok, .boot 3, .dial 3 true,
      .lose 0, .push 3 0, .dispatch 3, .call 0 .ok]

/-- The second worker has the scan, and the first has nothing of the broker's. -/
theorem unsettled_owned_handedOver : ∃ c : Cluster,
    run (step sampleConfig samplePlan) .init handedOver = some c ∧ c.holds 2 = true ∧
      (c.workers 0).inHand = [1] ∧ ∃! n, 2 ∈ (c.workers n).pushed := by
  obtain ⟨c, hc, hholds, hinHand⟩ := exists_run (step sampleConfig samplePlan) .init handedOver
    (fun c => c.holds 2 = true ∧ (c.workers 0).inHand = [1]) (by decide)
  obtain ⟨copy, hcopy⟩ := holds_iff.mp hholds
  exact ⟨c, hc, hholds, hinHand, (unsettled_owned (.of_run hc)).1 2 copy hcopy⟩

end DigitalCip.Deployment
