import DigitalCip.System

/-!
# Who did what

Ids, document rows, accepted messages and dedupe rows carry the number of the
execution they are from.  A step adds such things in the name of the execution
that takes it and of no other, and a number is never used twice.
-/

namespace DigitalCip
open Resumable

/-- What `w'` has in the name of execution `i` was already there in `w`. -/
structure Apart (i : Nat) (w w' : World) : Prop where
  ids : ∀ t, (i, t) ∈ w'.ids → (i, t) ∈ w.ids
  created : ∀ d, (i, d) ∈ w'.created → (i, d) ∈ w.created
  accepted : ∀ p ∈ w'.broker.accepted, p.publisher = i → p ∈ w.broker.accepted
  processed : ∀ m row, w'.db.processed m = some row → row.execution = i →
    w.db.processed m = some row

/-- Nothing is there in the name of execution `i`. -/
structure Untouched (i : Nat) (w : World) : Prop where
  ids : ∀ t, (i, t) ∉ w.ids
  created : ∀ d, (i, d) ∉ w.created
  accepted : ∀ p ∈ w.broker.accepted, p.publisher ≠ i
  processed : ∀ m row, w.db.processed m = some row → row.execution ≠ i

namespace Apart

theorem refl (i : Nat) (w : World) : Apart i w w :=
  ⟨fun _ => id, fun _ => id, fun _ h _ => h, fun _ _ h _ => h⟩

theorem trans {i : Nat} {a b c : World} (h : Apart i a b) (h' : Apart i b c) : Apart i a c :=
  ⟨fun t ht => h.ids t (h'.ids t ht), fun d hd => h.created d (h'.created d hd),
    fun p hp hi => h.accepted p (h'.accepted p hp hi) hi,
    fun m row hm hi => h.processed m row (h'.processed m row hm hi) hi⟩

/-- A step that leaves everything that carries a number alone. -/
theorem of_eq {i : Nat} {w w' : World} (hids : w'.ids = w.ids) (hcreated : w'.created = w.created)
    (haccepted : w'.broker.accepted = w.broker.accepted)
    (hprocessed : w'.db.processed = w.db.processed) : Apart i w w' := by
  refine ⟨fun t => ?_, fun d => ?_, fun p hp _ => ?_, fun m row hm _ => ?_⟩
  · rw [hids]
    exact id
  · rw [hcreated]
    exact id
  · rwa [haccepted] at hp
  · rwa [hprocessed] at hm

theorem untouched {i : Nat} {w w' : World} (h : Apart i w w') (hw : Untouched i w) :
    Untouched i w' :=
  ⟨fun t ht => hw.ids t (h.ids t ht), fun d hd => hw.created d (h.created d hd),
    fun p hp hi => hw.accepted p (h.accepted p hp hi) hi,
    fun m row hm hi => hw.processed m row (h.processed m row hm hi) hi⟩

end Apart

/-! ## What a broker operation leaves in the log -/

namespace Broker
variable (b : Broker)

@[simp] theorem deadLetter_accepted (copy : Copy) (q : Queue) :
    (b.deadLetter copy q).accepted = b.accepted := by
  unfold deadLetter
  generalize deadLetterTargets q = qs
  induction qs generalizing b with
  | nil => rfl
  | cons q' qs ih => exact ih (b.push copy q')

@[simp] theorem nack_accepted (i : Nat) (copy : Copy) (q : Queue) :
    (b.nack i copy q).accepted = b.accepted := deadLetter_accepted _ _ _

@[simp] theorem expire_accepted (q : Queue) (n : Nat) (copy : Copy) :
    (b.expire q n copy).accepted = b.accepted := deadLetter_accepted _ _ _

/-- What a publish adds to the log is in the name of its execution. -/
theorem of_mem_publish_accepted {i : Nat} {exchange : Exchange} {key : RoutingKey} {m : Message}
    {p : Publication} (h : p ∈ (b.publish i exchange key m).accepted) :
    p ∈ b.accepted ∨ exchange = .ingest ∧ p = ⟨b.nextCopy, i, m⟩ := by
  have hlog : p ∈ (b.log i exchange m).accepted := by
    unfold publish at h
    generalize b.log i exchange m = b₁ at h ⊢
    generalize b.originOf i exchange = origin at h
    generalize route exchange key = qs at h
    induction qs generalizing b₁ with
    | nil => exact h
    | cons q qs ih => exact ih (b₁.enqueue origin m q) h
  unfold log at hlog
  split at hlog
  · rcases List.mem_append.mp hlog with hp | hp
    · exact Or.inl hp
    · exact Or.inr ⟨‹_›, List.mem_singleton.mp hp⟩
  · exact Or.inl hlog

end Broker

/-! ## What the steps leave alone -/

theorem apart_takeBack (i j : Nat) (w : World) : Apart j w (w.takeBack i) := by
  rcases takeBack_cases w i with h | ⟨copy, q, -, h⟩ <;> rw [h]
  · exact .refl j w
  · exact .of_eq rfl rfl rfl rfl

/-- **A call adds nothing in the name of another execution.** -/
theorem apart_of_exec {i j : Nat} {c : Call} {a : Answer} {w w' : World} {r : c.Reply}
    (h : exec i c a w = some (r, w')) (hji : j ≠ i) : Apart j w w' := by
  rcases exec_cases h with ⟨-, -, -, -, rfl⟩ | ⟨v, -, -, hdoes⟩
  · exact .refl j _
  cases c with
  | alreadyProcessed | fetchDocument | fetchChunksWithoutEmbedding | downloadObject | embedBatch
  | retryDocument =>
    obtain ⟨-, rfl⟩ := hdoes
    exact .refl j _
  | extractText =>
    obtain rfl := hdoes
    exact .refl j _
  | updateDocument | recordEvent | insertChunks | writeEmbeddings | putObject =>
    obtain rfl := hdoes
    exact .of_eq rfl rfl rfl rfl
  | recordProcessed row =>
    obtain rfl := hdoes
    refine ⟨fun _ => id, fun _ => id, fun _ hp _ => hp, fun m stored hm hj => ?_⟩
    rcases Db.of_processed_recordProcessed hm with hold | ⟨-, -, rfl⟩
    · exact hold
    · exact absurd hj.symm hji
  | createDocument row stored =>
    rcases hdoes with ⟨e, -, rfl⟩ | ⟨d, db, -, htx, rfl⟩
    · exact .refl j _
    · obtain ⟨-, -, rfl⟩ := Api.createTransaction_ok htx
      refine ⟨fun _ => id, fun d' hd' => ?_, fun _ hp _ => hp, fun _ _ hm _ => hm⟩
      rcases List.mem_cons.mp hd' with he | hd'
      · exact absurd (Prod.mk.inj he).1 hji
      · exact hd'
  | freshId =>
    obtain ⟨-, rfl⟩ := hdoes
    refine ⟨fun t ht => ?_, fun _ => id, fun _ hp _ => hp, fun _ _ hm _ => hm⟩
    rcases List.mem_cons.mp ht with he | ht
    · exact absurd (Prod.mk.inj he).1 hji
    · exact ht
  | publish exchange key m =>
    obtain rfl := hdoes
    refine ⟨fun _ => id, fun _ => id, fun p hp hj => ?_, fun _ _ hm _ => hm⟩
    rcases w.broker.of_mem_publish_accepted hp with hold | ⟨-, rfl⟩
    · exact hold
    · exact absurd hj.symm hji
  | ack outcome =>
    obtain ⟨copy, -, rfl⟩ := hdoes
    exact .of_eq rfl rfl rfl rfl
  | nack =>
    obtain ⟨copy, q, -, rfl⟩ := hdoes
    exact .of_eq rfl rfl (Broker.nack_accepted _ _ _ _) rfl

section Runs
variable {cfg : Config} {s s' : Sys}

/-- A step that is not a call of `i` adds nothing in the name of `i`. -/
theorem apart_of_step {l : Label} {i : Nat} (h : step cfg s l = some s')
    (hl : ∀ a, l ≠ .run i a) : Apart i s.world s'.world := by
  cases l with
  | upload j =>
    obtain ⟨-, rfl⟩ := step_upload h
    exact .refl i s.world
  | retryRequest j =>
    obtain ⟨-, rfl⟩ := step_retryRequest h
    exact .refl i s.world
  | deliver j S n =>
    obtain ⟨copy, -, -, rfl⟩ := step_deliver h
    exact .of_eq rfl rfl rfl rfl
  | run j a =>
    obtain ⟨c, k, r, w, -, hx, rfl⟩ := step_run h
    exact apart_of_exec hx fun he => hl a (he ▸ rfl)
  | die j =>
    obtain ⟨-, rfl⟩ := step_die h
    exact apart_takeBack j i s.world
  | redeliver j =>
    obtain ⟨-, -, rfl⟩ := step_redeliver h
    exact apart_takeBack j i s.world
  | expire S n =>
    obtain ⟨copy, -, rfl⟩ := step_expire h
    exact .of_eq rfl rfl (Broker.expire_accepted _ _ _ _) rfl

/-- A number that has a program keeps one. -/
theorem progs_isSome_of_step {l : Label} {i : Nat} (h : step cfg s l = some s')
    (hi : (s.progs i).isSome) : (s'.progs i).isSome := by
  have hspawn : ∀ (s₁ : Sys) j p, (s₁.progs i).isSome → ((s₁.spawn j p).progs i).isSome := by
    intro s₁ j p h₁
    by_cases hij : i = j
    · subst hij
      simp
    · rwa [Pool.spawn_progs_of_ne s₁ j p hij]
  cases l with
  | upload j =>
    obtain ⟨-, rfl⟩ := step_upload h
    exact hspawn s j _ hi
  | retryRequest j =>
    obtain ⟨-, rfl⟩ := step_retryRequest h
    exact hspawn s j _ hi
  | deliver j S n =>
    obtain ⟨copy, -, -, rfl⟩ := step_deliver h
    exact hspawn _ j _ hi
  | run j a =>
    obtain ⟨c, k, r, w, -, -, rfl⟩ := step_run h
    exact hspawn _ j _ hi
  | die j =>
    obtain ⟨-, rfl⟩ := step_die h
    exact hspawn s j _ hi
  | redeliver j =>
    obtain ⟨-, -, rfl⟩ := step_redeliver h
    exact hi
  | expire S n =>
    obtain ⟨copy, -, rfl⟩ := step_expire h
    exact hi

theorem progs_isSome_of_reaches {ok : Sys → Label → Prop} {i : Nat}
    (h : Reaches (step cfg) ok s s') (hi : (s.progs i).isSome) : (s'.progs i).isSome :=
  h.invariant (I := fun s => (s.progs i).isSome = true) hi fun _ _ _ hi _ hstep =>
    progs_isSome_of_step hstep hi

/-- **An unused number has done nothing.** -/
theorem Sys.Unused.untouched {ok : Sys → Label → Prop} (hs : Reachable cfg ok s) {i : Nat}
    (hi : s.Unused i) : Untouched i s.world := by
  suffices h : s.progs i = none → Untouched i s.world from h (by simpa using hi.1)
  refine hs.invariant (I := fun s => s.progs i = none → Untouched i s.world) ?_ ?_
  · intro _
    exact ⟨fun _ => List.not_mem_nil, fun _ => List.not_mem_nil,
      fun _ hp => absurd hp List.not_mem_nil, fun _ _ hm => nomatch hm⟩
  · intro s l s' ih _ hstep hnone
    have hold : s.progs i = none := by
      by_contra hne
      have hsome := progs_isSome_of_step hstep (Option.isSome_iff_ne_none.mpr hne)
      rw [hnone] at hsome
      cases hsome
    refine (apart_of_step hstep fun a => ?_).untouched (ih hold)
    rintro rfl
    obtain ⟨c, k, r, w, hp, -, -⟩ := step_run hstep
    rw [hold] at hp
    cases hp

end Runs
end DigitalCip
