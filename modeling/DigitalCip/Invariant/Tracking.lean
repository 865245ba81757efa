import DigitalCip.Invariant.Ownership

/-!
# Following an execution

What holds of an execution and of the world it runs in is shown once for each way the
execution can start and once for each of its calls; what the others do in between must
leave it alone (`Tracks.holds`).  The property is of what is left to run, so it may
speak of the calls still to come.
-/

namespace DigitalCip
open Resumable

/-- `K i p w` says something of execution `i`, which has `p` left to run, in world `w`. -/
structure Tracks (cfg : Config) (ok : Sys → Label → Prop)
    (K : Nat → Program Unit → World → Prop) : Prop where
  stable : ∀ s l s' i p, Reachable cfg ok s → ok s l → step cfg s l = some s' →
    l.execution ≠ some i ∨ l = .redeliver i → s.progs i = some p → K i p s.world → K i p s'.world
  upload : ∀ s i upload title tenantId, Reachable cfg ok s → s.Unused i → Untouched i s.world →
    K i (do let _ ← Api.createDocument cfg upload title tenantId; return ()) s.world
  retryRequest : ∀ s i documentId, Reachable cfg ok s → s.Unused i → Untouched i s.world →
    K i (do let _ ← Api.retryAction documentId; return ()) s.world
  consumer : ∀ s i S n copy w, Reachable cfg ok s → s.Unused i → Untouched i w → Base w →
    w = { s.world with broker := s.world.broker.deliver i ⟨S, .work⟩ n copy } →
    K i (consumer cfg S copy.message) w
  run : ∀ s i a c k r w, Reachable cfg ok s → ok s (.run i a) → s.progs i = some (.call c k) →
    exec i c a s.world = some (r, w) → Grows s.world w → K i (.call c k) s.world → K i (k r) w
  died : ∀ s i, ok s (.die i) → K i (.raise died) (s.world.takeBack i)

/-- A step of somebody else, or of the broker, is no call of the execution. -/
theorem ne_run_of_aside {l : Label} {i : Nat} (h : l.execution ≠ some i ∨ l = .redeliver i)
    (a : Answer) : l ≠ .run i a := by
  rintro rfl
  rcases h with h | h
  · exact h rfl
  · cases h

section Tracks
variable {cfg : Config} {ok : Sys → Label → Prop} {K : Nat → Program Unit → World → Prop} {s s' : Sys}

/-- **It holds of every execution of every run.** -/
theorem Tracks.holds (hK : Tracks cfg ok K) (h : Reachable cfg ok s) {i : Nat} {p : Program Unit}
    (hp : s.progs i = some p) : K i p s.world := by
  induction h generalizing i p with
  | start => cases hp
  | @next s s' l hs hl hstep ih =>
    have hother : l.execution ≠ some i ∨ l = .redeliver i → s'.progs i = s.progs i →
        K i p s'.world := by
      intro hl' he
      rw [he] at hp
      exact hK.stable s l s' i p hs hl hstep hl' hp (ih hp)
    by_cases he : l.execution = some i
    · cases l with
      | upload j u t x =>
        obtain rfl := Option.some.inj he
        obtain ⟨hunused, rfl⟩ := step_upload hstep
        rw [Pool.spawn_progs_self] at hp
        exact Option.some.inj hp ▸ hK.upload s j u t x hs hunused (hunused.untouched hs)
      | retryRequest j d =>
        obtain rfl := Option.some.inj he
        obtain ⟨hunused, rfl⟩ := step_retryRequest hstep
        rw [Pool.spawn_progs_self] at hp
        exact Option.some.inj hp ▸ hK.retryRequest s j d hs hunused (hunused.untouched hs)
      | deliver j S n =>
        obtain rfl := Option.some.inj he
        have hb' := reachable_base (hs.next hl hstep)
        have hapart := apart_of_step (i := j) hstep (by simp)
        obtain ⟨copy, hunused, -, rfl⟩ := step_deliver hstep
        rw [Pool.spawn_progs_self] at hp
        exact Option.some.inj hp ▸ hK.consumer s j S n copy _ hs hunused
          (hapart.untouched (hunused.untouched hs)) hb' rfl
      | run j a =>
        obtain rfl := Option.some.inj he
        have hg := grows_of_step hs hstep
        obtain ⟨c, k, r, w, hprog, hx, rfl⟩ := step_run hstep
        rw [Pool.spawn_progs_self] at hp
        exact Option.some.inj hp ▸ hK.run s j a c k r w hs hl hprog hx hg (ih hprog)
      | die j =>
        obtain rfl := Option.some.inj he
        obtain ⟨-, rfl⟩ := step_die hstep
        rw [Pool.move_progs, Pool.kill_progs_self] at hp
        exact Option.some.inj hp ▸ hK.died s j hl
      | redeliver j =>
        obtain rfl := Option.some.inj he
        refine hother (Or.inr rfl) ?_
        obtain ⟨-, -, rfl⟩ := step_redeliver hstep
        rfl
      | expire => cases he
    · exact hother (Or.inl he) (progs_of_step hstep he)

/-- **A property of what is stored and what was published** that each call keeps, made as
the property that is tracked allows. -/
theorem Tracks.keeps (hK : Tracks cfg ok K) {I : World → Prop} (hinit : I .empty)
    (henv : ∀ w w' : World, w'.db = w.db → w'.objects = w.objects →
      w'.broker.accepted = w.broker.accepted → I w → I w')
    (hcall : ∀ s i c k v w, Reachable cfg ok s → s.progs i = some (.call c k) →
      K i (.call c k) s.world → Does i c v s.world w → Base w → Grows s.world w → I s.world → I w)
    (h : Reachable cfg ok s) : I s.world := by
  induction h with
  | start => exact hinit
  | @next s s' l hs hl hstep ih =>
    have hg := grows_of_step hs hstep
    rcases world_of_step hstep with he | hmove | ⟨i, a, c, k, v, -, hp, hreply⟩
    · exact he ▸ ih
    · exact henv _ _ (db_of_envMove hmove) (objects_of_envMove hmove) (accepted_of_envMove hmove) ih
    · exact hcall s i c k v _ hs hp (hK.holds hs hp) (does_of_reply hreply)
        (reachable_base (hs.next hl hstep)) hg ih

/-- **A property of programs** that every program has at its start, and that what is left
of a program after a call has as well. -/
theorem Tracks.of_program {P : Program Unit → Prop}
    (hupload : ∀ upload title tenantId,
      P (do let _ ← Api.createDocument cfg upload title tenantId; return ()))
    (hretry : ∀ documentId, P (do let _ ← Api.retryAction documentId; return ()))
    (hconsumer : ∀ S m, P (DigitalCip.consumer cfg S m)) (hdied : P (.raise DigitalCip.died))
    (hreply : ∀ c k r, P (.call c k) → P (k r)) : Tracks cfg ok fun _ p _ => P p where
  stable _ _ _ _ _ _ _ _ _ _ h := h
  upload _ _ u t x _ _ _ := hupload u t x
  retryRequest _ _ d _ _ _ := hretry d
  consumer _ _ S _ copy _ _ _ _ _ _ := hconsumer S copy.message
  run _ _ _ c k r _ _ _ _ _ _ h := hreply c k r h
  died _ _ _ := hdied

/-- A step leaves a program that has started as it is, answers its call or kills it. -/
theorem progs_of_started {l : Label} (hstep : step cfg s l = some s') {i : Nat} {p : Program Unit}
    (hp : s.progs i = some p) : s'.progs i = some p ∨ s'.progs i = some (.raise died) ∨
      ∃ c k r, p = .call c k ∧ s'.progs i = some (k r) := by
  have hnot : ¬ s.Unused i := fun h => by simp [Sys.Unused, hp] at h
  by_cases he : l.execution = some i
  · cases l with
    | upload j =>
      obtain rfl := Option.some.inj he
      exact absurd (step_upload hstep).1 hnot
    | retryRequest j =>
      obtain rfl := Option.some.inj he
      exact absurd (step_retryRequest hstep).1 hnot
    | deliver j =>
      obtain rfl := Option.some.inj he
      obtain ⟨copy, hunused, -⟩ := step_deliver hstep
      exact absurd hunused hnot
    | run j =>
      obtain rfl := Option.some.inj he
      obtain ⟨c, k, r, w, hprog, -, rfl⟩ := step_run hstep
      obtain rfl := Option.some.inj (hprog.symm.trans hp)
      exact Or.inr (Or.inr ⟨c, k, r, rfl, Pool.spawn_progs_self _ _ _⟩)
    | die j =>
      obtain rfl := Option.some.inj he
      obtain ⟨-, rfl⟩ := step_die hstep
      exact Or.inr (Or.inl (Pool.kill_progs_self _ _ _))
    | redeliver j =>
      obtain ⟨copy, -, rfl⟩ := step_redeliver hstep
      exact Or.inl hp
    | expire => cases he
  · exact Or.inl ((progs_of_step hstep he).trans hp)

/-- What is there stays there. -/
theorem grows_of_reaches (h : Reachable cfg ok s) (h' : Reaches (step cfg) ok s s') :
    Grows s.world s'.world := by
  induction h' with
  | start => exact .refl _
  | next hs _ hstep ih => exact ih.trans (grows_of_step (h.trans hs) hstep)

/-- An execution that was given a copy has a program. -/
theorem exists_prog_of_handled (h : Reachable cfg ok s) {i : Nat} {copy : Copy}
    (hi : s.world.broker.handled i = some copy) : ∃ p, s.progs i = some p := by
  refine Option.isSome_iff_exists.mp ?_
  induction h generalizing copy with
  | start => cases hi
  | @next s s' l hs hl hstep ih =>
    by_cases hdeliver : ∃ S n, l = .deliver i S n
    · obtain ⟨S, n, rfl⟩ := hdeliver
      obtain ⟨copy', -, -, rfl⟩ := step_deliver hstep
      rw [Pool.spawn_progs_self]
      rfl
    · rw [handled_of_step hstep fun S n he => hdeliver ⟨S, n, he⟩] at hi
      exact progs_isSome_of_step hstep (ih hi)

/-- An execution without a program is unused. -/
theorem unused_of_not_started (h : Reachable cfg ok s) {i : Nat} (hi : s.progs i = none) :
    s.Unused i := by
  refine ⟨by rw [hi]; rfl, ?_⟩
  by_contra hd
  obtain ⟨d, hd⟩ := Option.ne_none_iff_exists'.mp fun he => hd (Option.isNone_iff_eq_none.mpr he)
  have hcopy : s.world.broker.handled i = some d.copy := by rw [Broker.handled, hd]; rfl
  obtain ⟨p, hp⟩ := exists_prog_of_handled h hcopy
  rw [hi] at hp
  cases hp

end Tracks
end DigitalCip
