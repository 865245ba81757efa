import DigitalCip.Invariant.Live
import DigitalCip.Invariant.Ownership

/-!
# The copy of an execution at work

The broker may take a delivery back while its execution is still at work.  In an
exclusive run the copy then waits in a queue until the execution is done, so as long
as an execution is at work on a document, a copy of the document is on its way
(`live_of_atWork`).
-/

namespace DigitalCip
open Resumable

/-- The copy is with execution `i`, or it waits in a queue. -/
def Broker.Retains (b : Broker) (i : Nat) (copy : Copy) : Prop :=
  b.Unsettled i copy ∨ ∃ S leg, leg ≠ .dlq ∧ copy ∈ b.queues ⟨S, leg⟩

theorem Broker.Retains.live {b : Broker} {i : Nat} {copy : Copy} (h : b.Retains i copy) :
    b.Live copy := by
  rcases h with h | h
  · exact Or.inr ⟨i, h⟩
  · exact Or.inl h

section Retains
variable {b b' : Broker} {i : Nat} {copy : Copy}

/-- Nothing is taken from a queue, and nothing from the execution. -/
theorem Broker.Retains.mono (h : b.Retains i copy) (hdeliveries : b'.deliveries i = b.deliveries i)
    (hqueues : ∀ q, ∀ c ∈ b.queues q, c ∈ b'.queues q) : b'.Retains i copy := by
  rcases h with ⟨q, hd⟩ | ⟨S, leg, hleg, hc⟩
  · exact Or.inl ⟨q, hdeliveries.trans hd⟩
  · exact Or.inr ⟨S, leg, hleg, hqueues _ _ hc⟩

/-- The broker takes a delivery back: it puts a copy in a queue. -/
theorem Broker.Retains.takeBack {w : World} (hb : Base w) (h : w.broker.Retains i copy) (j : Nat) :
    (w.takeBack j).broker.Retains i copy := by
  rcases takeBack_cases w j with he | ⟨copy', q', hd', he⟩ <;> rw [he]
  · exact h
  have hqueues : ∀ q, ∀ c ∈ w.broker.queues q, c ∈ (w.broker.requeue j copy' q').queues q :=
    fun q c hc => Broker.mem_push.mpr (Or.inl hc)
  by_cases hj : i = j
  · subst hj
    rcases h with ⟨q, hd⟩ | ⟨S, leg, hleg, hc⟩
    · -- the copy of the execution itself goes back to its queue
      rw [hd] at hd'
      obtain ⟨rfl, rfl⟩ : copy = copy' ∧ q = q' := by simpa using hd'
      have hwork : q.leg = .work := hb.mail.fromWork i _ hd
      exact Or.inr ⟨q.stage, q.leg, by simp [hwork], Broker.mem_push.mpr (Or.inr ⟨rfl, rfl⟩)⟩
    · exact Or.inr ⟨S, leg, hleg, hqueues _ _ hc⟩
  · refine h.mono ?_ hqueues
    show ((w.broker.release j).push copy' q').deliveries i = _
    rw [Broker.push_deliveries, Broker.release_deliveries, if_neg hj]

end Retains

section Runs
variable {cfg : Config} {ok : Sys → Label → Prop} {s s' : Sys} {l : Label} {i : Nat} {copy : Copy}

/-- What the steps of an exclusive run leave to an execution at work. -/
theorem retains_of_step (hb : Base s.world) (hl : exclusive s l) (hstep : step cfg s l = some s')
    {d : DocId} (hi : s.AtWork i d) (hcopy : s.world.broker.handled i = some copy)
    (hdeliver : ∀ S n, l ≠ .deliver i S n) (h : s.world.broker.Retains i copy) :
    s'.world.broker.Retains i copy := by
  have hd : copy.message.body.documentId = d := by
    have hdoc := hi.1
    rw [World.documentOf, hcopy] at hdoc
    exact Option.some.inj hdoc
  cases l with
  | upload =>
    obtain ⟨-, rfl⟩ := step_upload hstep
    exact h
  | retryRequest =>
    obtain ⟨-, rfl⟩ := step_retryRequest hstep
    exact h
  | deliver j S n =>
    obtain ⟨copy', -, hcopy', rfl⟩ := step_deliver hstep
    have hji : i ≠ j := by
      rintro rfl
      exact hdeliver S n rfl
    -- nothing of the document is delivered while the execution is at work
    have hne : copy ≠ copy' := by
      rintro rfl
      exact hl copy hcopy' i (hd ▸ hi)
    rcases h with ⟨q, hq⟩ | ⟨T, leg, hleg, hc⟩
    · exact Or.inl ⟨q, by simpa [Broker.deliver, hji] using hq⟩
    · exact Or.inr ⟨T, leg, hleg, (Broker.mem_remove hcopy' hc).resolve_right hne⟩
  | run j a =>
    obtain ⟨c, k, r, w, hp, hx, rfl⟩ := step_run hstep
    rcases exec_cases hx with ⟨-, -, -, -, rfl⟩ | ⟨v, -, -, hdoes⟩
    · exact h
    refine h.mono (deliveries_of_does hdoes ?_) fun q x hq => mem_queues_of_does hdoes hq
    by_cases hji : i = j
    · subst hji
      obtain ⟨-, c', hc', hsettles⟩ := hi
      obtain rfl := Option.some.inj (hc'.symm.trans (Pool.pending_of_progs hp))
      refine Or.inr ⟨?_, ?_⟩
      · rintro o rfl
        exact hsettles trivial
      · rintro rfl
        exact hsettles trivial
    · exact Or.inl hji
  | die j =>
    obtain ⟨-, rfl⟩ := step_die hstep
    exact h.takeBack hb j
  | redeliver j =>
    obtain ⟨-, -, rfl⟩ := step_redeliver hstep
    exact h.takeBack hb j
  | expire S n =>
    obtain ⟨copy', hcopy', rfl⟩ := step_expire hstep
    show (s.world.broker.expire ⟨S, .retry⟩ n copy').Retains i copy
    rw [Broker.expire_retry]
    rcases h with hq | ⟨T, leg, hleg, hc⟩
    · exact Or.inl hq
    · rcases Broker.mem_remove hcopy' hc with hc | rfl
      · exact Or.inr ⟨T, leg, hleg, Broker.mem_push.mpr (Or.inl hc)⟩
      · exact Or.inr ⟨S, .work, by simp, Broker.mem_push.mpr (Or.inr ⟨rfl, rfl⟩)⟩

/-- What an execution at work retains. -/
theorem retains_of_atWork (hok : ∀ s l, ok s l → exclusive s l) (h : Reachable cfg ok s)
    {d : DocId} (hi : s.AtWork i d) :
    ∃ copy, s.world.broker.handled i = some copy ∧ s.world.broker.Retains i copy := by
  induction h with
  | start =>
    obtain ⟨-, c, hc, -⟩ := hi
    cases hc
  | @next s s' l hs hl hstep ih =>
    by_cases hdeliver : ∃ S n, l = .deliver i S n
    · obtain ⟨S, n, rfl⟩ := hdeliver
      obtain ⟨copy, -, -, rfl⟩ := step_deliver hstep
      have hd : (s.world.broker.deliver i ⟨S, .work⟩ n copy).deliveries i =
          some ⟨copy, ⟨S, .work⟩, true⟩ := by
        simp [Broker.deliver]
      exact ⟨copy, congrArg (Option.map Delivery.copy) hd, Or.inl ⟨_, hd⟩⟩
    · have hne : ∀ S n, l ≠ .deliver i S n := fun S n he => hdeliver ⟨S, n, he⟩
      have hbefore : s.AtWork i d := (atWork_of_step hs hstep hi).resolve_right hdeliver
      obtain ⟨copy, hcopy, hretains⟩ := ih hbefore
      exact ⟨copy, (handled_of_step hstep hne).trans hcopy,
        retains_of_step (reachable_base hs) (hok _ _ hl) hstep hbefore hcopy hne hretains⟩

/-- **Work on a document has a copy on its way.** -/
theorem live_of_atWork (hok : ∀ s l, ok s l → exclusive s l) (h : Reachable cfg ok s)
    {d : DocId} (hi : s.AtWork i d) :
    ∃ copy, s.world.broker.Live copy ∧ copy.message.body.documentId = d := by
  obtain ⟨copy, hcopy, hretains⟩ := retains_of_atWork hok h hi
  refine ⟨copy, hretains.live, ?_⟩
  have hdoc := hi.1
  rw [World.documentOf, hcopy] at hdoc
  exact Option.some.inj hdoc

end Runs
end DigitalCip
