import DigitalCip.Invariant.Authorship

/-!
# Where copies come from

A stage holds a copy while it is in one of the stage's queues or was delivered
from one.  Every operation of the broker only moves held copies around within
their stage; a publish is the only one that adds a copy.
-/

namespace DigitalCip
namespace Broker

/-- A copy in one of the stage's queues, or delivered from one to some
execution. -/
inductive Holds (b : Broker) (S : Stage) (c : Copy) : Prop where
  | queued (leg : Leg) (h : c ∈ b.queues ⟨S, leg⟩)
  | delivered (i : Nat) (d : Delivery) (h : b.deliveries i = some d) (hcopy : d.copy = c)
      (hstage : d.queue.stage = S)

section Queues
variable {b : Broker}

theorem push_queues (c : Copy) (q q' : Queue) :
    (b.push c q).queues q' = if q' = q then b.queues q ++ [c] else b.queues q' := by
  simp only [push, Function.update_apply]

theorem mem_push {c x : Copy} {q q' : Queue} :
    x ∈ (b.push c q).queues q' ↔ x ∈ b.queues q' ∨ q' = q ∧ x = c := by
  rw [push_queues]
  split
  · rename_i he
    rw [he]
    simp
  · rename_i he
    simp [he]

theorem of_mem_remove {x : Copy} {q q' : Queue} {n : Nat} (h : x ∈ (b.remove q n).queues q') :
    x ∈ b.queues q' := by
  simp only [remove, Function.update_apply] at h
  split at h
  · rename_i he
    exact he ▸ List.mem_of_mem_eraseIdx h
  · exact h

/-- Taking the `n`-th copy out of a queue leaves every other copy where it is. -/
theorem mem_remove {x c : Copy} {q q' : Queue} {n : Nat} (hc : (b.queues q)[n]? = some c)
    (h : x ∈ b.queues q') : x ∈ (b.remove q n).queues q' ∨ x = c := by
  by_cases hq : q' = q
  · subst hq
    obtain ⟨j, hj⟩ := List.mem_iff_getElem?.mp h
    by_cases hjn : j = n
    · subst hjn
      exact Or.inr (Option.some.inj (hj.symm.trans hc))
    · left
      simp only [remove, Function.update_self]
      exact List.mem_eraseIdx_iff_getElem?.mpr ⟨j, hjn, hj⟩
  · left
    simpa [remove, hq] using h

/-- A publish takes nothing out of a queue. -/
theorem mem_publish {x : Copy} {q : Queue} (i : Nat) (exchange : Exchange) (key : RoutingKey)
    (m : Message) (h : x ∈ b.queues q) : x ∈ (b.publish i exchange key m).queues q := by
  unfold publish
  have hlog : x ∈ (b.log i exchange m).queues q := by
    unfold log
    split <;> exact h
  generalize b.originOf i exchange = o
  generalize b.log i exchange m = b₁ at hlog
  induction route exchange key generalizing b₁ with
  | nil => exact hlog
  | cons q' qs ih => exact ih _ (mem_push.mpr (Or.inl hlog))

/-- A publish adds copies of its message to the queues its key is routed to. -/
theorem of_mem_publish {x : Copy} {q : Queue} {i : Nat} {exchange : Exchange} {key : RoutingKey}
    {m : Message} (h : x ∈ (b.publish i exchange key m).queues q) :
    x ∈ b.queues q ∨ q ∈ route exchange key ∧ x.message = m := by
  unfold publish at h
  have hlog : ∀ y ∈ (b.log i exchange m).queues q, y ∈ b.queues q := by
    unfold log
    split <;> exact fun _ hy => hy
  generalize b.originOf i exchange = o at h
  generalize b.log i exchange m = b₁ at hlog h
  generalize route exchange key = qs at h ⊢
  -- what is there was there before, or is the message in one of the queues so far
  suffices hall : ∀ ps : List Queue, (∀ y ∈ b₁.queues q, y ∈ b.queues q ∨ q ∈ ps ∧ y.message = m) →
      x ∈ b.queues q ∨ q ∈ ps ++ qs ∧ x.message = m from hall [] fun y hy => Or.inl (hlog y hy)
  clear hlog
  induction qs generalizing b₁ with
  | nil =>
    intro ps hps
    rw [List.append_nil]
    exact hps x h
  | cons q' qs ih =>
    intro ps hps
    rw [List.append_cons]
    refine ih (b₁.enqueue o m q') h (ps ++ [q']) fun y hy => ?_
    rcases mem_push.mp hy with hold | ⟨rfl, rfl⟩
    · exact (hps y hold).imp_right fun hy => ⟨List.mem_append_left [q'] hy.1, hy.2⟩
    · exact Or.inr ⟨List.mem_append_right ps List.mem_cons_self, rfl⟩

theorem mem_deadLetter {x copy : Copy} {q q' : Queue} (h : x ∈ b.queues q) :
    x ∈ (b.deadLetter copy q').queues q := by
  unfold deadLetter
  induction deadLetterTargets q' generalizing b with
  | nil => exact h
  | cons q₁ qs ih => exact ih (mem_push.mpr (Or.inl h))

@[simp] theorem push_deliveries (c : Copy) (q : Queue) : (b.push c q).deliveries = b.deliveries :=
  rfl

@[simp] theorem remove_deliveries (q : Queue) (n : Nat) :
    (b.remove q n).deliveries = b.deliveries := rfl

@[simp] theorem release_queues (i : Nat) : (b.release i).queues = b.queues := rfl

theorem release_deliveries (i j : Nat) :
    (b.release i).deliveries j =
      if j = i then (b.deliveries i).map fun d => { d with unsettled := false }
      else b.deliveries j := by
  simp only [release, Function.update_apply]

end Queues

/-! ## Held copies after an operation -/

section Holds
variable {b : Broker} {S : Stage} {c x : Copy}

theorem Holds.of_push {q : Queue} (h : (b.push c q).Holds S x) :
    b.Holds S x ∨ S = q.stage ∧ x = c := by
  rcases h with ⟨leg, hx⟩ | ⟨i, d, hd, hcopy, hstage⟩
  · rcases mem_push.mp hx with hx | ⟨hq, rfl⟩
    · exact Or.inl (.queued leg hx)
    · exact Or.inr ⟨congrArg Queue.stage hq, rfl⟩
  · exact Or.inl (.delivered i d hd hcopy hstage)

theorem Holds.of_remove {q : Queue} {n : Nat} (h : (b.remove q n).Holds S x) : b.Holds S x := by
  rcases h with ⟨leg, hx⟩ | ⟨i, d, hd, hcopy, hstage⟩
  · exact .queued leg (of_mem_remove hx)
  · exact .delivered i d hd hcopy hstage

theorem Holds.of_release {i : Nat} (h : (b.release i).Holds S x) : b.Holds S x := by
  rcases h with ⟨leg, hx⟩ | ⟨j, d, hd, hcopy, hstage⟩
  · exact .queued leg hx
  · rw [release_deliveries] at hd
    split at hd
    · obtain ⟨d₀, hd₀, rfl⟩ := Option.map_eq_some_iff.mp hd
      exact .delivered i d₀ hd₀ hcopy hstage
    · exact .delivered j d hd hcopy hstage

theorem Holds.of_ack {i : Nat} {o : Outcome} (h : (b.ack i c o).Holds S x) : b.Holds S x := by
  refine Holds.of_release (i := i) ?_
  rcases h with ⟨leg, hx⟩ | ⟨j, d, hd, hcopy, hstage⟩
  · exact .queued leg hx
  · exact .delivered j d hd hcopy hstage

/-- A rejected copy stays with its stage. -/
theorem Holds.of_nack {i : Nat} {T : Stage} {u : Bool} (hd : b.deliveries i = some ⟨c, ⟨T, .work⟩, u⟩)
    (h : (b.nack i c ⟨T, .work⟩).Holds S x) : b.Holds S x := by
  rw [nack_work] at h
  rcases h.of_push with h | ⟨rfl, rfl⟩
  · exact h.of_release
  · exact .delivered i _ hd rfl rfl

theorem Holds.of_requeue {i : Nat} {q : Queue} {u : Bool} (hd : b.deliveries i = some ⟨c, q, u⟩)
    (h : (b.requeue i c q).Holds S x) : b.Holds S x := by
  rcases h.of_push with h | ⟨rfl, rfl⟩
  · exact h.of_release
  · exact .delivered i _ hd rfl rfl

theorem Holds.of_expire {T : Stage} {n : Nat} (hc : (b.queues ⟨T, .retry⟩)[n]? = some c)
    (h : (b.expire ⟨T, .retry⟩ n c).Holds S x) : b.Holds S x := by
  rw [expire_retry] at h
  rcases h.of_push with h | ⟨rfl, rfl⟩
  · exact h.of_remove
  · exact .queued .retry (List.mem_of_getElem? hc)

theorem Holds.of_deliver {i : Nat} {q : Queue} {n : Nat} (hc : (b.queues q)[n]? = some c)
    (h : (b.deliver i q n c).Holds S x) : b.Holds S x := by
  rcases h with ⟨leg, hx⟩ | ⟨j, d, hd, hcopy, hstage⟩
  · exact .queued leg (of_mem_remove hx)
  · simp only [deliver, Function.update_apply] at hd
    split at hd
    · obtain rfl := Option.some.inj hd
      subst hcopy hstage
      exact .queued q.leg (List.mem_of_getElem? hc)
    · exact .delivered j d hd hcopy hstage

theorem Holds.of_enqueue {origin : Nat} {m : Message} {q : Queue}
    (h : (b.enqueue origin m q).Holds S x) :
    b.Holds S x ∨ S = q.stage ∧ x = ⟨b.nextCopy, origin, m⟩ := by
  refine Holds.of_push (q := q) ?_
  rcases h with ⟨leg, hx⟩ | ⟨j, d, hd, hcopy, hstage⟩
  · exact .queued leg hx
  · exact .delivered j d hd hcopy hstage

theorem Holds.of_publish_ingest {i : Nat} {T : Stage} {m : Message}
    (h : (b.publish i .ingest ⟨T, .work⟩ m).Holds S x) :
    b.Holds S x ∨ S = T ∧ x = ⟨b.nextCopy, b.nextCopy, m⟩ := by
  rw [publish_ingest] at h
  refine Holds.of_enqueue (q := ⟨T, .work⟩) ?_
  rcases h with ⟨leg, hx⟩ | ⟨j, d, hd, hcopy, hstage⟩
  · exact .queued leg hx
  · exact .delivered j d hd hcopy hstage

/-- A publish adds copies of its message. -/
theorem Holds.of_publish {i : Nat} {exchange : Exchange} {key : RoutingKey} {m : Message}
    (h : (b.publish i exchange key m).Holds S x) : b.Holds S x ∨ x.message = m := by
  unfold publish at h
  generalize b.originOf i exchange = origin at h
  have hlog : ∀ S' x', (b.log i exchange m).Holds S' x' → b.Holds S' x' ∨ x'.message = m := by
    intro S' x' hx
    left
    unfold log at hx
    split at hx
    · rcases hx with ⟨leg, hx⟩ | ⟨j, d, hd, hcopy, hstage⟩
      · exact .queued leg hx
      · exact .delivered j d hd hcopy hstage
    · exact hx
  generalize b.log i exchange m = b₁ at h hlog
  -- one copy for each queue the key is routed to
  generalize route exchange key = qs at h
  induction qs generalizing b₁ with
  | nil => exact hlog S x h
  | cons q qs ih =>
    refine ih (b₁.enqueue origin m q) (fun S' x' hx => ?_) h
    rcases hx.of_enqueue with hold | ⟨-, rfl⟩
    · exact hlog S' x' hold
    · exact Or.inr rfl

end Holds
end Broker
end DigitalCip
