import DigitalCip.EndToEnd
import DigitalCip.Invariant.Spending
import DigitalCip.Invariant.Tracking

/-!
# Draining

Once no request arrives and no process dies, and the calls succeed, the pipeline comes to
rest, whatever has happened before: from every state every run of such steps is finite, no
longer than the load of the queues and what the executions in progress can still spend
(`draining_length_le`), and a run that cannot go on has emptied the work and the retry
queues and ended every execution (`rests_of_stuck`).

The bound counts every interleaving.  A message is paid for with the messages that follow
from it (`Stage.cost`), so it does not matter which of them is handled first.
-/

namespace DigitalCip
open Resumable

/-- No request arrives, no process dies and the broker takes nothing back; and the calls
succeed, except that nobody can settle a delivery that has been taken back before. -/
def draining (s : Sys) : Label → Prop
  | .deliver _ _ _ | .expire _ _ => True
  | .run i a => callsSucceed s (.run i a)
  | .upload _ _ _ _ | .retryRequest _ _ | .die _ | .redeliver _ => False

/-- Nothing is queued for work or for a retry, and no execution is in progress. -/
def Sys.AtRest (s : Sys) : Prop :=
  (∀ S leg, leg ≠ .dlq → s.world.broker.queues ⟨S, leg⟩ = []) ∧ ∀ i, s.pending i = none

section Running
variable {cfg : Config} {ok : Sys → Label → Prop} {s s' : Sys}

/-- Only finitely many executions have been started. -/
theorem exists_unstarted (h : Reachable cfg ok s) :
    ∃ n, ∀ i, n ≤ i → s.progs i = none ∧ s.world.broker.deliveries i = none := by
  induction h with
  | start => exact ⟨0, fun _ _ => ⟨rfl, rfl⟩⟩
  | @next s s' l hs hl hstep ih =>
    obtain ⟨n, hn⟩ := ih
    have hkeep : ∀ i, n ≤ i → l.execution ≠ some i →
        s'.progs i = none ∧ s'.world.broker.deliveries i = none := by
      intro i hi hne
      rw [progs_of_step hstep hne, deliveries_of_step hstep hne]
      exact hn i hi
    cases he : l.execution with
    | none => exact ⟨n, fun i hi => hkeep i hi (by simp [he])⟩
    | some j =>
      refine ⟨max n (j + 1), fun i hi => hkeep i (le_of_max_le_left hi) ?_⟩
      rw [he]
      intro hji
      obtain rfl := Option.some.inj hji
      have hlt := le_of_max_le_right hi
      omega

/-- What a running program spends at most, whatever the replies. -/
theorem spends_of_reachable (h : Reachable cfg ok s) {i : Nat} {p : Program Unit}
    (hp : s.progs i = some p) : Spends p 89 := by
  have hreturn : ∀ {α : Type} {n : Nat} {p : Program α}, Spends p n → n ≤ 89 →
      Spends (do let _ ← p; return ()) 89 :=
    fun h hn => spends_of_le (spends_bind (m := 0) h fun _ => trivial) hn
  have htracks : Tracks cfg ok fun _ p _ => Spends p 89 := by
    refine .of_program ?_ ?_ (consumer_spends cfg) trivial ?_
    · exact fun u t x => hreturn (Api.createDocument_spends cfg u t x) (by decide)
    · exact fun d => hreturn (Api.retryAction_spends d) (by decide)
    · exact fun c k r h => spends_of_le (h.reply trivial).2 (Nat.sub_le _ _)
  exact htracks.holds h hp

/-- The executions in progress. -/
theorem exists_inProgress (h : Reachable cfg ok s) :
    ∃ is : Finset Nat, ∀ i, i ∈ is ↔ (s.pending i).isSome = true := by
  obtain ⟨n, hn⟩ := exists_unstarted h
  refine ⟨(Finset.range n).filter fun i => (s.pending i).isSome = true, fun i => ?_⟩
  rw [Finset.mem_filter, Finset.mem_range, and_iff_right_iff_imp]
  intro hi
  by_contra hni
  rw [Pool.pending, (hn i (Nat.le_of_not_lt hni)).1] at hi
  cases hi

end Running

/-! ## Every run is finite -/

theorem holds_eq_false {w : World} {i : Nat} (h : ∀ copy, ¬ w.broker.Unsettled i copy) :
    w.holds i = false := by
  unfold World.holds
  cases hd : w.broker.deliveries i with
  | none => rfl
  | some d =>
    obtain ⟨copy, q, unsettled⟩ := d
    cases unsettled with
    | false => rfl
    | true => exact absurd ⟨q, hd⟩ (h copy)

section Bound
variable {cfg : Config} {ok : Sys → Label → Prop} {s s' : Sys} {l : Label} {n : Nat}

/-- **A step of the draining** is paid for. -/
theorem within_of_step (h : Pool.Within tariff World.holds World.load n s) (hl : draining s l)
    (hstep : step cfg s l = some s') : ∃ m < n, Pool.Within tariff World.holds World.load m s' := by
  cases l with
  | deliver i S k =>
    obtain ⟨copy, -, hcopy, rfl⟩ := step_deliver hstep
    refine h.spawn (b := S.cost) ?_ (fun j hj => ?_) ?_
    · have hheld : World.holds { s.world with
          broker := s.world.broker.deliver i ⟨S, .work⟩ k copy } i = true := by
        simp [World.holds, Broker.deliver]
      rw [hheld]
      exact consumer_affords cfg S copy.message
    · simp only [World.holds, Broker.deliver, Function.update_of_ne hj]
    · have hload := s.world.broker.load_remove hcopy
      have hweight : Queue.weight ⟨S, .work⟩ = S.cost + 1 := rfl
      show (s.world.broker.remove ⟨S, .work⟩ k).load + S.cost < s.world.broker.load
      omega
  | expire S k =>
    obtain ⟨copy, hcopy, rfl⟩ := step_expire hstep
    refine h.move (fun j => ?_) ?_
    · simp only [World.holds, Broker.expire_retry, Broker.push_deliveries, Broker.remove_deliveries]
    · have hload := s.world.broker.load_remove hcopy
      have hwork : Queue.weight ⟨S, .work⟩ = S.cost + 1 := rfl
      have hretry : Queue.weight ⟨S, .retry⟩ = S.cost + 2 := rfl
      show (s.world.broker.expire ⟨S, .retry⟩ k copy).load < s.world.broker.load
      rw [Broker.expire_retry, Broker.load_push]
      omega
  | run i a =>
    obtain ⟨c, k, r, w, hp, hx, rfl⟩ := step_run hstep
    rcases exec_cases hx with ⟨reason, rfl, rfl, -, rfl⟩ | ⟨v, rfl, -, hd⟩
    · obtain ⟨c', hc', hcloses, hfree⟩ := hl
      obtain rfl := Option.some.inj (hc'.symm.trans (Pool.pending_of_progs hp))
      have hclosing : c'.closing = true := by
        rcases hcloses with rfl | ⟨o, rfl⟩ <;> rfl
      have hmode := holds_eq_false hfree
      refine h.step hp ⟨Or.inr ⟨hclosing, hmode⟩, ?_⟩ (fun _ _ => rfl) ?_
      · rw [hmode, Bool.false_and]
      · exact Nat.lt_add_of_pos_right (c'.price_pos _)
    · exact h.step hp ⟨Or.inl ⟨v, rfl⟩, mode_of_does hd⟩ (fun j hj => mode_of_does_ne hj hd)
        (load_of_does hd)
  | upload | retryRequest | die | redeliver => exact hl.elim

/-- What the executions in progress can still spend. -/
theorem within_of_reachable (h : Reachable cfg ok s) {is : Finset Nat}
    (his : ∀ i, i ∈ is ↔ (s.pending i).isSome = true) :
    Pool.Within tariff World.holds World.load (s.world.load + 89 * is.card) s := by
  refine ⟨is, fun _ => 89, fun i c k hi => ⟨?_, ?_⟩, ?_⟩
  · rw [his, Pool.pending_of_progs hi]
    rfl
  · exact (spends_of_reachable h hi).mono (fun _ _ => True) (fun _ held c _ => c.price_le held)
      (fun _ _ _ _ _ => trivial) (fun _ _ _ _ _ _ _ _ => ⟨(), trivial, trivial⟩) (Nat.le_refl _) trivial
  · rw [Finset.sum_const_nat fun _ _ => rfl, Nat.mul_comm]

/-- **Draining ends**: from every state, whatever has happened before, there are no more
steps to take than the queued messages cost and the executions in progress can spend. -/
theorem draining_length_le (h : Reachable cfg anyStep s) :
    ∃ is : Finset Nat, (∀ i, i ∈ is ↔ (s.pending i).isSome = true) ∧
      ∀ ls s', Takes (step cfg) draining s ls s' → ls.length ≤ s.world.broker.load + 89 * is.card := by
  obtain ⟨is, his⟩ := exists_inProgress h
  refine ⟨is, his, fun ls s' hls => hls.length_le ?_ (within_of_reachable h his)⟩
  exact fun n s l s' hn hl hstep => within_of_step hn hl hstep

/-- After an upload, one message is queued and nobody is at work: there are at most 36
steps to take. -/
theorem draining_length_le_upload : ∃ s : Sys, run (step sampleConfig) .init uploadRun = some s ∧
    ∀ ls s', Takes (step sampleConfig) draining s ls s' → ls.length ≤ 36 := by
  obtain ⟨s, hs, hload, hpending⟩ := exists_run (step sampleConfig) .init uploadRun
    (fun s : Sys => s.world.broker.load = 36 ∧ s.pending 0 = none) (by decide)
  obtain ⟨is, his, hbound⟩ := draining_length_le (.of_run hs)
  have hnone : is = ∅ := by
    refine Finset.eq_empty_of_forall_notMem fun i hi => ?_
    rw [his] at hi
    by_cases h0 : i = 0
    · rw [h0, hpending] at hi
      cases hi
    · have hall : ∀ l ∈ uploadRun, l.execution = some 0 := by decide
      rw [Pool.pending, progs_of_run hs fun l hl he => h0 (Option.some.inj (he.symm.trans (hall l hl)))] at hi
      cases hi
  rw [hload, hnone] at hbound
  exact ⟨s, hs, hbound⟩

end Bound

/-! ## What is left to do can be done -/

/-- A call that downloads no object but `key`. -/
def Downloads (key : ObjectKey) (c : Call) : Prop := ∀ key', c = .downloadObject key' → key' = key

theorem Ocr.handle_downloads {env : Envelope} {key : ObjectKey}
    (hkey : env.payload.objectKey = some key) : (handle env).Calls (Downloads key) := by
  have hother : ∀ {c : Call}, (∀ key, c ≠ .downloadObject key) → (call c).Calls (Downloads key) :=
    fun hc => calls_call fun key' he => absurd he (hc key')
  refine Python.handle_calls (by simp [Downloads]) (by simp [Downloads]) (by simp [Downloads])
    (by simp [Downloads]) fun document => ?_
  rw [hkey, Option.getD_some]
  unfold recognise updateDocumentStatus Python.recordEvent Python.recordProcessed
  refine .bind (hother (by simp)) fun _ => .bind (hother (by simp)) fun _ =>
    .bind (calls_call fun key' he => (Call.downloadObject.inj he).symm) fun blob => ?_
  split
  · trivial
  refine .bind (hother (by simp)) fun text => ?_
  dsimp only
  split
  · trivial
  exact .bind (hother (by simp)) fun _ => .bind (hother (by simp)) fun _ =>
    .bind (hother (by simp)) fun _ => trivial

/-- The consumer of a message downloads no object but the one that the message names. -/
theorem consumer_downloads (cfg : Config) {S : Stage} {m : Message} {key : ObjectKey}
    (hkey : S = .ocr → m.body.payload.objectKey = some key) :
    (consumer cfg S m).Calls (Downloads key) := by
  by_cases hS : S = .ocr
  · subst hS
    refine Python.onMessage_calls ?_ (by simp [Downloads]) (Ocr.handle_downloads (hkey rfl))
      fun n => calls_call (by simp [Downloads])
    rintro c hc key' rfl
    exact hc.elim
  · refine (consumer_calls cfg S m).mono ?_
    rintro c hc key' rfl
    rcases hc with hc | (hc | hc) | ⟨T, -, hc⟩
    · exact absurd hc hS
    · exact hc.elim
    · cases hc
    · exact hc.elim

section Progress
variable {cfg : Config} {ok : Sys → Label → Prop} {s s' : Sys} {l : Label}

/-- What the program may still download is there. -/
def Present (_ : Nat) (p : Program Unit) (w : World) : Prop :=
  p.Calls fun c => ∀ key, c = .downloadObject key → (w.objects key).isSome = true

theorem Present.grow {i : Nat} {p : Program Unit} {w w' : World} (h : Present i p w)
    (hg : Grows w w') : Present i p w' := by
  refine h.mono fun c hc key he => ?_
  obtain ⟨blob, hblob⟩ := Option.isSome_iff_exists.mp (hc key he)
  exact Option.isSome_iff_exists.mpr ⟨blob, hg.objects key blob hblob⟩

theorem present_tracks (cfg : Config) (ok : Sys → Label → Prop) : Tracks cfg ok Present where
  stable s l s' i p hs _ hstep _ _ h := h.grow (grows_of_step hs hstep)
  upload s i u t x _ _ _ := by
    refine .bind ((Api.createDocument_calls cfg u t x).mono ?_) fun _ => trivial
    rintro c hc key rfl
    exact hc.elim
  retryRequest s i d _ _ _ := by
    refine .bind ((Api.retryAction_requests d).mono ?_) fun _ => trivial
    rintro c hc key rfl
    exact hc.elim
  consumer s i S n copy w _ _ hi hb hw := by
    obtain ⟨-, hstage, hready⟩ := hb.delivered hi hw
    unfold Db.Ready at hready
    rw [hstage] at hready
    cases S with
    | ocr =>
      -- an OCR message names the object of its document
      obtain ⟨row, hrow, hkey⟩ := hready
      obtain ⟨blob, hblob, -⟩ := hb.files.stored _ row hrow
      refine (consumer_downloads cfg fun _ => hkey).mono fun c hc key hc' => ?_
      rw [hc key hc']
      exact Option.isSome_iff_exists.mpr ⟨blob, hblob⟩
    | chunk | embed =>
      refine (consumer_calls cfg _ copy.message).mono ?_
      rintro c hc key rfl
      rcases hc with hc | (hc | hc) | ⟨T, -, hc⟩
      · cases hc
      · exact hc.elim
      · cases hc
      · exact hc.elim
  run s i a c k r w _ _ _ _ hg h := Present.grow (i := i) (h.2 r) hg
  died _ _ _ := trivial

/-- **Every call can be answered**, and the engine and the model can answer as they
should. -/
theorem exists_reply (ocr : Blob → Text → Text) (model : Text → Vec) {i : Nat} {c : Call} {w : World}
    (hdownload : ∀ key, c = .downloadObject key → (w.objects key).isSome = true)
    (hholds : c.closing = true → ∃ copy, w.broker.Unsettled i copy) :
    ∃ a v w', (Truth.of ocr model).Admits c a ∧ reply i c a w = some (v, w') := by
  cases c with
  | createDocument row stored =>
    cases he : Api.createTransaction w.db row stored with
    | error e => exact ⟨.ok, .error e, w, trivial, by simp [reply, he]⟩
    | ok d => exact ⟨.ok, .ok d.1, _, trivial, by simp [reply, he]; rfl⟩
  | retryDocument d document stage =>
    obtain ⟨e, he⟩ := Api.retryTransaction_raises w.db d document stage
    exact ⟨.ok, .error e, w, trivial, by simp [reply, he]⟩
  | downloadObject key =>
    obtain ⟨blob, hblob⟩ := Option.isSome_iff_exists.mp (hdownload key rfl)
    exact ⟨.ok, blob, w, trivial, by simp [reply, hblob]⟩
  | extractText blob contentType =>
    exact ⟨.text (ocr blob contentType) 1, _, w, rfl, rfl⟩
  | embedBatch texts =>
    refine ⟨.vectors (texts.map model), texts.map model, w, ?_, by simp [reply]⟩
    exact List.forall₂_map_right_iff.mpr (List.forall₂_same.mpr fun _ _ => rfl)
  | freshId =>
    obtain ⟨t, ht⟩ := exists_freshId w
    exact ⟨.id t, t, _, trivial, by simp [reply, ht]; rfl⟩
  | ack outcome =>
    obtain ⟨copy, q, hd⟩ := hholds rfl
    exact ⟨.ok, (), _, trivial, by simp [reply, hd]; rfl⟩
  | nack =>
    obtain ⟨copy, q, hd⟩ := hholds rfl
    exact ⟨.ok, (), _, trivial, by simp [reply, hd]; rfl⟩
  | _ => exact ⟨.ok, _, _, trivial, rfl⟩

/-- **An execution in progress can go on.** -/
theorem exists_step_of_pending (ocr : Blob → Text → Text) (model : Text → Vec)
    (h : Reachable cfg ok s) {i : Nat} {c : Call} (hc : s.pending i = some c) :
    ∃ a s', draining s (.run i a) ∧ truthful (Truth.of ocr model) s (.run i a) ∧
      step cfg s (.run i a) = some s' := by
  obtain ⟨k, hp⟩ := Pool.pending_eq_some.mp hc
  have hadmits : ∀ a, (Truth.of ocr model).Admits c a →
      truthful (Truth.of ocr model) s (.run i a) := by
    intro a ha c' hc'
    obtain rfl := Option.some.inj (hc.symm.trans hc')
    exact ha
  have hrun : ∀ {a r w}, exec i c a s.world = some (r, w) →
      step cfg s (.run i a) = some ((s.move w).spawn i (k r)) := by
    intro a r w hx
    simp [step, hp, hx]
  by_cases hholds : c.closing = true → ∃ copy, s.world.broker.Unsettled i copy
  · obtain ⟨a, v, w, ha, hreply⟩ := exists_reply ocr model ((present_tracks cfg ok).holds h hp).1 hholds
    refine ⟨a, _, ?_, hadmits a ha, hrun (exec_of_reply hreply)⟩
    cases a with
    | fail => cases c <;> cases hreply
    | _ => trivial
  · -- the delivery has been taken back: settling it fails
    push Not at hholds
    obtain ⟨hclosing, hfree⟩ := hholds
    have hcloses : c = .nack ∨ ∃ o, c = .ack o := by
      cases c with
      | nack => exact Or.inl rfl
      | ack o => exact Or.inr ⟨o, rfl⟩
      | _ => cases hclosing
    refine ⟨.fail "channel closed", _, ⟨c, hc, hcloses, hfree⟩, hadmits _ ?_,
      hrun (r := .error "channel closed") (w := s.world) ?_⟩
    · rcases hcloses with rfl | ⟨o, rfl⟩ <;> trivial
    · rcases hcloses with rfl | ⟨o, rfl⟩ <;> rfl

/-- A copy that is waiting can be delivered. -/
theorem exists_deliver (h : Reachable cfg ok s) {S : Stage}
    (hq : s.world.broker.queues ⟨S, .work⟩ ≠ []) :
    ∃ i s', step cfg s (.deliver i S 0) = some s' := by
  obtain ⟨n, hn⟩ := exists_unstarted h
  obtain ⟨copy, copies, hq⟩ := List.exists_cons_of_ne_nil hq
  have hunused : s.Unused n := by
    obtain ⟨hp, hd⟩ := hn n (Nat.le_refl n)
    exact ⟨by rw [hp]; rfl, by rw [hd]; rfl⟩
  exact ⟨n, _, by simp only [step, if_pos hunused, hq, List.getElem?_cons_zero, Option.map_some]; rfl⟩

/-- The TTL of a copy in a retry queue can expire. -/
theorem exists_expire (cfg : Config) {S : Stage} (hq : s.world.broker.queues ⟨S, .retry⟩ ≠ []) :
    ∃ s', step cfg s (.expire S 0) = some s' := by
  obtain ⟨copy, copies, hq⟩ := List.exists_cons_of_ne_nil hq
  exact ⟨_, by simp only [step, hq, List.getElem?_cons_zero, Option.map_some]; rfl⟩

/-- **Draining stops exactly at rest**: a step is possible as long as a message is queued
for work or for a retry, or an execution is in progress. -/
theorem stuck_iff_atRest (h : Reachable cfg anyStep s) :
    (∀ l s', draining s l → step cfg s l ≠ some s') ↔ s.AtRest := by
  constructor
  · intro hstuck
    refine ⟨fun S leg hleg => ?_, fun i => ?_⟩
    · by_contra hq
      cases leg with
      | work =>
        obtain ⟨i, s', hs'⟩ := exists_deliver h hq
        exact hstuck (.deliver i S 0) s' trivial hs'
      | retry =>
        obtain ⟨s', hs'⟩ := exists_expire cfg hq
        exact hstuck (.expire S 0) s' trivial hs'
      | dlq => exact hleg rfl
    · by_contra hp
      obtain ⟨c, hc⟩ := Option.ne_none_iff_exists'.mp hp
      obtain ⟨a, s', ha, -, hs'⟩ := exists_step_of_pending (fun _ _ => []) (fun _ => []) h hc
      exact hstuck _ s' ha hs'
  · rintro ⟨hqueues, hpending⟩ l s' hl hstep
    cases l with
    | deliver i S n =>
      obtain ⟨copy, -, hcopy, -⟩ := step_deliver hstep
      rw [hqueues S .work (by decide)] at hcopy
      cases hcopy
    | expire S n =>
      obtain ⟨copy, hcopy, -⟩ := step_expire hstep
      rw [hqueues S .retry (by decide)] at hcopy
      cases hcopy
    | run i a =>
      obtain ⟨c, k, r, w, hp, -, -⟩ := step_run hstep
      have hc := hpending i
      rw [Pool.pending_of_progs hp] at hc
      cases hc
    | upload | retryRequest | die | redeliver => exact hl

/-- **The pipeline comes to rest**, and a run that drains it ends nowhere else. -/
theorem comes_to_rest (h : Reachable cfg anyStep s) :
    (∃ ls s', Takes (step cfg) draining s ls s' ∧ s'.AtRest) ∧
      ∀ ls s', Takes (step cfg) draining s ls s' →
        ((∀ l s'', draining s' l → step cfg s' l ≠ some s'') ↔ s'.AtRest) := by
  have hend : ∀ ls s', Takes (step cfg) draining s ls s' →
      ((∀ l s'', draining s' l → step cfg s' l ≠ some s'') ↔ s'.AtRest) :=
    fun ls s' hls => stuck_iff_atRest (h.trans (hls.reaches.mono fun _ _ _ => trivial))
  obtain ⟨is, his⟩ := exists_inProgress h
  obtain ⟨ls, s', hls, hstuck⟩ := Takes.exists_stuck fun ls s' (hls : Takes (step cfg) draining s ls s') =>
    hls.length_le (fun n s l s' hn hl hstep => within_of_step hn hl hstep) (within_of_reachable h his)
  exact ⟨⟨ls, s', hls, (hend ls s' hls).mp hstuck⟩, hend⟩

/-- A document whose OCR message is delivered again while its first handler goes on. -/
theorem comes_to_rest_redelivered : ∃ s s' : Sys,
    run (step sampleConfig) .init (uploadRun ++ [.deliver 1 .ocr 0, .redeliver 1, .deliver 2 .ocr 0]) =
      some s ∧ (∃ ls, Takes (step sampleConfig) draining s ls s') ∧ s'.AtRest := by
  obtain ⟨s, hs, -⟩ := exists_run (step sampleConfig) .init
    (uploadRun ++ [.deliver 1 .ocr 0, .redeliver 1, .deliver 2 .ocr 0]) (fun _ => True) (by decide)
  obtain ⟨⟨ls, s', hls, hrest⟩, -⟩ := comes_to_rest (.of_run hs)
  exact ⟨s, s', hs, ⟨ls, hls⟩, hrest⟩

end Progress
end DigitalCip
