import DigitalCip.Invariant.Mirror

/-!
# Documents do not interfere

The workers share the tables and the queues.  `documents_do_not_interfere`: take any
run of handler steps, for any number of documents and with any failures and
redeliveries, and of it only the steps for document `d`.  They can be taken on their
own, and leave the same `Ledger` and the same `Mailbox` of `d`.

The proof is a simulation.  A step for `d` is followed by the other run
(`Mirrors.step`); one for another document is not noticed (`Mirrors.elsewhere`).
-/

namespace DigitalCip
open Resumable

/-- The copy that a handler step is about. -/
def Label.copy (s : Sys) : Label → Option Copy
  | .run i _ | .die i | .redeliver i => s.world.broker.handled i
  | .deliver _ S n => (s.world.broker.queues ⟨S, .work⟩)[n]?
  | .expire S n => (s.world.broker.queues ⟨S, .retry⟩)[n]?
  | .upload _ _ _ _ | .retryRequest _ _ => none

/-- The document that a handler step is for. -/
def Label.document (s : Sys) (l : Label) : Option DocId :=
  (l.copy s).map fun copy => copy.message.body.documentId

/-- A step of a handler or of its delivery, and none of a request to the API. -/
def handlerStep (s : Sys) (l : Label) : Bool := (l.document s).isSome

/-- A handler step for document `d`. -/
def stepFor (d : DocId) (s : Sys) (l : Label) : Bool := l.document s = some d

/-- The step as `d` sees it: positions in a queue count the copies of `d` only. -/
def Label.localTo (d : DocId) (s : Sys) : Label → Label
  | .deliver i S n => .deliver i S (rankOf d (s.world.broker.queues ⟨S, .work⟩) n)
  | .expire S n => .expire S (rankOf d (s.world.broker.queues ⟨S, .retry⟩) n)
  | l => l

/-- The steps of a run that are for `d`, as `d` sees them. -/
def partFor (cfg : Config) (d : DocId) : Sys → List Label → List Label
  | _, [] => []
  | s, l :: ls =>
    let rest := ((step cfg s l).map fun s' => partFor cfg d s' ls).getD []
    if stepFor d s l then l.localTo d s :: rest else rest

/-! ## Steps for other documents -/

/-- Nothing happens to document `d`. -/
structure Elsewhere (d : DocId) (w w₁ : World) : Prop where
  row : w₁.db.documents d = w.db.documents d
  chunks : w₁.db.chunksOf d = w.db.chunksOf d
  trail : w₁.db.trail d = w.db.trail d
  processed : w₁.db.processedOf d = w.db.processedOf d
  nextChunkId : w.db.nextChunkId ≤ w₁.db.nextChunkId
  mailbox : w₁.broker.mailbox d = w.broker.mailbox d
  objects : w₁.objects = w.objects
  ids : ∀ p ∈ w.ids, p ∈ w₁.ids

namespace Elsewhere
variable {d : DocId} {w w₁ : World}

theorem refl (w : World) : Elsewhere d w w :=
  ⟨rfl, rfl, rfl, rfl, le_refl _, rfl, rfl, fun _ h => h⟩

/-- A step that only touches the broker. -/
theorem of_broker {b : Broker} (h : b.mailbox d = w.broker.mailbox d) :
    Elsewhere d w { w with broker := b } :=
  ⟨rfl, rfl, rfl, rfl, le_refl _, h, rfl, fun _ h => h⟩

theorem takeBack {i : Nat} {copy : Copy} (hi : w.broker.handled i = some copy)
    (hd : copy.message.body.documentId ≠ d) : Elsewhere d w (w.takeBack i) := by
  have hmailbox : (w.takeBack i).broker.mailbox d = w.broker.mailbox d := by
    refine mailbox_takeBack_of_ne w i fun dl hdl => ?_
    have hcopy : dl.copy = copy := by simpa [Broker.handled, hdl] using hi
    rwa [hcopy]
  rcases takeBack_cases w i with he | ⟨copy', q, -, he⟩ <;> rw [he] at hmailbox ⊢
  · exact .refl w
  · exact .of_broker hmailbox

end Elsewhere

section Does
variable {d : DocId} {w w₁ : World} {i : Nat} {c : Call} {v : c.Val} {S : Stage} {copy : Copy}

/-- **The calls of a handler stay within its document.** -/
theorem elsewhere_of_does (hd : Does i c v w w₁) (hi : w.broker.handled i = some copy)
    (hne : copy.message.body.documentId ≠ d)
    (hc : (consumption S copy.message).calls (w.db.own copy.message.body.documentId) c c) :
    Elsewhere d w w₁ := by
  obtain ⟨htwin, hcall⟩ := hc
  have hcopy : ∀ {dl}, w.broker.deliveries i = some dl → dl.copy = copy :=
    fun hdl => by simpa [Broker.handled, hdl] using hi
  have hrelease : (w.broker.release i).mailbox d = w.broker.mailbox d := by
    refine w.broker.mailbox_release_of_ne fun dl hdl => ?_
    rwa [hcopy hdl]
  cases c with
  | alreadyProcessed | fetchDocument | fetchChunksWithoutEmbedding | downloadObject | embedBatch =>
    rw [hd.2]
    exact .refl w
  | extractText =>
    obtain rfl := hd
    exact .refl _
  | retryDocument =>
    rw [hd.2]
    exact .refl w
  | updateDocument d' u =>
    obtain rfl := hd
    obtain rfl := hcall.subject rfl
    refine ⟨?_, rfl, rfl, rfl, le_refl _, rfl, rfl, fun _ h => h⟩
    exact (Db.updateDocument_documents _ u d).trans (if_neg hne.symm)
  | recordEvent e =>
    obtain rfl := hd
    have he : e.documentId ≠ d := hcall.subject rfl ▸ hne
    refine ⟨rfl, rfl, ?_, rfl, le_refl _, rfl, rfl, fun _ h => h⟩
    exact (Db.trail_recordEvent d e).trans (if_neg he)
  | recordProcessed row =>
    obtain rfl := hd
    have hrow : row.documentId ≠ d := hcall.subject rfl ▸ hne
    refine ⟨rfl, rfl, rfl, funext fun m => ?_, le_refl _, rfl, rfl, fun _ h => h⟩
    show ((w.db.recordProcessed i row).processed m).filter _ = (w.db.processed m).filter _
    rw [Db.recordProcessed_processed]
    by_cases hm : m = row.messageId
    · rw [if_pos hm, ← hm]
      cases w.db.processed m with
      | none => simp [Option.filter, hrow]
      | some => rfl
    · rw [if_neg hm]
  | insertChunks d' rows =>
    obtain rfl := hd
    obtain rfl := hcall.subject rfl
    exact ⟨rfl, Db.chunksOf_insertChunks_of_ne hne.symm rows, rfl, rfl, Nat.le_add_right _ _, rfl, rfl,
      fun _ h => h⟩
  | writeEmbeddings rows =>
    obtain rfl := hd
    refine ⟨rfl, ?_, rfl, rfl, le_refl _, rfl, rfl, fun _ h => h⟩
    have hrows : List.Forall₂ (RowTwin (w.db.own copy.message.body.documentId)) rows rows := by
      cases htwin with
      | same hfree => exact absurd rfl (hfree rows)
      | write hrows => exact hrows
    show (w.db.writeEmbeddings rows).chunksOf d = w.db.chunksOf d
    rw [chunksOf_writeEmbeddings]
    refine (List.map_congr_left fun x hx => ?_).trans (List.map_id _)
    obtain ⟨hmem, hdoc⟩ := Db.mem_chunksOf.mp hx
    refine embedRow_of_ne rows x fun row hrow hid => hne ?_
    -- a chunk with that id is of the document of the message
    obtain ⟨⟨-, -, hown⟩, -⟩ := List.forall₂_same.mp hrows row hrow
    exact (hown x hmem hid).symm.trans hdoc
  | freshId =>
    obtain ⟨-, rfl⟩ := hd
    exact ⟨rfl, rfl, rfl, rfl, le_refl _, rfl, rfl, fun _ => List.mem_cons_of_mem _⟩
  | publish exchange key m =>
    obtain rfl := hd
    have hm : m.body.documentId ≠ d := hcall.subject rfl ▸ hne
    exact .of_broker (w.broker.mailbox_publish_of_ne hm)
  | ack outcome =>
    obtain ⟨copy', -, rfl⟩ := hd
    exact .of_broker hrelease
  | nack =>
    obtain ⟨copy', q, hdl, rfl⟩ := hd
    refine .of_broker ?_
    have hne' : copy'.message.body.documentId ≠ d := by
      obtain rfl : copy' = copy := hcopy hdl
      exact hne
    exact ((w.broker.release i).mailbox_deadLetter_of_ne hne').trans hrelease
  | createDocument row stored => exact absurd rfl (hcall.not_create row stored)
  | putObject key body => exact absurd rfl (hcall.not_putObject key body)

end Does

/-! ## Two runs -/

/-- The second system is as far with document `d` as the first. -/
structure Mirrors (ρ : IdPairs) (d : DocId) (s s' : Sys) : Prop where
  world : Mirror ρ d s.world s'.world
  progs : ∀ i copy p, s.world.broker.handled i = some copy → copy.message.body.documentId = d →
    s.progs i = some p → ∃ S p', s'.progs i = some p' ∧
      (consumption S copy.message).Lockstep p p' (fun _ => Eq) ρ
  unused : ∀ i, s.Unused i → s'.Unused i

/-- A reachable system is as far as itself. -/
theorem mirrors_self {cfg : Config} {ok : Sys → Label → Prop} {s : Sys} (h : Reachable cfg ok s)
    (d : DocId) : Mirrors (s.world.db.own d) d s s := by
  have hdb := (reachable_base h).db
  refine ⟨⟨⟨rfl, ?_, rfl, rfl, ?_⟩, rfl, rfl, fun _ h => h⟩, ?_, fun _ h => h⟩
  · exact List.forall₂_same.mpr fun c hc => ⟨hdb.own hc, rfl⟩
  · refine ⟨?_, ?_⟩
    · rintro p ⟨he, hlt, -⟩
      exact ⟨hlt, he ▸ hlt⟩
    · rintro p ⟨he, -⟩ q ⟨he', -⟩
      rw [he, he']
  · intro i copy p hcopy hd hp
    obtain ⟨S, hlockstep⟩ := lockstep_own h hcopy hp
    exact ⟨S, p, hp, hd ▸ hlockstep⟩

section Steps
variable {cfg : Config} {ρ : IdPairs} {d : DocId} {s s' s₁ : Sys} {l : Label}

theorem Mirror.elsewhere {w w' w₁ : World} (h : Mirror ρ d w w') (he : Elsewhere d w w₁) :
    Mirror ρ d w₁ w' :=
  ⟨h.db.aside he.row he.chunks he.trail he.processed he.nextChunkId, h.mailbox.trans he.mailbox.symm,
    h.objects.trans he.objects.symm, fun p hp => he.ids p (h.ids p hp)⟩

/-- A step gives its execution a program, or finds it with a delivery. -/
theorem used_of_step (hstep : step cfg s l = some s₁) {i : Nat} (hi : l.execution = some i) :
    ¬ s₁.Unused i := by
  rintro ⟨hprog, hdelivery⟩
  rw [Option.isNone_iff_eq_none] at hprog hdelivery
  cases l with
  | upload j u t x =>
    obtain rfl := Option.some.inj hi
    obtain ⟨-, rfl⟩ := step_upload hstep
    rw [Pool.spawn_progs_self] at hprog
    cases hprog
  | retryRequest j d =>
    obtain rfl := Option.some.inj hi
    obtain ⟨-, rfl⟩ := step_retryRequest hstep
    rw [Pool.spawn_progs_self] at hprog
    cases hprog
  | deliver j S n =>
    obtain rfl := Option.some.inj hi
    obtain ⟨copy, -, -, rfl⟩ := step_deliver hstep
    rw [Pool.spawn_progs_self] at hprog
    cases hprog
  | run j a =>
    obtain rfl := Option.some.inj hi
    obtain ⟨c, k, r, w, -, -, rfl⟩ := step_run hstep
    rw [Pool.spawn_progs_self] at hprog
    cases hprog
  | die j =>
    obtain rfl := Option.some.inj hi
    obtain ⟨-, rfl⟩ := step_die hstep
    rw [Pool.move_progs, Pool.kill_progs_self] at hprog
    cases hprog
  | redeliver j =>
    obtain rfl := Option.some.inj hi
    obtain ⟨copy, ⟨q, hdl⟩, -⟩ := step_redeliver hstep
    have hhandled := handled_of_step hstep (j := j) (by simp)
    rw [Broker.handled, Broker.handled, hdelivery, hdl] at hhandled
    cases hhandled
  | expire => cases hi

/-- A number that has been used stays used. -/
theorem unused_of_step (hstep : step cfg s l = some s₁) {i : Nat} (h : s₁.Unused i) :
    s.Unused i := by
  have hi : l.execution ≠ some i := fun hi => used_of_step hstep hi h
  unfold Sys.Unused at h ⊢
  rwa [progs_of_step hstep hi, deliveries_of_step hstep hi] at h

/-- The copy that an execution handles after a step of its own. -/
theorem handled_of_own_step (hstep : step cfg s l = some s₁) {i : Nat} (hi : l.execution = some i)
    (hl : (l.copy s).isSome) : s₁.world.broker.handled i = l.copy s := by
  cases l with
  | upload | retryRequest => cases hl
  | expire => cases hi
  | deliver j S n =>
    obtain rfl := Option.some.inj hi
    obtain ⟨copy, -, hcopy, rfl⟩ := step_deliver hstep
    refine Eq.trans ?_ hcopy.symm
    simp [Broker.handled, Broker.deliver]
  | run j | die j | redeliver j =>
    obtain rfl := Option.some.inj hi
    exact handled_of_step hstep (by simp)

/-- **The other run does not notice a step for another document.** -/
theorem Mirrors.elsewhere {ok : Sys → Label → Prop} (h : Mirrors ρ d s s')
    (hs : Reachable cfg ok s) {d' : DocId} (hl : l.document s = some d') (hne : d' ≠ d)
    (hstep : DigitalCip.step cfg s l = some s₁) : Mirrors ρ d s₁ s' := by
  obtain ⟨copy, hcopy, rfl⟩ := Option.map_eq_some_iff.mp hl
  refine ⟨h.world.elsewhere ?_, fun i copy' p hi hd hp => ?_, fun i hi => ?_⟩
  · cases l with
    | upload | retryRequest => cases hcopy
    | run i a =>
      obtain ⟨c, k, r, w, hp, hx, rfl⟩ := step_run hstep
      obtain ⟨S, hlockstep⟩ := lockstep_own hs hcopy hp
      rcases exec_cases hx with ⟨-, -, -, -, rfl⟩ | ⟨v, -, -, hdoes⟩
      · exact .refl _
      · exact elsewhere_of_does hdoes hcopy hne hlockstep.1
    | die i =>
      obtain ⟨-, rfl⟩ := step_die hstep
      exact .takeBack hcopy hne
    | redeliver i =>
      obtain ⟨-, -, rfl⟩ := step_redeliver hstep
      exact .takeBack hcopy hne
    | deliver i S n =>
      obtain ⟨copy', hunused, hcopy', rfl⟩ := step_deliver hstep
      obtain rfl := Option.some.inj (hcopy'.symm.trans hcopy)
      exact .of_broker (Broker.mailbox_deliver_of_ne _ hcopy hne
        (Option.isNone_iff_eq_none.mp hunused.2))
    | expire S n =>
      obtain ⟨copy', hcopy', rfl⟩ := step_expire hstep
      obtain rfl := Option.some.inj (hcopy'.symm.trans hcopy)
      exact .of_broker (Broker.mailbox_expire_of_ne _ hcopy hne)
  · by_cases he : l.execution = some i
    · -- the step is for a document other than `d`
      rw [handled_of_own_step hstep he (by rw [hcopy]; rfl), hcopy] at hi
      obtain rfl := Option.some.inj hi
      exact absurd hd hne
    · rw [handled_of_step hstep fun S n hl' => he (by rw [hl']; rfl)] at hi
      rw [progs_of_step hstep he] at hp
      exact h.progs i copy' p hi hd hp
  · exact h.unused i (unused_of_step hstep hi)

/-- The executions that do not take the step, and the one that does. -/
theorem Mirrors.of_world {l' : Label} {s₁' : Sys} {σ : IdPairs} (h : Mirrors ρ d s s')
    (hstep : DigitalCip.step cfg s l = some s₁) (hstep' : DigitalCip.step cfg s' l' = some s₁')
    (hl : l'.execution = l.execution) (hσ : ρ ⊆ σ) (hw : Mirror σ d s₁.world s₁'.world)
    (hown : ∀ i copy p, l.execution = some i → s₁.world.broker.handled i = some copy →
      copy.message.body.documentId = d → s₁.progs i = some p → ∃ S p', s₁'.progs i = some p' ∧
        (consumption S copy.message).Lockstep p p' (fun _ => Eq) σ) : Mirrors σ d s₁ s₁' := by
  refine ⟨hw, fun i copy p hi hd hp => ?_, fun i hi => ?_⟩
  · by_cases he : l.execution = some i
    · exact hown i copy p he hi hd hp
    · rw [handled_of_step hstep fun S n hl' => he (by rw [hl']; rfl)] at hi
      rw [progs_of_step hstep he] at hp
      obtain ⟨S, p', hp', hlockstep⟩ := h.progs i copy p hi hd hp
      rw [← progs_of_step hstep' (hl ▸ he)] at hp'
      exact ⟨S, p', hp', hlockstep.mono hσ fun _ hq => hq⟩
  · have he : l'.execution ≠ some i := hl ▸ fun he => used_of_step hstep he hi
    have hunused := h.unused i (unused_of_step hstep hi)
    unfold Sys.Unused
    rwa [progs_of_step hstep' he, deliveries_of_step hstep' he]

/-- A call of a handler of the document. -/
theorem Mirrors.run {i : Nat} {a : Answer} (h : Mirrors ρ d s s') (hb : Base s.world)
    (hb' : Base s'.world) {copy : Copy} (hi : s.world.broker.handled i = some copy)
    (hd : copy.message.body.documentId = d) (hstep : step cfg s (.run i a) = some s₁) :
    ∃ σ s₁', step cfg s' (.run i a) = some s₁' ∧ Mirrors σ d s₁ s₁' := by
  obtain ⟨c, k, r, w, hp, hx, rfl⟩ := step_run hstep
  obtain ⟨S, p', hp', hlockstep⟩ := h.progs i copy _ hi hd hp
  cases p' with
  | ret | raise => exact hlockstep.elim
  | call c' k' =>
    obtain ⟨hcalls, hk⟩ := hlockstep
    obtain ⟨σ, r', w', hσ, hx', hr, hw⟩ := h.world.exec hb hb' hi hd hcalls hx
    have hstep' : step cfg s' (.run i a) = some ((s'.move w').spawn i (k' r')) := by
      simp only [step, hp', hx', Option.map_some]
    refine ⟨σ, _, hstep', h.of_world hstep hstep' rfl hσ hw fun j copy' p he hj _ hp₁ => ?_⟩
    obtain rfl := Option.some.inj he
    rw [handled_of_own_step hstep rfl (by rw [Label.copy, hi]; rfl), Label.copy, hi] at hj
    obtain rfl := Option.some.inj hj
    rw [Pool.spawn_progs_self] at hp₁ ⊢
    obtain rfl := Option.some.inj hp₁
    exact ⟨S, k' r', rfl, hk σ hσ r r' hr⟩

/-- The process of a handler of the document dies. -/
theorem Mirrors.die {i : Nat} (h : Mirrors ρ d s s') {copy : Copy}
    (hi : s.world.broker.handled i = some copy) (hd : copy.message.body.documentId = d)
    (hstep : step cfg s (.die i) = some s₁) :
    ∃ s₁', step cfg s' (.die i) = some s₁' ∧ Mirrors ρ d s₁ s₁' := by
  obtain ⟨hsome, rfl⟩ := step_die hstep
  obtain ⟨p, hp⟩ := Option.isSome_iff_exists.mp hsome
  obtain ⟨S, p', hp', -⟩ := h.progs i copy p hi hd hp
  have hstep' : step cfg s' (.die i) = some ((s'.kill i died).move (s'.world.takeBack i)) := by
    simp only [step, hp', Option.isSome_some, if_true]
  refine ⟨_, hstep', h.of_world hstep hstep' rfl subset_rfl (h.world.takeBack hi hd) ?_⟩
  intro j copy' p he _ _ hp₁
  obtain rfl := Option.some.inj he
  rw [Pool.move_progs, Pool.kill_progs_self] at hp₁ ⊢
  obtain rfl := Option.some.inj hp₁
  exact ⟨S, _, rfl, rfl⟩

/-- The broker takes back a delivery of a message of the document. -/
theorem Mirrors.redeliver {i : Nat} (h : Mirrors ρ d s s') {copy : Copy}
    (hi : s.world.broker.handled i = some copy) (hd : copy.message.body.documentId = d)
    (hstep : step cfg s (.redeliver i) = some s₁) :
    ∃ s₁', step cfg s' (.redeliver i) = some s₁' ∧ Mirrors ρ d s₁ s₁' := by
  obtain ⟨copy', ⟨q, hdl⟩, rfl⟩ := step_redeliver hstep
  obtain rfl : copy' = copy := by simpa [Broker.handled, hdl] using hi
  obtain ⟨copy'', hdl', -⟩ := h.world.delivery hdl hd
  have hstep' : step cfg s' (.redeliver i) = some (s'.move (s'.world.takeBack i)) := by
    simp only [step, hdl']
  refine ⟨_, hstep', h.of_world hstep hstep' rfl subset_rfl (h.world.takeBack hi hd) ?_⟩
  intro j copy₁ p he hj hd₁ hp₁
  rw [handled_of_step hstep (by simp)] at hj
  exact h.progs j copy₁ p hj hd₁ hp₁

/-- A message of the document is delivered. -/
theorem Mirrors.deliver {i n : Nat} {S : Stage} (h : Mirrors ρ d s s') {copy : Copy}
    (hn : (s.world.broker.queues ⟨S, .work⟩)[n]? = some copy)
    (hd : copy.message.body.documentId = d) (hstep : step cfg s (.deliver i S n) = some s₁) :
    ∃ n' copy' s₁', (s'.world.broker.queues ⟨S, .work⟩)[n']? = some copy' ∧
      copy'.message = copy.message ∧ rankOf d (s'.world.broker.queues ⟨S, .work⟩) n' =
        rankOf d (s.world.broker.queues ⟨S, .work⟩) n ∧
      step cfg s' (.deliver i S n') = some s₁' ∧ Mirrors ρ d s₁ s₁' := by
  obtain ⟨n', copy', hn', hm, hrank⟩ := h.world.queued hn hd
  obtain ⟨copy₀, hunused, hn₀, rfl⟩ := step_deliver hstep
  obtain rfl := Option.some.inj (hn₀.symm.trans hn)
  have hstep' : step cfg s' (.deliver i S n') = some ((s'.move { s'.world with
      broker := s'.world.broker.deliver i ⟨S, .work⟩ n' copy' }).spawn i
        (consumer cfg S copy'.message)) := by
    simp only [step, if_pos (h.unused i hunused), hn', Option.map_some]
  have hmailbox : (s'.world.broker.deliver i ⟨S, .work⟩ n' copy').mailbox d =
      (s.world.broker.deliver i ⟨S, .work⟩ n copy₀).mailbox d := by
    rw [Broker.mailbox_deliver _ hn hd, Broker.mailbox_deliver _ hn' (hm ▸ hd), h.world.mailbox,
      hrank, hm]
  refine ⟨n', copy', _, hn', hm, hrank, hstep', h.of_world hstep hstep' rfl subset_rfl
    (h.world.of_broker hmailbox) ?_⟩
  intro j copy₁ p he hj _ hp₁
  obtain rfl := Option.some.inj he
  rw [handled_of_own_step hstep rfl (by rw [Label.copy, hn]; rfl), Label.copy, hn] at hj
  obtain rfl := Option.some.inj hj
  rw [Pool.spawn_progs_self] at hp₁ ⊢
  obtain rfl := Option.some.inj hp₁
  rw [hm]
  exact ⟨S, _, rfl, consumption_lockstep cfg S copy₀.message⟩

/-- The TTL of a message of the document expires. -/
theorem Mirrors.expire {n : Nat} {S : Stage} (h : Mirrors ρ d s s') {copy : Copy}
    (hn : (s.world.broker.queues ⟨S, .retry⟩)[n]? = some copy)
    (hd : copy.message.body.documentId = d) (hstep : step cfg s (.expire S n) = some s₁) :
    ∃ n' copy' s₁', (s'.world.broker.queues ⟨S, .retry⟩)[n']? = some copy' ∧
      copy'.message = copy.message ∧ rankOf d (s'.world.broker.queues ⟨S, .retry⟩) n' =
        rankOf d (s.world.broker.queues ⟨S, .retry⟩) n ∧
      step cfg s' (.expire S n') = some s₁' ∧ Mirrors ρ d s₁ s₁' := by
  obtain ⟨n', copy', hn', hm, hrank⟩ := h.world.queued hn hd
  obtain ⟨copy₀, hn₀, rfl⟩ := step_expire hstep
  obtain rfl := Option.some.inj (hn₀.symm.trans hn)
  have hstep' : step cfg s' (.expire S n') = some (s'.move { s'.world with
      broker := s'.world.broker.expire ⟨S, .retry⟩ n' copy' }) := by
    simp only [step, hn', Option.map_some]
  have hmailbox : (s'.world.broker.expire ⟨S, .retry⟩ n' copy').mailbox d =
      (s.world.broker.expire ⟨S, .retry⟩ n copy₀).mailbox d := by
    rw [Broker.mailbox_expire _ hn hd, Broker.mailbox_expire _ hn' (hm ▸ hd), h.world.mailbox,
      hrank, hm]
  refine ⟨n', copy', _, hn', hm, hrank, hstep', h.of_world hstep hstep' rfl subset_rfl
    (h.world.of_broker hmailbox) ?_⟩
  intro j copy₁ p he
  cases he

/-- **The other run can follow a step for the document.** -/
theorem Mirrors.step (h : Mirrors ρ d s s') (hb : Base s.world) (hb' : Base s'.world)
    (hl : l.document s = some d) (hstep : DigitalCip.step cfg s l = some s₁) :
    ∃ σ l' s₁', l'.document s' = some d ∧ l'.localTo d s' = l.localTo d s ∧
      DigitalCip.step cfg s' l' = some s₁' ∧ Mirrors σ d s₁ s₁' := by
  obtain ⟨copy, hcopy, hd⟩ := Option.map_eq_some_iff.mp hl
  have hdocument : ∀ {l'} {copy' : Copy}, Label.copy s' l' = some copy' →
      copy'.message = copy.message → l'.document s' = some d := by
    intro l' copy' hcopy' hm
    rw [Label.document, hcopy', Option.map_some, hm, hd]
  cases l with
  | upload | retryRequest => cases hcopy
  | run i a =>
    obtain ⟨copy', hi', hm⟩ := h.world.handled hcopy hd
    obtain ⟨σ, s₁', hstep', hmirrors⟩ := h.run hb hb' hcopy hd hstep
    exact ⟨σ, .run i a, s₁', hdocument hi' hm, rfl, hstep', hmirrors⟩
  | die i =>
    obtain ⟨copy', hi', hm⟩ := h.world.handled hcopy hd
    obtain ⟨s₁', hstep', hmirrors⟩ := h.die hcopy hd hstep
    exact ⟨ρ, .die i, s₁', hdocument hi' hm, rfl, hstep', hmirrors⟩
  | redeliver i =>
    obtain ⟨copy', hi', hm⟩ := h.world.handled hcopy hd
    obtain ⟨s₁', hstep', hmirrors⟩ := h.redeliver hcopy hd hstep
    exact ⟨ρ, .redeliver i, s₁', hdocument hi' hm, rfl, hstep', hmirrors⟩
  | deliver i S n =>
    obtain ⟨n', copy', s₁', hn', hm, hrank, hstep', hmirrors⟩ := h.deliver hcopy hd hstep
    exact ⟨ρ, .deliver i S n', s₁', hdocument hn' hm, congrArg (Label.deliver i S) hrank, hstep',
      hmirrors⟩
  | expire S n =>
    obtain ⟨n', copy', s₁', hn', hm, hrank, hstep', hmirrors⟩ := h.expire hcopy hd hstep
    exact ⟨ρ, .expire S n', s₁', hdocument hn' hm, congrArg (Label.expire S) hrank, hstep', hmirrors⟩

end Steps

/-! ## The steps for one document -/

/-- `ls'` takes the steps of `ls` that are for `d`, and no others. -/
structure Alone (cfg : Config) (d : DocId) (s₀ : Sys) (ls ls' : List Label) (s' : Sys) : Prop where
  only : run (Reaches.guarded (step cfg) (stepFor d)) s₀ ls' = some s'
  part : partFor cfg d s₀ ls' = partFor cfg d s₀ ls

section Part
variable {cfg : Config} {d : DocId} {s s₁ : Sys} {l l' : Label} {ls : List Label}

theorem partFor_cons (hstep : step cfg s l = some s₁) :
    partFor cfg d s (l :: ls) =
      if stepFor d s l then l.localTo d s :: partFor cfg d s₁ ls else partFor cfg d s₁ ls := by
  rw [partFor, hstep]
  rfl

/-- What a document sees of a step for it determines the step. -/
theorem localTo_inj (hl : stepFor d s l = true) (hl' : stepFor d s l' = true)
    (he : l.localTo d s = l'.localTo d s) : l = l' := by
  obtain ⟨copy, hcopy, hd⟩ := Option.map_eq_some_iff.mp (of_decide_eq_true hl)
  obtain ⟨copy', hcopy', hd'⟩ := Option.map_eq_some_iff.mp (of_decide_eq_true hl')
  cases l with
  | upload | retryRequest => cases hcopy
  | deliver i S n =>
    cases l' with
    | deliver i' S' n' =>
      obtain ⟨rfl, rfl, hrank⟩ := Label.deliver.inj he
      rw [rankOf_inj hcopy hd hcopy' hd' hrank]
    | _ => cases he
  | expire S n =>
    cases l' with
    | expire S' n' =>
      obtain ⟨rfl, hrank⟩ := Label.expire.inj he
      rw [rankOf_inj hcopy hd hcopy' hd' hrank]
    | _ => cases he
  | run | die | redeliver =>
    cases l' with
    | deliver | expire => cases he
    | _ => exact he

/-- There is one such run at most. -/
theorem eq_of_partFor {ls' : List Label} {s₁' : Sys}
    (h : run (Reaches.guarded (step cfg) (stepFor d)) s ls = some s₁)
    (h' : run (Reaches.guarded (step cfg) (stepFor d)) s ls' = some s₁')
    (he : partFor cfg d s ls = partFor cfg d s ls') : ls = ls' := by
  induction ls generalizing s ls' with
  | nil =>
    cases ls' with
    | nil => rfl
    | cons l' ls' =>
      obtain ⟨t', hstep', -⟩ := Option.bind_eq_some_iff.mp h'
      obtain ⟨hl', hstep'⟩ := Reaches.guarded_eq_some.mp hstep'
      rw [partFor_cons hstep', if_pos hl'] at he
      cases he
  | cons l ls ih =>
    obtain ⟨t, hstep, hrest⟩ := Option.bind_eq_some_iff.mp h
    obtain ⟨hl, hstep⟩ := Reaches.guarded_eq_some.mp hstep
    rw [partFor_cons hstep, if_pos hl] at he
    cases ls' with
    | nil => cases he
    | cons l' ls' =>
      obtain ⟨t', hstep', hrest'⟩ := Option.bind_eq_some_iff.mp h'
      obtain ⟨hl', hstep'⟩ := Reaches.guarded_eq_some.mp hstep'
      rw [partFor_cons hstep', if_pos hl'] at he
      obtain ⟨hlocal, hpart⟩ := List.cons.inj he
      obtain rfl := localTo_inj hl hl' hlocal
      obtain rfl := Option.some.inj (hstep.symm.trans hstep')
      rw [ih hrest hrest' hpart]

/-- **The simulation**: the steps for `d` can be taken on their own. -/
theorem alone_of_mirrors {ρ : IdPairs} {s' : Sys} (h : Mirrors ρ d s s')
    (hs : Reachable cfg anyStep s) (hs' : Reachable cfg anyStep s')
    (hrun : run (Reaches.guarded (step cfg) handlerStep) s ls = some s₁) :
    ∃ σ ls' s₁', run (Reaches.guarded (step cfg) (stepFor d)) s' ls' = some s₁' ∧
      partFor cfg d s' ls' = partFor cfg d s ls ∧ Mirrors σ d s₁ s₁' := by
  induction ls generalizing ρ s s' with
  | nil =>
    obtain rfl := Option.some.inj hrun
    exact ⟨ρ, [], s', rfl, rfl, h⟩
  | cons l ls ih =>
    obtain ⟨t, hstep, hrest⟩ := Option.bind_eq_some_iff.mp hrun
    obtain ⟨hl, hstep⟩ := Reaches.guarded_eq_some.mp hstep
    obtain ⟨d', hd'⟩ := Option.isSome_iff_exists.mp hl
    have ht := hs.next trivial hstep
    by_cases hd : d' = d
    · subst hd
      obtain ⟨τ, l', t', hl', hlocal, hstep', hmirrors⟩ :=
        h.step (reachable_base hs) (reachable_base hs') hd' hstep
      obtain ⟨σ, ls', s₁', hrun', hpart, hend⟩ :=
        ih hmirrors ht (hs'.next trivial hstep') hrest
      have hfor : stepFor d' s l = true := decide_eq_true hd'
      have hfor' : stepFor d' s' l' = true := decide_eq_true hl'
      refine ⟨σ, l' :: ls', s₁', ?_, ?_, hend⟩
      · exact Option.bind_eq_some_iff.mpr ⟨t', Reaches.guarded_eq_some.mpr ⟨hfor', hstep'⟩, hrun'⟩
      · rw [partFor_cons hstep, partFor_cons hstep', if_pos hfor, if_pos hfor', hlocal, hpart]
    · have hfor : ¬ stepFor d s l = true := by
        simp [stepFor, hd', hd]
      obtain ⟨σ, ls', s₁', hrun', hpart, hend⟩ := ih (h.elsewhere hs hd' hd hstep) ht hs' hrest
      refine ⟨σ, ls', s₁', hrun', ?_, hend⟩
      rw [partFor_cons hstep, if_neg hfor, hpart]

end Part

/-- **Documents do not interfere.** -/
theorem documents_do_not_interfere {cfg : Config} {s₀ s : Sys} {ls : List Label}
    (h₀ : Reachable cfg anyStep s₀)
    (h : run (Reaches.guarded (step cfg) handlerStep) s₀ ls = some s) (d : DocId) :
    (∃ ls' s', Alone cfg d s₀ ls ls' s') ∧ ∀ ls' s', Alone cfg d s₀ ls ls' s' →
      s'.world.db.ledger d = s.world.db.ledger d ∧
        s'.world.broker.mailbox d = s.world.broker.mailbox d := by
  obtain ⟨σ, ls', s', hrun, hpart, hmirrors⟩ := alone_of_mirrors (mirrors_self h₀ d) h₀ h₀ h
  refine ⟨⟨ls', s', hrun, hpart⟩, fun ls'' s'' halone => ?_⟩
  obtain rfl := eq_of_partFor halone.only hrun (halone.part.trans hpart.symm)
  obtain rfl := Option.some.inj (halone.only.symm.trans hrun)
  exact ⟨hmirrors.world.db.ledger, hmirrors.world.mailbox⟩

/-- A second scan is uploaded. -/
def secondUpload : List Label :=
  .upload 1 (some sampleUpload) none ['t'] :: answers 1 [.id ['v'], .ok, .ok, .id ['n'], .id ['y'], .ok]

/-- Both scans are recognised at the same time; the second is divided first, and the
first one embedded. -/
def interleaved : List Label :=
  [.deliver 2 .ocr 0, .deliver 3 .ocr 0] ++ answers 3 [.ok, .ok, .ok, .ok, .ok] ++
    answers 2 [.ok, .ok, .ok, .ok, .ok, .text sampleText 1, .ok, .ok, .ok, .ok, .ok] ++
    answers 3 [.text ['b'] 1, .ok, .ok, .ok, .ok, .ok] ++
    .deliver 4 .chunk 1 :: answers 4 [.ok, .ok, .ok, .ok, .ok, .ok, .ok, .ok, .id ['d'], .ok, .ok] ++
    .deliver 5 .chunk 0 :: answers 5 [.ok, .ok, .ok, .ok, .ok, .ok, .ok, .ok, .id ['e'], .ok, .ok] ++
    .deliver 6 .embed 1 ::
      answers 6 [.ok, .ok, .ok, .ok, .ok, .vectors [sampleModel sampleText], .ok, .ok, .ok, .ok, .ok]

theorem documents_do_not_interfere_sample : ∃ s₀ s, Reachable sampleConfig anyStep s₀ ∧
    run (Reaches.guarded (step sampleConfig) handlerStep) s₀ interleaved = some s ∧
    (s.world.db.documents 1).map Document.status = some .embedded ∧
    (s.world.db.documents 2).map Document.status = some .chunked ∧
    (s.world.db.chunksOf 1).map DocumentChunk.id = [2] ∧ ∃ ls' s', Alone sampleConfig 1 s₀ interleaved ls' s' ∧
      s'.world.db.ledger 1 = s.world.db.ledger 1 ∧
      s'.world.broker.mailbox 1 = s.world.broker.mailbox 1 := by
  obtain ⟨s₀, hs₀, hrun⟩ := exists_run (step sampleConfig) .init (uploadRun ++ secondUpload)
    (fun s₀ => ((run (Reaches.guarded (step sampleConfig) handlerStep) s₀ interleaved).any fun s =>
      (s.world.db.documents 1).map Document.status = some .embedded ∧
        (s.world.db.documents 2).map Document.status = some .chunked ∧
        (s.world.db.chunksOf 1).map DocumentChunk.id = [2]) = true) (by decide)
  obtain ⟨s, hs, h₁, h₂, hids⟩ := exists_run (Reaches.guarded (step sampleConfig) handlerStep) s₀
    interleaved (fun s => (s.world.db.documents 1).map Document.status = some .embedded ∧
      (s.world.db.documents 2).map Document.status = some .chunked ∧
      (s.world.db.chunksOf 1).map DocumentChunk.id = [2]) hrun
  have hreachable : Reachable sampleConfig anyStep s₀ := .of_run hs₀
  obtain ⟨⟨ls', s', halone⟩, hsame⟩ := documents_do_not_interfere hreachable hs 1
  exact ⟨s₀, s, hreachable, hs, h₁, h₂, hids, ls', s', halone, hsame ls' s' halone⟩

end DigitalCip
