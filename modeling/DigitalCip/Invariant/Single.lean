import DigitalCip.Draining

/-!
# One message of a document at a time

When every call succeeds, no process dies and the broker takes no delivery back, a
consumer holds its delivery until it acks, and hands on just before (`Phase`); nothing is
retried or dead-lettered, and each message is delivered once (`Single`).  So each stage is
sent one message of a document (`publication_unique`), and at most one message of a
document is on its way (`active_unique`).
-/

namespace DigitalCip
open Resumable

/-- Every call succeeds, no process dies and the broker takes no delivery back. -/
def faultFree (_ : Sys) : Label → Prop
  | .run _ (.fail _) | .die _ | .redeliver _ => False
  | _ => True

/-! ## How far an execution has come -/

/-- Execution `i` has handed a message to `ingest`. -/
def World.posted (w : World) (i : Nat) : Bool := w.broker.accepted.any fun p => p.publisher = i

/-- How far execution `i` has come with its delivery. -/
def World.phase (w : World) (i : Nat) : Phase :=
  if w.holds i then if w.posted i then .handed else .holding else .closed

theorem posted_eq_true {w : World} {i : Nat} :
    w.posted i = true ↔ ∃ p ∈ w.broker.accepted, p.publisher = i := by
  simp [World.posted]

theorem phase_eq_holding {w : World} {i : Nat} (h : w.phase i = .holding) :
    w.holds i = true ∧ w.posted i = false := by
  unfold World.phase at h
  split at h
  · split at h
    · cases h
    · exact ⟨‹_›, by simpa using ‹¬ w.posted i = true›⟩
  · cases h

/-- A call that is allowed moves the phase. -/
theorem phase_of_does {i : Nat} {c : Call} {v : c.Val} {w w' : World} (hd : Does i c v w w')
    (hallowed : (w.phase i).allows c) : w'.phase i = (w.phase i).after c := by
  have hholds := mode_of_does hd
  have hposted : (∀ key m, c ≠ .publish .ingest key m) → w'.posted i = w.posted i := by
    intro hc
    unfold World.posted
    rw [accepted_of_does hd hc]
  have hack : ∀ o, c = .ack o → w'.phase i = .closed := by
    rintro o rfl
    unfold World.phase
    rw [hholds, Call.closing, Bool.not_true, Bool.and_false]
    rfl
  cases hphase : w.phase i with
  | holding =>
    obtain ⟨hheld, hnot⟩ := phase_eq_holding hphase
    rw [hphase] at hallowed
    rw [hheld, Bool.true_and] at hholds
    cases c with
    | nack => exact hallowed.elim
    | ack o => exact hack o rfl
    | publish exchange key m =>
      obtain rfl : exchange = .ingest := hallowed
      obtain rfl := hd
      have hnow : World.posted { w with broker := w.broker.publish i .ingest key m } i = true :=
        posted_eq_true.mpr ⟨_, w.broker.mem_publish_accepted i key m, rfl⟩
      unfold World.phase
      rw [hholds, hnow]
      rfl
    | _ =>
      unfold World.phase
      rw [hholds, hposted (by simp), hnot]
      rfl
  | handed =>
    rw [hphase] at hallowed
    obtain ⟨o, rfl⟩ := hallowed
    exact hack o rfl
  | closed =>
    rw [hphase] at hallowed
    exact hallowed.elim

section Runs
variable {cfg : Config} {ok : Sys → Label → Prop} {s s' : Sys} {l : Label}

/-- Other steps leave the phase alone. -/
theorem phase_of_step_ne (hs : Reachable cfg ok s) (hstep : step cfg s l = some s') {i : Nat}
    (hi : l.execution ≠ some i) : s'.world.phase i = s.world.phase i := by
  have hgrows := grows_of_step hs hstep
  have hapart := apart_of_step (i := i) hstep fun a hl => hi (by rw [hl]; rfl)
  have hholds : s'.world.holds i = s.world.holds i := by
    unfold World.holds
    rw [deliveries_of_step hstep hi]
  have hposted : s'.world.posted i = s.world.posted i := by
    rw [Bool.eq_iff_iff, posted_eq_true, posted_eq_true]
    constructor
    · rintro ⟨p, hp, rfl⟩
      exact ⟨p, hapart.accepted p hp rfl, rfl⟩
    · rintro ⟨p, hp, rfl⟩
      exact ⟨p, hgrows.broker.accepted p hp, rfl⟩
  unfold World.phase
  rw [hholds, hposted]

/-- A consumer goes its way. -/
def OnCourse (i : Nat) (p : Program Unit) (w : World) : Prop :=
  ∀ copy, w.broker.handled i = some copy → ∃ n, Course p n (w.phase i)

theorem onCourse_tracks (hok : ∀ s l, ok s l → faultFree s l) : Tracks cfg ok OnCourse where
  stable s l s' i p hs hl hstep haside _ h copy hi := by
    rcases haside with hne | rfl
    · rw [handled_of_step hstep fun S n hl' => hne (by rw [hl']; rfl)] at hi
      rw [phase_of_step_ne hs hstep hne]
      exact h copy hi
    · exact (hok _ _ hl).elim
  upload s i u t x _ hunused _ copy hi := by
    rw [Broker.handled, Option.isNone_iff_eq_none.mp hunused.2] at hi
    cases hi
  retryRequest s i d _ hunused _ copy hi := by
    rw [Broker.handled, Option.isNone_iff_eq_none.mp hunused.2] at hi
    cases hi
  consumer s i S n copy w _ _ huntouched _ hw copy' _ := by
    have hposted : w.posted i = false := by
      rw [Bool.eq_false_iff]
      intro hp
      obtain ⟨p, hp, hpublisher⟩ := posted_eq_true.mp hp
      exact huntouched.accepted p hp hpublisher
    have hholds : w.holds i = true := by
      rw [hw]
      simp [World.holds, Broker.deliver]
    have hphase : w.phase i = .holding := by
      unfold World.phase
      rw [hposted, hholds]
      rfl
    rw [hphase]
    exact ⟨S.cost, consumer_course cfg S copy.message⟩
  run s i a c k r w hs hl hp hx _ h copy hi := by
    rcases exec_cases hx with ⟨reason, rfl, -, -, -⟩ | ⟨v, rfl, -, hd⟩
    · exact (hok _ _ hl).elim
    rw [handled_of_does hd] at hi
    obtain ⟨n, hcourse⟩ := h copy hi
    refine ⟨n - c.price true, ?_⟩
    rw [phase_of_does hd hcourse.1.1]
    exact hcourse.2 _ _ ⟨rfl, ⟨v, rfl⟩, rfl⟩
  died s i hl := (hok _ _ hl).elim

/-- **A consumer goes its way** in a run without faults. -/
theorem course_of_reachable (hok : ∀ s l, ok s l → faultFree s l) (h : Reachable cfg ok s) {i : Nat}
    {copy : Copy} (hi : s.world.broker.handled i = some copy) :
    ∃ p n, s.progs i = some p ∧ Course p n (s.world.phase i) := by
  obtain ⟨p, hp⟩ := exists_prog_of_handled h hi
  obtain ⟨n, hcourse⟩ := (onCourse_tracks hok).holds h hp copy hi
  exact ⟨p, n, hp, hcourse⟩

/-- An execution that is at work has not handed on yet. -/
theorem not_posted_of_atWork (hok : ∀ s l, ok s l → faultFree s l) (h : Reachable cfg ok s) {i : Nat}
    {d : DocId} (hi : s.AtWork i d) : s.world.posted i = false := by
  obtain ⟨hdoc, c, hc, hsettles⟩ := hi
  obtain ⟨copy, hcopy, -⟩ := Option.map_eq_some_iff.mp hdoc
  obtain ⟨p, n, hp, hcourse⟩ := course_of_reachable hok h hcopy
  obtain ⟨k, hk⟩ := Pool.pending_eq_some.mp hc
  obtain rfl := Option.some.inj (hp.symm.trans hk)
  have hallowed : (s.world.phase i).allows c := hcourse.1.1
  cases hphase : s.world.phase i with
  | holding => exact (phase_eq_holding hphase).2
  | handed =>
    rw [hphase] at hallowed
    obtain ⟨o, rfl⟩ := hallowed
    exact absurd trivial hsettles
  | closed =>
    rw [hphase] at hallowed
    exact hallowed.elim

/-! ## Every copy is in one place -/

/-- Nothing is retried or dead-lettered, and a copy is queued once or was delivered once. -/
structure Single (b : Broker) : Prop where
  legs : ∀ S leg, leg ≠ .work → b.queues ⟨S, leg⟩ = []
  queued : ∀ S, ((b.queues ⟨S, .work⟩).map Copy.id).Nodup
  waiting : ∀ S c, c ∈ b.queues ⟨S, .work⟩ → ∀ i c', b.handled i = some c' → c'.id ≠ c.id
  handled : ∀ i j c c', b.handled i = some c → b.handled j = some c' → c.id = c'.id → i = j
  original : ∀ S c, b.Holds S c → c.id = c.origin

/-- An element that is taken out of a list without duplicates is not left in it. -/
theorem ne_of_mem_eraseIdx {α β : Type} {f : α → β} {l : List α} (h : (l.map f).Nodup) {n : Nat}
    {x y : α} (hx : l[n]? = some x) (hy : y ∈ l.eraseIdx n) : f x ≠ f y := by
  obtain ⟨hn, rfl⟩ := List.getElem?_eq_some_iff.mp hx
  rw [← List.take_append_drop n l, List.drop_eq_getElem_cons hn, List.map_append, List.map_cons,
    List.nodup_middle, ← List.map_append, ← List.eraseIdx_eq_take_drop_succ] at h
  intro he
  exact (List.nodup_cons.mp h).1 (he ▸ List.mem_map_of_mem hy)

namespace Single
variable {b : Broker}

theorem empty : Single .empty where
  legs _ _ _ := rfl
  queued _ := List.nodup_nil
  waiting _ _ hc := by cases hc
  handled _ _ _ _ hi := by cases hi
  original := by
    rintro S c (⟨leg, h⟩ | ⟨i, d, h, -, -⟩)
    · cases h
    · cases h

/-- The broker has the same copies in the same places. -/
theorem of_eq {b' : Broker} (h : Single b) (hqueues : b'.queues = b.queues)
    (hhandled : ∀ i, b'.handled i = b.handled i) (hheld : ∀ S c, b'.Holds S c → b.Holds S c) :
    Single b' where
  legs := by
    rw [hqueues]
    exact h.legs
  queued := by
    rw [hqueues]
    exact h.queued
  waiting S c hc i c' hi := by
    rw [hqueues] at hc
    rw [hhandled] at hi
    exact h.waiting S c hc i c' hi
  handled i j c c' hi hj := by
    rw [hhandled] at hi hj
    exact h.handled i j c c' hi hj
  original S c hc := h.original S c (hheld S c hc)

/-- A new message is queued once. -/
theorem publish (h : Single b) (hheld : ∀ S c, b.Holds S c → c.id < b.nextCopy) (i : Nat) (S : Stage)
    (m : Message) : Single (b.publish i .ingest ⟨S, .work⟩ m) := by
  have hqueues : ∀ q, (b.publish i .ingest ⟨S, .work⟩ m).queues q =
      if q = ⟨S, .work⟩ then b.queues ⟨S, .work⟩ ++ [⟨b.nextCopy, b.nextCopy, m⟩] else b.queues q := by
    intro q
    rw [Broker.publish_ingest]
    exact b.push_queues _ _ q
  have hhandled : ∀ j, (b.publish i .ingest ⟨S, .work⟩ m).handled j = b.handled j := by
    intro j
    unfold Broker.handled
    rw [Broker.publish_deliveries]
  have hlt : ∀ j c, b.handled j = some c → c.id < b.nextCopy := by
    intro j c hj
    obtain ⟨d, hd, rfl⟩ := Option.map_eq_some_iff.mp hj
    exact hheld d.queue.stage _ (.delivered j d hd rfl rfl)
  refine ⟨fun T leg hleg => ?_, fun T => ?_, fun T c hc j c' hj => ?_, fun j k c c' hj hk => ?_,
    fun T c hc => ?_⟩
  · rw [hqueues, if_neg (fun he => hleg (congrArg Queue.leg he)), h.legs T leg hleg]
  · rw [hqueues]
    split
    · rename_i he
      obtain rfl := congrArg Queue.stage he
      rw [List.map_append, List.map_singleton]
      refine List.nodup_append.mpr ⟨h.queued T, List.nodup_singleton _, ?_⟩
      rintro a ha _ hb rfl
      obtain ⟨c, hc, rfl⟩ := List.mem_map.mp ha
      rw [List.mem_singleton] at hb
      exact absurd hb (hheld T c (.queued .work hc)).ne
    · exact h.queued T
  · rw [hhandled] at hj
    rw [hqueues] at hc
    split at hc
    · rename_i he
      rcases List.mem_append.mp hc with hc | hc
      · exact h.waiting S c hc j c' hj
      · rw [List.mem_singleton.mp hc]
        exact (hlt j c' hj).ne
    · exact h.waiting T c hc j c' hj
  · rw [hhandled] at hj hk
    exact h.handled j k c c' hj hk
  · rw [Broker.publish_ingest] at hc
    rcases hc with ⟨leg, hc⟩ | ⟨j, d, hd, hcopy, hT⟩
    · rcases Broker.mem_push.mp hc with hc | ⟨-, rfl⟩
      · exact h.original T c (.queued leg hc)
      · rfl
    · exact h.original T c (.delivered j d hd hcopy hT)

/-- The `n`-th copy of a queue is delivered. -/
theorem deliver (h : Single b) {S : Stage} {n : Nat} {copy : Copy}
    (hcopy : (b.queues ⟨S, .work⟩)[n]? = some copy) {i : Nat}
    (hother : ∀ T c, c ∈ b.queues ⟨T, .work⟩ → c.id = copy.id → T = S) :
    Single (b.deliver i ⟨S, .work⟩ n copy) := by
  have hmem : copy ∈ b.queues ⟨S, .work⟩ := List.mem_of_getElem? hcopy
  have hqueues : ∀ q, (b.deliver i ⟨S, .work⟩ n copy).queues q =
      if q = ⟨S, .work⟩ then (b.queues ⟨S, .work⟩).eraseIdx n else b.queues q := by
    intro q
    simp only [Broker.deliver, Broker.remove, Function.update_apply]
  have hsub : ∀ q, List.Sublist ((b.deliver i ⟨S, .work⟩ n copy).queues q) (b.queues q) := by
    intro q
    rw [hqueues]
    split
    · rename_i he
      rw [he]
      exact List.eraseIdx_sublist _ _
    · exact List.Sublist.refl _
  have hhandled : ∀ j, (b.deliver i ⟨S, .work⟩ n copy).handled j =
      if j = i then some copy else b.handled j := by
    intro j
    simp only [Broker.handled, Broker.deliver, Function.update_apply]
    split <;> rfl
  -- what is left in the queues is another copy
  have hleft : ∀ T c, c ∈ (b.deliver i ⟨S, .work⟩ n copy).queues ⟨T, .work⟩ → copy.id ≠ c.id := by
    intro T c hc hid
    obtain rfl := hother T c ((hsub _).subset hc) hid.symm
    rw [hqueues, if_pos rfl] at hc
    exact ne_of_mem_eraseIdx (h.queued T) hcopy hc hid
  refine ⟨fun T leg hleg => ?_, fun T => ((hsub _).map _).nodup (h.queued T), fun T c hc j c' hj => ?_,
    fun j k c c' hj hk hid => ?_, fun T c hc => h.original T c (hc.of_deliver hcopy)⟩
  · exact List.sublist_nil.mp ((h.legs T leg hleg) ▸ hsub ⟨T, leg⟩)
  · rw [hhandled] at hj
    split at hj
    · obtain rfl := Option.some.inj hj
      exact hleft T c hc
    · exact h.waiting T c ((hsub _).subset hc) j c' hj
  · rw [hhandled] at hj hk
    split at hj <;> split at hk
    · rw [‹j = i›, ‹k = i›]
    · obtain rfl := Option.some.inj hj
      exact absurd hid.symm (h.waiting S _ hmem k c' hk)
    · obtain rfl := Option.some.inj hk
      exact absurd hid (h.waiting S _ hmem j c hj)
    · exact h.handled j k c c' hj hk hid

end Single

/-! ### In every run without faults -/

/-- A publish to `ingest` names the stage of its message. -/
def Addressed (c : Call) : Prop := ∀ key m, c = .publish .ingest key m → key = ⟨m.body.stage, .work⟩

theorem addressed_of_reachable (h : Reachable cfg ok s) {i : Nat} {p : Program Unit}
    (hp : s.progs i = some p) : p.Calls Addressed := by
  have htracks : Tracks cfg ok fun _ p _ => p.Calls Addressed := by
    refine .of_program ?_ ?_ ?_ trivial fun _ _ r h => h.2 r
    · refine fun u t x => .bind ((Api.createDocument_calls cfg u t x).mono ?_) fun _ => trivial
      rintro c hc key m rfl
      rw [hc.1, hc.2]
    · intro d
      refine .bind ?_ fun _ => trivial
      unfold Api.retryAction Api.retryDocument Api.publish
      refine .bind (calls_call (by simp [Addressed])) fun found => ?_
      split
      · trivial
      split
      · trivial
      refine .bind (calls_call (by simp [Addressed])) fun r => ?_
      split
      · trivial
      refine .bind (.bind (calls_call (by simp [Addressed])) fun _ =>
        .bind (calls_call (by simp [Addressed])) fun _ => .bind (calls_call ?_) fun _ => trivial)
        fun _ => trivial
      rintro key m he
      cases he
      rfl
    · refine fun S m => (consumer_calls cfg S m).mono ?_
      rintro c hc key m' rfl
      rcases hc with hc | (hc | hc) | ⟨T, -, rfl, hT, -⟩
      · exact hc.elim
      · exact hc.elim
      · cases hc
      · rw [hT]
  exact htracks.holds h hp

/-- In a run without faults nobody rejects a message, and what is published goes to
`ingest`. -/
theorem allowed_of_reachable (hok : ∀ s l, ok s l → faultFree s l) (h : Reachable cfg ok s) {i : Nat}
    {c : Call} {k : c.Reply → Program Unit} (hp : s.progs i = some (.call c k)) :
    c ≠ .nack ∧ ∀ exchange key m, c = .publish exchange key m → exchange = .ingest := by
  cases hi : s.world.broker.handled i with
  | none =>
    have hdocument : s.world.documentOf i = none := by rw [World.documentOf, hi]; rfl
    rcases (mayCall_of_reachable h hp).1 with ⟨-, hc⟩ | ⟨S, m, hdoc, -⟩
    · refine ⟨?_, ?_⟩
      · rintro rfl
        exact hc
      · rintro exchange key m rfl
        exact hc
    · rw [hdocument] at hdoc
      cases hdoc
  | some copy =>
    obtain ⟨p, n, hp', hcourse⟩ := course_of_reachable hok h hi
    obtain rfl := Option.some.inj (hp'.symm.trans hp)
    have hallowed : (s.world.phase i).allows c := hcourse.1.1
    refine ⟨?_, ?_⟩
    · rintro rfl
      cases hphase : s.world.phase i with
      | holding | closed =>
        rw [hphase] at hallowed
        exact hallowed
      | handed =>
        rw [hphase] at hallowed
        obtain ⟨o, ho⟩ := hallowed
        cases ho
    · rintro exchange key m rfl
      cases hphase : s.world.phase i with
      | holding =>
        rw [hphase] at hallowed
        exact hallowed
      | closed =>
        rw [hphase] at hallowed
        exact hallowed.elim
      | handed =>
        rw [hphase] at hallowed
        obtain ⟨o, ho⟩ := hallowed
        cases ho

/-- Copies with the same origin are for the same stage. -/
theorem Base.stage_of_origin {w : World} (hb : Base w) {S T : Stage} {c c' : Copy}
    (hc : w.broker.Holds S c) (hc' : w.broker.Holds T c') (ho : c.origin = c'.origin) : S = T := by
  obtain ⟨p, hp, hpc, hS, -⟩ := (hb.mail.held S c hc).source
  obtain ⟨p', hp', hpc', hT, -⟩ := (hb.mail.held T c' hc').source
  obtain rfl := hb.mail.copies p hp p' hp' (hpc.trans (ho.trans hpc'.symm))
  exact hS.symm.trans hT

/-- **Every message is delivered once** in a run without faults. -/
theorem single_of_reachable (hok : ∀ s l, ok s l → faultFree s l) (h : Reachable cfg ok s) :
    Single s.world.broker := by
  induction h with
  | start => exact .empty
  | @next s s' l hs hl hstep ih =>
    have hb := reachable_base hs
    cases l with
    | upload =>
      obtain ⟨-, rfl⟩ := step_upload hstep
      exact ih
    | retryRequest =>
      obtain ⟨-, rfl⟩ := step_retryRequest hstep
      exact ih
    | deliver i S n =>
      obtain ⟨copy, -, hcopy, rfl⟩ := step_deliver hstep
      refine ih.deliver hcopy fun T c hc hid => ?_
      have hheld : s.world.broker.Holds T c := .queued .work hc
      have hheld' : s.world.broker.Holds S copy := .queued .work (List.mem_of_getElem? hcopy)
      refine hb.stage_of_origin hheld hheld' ?_
      rw [← ih.original T c hheld, ← ih.original S copy hheld', hid]
    | run i a =>
      obtain ⟨c, k, r, w, hp, hx, rfl⟩ := step_run hstep
      show Single w.broker
      rcases exec_cases hx with ⟨reason, rfl, -, -, -⟩ | ⟨v, rfl, -, hd⟩
      · exact (hok _ _ hl).elim
      obtain ⟨hnack, hpublish⟩ := allowed_of_reachable hok hs hp
      have hsame : w.broker = s.world.broker → Single w.broker := fun he => he ▸ ih
      cases c with
      | nack => exact absurd rfl hnack
      | ack o =>
        obtain ⟨copy, -, rfl⟩ := hd
        refine ih.of_eq rfl (fun j => s.world.broker.handled_release i j) fun S c hc => hc.of_ack
      | publish exchange key m =>
        obtain rfl := hpublish _ _ _ rfl
        obtain rfl := (addressed_of_reachable hs hp).1 key m rfl
        obtain rfl := hd
        exact ih.publish (fun S c hc => (hb.mail.held S c hc).id_lt) i m.body.stage m
      | createDocument =>
        rcases hd with ⟨-, -, rfl⟩ | ⟨-, -, -, -, rfl⟩ <;> exact ih
      | alreadyProcessed | fetchDocument | fetchChunksWithoutEmbedding | retryDocument
      | downloadObject | embedBatch | freshId =>
        obtain ⟨-, rfl⟩ := hd
        exact ih
      | _ =>
        obtain rfl := hd
        exact ih
    | die | redeliver => exact (hok _ _ hl).elim
    | expire S n =>
      obtain ⟨copy, hcopy, -⟩ := step_expire hstep
      rw [ih.legs S .retry (by decide)] at hcopy
      cases hcopy

/-! ## One message of a document at a time -/

section Publications
variable {w : World} {p p' : Publication} {S : Stage}

/-- Execution `i` handles the copy of publication `q` and has handed on. -/
structure PassedOn (w : World) (q : Publication) (i : Nat) (c : Copy) : Prop where
  handled : w.broker.handled i = some c
  posted : w.posted i = true
  copy : q.copy = c.origin

/-- A message of a later stage was handed on by the execution of the stage before. -/
theorem passedOn_of_next (hb : Base w) (hp : p ∈ w.broker.accepted)
    (hS : S.next = some p.message.body.stage) :
    ∃ q ∈ w.broker.accepted, ∃ c, q.message.body.stage = S ∧
      q.message.body.documentId = p.message.body.documentId ∧ PassedOn w q p.publisher c := by
  have hsource := (hb.mail.published p hp).source
  have hhandles : ∃ env, Handles w p.publisher S env ∧
      p.message.body.documentId = env.documentId := by
    unfold Source at hsource
    cases S with
    | ocr =>
      rw [← Option.some.inj hS] at hsource
      obtain ⟨env, hh, hdoc, -⟩ := hsource
      exact ⟨env, hh, hdoc⟩
    | chunk =>
      rw [← Option.some.inj hS] at hsource
      obtain ⟨-, env, hh, hdoc⟩ := hsource
      exact ⟨env, hh, hdoc⟩
    | embed => cases hS
  obtain ⟨env, ⟨c, hc, hstems, halike⟩, hdoc⟩ := hhandles
  obtain ⟨q, hq, hcopy, hstage, halike'⟩ := hstems.source
  refine ⟨q, hq, c, hstage, ?_, hc, posted_eq_true.mpr ⟨p, hp, rfl⟩, hcopy⟩
  rw [hdoc, (halike'.trans halike).documentId]

/-- Whether stage `S` comes before stage `T`. -/
def Stage.before (S T : Stage) : Bool := S.next = some T || S.next.bind Stage.next = some T

theorem Stage.before_total (S T : Stage) : S = T ∨ S.before T = true ∨ T.before S = true := by
  cases S <;> cases T <;> decide

/-- So was the message of any stage before. -/
theorem passedOn_of_before (hb : Base w) (hp : p ∈ w.broker.accepted)
    (hS : S.before p.message.body.stage = true) :
    ∃ q ∈ w.broker.accepted, ∃ i c, q.message.body.stage = S ∧
      q.message.body.documentId = p.message.body.documentId ∧ PassedOn w q i c := by
  rcases Bool.or_eq_true_iff.mp hS with hnext | htwice
  · obtain ⟨q, hq, c, hrest⟩ := passedOn_of_next hb hp (of_decide_eq_true hnext)
    exact ⟨q, hq, p.publisher, c, hrest⟩
  · obtain ⟨T, hT, hnext⟩ := Option.bind_eq_some_iff.mp (of_decide_eq_true htwice)
    obtain ⟨q, hq, -, hqT, hqd, -⟩ := passedOn_of_next hb hp hnext
    obtain ⟨q', hq', c, hstage, hd, hpassed⟩ := passedOn_of_next hb hq (hqT ▸ hT)
    exact ⟨q', hq', q.publisher, c, hstage, hd.trans hqd, hpassed⟩

theorem Single.holds_handled {b : Broker} {i : Nat} {c : Copy} (h : b.handled i = some c) :
    ∃ S, b.Holds S c := by
  obtain ⟨d, hd, rfl⟩ := Option.map_eq_some_iff.mp h
  exact ⟨d.queue.stage, .delivered i d hd rfl rfl⟩

theorem Single.id_of_handled {b : Broker} (h : Single b) {i : Nat} {c : Copy}
    (hc : b.handled i = some c) : c.id = c.origin := by
  obtain ⟨S, hS⟩ := Single.holds_handled hc
  exact h.original S c hS

/-- **A stage is sent one message** of a document. -/
theorem publication_unique (hb : Base w) (hsingle : Single w.broker) (hp : p ∈ w.broker.accepted)
    (hp' : p' ∈ w.broker.accepted) (hS : p.message.body.stage = p'.message.body.stage)
    (hd : p.message.body.documentId = p'.message.body.documentId) : p = p' := by
  -- the stage before had one message too, and it was handled by one execution
  have hnext : ∀ S T : Stage, S.next = some T → (∀ q ∈ w.broker.accepted, ∀ q' ∈ w.broker.accepted,
      q.message.body.stage = S → q'.message.body.stage = S →
      q.message.body.documentId = q'.message.body.documentId → q = q') →
      ∀ p ∈ w.broker.accepted, ∀ p' ∈ w.broker.accepted, p.message.body.stage = T →
      p'.message.body.stage = T → p.message.body.documentId = p'.message.body.documentId → p = p' := by
    intro S T hnext hunique p hp p' hp' hT hT' hd
    obtain ⟨q, hq, c, hqS, hqd, hpassed⟩ := passedOn_of_next hb hp (hT ▸ hnext)
    obtain ⟨q', hq', c', hqS', hqd', hpassed'⟩ := passedOn_of_next hb hp' (hT' ▸ hnext)
    obtain rfl := hunique q hq q' hq' hqS hqS' (hqd.trans (hd.trans hqd'.symm))
    refine hb.mail.once p hp p' hp' (hsingle.handled _ _ c c' hpassed.handled hpassed'.handled ?_)
    rw [hsingle.id_of_handled hpassed.handled, hsingle.id_of_handled hpassed'.handled,
      ← hpassed.copy, hpassed'.copy]
  have hocr : ∀ p ∈ w.broker.accepted, ∀ p' ∈ w.broker.accepted, p.message.body.stage = .ocr →
      p'.message.body.stage = .ocr → p.message.body.documentId = p'.message.body.documentId → p = p' := by
    intro p hp p' hp' hS hS' hd
    have hsource := (hb.mail.published p hp).source
    have hsource' := (hb.mail.published p' hp').source
    unfold Source at hsource hsource'
    rw [hS] at hsource
    rw [hS'] at hsource'
    have he := hb.names.created _ hsource.2 _ hsource'.2 hd
    exact hb.mail.once p hp p' hp' (congrArg Prod.fst he)
  have hchunk := hnext .ocr .chunk rfl hocr
  cases hT : p.message.body.stage with
  | ocr => exact hocr p hp p' hp' hT (hS ▸ hT) hd
  | chunk => exact hchunk p hp p' hp' hT (hS ▸ hT) hd
  | embed => exact hnext .chunk .embed rfl hchunk p hp p' hp' hT (hS ▸ hT) hd

end Publications

/-- A copy of a message of document `d` is queued, or an execution is at work on `d` for
it. -/
def Sys.Active (s : Sys) (d : DocId) (c : Copy) : Prop :=
  c.message.body.documentId = d ∧ ((∃ S leg, c ∈ s.world.broker.queues ⟨S, leg⟩) ∨
    ∃ i, s.world.broker.handled i = some c ∧ s.AtWork i d)

/-- Whoever has handed on is not active. -/
theorem not_active_of_passedOn (hok : ∀ s l, ok s l → faultFree s l) (h : Reachable cfg ok s)
    {d : DocId} {c c' : Copy} {q : Publication} {i : Nat} (hpassed : PassedOn s.world q i c')
    (horigin : c.origin = c'.origin) : ¬ s.Active d c := by
  have hsingle := single_of_reachable hok h
  have hid := hsingle.id_of_handled hpassed.handled
  rintro ⟨-, ⟨S, leg, hc⟩ | ⟨j, hj, hwork⟩⟩
  · cases leg with
    | work =>
      refine hsingle.waiting S c hc i c' hpassed.handled ?_
      rw [hid, hsingle.original S c (.queued .work hc), horigin]
    | retry | dlq =>
      rw [hsingle.legs S _ (by decide)] at hc
      cases hc
  · have hji := hsingle.handled j i c c' hj hpassed.handled (by
      rw [hid, hsingle.id_of_handled hj, horigin])
    have hposted := hpassed.posted
    rw [← hji, not_posted_of_atWork hok h hwork] at hposted
    cases hposted

/-- **At most one message of a document is on its way** in a run without faults, queued or
being worked on. -/
theorem active_unique (hok : ∀ s l, ok s l → faultFree s l) (h : Reachable cfg ok s) {d : DocId}
    {c c' : Copy} (hc : s.Active d c) (hc' : s.Active d c') : c = c' := by
  have hb := reachable_base h
  have hsingle := single_of_reachable hok h
  have hheld : ∀ {c}, s.Active d c → ∃ S, s.world.broker.Holds S c := by
    rintro c ⟨-, ⟨S, leg, hc⟩ | ⟨i, hi, -⟩⟩
    · exact ⟨S, .queued leg hc⟩
    · exact Single.holds_handled hi
  obtain ⟨S, hS⟩ := hheld hc
  obtain ⟨T, hT⟩ := hheld hc'
  obtain ⟨p, hp, hpc, hpS, hpa⟩ := (hb.mail.held S c hS).source
  obtain ⟨p', hp', hpc', hpT, hpa'⟩ := (hb.mail.held T c' hT).source
  have hd : p.message.body.documentId = p'.message.body.documentId := by
    rw [← hpa.documentId, ← hpa'.documentId, hc.1, hc'.1]
  rcases S.before_total T with rfl | hbefore | hbefore
  · -- the same stage: the same publication
    obtain rfl := publication_unique hb hsingle hp hp' (hpS.trans hpT.symm) hd
    have hid : c.id = c'.id := by
      rw [hsingle.original _ c hS, hsingle.original _ c' hT, ← hpc, hpc']
    rcases hc.2 with ⟨T, leg, hq⟩ | ⟨i, hi, hwork⟩ <;>
      rcases hc'.2 with ⟨T', leg', hq'⟩ | ⟨j, hj, hwork'⟩
    · have hwork : ∀ {T leg} {c : Copy}, c ∈ s.world.broker.queues ⟨T, leg⟩ → leg = .work := by
        intro T leg c hq
        by_contra hleg
        rw [hsingle.legs T leg hleg] at hq
        cases hq
      obtain rfl := hwork hq
      obtain rfl := hwork hq'
      obtain rfl := hb.stage_of_origin (.queued .work hq) (.queued .work hq') (hpc.symm.trans hpc')
      exact List.inj_on_of_nodup_map (hsingle.queued T) hq hq' hid
    · cases leg with
      | work => exact absurd hid.symm (hsingle.waiting T c hq j c' hj)
      | retry | dlq =>
        rw [hsingle.legs T _ (by decide)] at hq
        cases hq
    · cases leg' with
      | work => exact absurd hid (hsingle.waiting T' c' hq' i c hi)
      | retry | dlq =>
        rw [hsingle.legs T' _ (by decide)] at hq'
        cases hq'
    · obtain rfl := hsingle.handled i j c c' hi hj hid
      exact Option.some.inj (hi.symm.trans hj)
  · obtain ⟨q, hq, i, x, hqS, hqd, hpassed⟩ := passedOn_of_before hb hp' (hpT.symm ▸ hbefore)
    obtain rfl := publication_unique hb hsingle hp hq (hpS.trans hqS.symm) (hd.trans hqd.symm)
    exact absurd hc (not_active_of_passedOn hok h hpassed (hpc.symm.trans hpassed.copy))
  · obtain ⟨q, hq, i, x, hqS, hqd, hpassed⟩ := passedOn_of_before hb hp (hpS.symm ▸ hbefore)
    obtain rfl := publication_unique hb hsingle hp' hq (hpT.trans hqS.symm) (hd.symm.trans hqd.symm)
    exact absurd hc' (not_active_of_passedOn hok h hpassed (hpc'.symm.trans hpassed.copy))

/-- **The handlers of a document never overlap**: no message of a document is delivered
while an execution is at work on it. -/
theorem exclusive_of_faultFree (hok : ∀ s l, ok s l → faultFree s l) (h : Reachable cfg ok s)
    (hl : ok s l) (hstep : step cfg s l = some s') : exclusive s l := by
  cases l with
  | deliver i S n =>
    intro copy hcopy j hwork
    obtain ⟨x, hx, hdoc⟩ := Option.map_eq_some_iff.mp hwork.1
    have hmem := List.mem_of_getElem? hcopy
    have hqueued : s.Active copy.message.body.documentId copy := ⟨rfl, Or.inl ⟨S, .work, hmem⟩⟩
    have hactive : s.Active copy.message.body.documentId x := ⟨hdoc, Or.inr ⟨j, hx, hwork⟩⟩
    obtain rfl := active_unique hok h hqueued hactive
    exact (single_of_reachable hok h).waiting S copy hmem j copy hx rfl
  | _ => trivial

end Runs
end DigitalCip
