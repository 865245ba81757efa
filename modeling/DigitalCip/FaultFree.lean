import DigitalCip.Invariant.Single

/-!
# Runs without faults

Nothing in the code keeps two workers off the same document, and yet in a run without
faults the handlers of a document take turns, whatever the order of the steps
(`handlers_take_turns`): the next message is published at the end of a handler, and every
message is delivered once.

An upload that creates a document publishes its OCR message before it ends.  So once no
more requests arrive, the pipeline comes to rest and every document is ingested
(`everything_ingested`).
-/

namespace DigitalCip
open Resumable

section Runs
variable {cfg : Config} {ok : Sys → Label → Prop} {s s' : Sys} {l : Label}

/-- **The handlers of a document take turns** in a run without faults: at most one of its
messages is queued or being worked on, and at most one execution is at work on it. -/
theorem handlers_take_turns (h : Reachable cfg faultFree s) (d : DocId) :
    (∀ c c', s.Active d c → s.Active d c' → c = c') ∧
      ∀ i j, s.AtWork i d → s.AtWork j d → i = j := by
  refine ⟨fun c c' => active_unique (fun _ _ hl => hl) h, fun i j hi hj => ?_⟩
  obtain ⟨c, hc, hdoc⟩ := Option.map_eq_some_iff.mp hi.1
  obtain ⟨c', hc', hdoc'⟩ := Option.map_eq_some_iff.mp hj.1
  have hsame : c = c' :=
    active_unique (fun _ _ hl => hl) h ⟨hdoc, Or.inr ⟨i, hc, hi⟩⟩ ⟨hdoc', Or.inr ⟨j, hc', hj⟩⟩
  exact (single_of_reachable (fun _ _ hl => hl) h).handled i j c c' hc hc' (congrArg Copy.id hsame)

/-- Whether a step is without faults, and the engine reads the sample text. -/
def smoothStep (_ : Sys) : Label → Bool
  | .run _ (.fail _) | .run _ (.vectors _) | .die _ | .redeliver _ => false
  | .run _ (.text t _) => t = sampleText
  | _ => true

theorem faultFree_of_smoothStep (s : Sys) (l : Label) (h : smoothStep s l = true) : faultFree s l := by
  cases l with
  | run i a =>
    cases a with
    | fail => cases h
    | _ => trivial
  | die | redeliver => cases h
  | _ => trivial

/-- The first call of a worker. -/
def Call.starts : Call → Bool
  | .alreadyProcessed _ => true
  | _ => false

/-- The chunk message of document 1 is delivered before execution 1 has acked the OCR
message: only execution 2 is at work. -/
theorem handlers_take_turns_handOff : ∃ s : Sys, s.AtWork 2 1 ∧ (s.pending 1).isSome = true ∧
    ∀ i, s.AtWork i 1 → i = 2 := by
  obtain ⟨s, hs, hdoc, hpending, h1⟩ := exists_run (Reaches.guarded (step sampleConfig) smoothStep)
    .init (uploadRun ++ (ocrRun 1).dropLast ++ [.deliver 2 .chunk 0])
    (fun s : Sys => s.world.documentOf 2 = some 1 ∧ (s.pending 2).any Call.starts = true ∧
      (s.pending 1).isSome = true) (by decide)
  obtain ⟨c, hc, hstarts⟩ := (Option.any_eq_true _ _).mp hpending
  have hwork : s.AtWork 2 1 := by
    refine ⟨hdoc, c, hc, fun hsettles => ?_⟩
    cases c with
    | alreadyProcessed => exact hsettles
    | _ => cases hstarts
  exact ⟨s, hwork, h1, fun i hi =>
    (handlers_take_turns (.of_guarded faultFree_of_smoothStep hs) 1).2 i 2 hi hwork⟩

/-- After a redelivery two executions are at work on one document. -/
example : (run (step sampleConfig) .init
    (uploadRun ++ [.deliver 1 .ocr 0, .redeliver 1, .deliver 2 .ocr 0])).any (fun s =>
      (s.pending 1).any Call.starts && (s.pending 2).any Call.starts) = true := by
  decide

/-! ## Every created document gets its first message -/

/-- The document whose OCR message is owed after a call. -/
def Call.owes : (c : Call) → c.Reply → Option DocId → Option DocId
  | .createDocument _ _, .ok (.ok d), _ => some d
  | .publish .ingest _ m, .ok _, owed => if owed = some m.body.documentId then none else owed
  | _, _, owed => owed

/-- What an upload still owes.  Nobody creates a second document who owes a message. -/
def uploads : Automaton (Option DocId) Call Call.Reply where
  moves c owed r owed' := (∃ v, r = .ok v) ∧ owed' = c.owes r owed
  owed owed c := (∃ row stored, c = .createDocument row stored) → owed = none

/-- The program owes nothing when it ends. -/
abbrev Discharges {α : Type} (p : Program α) (owed : Option DocId) : Prop :=
  uploads.Accepts p (fun _ owed => owed = none) (fun _ owed => owed = none) owed

/-- A call that creates no document. -/
def Creates (c : Call) : Prop := ∃ row stored, c = .createDocument row stored

theorem owes_eq {c : Call} (hc : ¬ Creates c) {owed : Option DocId}
    (howed : (∀ key m, c ≠ .publish .ingest key m) ∨ owed = none) (r : c.Reply) :
    c.owes r owed = owed := by
  cases c with
  | createDocument row stored => exact absurd ⟨row, stored, rfl⟩ hc
  | publish exchange key m =>
    cases exchange with
    | ingest =>
      obtain rfl := howed.resolve_left fun h => h key m rfl
      cases r <;> rfl
    | retry | dlx => rfl
  | _ => rfl

/-- A program that creates no document owes nothing. -/
theorem discharges_of_calls {α : Type} {p : Program α} (hp : p.Calls fun c => ¬ Creates c) :
    Discharges p none := by
  induction p with
  | ret | raise => rfl
  | call c k ih =>
    refine ⟨fun _ => rfl, ?_⟩
    rintro r _ ⟨-, rfl⟩
    rw [owes_eq hp.1 (Or.inr rfl)]
    exact ih r (hp.2 r)

/-- A call in Ruby that creates no document. -/
theorem uploads_call {α : Type} {c : Call} {k : c.Val → Program α} {owed : Option DocId}
    {Q : α → Option DocId → Prop} {E : Exc → Option DocId → Prop} (hc : ¬ Creates c)
    (hk : ∀ v, uploads.Accepts (k v) Q E (c.owes (.ok v) owed)) :
    uploads.Accepts (call c >>= k) Q E owed := by
  rw [Automaton.accepts_bind]
  refine Automaton.accepts_perform (fun h => absurd h hc) ?_
  rintro r _ ⟨⟨v, rfl⟩, rfl⟩
  exact hk v

/-- **An upload publishes the message of the document it creates.** -/
theorem Api.createDocument_discharges (cfg : Config) (upload : Option Upload) (title : Option Text)
    (tenantId : Text) : Discharges (createDocument cfg upload title tenantId) none := by
  have hno : ∀ {c : Call}, (∀ row stored, c ≠ .createDocument row stored) → ¬ Creates c :=
    fun hc ⟨row, stored, he⟩ => hc row stored he
  unfold createDocument
  split
  · rfl
  split
  · rfl
  refine uploads_call (hno (by simp)) fun _ => uploads_call (hno (by simp)) fun _ => ?_
  rw [Automaton.accepts_bind]
  refine Automaton.accepts_perform (fun _ => rfl) ?_
  rintro r _ ⟨⟨v, rfl⟩, rfl⟩
  match v with
  | .error (.recordInvalid _) => rfl
  | .error (.argumentError _) => rfl
  | .ok d =>
    show uploads.Accepts (publish _ _ _ _ _ >>= _) _ _ (some d)
    unfold publish
    rw [Automaton.accepts_bind]
    refine uploads_call (hno (by simp)) fun _ => uploads_call (hno (by simp)) fun _ =>
      uploads_call (hno (by simp)) fun _ => ?_
    simp [Call.owes, publishedMessage, buildEnvelope]

theorem Api.retryAction_discharges (documentId : DocId) : Discharges (retryAction documentId) none :=
  discharges_of_calls ((retryAction_not_create documentId).mono
    fun _ hc ⟨row, stored, he⟩ => hc row stored he)

theorem consumer_discharges (cfg : Config) (S : Stage) (m : Message) :
    Discharges (consumer cfg S m) none := by
  refine discharges_of_calls ((consumer_calls cfg S m).mono ?_)
  rintro c hc ⟨row, stored, rfl⟩
  rcases hc with hc | (hc | hc) | ⟨T, -, hc⟩
  · exact hc
  · exact hc
  · cases hc
  · exact hc

/-- The OCR message of document `d`, which execution `i` has created, is published. -/
def World.Sent (w : World) (i : Nat) (d : DocId) : Prop :=
  ∃ p ∈ w.broker.accepted, p.publisher = i ∧ p.message.body.documentId = d

/-- What execution `i` has left to run pays for the documents it has created. -/
def Honours (w : World) (i : Nat) (p : Program Unit) : Prop :=
  ∃ owed, Discharges p owed ∧ ∀ d, (i, d) ∈ w.created → w.Sent i d ∨ owed = some d

/-- A call of the execution itself. -/
theorem Honours.does {i : Nat} {c : Call} {k : c.Reply → Program Unit} {v : c.Val} {w w' : World}
    (h : Honours w i (.call c k)) (hd : Does i c v w w') (hg : Grows w w') :
    Honours w' i (k (.ok v)) := by
  obtain ⟨owed, hp, hcreated⟩ := h
  refine ⟨c.owes (.ok v) owed, hp.2 _ _ ⟨⟨v, rfl⟩, rfl⟩, fun d hmem => ?_⟩
  have hsent : w.Sent i d → w'.Sent i d := by
    rintro ⟨q, hq, hrest⟩
    exact ⟨q, hg.broker.accepted q hq, hrest⟩
  by_cases hc : Creates c
  · obtain rfl := hp.1 hc
    obtain ⟨row, stored, rfl⟩ := hc
    rcases hd with ⟨e, rfl, rfl⟩ | ⟨d', db, rfl, -, rfl⟩
    · exact hcreated d hmem
    · rcases List.mem_cons.mp hmem with he | hold
      · obtain ⟨-, rfl⟩ := Prod.mk.inj he
        exact Or.inr rfl
      · exact Or.inl (hsent ((hcreated d hold).resolve_right (by simp)))
  · have hsame : w'.created = w.created := by
      cases c with
      | createDocument row stored => exact absurd ⟨row, stored, rfl⟩ hc
      | alreadyProcessed | fetchDocument | fetchChunksWithoutEmbedding | retryDocument
      | downloadObject | embedBatch | freshId =>
        obtain ⟨-, rfl⟩ := hd
        rfl
      | ack =>
        obtain ⟨-, -, rfl⟩ := hd
        rfl
      | nack =>
        obtain ⟨-, -, -, rfl⟩ := hd
        rfl
      | _ =>
        obtain rfl := hd
        rfl
    rw [hsame] at hmem
    by_cases hpublish : ∀ key m, c ≠ .publish .ingest key m
    · have howes : c.owes (.ok v) owed = owed := owes_eq hc (Or.inl hpublish) _
      exact (hcreated d hmem).imp hsent howes.trans
    · obtain ⟨key, m, rfl⟩ : ∃ key m, c = .publish .ingest key m := by
        by_contra hno
        exact hpublish fun key m he => hno ⟨key, m, he⟩
      rcases hcreated d hmem with hold | rfl
      · exact Or.inl (hsent hold)
      · by_cases hm : m.body.documentId = d
        · obtain rfl := hd
          exact Or.inl ⟨_, w.broker.mem_publish_accepted i key m, rfl, hm⟩
        · right
          simp [Call.owes, Ne.symm hm]

/-- What somebody else's step does not touch. -/
theorem Honours.stable {i : Nat} {p : Program Unit} {w w' : World} (h : Honours w i p)
    (hg : Grows w w') (ha : Apart i w w') : Honours w' i p := by
  obtain ⟨owed, hdischarges, hcreated⟩ := h
  refine ⟨owed, hdischarges, fun d hd => (hcreated d (ha.created d hd)).imp_left ?_⟩
  rintro ⟨q, hq, hrest⟩
  exact ⟨q, hg.broker.accepted q hq, hrest⟩

/-- **What an upload has created, it is about to send.** -/
theorem honours_tracks (hok : ∀ s l, ok s l → faultFree s l) :
    Tracks cfg ok fun i p w => Honours w i p where
  stable s l s' i p hs _ hstep haside _ h :=
    h.stable (grows_of_step hs hstep) (apart_of_step hstep (ne_run_of_aside haside))
  upload s i u t x _ _ hi := by
    refine ⟨none, ?_, fun d hd => absurd hd (hi.created d)⟩
    rw [Discharges, Automaton.accepts_bind]
    exact (Api.createDocument_discharges cfg u t x).mono (fun _ _ h => h) fun _ _ h => h
  retryRequest s i d _ _ hi := by
    refine ⟨none, ?_, fun d hd => absurd hd (hi.created d)⟩
    rw [Discharges, Automaton.accepts_bind]
    exact (Api.retryAction_discharges d).mono (fun _ _ h => h) fun _ _ h => h
  consumer s i S n copy w _ _ hi _ _ :=
    ⟨none, consumer_discharges cfg S copy.message, fun d hd => absurd hd (hi.created d)⟩
  run s i a c k r w _ hl _ hx hg h := by
    rcases exec_cases hx with ⟨reason, rfl, -, -, -⟩ | ⟨v, rfl, -, hd⟩
    · exact (hok _ _ hl).elim
    · exact h.does hd hg
  died s i hl := (hok _ _ hl).elim

/-- Every document was created by some execution. -/
theorem created_of_reachable (h : Reachable cfg ok s) {d : DocId} {row : Document}
    (hrow : s.world.db.documents d = some row) : ∃ i, (i, d) ∈ s.world.created := by
  induction h generalizing row with
  | start => cases hrow
  | @next s s' l hs hl hstep ih =>
    have hg := grows_of_step hs hstep
    have hold : ∀ {row}, s.world.db.documents d = some row → ∃ i, (i, d) ∈ s'.world.created := by
      intro row hrow
      obtain ⟨i, hi⟩ := ih hrow
      exact ⟨i, hg.created _ hi⟩
    rcases world_of_step hstep with he | hmove | ⟨i, a, c, k, v, -, -, hreply⟩
    · exact hold (he ▸ hrow)
    · exact hold (db_of_envMove hmove ▸ hrow)
    have hd := does_of_reply hreply
    generalize s'.world = w' at hd hrow hold
    by_cases hc : Creates c
    · obtain ⟨row', stored, rfl⟩ := hc
      rcases hd with ⟨-, -, rfl⟩ | ⟨d', db, -, htx, rfl⟩
      · exact hold hrow
      · obtain ⟨-, rfl, rfl⟩ := Api.createTransaction_ok htx
        rw [Db.recordEvent_documents, Db.insertDocument_documents] at hrow
        split at hrow
        · rename_i he
          exact ⟨i, he ▸ List.mem_cons_self⟩
        · exact hold hrow
    · rcases of_documents_of_does hd hrow with hbefore | ⟨u, row', rfl, hbefore, -⟩ | ⟨stored, rfl⟩
      · exact hold hbefore
      · exact hold hbefore
      · exact absurd ⟨_, _, rfl⟩ hc

/-! ## Total correctness -/

/-- The steps of a run without faults, in which the engine reads `ocr blob contentType` in
an object and the model gives a text the vector `model text`. -/
def smoothRun (ocr : Blob → Text → Text) (model : Text → Vec) (s : Sys) (l : Label) : Prop :=
  faultFree s l ∧ truthful (Truth.of ocr model) s l

variable {ocr : Blob → Text → Text} {model : Text → Vec}

/-- A run without faults is successful. -/
theorem successful_of_smooth (h : Reachable cfg (smoothRun ocr model) s) :
    Reachable cfg (successfulRun (Truth.of ocr model)) s := by
  refine h.imp fun s l s' hs _ hl hstep => ⟨?_, hl.2, ?_⟩
  · exact exclusive_of_faultFree (fun _ _ hl => hl.1) hs hl hstep
  · obtain ⟨hfault, -⟩ := hl
    cases l with
    | run i a =>
      cases a with
      | fail => exact hfault.elim
      | _ => trivial
    | die => exact hfault.elim
    | _ => trivial

/-- **At rest every document is ingested.** -/
theorem ingested_of_atRest (h : Reachable cfg (smoothRun ocr model) s) (hrest : s.AtRest) {d : DocId}
    {row : Document} (hrow : s.world.db.documents d = some row) :
    ∃ row blob, s.world.db.documents d = some row ∧ s.world.objects row.objectKey = some blob ∧
      Ingested cfg model s.world d row (ocr blob row.contentType) := by
  have hok : ∀ s l, smoothRun ocr model s l → faultFree s l := fun _ _ hl => hl.1
  obtain ⟨i, hi⟩ := created_of_reachable h hrow
  -- the upload that created the document has ended, so it has sent the OCR message
  have hsent : s.world.Sent i d := by
    cases hp : s.progs i with
    | none => exact absurd hi (((unused_of_not_started h hp).untouched h).created d)
    | some p =>
      obtain ⟨owed, hdischarges, hcreated⟩ := (honours_tracks hok).holds h hp
      have hpending := hrest.2 i
      rw [Pool.pending, hp] at hpending
      refine (hcreated d hi).resolve_right fun howed => ?_
      cases p with
      | ret a =>
        obtain rfl : owed = none := hdischarges
        cases howed
      | raise e =>
        obtain rfl : owed = none := hdischarges
        cases howed
      | call c k => cases hpending
  have hquiet : s.world.broker.Quiet d := by
    rintro copy (⟨S, leg, hleg, hcopy⟩ | ⟨j, q, hdelivery⟩)
    · rw [hrest.1 S leg hleg] at hcopy
      cases hcopy
    · -- a consumer that has ended has acked
      have hhandled : s.world.broker.handled j = some copy := by
        rw [Broker.handled, hdelivery]
        rfl
      have hholds : s.world.holds j = true := by simp [World.holds, hdelivery]
      obtain ⟨p, n, hp, hcourse⟩ := course_of_reachable hok h hhandled
      have hpending := hrest.2 j
      rw [Pool.pending, hp] at hpending
      cases p with
      | ret a =>
        have hphase : s.world.phase j = .closed := hcourse
        unfold World.phase at hphase
        rw [hholds, if_pos rfl] at hphase
        split at hphase
        · cases hphase
        · cases hphase
      | raise e => exact hcourse.elim
      | call c k => cases hpending
  obtain ⟨p, hp, -, hd⟩ := hsent
  exact ingested_of_finished (orderly_of_successful (successful_of_smooth h))
    (finished_of_quiet (successful_of_smooth h) hquiet hp hd)

/-- What is left to do when no more requests arrive. -/
def smoothDraining (ocr : Blob → Text → Text) (model : Text → Vec) (s : Sys) (l : Label) : Prop :=
  draining s l ∧ smoothRun ocr model s l

/-- An execution in progress can go on without a fault. -/
theorem exists_smooth_step (h : Reachable cfg (smoothRun ocr model) s) {i : Nat} {c : Call}
    (hc : s.pending i = some c) :
    ∃ a s', smoothDraining ocr model s (.run i a) ∧ step cfg s (.run i a) = some s' := by
  have hok : ∀ s l, smoothRun ocr model s l → faultFree s l := fun _ _ hl => hl.1
  obtain ⟨a, s', hdraining, htruthful, hstep⟩ := exists_step_of_pending ocr model h hc
  refine ⟨a, s', ⟨hdraining, ?_, htruthful⟩, hstep⟩
  cases a with
  | fail reason =>
    -- an execution that is going to settle its delivery still holds it
    obtain ⟨c', hc', hcloses, hfree⟩ := hdraining
    obtain rfl := Option.some.inj (hc'.symm.trans hc)
    obtain ⟨k, hp⟩ := Pool.pending_eq_some.mp hc
    have hclosing : ∃ o, c' = .ack o :=
      hcloses.resolve_left (allowed_of_reachable hok h hp).1
    obtain ⟨o, rfl⟩ := hclosing
    cases hi : s.world.broker.handled i with
    | none =>
      rcases (mayCall_of_reachable h hp).1 with ⟨-, hcall⟩ | ⟨S, m, hdoc, -⟩
      · exact hcall.elim
      · rw [World.documentOf, hi] at hdoc
        cases hdoc
    | some copy =>
      obtain ⟨p, n, hp', hcourse⟩ := course_of_reachable hok h hi
      obtain rfl := Option.some.inj (hp'.symm.trans hp)
      have hallowed : (s.world.phase i).allows (.ack o) := hcourse.1.1
      have hphase : s.world.phase i = .closed := by
        unfold World.phase
        rw [holds_eq_false hfree]
        rfl
      rw [hphase] at hallowed
      exact hallowed
  | _ => trivial

/-- **Everything that is uploaded gets ingested.**  In a run without faults, whatever the
order of the steps: once no more requests arrive, there are only finitely many steps left
to take, and when none is left, every document is `failed` if there is no text in its
object, and otherwise `embedded`, with this text, its chunks and their vectors. -/
theorem everything_ingested (h : Reachable cfg (smoothRun ocr model) s) :
    (∃ n, ∀ ls s', Takes (step cfg) (smoothDraining ocr model) s ls s' → ls.length ≤ n) ∧
      ∀ ls s', Takes (step cfg) (smoothDraining ocr model) s ls s' →
        (∀ l s'', smoothDraining ocr model s' l → step cfg s' l ≠ some s'') →
        ∀ d row, s'.world.db.documents d = some row →
          ∃ row blob, s'.world.db.documents d = some row ∧
            s'.world.objects row.objectKey = some blob ∧
            Ingested cfg model s'.world d row (ocr blob row.contentType) := by
  obtain ⟨is, his⟩ := exists_inProgress h
  refine ⟨⟨_, fun ls s' hls => hls.length_le ?_ (within_of_reachable h his)⟩,
    fun ls s' hls hstuck d row hrow => ?_⟩
  · exact fun n s l s' hn hl hstep => within_of_step hn hl.1 hstep
  have hs' : Reachable cfg (smoothRun ocr model) s' :=
    h.trans (hls.reaches.mono fun _ _ hl => hl.2)
  refine ingested_of_atRest hs' ⟨fun S leg hleg => ?_, fun i => ?_⟩ hrow
  · by_contra hq
    cases leg with
    | work =>
      obtain ⟨i, s'', hs''⟩ := exists_deliver hs' hq
      exact hstuck (.deliver i S 0) s'' ⟨trivial, trivial, trivial⟩ hs''
    | retry =>
      obtain ⟨s'', hs''⟩ := exists_expire cfg hq
      exact hstuck (.expire S 0) s'' ⟨trivial, trivial, trivial⟩ hs''
    | dlq => exact hleg rfl
  · by_contra hp
    obtain ⟨c, hc⟩ := Option.ne_none_iff_exists'.mp hp
    obtain ⟨a, s'', ha, hs''⟩ := exists_smooth_step hs' hc
    exact hstuck (.run i a) s'' ha hs''

/-- The document of an upload whose OCR message has just been delivered gets ingested. -/
theorem everything_ingested_delivered : ∃ (s : Sys) (row : Document) (blob : Blob),
    s.world.db.documents 1 = some row ∧ s.world.objects row.objectKey = some blob ∧
      Ingested sampleConfig sampleModel s.world 1 row sampleText := by
  obtain ⟨s, hs, hrow⟩ := exists_run (Reaches.guarded (step sampleConfig) smoothStep) .init
    (uploadRun ++ [.deliver 1 .ocr 0])
    (fun s : Sys => (s.world.db.documents 1).isSome = true) (by decide)
  have hreach : Reachable sampleConfig (smoothRun (fun _ _ => sampleText) sampleModel) s := by
    refine .of_guarded (fun s l hl => ⟨faultFree_of_smoothStep s l hl, ?_⟩) hs
    cases l with
    | run i a =>
      intro c hc
      cases a with
      | text t pages =>
        cases c with
        | extractText =>
          obtain rfl : t = sampleText := of_decide_eq_true hl
          rfl
        | _ => trivial
      | vectors => cases hl
      | _ => cases c <;> trivial
    | _ => trivial
  obtain ⟨⟨n, hn⟩, hingested⟩ := everything_ingested hreach
  obtain ⟨ls, s', hls, hstuck⟩ := Takes.exists_stuck hn
  obtain ⟨row, hrow⟩ := Option.isSome_iff_exists.mp hrow
  obtain ⟨row', hrow', -⟩ := (grows_of_reaches hreach
    (hls.reaches.mono fun _ _ hl => hl.2)).db.documents 1 row hrow
  exact ⟨s', hingested ls s' hls hstuck 1 row' hrow'⟩

end Runs
end DigitalCip
