import DigitalCip.Invariant.Footprint
import DigitalCip.Invariant.Handlers

/-!
# The invariant holds in every run

The operations of the API and the moves of the environment keep `Base` as the
workers do, so it holds in every reachable state (`reachable_base`), and no step
takes anything back (`grows_of_step`).
-/

namespace DigitalCip
open Resumable

/-! ## The API -/

namespace Api
variable {i : Nat} {cfg : Config} {w : World}

section Requests
variable {D : Discipline} {K : World → Prop}

/-- An upload keeps what its calls keep. -/
theorem upload_keeps (h : D.Keeps i K UploadCall) (upload : Option Upload) (title : Option Text)
    (tenantId : Text) (hw : K w) : wp D.rules i
      (do let _ ← createDocument cfg upload title tenantId; return ()) (fun _ => K) (fun _ => K) w :=
  h.calls (.bind (createDocument_calls cfg upload title tenantId) fun _ => trivial) hw

/-- A manual retry ends with its transaction. -/
theorem retryAction_keeps (h : D.Keeps i K RetryCall) (documentId : DocId) (hw : K w) :
    wp D.rules i (do let _ ← retryAction documentId; return ()) (fun _ => K) (fun _ => K) w := by
  rw [wp_bind]
  unfold retryAction
  refine h.call_then trivial hw (fun _ _ h => h) fun found w₁ h₁ => ?_
  cases found with
  | none => exact h₁
  | some document =>
    dsimp only
    unfold retryDocument
    split
    · exact h₁
    rename_i S _
    rw [wp_bind]
    refine Discipline.wp_call K h₁ (fun w w' => h.stable (.retryDocument documentId document S) w w' trivial)
      (fun w reason hK hknown hinv _ _ => ⟨h.fail _ w reason trivial hK hknown hinv, hK⟩) ?_
    intro w v w' a hK hknown hinv hknown' hmoves hadmits hreply hdoes
    obtain ⟨hinv', hguar, hK'⟩ :=
      h.does _ w v w' a trivial hK hknown hinv hknown' hmoves hadmits hreply hdoes
    obtain ⟨⟨e, rfl⟩, -⟩ := hdoes
    exact ⟨hinv', hguar, hK'⟩

end Requests

/-- The upload has created document `d` for the object `key`. -/
structure Created (i : Nat) (key : ObjectKey) (d : DocId) (w : World) : Prop where
  mine : (i, d) ∈ w.created
  row : ∃ row, w.db.documents d = some row ∧ row.objectKey = key
  unpublished : ∀ p ∈ w.broker.accepted, p.publisher ≠ i

theorem Created.grow {key : ObjectKey} {d : DocId} {w w' : World} (h : Created i key d w)
    (hg : Grows w w') (hnew : ∀ p ∈ w'.broker.accepted, p.publisher ≠ i) : Created i key d w' := by
  obtain ⟨row, hrow, hkey⟩ := h.row
  obtain ⟨row', hrow', hk⟩ := hg.db.documents d row hrow
  exact ⟨hg.created _ h.mine, ⟨row', hrow', hk.objectKey.trans hkey⟩, hnew⟩

theorem lasting_created {key : ObjectKey} {d : DocId} : Lasting i (Created i key d) :=
  fun _ _ h hw ha => h.grow hw.1 fun p hp hi => h.unpublished p (ha.accepted p hp hi) hi

theorem lasting_untouched : Lasting i (Untouched i) := fun _ _ h _ ha => ha.untouched h

theorem Created.does {key : ObjectKey} {d : DocId} {c : Call} {v : c.Val} {w w' : World}
    (h : Created i key d w) (hd : Does i c v w w') (hg : Grows w w')
    (hc : ∀ key m, c ≠ .publish .ingest key m) : Created i key d w' :=
  h.grow hg fun p hp => h.unpublished p (accepted_of_does hd hc ▸ hp)

/-- `Publisher.publish`, for the OCR message of a new document. -/
theorem publish_spec {key : ObjectKey} {d : DocId} {tenantId : Text} (hw : Created i key d w) :
    wp baseline.rules i (publish .ocr d tenantId { objectKey := some key } 1)
      (fun _ _ => True) (fun _ _ => True) w := by
  unfold publish
  rw [wp_bind]
  refine wp_legal_call lasting_created hw (fun _ _ _ => trivial) (fun _ _ _ => trivial)
    fun w₀ messageId w₁ h hb hd hg _ => ?_
  have h₁ := h.does hd hg (by simp)
  have hid : (i, messageId) ∈ w₁.ids := by
    obtain ⟨-, rfl⟩ := hd
    exact List.mem_cons_self
  rw [wp_bind]
  refine wp_legal_call (K := fun w => Created i key d w ∧ (i, messageId) ∈ w.ids)
    (lasting_created.and (.of_grows fun _ _ h hg => hg.ids _ h)) ⟨h₁, hid⟩ (fun _ _ _ => trivial)
    (fun _ _ _ => trivial) fun w₀ traceId w₂ h hb hd hg _ => ?_
  have h₂ := h.1.does hd hg (by simp)
  rw [wp_bind]
  refine wp_legal_call (K := fun w => Created i key d w ∧ (i, messageId) ∈ w.ids)
    (lasting_created.and (.of_grows fun _ _ h hg => hg.ids _ h)) ⟨h₂, hg.ids _ h.2⟩ ?_
    (fun _ _ _ => trivial) fun _ _ _ _ _ _ _ _ => trivial
  rintro w ⟨h, hid⟩ -
  obtain ⟨row, hrow, hkey⟩ := h.row
  exact ⟨rfl, ⟨rfl, ⟨row, hrow, congrArg some hkey.symm⟩, hid, h.mine⟩, h.unpublished⟩

/-- What an upload knows before it has created its document. -/
structure Stored (i : Nat) (key : ObjectKey) (body : Option Blob) (w : World) : Prop where
  mine : (i, key.uuid) ∈ w.ids
  object : w.objects key = body
  unpublished : ∀ p ∈ w.broker.accepted, p.publisher ≠ i

theorem lasting_stored {key : ObjectKey} {body : Option Blob} : Lasting i (Stored i key body) :=
  fun _ _ h hw ha => ⟨hw.1.ids _ h.mine, (hw.2 key h.mine).trans h.object,
    fun p hp hi => h.unpublished p (ha.accepted p hp hi) hi⟩

theorem createDocument_spec (upload : Option Upload) (title : Option Text) (tenantId : Text)
    (hw : Untouched i w) :
    wp baseline.rules i (createDocument cfg upload title tenantId) (fun _ _ => True)
      (fun _ _ => True) w := by
  unfold createDocument
  cases upload with
  | none => trivial
  | some upload =>
    dsimp only
    split
    · trivial
    rw [wp_bind]
    refine wp_legal_call lasting_untouched hw (fun _ _ _ => trivial) (fun _ _ _ => trivial)
      fun w₀ uuid w₁ h hb hd hg _ => ?_
    have h₁ : Stored i ⟨tenantId, uuid⟩ none w₁ := by
      obtain ⟨⟨hfresh, -⟩, rfl⟩ := hd
      refine ⟨List.mem_cons_self, ?_, h.accepted⟩
      by_contra hne
      obtain ⟨blob, hblob⟩ := Option.ne_none_iff_exists'.mp hne
      obtain ⟨j, hj⟩ := hb.files.owned _ blob hblob
      exact hfresh _ hj rfl
    rw [wp_bind]
    refine wp_legal_call lasting_stored h₁ (fun _ h _ => ⟨h.mine, h.object⟩) (fun _ _ _ => trivial)
      fun w₀ _ w₂ h hb hd hg _ => ?_
    have h₂ : Stored i ⟨tenantId, uuid⟩ (some upload.body) w₂ := by
      obtain rfl := hd
      exact ⟨h.mine, by simp, h.unpublished⟩
    rw [wp_bind]
    refine wp_legal_call lasting_stored h₂ (fun _ h _ => ⟨rfl, upload.body, h.object, rfl⟩)
      (fun _ _ _ => trivial) fun w₀ r w₃ h hb hd hg _ => ?_
    cases r with
    | error e => cases e <;> trivial
    | ok d =>
      rw [wp_bind]
      refine wp_mono (publish_spec (d := d) ?_) (fun _ _ _ => trivial) fun _ _ _ => trivial
      rcases hd with ⟨e, he, -⟩ | ⟨d', db, he, htx, rfl⟩
      · cases he
      · obtain rfl := Except.ok.inj he
        obtain ⟨-, rfl, rfl⟩ := createTransaction_ok htx
        refine ⟨List.mem_cons_self,
          ⟨newDocument cfg upload title tenantId ⟨tenantId, uuid⟩, ?_, rfl⟩, h.unpublished⟩
        rw [Db.recordEvent_documents, Db.insertDocument_documents, if_pos rfl]

end Api

/-! ## The Python consumer -/

/-- `on_message` keeps what its handler keeps, if the calls of `publish_next` and
those that settle the delivery keep it too. -/
theorem Python.onMessage_keeps {D : Discipline} {i : Nat} {K : World → Prop} {P : Call → Prop}
    {S : Stage} {m : Message} {w : World} {N : Type} {maxRetries : Int}
    {handler : Envelope → Program (Option N)} {publishNext : Envelope → N → Program Unit}
    (h : D.Keeps i K P) (hsettling : ∀ c, Settling S m c → P c) (hsuccess : P (.ack .success))
    (hhandler : wp D.rules i (handler m.body) (fun _ => K) (fun _ => K) w)
    (hnext : ∀ n, (publishNext m.body n).Calls P) :
    wp D.rules i (onMessage maxRetries envelopeCodec (channel S m) handler publishNext m.body)
      (fun _ => K) (fun _ => K) w := by
  show wp D.rules i (tryCatch _ _) _ _ w
  refine wp_try (F := fun _ => K) ?_ fun e w₁ h₁ => ?_
  · rw [wp_bind]
    refine wp_mono hhandler (fun r w₁ h₁ => ?_) fun _ _ h => h
    cases r with
    | none => exact h.calls (calls_call hsuccess) h₁
    | some next => exact h.calls (.bind (hnext next) fun _ => calls_call hsuccess) h₁
  · cases e with
    | permanent => exact h.calls (calls_call (hsettling _ (by simp [Settling]))) h₁
    | transient => exact h.calls ((retry_settling _ _ _).mono hsettling) h₁
    | other => exact h.calls ((unhandled_settling _ _).mono hsettling) h₁

theorem Embedder.onMessage_keeps {D : Discipline} {i : Nat} {K : World → Prop} {P : Call → Prop}
    {m : Message} {w : World} {cfg : Config} (h : D.Keeps i K P)
    (hsettling : ∀ c, Settling .embed m c → P c) (hsuccess : P (.ack .success))
    (hhandler : wp D.rules i (handle m.body) (fun _ => K) (fun _ => K) w) :
    wp D.rules i (onMessage cfg m) (fun _ => K) (fun _ => K) w := by
  unfold onMessage
  refine Python.onMessage_keeps h hsettling hsuccess ?_ fun n => nomatch n
  rw [wp_bind]
  exact hhandler

/-! ## The environment -/

section Environment
variable {s : Sys} {l : Label} {w : World}

theorem grows_of_envMove (h : EnvMove s l w) : Grows s.world w := by
  have htake : ∀ i, Grows s.world (s.world.takeBack i) := by
    intro i
    rcases takeBack_cases s.world i with he | ⟨copy, q, -, he⟩ <;> rw [he]
    · exact .refl _
    · exact .of_broker (s.world.broker.grows_requeue i copy q)
  cases h with
  | deliver hunused hcopy =>
    exact .of_broker (s.world.broker.grows_deliver (by simpa using hunused.2) _ _ _)
  | die => exact htake _
  | redeliver => exact htake _
  | expire => exact .of_broker (s.world.broker.grows_expire _ _ _)

/-- **What the broker does on its own keeps the invariant.** -/
theorem Base.envMove (hb : Base s.world) (h : EnvMove s l w) : Base w := by
  have htake : ∀ i, Base (s.world.takeBack i) := by
    intro i
    rcases takeBack_cases s.world i with he | ⟨copy, q, hd, he⟩ <;> rw [he]
    · exact hb
    · exact hb.of_broker (s.world.broker.grows_requeue i copy q) rfl (fun _ _ hc => hc.of_requeue hd)
        (fromWork_release hb.mail.fromWork i)
  have hg := grows_of_envMove h
  cases h with
  | @deliver i S n copy hunused hcopy =>
    refine hb.of_broker hg.broker rfl (fun _ _ hc => hc.of_deliver hcopy) fun j d hd => ?_
    simp only [Broker.deliver, Function.update_apply] at hd
    split at hd
    · exact Option.some.inj hd ▸ rfl
    · exact hb.mail.fromWork j d hd
  | die => exact htake _
  | redeliver => exact htake _
  | expire hcopy =>
    refine hb.of_broker hg.broker (by simp) (fun _ _ hc => hc.of_expire hcopy) fun j d hd => ?_
    rw [Broker.expire_retry] at hd
    exact hb.mail.fromWork j d hd

theorem objects_of_envMove (h : EnvMove s l w) : w.objects = s.world.objects := by
  have htake : ∀ i, (s.world.takeBack i).objects = s.world.objects := by
    intro i
    rcases takeBack_cases s.world i with he | ⟨copy, q, -, he⟩ <;> rw [he]
  cases h with
  | deliver | expire => rfl
  | die | redeliver => exact htake _

end Environment

/-! ## All runs -/

section Runs
variable {cfg : Config} {ok : Sys → Label → Prop} {s s' : Sys} {l : Label}

/-- What a consumer knows of the message it is started for. -/
theorem Base.delivered {w w' : World} {S : Stage} {n i : Nat} {copy : Copy}
    (hb' : Base w') (hi : Untouched i w')
    (hw : w' = { w with broker := w.broker.deliver i ⟨S, .work⟩ n copy }) :
    Working i S copy.message.body w' ∧ copy.message.body.stage = S ∧
      w'.db.Ready copy.message.body := by
  have hd : w'.broker.deliveries i = some ⟨copy, ⟨S, .work⟩, true⟩ := by
    rw [hw]
    simp [Broker.deliver]
  have hstems := hb'.mail.held S copy (.delivered i _ hd rfl rfl)
  obtain ⟨p, hp, -, hstage, halike⟩ := hstems.source
  have hready := (hb'.mail.published p hp).ready
  refine ⟨⟨⟨copy, by simp [Broker.handled, hd], hstems, .refl _⟩, hi.accepted⟩,
    halike.stage.trans hstage, ?_⟩
  unfold Db.Ready at hready ⊢
  rwa [halike.stage, halike.documentId, halike.payload]

theorem baseline_sound (cfg : Config) : baseline.Sound cfg .init where
  reached := .start
  known _ _ := trivial
  moves _ _ _ _ _ _ := trivial
  start := Discipline.safe_init .empty
  admits _ _ _ _ _ _ _ _ _ := trivial
  others s i a c k r w _ hsafe _ hp hx hguar j c' k' hji hj := by
    obtain ⟨hg, hstores⟩ := hguar
    refine ⟨hg, fun key hkey => ?_⟩
    by_contra hne
    exact hji (Prod.mk.inj (hsafe.1.names.ids _ hkey _ (hstores key hne) rfl)).1
  env s l w _ hsafe _ hmove _ _ :=
    ⟨hsafe.1.envMove hmove, fun _ _ _ _ _ =>
      ⟨grows_of_envMove hmove, fun key _ => congrFun (objects_of_envMove hmove) key⟩⟩
  upload s i upload title tenantId _ _ _ _ hi := by
    unfold Discipline.Verified
    rw [wp_bind]
    exact wp_mono (Api.createDocument_spec upload title tenantId hi) (fun _ _ _ => trivial)
      fun _ _ _ => trivial
  retryRequest s i documentId _ _ _ _ _ := by
    have hkeeps : baseline.Keeps i (fun _ => True) Api.RetryCall := by
      refine ⟨fun _ _ _ _ _ _ _ _ _ => trivial, fun _ w _ _ _ _ _ => ⟨.refl w, .of_eq rfl⟩, ?_⟩
      intro c w v w' a hc _ _ hb _ _ _ _ hd
      have hl : Legal i w c := by
        cases c <;> trivial
      exact ⟨hb.does hl hd, ⟨hb.grows hl hd, Base.stores hl hd⟩, trivial⟩
    exact Api.retryAction_keeps hkeeps documentId trivial
  consumer s i S n copy w _ hsafe _ _ hi hcopy hw _ hb := by
    obtain ⟨hwork, hstage, hready⟩ := hb.delivered hi hw
    unfold Db.Ready at hready
    rw [hstage] at hready
    cases S with
    | ocr => exact wp_mono (Ocr.onMessage_spec hwork) (fun _ _ _ => trivial) fun _ _ _ => trivial
    | chunk =>
      exact wp_mono (Chunker.handle_spec hwork hready) (fun _ _ _ => trivial) fun _ _ h => h.elim
    | embed =>
      exact wp_mono (Embedder.onMessage_spec hwork hready) (fun _ _ _ => trivial)
        fun _ _ _ => trivial

theorem baseline_safe (h : Reachable cfg ok s) : baseline.Safe s :=
  (baseline_sound cfg).safe (h.mono fun _ _ _ => trivial)

/-- **The invariant holds in every reachable state.** -/
theorem reachable_base (h : Reachable cfg ok s) : Base s.world := (baseline_safe h).1

/-- **No step takes anything back.** -/
theorem grows_of_step (h : Reachable cfg ok s) (hstep : step cfg s l = some s') :
    Grows s.world s'.world := by
  rcases world_of_step hstep with he | hmove | ⟨i, a, c, k, v, rfl, hp, hreply⟩
  · rw [he]
    exact .refl _
  · exact grows_of_envMove hmove
  · exact ((baseline_safe h).exec hp
      ⟨trivial, trivial, trivial, a, trivial, exec_of_reply hreply⟩).2.1.1

end Runs

/-! ## The dead-letter queues -/

section DeadLetters
variable {i : Nat} {w : World}

/-- Only a publish to `ingest.dlx` puts a copy in a dead-letter queue. -/
theorem of_mem_dlq_of_does {c : Call} {v : c.Val} {w' : World} (hb : Base w) (hd : Does i c v w w')
    {S : Stage} {copy : Copy} (h : copy ∈ w'.broker.queues ⟨S, .dlq⟩) :
    copy ∈ w.broker.queues ⟨S, .dlq⟩ ∨ c = .publish .dlx ⟨S, .dlq⟩ copy.message := by
  cases c with
  | alreadyProcessed | fetchDocument | fetchChunksWithoutEmbedding | downloadObject | embedBatch
  | retryDocument | freshId =>
    obtain ⟨-, rfl⟩ := hd
    exact Or.inl h
  | createDocument =>
    rcases hd with ⟨e, -, rfl⟩ | ⟨d, db, -, -, rfl⟩ <;> exact Or.inl h
  | publish exchange key m =>
    obtain rfl := hd
    refine (Broker.of_mem_publish h).imp_right ?_
    rintro ⟨hroute, rfl⟩
    have he := leg_of_route hroute
    obtain rfl := eq_of_route hroute
    cases exchange with
    | ingest | retry => cases he
    | dlx => rfl
  | ack o =>
    obtain ⟨copy, -, rfl⟩ := hd
    exact Or.inl h
  | nack =>
    obtain ⟨copy, ⟨R, leg⟩, hdel, rfl⟩ := hd
    obtain rfl : leg = .work := hb.mail.fromWork i _ hdel
    rw [Broker.nack_work] at h
    exact (Broker.mem_push.mp h).imp_right fun he => by cases he.1
  | _ =>
    obtain rfl := hd
    exact Or.inl h

/-- The environment leaves the dead-letter queues alone. -/
theorem dlq_of_envMove {s : Sys} {l : Label} (hb : Base s.world) (h : EnvMove s l w) {S : Stage} :
    w.broker.queues ⟨S, .dlq⟩ = s.world.broker.queues ⟨S, .dlq⟩ := by
  have hpush : ∀ (b : Broker) (copy : Copy) (q : Queue), q.leg ≠ .dlq →
      (b.push copy q).queues ⟨S, .dlq⟩ = b.queues ⟨S, .dlq⟩ := by
    intro b copy q hq
    rw [Broker.push_queues, if_neg]
    rintro rfl
    exact hq rfl
  have htake : ∀ j, (s.world.takeBack j).broker.queues ⟨S, .dlq⟩ =
      s.world.broker.queues ⟨S, .dlq⟩ := by
    intro j
    rcases takeBack_cases s.world j with he | ⟨copy, q, hd, he⟩ <;> rw [he]
    have hwork : q.leg = .work := hb.mail.fromWork j _ hd
    exact hpush _ copy q (by rw [hwork]; decide)
  cases h with
  | deliver => simp [Broker.deliver, Broker.remove]
  | die | redeliver => exact htake _
  | expire =>
    rw [Broker.expire_retry]
    exact (hpush _ _ _ (by simp)).trans (by simp [Broker.remove])

end DeadLetters

end DigitalCip
