import DigitalCip.Discipline
import DigitalCip.Invariant.Copies
import DigitalCip.Invariant.Rows

/-!
# What holds in every run

`Base` is the invariant that needs no assumption on the run: workers die, the
broker takes deliveries back and every call may fail.  Its parts are the
consistency of the rows (`Db.Ok`), where messages come from and what they
promise (`Mail`), whose the ids are (`Names`), and what is stored of an upload
(`Files`).

`Legal` is the condition under which a call keeps it (`Base.does`).
-/

namespace DigitalCip

/-! ## Envelopes up to their attempt -/

/-- `e'` is `e` but for the attempt. -/
def Envelope.Alike (e e' : Envelope) : Prop := ∃ attempt, e' = { e with attempt := attempt }

namespace Envelope.Alike
variable {e e' e'' : Envelope}

theorem refl (e : Envelope) : e.Alike e := ⟨e.attempt, rfl⟩

theorem trans (h : e.Alike e') (h' : e'.Alike e'') : e.Alike e'' := by
  obtain ⟨a, rfl⟩ := h
  obtain ⟨a', rfl⟩ := h'
  exact ⟨a', rfl⟩

theorem messageId (h : e.Alike e') : e'.messageId = e.messageId := by obtain ⟨a, rfl⟩ := h; rfl
theorem stage (h : e.Alike e') : e'.stage = e.stage := by obtain ⟨a, rfl⟩ := h; rfl
theorem documentId (h : e.Alike e') : e'.documentId = e.documentId := by obtain ⟨a, rfl⟩ := h; rfl
theorem payload (h : e.Alike e') : e'.payload = e.payload := by obtain ⟨a, rfl⟩ := h; rfl

theorem idempotencyKey (h : e.Alike e') : e'.idempotencyKey = e.idempotencyKey := by
  obtain ⟨a, rfl⟩ := h
  rfl

end Envelope.Alike

/-! ## Messages and the work before them -/

/-- Held copies are of a message that `ingest` accepted for their stage. -/
structure Stems (b : Broker) (S : Stage) (c : Copy) : Prop where
  id_lt : c.id < b.nextCopy
  source : ∃ p ∈ b.accepted, p.copy = c.origin ∧ p.message.body.stage = S ∧
    p.message.body.Alike c.message.body

/-- Execution `i` was started for a stage-`S` message whose envelope is `env` but
for the attempt. -/
def Handles (w : World) (i : Nat) (S : Stage) (env : Envelope) : Prop :=
  ∃ c, w.broker.handled i = some c ∧ Stems w.broker S c ∧ c.message.body.Alike env

/-- The document exists and its text has been recognised. -/
def Db.Recognised (db : Db) (d : DocId) : Prop :=
  ∃ row, db.documents d = some row ∧ row.TextReady

/-- The document's text has been recognised and its chunks have been stored. -/
def Db.Divided (db : Db) (d : DocId) : Prop :=
  (∃ row, db.documents d = some row ∧ row.TextReady ∧ row.chunkedAt.isSome) ∧ db.chunksOf d ≠ []

/-- What a message promises the stage it is for. -/
def Db.Ready (db : Db) (env : Envelope) : Prop :=
  match env.stage with
  | .ocr => ∃ row, db.documents env.documentId = some row ∧
      env.payload.objectKey = some row.objectKey
  | .chunk => db.Recognised env.documentId
  | .embed => db.Divided env.documentId

/-- Where a message comes from: the OCR message from the upload that created the
document, the others from the execution of the stage before. -/
def Source (w : World) (i : Nat) (env : Envelope) : Prop :=
  match env.stage with
  | .ocr => (i, env.messageId) ∈ w.ids ∧ (i, env.documentId) ∈ w.created
  | .chunk => ∃ env', Handles w i .ocr env' ∧ env.documentId = env'.documentId ∧
      env.messageId = env'.messageId ++ ":chunk".toList
  | .embed => (i, env.messageId) ∈ w.ids ∧
      ∃ env', Handles w i .chunk env' ∧ env.documentId = env'.documentId

/-- A message that execution `i` may hand to `ingest`. -/
structure Published (w : World) (i : Nat) (env : Envelope) : Prop where
  key : env.idempotencyKey = ⟨env.documentId, env.stage⟩
  ready : w.db.Ready env
  source : Source w i env

/-! ### They last -/

section Mono
variable {w w' : World} {i : Nat} {S : Stage} {env : Envelope}

theorem Broker.Grows.handled {b b' : Broker} (h : b.Grows b') {c : Copy}
    (hc : b.handled i = some c) : b'.handled i = some c := by
  obtain ⟨d, hd, rfl⟩ := Option.map_eq_some_iff.mp hc
  obtain ⟨d', hd', hcopy, -, -⟩ := h.deliveries i d hd
  exact Option.map_eq_some_iff.mpr ⟨d', hd', hcopy⟩

theorem Stems.mono {b b' : Broker} {c : Copy} (h : Stems b S c) (hg : b.Grows b') :
    Stems b' S c := by
  obtain ⟨p, hp, hsource⟩ := h.source
  exact ⟨h.id_lt.trans_le hg.nextCopy, p, hg.accepted p hp, hsource⟩

theorem Handles.mono (h : Handles w i S env) (hg : Grows w w') : Handles w' i S env := by
  obtain ⟨c, hc, hstems, halike⟩ := h
  exact ⟨c, hg.broker.handled hc, hstems.mono hg.broker, halike⟩

theorem Handles.alike {env' : Envelope} (h : Handles w i S env) (he : env.Alike env') :
    Handles w i S env' := by
  obtain ⟨c, hc, hstems, halike⟩ := h
  exact ⟨c, hc, hstems, halike.trans he⟩

theorem Db.Recognised.mono {db db' : Db} {d : DocId} (h : db.Recognised d) (hg : db.Grows db') :
    db'.Recognised d := by
  obtain ⟨row, hrow, htext⟩ := h
  obtain ⟨row', hrow', hk⟩ := hg.documents d row hrow
  exact ⟨row', hrow', hk.text htext⟩

theorem Db.Divided.mono {db db' : Db} {d : DocId} (h : db.Divided d) (hg : db.Grows db') :
    db'.Divided d := by
  obtain ⟨⟨row, hrow, htext, hat⟩, hchunks⟩ := h
  obtain ⟨row', hrow', hk⟩ := hg.documents d row hrow
  exact ⟨⟨row', hrow', hk.text htext, hk.chunkedAt hat⟩, hg.chunks d hchunks⟩

theorem Db.Ready.mono {db db' : Db} (h : db.Ready env) (hg : db.Grows db') : db'.Ready env := by
  unfold Db.Ready at h ⊢
  split at h
  · obtain ⟨row, hrow, hkey⟩ := h
    obtain ⟨row', hrow', hk⟩ := hg.documents _ row hrow
    exact ⟨row', hrow', hkey.trans (congrArg some hk.objectKey.symm)⟩
  · exact h.mono hg
  · exact h.mono hg

theorem Source.mono (h : Source w i env) (hg : Grows w w') : Source w' i env := by
  unfold Source at h ⊢
  split at h
  · exact ⟨hg.ids _ h.1, hg.created _ h.2⟩
  · obtain ⟨env', hh, hrest⟩ := h
    exact ⟨env', hh.mono hg, hrest⟩
  · obtain ⟨hid, env', hh, hdoc⟩ := h
    exact ⟨hg.ids _ hid, env', hh.mono hg, hdoc⟩

theorem Published.mono (h : Published w i env) (hg : Grows w w') : Published w' i env :=
  ⟨h.key, h.ready.mono hg.db, h.source.mono hg⟩

end Mono

/-! ## The parts of the invariant -/

/-- Where the broker's messages come from. -/
structure Mail (w : World) : Prop where
  published : ∀ p ∈ w.broker.accepted, Published w p.publisher p.message.body
  once : ∀ p ∈ w.broker.accepted, ∀ p' ∈ w.broker.accepted, p.publisher = p'.publisher → p = p'
  copies : ∀ p ∈ w.broker.accepted, ∀ p' ∈ w.broker.accepted, p.copy = p'.copy → p = p'
  copies_lt : ∀ p ∈ w.broker.accepted, p.copy < w.broker.nextCopy
  held : ∀ S c, w.broker.Holds S c → Stems w.broker S c
  fromWork : ∀ i d, w.broker.deliveries i = some d → d.queue.leg = .work

/-- The dedupe row of message `m` is from an execution that handled it. -/
structure Recorded (w : World) (m : MessageId) (row : StoredMessage) : Prop where
  messageId : row.messageId = m
  handled : ∃ env, Handles w row.execution row.stage env ∧ env.messageId = m ∧
    env.documentId = row.documentId

/-- Whose the ids and the documents are. -/
structure Names (w : World) : Prop where
  ids : ∀ p ∈ w.ids, ∀ p' ∈ w.ids, p.2 = p'.2 → p = p'
  noColon : ∀ p ∈ w.ids, ':' ∉ p.2
  created : ∀ p ∈ w.created, ∀ p' ∈ w.created, p.2 = p'.2 → p = p'
  created_lt : ∀ p ∈ w.created, p.2 < w.db.nextDocumentId

/-- What is stored of an upload. -/
structure Files (w : World) : Prop where
  owned : ∀ key blob, w.objects key = some blob → ∃ i, (i, key.uuid) ∈ w.ids
  stored : ∀ d row, w.db.documents d = some row → ∃ blob, w.objects row.objectKey = some blob ∧
    blob ≠ []

/-- What holds in every reachable world. -/
structure Base (w : World) : Prop where
  db : w.db.Ok
  mail : Mail w
  recorded : ∀ m row, w.db.processed m = some row → Recorded w m row
  names : Names w
  files : Files w

theorem Base.empty : Base .empty where
  db := .empty
  mail :=
    { published := fun p hp => (nomatch hp)
      once := fun p hp => (nomatch hp)
      copies := fun p hp => (nomatch hp)
      copies_lt := fun p hp => (nomatch hp)
      held := by
        rintro S c (⟨leg, h⟩ | ⟨i, d, h, -, -⟩)
        · exact (nomatch h)
        · exact (nomatch h)
      fromWork := fun i d h => (nomatch h) }
  recorded := fun m row h => (nomatch h)
  names :=
    { ids := fun p hp => (nomatch hp)
      noColon := fun p hp => (nomatch hp)
      created := fun p hp => (nomatch hp)
      created_lt := fun p hp => (nomatch hp) }
  files := ⟨fun key blob h => (nomatch h), fun d row h => (nomatch h)⟩

/-! ### What keeps each part -/

section Keep
variable {w w' : World}

/-- A step that publishes nothing and holds no new copy. -/
theorem Mail.grow (h : Mail w) (hg : Grows w w') (haccepted : w'.broker.accepted = w.broker.accepted)
    (hheld : ∀ S c, w'.broker.Holds S c → w.broker.Holds S c)
    (hwork : ∀ i d, w'.broker.deliveries i = some d → d.queue.leg = .work) : Mail w' := by
  refine ⟨fun p hp => ?_, by rw [haccepted]; exact h.once, by rw [haccepted]; exact h.copies,
    fun p hp => ?_, fun S c hc => (h.held S c (hheld S c hc)).mono hg.broker, hwork⟩
  · rw [haccepted] at hp
    exact (h.published p hp).mono hg
  · rw [haccepted] at hp
    exact (h.copies_lt p hp).trans_le hg.broker.nextCopy

/-- A step that leaves the broker alone. -/
theorem Mail.of_broker_eq (h : Mail w) (hg : Grows w w') (hb : w'.broker = w.broker) : Mail w' :=
  h.grow hg (by rw [hb]) (fun S c hc => by rwa [hb] at hc) (fun i d hd => h.fromWork i d (by rwa [hb] at hd))

theorem Recorded.mono {m : MessageId} {row : StoredMessage} (h : Recorded w m row)
    (hg : Grows w w') : Recorded w' m row := by
  obtain ⟨env, hh, hm, hd⟩ := h.handled
  exact ⟨h.messageId, env, hh.mono hg, hm, hd⟩

theorem Names.of_eq (h : Names w) (hids : w'.ids = w.ids) (hcreated : w'.created = w.created)
    (hnext : w'.db.nextDocumentId = w.db.nextDocumentId) : Names w' := by
  obtain ⟨h₁, h₂, h₃, h₄⟩ := h
  exact ⟨by rwa [hids], by rwa [hids], by rwa [hcreated], by rwa [hcreated, hnext]⟩

/-- A step that stores no object and gives no row another object. -/
theorem Files.of_documents (h : Files w) (hobjects : w'.objects = w.objects)
    (hids : w'.ids = w.ids)
    (hdocs : ∀ d row', w'.db.documents d = some row' →
      ∃ row, w.db.documents d = some row ∧ row'.objectKey = row.objectKey) : Files w' := by
  refine ⟨by rw [hobjects, hids]; exact h.owned, fun d row' hd => ?_⟩
  obtain ⟨row, hrow, hkey⟩ := hdocs d row' hd
  rw [hobjects, hkey]
  exact h.stored d row hrow

theorem Files.of_eq (h : Files w) (hobjects : w'.objects = w.objects) (hids : w'.ids = w.ids)
    (hdocs : w'.db.documents = w.db.documents) : Files w' :=
  h.of_documents hobjects hids fun _ row' hd => ⟨row', hdocs ▸ hd, rfl⟩

end Keep

/-! ## Who handles what -/

/-- An execution was started for one message. -/
theorem Handles.unique {w : World} {i : Nat} {S S' : Stage} {env env' : Envelope}
    (h : Handles w i S env) (h' : Handles w i S' env') :
    S = S' ∧ env.messageId = env'.messageId ∧ env.documentId = env'.documentId := by
  obtain ⟨c, hc, hstems, halike⟩ := h
  obtain ⟨c', hc', hstems', halike'⟩ := h'
  obtain rfl := Option.some.inj (hc.symm.trans hc')
  obtain ⟨p, -, -, hstage, hp⟩ := hstems.source
  obtain ⟨p', -, -, hstage', hp'⟩ := hstems'.source
  refine ⟨?_, halike.messageId.trans halike'.messageId.symm,
    halike.documentId.trans halike'.documentId.symm⟩
  rw [← hstage, ← hstage', ← hp.stage, hp'.stage]

/-- The dedupe rows an execution has inserted are for the message it handles. -/
theorem Recorded.unique {w : World} {m : MessageId} {row : StoredMessage} {S : Stage}
    {env : Envelope} (h : Recorded w m row) (hh : Handles w row.execution S env) :
    m = env.messageId ∧ row.stage = S ∧ row.documentId = env.documentId := by
  obtain ⟨env', hh', hm, hd⟩ := h.handled
  obtain ⟨hS, hid, hdoc⟩ := hh'.unique hh
  exact ⟨hm.symm.trans hid, hS, hd.symm.trans hdoc⟩

/-- An id that a generator has handed out to two publishers was handed out to one. -/
theorem Base.publication_unique {w : World} (h : Base w) {p p' : Publication}
    (hp : p ∈ w.broker.accepted) (hp' : p' ∈ w.broker.accepted)
    (hid : (p.publisher, p.message.body.messageId) ∈ w.ids)
    (hid' : (p'.publisher, p'.message.body.messageId) ∈ w.ids)
    (he : p.message.body.messageId = p'.message.body.messageId) : p = p' :=
  h.mail.once p hp p' hp' (Prod.mk.inj (h.names.ids _ hid _ hid' he)).1

/-- The id of a chunk message is no id of a generator. -/
theorem Names.ne_chunk {w : World} (h : Names w) {i : Nat} {t m : Text} (ht : (i, t) ∈ w.ids) :
    t ≠ m ++ ":chunk".toList := by
  rintro rfl
  exact h.noColon _ ht (List.mem_append_right m (by decide))

/-- **Messages with the same id** are for the same stage of the same document. -/
theorem Base.sameMessage {w : World} (h : Base w) {p p' : Publication} (hp : p ∈ w.broker.accepted)
    (hp' : p' ∈ w.broker.accepted)
    (he : p.message.body.messageId = p'.message.body.messageId) :
    p.message.body.stage = p'.message.body.stage ∧
      p.message.body.documentId = p'.message.body.documentId := by
  have hsource := (h.mail.published p hp).source
  have hsource' := (h.mail.published p' hp').source
  unfold Source at hsource hsource'
  cases hS : p.message.body.stage <;> cases hS' : p'.message.body.stage <;>
    rw [hS] at hsource <;> rw [hS'] at hsource' <;> dsimp only at hsource hsource'
  case chunk.chunk =>
    -- both were published for the same OCR message
    obtain ⟨env, ⟨c, -, hstems, halike⟩, hdoc, hid⟩ := hsource
    obtain ⟨env', ⟨c', -, hstems', halike'⟩, hdoc', hid'⟩ := hsource'
    obtain ⟨q, hq, -, hqS, hqa⟩ := hstems.source
    obtain ⟨q', hq', -, hqS', hqa'⟩ := hstems'.source
    have hqs := (h.mail.published q hq).source
    have hqs' := (h.mail.published q' hq').source
    unfold Source at hqs hqs'
    rw [hqS] at hqs
    rw [hqS'] at hqs'
    have hme := (hqa.trans halike).messageId
    have hme' := (hqa'.trans halike').messageId
    have hids : env.messageId = env'.messageId := by
      rw [hid, hid'] at he
      exact List.append_cancel_right he
    obtain rfl := h.publication_unique hq hq' hqs.1 hqs'.1 (hme.symm.trans (hids.trans hme'))
    refine ⟨rfl, ?_⟩
    rw [hdoc, hdoc', (hqa.trans halike).documentId, (hqa'.trans halike').documentId]
  case ocr.chunk | embed.chunk =>
    obtain ⟨_, -, -, hid⟩ := hsource'
    exact absurd (he.trans hid) (h.names.ne_chunk hsource.1)
  case chunk.ocr | chunk.embed =>
    obtain ⟨_, -, -, hid⟩ := hsource
    exact absurd (he.symm.trans hid) (h.names.ne_chunk hsource'.1)
  case ocr.ocr | ocr.embed | embed.ocr | embed.embed =>
    obtain rfl := h.publication_unique hp hp' hsource.1 hsource'.1 he
    exact ⟨hS.symm.trans hS', rfl⟩

/-- Executions for messages with the same id are for the same stage and document. -/
theorem Base.sameHandled {w : World} (h : Base w) {i i' : Nat} {S S' : Stage} {env env' : Envelope}
    (hh : Handles w i S env) (hh' : Handles w i' S' env') (he : env.messageId = env'.messageId) :
    S = S' ∧ env.documentId = env'.documentId := by
  obtain ⟨c, -, hstems, halike⟩ := hh
  obtain ⟨c', -, hstems', halike'⟩ := hh'
  obtain ⟨p, hp, -, hS, hpa⟩ := hstems.source
  obtain ⟨p', hp', -, hS', hpa'⟩ := hstems'.source
  have ha := hpa.trans halike
  have ha' := hpa'.trans halike'
  obtain ⟨hstage, hdoc⟩ := h.sameMessage hp hp' (ha.messageId.symm.trans (he.trans ha'.messageId))
  exact ⟨hS.symm.trans (hstage.trans hS'), ha.documentId.trans (hdoc.trans ha'.documentId.symm)⟩

/-- The copy an execution was started for stems from a publication. -/
theorem Base.stems_of_handled {w : World} {c : Copy} (hb : Base w) {i : Nat}
    (h : w.broker.handled i = some c) :
    ∃ S, Stems w.broker S c := by
  obtain ⟨d, hd, rfl⟩ := Option.map_eq_some_iff.mp h
  exact ⟨d.queue.stage, hb.mail.held _ _ (.delivered i d hd rfl rfl)⟩

/-! ## Calls that keep the invariant -/

/-- What execution `i` has to know when it makes a call. -/
def Legal (i : Nat) (w : World) : Call → Prop
  | .updateDocument d u => (∀ t, u.rawText = some t → ¬ Blank t) ∧
      ∀ row, w.db.documents d = some row → (u.apply row).Consistent (w.db.chunksOf d)
  | .recordProcessed row => ∃ env, Handles w i row.stage env ∧ env.messageId = row.messageId ∧
      env.documentId = row.documentId
  | .insertChunks _ rows => rows ≠ []
  | .createDocument row _ => row.status = .uploaded ∧
      ∃ blob, w.objects row.objectKey = some blob ∧ blob.length = row.byteSize
  | .putObject key _ => (i, key.uuid) ∈ w.ids ∧ w.objects key = none
  | .publish .ingest key m => key = ⟨m.body.stage, .work⟩ ∧ Published w i m.body ∧
      ∀ p ∈ w.broker.accepted, p.publisher ≠ i
  | .publish .retry key m => ∃ S, key = ⟨S, .retry⟩ ∧ Handles w i S m.body
  | .publish .dlx key m => ∃ S, key = ⟨S, .dlq⟩ ∧ Handles w i S m.body
  | _ => True

/-- Objects are stored only under ids of the execution's own. -/
def Stores (i : Nat) (w w' : World) : Prop :=
  ∀ key, w'.objects key ≠ w.objects key → (i, key.uuid) ∈ w.ids

section Legal
variable {i : Nat} {c : Call} {v : c.Val} {w w' : World}

theorem Stores.of_eq (h : w'.objects = w.objects) : Stores i w w' :=
  fun key hne => absurd (congrFun h key) hne

/-- **A legal call takes nothing back.** -/
theorem Base.grows (h : Base w) (hl : Legal i w c) (hd : Does i c v w w') : Grows w w' := by
  cases c with
  | alreadyProcessed | fetchDocument | fetchChunksWithoutEmbedding | downloadObject | embedBatch
  | retryDocument =>
    obtain ⟨-, rfl⟩ := hd
    exact .refl _
  | extractText =>
    obtain rfl := hd
    exact .refl _
  | updateDocument d u =>
    obtain rfl := hd
    exact .of_db (w.db.grows_updateDocument d u hl.1)
  | recordEvent e =>
    obtain rfl := hd
    exact .of_db (w.db.grows_recordEvent e)
  | recordProcessed row =>
    obtain rfl := hd
    exact .of_db (w.db.grows_recordProcessed i row)
  | insertChunks d rows =>
    obtain rfl := hd
    exact .of_db (w.db.grows_insertChunks d rows hl)
  | writeEmbeddings rows =>
    obtain rfl := hd
    exact .of_db (w.db.grows_writeEmbeddings rows)
  | createDocument row stored =>
    rcases hd with ⟨e, -, rfl⟩ | ⟨d, db, -, htx, rfl⟩
    · exact .refl _
    · obtain ⟨-, -, rfl⟩ := Api.createTransaction_ok htx
      exact ⟨(w.db.grows_insertDocument row h.db.unused).trans (Db.grows_recordEvent _ _), .refl _, fun _ _ => id, fun _ => id, fun _ hp => List.mem_cons_of_mem _ hp⟩
  | putObject key body =>
    obtain rfl := hd
    refine ⟨.refl _, .refl _, fun k blob hk => ?_, fun _ => id, fun _ => id⟩
    have hne : k ≠ key := by
      rintro rfl
      rw [hl.2] at hk
      cases hk
    simpa [Function.update_apply, hne] using hk
  | freshId =>
    obtain ⟨-, rfl⟩ := hd
    exact ⟨.refl _, .refl _, fun _ _ => id, fun _ hp => List.mem_cons_of_mem _ hp, fun _ => id⟩
  | publish exchange key m =>
    obtain rfl := hd
    exact .of_broker (w.broker.grows_publish i exchange key m)
  | ack outcome =>
    obtain ⟨copy, -, rfl⟩ := hd
    exact .of_broker (w.broker.grows_ack i copy outcome)
  | nack =>
    obtain ⟨copy, q, -, rfl⟩ := hd
    exact .of_broker (w.broker.grows_nack i copy q)

theorem Base.stores (hl : Legal i w c) (hd : Does i c v w w') : Stores i w w' := by
  cases c with
  | putObject key body =>
    obtain rfl := hd
    intro k hne
    by_cases hk : k = key
    · exact hk ▸ hl.1
    · simp [hk] at hne
  | alreadyProcessed | fetchDocument | fetchChunksWithoutEmbedding | downloadObject | embedBatch
  | retryDocument | freshId =>
    obtain ⟨-, rfl⟩ := hd
    exact .of_eq rfl
  | createDocument =>
    rcases hd with ⟨e, -, rfl⟩ | ⟨d, db, -, -, rfl⟩ <;> exact .of_eq rfl
  | ack =>
    obtain ⟨copy, -, rfl⟩ := hd
    exact .of_eq rfl
  | nack =>
    obtain ⟨copy, q, -, rfl⟩ := hd
    exact .of_eq rfl
  | _ =>
    obtain rfl := hd
    exact .of_eq rfl

/-- A database statement that leaves dedupe rows, ids and objects alone. -/
theorem Base.of_db (h : Base w) {db : Db} (hg : Grows w { w with db := db }) (hok : db.Ok)
    (hnext : db.nextDocumentId = w.db.nextDocumentId) (hprocessed : db.processed = w.db.processed)
    (hdocs : ∀ d row', db.documents d = some row' →
      ∃ row, w.db.documents d = some row ∧ row'.objectKey = row.objectKey) :
    Base { w with db := db } where
  db := hok
  mail := h.mail.of_broker_eq hg rfl
  recorded m row hm := (h.recorded m row (hprocessed ▸ hm)).mono hg
  names := h.names.of_eq rfl rfl hnext
  files := h.files.of_documents rfl rfl hdocs

/-- A broker operation that publishes nothing and holds no new copy. -/
theorem Base.of_broker (h : Base w) {b : Broker} (hg : w.broker.Grows b)
    (haccepted : b.accepted = w.broker.accepted) (hheld : ∀ S c, b.Holds S c → w.broker.Holds S c)
    (hwork : ∀ i d, b.deliveries i = some d → d.queue.leg = .work) :
    Base { w with broker := b } where
  db := h.db
  mail := h.mail.grow (.of_broker hg) haccepted hheld hwork
  recorded m row hm := (h.recorded m row hm).mono (.of_broker hg)
  names := h.names.of_eq rfl rfl rfl
  files := h.files.of_eq rfl rfl rfl

/-- One more element, with a key of its own, and the keys still tell them apart. -/
theorem keyed_of_mem {α β : Type} {f : α → β} {l l' : List α} {x : α}
    (h : ∀ p ∈ l, ∀ p' ∈ l, f p = f p' → p = p') (hmem : ∀ p ∈ l', p ∈ l ∨ p = x)
    (hx : ∀ p ∈ l, f p ≠ f x) : ∀ p ∈ l', ∀ p' ∈ l', f p = f p' → p = p' := by
  intro p hp p' hp' he
  rcases hmem p hp with hold | rfl <;> rcases hmem p' hp' with hold' | rfl
  · exact h p hold p' hold' he
  · exact absurd he (hx p hold)
  · exact absurd he.symm (hx p' hold')
  · rfl

/-- A message that execution `i` hands to `ingest`, its first. -/
theorem Mail.publish_ingest (h : Mail w) {m : Message}
    (hg : Grows w { w with broker := w.broker.publish i .ingest ⟨m.body.stage, .work⟩ m })
    (hpub : Published w i m.body) (hfirst : ∀ p ∈ w.broker.accepted, p.publisher ≠ i) :
    Mail { w with broker := w.broker.publish i .ingest ⟨m.body.stage, .work⟩ m } := by
  have hmem : ∀ p ∈ (w.broker.publish i .ingest ⟨m.body.stage, .work⟩ m).accepted,
      p ∈ w.broker.accepted ∨ p = ⟨w.broker.nextCopy, i, m⟩ :=
    fun p hp => (w.broker.of_mem_publish_accepted hp).imp_right And.right
  refine ⟨fun p hp => ?_, keyed_of_mem h.once hmem hfirst,
    keyed_of_mem h.copies hmem fun p hp => (h.copies_lt p hp).ne, fun p hp => ?_,
    fun S c hc => ?_, fun j d hd => ?_⟩
  · rcases hmem p hp with hold | rfl
    · exact (h.published p hold).mono hg
    · exact hpub.mono hg
  · rw [Broker.publish_ingest]
    rcases hmem p hp with hold | rfl
    · exact (h.copies_lt p hold).trans (Nat.lt_succ_self _)
    · exact Nat.lt_succ_self _
  · rcases hc.of_publish_ingest with hold | ⟨rfl, rfl⟩
    · exact (h.held S c hold).mono hg.broker
    · rw [Broker.publish_ingest]
      exact ⟨Nat.lt_succ_self _, ⟨w.broker.nextCopy, i, m⟩, by simp, rfl, rfl, .refl _⟩
  · rw [Broker.publish_ingest] at hd
    exact h.fromWork j d hd

/-- A copy that execution `i` publishes again, of the message it handles. -/
theorem Mail.enqueue (h : Mail w) {q : Queue} {m : Message} {origin : Nat}
    (hg : Grows w { w with broker := w.broker.enqueue origin m q })
    (hh : Handles w i q.stage m.body)
    (horigin : ∀ c, w.broker.handled i = some c → origin = c.origin) :
    Mail { w with broker := w.broker.enqueue origin m q } := by
  refine ⟨fun p hp => (h.published p hp).mono hg, h.once, h.copies,
    fun p hp => (h.copies_lt p hp).trans (Nat.lt_succ_self _), fun S c hc => ?_, h.fromWork⟩
  rcases hc.of_enqueue with hold | ⟨rfl, rfl⟩
  · exact (h.held S c hold).mono hg.broker
  · obtain ⟨c, hc, hstems, halike⟩ := hh
    obtain ⟨p, hp, hcopy, hstage, hpm⟩ := hstems.source
    exact ⟨Nat.lt_succ_self _, p, hp, hcopy.trans (horigin c hc).symm, hstage, hpm.trans halike⟩

theorem originOf_of_handled {exchange : Exchange} (he : exchange ≠ .ingest) (c : Copy)
    (hc : w.broker.handled i = some c) : w.broker.originOf i exchange = c.origin := by
  simp [Broker.originOf, he, hc]

theorem fromWork_release {b : Broker} (h : ∀ i d, b.deliveries i = some d → d.queue.leg = .work)
    (i j : Nat) (d : Delivery) (hd : (b.release i).deliveries j = some d) : d.queue.leg = .work := by
  rw [Broker.release_deliveries] at hd
  split at hd
  · obtain ⟨d₀, hd₀, rfl⟩ := Option.map_eq_some_iff.mp hd
    exact h i d₀ hd₀
  · exact h j d hd

/-- **A legal call keeps the invariant.** -/
theorem Base.does (h : Base w) (hl : Legal i w c) (hd : Does i c v w w') : Base w' := by
  have hg := h.grows hl hd
  cases c with
  | alreadyProcessed | fetchDocument | fetchChunksWithoutEmbedding | downloadObject | embedBatch
  | retryDocument =>
    obtain ⟨-, rfl⟩ := hd
    exact h
  | extractText =>
    obtain rfl := hd
    exact h
  | updateDocument d u =>
    obtain rfl := hd
    refine h.of_db hg (h.db.updateDocument hl.2) rfl rfl fun d' row' hd' => ?_
    obtain ⟨row, hrow, rfl | ⟨-, rfl⟩⟩ := Db.of_documents_updateDocument hd' <;>
      exact ⟨_, hrow, rfl⟩
  | recordEvent e =>
    obtain rfl := hd
    exact h.of_db hg (h.db.recordEvent e) rfl rfl fun d row hrow => ⟨row, hrow, rfl⟩
  | recordProcessed row =>
    obtain rfl := hd
    refine ⟨h.db.recordProcessed i row, h.mail.of_broker_eq hg rfl, fun m stored hm => ?_,
      h.names.of_eq rfl rfl rfl, h.files.of_eq rfl rfl rfl⟩
    rcases Db.of_processed_recordProcessed hm with hold | ⟨rfl, -, rfl⟩
    · exact (h.recorded m stored hold).mono hg
    · obtain ⟨env, hh, hm, hdoc⟩ := hl
      exact ⟨rfl, env, hh.mono hg, hm, hdoc⟩
  | insertChunks d rows =>
    obtain rfl := hd
    exact h.of_db hg (h.db.insertChunks d hl) rfl rfl fun d row hrow => ⟨row, hrow, rfl⟩
  | writeEmbeddings rows =>
    obtain rfl := hd
    exact h.of_db hg (h.db.writeEmbeddings rows) rfl rfl fun d row hrow => ⟨row, hrow, rfl⟩
  | createDocument row stored =>
    rcases hd with ⟨e, -, rfl⟩ | ⟨d, db, -, htx, rfl⟩
    · exact h
    · obtain ⟨hvalid, rfl, rfl⟩ := Api.createTransaction_ok htx
      obtain ⟨hstatus, blob, hblob, hsize⟩ := hl
      refine ⟨(h.db.insertDocument hstatus).recordEvent _, h.mail.of_broker_eq hg rfl,
        fun m stored hm => (h.recorded m stored hm).mono hg, ?_, h.files.owned, fun d row' hd => ?_⟩
      · refine ⟨h.names.ids, h.names.noColon, ?_, ?_⟩
        · exact keyed_of_mem h.names.created (fun p hp => (List.mem_cons.mp hp).symm)
            fun p hp => (h.names.created_lt p hp).ne
        · intro p hp
          rcases List.mem_cons.mp hp with rfl | hp
          · exact Nat.lt_succ_self _
          · exact (h.names.created_lt p hp).trans (Nat.lt_succ_self _)
      · rw [Db.recordEvent_documents, Db.insertDocument_documents] at hd
        split at hd
        · obtain rfl := Option.some.inj hd
          refine ⟨blob, hblob, ?_⟩
          rintro rfl
          exact Api.validate_byteSize hvalid hsize.symm
        · exact h.files.stored d row' hd
  | putObject key body =>
    obtain rfl := hd
    refine ⟨h.db, h.mail.of_broker_eq hg rfl, fun m row hm => (h.recorded m row hm).mono hg,
      h.names.of_eq rfl rfl rfl, fun k blob hk => ?_, fun d row hrow => ?_⟩
    · by_cases he : k = key
      · exact ⟨i, he ▸ hl.1⟩
      · exact h.files.owned k blob (by simpa [he] using hk)
    · obtain ⟨blob, hblob, hne⟩ := h.files.stored d row hrow
      exact ⟨blob, hg.objects _ _ hblob, hne⟩
  | freshId =>
    obtain ⟨⟨hfresh, hcolon⟩, rfl⟩ := hd
    refine ⟨h.db, h.mail.of_broker_eq hg rfl, fun m row hm => (h.recorded m row hm).mono hg,
      ⟨?_, ?_, h.names.created, h.names.created_lt⟩, fun k blob hk => ?_, h.files.stored⟩
    · exact keyed_of_mem h.names.ids (fun p hp => (List.mem_cons.mp hp).symm) hfresh
    · intro p hp
      rcases List.mem_cons.mp hp with rfl | hp
      · exact hcolon
      · exact h.names.noColon p hp
    · obtain ⟨j, hj⟩ := h.files.owned k blob hk
      exact ⟨j, List.mem_cons_of_mem _ hj⟩
  | publish exchange key m =>
    obtain rfl := hd
    refine ⟨h.db, ?_, fun m row hm => (h.recorded m row hm).mono hg, h.names.of_eq rfl rfl rfl,
      h.files.of_eq rfl rfl rfl⟩
    cases exchange with
    | ingest =>
      obtain ⟨rfl, hpub, hfirst⟩ := hl
      exact h.mail.publish_ingest hg hpub hfirst
    | retry =>
      obtain ⟨S, rfl, hh⟩ := hl
      rw [Broker.publish_retry] at hg ⊢
      exact h.mail.enqueue hg hh (originOf_of_handled (by decide))
    | dlx =>
      obtain ⟨S, rfl, hh⟩ := hl
      rw [Broker.publish_dlx] at hg ⊢
      exact h.mail.enqueue hg hh (originOf_of_handled (by decide))
  | ack outcome =>
    obtain ⟨copy, -, rfl⟩ := hd
    exact h.of_broker (w.broker.grows_ack i copy outcome) rfl (fun S c hc => hc.of_ack)
      (fromWork_release h.mail.fromWork i)
  | nack =>
    obtain ⟨copy, q, hdel, rfl⟩ := hd
    obtain ⟨S, leg⟩ := q
    obtain rfl : leg = .work := h.mail.fromWork i _ hdel
    refine h.of_broker (w.broker.grows_nack i copy _) (by simp) (fun S c hc => hc.of_nack hdel) ?_
    rw [Broker.nack_work]
    exact fromWork_release h.mail.fromWork i

end Legal
end DigitalCip
