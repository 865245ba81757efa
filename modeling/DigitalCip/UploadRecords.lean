import DigitalCip.Invariant.Tracking
import DigitalCip.ManualRetry
import DigitalCip.Resumable.Automaton

/-!
# What a document says of its object

`put_upload` stores the bytes of an upload and returns their length and their digest,
and `Document.create!` writes both into the row, together with the key.  No worker
touches these columns, and nobody writes an object twice, so the row describes what is
stored under its key in every later state, and it keeps passing the validations of the
model although the workers write past them.
-/

namespace DigitalCip
open Resumable

/-! ## What an upload has stored -/

/-- The object that an execution has stored last. -/
def Call.stores : (c : Call) → c.Reply → Option (ObjectKey × Blob) → Option (ObjectKey × Blob)
  | .putObject key body, .ok _, _ => some (key, body)
  | _, _, stored => stored

/-- The row describes the object. -/
structure Document.Describes (cfg : Config) (row : Document) (blob : Blob) : Prop where
  byteSize : row.byteSize = blob.length
  checksum : row.checksum = cfg.sha256 blob

/-- Whoever creates a document has stored its object, and describes it. -/
def storing (cfg : Config) : Automaton (Option (ObjectKey × Blob)) Call Call.Reply where
  moves c stored r stored' := stored' = c.stores r stored
  owed stored c := ∀ row details, c = .createDocument row details →
    ∃ blob, stored = some (row.objectKey, blob) ∧ row.Describes cfg blob

section Storing
variable {cfg : Config} {α : Type} {c : Call} {stored : Option (ObjectKey × Blob)}

/-- The program creates documents of what it has stored. -/
abbrev Describing (cfg : Config) (p : Program α) (stored : Option (ObjectKey × Blob)) : Prop :=
  (storing cfg).Accepts p (fun _ _ => True) (fun _ _ => True) stored

/-- A program that creates no document. -/
theorem describing_of_calls {p : Program α} (hp : p.Calls fun c => ∀ row details, c ≠ .createDocument row details) :
    Describing cfg p stored := by
  induction p generalizing stored with
  | ret | raise => trivial
  | call c k ih =>
    exact ⟨fun row details he => absurd he (hp.1 row details), fun r _ _ => ih r (hp.2 r)⟩

/-- A call in Ruby. -/
theorem describing_call {k : c.Val → Program α} (howed : (storing cfg).owed stored c)
    (hk : ∀ v, Describing cfg (k v) (c.stores (.ok v) stored)) :
    Describing cfg (call c >>= k) stored := by
  rw [Describing, Automaton.accepts_bind]
  refine Automaton.accepts_perform howed ?_
  rintro r _ rfl
  cases r with
  | error => trivial
  | ok v => exact hk v

theorem Api.publish_describing (stage : Stage) (documentId : DocId) (tenantId : Text)
    (payload : Payload) (attempt : Int) :
    Describing cfg (publish stage documentId tenantId payload attempt) stored := by
  refine describing_of_calls ?_
  unfold publish
  exact .bind (calls_call (by simp)) fun _ => .bind (calls_call (by simp)) fun _ =>
    .bind (calls_call (by simp)) fun _ => trivial

theorem Api.createDocument_describing (cfg : Config) (upload : Option Upload) (title : Option Text)
    (tenantId : Text) : Describing cfg (createDocument cfg upload title tenantId) stored := by
  unfold createDocument
  split
  · trivial
  split
  · trivial
  refine describing_call (fun _ _ he => by cases he) fun uuid => ?_
  refine describing_call (fun _ _ he => by cases he) fun _ => ?_
  refine describing_call ?_ fun r => ?_
  · intro row details he
    cases he
    exact ⟨_, rfl, rfl, rfl⟩
  split
  · trivial
  · trivial
  · rw [Describing, Automaton.accepts_bind]
    exact (publish_describing _ _ _ _ _).mono (fun _ _ _ => trivial) fun _ _ _ => trivial

/-- An execution knows what it has stored. -/
def Knows (cfg : Config) (_ : Nat) (p : Program Unit) (w : World) : Prop :=
  ∃ stored, Describing cfg p stored ∧
    ∀ key blob, stored = some (key, blob) → w.objects key = some blob

theorem knows_tracks (cfg : Config) (ok : Sys → Label → Prop) : Tracks cfg ok (Knows cfg) where
  stable s l s' i p hs _ hstep _ _ h := by
    obtain ⟨stored, hp, hstored⟩ := h
    exact ⟨stored, hp, fun key blob he => (grows_of_step hs hstep).objects _ _ (hstored key blob he)⟩
  upload s i u t x _ _ _ := by
    refine ⟨none, ?_, fun _ _ he => by cases he⟩
    rw [Describing, Automaton.accepts_bind]
    exact (Api.createDocument_describing cfg u t x).mono (fun _ _ _ => trivial) fun _ _ _ => trivial
  retryRequest s i d _ _ _ := by
    refine ⟨none, describing_of_calls (.bind (Api.retryAction_not_create d) fun _ => trivial), ?_⟩
    exact fun _ _ he => by cases he
  consumer s i S n copy w _ _ _ _ _ := by
    refine ⟨none, describing_of_calls ?_, fun _ _ he => by cases he⟩
    exact (consumer_calls cfg S copy.message).mono fun _ hc => hc.not_create
  run s i a c k r w _ _ _ hx hg h := by
    obtain ⟨stored, hp, hstored⟩ := h
    refine ⟨c.stores r stored, hp.2 r _ rfl, fun key blob he => ?_⟩
    rcases exec_cases hx with ⟨reason, -, rfl, -, -⟩ | ⟨v, rfl, -, hd⟩
    · have hsame : c.stores (.error reason) stored = stored := by cases c <;> rfl
      exact hg.objects _ _ (hstored key blob (hsame ▸ he))
    · cases c with
      | putObject key' body =>
        obtain rfl := hd
        obtain ⟨rfl, rfl⟩ := Prod.mk.inj (Option.some.inj he)
        exact Function.update_self _ _ _
      | _ => exact hg.objects _ _ (hstored key blob he)
  died _ _ _ := ⟨none, trivial, fun _ _ he => by cases he⟩

end Storing

/-! ## What the rows say -/

/-- The columns that only the upload writes. -/
structure Document.SameUpload (row row' : Document) : Prop where
  tenantId : row'.tenantId = row.tenantId
  title : row'.title = row.title
  contentType : row'.contentType = row.contentType
  byteSize : row'.byteSize = row.byteSize
  checksum : row'.checksum = row.checksum
  objectKey : row'.objectKey = row.objectKey

theorem Document.SameUpload.refl (row : Document) : row.SameUpload row :=
  ⟨rfl, rfl, rfl, rfl, rfl, rfl⟩

theorem Document.SameUpload.trans {a b c : Document} (h : a.SameUpload b) (h' : b.SameUpload c) :
    a.SameUpload c :=
  ⟨h'.tenantId.trans h.tenantId, h'.title.trans h.title, h'.contentType.trans h.contentType,
    h'.byteSize.trans h.byteSize, h'.checksum.trans h.checksum, h'.objectKey.trans h.objectKey⟩

theorem sameUpload_apply (u : DocumentUpdate) (row : Document) : row.SameUpload (u.apply row) :=
  ⟨rfl, rfl, rfl, rfl, rfl, rfl⟩

namespace Api

/-- The validations of the columns; the key's uniqueness is apart. -/
structure ValidColumns (row : Document) : Prop where
  contentType : blank row.contentType = false
  byteSize : row.byteSize ≠ 0
  checksum : blank row.checksum = false
  tenantId : blank row.tenantId = false

theorem validate_eq_nil {db : Db} {self : Option DocId} {row : Document} :
    validate db self row = [] ↔ ValidColumns row ∧ ∀ d < db.nextDocumentId, some d ≠ self →
      ∀ other, db.documents d = some other → other.objectKey ≠ row.objectKey := by
  have htaken : ((List.range db.nextDocumentId).any fun d =>
      some d ≠ self && (db.documents d).any fun other => other.objectKey = row.objectKey) = false ↔
        ∀ d < db.nextDocumentId, some d ≠ self →
          ∀ other, db.documents d = some other → other.objectKey ≠ row.objectKey := by
    simp [List.any_eq_false, Option.any_eq_false]
  rw [← htaken]
  simp only [validate, List.append_eq_nil_iff, ite_eq_right_iff, List.cons_ne_nil, imp_false,
    Bool.not_eq_true]
  constructor
  · rintro ⟨⟨⟨⟨h₁, h₂⟩, h₃⟩, h₄⟩, h₅⟩
    exact ⟨⟨h₂, h₃, h₄, h₅⟩, h₁⟩
  · rintro ⟨⟨h₂, h₃, h₄, h₅⟩, h₁⟩
    exact ⟨⟨⟨⟨h₁, h₂⟩, h₃⟩, h₄⟩, h₅⟩

end Api

/-- Every row describes its object, passes the validations and shares its key with no
other row. -/
structure World.Documented (cfg : Config) (w : World) : Prop where
  described : ∀ d row, w.db.documents d = some row → ∃ blob, w.objects row.objectKey = some blob ∧
    row.Describes cfg blob
  valid : ∀ d row, w.db.documents d = some row → Api.ValidColumns row
  unshared : ∀ d row d' row', w.db.documents d = some row → w.db.documents d' = some row' →
    row.objectKey = row'.objectKey → d = d'

section Documented
variable {cfg : Config} {i : Nat} {c : Call} {v : c.Val} {w w' : World} {d : DocId} {row row' : Document}

/-- A row keeps the columns of its upload, unless it is new. -/
theorem upload_of_does (hd : Does i c v w w') (hrow : w'.db.documents d = some row') :
    (∃ row, w.db.documents d = some row ∧ row.SameUpload row') ∨
      ∃ stored, c = .createDocument row' stored ∧ d = w.db.nextDocumentId ∧
        Api.validate w.db none row' = [] := by
  rcases of_documents_of_does hd hrow with hold | ⟨u, row, -, hold, rfl⟩ | ⟨stored, rfl⟩
  · exact Or.inl ⟨row', hold, .refl row'⟩
  · exact Or.inl ⟨row, hold, sameUpload_apply u row⟩
  · rcases hd with ⟨e, -, rfl⟩ | ⟨d', db, -, htx, rfl⟩
    · exact Or.inl ⟨row', hrow, .refl row'⟩
    · obtain ⟨hvalid, rfl, rfl⟩ := Api.createTransaction_ok htx
      rw [Db.recordEvent_documents, Db.insertDocument_documents] at hrow
      by_cases he : d = w.db.nextDocumentId
      · exact Or.inr ⟨stored, rfl, he, hvalid⟩
      · rw [if_neg he] at hrow
        exact Or.inl ⟨row', hrow, .refl row'⟩

/-- **A call keeps the rows in order**, if a new row describes what is stored. -/
theorem World.Documented.does (h : w.Documented cfg) (hok : w.db.Ok) (hg : Grows w w')
    (hd : Does i c v w w')
    (hnew : ∀ row stored, c = .createDocument row stored →
      ∃ blob, w.objects row.objectKey = some blob ∧ row.Describes cfg blob) :
    w'.Documented cfg := by
  refine ⟨fun d row' hrow' => ?_, fun d row' hrow' => ?_, fun d row₁ d' row₂ h₁ h₂ he => ?_⟩
  · rcases upload_of_does hd hrow' with ⟨row, hrow, hsame⟩ | ⟨stored, hc, -, -⟩
    · obtain ⟨blob, hblob, hdesc⟩ := h.described d row hrow
      refine ⟨blob, hsame.objectKey ▸ hg.objects _ _ hblob, ?_, ?_⟩
      · exact hsame.byteSize.trans hdesc.byteSize
      · exact hsame.checksum.trans hdesc.checksum
    · obtain ⟨blob, hblob, hdesc⟩ := hnew row' stored hc
      exact ⟨blob, hg.objects _ _ hblob, hdesc⟩
  · rcases upload_of_does hd hrow' with ⟨row, hrow, hsame⟩ | ⟨stored, -, -, hvalid⟩
    · obtain ⟨h₁, h₂, h₃, h₄⟩ := h.valid d row hrow
      exact ⟨hsame.contentType ▸ h₁, hsame.byteSize ▸ h₂, hsame.checksum ▸ h₃, hsame.tenantId ▸ h₄⟩
    · exact (Api.validate_eq_nil.mp hvalid).1
  · -- a new key is none that a row has
    have hfresh : ∀ {d row row'}, w.db.documents d = some row → Api.validate w.db none row' = [] →
        row.objectKey ≠ row'.objectKey := by
      intro d row row' hrow hvalid
      refine (Api.validate_eq_nil.mp hvalid).2 d ?_ (by simp) row hrow
      by_contra hlt
      rw [hok.unused d (not_lt.mp hlt)] at hrow
      cases hrow
    rcases upload_of_does hd h₁ with ⟨r₁, hr₁, hs₁⟩ | ⟨_, rfl, hn₁, hv₁⟩
    · rcases upload_of_does hd h₂ with ⟨r₂, hr₂, hs₂⟩ | ⟨_, rfl, hn₂, hv₂⟩
      · exact h.unshared d r₁ d' r₂ hr₁ hr₂ (by rw [← hs₁.objectKey, he, hs₂.objectKey])
      · exact absurd (hs₁.objectKey ▸ he) (hfresh hr₁ hv₂)
    · rcases upload_of_does hd h₂ with ⟨r₂, hr₂, hs₂⟩ | ⟨_, -, hn₂, hv₂⟩
      · exact absurd (hs₂.objectKey ▸ he.symm) (hfresh hr₂ hv₁)
      · exact hn₁.trans hn₂.symm

variable {ok : Sys → Label → Prop} {s s' : Sys}

theorem documented_of_reachable (h : Reachable cfg ok s) : s.world.Documented cfg := by
  refine (knows_tracks cfg ok).keeps ⟨?_, ?_, ?_⟩ ?_ ?_ h
  · exact fun d row hrow => by cases hrow
  · exact fun d row hrow => by cases hrow
  · exact fun d row d' row' hrow => by cases hrow
  · rintro w w' hdb hobjects - ⟨h₁, h₂, h₃⟩
    exact ⟨by rwa [hdb, hobjects], by rwa [hdb], by rwa [hdb]⟩
  · rintro s i c k v w hs - ⟨stored, hp, hstored⟩ hd - hg hw
    refine hw.does (reachable_base hs).db hg hd fun row details he => ?_
    obtain ⟨blob, hblob, hdesc⟩ := hp.1 row details he
    exact ⟨blob, hstored _ _ hblob, hdesc⟩

/-- A step keeps the columns of the upload. -/
theorem upload_of_step {l : Label} (hs : Reachable cfg ok s) (hstep : step cfg s l = some s')
    (hrow : s.world.db.documents d = some row) :
    ∃ row', s'.world.db.documents d = some row' ∧ row.SameUpload row' := by
  obtain ⟨row', hrow', -⟩ := (grows_of_step hs hstep).db.documents d row hrow
  refine ⟨row', hrow', ?_⟩
  rcases world_of_step hstep with he | hmove | ⟨i, a, c, k, v, -, -, hreply⟩
  · rw [he, hrow] at hrow'
    exact Option.some.inj hrow' ▸ .refl row
  · rw [db_of_envMove hmove, hrow] at hrow'
    exact Option.some.inj hrow' ▸ .refl row
  · rcases upload_of_does (does_of_reply hreply) hrow' with ⟨r, hr, hsame⟩ | ⟨stored, -, hnew, -⟩
    · exact Option.some.inj (hrow.symm.trans hr) ▸ hsame
    · rw [(reachable_base hs).db.unused d hnew.ge] at hrow
      cases hrow

theorem upload_of_reaches (hs : Reachable cfg ok s) (h : Reaches (step cfg) ok s s')
    (hrow : s.world.db.documents d = some row) :
    ∃ row', s'.world.db.documents d = some row' ∧ row.SameUpload row' := by
  induction h with
  | start => exact ⟨row, hrow, .refl row⟩
  | next h' _ hstep ih =>
    obtain ⟨r, hr, hsame⟩ := ih
    obtain ⟨r', hr', hsame'⟩ := upload_of_step (hs.trans h') hstep hr
    exact ⟨r', hr', hsame.trans hsame'⟩

end Documented

/-- A valid row that is not embedded: the keyword that `record_event!` does not have is all
that a manual retry meets. -/
theorem retryDocument_ends_of_valid {i : Nat} {w w' : World} {d : DocId} {row : Document}
    {o : Except Exc Api.Result} (hvalid : Api.validate w.db (some d) row = [])
    (hstatus : row.status ≠ .embedded) :
    Ends (replied i) (Api.retryDocument d row) w o w' ↔
      o = .error (.other "unknown keyword: :actor") ∧ w' = w := by
  obtain ⟨S, hstage⟩ := Api.exists_resumeStage hstatus
  have hraise : Api.retryTransaction w.db d row S =
      .error (.argumentError "unknown keyword: :actor") := by
    unfold Api.retryTransaction
    rw [if_neg (not_not.mpr hvalid)]
    rfl
  exact retryDocument_ends_iff hstage hraise

/-- **A document describes its object for good**, in every run: the object is stored and
not empty, byte size and checksum are those of its bytes, and the row passes every
validation of the model, so a manual retry of a document that is not embedded ends with the
unknown keyword and nothing else.  The row keeps what the upload wrote, and the object stays
as it is. -/
theorem document_describes_object {cfg : Config} {s : Sys} (h : Reachable cfg anyStep s) {d : DocId}
    {row : Document} (hrow : s.world.db.documents d = some row) :
    (∃ blob, s.world.objects row.objectKey = some blob ∧ blob ≠ [] ∧ row.byteSize = blob.length ∧
      row.checksum = cfg.sha256 blob) ∧
    Api.validate s.world.db (some d) row = [] ∧
    (row.status ≠ .embedded → ∀ i o w', Ends (replied i) (Api.retryDocument d row) s.world o w' ↔
      o = .error (.other "unknown keyword: :actor") ∧ w' = s.world) ∧
    ∀ s', Reaches (step cfg) anyStep s s' →
      (∃ row', s'.world.db.documents d = some row' ∧ row.SameUpload row') ∧
        s'.world.objects row.objectKey = s.world.objects row.objectKey := by
  have hdoc := documented_of_reachable h
  obtain ⟨blob, hblob, hdesc⟩ := hdoc.described d row hrow
  have hvalid : Api.validate s.world.db (some d) row = [] := by
    refine Api.validate_eq_nil.mpr ⟨hdoc.valid d row hrow, fun d' _ hne other hother he => hne ?_⟩
    rw [hdoc.unshared d' other d row hother hrow he]
  refine ⟨⟨blob, hblob, ?_, hdesc.byteSize, hdesc.checksum⟩, hvalid,
    fun hstatus i o w' => retryDocument_ends_of_valid hvalid hstatus,
    fun s' hs' => ⟨upload_of_reaches h hs' hrow, ?_⟩⟩
  · rintro rfl
    exact (hdoc.valid d row hrow).byteSize hdesc.byteSize
  · rw [hblob]
    exact (grows_of_reaches h hs').objects _ _ hblob

/-- The scan of the sample run: a manual retry just after its upload, and the row once it is
embedded. -/
theorem document_describes_object_sample : ∃ (s s' : Sys) (row row' : Document),
    s.world.db.documents 1 = some row ∧ row.status = .uploaded ∧
      (∃ blob, s.world.objects row.objectKey = some blob ∧ blob ≠ [] ∧ row.byteSize = blob.length ∧
        row.checksum = ['c']) ∧
      (∀ i o w', Ends (replied i) (Api.retryDocument 1 row) s.world o w' ↔
        o = .error (.other "unknown keyword: :actor") ∧ w' = s.world) ∧
    s'.world.db.documents 1 = some row' ∧ row'.status = .embedded ∧
      (∃ blob, s'.world.objects row'.objectKey = some blob ∧ blob ≠ [] ∧
        row'.byteSize = blob.length ∧ row'.checksum = ['c']) ∧
      Api.validate s'.world.db (some 1) row' = [] := by
  obtain ⟨s, row, hs, hrow, hstatus⟩ := exists_uploaded
  obtain ⟨s', hs', hstatus'⟩ := exists_run (step sampleConfig) .init wholeRun
    (fun s : Sys => (s.world.db.documents 1).map Document.status = some .embedded) (by decide)
  obtain ⟨row', hrow', hrs'⟩ := Option.map_eq_some_iff.mp hstatus'
  obtain ⟨hobject, -, hretry, -⟩ := document_describes_object hs hrow
  obtain ⟨hobject', hvalid', -⟩ := document_describes_object (.of_run hs') hrow'
  exact ⟨s, s', row, row', hrow, hstatus, hobject, hretry (by simp [hstatus]), hrow', hrs', hobject',
    hvalid'⟩

end DigitalCip
