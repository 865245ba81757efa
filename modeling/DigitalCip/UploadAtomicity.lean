import DigitalCip.IdempotencyKey

/-!
# An upload is not all or nothing

`CreateDocument#call` stores the object, then commits the row with its event, then
publishes the message.  The object store and the broker take no part in the
transaction, and nothing is undone: an upload that fails after the put leaves the
object behind, and one that fails at the publish leaves a document that never starts.
`allOrNothing_iff` says which uploads are all or nothing.
-/

namespace DigitalCip.Api
open Resumable

/-! ## What is promised -/

/-- The points at which the stores fail in `CreateDocument#call`. -/
inductive Fault where
  | put
  | insert
  | eventInsert
  | commit
  | publish
  deriving DecidableEq, Repr

/-- The calls that a fault makes fail.  The transaction is one call: whichever of its
statements fails, it is rolled back.  No statement is reached if the row is not valid. -/
def Fault.Strikes (w : World) : Fault → Call → Prop
  | .put, .putObject _ _ => True
  | .insert, .createDocument row _ | .eventInsert, .createDocument row _
  | .commit, .createDocument row _ => validate w.db none row = []
  | .publish, .publish _ _ _ => True
  | _, _ => False

/-- A call that fails if a fault strikes it, and succeeds otherwise. -/
def attempted (fault : Option Fault) (i : Nat) (c : Call) (w : World) (r : c.Reply) (w' : World) :
    Prop :=
  ∃ a, exec i c a w = some (r, w') ∧ ((∃ reason, a = .fail reason) ↔ ∃ f ∈ fault, f.Strikes w c)

/-- The operation returns success. -/
def Succeeds (o : Except Exc Result) : Prop := ∃ r, o = .ok r ∧ r.success = true

/-- One object, one row, one event and one message exist for the upload, and nothing
else has changed. -/
structure Complete (cfg : Config) (upload : Upload) (d : DocId) (row : Document)
    (event : ProcessingEvent) (copy : Copy) (w w' : World) : Prop where
  newKey : w.objects row.objectKey = none
  objects : w'.objects = Function.update w.objects row.objectKey (some upload.body)
  newDocument : w.db.documents d = none
  documents : w'.db.documents = Function.update w.db.documents d (some row)
  uploaded : row.status = .uploaded
  byteSize : row.byteSize = upload.body.length
  checksum : row.checksum = cfg.sha256 upload.body
  events : w'.db.events = w.db.events ++ [event]
  event : event.documentId = d ∧ event.stage = .upload ∧ event.toState = .uploaded
  queues : w'.broker.queues = Function.update w.broker.queues ⟨.ocr, .work⟩
    (w.broker.queues ⟨.ocr, .work⟩ ++ [copy])
  message : copy.message.body.stage = .ocr ∧ copy.message.body.documentId = d

/-- No object, no row, no event and no message is new. -/
structure Unchanged (w w' : World) : Prop where
  objects : w'.objects = w.objects
  documents : w'.db.documents = w.db.documents
  events : w'.db.events = w.db.events
  queues : w'.broker.queues = w.broker.queues

/-- An upload that took `w` to `w'` with the result `o` has done all or nothing. -/
def AllOrNothing (cfg : Config) (upload : Option Upload) (o : Except Exc Result) (w w' : World) :
    Prop :=
  (Succeeds o ∧ ∃ u ∈ upload, ∃ d row event copy, Complete cfg u d row event copy w w') ∨
    ¬ Succeeds o ∧ Unchanged w w'

/-- The upload is refused before the put, or the put fails; or no store fails and the
row is valid. -/
def Unharmed (cfg : Config) (tenantId : Text) (fault : Option Fault) : Option Upload → Prop
  | none => True
  | some upload => blank upload.contentType = true ∨ fault = some .put ∨
      fault = none ∧ upload.body ≠ [] ∧ blank (cfg.sha256 upload.body) = false ∧
        blank tenantId = false

/-! ## One call -/

section Calls
variable {fault : Option Fault} {i : Nat} {c : Call} {α : Type} {w w' : World}

/-- A call and what comes after it. -/
theorem ends_attempted {f : c.Val → Program α} {o : Except Exc α}
    (h : Ends (attempted fault i) (call c >>= f) w o w') :
    (∃ k ∈ fault, k.Strikes w c) ∧ (∃ e, o = .error e) ∧ w' = w ∨
      (¬ ∃ k ∈ fault, k.Strikes w c) ∧
        ∃ v w₁, (∃ a, reply i c a w = some (v, w₁)) ∧ Ends (attempted fault i) (f v) w₁ o w' := by
  obtain ⟨r, w₁, ⟨a, hx, hfail⟩, hk⟩ := Ends.of_call h
  rcases exec_cases hx with ⟨reason, rfl, rfl, -, rfl⟩ | ⟨v, rfl, hreply, -⟩
  · obtain ⟨rfl, rfl⟩ := Ends.of_raise hk
    exact Or.inl ⟨hfail.mp ⟨reason, rfl⟩, ⟨_, rfl⟩, rfl⟩
  · refine Or.inr ⟨fun hstrikes => ?_, v, w₁, ⟨a, hreply⟩, hk⟩
    obtain ⟨reason, rfl⟩ := hfail.mpr hstrikes
    cases c <;> cases hreply

theorem not_succeeds_error (e : Exc) : ¬ Succeeds (.error e) := fun ⟨_, h, _⟩ => nomatch h

/-- An id is generated. -/
theorem ends_freshId {f : Text → Program α} {o : Except Exc α}
    (h : Ends (attempted fault i) (call .freshId >>= f) w o w') :
    ∃ t, FreshId w t ∧
      Ends (attempted fault i) (f t) { w with ids := (i, t) :: w.ids } o w' := by
  rcases ends_attempted h with ⟨⟨k, -, hstrikes⟩, -⟩ | ⟨-, t, w₁, ⟨a, hreply⟩, hk⟩
  · cases k <;> cases hstrikes
  · obtain ⟨hfresh, rfl⟩ := does_of_reply hreply
    exact ⟨t, hfresh, hk⟩

/-- `publish` raises, or its message is in the queue of its stage. -/
theorem publish_ends {S : Stage} {d : DocId} {tenantId : Text} {payload : Payload} {attempt : Int}
    {o : Except Exc Envelope}
    (h : Ends (attempted fault i) (publish S d tenantId payload attempt) w o w') :
    w'.objects = w.objects ∧ w'.db = w.db ∧
      (fault = some .publish ∧ (∃ e, o = .error e) ∨
        fault ≠ some .publish ∧ ∃ env copy, o = .ok env ∧ copy.message.body.stage = S ∧
          copy.message.body.documentId = d ∧ w'.broker.queues =
            Function.update w.broker.queues ⟨S, .work⟩ (w.broker.queues ⟨S, .work⟩ ++ [copy])) := by
  unfold publish at h
  obtain ⟨messageId, -, h⟩ := ends_freshId h
  obtain ⟨traceId, -, h⟩ := ends_freshId h
  dsimp only at h
  rcases ends_attempted h with ⟨⟨k, hk, hstrikes⟩, he, rfl⟩ | ⟨hno, v, w₁, ⟨a, hreply⟩, h⟩
  · refine ⟨rfl, rfl, Or.inl ⟨?_, he⟩⟩
    cases k with
    | publish => exact hk
    | _ => cases hstrikes
  · obtain rfl := does_of_reply hreply
    obtain ⟨rfl, rfl⟩ := Ends.of_ret h
    refine ⟨rfl, rfl, Or.inr ⟨?_, _, ⟨w.broker.nextCopy, w.broker.nextCopy, publishedMessage
      (buildEnvelope S d tenantId payload attempt messageId traceId)⟩, rfl, rfl, rfl, ?_⟩⟩
    · rintro rfl
      exact hno ⟨.publish, rfl, trivial⟩
    · show (Broker.publish _ i .ingest ⟨S, .work⟩ _).queues = _
      rw [Broker.publish_ingest]
      rfl

end Calls

/-! ## The operation -/

/-- The upload event. -/
def uploadEvent (d : DocId) (stored : Details) : ProcessingEvent :=
  { documentId := d, stage := .upload, fromState := none, toState := .uploaded,
    message := some "Document accepted", payload := stored }

section Transaction
variable {row : Document} {stored : Details} {i : Nat} {a : Answer} {w w' : World}
  {v : Except RubyError DocId} {db : Db}
  (h : reply i (.createDocument row stored) a w = some (v, w')) (hdb : w.db = db)

include h hdb

/-- The transaction commits if the row is valid. -/
theorem reply_createDocument (hvalid : validate db none row = []) :
    v = .ok db.nextDocumentId ∧ w' =
      { w with db := (db.insertDocument row).recordEvent (uploadEvent db.nextDocumentId stored)
               created := (i, db.nextDocumentId) :: w.created } := by
  subst hdb
  have htx : createTransaction w.db row stored = .ok (w.db.nextDocumentId,
      (w.db.insertDocument row).recordEvent (uploadEvent w.db.nextDocumentId stored)) := by
    unfold createTransaction
    rw [if_neg (not_not.mpr hvalid)]
    rfl
  cases a <;> simp only [reply, reduceCtorEq, htx] at h
  obtain ⟨rfl, rfl⟩ := Prod.mk.inj (Option.some.inj h)
  exact ⟨rfl, rfl⟩

/-- It is rolled back if the row is not valid. -/
theorem reply_createDocument_of_invalid (hvalid : validate db none row ≠ []) :
    (∃ messages, v = .error (.recordInvalid messages)) ∧ w' = w := by
  subst hdb
  have htx : createTransaction w.db row stored = .error (.recordInvalid (validate w.db none row)) := by
    unfold createTransaction
    rw [if_pos hvalid]
  cases a <;> simp only [reply, reduceCtorEq, htx] at h
  obtain ⟨rfl, rfl⟩ := Prod.mk.inj (Option.some.inj h)
  exact ⟨⟨_, rfl⟩, rfl⟩

end Transaction

section Operation
variable {cfg : Config} {upload : Upload} {title : Option Text} {tenantId : Text}
  {fault : Option Fault} {i : Nat} {w w' : World} {o : Except Exc Result} {key : ObjectKey}
  {blob : Blob}

/-- Under a new key the row is valid if the file is not empty, and has a type, a checksum
and a tenant. -/
theorem validate_newDocument (hb : Base w) (hkey : w.objects key = none) :
    validate w.db none (newDocument cfg upload title tenantId key) = [] ↔
      blank upload.contentType = false ∧ upload.body ≠ [] ∧
        blank (cfg.sha256 upload.body) = false ∧ blank tenantId = false := by
  have htaken : ((List.range w.db.nextDocumentId).any fun d =>
      some d ≠ none && (w.db.documents d).any fun other => other.objectKey = key) = false := by
    rw [List.any_eq_false]
    intro d _ htaken
    obtain ⟨other, hother, he⟩ := (Option.any_eq_true _ _).mp (Bool.and_eq_true_iff.mp htaken).2
    obtain ⟨blob, hblob, -⟩ := hb.files.stored d other hother
    rw [of_decide_eq_true he, hkey] at hblob
    cases hblob
  unfold validate newDocument
  dsimp only
  rw [htaken]
  simp

/-- **What an upload leaves**: nothing, if the put fails; the object alone or with its row
and event, if the row is not valid or a later call fails; all, if none fails. -/
theorem createDocument_ends (hb : Base w) (htype : blank upload.contentType = false)
    (h : Ends (attempted fault i) (createDocument cfg (some upload) title tenantId) w o w') :
    ∃ key, w.objects key = none ∧
      (fault = some .put ∧ ¬ Succeeds o ∧ Unchanged w w' ∨
        fault ≠ some .put ∧ ¬ Succeeds o ∧
          w'.objects = Function.update w.objects key (some upload.body) ∧
          (fault ≠ none ∨ validate w.db none (newDocument cfg upload title tenantId key) ≠ []) ∨
        fault = none ∧ validate w.db none (newDocument cfg upload title tenantId key) = [] ∧
          Succeeds o ∧ ∃ d row event copy, Complete cfg upload d row event copy w w') := by
  unfold createDocument at h
  dsimp only at h
  rw [if_neg (by simp [htype])] at h
  obtain ⟨uuid, hfresh, h⟩ := ends_freshId h
  -- nothing is stored under an id that has not been handed out
  have hkey : w.objects ⟨tenantId, uuid⟩ = none := by
    by_contra hstored
    obtain ⟨blob, hblob⟩ := Option.ne_none_iff_exists'.mp hstored
    obtain ⟨j, hj⟩ := hb.files.owned _ blob hblob
    exact hfresh.1 _ hj rfl
  refine ⟨⟨tenantId, uuid⟩, hkey, ?_⟩
  rcases ends_attempted h with ⟨⟨k, hk, hstrikes⟩, ⟨e, rfl⟩, rfl⟩ | ⟨hput, v, w₁, ⟨a, hreply⟩, h⟩
  · obtain rfl : k = .put := by cases k <;> first | rfl | cases hstrikes
    exact Or.inl ⟨hk, not_succeeds_error e, rfl, rfl, rfl, rfl⟩
  obtain rfl := does_of_reply hreply
  clear hreply
  have hput : fault ≠ some .put := by
    rintro rfl
    exact hput ⟨.put, rfl, trivial⟩
  right
  rcases ends_attempted h with ⟨⟨k, hk, -⟩, ⟨e, rfl⟩, rfl⟩ | ⟨htx, v, w₂, ⟨a, hreply⟩, h⟩
  · left
    refine ⟨hput, not_succeeds_error e, rfl, Or.inl ?_⟩
    rintro rfl
    cases hk
  by_cases hvalid : validate w.db none (newDocument cfg upload title tenantId ⟨tenantId, uuid⟩) = []
  · obtain ⟨rfl, rfl⟩ := reply_createDocument hreply rfl hvalid
    rcases Ends.of_bind h with ⟨e, rfl, hp⟩ | ⟨env, w₃, hp, h⟩
    · -- the publish fails, and the row stays
      obtain ⟨hobjects, -, ⟨rfl, -⟩ | ⟨-, env, copy, he, -⟩⟩ := publish_ends hp
      · exact Or.inl ⟨hput, not_succeeds_error e, hobjects, Or.inl (by simp)⟩
      · cases he
    · right
      obtain ⟨hobjects, hdb, ⟨-, e, he⟩ | ⟨hpublish, env', copy, -, hstage, hdoc, hqueues⟩⟩ :=
        publish_ends hp
      · cases he
      obtain ⟨rfl, rfl⟩ := Ends.of_ret h
      have hnone : fault = none := by
        rcases fault with _ | _ | _ | _ | _ | _
        · rfl
        · exact absurd rfl hput
        · exact absurd ⟨_, rfl, hvalid⟩ htx
        · exact absurd ⟨_, rfl, hvalid⟩ htx
        · exact absurd ⟨_, rfl, hvalid⟩ htx
        · exact absurd rfl hpublish
      refine ⟨hnone, hvalid, ⟨_, rfl, rfl⟩, w.db.nextDocumentId, newDocument cfg upload title tenantId
        ⟨tenantId, uuid⟩, uploadEvent w.db.nextDocumentId (storedDetails cfg upload ⟨tenantId, uuid⟩),
        copy, ?_⟩
      exact
        { newKey := hkey
          objects := hobjects
          newDocument := hb.db.unused _ (le_refl _)
          documents := congrArg Db.documents hdb
          uploaded := rfl
          byteSize := rfl
          checksum := rfl
          events := congrArg Db.events hdb
          event := ⟨rfl, rfl, rfl⟩
          queues := hqueues
          message := ⟨hstage, hdoc⟩ }
  · left
    obtain ⟨⟨messages, rfl⟩, rfl⟩ := reply_createDocument_of_invalid hreply rfl hvalid
    obtain ⟨rfl, rfl⟩ := Ends.of_ret h
    refine ⟨hput, ?_, rfl, Or.inr hvalid⟩
    rintro ⟨r, hr, hsuccess⟩
    obtain rfl := Except.ok.inj hr
    cases hsuccess

/-- An object that is left behind by an upload that fails is neither all nor nothing. -/
theorem not_allOrNothing {upload : Option Upload} (hkey : w.objects key = none)
    (hobjects : w'.objects = Function.update w.objects key (some blob)) (hfails : ¬ Succeeds o) :
    ¬ AllOrNothing cfg upload o w w' := by
  rintro (⟨hsucceeds, -⟩ | ⟨-, hunchanged⟩)
  · exact hfails hsucceeds
  · have he := congrFun (hobjects.symm.trans hunchanged.objects) key
    rw [Function.update_self, hkey] at he
    cases he

end Operation

/-! ## It ends -/

/-- Every call of an upload is answered, by a failure if the fault strikes it. -/
theorem exists_attempted {fault : Option Fault} {i : Nat} {c : Call} (hc : UploadCall c) (w : World) :
    ∃ r w', attempted fault i c w r w' := by
  by_cases hstrikes : ∃ f ∈ fault, f.Strikes w c
  · have hremote : c.remote = true := by
      obtain ⟨f, -, hf⟩ := hstrikes
      cases c with
      | freshId => cases f <;> cases hf
      | _ => rfl
    refine ⟨.error "", w, .fail "", ?_, fun _ => hstrikes, fun _ => ⟨"", rfl⟩⟩
    simp [exec, hremote]
  · have hsucceeds : ∃ a r, reply i c a w = some r := by
      cases c with
      | freshId =>
        obtain ⟨t, ht⟩ := exists_freshId w
        exact ⟨.id t, _, if_pos ht⟩
      | putObject key body => exact ⟨.ok, _, rfl⟩
      | publish exchange key m => exact ⟨.ok, _, rfl⟩
      | createDocument row stored =>
        refine ⟨.ok, ?_⟩
        cases htx : createTransaction w.db row stored with
        | error e => exact ⟨(.error e, w), by simp only [reply, htx]⟩
        | ok r => exact ⟨(.ok r.1, _), by simp only [reply, htx]; rfl⟩
      | _ => exact hc.elim
    obtain ⟨a, ⟨v, w'⟩, hreply⟩ := hsucceeds
    refine ⟨.ok v, w', a, exec_of_reply hreply, ?_, fun h => absurd h hstrikes⟩
    rintro ⟨reason, rfl⟩
    cases c <;> cases hreply

theorem upload_ends (cfg : Config) (upload : Option Upload) (title : Option Text) (tenantId : Text)
    (fault : Option Fault) (i : Nat) (w : World) :
    ∃ o w', Ends (attempted fault i) (createDocument cfg upload title tenantId) w o w' :=
  Ends.exists_of_calls (createDocument_calls cfg upload title tenantId)
    (fun _ w hc => exists_attempted hc w) w

/-! ## Every upload -/

/-- **An upload is all or nothing if and only if** it is refused before the put, or the
put fails, or no store fails and the row is valid.  It is made in any state that the
system can be in, and always ends.  A store that fails has done nothing: one whose reply is lost
after the fact is not among the faults. -/
theorem allOrNothing_iff (cfg : Config) (s : Sys) (h : Reachable cfg anyStep s)
    (upload : Option Upload) (title : Option Text) (tenantId : Text) (fault : Option Fault) (i : Nat) :
    (∃ o w', Ends (attempted fault i) (createDocument cfg upload title tenantId) s.world o w') ∧
      ∀ o w', Ends (attempted fault i) (createDocument cfg upload title tenantId) s.world o w' →
        (AllOrNothing cfg upload o s.world w' ↔ Unharmed cfg tenantId fault upload) := by
  refine ⟨upload_ends cfg upload title tenantId fault i s.world, fun o w' hends => ?_⟩
  have hb := reachable_base h
  cases upload with
  | none =>
    obtain ⟨rfl, rfl⟩ := Ends.of_raise hends
    exact iff_of_true (Or.inr ⟨not_succeeds_error _, rfl, rfl, rfl, rfl⟩) trivial
  | some upload =>
    cases htype : blank upload.contentType with
    | true =>
      unfold createDocument at hends
      dsimp only at hends
      rw [if_pos htype] at hends
      obtain ⟨rfl, rfl⟩ := Ends.of_raise hends
      exact iff_of_true (Or.inr ⟨not_succeeds_error _, rfl, rfl, rfl, rfl⟩) (Or.inl htype)
    | false =>
      obtain ⟨key, hkey, hcases⟩ := createDocument_ends hb htype hends
      rw [Unharmed, htype]
      rcases hcases with ⟨hput, hfails, hunchanged⟩ | ⟨hput, hfails, hobjects, hcause⟩ |
        ⟨hnone, hvalid, hsucceeds, hcomplete⟩
      · exact iff_of_true (Or.inr ⟨hfails, hunchanged⟩) (Or.inr (Or.inl hput))
      · refine iff_of_false (not_allOrNothing hkey hobjects hfails) ?_
        rintro (hblank | hput' | ⟨hnone, hrest⟩)
        · cases hblank
        · exact hput hput'
        · exact hcause.elim (fun hfault => hfault hnone) fun hvalid =>
            hvalid ((validate_newDocument hb hkey).mpr ⟨htype, hrest⟩)
      · exact iff_of_true (Or.inl ⟨hsucceeds, upload, rfl, hcomplete⟩)
          (Or.inr (Or.inr ⟨hnone, ((validate_newDocument hb hkey).mp hvalid).2⟩))

/-- The first upload, which nothing disturbs. -/
theorem allOrNothing_first : ∃ o w', AllOrNothing sampleConfig (some sampleUpload) o .empty w' := by
  obtain ⟨⟨o, w', hends⟩, hiff⟩ := allOrNothing_iff sampleConfig .init .start (some sampleUpload) none
    ['t'] none 0
  exact ⟨o, w', (hiff o w' hends).mpr (Or.inr (Or.inr ⟨rfl, by decide, by decide, by decide⟩))⟩

/-- **The broker does not take the message of the first upload**: the object, the row and
the event stay. -/
theorem not_uploadAllOrNothing : ¬ ∀ (cfg : Config) (upload : Option Upload) (title : Option Text)
    (tenantId : Text) (fault : Option Fault) (i : Nat) (o : Except Exc Result) (w' : World),
    Ends (attempted fault i) (createDocument cfg upload title tenantId) .empty o w' →
      AllOrNothing cfg upload o .empty w' := by
  intro hall
  obtain ⟨o, w', hends⟩ := upload_ends sampleConfig (some sampleUpload) none ['t'] (some .publish) 0
    .empty
  obtain ⟨key, hkey, ⟨he, -⟩ | ⟨-, hfails, hobjects, -⟩ | ⟨he, -⟩⟩ :=
    createDocument_ends .empty (by decide) hends
  · cases he
  · exact not_allOrNothing hkey hobjects hfails (hall _ _ _ _ _ _ _ _ hends)
  · cases he

end DigitalCip.Api
