import DigitalCip.Database
import DigitalCip.Whitespace

/-!
# The `Document` model of the API

The validations of `document.rb`, `Document#record_event!` with its keyword
arguments, and the two database transactions the API runs: the one of
`CreateDocument#call` and the one of `RetryDocument#call`.  A Ruby exception
inside a transaction block rolls it back, so a transaction is a function that
returns the exception or the database after the commit.
-/

namespace DigitalCip.Api

/-- The Ruby exceptions the operations raise themselves. -/
inductive RubyError where
  | argumentError (message : String)
  | recordInvalid (messages : List String)
  deriving DecidableEq, Repr

/-- `String#blank?`. -/
def blank (t : Text) : Bool := (trimSpace t).isEmpty

/-- The validations of `Document`, as the messages of the ones that fail.  `self`
is the id of the row when it is already stored. -/
def validate (db : Db) (self : Option DocId) (row : Document) : List String :=
  let taken := (List.range db.nextDocumentId).any fun d =>
    some d ≠ self && (db.documents d).any fun other => other.objectKey = row.objectKey
  (if taken then ["Object key has already been taken"] else []) ++
  (if blank row.contentType then ["Content type can't be blank"] else []) ++
  (if row.byteSize = 0 then ["Byte size must be greater than 0"] else []) ++
  (if blank row.checksum then ["Checksum can't be blank"] else []) ++
  (if blank row.tenantId then ["Tenant can't be blank"] else [])

/-- A keyword argument of a call to `record_event!`. -/
inductive Argument where
  | stage (stage : EventStage)
  | fromState (state : Option Status)
  | toState (state : Status)
  | message (message : String)
  | payload (payload : Details)
  | actor (actor : String)
  deriving DecidableEq, Repr

namespace Argument

def stage? : Argument → Option EventStage
  | .stage s => some s
  | _ => none

def fromState? : Argument → Option (Option Status)
  | .fromState s => some s
  | _ => none

def toState? : Argument → Option Status
  | .toState s => some s
  | _ => none

def message? : Argument → Option String
  | .message m => some m
  | _ => none

def payload? : Argument → Option Details
  | .payload p => some p
  | _ => none

/-- `record_event!(stage:, to_state:, from_state: nil, message: nil, payload: {})`
has no parameter `actor`. -/
def unknown : Argument → Bool
  | .actor _ => true
  | _ => false

end Argument

/-- `Document#record_event!`: bind the keyword arguments, then create the event.
Ruby raises an `ArgumentError` for a missing or an unknown keyword; the `actor`
of the event is the default of the column. -/
def recordEvent! (documentId : DocId) (arguments : List Argument) :
    Except RubyError ProcessingEvent :=
  match arguments.findSome? Argument.stage?, arguments.findSome? Argument.toState? with
  | none, _ => .error (.argumentError "missing keyword: :stage")
  | _, none => .error (.argumentError "missing keyword: :to_state")
  | some stage, some toState =>
    if arguments.any Argument.unknown then .error (.argumentError "unknown keyword: :actor")
    else .ok
      { documentId := documentId
        stage := stage
        fromState := (arguments.findSome? Argument.fromState?).getD none
        toState := toState
        message := arguments.findSome? Argument.message?
        payload := (arguments.findSome? Argument.payload?).getD [] }

/-- The transaction of `CreateDocument#call`, after the object has been stored:
`Document.create!` and the upload event. -/
def createTransaction (db : Db) (row : Document) (stored : Details) :
    Except RubyError (DocId × Db) :=
  if validate db none row ≠ [] then .error (.recordInvalid (validate db none row))
  else
    match recordEvent! db.nextDocumentId
        [.stage .upload, .fromState none, .toState .uploaded, .message "Document accepted",
          .payload stored] with
    | .error e => .error e
    | .ok event => .ok (db.nextDocumentId, (db.insertDocument row).recordEvent event)

/-- `@document.update!(failure_reason: nil, retry_count: …)`, on the row the
operation loaded. -/
def clearFailure (db : Db) (documentId : DocId) (document : Document) : Db :=
  { db with
    documents := Function.update db.documents documentId
      ((db.documents documentId).map fun row =>
        { row with failureReason := none, retryCount := document.retryCount + 1 }) }

/-- The transaction of `RetryDocument#call`. -/
def retryTransaction (db : Db) (documentId : DocId) (document : Document) (stage : Stage) :
    Except RubyError Db :=
  if validate db (some documentId) document ≠ [] then
    .error (.recordInvalid (validate db (some documentId) document))
  else
    match recordEvent! documentId
        [.stage (.work stage), .toState document.status, .actor "operator",
          .message "Manual retry requested"] with
    | .error e => .error e
    | .ok event => .ok ((clearFailure db documentId document).recordEvent event)

/-! ## The outcome of the transactions -/

/-- A call that passes `actor:` never creates an event. -/
theorem recordEvent!_of_unknown {documentId : DocId} {arguments : List Argument}
    (h : arguments.any Argument.unknown = true) (event : ProcessingEvent) :
    recordEvent! documentId arguments ≠ .ok event := by
  unfold recordEvent!
  split
  · simp
  · simp
  · simp [h]

/-- **The retry transaction never commits**: it raises before its end on every
row of every database. -/
theorem retryTransaction_raises (db : Db) (documentId : DocId) (document : Document)
    (stage : Stage) : ∃ e, retryTransaction db documentId document stage = .error e := by
  unfold retryTransaction
  split
  · exact ⟨_, rfl⟩
  · split
    · rename_i e _
      exact ⟨e, rfl⟩
    · rename_i event h
      exact absurd h (recordEvent!_of_unknown (by rfl) event)

/-- What a committed upload transaction did. -/
theorem createTransaction_ok {db db' : Db} {row : Document} {stored : Details} {d : DocId}
    (h : createTransaction db row stored = .ok (d, db')) :
    validate db none row = [] ∧ d = db.nextDocumentId ∧
      db' = (db.insertDocument row).recordEvent
        { documentId := d, stage := .upload, fromState := none, toState := .uploaded,
          message := some "Document accepted", payload := stored } := by
  unfold createTransaction at h
  split at h
  · cases h
  · rename_i hvalid
    have hd : d = db.nextDocumentId := by cases h; rfl
    subst hd
    cases h
    exact ⟨not_not.mp hvalid, rfl, rfl⟩

theorem validate_byteSize {db : Db} {self : Option DocId} {row : Document}
    (h : validate db self row = []) : row.byteSize ≠ 0 := by
  intro h0
  simp [validate, h0] at h

end DigitalCip.Api
