import DigitalCip.Api.Operations
import DigitalCip.Chunker.Worker
import DigitalCip.Embedder.Worker
import DigitalCip.Ocr.Worker
import DigitalCip.Resumable.Run

/-!
# The whole system

Any number of executions run side by side: requests to the API, and one handler
execution for each delivery of a message to a worker.  A step of the system is
one call of one execution, or something the environment does: a request arrives,
the broker delivers a message, takes an unsettled delivery back or lets a TTL
expire, or the process that runs an execution dies.

A worker that dies holds nothing any more, and the broker requeues its unsettled
delivery.  The broker may also take a delivery back from a worker that is still
running (`redeliver`); that worker does not notice until it settles.
-/

namespace DigitalCip
open Resumable

/-- The shared world and the executions in progress. -/
abbrev Sys := Pool World Call Call.Reply Exc Unit

/-- The system before the first request. -/
def Sys.init : Sys where
  world := .empty
  progs := fun _ => none

/-- What happens next.  An execution is named by a number. -/
inductive Label where
  | upload (i : Nat) (upload : Option Api.Upload) (title : Option Text) (tenantId : Text)
  | retryRequest (i : Nat) (documentId : DocId)
  | deliver (i : Nat) (stage : Stage) (n : Nat)
  | run (i : Nat) (a : Answer)
  | die (i : Nat)
  | redeliver (i : Nat)
  | expire (stage : Stage) (n : Nat)

/-- The execution a label is about. -/
def Label.execution : Label → Option Nat
  | .upload i _ _ _ | .retryRequest i _ | .deliver i _ _ | .run i _ | .die i | .redeliver i => some i
  | .expire _ _ => none

/-- What the worker of a stage runs for a delivery of `m`. -/
def consumer (cfg : Config) : Stage → Message → Program Unit
  | .ocr => Ocr.onMessage cfg
  | .chunk => Chunker.handle cfg
  | .embed => Embedder.onMessage cfg

/-- A number that no execution has had. -/
def Sys.Unused (s : Sys) (i : Nat) : Prop :=
  (s.progs i).isNone ∧ (s.world.broker.deliveries i).isNone

instance (s : Sys) (i : Nat) : Decidable (s.Unused i) := inferInstanceAs (Decidable (_ ∧ _))

/-- The broker takes the delivery of execution `i` back, if it is unsettled. -/
def World.takeBack (w : World) (i : Nat) : World :=
  match w.broker.deliveries i with
  | some ⟨copy, q, true⟩ => { w with broker := w.broker.requeue i copy q }
  | _ => w

/-- How the execution of a dead process ends: no handler of its program sees it. -/
def died : Exc := .other "died"

/-- One step of the system. -/
def step (cfg : Config) (s : Sys) : Label → Option Sys
  | .upload i upload title tenantId =>
    if s.Unused i then
      some (s.spawn i (do let _ ← Api.createDocument cfg upload title tenantId; return ()))
    else none
  | .retryRequest i documentId =>
    if s.Unused i then some (s.spawn i (do let _ ← Api.retryAction documentId; return ())) else none
  | .deliver i stage n =>
    if s.Unused i then
      ((s.world.broker.queues ⟨stage, .work⟩)[n]?).map fun copy =>
        (s.move { s.world with broker := s.world.broker.deliver i ⟨stage, .work⟩ n copy }).spawn i
          (consumer cfg stage copy.message)
    else none
  | .run i a =>
    match s.progs i with
    | some (.call c k) =>
      (exec i c a s.world).map fun r => (s.move r.2).spawn i (k r.1)
    | _ => none
  | .die i =>
    if (s.progs i).isSome then
      some ((s.kill i died).move (s.world.takeBack i))
    else none
  | .redeliver i =>
    match s.world.broker.deliveries i with
    | some ⟨_, _, true⟩ => some (s.move (s.world.takeBack i))
    | _ => none
  | .expire stage n =>
    ((s.world.broker.queues ⟨stage, .retry⟩)[n]?).map fun copy =>
      s.move { s.world with broker := s.world.broker.expire ⟨stage, .retry⟩ n copy }

/-- The system reaches `s` by steps that `ok` admits. -/
abbrev Reachable (cfg : Config) (ok : Sys → Label → Prop) : Sys → Prop :=
  Reaches (step cfg) ok .init

/-- Every step is admitted. -/
def anyStep : Sys → Label → Prop := fun _ _ => True

/-! ## A document on its way

The labels of the runs in which one document takes one stage after the other and
every call succeeds; the runs that show a theorem's hypotheses to be met, or a
property to fail, are put together from them. -/

/-- Execution `i` gets these answers, one after the other. -/
def answers (i : Nat) (as : List Answer) : List Label := as.map (.run i)

/-- No call fails in the step. -/
def answered : Sys → Label → Bool
  | _, .run _ (.fail _) => false
  | _, _ => true

/-- Small settings. -/
def sampleConfig : Config where
  maxRetries := 3
  chunkSize := 200
  chunkOverlap := 20
  sha256 _ := ['c']

/-- A one-byte scan. -/
def sampleUpload : Api.Upload where
  body := [0]
  contentType := "image/png".toList
  filename := ['f']

/-- Execution 0 uploads the scan for tenant `t`; its ids are `u`, `m` and `x`. -/
def uploadRun : List Label :=
  .upload 0 (some sampleUpload) none ['t'] :: answers 0 [.id ['u'], .ok, .ok, .id ['m'], .id ['x'], .ok]

/-- What the engine reads in it. -/
def sampleText : Text := "Invoice 17, due in May".toList

/-- A model with 384 dimensions that tells texts apart by their first characters. -/
def sampleModel (t : Text) : Vec := (List.range 384).map fun n => (t.getD n ' ').toNat.toFloat

/-- Execution `i` recognises the text and hands the document on. -/
def ocrRun (i : Nat) : List Label :=
  .deliver i .ocr 0 :: answers i [.ok, .ok, .ok, .ok, .ok, .text sampleText 1, .ok, .ok, .ok, .ok, .ok]

/-- The chunk message that the OCR worker of `ocrRun` publishes. -/
def firstMessage : Message :=
  Ocr.nextMessage
    (Api.buildEnvelope .ocr 1 ['t'] { objectKey := some ⟨['t'], ['u']⟩ } 1 ['m'] ['x'])
    { objectKey := some ⟨['t'], ['u']⟩ }

/-- Execution `i` divides the text and hands the document on, under the id `e`. -/
def chunkRun (i : Nat) : List Label :=
  .deliver i .chunk 0 :: answers i [.ok, .ok, .ok, .ok, .ok, .ok, .ok, .ok, .id ['e'], .ok, .ok]

/-- Execution `i` embeds the one chunk. -/
def embedRun (i : Nat) : List Label :=
  .deliver i .embed 0 ::
    answers i [.ok, .ok, .ok, .ok, .ok, .vectors [sampleModel sampleText], .ok, .ok, .ok, .ok, .ok]

/-- The vectors of an answer are those of the model for the one chunk. -/
def Label.Embeds : Label → Prop
  | .run _ (.vectors vs) => vs = [sampleModel sampleText]
  | _ => True

/-- The document goes all the way. -/
def wholeRun : List Label := uploadRun ++ ocrRun 1 ++ chunkRun 2 ++ embedRun 3

/-! ## What each step is -/

section Steps
variable {cfg : Config} {s s' : Sys} {i : Nat}

theorem step_upload {upload title tenantId}
    (h : step cfg s (.upload i upload title tenantId) = some s') :
    s.Unused i ∧
      s' = s.spawn i (do let _ ← Api.createDocument cfg upload title tenantId; return ()) := by
  simp only [step] at h
  split at h
  · exact ⟨‹_›, (Option.some.inj h).symm⟩
  · cases h

theorem step_retryRequest {documentId} (h : step cfg s (.retryRequest i documentId) = some s') :
    s.Unused i ∧ s' = s.spawn i (do let _ ← Api.retryAction documentId; return ()) := by
  simp only [step] at h
  split at h
  · exact ⟨‹_›, (Option.some.inj h).symm⟩
  · cases h

theorem step_deliver {S n} (h : step cfg s (.deliver i S n) = some s') :
    ∃ copy, s.Unused i ∧ (s.world.broker.queues ⟨S, .work⟩)[n]? = some copy ∧
      s' = (s.move { s.world with broker := s.world.broker.deliver i ⟨S, .work⟩ n copy }).spawn i
        (consumer cfg S copy.message) := by
  simp only [step] at h
  split at h
  · obtain ⟨copy, hcopy, rfl⟩ := Option.map_eq_some_iff.mp h
    exact ⟨copy, ‹_›, hcopy, rfl⟩
  · cases h

theorem step_run {a} (h : step cfg s (.run i a) = some s') :
    ∃ c k r w, s.progs i = some (.call c k) ∧ exec i c a s.world = some (r, w) ∧
      s' = (s.move w).spawn i (k r) := by
  simp only [step] at h
  split at h
  · rename_i c k hp
    obtain ⟨⟨r, w⟩, hx, rfl⟩ := Option.map_eq_some_iff.mp h
    exact ⟨c, k, r, w, hp, hx, rfl⟩
  · cases h

theorem step_die (h : step cfg s (.die i) = some s') :
    (s.progs i).isSome ∧ s' = (s.kill i died).move (s.world.takeBack i) := by
  simp only [step] at h
  split at h
  · exact ⟨‹_›, (Option.some.inj h).symm⟩
  · cases h

theorem step_redeliver (h : step cfg s (.redeliver i) = some s') :
    ∃ copy, s.world.broker.Unsettled i copy ∧ s' = s.move (s.world.takeBack i) := by
  simp only [step] at h
  split at h
  · rename_i copy q hd
    exact ⟨copy, ⟨q, hd⟩, (Option.some.inj h).symm⟩
  · cases h

theorem step_expire {S n} (h : step cfg s (.expire S n) = some s') :
    ∃ copy, (s.world.broker.queues ⟨S, .retry⟩)[n]? = some copy ∧
      s' = s.move { s.world with broker := s.world.broker.expire ⟨S, .retry⟩ n copy } := by
  simp only [step] at h
  obtain ⟨copy, hcopy, rfl⟩ := Option.map_eq_some_iff.mp h
  exact ⟨copy, hcopy, rfl⟩

/-- What taking a delivery back does to the world. -/
theorem takeBack_cases (w : World) (i : Nat) :
    w.takeBack i = w ∨ ∃ copy q, w.broker.deliveries i = some ⟨copy, q, true⟩ ∧
      w.takeBack i = { w with broker := w.broker.requeue i copy q } := by
  unfold World.takeBack
  split
  · exact Or.inr ⟨_, _, ‹_›, rfl⟩
  · exact Or.inl rfl

end Steps
end DigitalCip
