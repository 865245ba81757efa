import DigitalCip.Invariant.Orderly
import DigitalCip.Invariant.Tracking
import DigitalCip.Resumable.Automaton

/-!
# What a handler computes its writes from

A handler writes what it has computed from what it has read: the text the engine reads in
the object it has downloaded, the pieces of the text it has fetched, the vectors of the
contents it has fetched.  The rows may have changed in between; what `Learned` keeps is
what they were when they were read.
-/

namespace DigitalCip
open Resumable

/-- What a handler has read of its document. -/
structure Learned where
  row : Option Document := none
  blob : Option Blob := none
  pending : List PendingChunk := []

/-- What a reply adds to it. -/
def Call.teaches : (c : Call) → c.Reply → Learned → Learned
  | .fetchDocument _, .ok found, known => { known with row := found }
  | .downloadObject _, .ok blob, known => { known with blob := some blob }
  | .fetchChunksWithoutEmbedding _, .ok pending, known => { known with pending := pending }
  | _, _, known => known

/-- The reply is one that the engine or the model can give. -/
def Truth.Says (T : Truth) : (c : Call) → c.Reply → Prop
  | .extractText blob contentType, .ok v => T.reads blob contentType v.1
  | .embedBatch texts, .ok vectors => List.Forall₂ T.models texts vectors
  | _, _ => True

/-- What the handler of a stage-`S` message `env` may write once it has read `known`. -/
def Founded (cfg : Config) (T : Truth) (S : Stage) (env : Envelope) (known : Learned) : Call → Prop
  | .fetchDocument d => d = env.documentId
  | .downloadObject key => S = .ocr ∧ ∃ row, known.row = some row ∧
      key = env.payload.objectKey.getD row.objectKey
  | .fetchChunksWithoutEmbedding d => d = env.documentId
  | .updateDocument d u => d = env.documentId ∧ ∀ t, u.rawText = some t → ¬ Blank t ∧
      ∃ row blob, known.row = some row ∧ known.blob = some blob ∧ T.reads blob row.contentType t
  | .insertChunks d rows => d = env.documentId ∧ ∃ row t, known.row = some row ∧
      row.rawText = some t ∧ rows = Chunker.chunkRows (Chunker.split t cfg.chunkSize cfg.chunkOverlap)
  | .writeEmbeddings rows => ∀ r ∈ rows, ∃ c ∈ known.pending, c.id = r.1 ∧ T.models c.content r.2
  | .createDocument _ _ => False
  | _ => True

/-- A handler writes what is founded on what it has read. -/
def learning (cfg : Config) (T : Truth) (S : Stage) (env : Envelope) :
    Automaton Learned Call Call.Reply where
  moves c known r known' := T.Says c r ∧ known' = c.teaches r known
  owed known c := Founded cfg T S env known c

section Learning
variable {cfg : Config} {T : Truth} {S : Stage} {env : Envelope} {α : Type} {known : Learned}
  {Q : α → Learned → Prop} {E : Exc → Learned → Prop} {c : Call}

/-- A call that is answered without teaching anything. -/
def Call.Dull : Call → Prop
  | .fetchDocument _ | .downloadObject _ | .fetchChunksWithoutEmbedding _ => False
  | _ => True

theorem teaches_of_dull (h : c.Dull) (r : c.Reply) : c.teaches r known = known := by
  cases c <;> cases r <;> first | rfl | exact h.elim

theorem teaches_error (reason : String) : c.teaches (.error reason) known = known := by
  cases c <;> rfl

/-- A call in Python. -/
theorem accepts_learn {k : c.Val → Program α} (hc : Founded cfg T S env known c)
    (hE : ∀ reason, E (.other reason) known)
    (hk : ∀ v, T.Says c (.ok v) → (learning cfg T S env).Accepts (k v) Q E (c.teaches (.ok v) known)) :
    (learning cfg T S env).Accepts (call c >>= k) Q E known := by
  rw [Automaton.accepts_bind]
  refine Automaton.accepts_perform hc ?_
  rintro r _ ⟨hsaid, rfl⟩
  cases r with
  | error reason => exact (teaches_error reason).symm ▸ hE reason
  | ok v => exact hk v hsaid

/-- Whatever a program of dull calls does, it learns nothing. -/
theorem accepts_of_dull {p : Program α}
    (hp : p.Calls fun c => c.Dull ∧ Founded cfg T S env known c) :
    (learning cfg T S env).Accepts p (fun _ known' => known' = known) (fun _ known' => known' = known)
      known := by
  induction p with
  | ret | raise => rfl
  | call c k ih =>
    refine ⟨hp.1.2, ?_⟩
    rintro r _ ⟨-, rfl⟩
    rw [teaches_of_dull hp.1.1]
    exact ih r (hp.2 r)

/-- The calls by which a delivery is settled or the next message is published. -/
theorem dull_of_settling {m : Message} (h : Settling S m c) :
    c.Dull ∧ Founded cfg T S env known c := by
  cases c with
  | publish | ack | nack => exact ⟨trivial, trivial⟩
  | _ => exact h.elim

theorem dull_of_handing {S' : Stage} {d : DocId} (h : Handing S' d c) :
    c.Dull ∧ Founded cfg T S env known c := by
  cases c with
  | publish | freshId => exact ⟨trivial, trivial⟩
  | _ => exact h.elim

/-- The program writes nothing else. -/
abbrev Founds (cfg : Config) (T : Truth) (S : Stage) (env : Envelope) (p : Program α)
    (known : Learned) : Prop :=
  (learning cfg T S env).Accepts p (fun _ _ => True) (fun _ _ => True) known

theorem founds_of_dull {p : Program α} (hp : p.Calls fun c => c.Dull ∧ Founded cfg T S env known c) :
    Founds cfg T S env p known :=
  (accepts_of_dull hp).mono (fun _ _ _ => trivial) fun _ _ _ => trivial

theorem founds_bind {β : Type} {p : Program α} {f : α → Program β} (hp : Founds cfg T S env p known)
    (hf : ∀ v known, Founds cfg T S env (f v) known) : Founds cfg T S env (p >>= f) known := by
  rw [Founds, Automaton.accepts_bind]
  exact hp.mono (fun v known' _ => hf v known') fun _ _ _ => trivial

theorem founds_tryCatch {p : Program α} {f : Exc → Program α} (hp : Founds cfg T S env p known)
    (hf : ∀ e known, Founds cfg T S env (f e) known) : Founds cfg T S env (tryCatch p f) known :=
  hp.tryCatch fun e known' _ => hf e known'

theorem founds_call {k : c.Val → Program α} (hc : Founded cfg T S env known c)
    (hk : ∀ v, T.Says c (.ok v) → Founds cfg T S env (k v) (c.teaches (.ok v) known)) :
    Founds cfg T S env (call c >>= k) known :=
  accepts_learn hc (fun _ => trivial) hk

end Learning

/-! ## The handlers -/

section Handlers
variable {cfg : Config} {T : Truth} {env : Envelope} {known : Learned}

/-- `on_message` writes what its handler writes. -/
theorem Python.onMessage_founds {S : Stage} {N : Type} {maxRetries : Int} {m : Message}
    {handler : Envelope → Program (Option N)} {publishNext : Envelope → N → Program Unit}
    (hhandler : Founds cfg T S m.body (handler m.body) known)
    (hnext : ∀ n known, Founds cfg T S m.body (publishNext m.body n) known) :
    Founds cfg T S m.body
      (onMessage maxRetries envelopeCodec (channel S m) handler publishNext m.body) known := by
  have hack : ∀ o known, Founds cfg T S m.body ((channel S m).ack o) known :=
    fun o known => founds_of_dull (calls_call ⟨trivial, trivial⟩)
  refine founds_tryCatch (founds_bind hhandler fun r known => ?_) fun e known => ?_
  · cases r with
    | none => exact hack _ known
    | some next => exact founds_bind (hnext next known) fun _ => hack _
  · cases e with
    | permanent => exact hack _ known
    | transient => exact founds_of_dull ((retry_settling _ _ _).mono fun _ => dull_of_settling)
    | other => exact founds_of_dull ((unhandled_settling _ _).mono fun _ => dull_of_settling)

theorem Python.onError_founds {S : Stage} {α : Type} (e : Exc) :
    Founds cfg T S env (onError S env e : Program α) known :=
  founds_of_dull (onError_calls (fun _ => ⟨trivial, rfl, by simp⟩) (fun _ _ => ⟨trivial, trivial⟩) e)

/-- A Python handler comes to its `try` block with the row it has fetched. -/
theorem Python.handle_founds {S : Stage} {α : Type} {skipped : α} {work : Document → Program α}
    (hwork : ∀ document known, known.row = some document → Founds cfg T S env (work document) known) :
    Founds cfg T S env (handle S skipped work env) known := by
  unfold handle alreadyProcessed fetchDocument
  refine founds_call trivial fun seen _ => ?_
  split
  · trivial
  refine founds_call rfl fun found _ => ?_
  split
  · trivial
  split
  · trivial
  · exact founds_tryCatch (hwork _ _ rfl) fun e _ => onError_founds e

theorem Ocr.recognise_founds {document : Document} (hrow : known.row = some document) :
    Founds cfg T .ocr env
      (recognise env document (env.payload.objectKey.getD document.objectKey)) known := by
  unfold recognise updateDocumentStatus Python.recordEvent Python.recordProcessed
  refine founds_call ⟨rfl, by simp⟩ fun _ _ => founds_call trivial fun _ _ =>
    founds_call ⟨rfl, document, hrow, rfl⟩ fun blob _ => ?_
  split
  · trivial
  refine founds_call trivial fun ⟨text, pages⟩ hread => ?_
  dsimp only
  split
  · trivial
  rename_i hblank
  refine founds_call ⟨rfl, ?_⟩ fun _ _ => founds_call trivial fun _ _ => founds_call trivial
    fun _ _ => trivial
  rintro t ht
  obtain rfl := Option.some.inj ht
  exact ⟨hblank, document, blob, hrow, rfl, hread⟩

theorem Ocr.handle_founds : Founds cfg T .ocr env (handle env) known :=
  Python.handle_founds fun _ _ hrow => recognise_founds hrow

theorem Ocr.publishNext_founds (next : Payload) : Founds cfg T .ocr env (publishNext env next) known :=
  founds_of_dull ((publishNext_handing env next).mono fun _ => dull_of_handing)

/-- The vectors of a batch are those of the contents that were fetched. -/
theorem founded_zip {pending : List PendingChunk} {vectors : List Vec}
    (hmodels : List.Forall₂ T.models (pending.map PendingChunk.content) vectors) :
    ∀ r ∈ (pending.map PendingChunk.id).zip vectors, ∃ c ∈ pending, c.id = r.1 ∧ T.models c.content r.2 := by
  induction pending generalizing vectors with
  | nil => simp
  | cons c pending ih =>
    cases hmodels with
    | cons hv hvs =>
      intro r hr
      rcases List.mem_cons.mp hr with rfl | hr
      · exact ⟨c, List.mem_cons_self, rfl, hv⟩
      · obtain ⟨c', hc', h⟩ := ih hvs r hr
        exact ⟨c', List.mem_cons_of_mem _ hc', h⟩

theorem Embedder.embed_founds (document : Document) :
    Founds cfg T .embed env (embed env document) known := by
  unfold embed updateDocument Python.recordEvent Python.recordProcessed
  refine founds_call ⟨rfl, by simp⟩ fun _ _ => founds_call trivial fun _ _ =>
    founds_call rfl fun chunks _ => ?_
  have hfinish : ∀ e row known, Founds cfg T .embed env (do
      call (.updateDocument env.documentId { status := .embedded, embeddedAt := some .now })
      call (.recordEvent e)
      call (.recordProcessed row)) known := by
    intro e row known
    refine founds_of_dull ?_
    exact .bind (calls_call ⟨trivial, rfl, by simp⟩) fun _ =>
      .bind (calls_call ⟨trivial, trivial⟩) fun _ => calls_call ⟨trivial, trivial⟩
  split
  · exact hfinish _ _ _
  refine founds_call trivial fun vectors hmodels => founds_bind ?_ fun _ known => hfinish _ _ known
  unfold writeEmbeddings
  split
  · trivial
  · exact founds_of_dull (calls_call ⟨trivial, founded_zip hmodels⟩)

theorem Embedder.handle_founds : Founds cfg T .embed env (handle env) known :=
  Python.handle_founds fun document _ _ => embed_founds document

namespace Chunker

/-- A call in Go. -/
theorem founds_perform {α : Type} {c : Call} {k : c.Reply → Program α}
    (hc : Founded cfg T .chunk env known c)
    (herror : ∀ reason, Founds cfg T .chunk env (k (.error reason)) known)
    (hk : ∀ v, Founds cfg T .chunk env (k (.ok v)) (c.teaches (.ok v) known)) :
    Founds cfg T .chunk env (Prog.perform c >>= k) known := by
  refine Automaton.accepts_perform hc ?_
  rintro r _ ⟨-, rfl⟩
  cases r with
  | error reason => exact (teaches_error (c := c) reason).symm ▸ herror reason
  | ok v => exact hk v

/-- One whose reply is ignored. -/
theorem founds_ignore {α : Type} {c : Call} {rest : Program α}
    (hc : Founded cfg T .chunk env known c) (hdull : c.Dull) (hrest : Founds cfg T .chunk env rest known) :
    Founds cfg T .chunk env (Prog.perform c >>= fun _ => rest) known := by
  refine Automaton.accepts_perform hc ?_
  rintro r _ ⟨-, rfl⟩
  exact (teaches_of_dull hdull r).symm ▸ hrest

theorem publishNext_founds (n : Nat) : Founds cfg T .chunk env (publishNext env n) known :=
  founds_of_dull ((publishNext_handing env n).mono fun _ => dull_of_handing)

theorem chunkDocument_founds {document : Document} {rawText : Text} (hrow : known.row = some document)
    (htext : document.rawText = some rawText) :
    Founds cfg T .chunk env (chunkDocument cfg env rawText) known := by
  unfold chunkDocument
  dsimp only
  split
  · exact founds_ignore ⟨rfl, by simp⟩ trivial (founds_ignore trivial trivial trivial)
  refine founds_perform ⟨rfl, document, rawText, hrow, htext, rfl⟩ (fun _ => trivial) fun _ => ?_
  refine founds_perform ⟨rfl, by simp⟩ (fun _ => trivial) fun _ => ?_
  exact founds_ignore trivial trivial (founds_ignore trivial trivial (publishNext_founds _))

theorem process_founds (env : Envelope) : Founds cfg T .chunk env (process cfg env) known := by
  unfold process
  split
  · trivial
  refine founds_perform trivial (fun _ => trivial) fun seen => ?_
  cases seen with
  | true => trivial
  | false =>
    refine founds_perform rfl (fun _ => trivial) fun found => ?_
    cases found with
    | none => trivial
    | some document =>
      dsimp only
      split
      · trivial
      split
      · trivial
      rename_i hempty
      obtain ⟨t, ht⟩ : ∃ t, document.rawText = some t := by
        cases h : document.rawText with
        | none => simp [h] at hempty
        | some t => exact ⟨t, rfl⟩
      refine founds_perform ⟨rfl, by simp⟩ (fun _ => trivial) fun _ =>
        founds_ignore trivial trivial ?_
      rw [ht]
      exact chunkDocument_founds rfl ht

theorem handle_founds {m : Message} : Founds cfg T .chunk m.body (handle cfg m) known := by
  have hack : ∀ o known, Founds cfg T .chunk m.body
      (Prog.perform (.ack o) >>= fun _ => pure () : Program Unit) known :=
    fun o known => founds_ignore trivial trivial trivial
  have hpublish : ∀ (e : Exchange) (q : RoutingKey) (m' : Message) known, Founds cfg T .chunk m.body
      (Prog.perform (.publish e q m') >>= fun r => pure (errorOf r)) known :=
    fun _ _ _ known => founds_perform trivial (fun _ => trivial) fun _ => trivial
  unfold handle
  dsimp only
  -- the envelope that is processed differs from the body at most in its attempt
  have hprocess : Founds cfg T .chunk m.body
      (process cfg (if m.body.attempt = 0 then { m.body with attempt := 1 } else m.body)) known := by
    split
    · exact process_founds { m.body with attempt := 1 }
    · exact process_founds m.body
  generalize (if m.body.attempt = 0 then { m.body with attempt := 1 } else m.body) = env at hprocess ⊢
  refine founds_bind hprocess fun r known => ?_
  split
  · exact hack _ known
  · exact hack _ known
  · split
    · exact founds_bind (hpublish _ _ _ known) fun _ => hack _
    · exact founds_bind (hpublish _ _ _ known) fun _ => hack _

end Chunker

/-- **A consumer writes nothing but what it has computed from what it has read.** -/
theorem consumer_founds (cfg : Config) (T : Truth) (S : Stage) (m : Message) (known : Learned) :
    Founds cfg T S m.body (consumer cfg S m) known := by
  cases S with
  | ocr => exact Python.onMessage_founds Ocr.handle_founds fun next _ => Ocr.publishNext_founds next
  | chunk => exact Chunker.handle_founds
  | embed =>
    show Founds cfg T .embed m.body (Embedder.onMessage cfg m) known
    unfold Embedder.onMessage
    refine Python.onMessage_founds ?_ fun v => by cases v
    exact founds_bind Embedder.handle_founds fun _ _ => trivial

end Handlers
end DigitalCip
