import DigitalCip.Invariant.Ownership
import DigitalCip.Resumable.Automaton

/-!
# The status of a document and its latest event

A handler changes the status of its document in one transaction and records the
event in the next.  `Audit` is the status of a document beside the `to_state` of its
latest event, and `auditor` is what the calls of a handler do to it and what the
handler owes: it inserts only the event that leads from the one to the other, and
makes any other call only while the two agree.  The handlers of the three workers
meet this (`consumer_audited`), as long as no call fails whose failure is not
`Harmless`.
-/

namespace DigitalCip
open Resumable

/-- The status of a document, and the `to_state` of its latest event. -/
structure Audit where
  status : Option Status
  latest : Option Status

/-- The latest event leads to the status. -/
def Audit.Current (a : Audit) : Prop := a.latest = a.status

/-- The audit of a document whose latest event leads to its status. -/
def Audit.settled (s : Status) : Audit := ⟨some s, some s⟩

theorem Audit.current_settled (s : Status) : (Audit.settled s).Current := rfl

/-- The failure of the call leaves no event of document `d` missing, and none in its
log that does not lead to the status: a handler that catches the failure records
a transient error with the processing state of its stage. -/
def Call.Harmless (d : DocId) (status : Option Status) : Call → Prop
  | .recordEvent e => e.documentId = d → e.fromState = some e.toState
  | .updateDocument d' u => d' = d → u.status = .ocrProcessing ∨ u.status = .embedding →
      status = some u.status
  | .recordProcessed row => row.documentId = d → row.stage = .chunk
  | _ => True

/-- How a call of a stage-`S` handler moves the audit of its document `d`.  A
document that the chunker finds has a text that is not blank. -/
def Audit.Moves (S : Stage) (d : DocId) (a : Audit) : (c : Call) → c.Reply → Audit → Prop
  | c, .error _, a' => a' = a ∧ c.Harmless d a.status
  | .updateDocument d' u, .ok _, a' =>
    a' = if d' = d then { a with status := a.status.map fun _ => u.status } else a
  | .recordEvent e, .ok _, a' =>
    a' = if e.documentId = d then { a with latest := some e.toState } else a
  | .fetchDocument d', .ok found, a' => a' = a ∧ (d' = d → found.map Document.status = a.status ∧
      (S = .chunk → ∀ row t, found = some row → row.rawText = some t → ¬ Blank t))
  | _, .ok _, a' => a' = a

/-- A handler inserts the event that leads from the latest event to the status, and
does nothing else before it. -/
def Audit.Owed (d : DocId) (a : Audit) : Call → Prop
  | .recordEvent e => e.documentId = d ∧ e.fromState = a.latest ∧ some e.toState = a.status
  | _ => a.Current

/-- What a stage-`S` handler of document `d` keeps account of. -/
def auditor (S : Stage) (d : DocId) : Automaton Audit Call Call.Reply where
  moves c a := a.Moves S d c
  owed := Audit.Owed d

/-! ## One call of a handler -/

section Calls
variable {S : Stage} {d : DocId} {a : Audit} {α : Type} {E : Exc → Audit → Prop}

/-- A call that touches neither the status nor the log, and fails harmlessly. -/
def Plain : Call → Prop
  | .updateDocument _ _ | .recordEvent _ | .fetchDocument _ => False
  | _ => True

theorem Audit.Moves.plain {c : Call} (hc : Plain c) {r : c.Reply} {a' : Audit}
    (h : a.Moves S d c r a') : a' = a ∧ ((∃ e, r = .error e) → c.Harmless d a.status) := by
  cases r with
  | error e =>
    cases c <;> exact ⟨h.1, fun _ => h.2⟩
  | ok v =>
    refine ⟨?_, fun ⟨_, he⟩ => nomatch he⟩
    cases c with
    | updateDocument | recordEvent | fetchDocument => exact hc.elim
    | _ => exact h

theorem accepts_plain {c : Call} {k : c.Reply → Program α} {Q : α → Audit → Prop} (hc : Plain c)
    (ha : a.Current) (hk : ∀ r, ((∃ e, r = .error e) → c.Harmless d a.status) →
      (auditor S d).Accepts (k r) Q E a) :
    (auditor S d).Accepts (Prog.perform c >>= k) Q E a := by
  refine Automaton.accepts_perform ?_ fun r a' h => ?_
  · cases c with
    | updateDocument | recordEvent | fetchDocument => exact hc.elim
    | _ => exact ha
  · obtain ⟨rfl, hr⟩ := Audit.Moves.plain hc h
    exact hk r hr

/-- A plain call in Python. -/
theorem accepts_plain_call {c : Call} {Q : c.Val → Audit → Prop} (hc : Plain c) (ha : a.Current)
    (hE : c.Harmless d a.status → ∀ reason, E (.other reason) a) (hQ : ∀ v, Q v a) :
    (auditor S d).Accepts (call c) Q E a := by
  refine accepts_plain hc ha fun r hr => ?_
  cases r with
  | error reason => exact hE (hr ⟨reason, rfl⟩) reason
  | ok v => exact hQ v

/-- The document as the handler finds it. -/
theorem accepts_fetch {s : Status} {k : (Call.fetchDocument d).Reply → Program α}
    {Q : α → Audit → Prop} (herror : ∀ reason, (auditor S d).Accepts (k (.error reason)) Q E (.settled s))
    (hnone : (auditor S d).Accepts (k (.ok none)) Q E (.settled s))
    (hsome : ∀ row : Document, row.status = s →
      (S = .chunk → ∀ t, row.rawText = some t → ¬ Blank t) →
        (auditor S d).Accepts (k (.ok (some row))) Q E (.settled s)) :
    (auditor S d).Accepts (Prog.perform (.fetchDocument d) >>= k) Q E (.settled s) := by
  refine Automaton.accepts_perform (Audit.current_settled s) fun r a' h => ?_
  cases r with
  | error reason =>
    obtain ⟨rfl, -⟩ := h
    exact herror reason
  | ok found =>
    obtain ⟨rfl, hfound⟩ := h
    obtain ⟨hstatus, htext⟩ := hfound rfl
    cases found with
    | none => exact hnone
    | some row => exact hsome row (Option.some.inj hstatus) fun hS t => htext hS row t rfl

/-- The update of a status, whose failure changes nothing. -/
theorem accepts_update {s : Status} {u : DocumentUpdate}
    {k : (Call.updateDocument d u).Reply → Program α} {Q : α → Audit → Prop}
    (herror : (Call.updateDocument d u).Harmless d (some s) → ∀ reason,
      (auditor S d).Accepts (k (.error reason)) Q E (.settled s))
    (hok : (auditor S d).Accepts (k (.ok ())) Q E ⟨some u.status, some s⟩) :
    (auditor S d).Accepts (Prog.perform (.updateDocument d u) >>= k) Q E (.settled s) := by
  refine Automaton.accepts_perform (Audit.current_settled s) fun r a' h => ?_
  cases r with
  | error reason =>
    obtain ⟨rfl, hharmless⟩ := h
    exact herror hharmless reason
  | ok v =>
    have h : a' = ⟨some u.status, some s⟩ := h.trans (if_pos rfl)
    subst h
    exact hok

/-- The insert of the event that the status is waiting for.  When it fails, it was
not waiting. -/
theorem accepts_event {s s' : Status} {e : ProcessingEvent}
    {k : (Call.recordEvent e).Reply → Program α} {Q : α → Audit → Prop} (hd : e.documentId = d)
    (hfrom : e.fromState = some s) (hto : e.toState = s')
    (herror : s = s' → ∀ reason, (auditor S d).Accepts (k (.error reason)) Q E (.settled s'))
    (hok : (auditor S d).Accepts (k (.ok ())) Q E (.settled s')) :
    (auditor S d).Accepts (Prog.perform (.recordEvent e) >>= k) Q E ⟨some s', some s⟩ := by
  refine Automaton.accepts_perform ⟨hd, hfrom, congrArg some hto⟩ fun r a' h => ?_
  cases r with
  | error reason =>
    obtain ⟨rfl, hharmless⟩ := h
    have hsame : some s = some e.toState := hfrom.symm.trans (hharmless hd)
    obtain rfl : s = s' := (Option.some.inj hsame).trans hto
    exact herror rfl reason
  | ok v =>
    have h : a' = ⟨some s', some e.toState⟩ := h.trans (if_pos hd)
    rw [hto] at h
    subst h
    exact hok

/-- A status and its event, in Python. -/
theorem accepts_change {s : Status} {u : DocumentUpdate} {e : ProcessingEvent} {rest : Program α}
    {Q : α → Audit → Prop} (hd : e.documentId = d) (hfrom : e.fromState = some s)
    (hto : e.toState = u.status)
    (hupdate : (Call.updateDocument d u).Harmless d (some s) → ∀ reason,
      E (.other reason) (.settled s))
    (hevent : s = u.status → ∀ reason, E (.other reason) (.settled u.status))
    (hrest : (auditor S d).Accepts rest Q E (.settled u.status)) :
    (auditor S d).Accepts
      (call (.updateDocument d u) >>= fun _ => call (.recordEvent e) >>= fun _ => rest) Q E
      (.settled s) := by
  rw [Automaton.accepts_bind]
  refine accepts_update hupdate ?_
  show (auditor S d).Accepts (call (.recordEvent e) >>= fun _ => rest) Q E _
  rw [Automaton.accepts_bind]
  exact accepts_event hd hfrom hto hevent hrest

end Calls

/-! ## The handlers -/

section Handlers
variable {env : Envelope} {d : DocId}

/-- How a handler leaves the audit. -/
abbrev Audited (S : Stage) (d : DocId) {α : Type} (p : Program α) (s : Status) : Prop :=
  (auditor S d).Accepts p (fun _ => Audit.Current) (fun _ => Audit.Current) (.settled s)

namespace Python
variable {α : Type} {S : Stage}

theorem onError_audited (e : Exc) :
    Audited S env.documentId (onError S env e : Program α) S.processing := by
  unfold onError recordEvent
  cases e with
  | permanent reason =>
    refine accepts_change rfl rfl rfl (fun _ _ => rfl) (fun h => ?_) rfl
    cases S <;> cases h
  | transient reason | other reason =>
    simp only [Audited, Automaton.accepts_bind]
    exact accepts_event rfl rfl rfl (fun _ _ => rfl) rfl

/-- A handler leaves an audit that is current, whatever interrupts its `try` block. -/
theorem handle_audited {skipped : α} {work : Document → Program α} (s : Status)
    (hwork : ∀ document, (auditor S env.documentId).Accepts (work document)
      (fun _ => Audit.Current) (fun _ a => a = .settled S.processing) (.settled document.status)) :
    Audited S env.documentId (handle S skipped work env) s := by
  unfold Audited handle alreadyProcessed fetchDocument
  rw [Automaton.accepts_bind]
  refine accepts_plain_call trivial rfl (fun _ _ => rfl) fun seen => ?_
  split
  · exact rfl
  rw [Automaton.accepts_bind]
  refine accepts_fetch (fun _ => rfl) rfl fun document hstatus _ => ?_
  show (auditor S env.documentId).Accepts (if document.status.terminal then _ else _) _ _ _
  split
  · exact rfl
  rw [← hstatus]
  refine (hwork document).tryCatch ?_
  rintro e a rfl
  exact onError_audited e

end Python

namespace Ocr

/-- Whatever interrupts the handler, the document is in `ocr_processing`. -/
theorem recognise_audited (document : Document) (objectKey : ObjectKey) :
    (auditor .ocr env.documentId).Accepts (recognise env document objectKey)
      (fun _ => Audit.Current) (fun _ a => a = .settled .ocrProcessing)
      (.settled document.status) := by
  unfold recognise updateDocumentStatus Python.recordEvent Python.recordProcessed
  refine accepts_change rfl rfl rfl ?_ (fun _ _ => rfl) ?_
  · intro h reason
    rw [Option.some.inj (h rfl (Or.inl rfl))]
  rw [Automaton.accepts_bind]
  refine accepts_plain_call trivial rfl (fun _ _ => rfl) fun blob => ?_
  split
  · exact rfl
  rw [Automaton.accepts_bind]
  refine accepts_plain_call trivial rfl (fun _ _ => rfl) fun ⟨text, pages⟩ => ?_
  dsimp only
  split
  · exact rfl
  refine accepts_change rfl rfl rfl (fun _ _ => rfl) (fun h => (nomatch h)) ?_
  rw [Automaton.accepts_bind]
  -- a dedupe row whose insert fails would be recorded as an error of `ocr_processing`
  exact accepts_plain_call trivial rfl (fun h => (nomatch h rfl)) fun _ => rfl

theorem handle_audited (s : Status) : Audited .ocr env.documentId (handle env) s :=
  Python.handle_audited s fun document => recognise_audited document _

end Ocr

namespace Embedder

theorem embed_audited (document : Document) :
    (auditor .embed env.documentId).Accepts (embed env document)
      (fun _ => Audit.Current) (fun _ a => a = .settled .embedding) (.settled document.status) := by
  unfold embed updateDocument Python.recordEvent Python.recordProcessed writeEmbeddings
  refine accepts_change rfl rfl rfl ?_ (fun _ _ => rfl) ?_
  · intro h reason
    rw [Option.some.inj (h rfl (Or.inr rfl))]
  rw [Automaton.accepts_bind]
  refine accepts_plain_call trivial rfl (fun _ _ => rfl) fun chunks => ?_
  split
  · refine accepts_change rfl rfl rfl (fun _ _ => rfl) (fun h => (nomatch h)) ?_
    exact accepts_plain_call trivial rfl (fun h => (nomatch h rfl)) fun _ => rfl
  rw [Automaton.accepts_bind]
  refine accepts_plain_call trivial rfl (fun _ _ => rfl) fun vectors => ?_
  have hfinish : ∀ (n : Nat) (message : String) (payload : Details),
      (auditor .embed env.documentId).Accepts
        (call (.updateDocument env.documentId { status := .embedded, embeddedAt := some .now }) >>=
          fun _ => call (.recordEvent
            { documentId := env.documentId, stage := .work .embed, fromState := some .embedding,
              toState := .embedded, message := some message, payload := payload }) >>=
          fun _ => call (.recordProcessed (processedRow env n)))
        (fun _ => Audit.Current) (fun _ a => a = .settled .embedding) (.settled .embedding) := by
    intro n message payload
    refine accepts_change rfl rfl rfl (fun _ _ => rfl) (fun h => (nomatch h)) ?_
    exact accepts_plain_call trivial rfl (fun h => (nomatch h rfl)) fun _ => rfl
  dsimp only
  split
  · exact hfinish _ _ _
  · rw [Automaton.accepts_bind]
    exact accepts_plain_call trivial rfl (fun _ _ => rfl) fun _ => hfinish _ _ _

theorem handle_audited (s : Status) : Audited .embed env.documentId (handle env) s :=
  Python.handle_audited s embed_audited

end Embedder

namespace Chunker
variable {cfg : Config}

theorem publishNext_audited (n : Nat) (s : Status) :
    Audited .chunk env.documentId (publishNext env n) s := by
  refine accepts_plain trivial rfl fun r _ => ?_
  cases r with
  | error e => exact rfl
  | ok id => exact accepts_plain trivial rfl fun _ _ => rfl

theorem chunkDocument_audited {rawText : Text} (htext : ∃ c ∈ rawText, goSpace c = false) :
    Audited .chunk env.documentId (chunkDocument cfg env rawText) .chunking := by
  unfold Audited chunkDocument
  dsimp only
  split
  · -- there is a word, so there is a chunk
    rename_i hempty
    exact absurd (List.isEmpty_iff.mp hempty) (split_ne_nil htext _ _)
  refine accepts_plain trivial rfl fun r _ => ?_
  cases r with
  | error e => exact rfl
  | ok =>
    refine accepts_update (fun _ _ => rfl) ?_
    refine accepts_event rfl rfl rfl (fun h => (nomatch h)) ?_
    refine accepts_plain trivial rfl fun _ _ => ?_
    exact publishNext_audited _ _

theorem process_audited (s : Status) : Audited .chunk env.documentId (process cfg env) s := by
  unfold Audited process
  split
  · exact rfl
  refine accepts_plain trivial rfl fun r _ => ?_
  match r with
  | .error e => exact rfl
  | .ok true => exact rfl
  | .ok false =>
    refine accepts_fetch (fun _ => rfl) rfl fun doc hstatus htext => ?_
    dsimp only
    split
    · exact rfl
    split
    · exact rfl
    rename_i hempty
    have hwords : ∃ c ∈ doc.rawText.getD [], goSpace c = false := by
      cases ht : doc.rawText with
      | none =>
        rw [ht] at hempty
        exact absurd rfl hempty
      | some t => exact exists_goText_of_not_blank (htext rfl t ht)
    refine accepts_update (fun _ _ => rfl) ?_
    exact accepts_event rfl (congrArg some hstatus) rfl
      (fun _ _ => chunkDocument_audited hwords) (chunkDocument_audited hwords)

end Chunker

/-! ## The consumers -/

/-- The calls that settle a delivery. -/
theorem accepts_settling {S T : Stage} {m : Message} {p : Program Unit} (hp : p.Calls (Settling T m))
    {a : Audit} (ha : a.Current) :
    (auditor S d).Accepts p (fun _ => Audit.Current) (fun _ => Audit.Current) a := by
  induction p with
  | ret | raise => exact ha
  | call c k ih =>
    refine accepts_plain (k := k) ?_ ha fun r _ => ih r (hp.2 r)
    have hc := hp.1
    cases c with
    | updateDocument | recordEvent | fetchDocument => exact hc.elim
    | _ => trivial

/-- A consumer in Python whose handler leaves the audit as it should. -/
theorem Python.onMessage_audited {N : Type} {maxRetries : Int} {S T : Stage} {m : Message}
    {handler : Envelope → Program (Option N)} {publishNext : Envelope → N → Program Unit}
    {s : Status} (hhandler : Audited S d (handler m.body) s)
    (hnext : ∀ n a, a.Current → (auditor S d).Accepts (publishNext m.body n)
      (fun _ => Audit.Current) (fun _ => Audit.Current) a) :
    Audited S d (onMessage maxRetries envelopeCodec (channel T m) handler publishNext m.body) s := by
  have hack : ∀ o a, a.Current → (auditor S d).Accepts (call (.ack o)) (fun _ => Audit.Current)
      (fun _ => Audit.Current) a :=
    fun o a ha => accepts_plain_call trivial ha (fun _ _ => ha) fun _ => ha
  unfold Audited onMessage
  simp only [envelopeCodec]
  refine Automaton.Accepts.tryCatch (F := fun _ => Audit.Current) ?_ fun e a ha => ?_
  · rw [Automaton.accepts_bind]
    refine hhandler.mono (fun r a ha => ?_) fun _ _ h => h
    cases r with
    | none => exact hack .success a ha
    | some next =>
      rw [Automaton.accepts_bind]
      exact (hnext next a ha).mono (fun _ a ha => hack .success a ha) fun _ _ h => h
  -- whatever the handler raises, what is left is to settle
  · cases e with
    | permanent => exact hack _ a ha
    | transient => exact accepts_settling (retry_settling maxRetries T m) ha
    | other => exact accepts_settling (unhandled_settling T m) ha

theorem Chunker.handle_audited {cfg : Config} {m : Message} (s : Status) :
    Audited .chunk m.body.documentId (handle cfg m) s := by
  unfold Audited handle
  dsimp only
  have hdoc : (if m.body.attempt = 0 then { m.body with attempt := 1 } else m.body).documentId =
      m.body.documentId := by
    split <;> rfl
  generalize (if m.body.attempt = 0 then { m.body with attempt := 1 } else m.body) = env at hdoc ⊢
  rw [Automaton.accepts_bind, ← hdoc]
  refine (process_audited s).mono (fun r a ha => ?_) fun _ _ h => h
  have hack : ∀ o, (auditor .chunk env.documentId).Accepts
      (Prog.perform (.ack o) >>= fun _ => pure ()) (fun _ => Audit.Current)
      (fun _ => Audit.Current) a := fun o => accepts_plain trivial ha fun _ _ => ha
  split
  · exact hack _
  · exact hack _
  · split
    · exact accepts_plain trivial ha fun _ _ => hack _
    · exact accepts_plain trivial ha fun _ _ => hack _

/-- **The worker of every stage** leaves the audit of its document as it should. -/
theorem consumer_audited (cfg : Config) (S : Stage) (m : Message) (s : Status) :
    Audited S m.body.documentId (consumer cfg S m) s := by
  cases S with
  | ocr =>
    refine Python.onMessage_audited (Ocr.handle_audited s) fun n a ha => ?_
    exact accepts_plain_call trivial ha (fun _ _ => ha) fun _ => ha
  | chunk => exact Chunker.handle_audited s
  | embed =>
    show Audited .embed m.body.documentId (Embedder.onMessage cfg m) s
    unfold Embedder.onMessage
    refine Python.onMessage_audited ?_ fun n => nomatch n
    unfold Audited
    rw [Automaton.accepts_bind]
    exact (Embedder.handle_audited s).mono (fun _ _ h => h) fun _ _ h => h

end Handlers
end DigitalCip
