import DigitalCip.Invariant.Debts
import DigitalCip.Invariant.OrderlyRuns
import DigitalCip.Redelivery

/-!
# How deliveries are settled in successful runs

When the calls of an exclusive run succeed, a delivery is settled in one of two ways.
The handler returns success, or it fails for good and has marked the document
`failed`.  Either way the message is going to be skipped from then on, and no message
is retried or dead-lettered (`smooth_of_reachable`).
-/

namespace DigitalCip
open Resumable

/-- The runs in which the executions on a document do not overlap, the engine and the
model answer as `T` says, and the calls succeed. -/
def successfulRun (T : Truth) (s : Sys) (l : Label) : Prop :=
  exclusive s l ∧ truthful T s l ∧ callsSucceed s l

section Weaker
variable {cfg : Config} {T : Truth} {s s' : Sys} {l : Label}

theorem orderlyRun_of_successful (h : successfulRun T s l) : orderlyRun T s l := by
  obtain ⟨hexclusive, htruthful, hcalls⟩ := h
  refine ⟨hexclusive, ?_, htruthful⟩
  cases l with
  | run i a =>
    cases a with
    | fail reason =>
      rintro row hp
      obtain ⟨c, hc, hsettles, -⟩ := hcalls
      obtain rfl := Option.some.inj (hc.symm.trans hp)
      rcases hsettles with he | ⟨o, he⟩ <;> cases he
    | _ => trivial
  | _ => trivial

theorem orderly_of_successful (h : Reachable cfg (successfulRun T) s) :
    Reachable cfg (orderlyRun T) s :=
  h.mono fun _ _ => orderlyRun_of_successful

/-- No edge of the state machine leaves a final state. -/
theorem not_edge_of_terminal {st st' : Status} (h : st.terminal = true) : st.edge st' = false := by
  cases st <;> cases st' <;> first | rfl | cases h

/-- Nothing that is finished is taken up again. -/
theorem skipsHold_of_successful (hs : Reachable cfg (successfulRun T) s) (hl : successfulRun T s l)
    (hstep : step cfg s l = some s') : skipsHold s l := by
  have horderly := orderlyRun_of_successful hl
  refine ⟨horderly.2.1, ?_⟩
  cases l with
  | run i a =>
    cases a with
    | ok =>
      rintro d u hp ⟨row, hrow, hterminal⟩
      have hedge := edge_of_update (orderly_of_successful hs) horderly hstep hp hrow
      rw [not_edge_of_terminal hterminal] at hedge
      cases hedge
    | _ => trivial
  | _ => trivial

theorem reachable_skipsHold (h : Reachable cfg (successfulRun T) s) : Reachable cfg skipsHold s :=
  h.imp fun _ _ _ hs _ => skipsHold_of_successful hs

end Weaker

/-- The successful runs.  Who settles a delivery leaves its message to be skipped. -/
def settledDiscipline (T : Truth) : Discipline where
  ok := successfulRun T
  known := Base
  moves := Lasts
  admits _ c a _ := ∀ reason, a = .fail reason → c = .nack ∨ ∃ o, c = .ack o
  inv _ := True
  rely _ _ _ _ := True
  guar i c w _ _ := Settles c → c = .nack ∨ (c = .ack .success ∨ c = .ack .permanent) ∧
    ∃ S env, Handles w i S env ∧ Skipped env.messageId env.documentId w
  moves_refl := .refl
  moves_trans _ _ _ := .trans
  rely_refl _ _ _ := trivial
  rely_trans _ _ _ _ _ _ _ := trivial
  post _ _ := True

section Calls
variable {T : Truth} {i : Nat} {S : Stage} {env : Envelope} {w : World} {c : Call} {α : Type}
  {Q : α → World → Prop} {E : Exc → World → Prop}

/-- The calls that may be made when the message is going to be skipped. -/
def MayClose (c : Call) : Prop := Settles c → c = .nack ∨ c = .ack .success ∨ c = .ack .permanent

theorem keeps_skipped : (settledDiscipline T).Keeps i (Done i S env) MayClose where
  stable _ _ _ _ h hl _ _ _ := ⟨h.1.mono hl.1, h.2.lasts hl⟩
  fail _ _ _ hc h _ _ hs := (hc hs).imp_right fun ho => ⟨ho, S, env, h⟩
  does _ _ _ _ _ hc h _ _ _ hl _ _ _ :=
    ⟨trivial, fun hs => (hc hs).imp_right fun ho => ⟨ho, S, env, h⟩, h.1.mono hl.1, h.2.lasts hl⟩

/-- What nobody takes back. -/
def Enduring (K : World → Prop) : Prop := ∀ w w', K w → Lasts w w' → K w'

theorem enduring_handles : Enduring fun w => Handles w i S env := fun _ _ h hl => h.mono hl.1

theorem enduring_done : Enduring (Done i S env) := fun _ _ h hl => ⟨h.1.mono hl.1, h.2.lasts hl⟩

/-- A call of the handler, which succeeds. -/
theorem wp_succeeds {K : World → Prop} {k : c.Reply → Program α} (hK : Enduring K) (hw : K w)
    (hc : ¬ Settles c)
    (hok : ∀ w v w', Base w → K w → K w' → Does i c v w w' →
      wp (settledDiscipline T).rules i (k (.ok v)) Q E w') :
    wp (settledDiscipline T).rules i (Prog.perform c >>= k) Q E w := by
  refine Discipline.wp_perform (D := settledDiscipline T) K hw (fun w w' h hl _ _ _ => hK w w' h hl)
    ?_ ?_
  · intro w reason h _ _ _ hadmits
    rcases hadmits reason rfl with rfl | ⟨o, rfl⟩ <;> exact absurd trivial hc
  · exact fun w v w' a h hb _ _ hl _ _ hd =>
      ⟨trivial, fun hs => absurd hs hc, hok w v w' hb h (hK w w' h hl) hd⟩

/-- The same in Python. -/
theorem wp_succeeds_call {K : World → Prop} {k : c.Val → Program α} (hK : Enduring K) (hw : K w)
    (hc : ¬ Settles c)
    (hok : ∀ w v w', Base w → K w → K w' → Does i c v w w' →
      wp (settledDiscipline T).rules i (k v) Q E w') :
    wp (settledDiscipline T).rules i (call c >>= k) Q E w := by
  rw [wp_bind]
  exact wp_succeeds hK hw hc hok

/-- A call of the handler whose effect does not matter. -/
theorem wp_passes {k : c.Reply → Program α} (hw : Handles w i S env) (hc : ¬ Settles c)
    (hok : ∀ v w, Handles w i S env → wp (settledDiscipline T).rules i (k (.ok v)) Q E w) :
    wp (settledDiscipline T).rules i (Prog.perform c >>= k) Q E w :=
  wp_succeeds enduring_handles hw hc fun _ v w' _ _ h _ => hok v w' h

theorem wp_passes_call {k : c.Val → Program α} (hw : Handles w i S env) (hc : ¬ Settles c)
    (hok : ∀ v w, Handles w i S env → wp (settledDiscipline T).rules i (k v) Q E w) :
    wp (settledDiscipline T).rules i (call c >>= k) Q E w :=
  wp_succeeds_call enduring_handles hw hc fun _ v w' _ _ h _ => hok v w' h

/-- A call that settles the delivery, or comes after the message has been processed or
its document finished. -/
theorem wp_skipped_call (hw : Done i S env w) (hc : MayClose c) :
    wp (settledDiscipline T).rules i (call c) (fun _ => Done i S env)
      (fun e w => (∀ reason, e ≠ .transient reason) ∧ Done i S env w) w := by
  refine keeps_skipped.perform_then hc hw fun r w h => ?_
  cases r with
  | error reason => exact ⟨(fun _ he => nomatch he), h⟩
  | ok v => exact h

/-- Marking the document `failed`. -/
theorem done_of_failed {u : DocumentUpdate} (hu : u.status = .failed) {v : Unit} {w' : World}
    (hb : Base w) (h : Handles w i S env) (h' : Handles w' i S env)
    (hd : Does i (.updateDocument env.documentId u) v w w') : Done i S env w' := by
  obtain rfl := hd
  obtain ⟨row, hrow⟩ := h.row hb
  refine ⟨h', Or.inr ⟨u.apply row, ?_, ?_⟩⟩
  · exact (Db.updateDocument_documents _ _ _).trans (by rw [if_pos rfl, hrow]; rfl)
  · show u.status.terminal = true
    rw [hu]
    rfl

/-- Inserting the dedupe row. -/
theorem done_of_recorded {row : ProcessedMessage} (hm : row.messageId = env.messageId) {v : Unit}
    {w' : World} (h' : Handles w' i S env) (hd : Does i (.recordProcessed row) v w w') :
    Done i S env w' := by
  obtain rfl := hd
  exact ⟨h', Or.inl (hm ▸ Db.recordProcessed_isSome i row)⟩

end Calls

/-! ## The Python workers -/

theorem Python.onMessage_settled {T : Truth} {i : Nat} {S : Stage} {m : Message} {w : World}
    {cfg : Config} {N : Type} {handler : Envelope → Program (Option N)}
    {publishNext : Envelope → N → Program Unit}
    (hhandler : wp (settledDiscipline T).rules i (handler m.body) (fun _ => Done i S m.body)
      (fun e w => (∃ reason, e = .permanent reason) ∧ Done i S m.body w) w)
    (hnext : ∀ n w, Done i S m.body w → wp (settledDiscipline T).rules i (publishNext m.body n)
      (fun _ => Done i S m.body)
      (fun e w => (∀ reason, e ≠ .transient reason) ∧ Done i S m.body w) w) :
    wp (settledDiscipline T).rules i (onMessage cfg.maxRetries envelopeCodec (channel S m) handler
      publishNext m.body) (fun _ _ => True) (fun _ _ => True) w := by
  have hack : ∀ o w, o = .success ∨ o = .permanent → Done i S m.body w →
      wp (settledDiscipline T).rules i ((channel S m).ack o) (fun _ => Done i S m.body)
        (fun e w => (∀ reason, e ≠ .transient reason) ∧ Done i S m.body w) w := by
    intro o w ho h
    refine wp_skipped_call h fun _ => Or.inr ?_
    rcases ho with rfl | rfl
    · exact Or.inl rfl
    · exact Or.inr rfl
  show wp _ i (tryCatch _ _) _ _ w
  rw [wp_tryCatch]
  refine wp_mono (Q := fun _ => Done i S m.body)
    (E := fun e w => (∀ reason, e ≠ .transient reason) ∧ Done i S m.body w) ?_ (fun _ _ _ => trivial) ?_
  · rw [wp_bind]
    refine wp_mono hhandler (fun r w₁ h₁ => ?_) ?_
    · cases r with
      | none => exact hack .success w₁ (Or.inl rfl) h₁
      | some next =>
        rw [wp_bind]
        exact wp_mono (hnext next w₁ h₁) (fun _ w₂ h₂ => hack .success w₂ (Or.inl rfl) h₂)
          fun _ _ h => h
    · rintro e w₁ ⟨⟨reason, rfl⟩, h₁⟩
      exact ⟨(fun _ he => nomatch he), h₁⟩
  · rintro e w₁ ⟨htransient, h₁⟩
    cases e with
    | permanent =>
      exact wp_mono (hack .permanent w₁ (Or.inr rfl) h₁) (fun _ _ _ => trivial) fun _ _ _ => trivial
    | transient reason => exact absurd rfl (htransient reason)
    | other =>
      have hnack : (channel S m).nack.Calls MayClose := calls_call fun _ => Or.inl rfl
      exact wp_mono (keeps_skipped.calls (.tryCatch hnack fun _ => trivial) h₁)
        (fun _ _ _ => trivial) fun _ _ _ => trivial

namespace Python
variable {T : Truth} {i : Nat} {S : Stage} {env : Envelope} {α : Type} {w : World}

/-- A failure for good is recorded. -/
theorem onError_settled (reason : String) (hw : Handles w i S env) :
    wp (settledDiscipline T).rules i (onError S env (.permanent reason) : Program α)
      (fun _ => Done i S env) (fun e w => (∃ reason, e = .permanent reason) ∧ Done i S env w) w := by
  unfold onError recordEvent
  refine wp_succeeds_call enduring_handles hw id fun w _ w₁ hb h h₁ hd => ?_
  exact wp_succeeds_call enduring_done (done_of_failed rfl hb h h₁ hd) id fun _ _ w₂ _ _ h₂ _ =>
    ⟨⟨reason, rfl⟩, h₂⟩

/-- A handler settles what its `try` block settles, or fails for good in. -/
theorem handle_settled {skipped : α} {work : Document → Program α}
    (hwork : ∀ document w, Handles w i S env →
      wp (settledDiscipline T).rules i (work document) (fun _ => Done i S env)
        (fun e w => (∃ reason, e = .permanent reason) ∧ Handles w i S env) w)
    (hw : Handles w i S env) :
    wp (settledDiscipline T).rules i (handle S skipped work env) (fun _ => Done i S env)
      (fun e w => (∃ reason, e = .permanent reason) ∧ Done i S env w) w := by
  unfold handle alreadyProcessed fetchDocument
  refine wp_succeeds_call enduring_handles hw id fun w seen w₁ _ _ h₁ hd => ?_
  obtain ⟨hseen, rfl⟩ := hd
  split
  · rename_i hs
    exact ⟨h₁, skipped_of_seen (hseen ▸ hs)⟩
  refine wp_succeeds_call enduring_handles h₁ id fun w found w₂ hb h h₂ hd => ?_
  obtain ⟨row, rfl, hrow, rfl⟩ := h.fetched hb hd
  dsimp only
  split
  · exact ⟨h₂, skipped_of_fetched hrow ‹_›⟩
  · refine wp_try (hwork row _ h₂) ?_
    rintro e w₃ ⟨⟨reason, rfl⟩, h₃⟩
    exact onError_settled reason h₃

end Python

namespace Ocr
variable {T : Truth} {i : Nat} {env : Envelope} {w : World}

theorem recognise_settled (document : Document) (objectKey : ObjectKey) (hw : Handles w i .ocr env) :
    wp (settledDiscipline T).rules i (recognise env document objectKey) (fun _ => Done i .ocr env)
      (fun e w => (∃ reason, e = .permanent reason) ∧ Handles w i .ocr env) w := by
  unfold recognise updateDocumentStatus Python.recordEvent Python.recordProcessed
  refine wp_passes_call hw id fun _ w₁ h₁ => wp_passes_call h₁ id fun _ w₂ h₂ =>
    wp_passes_call h₂ id fun blob w₃ h₃ => ?_
  split
  · exact ⟨⟨_, rfl⟩, h₃⟩
  refine wp_passes_call h₃ id fun ⟨text, pages⟩ w₄ h₄ => ?_
  dsimp only
  split
  · exact ⟨⟨_, rfl⟩, h₄⟩
  refine wp_passes_call h₄ id fun _ w₅ h₅ => wp_passes_call h₅ id fun _ w₆ h₆ => ?_
  exact wp_succeeds_call enduring_handles h₆ id fun _ _ _ _ _ h₇ hd => done_of_recorded rfl h₇ hd

theorem handle_settled (hw : Handles w i .ocr env) :
    wp (settledDiscipline T).rules i (handle env) (fun _ => Done i .ocr env)
      (fun e w => (∃ reason, e = .permanent reason) ∧ Done i .ocr env w) w :=
  Python.handle_settled (fun document _ h => recognise_settled document _ h) hw

theorem publishNext_settled (payload : Payload) (hw : Done i .ocr env w) :
    wp (settledDiscipline T).rules i (publishNext env payload) (fun _ => Done i .ocr env)
      (fun e w => (∀ reason, e ≠ .transient reason) ∧ Done i .ocr env w) w :=
  wp_skipped_call hw fun h => absurd rfl h

end Ocr

namespace Embedder
variable {T : Truth} {i : Nat} {env : Envelope} {w : World}

/-- The update to `embedded`, the event and the dedupe row. -/
theorem finish_settled {u : DocumentUpdate} {e : ProcessingEvent} (n : Nat)
    (hw : Handles w i .embed env) :
    wp (settledDiscipline T).rules i
      (do
        call (.updateDocument env.documentId u)
        call (.recordEvent e)
        call (.recordProcessed (processedRow env n)))
      (fun _ => Done i .embed env) (fun _ _ => False) w := by
  refine wp_passes_call hw id fun _ w₁ h₁ => wp_passes_call h₁ id fun _ w₂ h₂ => ?_
  refine wp_succeeds enduring_handles h₂ id fun _ _ _ _ _ h₃ hd => ?_
  exact done_of_recorded rfl h₃ hd

theorem embed_settled (document : Document) (hw : Handles w i .embed env) :
    wp (settledDiscipline T).rules i (embed env document) (fun _ => Done i .embed env)
      (fun _ _ => False) w := by
  unfold embed updateDocument writeEmbeddings Python.recordEvent Python.recordProcessed
  refine wp_passes_call hw id fun _ w₁ h₁ => wp_passes_call h₁ id fun _ w₂ h₂ =>
    wp_passes_call h₂ id fun chunks w₃ h₃ => ?_
  split
  · exact finish_settled _ h₃
  refine wp_passes_call h₃ id fun vectors w₄ h₄ => ?_
  dsimp only
  split
  · exact finish_settled _ h₄
  · exact wp_passes_call h₄ id fun _ w₅ h₅ => finish_settled _ h₅

theorem handle_settled (hw : Handles w i .embed env) :
    wp (settledDiscipline T).rules i (handle env) (fun _ => Done i .embed env)
      (fun e w => (∃ reason, e = .permanent reason) ∧ Done i .embed env w) w :=
  Python.handle_settled (fun document _ h =>
    wp_mono (embed_settled document h) (fun _ _ h => h) fun _ _ h => h.elim) hw

end Embedder

/-! ## The chunker -/

namespace Chunker
variable {T : Truth} {i : Nat} {env : Envelope} {w : World} {cfg : Config}

/-- `process` returns `nil` or `ErrPermanent`. -/
def Settled (i : Nat) (env : Envelope) (r : Option GoError) (w : World) : Prop :=
  Done i .chunk env w ∧ (r = none ∨ ∃ reason, r = some (.permanent reason))

theorem publishNext_settled (n : Nat) (hw : Done i .chunk env w) :
    wp (settledDiscipline T).rules i (publishNext env n) (Settled i env) (fun _ _ => False) w := by
  unfold publishNext
  refine wp_succeeds enduring_done hw id fun _ id w₁ _ _ h₁ _ => ?_
  exact wp_succeeds enduring_done h₁ (by simp [Settles]) fun _ _ w₂ _ _ h₂ _ => ⟨h₂, Or.inl rfl⟩

theorem chunkDocument_settled (rawText : Text) (hw : Handles w i .chunk env) :
    wp (settledDiscipline T).rules i (chunkDocument cfg env rawText) (Settled i env)
      (fun _ _ => False) w := by
  unfold chunkDocument
  dsimp only
  split
  · refine wp_succeeds enduring_handles hw id fun w _ w₁ hb h h₁ hd => ?_
    exact wp_succeeds enduring_done (done_of_failed rfl hb h h₁ hd) id fun _ _ w₂ _ _ h₂ _ =>
      ⟨h₂, Or.inr ⟨_, rfl⟩⟩
  refine wp_passes hw id fun _ w₁ h₁ => wp_passes h₁ id fun _ w₂ h₂ =>
    wp_passes h₂ id fun _ w₃ h₃ => ?_
  exact wp_succeeds enduring_handles h₃ id fun _ _ w₄ _ _ h₄ hd =>
    publishNext_settled _ (done_of_recorded rfl h₄ hd)

theorem process_settled (hne : env.documentId ≠ 0) (hw : Handles w i .chunk env) :
    wp (settledDiscipline T).rules i (process cfg env) (Settled i env) (fun _ _ => False) w := by
  unfold process
  rw [if_neg hne]
  refine wp_succeeds enduring_handles hw id fun w seen w₁ _ _ h₁ hd => ?_
  obtain ⟨hseen, rfl⟩ := hd
  cases seen with
  | true => exact ⟨⟨h₁, skipped_of_seen hseen.symm⟩, Or.inl rfl⟩
  | false =>
    refine wp_succeeds enduring_handles h₁ id fun w found w₂ hb h h₂ hd => ?_
    obtain ⟨row, rfl, hrow, rfl⟩ := h.fetched hb hd
    dsimp only
    split
    · exact ⟨⟨h₂, skipped_of_fetched hrow ‹_›⟩, Or.inl rfl⟩
    obtain ⟨t, ht, hblank⟩ := h.text hb hrow
    have hsome : ¬ (row.rawText.getD []).isEmpty := by
      rw [ht]
      intro he
      obtain rfl : t = [] := List.isEmpty_iff.mp he
      exact hblank rfl
    rw [if_neg hsome]
    exact wp_passes h₂ id fun _ w₃ h₃ => wp_passes h₃ id fun _ w₄ h₄ => chunkDocument_settled _ h₄

theorem handle_settled {m : Message} (hb : Base w) (hw : Handles w i .chunk m.body) :
    wp (settledDiscipline T).rules i (handle cfg m) (fun _ _ => True) (fun _ _ => True) w := by
  unfold handle
  dsimp only
  have halike := alike_defaultAttempt m.body
  have hne := hw.numbered hb
  rw [← halike.documentId] at hne
  generalize (if m.body.attempt = 0 then { m.body with attempt := 1 } else m.body) = env
    at halike hne ⊢
  rw [wp_bind]
  refine wp_mono (process_settled hne (hw.alike halike)) ?_ fun _ _ h => h.elim
  rintro r w₁ ⟨h₁, rfl | ⟨reason, rfl⟩⟩
  · exact keeps_skipped.perform_then (fun _ => Or.inr (Or.inl rfl)) h₁ fun _ _ _ => trivial
  · exact keeps_skipped.perform_then (fun _ => Or.inr (Or.inr rfl)) h₁ fun _ _ _ => trivial

end Chunker

/-! ## Every run -/

section Runs
variable {cfg : Config} {T : Truth} {i : Nat}

theorem keeps_unsettled : (settledDiscipline T).Keeps i (fun _ => True) fun c => ¬ Settles c where
  stable _ _ _ _ _ _ _ _ _ := trivial
  fail _ _ _ hc _ _ _ hs := absurd hs hc
  does _ _ _ _ _ hc _ _ _ _ _ _ _ _ := ⟨trivial, fun hs => absurd hs hc, trivial⟩

theorem settled_sound (cfg : Config) (T : Truth) : (settledDiscipline T).Sound cfg .init where
  reached := .start
  start := Discipline.safe_init trivial
  known s h := reachable_base h
  moves s l s' h hok hstep := lasts_of_step (reachable_skipsHold h) (skipsHold_of_successful h hok hstep) hstep
  admits s i a c k _ _ hok hp := by
    rintro reason rfl
    obtain ⟨c', hc', hsettles, -⟩ := hok.2.2
    obtain rfl := Option.some.inj (hc'.symm.trans (Pool.pending_of_progs hp))
    exact hsettles
  others _ _ _ _ _ _ _ _ _ _ _ _ _ _ _ _ _ _ := trivial
  env _ _ _ _ _ _ _ _ _ := ⟨trivial, fun _ _ _ _ _ => trivial⟩
  upload s i upload title tenantId _ _ _ _ _ :=
    Api.upload_keeps (keeps_unsettled.mono fun _ => Api.not_settles_of_upload) _ _ _ trivial
  retryRequest s i documentId _ _ _ _ _ :=
    Api.retryAction_keeps (keeps_unsettled.mono fun _ => Api.not_settles_of_retry) _ trivial
  consumer s i S n copy w _ _ _ _ hi _ hw hb _ := by
    obtain ⟨hwork, -, -⟩ := hb.delivered hi hw
    cases S with
    | ocr =>
      exact Python.onMessage_settled (Ocr.handle_settled hwork.handles)
        fun n w h => Ocr.publishNext_settled n h
    | chunk => exact Chunker.handle_settled hb hwork.handles
    | embed =>
      show wp (settledDiscipline T).rules i (Embedder.onMessage cfg copy.message) _ _ w
      unfold Embedder.onMessage
      refine Python.onMessage_settled (S := .embed) ?_ fun n => nomatch n
      rw [wp_bind]
      exact wp_mono (Embedder.handle_settled hwork.handles) (fun _ _ h => h) fun _ _ h => h

/-- The copy has been settled for good: its message is going to be skipped. -/
def Closed (copy : Copy) (w : World) : Prop :=
  (∃ S, Stems w.broker S copy) ∧
    Skipped copy.message.body.messageId copy.message.body.documentId w

theorem Closed.lasts {copy : Copy} {w w' : World} (h : Closed copy w) (hl : Lasts w w') :
    Closed copy w' := by
  obtain ⟨⟨S, hstems⟩, hskipped⟩ := h
  exact ⟨⟨S, hstems.mono hl.1.broker⟩, hskipped.lasts hl⟩

/-- What is settled is closed, and nothing is dead-lettered. -/
structure Smooth (w : World) : Prop where
  closed : ∀ copy o, (copy, o) ∈ w.broker.settled → Closed copy w
  dlq : ∀ S copy, copy ∉ w.broker.queues ⟨S, .dlq⟩

variable {s s' : Sys} {l : Label} {w : World}

/-- **Every settled message of a successful run is going to be skipped**, and no
message is dead-lettered. -/
theorem smooth_of_reachable (h : Reachable cfg (successfulRun T) s) : Smooth s.world := by
  induction h with
  | start => exact ⟨fun _ _ h => (nomatch h), fun _ _ h => nomatch h⟩
  | @next s s' l hs hl hstep ih =>
    have hb := reachable_base hs
    have hlasts := lasts_of_step (reachable_skipsHold hs) (skipsHold_of_successful hs hl hstep) hstep
    have hold : ∀ copy o, (copy, o) ∈ s.world.broker.settled → Closed copy s'.world :=
      fun copy o hc => (ih.closed copy o hc).lasts hlasts
    rcases world_of_step hstep with he | hmove | ⟨i, a, c, k, v, rfl, hp, hreply⟩
    · rw [he] at hold ⊢
      exact ⟨hold, ih.dlq⟩
    · refine ⟨fun copy o hc => hold copy o ?_, fun S copy hc => ih.dlq S copy ?_⟩
      · rwa [(posted_of_envMove hmove).2] at hc
      · rwa [dlq_of_envMove hb hmove] at hc
    · have hd := does_of_reply hreply
      have hsound := settled_sound cfg T
      have hsafe := hsound.safe hs
      have hguar : (settledDiscipline T).guar i c s.world (.ok v) s'.world :=
        (Pool.Safe.exec hsafe hp ⟨hb, reachable_base (hs.next hl hstep), hlasts, a,
          hsound.admits s i a c k hs hsafe hl hp, exec_of_reply hreply⟩).2.1
      refine ⟨fun copy o hc => ?_, fun S copy hc => ih.dlq S copy
        ((of_mem_dlq_of_does hb hd hc).resolve_right ?_)⟩
      · by_cases hack : ∀ o, c ≠ .ack o
        · rw [settled_of_does hd hack] at hc
          exact hold copy o hc
        obtain ⟨o', rfl⟩ := not_forall_not.mp hack
        rcases hguar trivial with he | ⟨-, S, env, hhandles, hskipped⟩
        · cases he
        obtain ⟨copy', ⟨q, hdel⟩, hs'⟩ := hd
        rw [hs'] at hc
        rcases List.mem_cons.mp hc with he | hc
        · -- the copy that is acked is the one the execution handles
          obtain ⟨rfl, rfl⟩ := Prod.mk.inj he
          obtain ⟨c, hc, hstems, halike⟩ := hhandles
          have hcopy : s.world.broker.handled i = some copy := by simp [Broker.handled, hdel]
          obtain rfl := Option.some.inj (hc.symm.trans hcopy)
          rw [halike.messageId, halike.documentId] at hskipped
          exact Closed.lasts ⟨⟨S, hstems⟩, hskipped⟩ hlasts
        · exact hold copy o hc
      · rintro rfl
        rcases hguar (by simp [Settles]) with he | ⟨he | he, -⟩ <;> cases he

end Runs
end DigitalCip
