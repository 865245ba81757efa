import DigitalCip.Invariant.OrderlyHandlers
import DigitalCip.Replaying

/-!
# Replaying the chunker

An execution of `process` on a chunk message can be cut off between any two of its
calls, and the message is then delivered again.  Whatever the executions before
have done, the chunk rows of the document are those from before the first one or
the ones its text is divided into.  Once an execution returns `nil` they are the
latter, and the document is `chunked`, unless the dedupe row of the message was
there from the start (`replay_safe`).
-/

namespace DigitalCip.Chunker
open Resumable

/-- An execution of `process` on message `m` of document `d`. -/
def Attempt (cfg : Config) (d : DocId) (m : MessageId) (p : Program (Option GoError)) : Prop :=
  ∃ env : Envelope, env.documentId = d ∧ env.messageId = m ∧ p = process cfg env

/-- What happens around the executions on message `m` of document `d` leaves the
document, its chunks and the dedupe row of the message alone. -/
structure Aside (d : DocId) (m : MessageId) (w w' : World) : Prop where
  documents : w'.db.documents d = w.db.documents d
  chunks : w'.db.chunksOf d = w.db.chunksOf d
  processed : w'.db.processed m = w.db.processed m

/-- The chunk rows of document `d` are those of the text, and are not embedded. -/
def DividedInto (cfg : Config) (d : DocId) (t : Text) (w : World) : Prop :=
  (w.db.chunksOf d).map DocumentChunk.row = chunkRows (split t cfg.chunkSize cfg.chunkOverlap) ∧
    ∀ c ∈ w.db.chunksOf d, c.embedding = none

/-- The document is `chunked`, into the rows of the text. -/
def ChunkedInto (cfg : Config) (d : DocId) (t : Text) (w : World) : Prop :=
  (w.db.documents d).map Document.status = some .chunked ∧ DividedInto cfg d t w

/-- Between any two calls: the text is there and the document not finished, the
chunks are the old or the new ones, and a dedupe row that was not there at the
start means that everything is done. -/
structure Halfway (cfg : Config) (d : DocId) (m : MessageId) (t : Text) (w₀ w : World) : Prop where
  row : ∃ row, w.db.documents d = some row ∧ row.rawText = some t ∧ row.status.terminal = false
  chunks : w.db.chunksOf d = w₀.db.chunksOf d ∨ DividedInto cfg d t w
  done : w₀.db.processed m = none → (w.db.processed m).isSome → ChunkedInto cfg d t w
  handled : (w₀.db.processed m).isSome → (w.db.processed m).isSome ∧
    w.db.documents d = w₀.db.documents d ∧ w.db.chunksOf d = w₀.db.chunksOf d

section Halfway
variable {cfg : Config} {d : DocId} {m : MessageId} {t : Text} {w₀ w w' : World}

theorem DividedInto.congr (h : DividedInto cfg d t w) (hc : w'.db.chunksOf d = w.db.chunksOf d) :
    DividedInto cfg d t w' := by
  unfold DividedInto
  rwa [hc]

theorem ChunkedInto.aside (h : ChunkedInto cfg d t w) (ha : Aside d m w w') :
    ChunkedInto cfg d t w' :=
  ⟨by rw [ha.documents]; exact h.1, h.2.congr ha.chunks⟩

theorem Halfway.aside (h : Halfway cfg d m t w₀ w) (ha : Aside d m w w') :
    Halfway cfg d m t w₀ w' := by
  refine ⟨?_, ?_, ?_, ?_⟩
  · rw [ha.documents]
    exact h.row
  · rw [ha.chunks]
    exact h.chunks.imp_right fun hd => hd.congr ha.chunks
  · intro hfresh hdone
    rw [ha.processed] at hdone
    exact (h.done hfresh hdone).aside ha
  · rw [ha.documents, ha.chunks, ha.processed]
    exact h.handled

/-- At the start. -/
theorem Halfway.refl (hrow : ∃ row, w.db.documents d = some row ∧ row.rawText = some t ∧
    row.status.terminal = false) : Halfway cfg d m t w w where
  row := hrow
  chunks := Or.inl rfl
  done hfresh hdone := by
    rw [hfresh] at hdone
    cases hdone
  handled h := ⟨h, rfl, rfl⟩

end Halfway

/-! ## One execution -/

section Execution
variable {cfg : Config} {d : DocId} {m : MessageId} {t : Text} {w₀ w : World}

/-- The executions keep the document halfway. -/
abbrev replay (cfg : Config) (d : DocId) (m : MessageId) (t : Text) (w₀ : World) :
    Automaton World Call Call.Reply :=
  replaying (Aside d m) (fun _ _ => True) fun w _ => Halfway cfg d m t w₀ w

/-- How an execution ends. -/
def Finished (cfg : Config) (d : DocId) (m : MessageId) (t : Text) (w₀ : World)
    (result : Option GoError) (w : World) : Prop :=
  Halfway cfg d m t w₀ w ∧ (w₀.db.processed m = none → result = none → ChunkedInto cfg d t w)

/-- An error says nothing about the chunks. -/
theorem Halfway.finished (h : Halfway cfg d m t w₀ w) (e : GoError) :
    Finished cfg d m t w₀ (some e) w :=
  ⟨h, fun _ he => nomatch he⟩

/-- The message has no dedupe row. -/
structure Unhandled (cfg : Config) (d : DocId) (m : MessageId) (t : Text) (w₀ w : World) : Prop
    extends Halfway cfg d m t w₀ w where
  fresh : w.db.processed m = none

/-- The document is done, but for the dedupe row and the next message. -/
structure HandingOn (cfg : Config) (d : DocId) (m : MessageId) (t : Text) (w₀ w : World) : Prop
    extends Halfway cfg d m t w₀ w where
  complete : ChunkedInto cfg d t w

theorem Unhandled.aside (h : Unhandled cfg d m t w₀ w) {w' : World} (ha : Aside d m w w') :
    Unhandled cfg d m t w₀ w' :=
  ⟨h.toHalfway.aside ha, ha.processed.trans h.fresh⟩

theorem HandingOn.aside (h : HandingOn cfg d m t w₀ w) {w' : World} (ha : Aside d m w w') :
    HandingOn cfg d m t w₀ w' :=
  ⟨h.toHalfway.aside ha, h.complete.aside ha⟩

/-- A message without a dedupe row had none at the start. -/
theorem Unhandled.fresh_start (h : Unhandled cfg d m t w₀ w) : w₀.db.processed m = none := by
  by_contra hsome
  have hdone : (w.db.processed m).isSome :=
    (h.handled (Option.isSome_iff_ne_none.mpr hsome)).1
  rw [h.fresh] at hdone
  cases hdone

/-- What is to be shown of a message without a dedupe row. -/
theorem Unhandled.of_fresh {w : World} (h₀ : w₀.db.processed m = none)
    (hfresh : w.db.processed m = none)
    (hrow : ∃ row, w.db.documents d = some row ∧ row.rawText = some t ∧
      row.status.terminal = false)
    (hchunks : w.db.chunksOf d = w₀.db.chunksOf d ∨ DividedInto cfg d t w) :
    Unhandled cfg d m t w₀ w where
  row := hrow
  chunks := hchunks
  done _ hdone := by
    rw [hfresh] at hdone
    cases hdone
  handled hsome := by
    rw [h₀] at hsome
    cases hsome
  fresh := hfresh

/-- The text stays, and the document is not finished, when its status is set to
one of the chunker's. -/
theorem Halfway.updated_row (h : Halfway cfg d m t w₀ w) {u : DocumentUpdate}
    (htext : u.rawText = none) (hu : u.status.terminal = false) {w' : World}
    (hdb : w'.db = w.db.updateDocument d u) :
    ∃ row, w'.db.documents d = some row ∧ row.status = u.status ∧ row.rawText = some t ∧
      row.status.terminal = false := by
  obtain ⟨row, hrow, ht, -⟩ := h.row
  refine ⟨u.apply row, ?_, rfl, ?_, hu⟩
  · rw [hdb, Db.updateDocument_documents, if_pos rfl, hrow]
    rfl
  · show u.rawText.or row.rawText = some t
    rw [htext, ht]
    rfl

theorem Unhandled.update (h : Unhandled cfg d m t w₀ w) {u : DocumentUpdate}
    (htext : u.rawText = none) (hu : u.status.terminal = false) {w' : World}
    (hdb : w'.db = w.db.updateDocument d u) : Unhandled cfg d m t w₀ w' := by
  have hchunks : w'.db.chunksOf d = w.db.chunksOf d := by rw [hdb]; rfl
  have hfresh : w'.db.processed m = none := by
    rw [hdb]
    exact h.fresh
  obtain ⟨row, hrow, -, ht, hstatus⟩ := h.updated_row htext hu hdb
  refine .of_fresh h.fresh_start hfresh ⟨row, hrow, ht, hstatus⟩ ?_
  rw [hchunks]
  exact h.chunks.imp_right fun hd => hd.congr hchunks

/-- `InsertChunks` deletes the old rows and inserts those of the text. -/
theorem Unhandled.insert (h : Unhandled cfg d m t w₀ w) {w' : World}
    (hdb : w'.db = w.db.insertChunks d (chunkRows (split t cfg.chunkSize cfg.chunkOverlap))) :
    Unhandled cfg d m t w₀ w' ∧ DividedInto cfg d t w' := by
  have hdivided : DividedInto cfg d t w' := by
    unfold DividedInto
    rw [hdb, Db.chunksOf_insertChunks_self]
    refine ⟨map_row_newChunk _ _ _, fun c hc => ?_⟩
    obtain ⟨n, hn, rfl⟩ := List.mem_mapIdx.mp hc
    rfl
  refine ⟨.of_fresh h.fresh_start ?_ ?_ (Or.inr hdivided), hdivided⟩
  · rw [hdb]
    exact h.fresh
  · rw [hdb]
    exact h.row

theorem Unhandled.complete (h : Unhandled cfg d m t w₀ w) (hdivided : DividedInto cfg d t w)
    {u : DocumentUpdate} (htext : u.rawText = none) (hu : u.status = .chunked) {w' : World}
    (hdb : w'.db = w.db.updateDocument d u) : HandingOn cfg d m t w₀ w' := by
  have hterminal : u.status.terminal = false := by rw [hu]; rfl
  obtain ⟨row, hrow, hstatus, -, -⟩ := h.updated_row htext hterminal hdb
  refine ⟨(h.update htext hterminal hdb).toHalfway, ?_, hdivided.congr ?_⟩
  · rw [hrow]
    exact congrArg some (hstatus.trans hu)
  · rw [hdb]
    rfl

/-- The dedupe row comes when everything is done. -/
theorem HandingOn.record (h : HandingOn cfg d m t w₀ w) {i : Nat} {row : ProcessedMessage}
    (hm : row.messageId = m) {w' : World} (hdb : w'.db = w.db.recordProcessed i row) :
    HandingOn cfg d m t w₀ w' := by
  have hchunks : w'.db.chunksOf d = w.db.chunksOf d := by rw [hdb]; rfl
  have hcomplete : ChunkedInto cfg d t w' := by
    refine ⟨?_, h.complete.2.congr hchunks⟩
    rw [hdb]
    exact h.complete.1
  refine ⟨⟨?_, Or.inr hcomplete.2, fun _ _ => hcomplete, fun hsome => ⟨?_, ?_, ?_⟩⟩, hcomplete⟩
  · rw [hdb]
    exact h.row
  · rw [hdb, ← hm]
    exact Db.recordProcessed_isSome i row
  · rw [hdb]
    exact (h.handled hsome).2.1
  · rw [hchunks]
    exact (h.handled hsome).2.2

/-- A call that inserts an event, or reads. -/
theorem Aside.of_db {w w' : World} (h : w'.db.documents = w.db.documents)
    (hc : w'.db.chunks = w.db.chunks) (hp : w'.db.processed = w.db.processed) : Aside d m w w' :=
  ⟨congrFun h d, by unfold Db.chunksOf; rw [hc], congrFun hp m⟩

theorem publishNext_replay (env : Envelope) (n : Nat) (hw : HandingOn cfg d m t w₀ w) :
    (replay cfg d m t w₀).Accepts (publishNext env n) (Finished cfg d m t w₀) (fun _ _ => False)
      w := by
  unfold publishNext
  refine accepts_look (HandingOn cfg d m t w₀) (fun _ _ h => h.aside) ?_ hw.toHalfway hw ?_
  · rintro i v w w' ⟨-, rfl⟩
    exact .of_db rfl rfl rfl
  intro r w₁ h₁
  cases r with
  | error e => exact h₁.toHalfway.finished _
  | ok id =>
    refine accepts_look (HandingOn cfg d m t w₀) (fun _ _ h => h.aside) ?_ h₁.toHalfway h₁ ?_
    · rintro i v w w' rfl
      exact .of_db rfl rfl rfl
    intro r w₂ h₂
    exact ⟨h₂.toHalfway, fun _ _ => h₂.complete⟩

theorem chunkDocument_replay {env : Envelope} (hd : env.documentId = d) (hm : env.messageId = m)
    (ht : ∃ c ∈ t, goSpace c = false) (hw : Unhandled cfg d m t w₀ w) :
    (replay cfg d m t w₀).Accepts (chunkDocument cfg env t) (Finished cfg d m t w₀)
      (fun _ _ => False) w := by
  subst hd hm
  unfold chunkDocument
  dsimp only
  split
  · rename_i hempty
    exact absurd (List.isEmpty_iff.mp hempty) (split_ne_nil ht _ _)
  refine accepts_call hw.toHalfway (fun _ _ ha => (hw.aside ha).toHalfway.finished _) ?_
  intro i a v w₁ w₂ ha _ _ hdoes
  obtain ⟨h₂, hdivided⟩ := (hw.aside ha).insert (congrArg World.db hdoes)
  refine accepts_call h₂.toHalfway (fun _ _ ha => (h₂.aside ha).toHalfway.finished _) ?_
  intro i a v w₃ w₄ ha _ _ hdoes
  have h₄ := (h₂.aside ha).complete (hdivided.congr ha.chunks) rfl rfl (congrArg World.db hdoes)
  refine accepts_look (HandingOn cfg _ _ t w₀) (fun _ _ h => h.aside) ?_ h₄.toHalfway h₄ ?_
  · rintro i v w w' rfl
    exact .of_db rfl rfl rfl
  intro r w₅ h₅
  refine accepts_call h₅.toHalfway (fun _ _ ha => publishNext_replay env _ (h₅.aside ha)) ?_
  intro i a v w₆ w₇ ha _ _ hdoes
  exact publishNext_replay env _ ((h₅.aside ha).record rfl (congrArg World.db hdoes))

theorem process_replay {env : Envelope} (hd : env.documentId = d) (hm : env.messageId = m)
    (ht : ∃ c ∈ t, goSpace c = false) (hw : Halfway cfg d m t w₀ w) :
    (replay cfg d m t w₀).Accepts (process cfg env) (Finished cfg d m t w₀) (fun _ _ => False)
      w := by
  subst hd hm
  unfold process
  split
  · exact hw.finished _
  refine accepts_call hw (fun _ _ ha => (hw.aside ha).finished _) ?_
  rintro i a v w₁ w₂ ha - - ⟨rfl, rfl⟩
  have h₂ := hw.aside ha
  cases hseen : w₂.db.alreadyProcessed env.messageId with
  | true =>
    -- a duplicate
    exact ⟨h₂, fun hfresh _ => h₂.done hfresh hseen⟩
  | false =>
    have h₂ : Unhandled cfg env.documentId env.messageId t w₀ w₂ :=
      ⟨h₂, Option.isSome_eq_false_iff.mp hseen |> Option.isNone_iff_eq_none.mp⟩
    refine accepts_call h₂.toHalfway (fun _ _ ha => (h₂.aside ha).toHalfway.finished _) ?_
    rintro i a v w₃ w₄ ha - - ⟨rfl, rfl⟩
    have h₄ := h₂.aside ha
    obtain ⟨row, hrow, htext, hstatus⟩ := h₄.row
    have hnonempty : t.isEmpty = false := by
      obtain ⟨c, hc, -⟩ := ht
      exact List.isEmpty_eq_false_iff.mpr (List.ne_nil_of_mem hc)
    simp only [hrow, hstatus, htext, Option.getD_some, hnonempty, Bool.false_eq_true, if_false]
    refine accepts_call h₄.toHalfway (fun _ _ ha => (h₄.aside ha).toHalfway.finished _) ?_
    intro i a v w₅ w₆ ha _ _ hdoes
    have h₆ := (h₄.aside ha).update rfl rfl (congrArg World.db hdoes)
    refine accepts_look (Unhandled cfg _ _ t w₀) (fun _ _ h => h.aside) ?_ h₆.toHalfway h₆ ?_
    · rintro i v w w' rfl
      exact .of_db rfl rfl rfl
    intro r w₇ h₇
    exact chunkDocument_replay rfl rfl ht h₇

end Execution

/-! ## Any number of executions -/

/-- The world `w` is reached by executions of `process` on message `m` of document `d`
that start in `w₀`, and `p` is what is left of the last one. -/
abbrev Attempts (cfg : Config) (d : DocId) (m : MessageId) (w₀ : World)
    (p : Program (Option GoError)) (w : World) : Prop :=
  Replays (Attempt cfg d m) (amid (Aside d m) fun _ _ => True) w₀ p w

section Attempts
variable {cfg : Config} {d : DocId} {m : MessageId} {t : Text} {w₀ w : World}
  {p : Program (Option GoError)}

theorem Attempts.accepts (h : Attempts cfg d m w₀ p w) (hw₀ : Halfway cfg d m t w₀ w₀)
    (ht : ∃ c ∈ t, goSpace c = false) :
    Halfway cfg d m t w₀ w ∧
      (replay cfg d m t w₀).Accepts p (Finished cfg d m t w₀) (fun _ _ => False) w := by
  have hstart : ∀ p w, Attempt cfg d m p → Halfway cfg d m t w₀ w →
      (replay cfg d m t w₀).Accepts p (Finished cfg d m t w₀) (fun _ _ => False) w := by
    rintro p w ⟨env, hd, hm, rfl⟩ hw
    exact process_replay hd hm ht hw
  exact ⟨Replays.invariant h hw₀ hstart (fun _ _ h => h) (fun _ _ h => h.1) fun _ _ h => h.elim,
    Replays.accepts h hw₀ hstart (fun _ _ h => h) (fun _ _ h => h.1) fun _ _ h => h.elim⟩

/-- **The chunker can be cut off anywhere and started again.** -/
theorem replay_safe (hrow : ∃ row, w₀.db.documents d = some row ∧ row.rawText = some t ∧
      row.status.terminal = false) (ht : ∃ c ∈ t, goSpace c = false)
    (h : Attempts cfg d m w₀ p w) :
    (w.db.chunksOf d = w₀.db.chunksOf d ∨ DividedInto cfg d t w) ∧
      (p = .ret none → ChunkedInto cfg d t w ∨
        (w₀.db.processed m).isSome ∧ w.db.documents d = w₀.db.documents d ∧
          w.db.chunksOf d = w₀.db.chunksOf d) := by
  obtain ⟨hw, haccepts⟩ := h.accepts (.refl hrow) ht
  refine ⟨hw.chunks, ?_⟩
  rintro rfl
  by_cases hfresh : w₀.db.processed m = none
  · exact Or.inl (haccepts.2 hfresh rfl)
  · have hsome : (w₀.db.processed m).isSome := Option.isSome_iff_ne_none.mpr hfresh
    exact Or.inr ⟨hsome, (hw.handled hsome).2⟩

end Attempts

/-- A call with nothing else around it. -/
theorem amid_of_exec {d : DocId} {m : MessageId} {i : Nat} {c : Call} {a : Answer} {w w' : World}
    {r : c.Reply} (h : exec i c a w = some (r, w')) :
    amid (Aside d m) (fun _ _ => True) c w r w' :=
  ⟨w, ⟨rfl, rfl, rfl⟩, i, a, trivial, h⟩

/-- One execution is cut off after it has stored the chunks, one cannot set the
status, and the third returns. -/
theorem replay_safe_sample : ∃ w₀ w : World, (w₀.db.chunksOf 1).length = 0 ∧
    (w.db.chunksOf 1).length = 1 ∧
      (ChunkedInto sampleConfig 1 sampleText w ∨ (w₀.db.processed firstMessage.body.messageId).isSome ∧
        w.db.documents 1 = w₀.db.documents 1 ∧ w.db.chunksOf 1 = w₀.db.chunksOf 1) := by
  obtain ⟨s, -, hrow, hnone, hrun⟩ := exists_run (step sampleConfig) .init (uploadRun ++ ocrRun 1)
    (fun s => (s.world.db.documents 1).any (fun row =>
        row.rawText = some sampleText ∧ row.status.terminal = false) = true ∧
      (s.world.db.chunksOf 1).length = 0 ∧
        (feed (exec 2) [.ok, .ok, .ok, .ok, .ok] (process sampleConfig firstMessage.body) s.world).any
          (fun r => (feed (exec 3) [.ok, .ok, .ok, .ok, .ok, .fail "lost"]
            (process sampleConfig firstMessage.body) r.2).any (fun r =>
              (feed (exec 4) [.ok, .ok, .ok, .ok, .ok, .ok, .ok, .ok, .id ['e'], .ok]
                (process sampleConfig firstMessage.body) r.2).any (fun r =>
                  r.1.value = some none ∧ (r.2.db.chunksOf 1).length = 1) = true) = true) = true)
    (by decide)
  obtain ⟨row, hrow, hrt⟩ := (Option.any_eq_true _ _).mp hrow
  obtain ⟨⟨p₁, w₁⟩, hfeed₁, hrun⟩ := (Option.any_eq_true _ _).mp hrun
  obtain ⟨⟨p₂, w₂⟩, hfeed₂, hrun⟩ := (Option.any_eq_true _ _).mp (of_decide_eq_true hrun)
  obtain ⟨⟨p₃, w₃⟩, hfeed₃, hrun⟩ := (Option.any_eq_true _ _).mp (of_decide_eq_true hrun)
  obtain ⟨hvalue, hlength⟩ := of_decide_eq_true hrun
  have hattempt : Attempt sampleConfig 1 firstMessage.body.messageId
      (process sampleConfig firstMessage.body) := ⟨firstMessage.body, rfl, rfl, rfl⟩
  have h₁ : Attempts sampleConfig 1 firstMessage.body.messageId s.world p₁ w₁ :=
    (Replays.start hattempt).feed (fun _ _ _ _ _ => amid_of_exec) hfeed₁
  have h₂ : Attempts sampleConfig 1 firstMessage.body.messageId s.world p₂ w₂ :=
    (h₁.again hattempt).feed (fun _ _ _ _ _ => amid_of_exec) hfeed₂
  have h₃ : Attempts sampleConfig 1 firstMessage.body.messageId s.world p₃ w₃ :=
    (h₂.again hattempt).feed (fun _ _ _ _ _ => amid_of_exec) hfeed₃
  exact ⟨s.world, w₃, hnone, hlength, (replay_safe ⟨row, hrow, of_decide_eq_true hrt⟩
    ⟨'I', by decide, by decide⟩ h₃).2 (Prog.eq_ret_of_value hvalue)⟩

/-- The chunker has handled the chunk message, the delivery was taken back before it
was acked, and the embedding worker has started on the document. -/
def handledRun : List Label :=
  uploadRun ++ ocrRun 1 ++
    .deliver 2 .chunk 0 :: answers 2 [.ok, .ok, .ok, .ok, .ok, .ok, .ok, .ok, .id ['e'], .ok] ++
    .redeliver 2 :: .deliver 3 .embed 0 :: answers 3 [.ok, .ok, .ok]

/-- **When the message has been handled before, an execution returns `nil` and does
nothing**: the document stays as it is, here in `embedding`. -/
theorem not_replay_safe : ¬ ∀ (cfg : Config) (s : Sys) (copy : Copy) (d : DocId) (m : MessageId)
    (t : Text) (p : Program (Option GoError)) (w : World), Reachable cfg anyStep s →
      copy ∈ s.world.broker.queues ⟨.chunk, .work⟩ → copy.message.body.documentId = d →
      copy.message.body.messageId = m →
      (∃ row, s.world.db.documents d = some row ∧ row.rawText = some t ∧
        row.status.terminal = false) → (∃ c ∈ t, goSpace c = false) →
      Attempts cfg d m s.world p w →
        (w.db.chunksOf d = s.world.db.chunksOf d ∨ DividedInto cfg d t w) ∧
          (p = .ret none → ChunkedInto cfg d t w) := by
  intro hall
  obtain ⟨s, hs, hqueue, hrow, hrun⟩ := exists_run (step sampleConfig) .init handledRun
    (fun s => ((s.world.broker.queues ⟨.chunk, .work⟩)[0]?).any (fun copy =>
        copy.message = firstMessage) = true ∧
      (s.world.db.documents 1).any (fun row =>
        row.rawText = some sampleText ∧ row.status.terminal = false) = true ∧
      (feed (exec 4) [.ok] (process sampleConfig firstMessage.body) s.world).any (fun r =>
        r.1.value = some none ∧
          (r.2.db.documents 1).map Document.status ≠ some .chunked) = true)
    (by decide)
  obtain ⟨copy, hcopy, hmessage⟩ := (Option.any_eq_true _ _).mp hqueue
  have hmessage := of_decide_eq_true hmessage
  obtain ⟨row, hrow, hrt⟩ := (Option.any_eq_true _ _).mp hrow
  obtain ⟨⟨p, w⟩, hfeed, hrun⟩ := (Option.any_eq_true _ _).mp hrun
  obtain ⟨hvalue, hstatus⟩ := of_decide_eq_true hrun
  have h : Attempts sampleConfig 1 firstMessage.body.messageId s.world p w :=
    (Replays.start ⟨firstMessage.body, rfl, rfl, rfl⟩).feed (fun _ _ _ _ _ => amid_of_exec) hfeed
  have hclaim := hall _ s copy 1 firstMessage.body.messageId sampleText p w (.of_run hs)
    (List.mem_of_getElem? hcopy) (by rw [hmessage]; rfl) (by rw [hmessage])
    ⟨row, hrow, of_decide_eq_true hrt⟩ ⟨'I', by decide, by decide⟩ h
  exact hstatus (hclaim.2 (Prog.eq_ret_of_value hvalue)).1

end DigitalCip.Chunker
