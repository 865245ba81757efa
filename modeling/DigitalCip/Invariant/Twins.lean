import DigitalCip.Invariant.View
import DigitalCip.Resumable.Lockstep
import Mathlib.Data.Set.BooleanAlgebra
import Mathlib.Order.CompletePartialOrder

/-!
# Two runs up to the ids of chunks

The one thing a handler sees that depends on what happens to other documents is the
id of a chunk, which comes from a sequence that all documents share.  `upToIds`
matches the calls of two runs, and their replies, up to a relation `ρ` between the
chunk ids of the one and of the other.  The consumer of a message is in lockstep
with itself (`consumer_lockstep`): only the embedding worker gets to see ids, and it
only hands them back.

Used on one run and the ids of one document (`Db.own`) the same fact says that an
execution writes embeddings only to chunks of its own document (`lockstep_own`).
-/

namespace DigitalCip
open Resumable

/-- Pairs of chunk ids of two runs. -/
abbrev IdPairs := Set (ChunkId × ChunkId)

/-- The same chunk as the embedding worker sees it. -/
structure PendingChunk.Twin (ρ : IdPairs) (p p' : PendingChunk) : Prop where
  id : (p.id, p'.id) ∈ ρ
  position : p'.position = p.position
  content : p'.content = p.content

/-- The same update of one chunk. -/
def RowTwin (ρ : IdPairs) (row row' : ChunkId × Vec) : Prop := (row.1, row'.1) ∈ ρ ∧ row'.2 = row.2

/-- Calls match when they are the same, but for ids that `ρ` relates. -/
inductive Call.Twin (ρ : IdPairs) : Call → Call → Prop where
  | same {c : Call} (hc : ∀ rows, c ≠ .writeEmbeddings rows) : Call.Twin ρ c c
  | write {rows rows' : List (ChunkId × Vec)} (h : List.Forall₂ (RowTwin ρ) rows rows') :
      Call.Twin ρ (.writeEmbeddings rows) (.writeEmbeddings rows')

/-- The replies to matching calls. -/
def ReplyTwin (ρ : IdPairs) : (c c' : Call) → c.Reply → c'.Reply → Prop
  | .fetchChunksWithoutEmbedding _, .fetchChunksWithoutEmbedding _, .ok found, .ok found' =>
    List.Forall₂ (PendingChunk.Twin ρ) found found'
  | _, _, r, r' => HEq r r'

/-- Runs that differ in the ids of chunks. -/
def upToIds : Matching IdPairs Call Call.Reply where
  calls := Call.Twin
  replies := ReplyTwin
  mono := by
    intro ρ ρ' c c' hρ h
    cases h with
    | same hc => exact .same hc
    | write h => exact .write (h.imp fun _ _ hr => ⟨hρ hr.1, hr.2⟩)

/-- The reply says nothing of ids, and the call hands none back. -/
def IdFree : Call → Prop
  | .fetchChunksWithoutEmbedding _ | .writeEmbeddings _ => False
  | _ => True

section Lockstep
variable {α : Type} {ρ : IdPairs} {c : Call}

theorem twin_of_idFree (hc : IdFree c) : Call.Twin ρ c c :=
  .same fun rows he => by
    subst he
    exact hc

theorem eq_of_replyTwin (hc : IdFree c) {r r' : c.Reply} (h : ReplyTwin ρ c c r r') : r = r' := by
  cases c with
  | fetchChunksWithoutEmbedding | writeEmbeddings => exact hc.elim
  | _ => exact eq_of_heq h

theorem replyTwin_refl (hc : IdFree c) (r : c.Reply) : ReplyTwin ρ c c r r := by
  cases c with
  | fetchChunksWithoutEmbedding | writeEmbeddings => exact hc.elim
  | _ => exact HEq.rfl

/-- A program that sees no ids does the same in both runs. -/
theorem lockstep_of_idFree {p : Program α} (hp : p.Calls IdFree) :
    upToIds.Lockstep p p (fun _ => Eq) ρ :=
  .of_calls hp (fun _ _ => twin_of_idFree) (fun _ _ _ _ hc h => eq_of_replyTwin hc h) fun _ _ => rfl

/-- A call without ids, and what comes after it. -/
theorem lockstep_call_then {Q : IdPairs → α → α → Prop} {k k' : c.Val → Program α} (hc : IdFree c)
    (hk : ∀ σ v, ρ ⊆ σ → upToIds.Lockstep (k v) (k' v) Q σ) :
    upToIds.Lockstep (call c >>= k) (call c >>= k') Q ρ := by
  refine Matching.Lockstep.bind ?_
  refine ⟨twin_of_idFree hc, fun σ hσ r r' hr => ?_⟩
  obtain rfl := eq_of_replyTwin hc hr
  cases r with
  | error reason => exact rfl
  | ok v => exact hk σ v hσ

end Lockstep

/-! ## The consumers -/

/-- What a consumer other than the embedding worker's calls. -/
theorem idFree_of_consumer {S : Stage} {m : Message} {c : Call} (hS : S ≠ .embed)
    (h : ConsumerCall S m c) : IdFree c := by
  cases c with
  | fetchChunksWithoutEmbedding =>
    rcases h with h | (h | h) | ⟨T, -, h⟩
    · exact absurd h.2 hS
    · exact h.elim
    · cases h
    · exact h.elim
  | writeEmbeddings =>
    rcases h with h | (h | h) | ⟨T, -, h⟩
    · exact absurd h hS
    · exact h.elim
    · cases h
    · exact h.elim
  | _ => trivial

theorem idFree_of_settling {S : Stage} {m : Message} {c : Call} (h : Settling S m c) : IdFree c := by
  cases c with
  | fetchChunksWithoutEmbedding | writeEmbeddings => exact h.elim
  | _ => trivial

namespace Embedder
variable {ρ : IdPairs}

theorem finish_idFree {d : DocId} {u : DocumentUpdate} {e : ProcessingEvent}
    {row : ProcessedMessage} :
    (do
      call (.updateDocument d u)
      call (.recordEvent e)
      call (.recordProcessed row) : Program Unit).Calls IdFree :=
  .bind (calls_call trivial) fun _ => .bind (calls_call trivial) fun _ => calls_call trivial

/-- Ids and vectors are paired by position in both runs. -/
theorem forall₂_zip {found found' : List PendingChunk}
    (h : List.Forall₂ (PendingChunk.Twin ρ) found found') (vectors : List Vec) :
    List.Forall₂ (RowTwin ρ) ((found.map PendingChunk.id).zip vectors)
      ((found'.map PendingChunk.id).zip vectors) := by
  induction h generalizing vectors with
  | nil => exact .nil
  | cons hp _ ih =>
    cases vectors with
    | nil => exact .nil
    | cons v vectors => exact .cons ⟨hp.id, rfl⟩ (ih vectors)

theorem map_content_eq {found found' : List PendingChunk}
    (h : List.Forall₂ (PendingChunk.Twin ρ) found found') :
    found'.map PendingChunk.content = found.map PendingChunk.content := by
  induction h with
  | nil => rfl
  | cons hp _ ih => rw [List.map_cons, List.map_cons, hp.content, ih]

/-- The reply to the fetch, in both runs. -/
theorem fetched_cases {d d' : DocId} {r : (Call.fetchChunksWithoutEmbedding d).Reply}
    {r' : (Call.fetchChunksWithoutEmbedding d').Reply}
    (h : ReplyTwin ρ (.fetchChunksWithoutEmbedding d) (.fetchChunksWithoutEmbedding d') r r') :
    (∃ e, r = .error e ∧ r' = .error e) ∨
      ∃ found found', r = .ok found ∧ r' = .ok found' ∧
        List.Forall₂ (PendingChunk.Twin ρ) found found' := by
  cases r with
  | error e =>
    cases r' with
    | error e' =>
      obtain rfl := Except.error.inj (eq_of_heq h)
      exact Or.inl ⟨e, rfl, rfl⟩
    | ok found' => exact absurd (eq_of_heq h) (fun he => nomatch he)
  | ok found =>
    cases r' with
    | error e' => exact absurd (eq_of_heq h) (fun he => nomatch he)
    | ok found' => exact Or.inr ⟨found, found', rfl, rfl, h⟩

theorem writeEmbeddings_lockstep {rows rows' : List (ChunkId × Vec)}
    (h : List.Forall₂ (RowTwin ρ) rows rows') :
    upToIds.Lockstep (writeEmbeddings rows) (writeEmbeddings rows') (fun _ => Eq) ρ := by
  unfold writeEmbeddings
  cases h with
  | nil => exact rfl
  | cons hrow hrows =>
    refine ⟨.write (.cons hrow hrows), fun σ _ r r' hr => ?_⟩
    obtain rfl : r = r' := eq_of_heq hr
    cases r with
    | error reason => exact rfl
    | ok v => exact rfl

theorem embed_lockstep (env : Envelope) (document : Document) :
    upToIds.Lockstep (embed env document) (embed env document) (fun _ => Eq) ρ := by
  unfold embed updateDocument Python.recordEvent Python.recordProcessed
  refine lockstep_call_then trivial fun ρ _ _ => lockstep_call_then trivial fun ρ _ _ => ?_
  -- the ids of the chunks that are found differ
  refine Matching.Lockstep.bind ⟨.same (by simp), fun ρ _ r r' hr => ?_⟩
  rcases fetched_cases hr with ⟨e, rfl, rfl⟩ | ⟨found, found', rfl, rfl, hfound⟩
  · exact rfl
  show upToIds.Lockstep (if found.isEmpty then _ else _) (if found'.isEmpty then _ else _) _ ρ
  cases hfound with
  | nil => exact lockstep_of_idFree finish_idFree
  | @cons p p' found found' hp hrest =>
    have hfound := List.Forall₂.cons hp hrest
    generalize hf : p :: found = cs at hfound ⊢
    generalize hf' : p' :: found' = cs' at hfound ⊢
    have hne : cs.isEmpty = false ∧ cs'.isEmpty = false := by
      subst hf hf'
      exact ⟨rfl, rfl⟩
    rw [if_neg (by simp [hne.1]), if_neg (by simp [hne.2]), map_content_eq hfound]
    refine lockstep_call_then trivial fun ρ' vectors hρ => ?_
    have hrows := forall₂_zip (hfound.imp fun _ _ h => ⟨hρ h.id, h.position, h.content⟩) vectors
    dsimp only
    rw [hrows.length_eq]
    refine Matching.Lockstep.bind ((writeEmbeddings_lockstep hrows).imp ?_)
    rintro σ - u u' rfl
    exact lockstep_of_idFree finish_idFree

theorem onError_idFree (env : Envelope) (e : Exc) : (onError env e).Calls IdFree :=
  Python.onError_calls (fun _ => trivial) (fun _ _ => trivial) e

theorem handle_lockstep (env : Envelope) :
    upToIds.Lockstep (handle env) (handle env) (fun _ => Eq) ρ := by
  unfold handle Python.handle Python.alreadyProcessed Python.fetchDocument
  refine lockstep_call_then trivial fun ρ seen _ => ?_
  split
  · exact rfl
  refine lockstep_call_then trivial fun ρ found _ => ?_
  split
  · exact rfl
  split
  · exact rfl
  · exact (embed_lockstep env _).tryCatch fun σ _ e => lockstep_of_idFree (onError_idFree env e)

end Embedder

/-- **The consumer of a message runs in lockstep with itself**, up to the ids of
chunks. -/
theorem consumer_lockstep {ρ : IdPairs} (cfg : Config) (S : Stage) (m : Message) :
    upToIds.Lockstep (consumer cfg S m) (consumer cfg S m) (fun _ => Eq) ρ := by
  by_cases hS : S = .embed
  · subst hS
    refine Matching.Lockstep.tryCatch (Matching.Lockstep.bind (Matching.Lockstep.bind ?_)) ?_
    · refine (Embedder.handle_lockstep m.body).imp ?_
      rintro σ - u u' rfl
      exact lockstep_of_idFree (calls_call trivial)
    · intro σ _ e
      refine lockstep_of_idFree ?_
      cases e with
      | permanent => exact calls_call trivial
      | transient => exact (Python.retry_settling _ _ _).mono fun _ => idFree_of_settling
      | other => exact (Python.unhandled_settling _ _).mono fun _ => idFree_of_settling
  · exact lockstep_of_idFree ((consumer_calls cfg S m).mono fun _ => idFree_of_consumer hS)

/-! ## The chunks an execution writes to -/

/-- The ids that belong to document `d` and will never be another's, paired with
themselves. -/
def Db.own (db : Db) (d : DocId) : IdPairs :=
  {p | p.1 = p.2 ∧ p.1 < db.nextChunkId ∧ ∀ c ∈ db.chunks, c.id = p.1 → c.documentId = d}

/-- They stay its own. -/
theorem Db.Grows.own {db db' : Db} (h : db.Grows db') (d : DocId) : db.own d ⊆ db'.own d := by
  rintro ⟨a, b⟩ ⟨he, hlt, hown⟩
  refine ⟨he, hlt.trans_le h.nextChunkId, fun c' hc' hid => ?_⟩
  -- a chunk with an old id is an old chunk
  obtain ⟨c, hc, hk⟩ := h.oldChunks c' hc' (hid ▸ hlt)
  exact hk.documentId.trans (hown c hc (hk.id.symm.trans hid))

/-- The chunks of a document have ids of its own. -/
theorem Db.Ok.own {db : Db} (h : db.Ok) {d : DocId} {c : DocumentChunk} (hc : c ∈ db.chunksOf d) :
    (c.id, c.id) ∈ db.own d := by
  obtain ⟨hmem, hdoc⟩ := Db.mem_chunksOf.mp hc
  refine ⟨rfl, h.chunkIds_lt c hmem, fun c' hc' hid => ?_⟩
  obtain rfl : c' = c := List.inj_on_of_nodup_map h.chunkIds hc' hmem hid
  exact hdoc

/-- What the consumer of `m` does, up to ids. -/
abbrev consumption (S : Stage) (m : Message) : Matching IdPairs Call Call.Reply :=
  upToIds.restrict (ConsumerCall S m)

theorem consumption_lockstep {ρ : IdPairs} (cfg : Config) (S : Stage) (m : Message) :
    (consumption S m).Lockstep (consumer cfg S m) (consumer cfg S m) (fun _ => Eq) ρ :=
  (consumer_lockstep cfg S m).restrict (consumer_calls cfg S m)

/-- The reply to a consumer names only chunks of its own document. -/
theorem replyTwin_own {i : Nat} {S : Stage} {m : Message} {c : Call} {a : Answer} {r : c.Reply}
    {w w' : World} (hok : w.db.Ok) (hc : ConsumerCall S m c) (hx : exec i c a w = some (r, w')) :
    ReplyTwin (w'.db.own m.body.documentId) c c r r := by
  cases c with
  | fetchChunksWithoutEmbedding d =>
    obtain rfl := hc.subject rfl
    rcases exec_cases hx with ⟨reason, -, rfl, -, -⟩ | ⟨found, rfl, -, rfl, rfl⟩
    · exact HEq.rfl
    · refine List.forall₂_same.mpr fun p hp => ?_
      obtain ⟨c, hc, hid, -⟩ := of_mem_chunksWithoutEmbedding hp
      exact ⟨hid ▸ hok.own hc, rfl, rfl⟩
  | _ => exact HEq.rfl

/-- **An execution hands back only ids of chunks of its own document.** -/
theorem lockstep_own {cfg : Config} {ok : Sys → Label → Prop} {s : Sys} (h : Reachable cfg ok s)
    {i : Nat} {copy : Copy} {p : Program Unit} (hcopy : s.world.broker.handled i = some copy)
    (hp : s.progs i = some p) :
    ∃ S, (consumption S copy.message).Lockstep p p (fun _ => Eq)
      (s.world.db.own copy.message.body.documentId) := by
  induction h generalizing i copy p with
  | start => cases hp
  | @next s s' l hs hl hstep ih =>
    have hgrows := (grows_of_step hs hstep).db.own copy.message.body.documentId
    have hkeep : ∀ {q : Program Unit}, (∃ S, (consumption S copy.message).Lockstep q q (fun _ => Eq)
        (s.world.db.own copy.message.body.documentId)) →
        ∃ S, (consumption S copy.message).Lockstep q q (fun _ => Eq)
          (s'.world.db.own copy.message.body.documentId) :=
      fun ⟨S, hq⟩ => ⟨S, hq.mono hgrows fun _ h => h⟩
    have hdead : ∀ e, ∃ S, (consumption S copy.message).Lockstep (.raise e : Program Unit) (.raise e)
        (fun _ => Eq) (s'.world.db.own copy.message.body.documentId) := fun e => ⟨.ocr, rfl⟩
    by_cases he : l.execution = some i
    · cases l with
      | upload j u t x =>
        obtain rfl := Option.some.inj he
        obtain ⟨hunused, rfl⟩ := step_upload hstep
        rw [Pool.spawn_world, Broker.handled, Option.isNone_iff_eq_none.mp hunused.2] at hcopy
        cases hcopy
      | retryRequest j d =>
        obtain rfl := Option.some.inj he
        obtain ⟨hunused, rfl⟩ := step_retryRequest hstep
        rw [Pool.spawn_world, Broker.handled, Option.isNone_iff_eq_none.mp hunused.2] at hcopy
        cases hcopy
      | deliver j S n =>
        obtain rfl := Option.some.inj he
        obtain ⟨copy', -, -, rfl⟩ := step_deliver hstep
        have hsame : copy' = copy := by
          simpa [Broker.handled, Broker.deliver] using hcopy
        rw [Pool.spawn_progs_self] at hp
        obtain rfl := Option.some.inj hp
        rw [hsame]
        exact ⟨S, consumption_lockstep cfg S copy.message⟩
      | run j a =>
        obtain rfl := Option.some.inj he
        rw [handled_of_step hstep (by simp)] at hcopy
        obtain ⟨c, k, r, w, hprog, hx, rfl⟩ := step_run hstep
        rw [Pool.spawn_progs_self] at hp
        obtain rfl := Option.some.inj hp
        obtain ⟨S, ⟨-, hcall⟩, hk⟩ := ih hcopy hprog
        exact ⟨S, hk _ hgrows r r (replyTwin_own (reachable_base hs).db hcall hx)⟩
      | die j =>
        obtain rfl := Option.some.inj he
        obtain ⟨-, rfl⟩ := step_die hstep
        rw [Pool.move_progs, Pool.kill_progs_self] at hp
        obtain rfl := Option.some.inj hp
        exact hdead _
      | redeliver j =>
        rw [handled_of_step hstep (by simp)] at hcopy
        obtain ⟨-, -, rfl⟩ := step_redeliver hstep
        exact hkeep (ih hcopy hp)
      | expire => cases he
    · rw [progs_of_step hstep he] at hp
      rw [handled_of_step hstep fun S n hl' => he (by rw [hl']; rfl)] at hcopy
      exact hkeep (ih hcopy hp)

end DigitalCip
