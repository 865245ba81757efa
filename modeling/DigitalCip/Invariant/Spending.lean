import DigitalCip.Invariant.Prices

/-!
# What programs spend at most

Whatever the replies, an execution makes a bounded number of calls, and the calls that
publish or reject a message add a bounded load.  `Spends p n` bounds both together, at the
highest price of every call.
-/

namespace DigitalCip
open Resumable

/-- The highest price of every call. -/
def highest : Tariff Unit Call Call.Reply := .flat (Call.price true)

/-- What a program spends at most. -/
abbrev Spends {α : Type} (p : Program α) (n : Nat) : Prop := highest.Affords p n ()

section Spends
variable {α : Type} {n m : Nat}

theorem spends_call {c : Call} (hn : c.price true = n) : Spends (call c) n := by
  obtain rfl := hn
  refine (Tariff.affords_perform c).bind (m := 0) fun r => ?_
  cases r <;> trivial

theorem spends_of_le {p : Program α} (h : Spends p n) (hn : n ≤ m) : Spends p m := h.of_le hn

theorem spends_bind {β : Type} {p : Program α} {f : α → Program β} (h : Spends p n)
    (hf : ∀ a, Spends (f a) m) : Spends (p >>= f) (n + m) := h.bind hf

theorem spends_tryCatch {p : Program α} {f : Exc → Program α} (h : Spends p n)
    (hf : ∀ e, Spends (f e) m) : Spends (tryCatch p f) (n + m) := h.tryCatch hf

/-- A call that costs only itself. -/
theorem spends_one {c : Call} {k : c.Reply → Program α} (hc : c.price true = 1)
    (hk : ∀ r, Spends (k r) n) : Spends (Prog.perform c >>= k) (1 + n) :=
  hc ▸ (Tariff.affords_perform c).bind hk

end Spends

/-- The price of any publish. -/
theorem price_publish (exchange : Exchange) (key : RoutingKey) (m : Message) :
    (Call.publish exchange key m).price true ≤ 38 := by
  obtain ⟨S, leg⟩ := key
  cases exchange <;> cases S <;> cases leg <;> simp only [Call.price] <;> decide

theorem spends_publish (exchange : Exchange) (key : RoutingKey) (m : Message) :
    Spends (call (.publish exchange key m)) 38 :=
  spends_of_le (spends_call rfl) (price_publish exchange key m)

theorem Python.onMessage_spends {N : Type} {cfg : Config} {S : Stage} {m : Message} {n : Nat}
    {handler : Envelope → Program (Option N)} {publishNext : Envelope → N → Program Unit} (next : Nat)
    (hhandler : Spends (handler m.body) n) (hnext : ∀ v, Spends (publishNext m.body v) next) :
    Spends (onMessage cfg.maxRetries envelopeCodec (channel S m) handler publishNext m.body)
      (n + (next + 1) + 39) := by
  have hack : ∀ o, Spends ((channel S m).ack o) 1 := fun o => spends_call rfl
  refine spends_tryCatch (spends_bind hhandler fun r => ?_) fun e => ?_
  · cases r with
    | none => exact spends_of_le (hack .success) (Nat.le_add_left 1 next)
    | some v => exact spends_bind (hnext v) fun _ => hack .success
  · cases e with
    | permanent => exact spends_of_le (hack .permanent) (by decide)
    | transient =>
      show Spends (retry _ _ _ _) 39
      unfold retry
      split
      · trivial
      · exact spends_bind (spends_publish _ _ _) fun _ => hack .deadLettered
      · exact spends_bind (spends_publish _ _ _) fun _ => hack .retried
    | other =>
      refine spends_of_le (spends_tryCatch (m := 0) (spends_call (n := 38) rfl) fun _ => trivial) ?_
      decide

/-- Two lookups, the `try` block, and two statements of an `except` clause. -/
theorem Python.handle_spends {α : Type} {S : Stage} {env : Envelope} {n : Nat} {skipped : α}
    {work : Document → Program α} (hwork : ∀ document, Spends (work document) n) :
    Spends (handle S skipped work env) (1 + (1 + (n + 2))) := by
  unfold handle alreadyProcessed fetchDocument
  refine spends_bind (spends_call rfl) fun seen => ?_
  split
  · trivial
  refine spends_bind (spends_call rfl) fun found => ?_
  split
  · trivial
  split
  · trivial
  refine spends_tryCatch (hwork _) fun e => ?_
  unfold onError recordEvent
  cases e with
  | permanent =>
    exact spends_bind (n := 1) (m := 1) (spends_call rfl) fun _ =>
      spends_bind (n := 1) (m := 0) (spends_call rfl) fun _ => trivial
  | transient | other =>
    exact spends_bind (n := 1) (m := 1) (spends_call rfl) fun _ => trivial

theorem Ocr.recognise_spends (env : Envelope) (document : Document) (objectKey : ObjectKey) :
    Spends (recognise env document objectKey) 7 := by
  unfold recognise updateDocumentStatus Python.recordEvent Python.recordProcessed
  refine spends_bind (n := 1) (m := 6) (spends_call rfl) fun _ =>
    spends_bind (n := 1) (m := 5) (spends_call rfl) fun _ =>
    spends_bind (n := 1) (m := 4) (spends_call rfl) fun blob => ?_
  split
  · trivial
  refine spends_bind (n := 1) (m := 3) (spends_call rfl) fun text => ?_
  dsimp only
  split
  · trivial
  exact spends_bind (n := 1) (m := 2) (spends_call rfl) fun _ =>
    spends_bind (n := 1) (m := 1) (spends_call rfl) fun _ =>
    spends_bind (n := 1) (m := 0) (spends_call rfl) fun _ => trivial

theorem Ocr.handle_spends (env : Envelope) : Spends (handle env) 11 :=
  Python.handle_spends (n := 7) fun _ => recognise_spends _ _ _

theorem Embedder.embed_spends (env : Envelope) (document : Document) : Spends (embed env document) 8 := by
  unfold embed updateDocument Python.recordEvent Python.recordProcessed
  refine spends_bind (n := 1) (m := 7) (spends_call rfl) fun _ =>
    spends_bind (n := 1) (m := 6) (spends_call rfl) fun _ =>
    spends_bind (n := 1) (m := 5) (spends_call rfl) fun chunks => ?_
  have hdone : ∀ u e row, Spends (do
      call (.updateDocument env.documentId u)
      call (.recordEvent e)
      call (.recordProcessed row)) 3 :=
    fun u e row => spends_bind (n := 1) (m := 2) (spends_call rfl) fun _ =>
      spends_bind (n := 1) (m := 1) (spends_call rfl) fun _ => spends_call rfl
  split
  · exact spends_of_le (hdone _ _ _) (by decide)
  refine spends_bind (n := 1) (m := 4) (spends_call rfl) fun vectors => ?_
  refine spends_bind (n := 1) (m := 3) ?_ fun _ => hdone _ _ _
  unfold writeEmbeddings
  split
  · trivial
  · exact spends_call rfl

theorem Embedder.handle_spends (env : Envelope) : Spends (handle env) 12 :=
  Python.handle_spends (n := 8) fun _ => embed_spends _ _

theorem Chunker.process_spends (cfg : Config) (env : Envelope) : Spends (process cfg env) 47 := by
  unfold process
  split
  · trivial
  refine spends_one (n := 46) rfl fun r => ?_
  split
  · trivial
  · trivial
  refine spends_one (n := 45) rfl fun r => ?_
  split
  · trivial
  · trivial
  dsimp only
  split
  · trivial
  split
  · trivial
  refine spends_one (n := 44) rfl fun r => ?_
  split
  · trivial
  refine spends_one (n := 43) rfl fun _ => ?_
  unfold chunkDocument
  dsimp only
  split
  · exact spends_one (n := 42) rfl fun _ => spends_one (n := 41) rfl fun _ => trivial
  refine spends_one (n := 42) rfl fun r => ?_
  split
  · trivial
  refine spends_one (n := 41) rfl fun r => ?_
  split
  · trivial
  refine spends_one (n := 40) rfl fun _ => spends_one (n := 39) rfl fun _ => ?_
  unfold publishNext
  refine spends_one (n := 38) rfl fun r => ?_
  split
  · trivial
  · exact spends_bind (n := 38) (m := 0)
      (spends_of_le (Tariff.affords_perform _) (price_publish _ _ _)) fun _ => trivial

theorem Chunker.handle_spends (cfg : Config) (m : Message) : Spends (handle cfg m) 86 := by
  have hack : ∀ o, Spends (Prog.perform (.ack o) >>= fun _ => pure ()) 1 :=
    fun o => spends_one (n := 0) rfl fun _ => trivial
  have hpublish : ∀ exchange key (m : Message), Spends
      (Prog.perform (.publish exchange key m) >>= fun r => pure (errorOf r)) 38 :=
    fun exchange key m => spends_bind (n := 38) (m := 0)
      (spends_of_le (Tariff.affords_perform _) (price_publish _ _ _)) fun _ => trivial
  unfold handle
  dsimp only
  generalize (if m.body.attempt = 0 then { m.body with attempt := 1 } else m.body) = env
  refine spends_bind (n := 47) (m := 39) (process_spends cfg _) fun r => ?_
  split
  · exact spends_of_le (hack _) (by decide)
  · exact spends_of_le (hack _) (by decide)
  · split
    · exact spends_bind (n := 38) (m := 1) (hpublish _ _ _) fun _ => hack _
    · exact spends_bind (n := 38) (m := 1) (hpublish _ _ _) fun _ => hack _

theorem consumer_spends (cfg : Config) (S : Stage) (m : Message) : Spends (consumer cfg S m) 89 := by
  cases S with
  | ocr =>
    exact Python.onMessage_spends (n := 11) 38 (Ocr.handle_spends _)
      fun _ => spends_publish _ _ _
  | chunk => exact spends_of_le (Chunker.handle_spends cfg m) (by decide)
  | embed =>
    show Spends (Embedder.onMessage cfg m) 89
    unfold Embedder.onMessage
    refine spends_of_le (Python.onMessage_spends (n := 12) 0 ?_ fun v => by cases v) (by decide)
    exact spends_bind (n := 12) (m := 0) (Embedder.handle_spends _) fun _ => trivial

namespace Api

theorem publish_spends (stage : Stage) (documentId : DocId) (tenantId : Text) (payload : Payload)
    (attempt : Int) : Spends (publish stage documentId tenantId payload attempt) 40 := by
  unfold publish
  refine spends_bind (n := 1) (m := 39) (spends_call rfl) fun _ =>
    spends_bind (n := 1) (m := 38) (spends_call rfl) fun _ => ?_
  exact spends_bind (n := 38) (m := 0) (spends_publish _ _ _) fun _ => trivial

theorem createDocument_spends (cfg : Config) (upload : Option Upload) (title : Option Text)
    (tenantId : Text) : Spends (createDocument cfg upload title tenantId) 43 := by
  unfold createDocument
  split
  · trivial
  split
  · trivial
  refine spends_bind (n := 1) (m := 42) (spends_call rfl) fun _ =>
    spends_bind (n := 1) (m := 41) (spends_call rfl) fun _ =>
    spends_bind (n := 1) (m := 40) (spends_call rfl) fun r => ?_
  split
  · trivial
  · trivial
  · exact spends_bind (n := 40) (m := 0) (publish_spends _ _ _ _ _) fun _ => trivial

theorem retryAction_spends (documentId : DocId) : Spends (retryAction documentId) 42 := by
  unfold retryAction
  refine spends_bind (n := 1) (m := 41) (spends_call rfl) fun found => ?_
  split
  · trivial
  unfold retryDocument
  split
  · trivial
  refine spends_bind (n := 1) (m := 40) (spends_call rfl) fun r => ?_
  split
  · trivial
  · exact spends_bind (n := 40) (m := 0) (publish_spends _ _ _ _ _) fun _ => trivial

end Api

end DigitalCip
