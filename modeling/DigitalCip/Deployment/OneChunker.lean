import DigitalCip.Deployment.Refinement
import DigitalCip.TakingTurns

/-!
# One chunker

A worker process handles one delivery at a time, so chunkers take turns when there is only
one process of them: as the deployment has it, whose containers have fixed names.  Then
`embedded` means embedded, however the processes die and lose their connections, and
whatever the broker delivers again.
-/

namespace DigitalCip.Deployment
open Resumable

/-- No insert of a dedupe row by the chunker fails. -/
def recordsChunks (c : Cluster) : Event → Prop
  | .call n (.fail _) => ∀ i row k, (c.workers n).running = some (i, .call (.recordProcessed row) k) →
      row.stage ≠ .chunk
  | _ => True

section OneChunker
variable {cfg : Config} {plan : Plan} {c : Cluster} {s : Sys} {n i : Nat} {copy : Copy}

/-- A process has messages of its own stage. -/
theorem Sane.stage (h : Sane plan c) (hb : Base c.world) (hown : (c.workers n).Owns i)
    (hi : c.world.broker.handled i = some copy) : copy.message.body.stage = plan.stage n := by
  obtain ⟨d, hd, hq⟩ := h.delivered n i hown
  obtain rfl : d.copy = copy := by
    rw [Broker.handled, hd] at hi
    exact Option.some.inj hi
  obtain ⟨p, -, -, hstage, halike⟩ := (hb.mail.held (plan.stage n) d.copy
    (.delivered i d hd rfl (by rw [hq]))).source
  exact halike.stage.trans hstage

/-- An execution that was given a copy is one of a process. -/
theorem Sane.worker_of_runs (h : Sane plan c) {p : Program Unit} (hp : c.Runs cfg plan i p)
    (hi : c.world.broker.handled i = some copy) :
    ∃ n, (c.workers n).Runs cfg (plan.stage n) c.world.broker i p := by
  rcases hp with hp | hp
  · rw [Broker.handled, h.requests i (Option.isSome_of_eq_some hp)] at hi
    cases hi
  · exact hp

/-- **A single chunker takes turns** with itself: what it has in hand besides the delivery
it handles, it has not begun. -/
theorem Refines.takeTurns (h : Refines cfg plan c s) (hsane : Sane plan c) (hb : Base s.world)
    (hone : ∀ n m, plan.stage n = .chunk → plan.stage m = .chunk → n = m) {e : Event} {a : Answer}
    (hmade : e.made c = some (i, a)) : chunkersTakeTurns cfg s (.run i a) := by
  intro x hx hxS j copy hji hcopy hS hsome
  rw [h.world] at hx hcopy hb
  obtain ⟨q, hq⟩ := Option.isSome_iff_exists.mp hsome
  obtain ⟨p, hp⟩ := h.covers j q hq
  obtain ⟨m, hm⟩ := hsane.worker_of_runs hp hcopy
  have hmS := (hsane.stage hb (Or.inr hm.inHand) hcopy).symm.trans hS
  -- the call is one of a process, of the same stage
  obtain ⟨n, r, hr⟩ : ∃ n r, (c.workers n).running = some (i, r) := by
    cases e with
    | serve k a' =>
      obtain ⟨p', hp', he⟩ := Option.map_eq_some_iff.mp hmade
      obtain ⟨rfl, rfl⟩ := Prod.mk.inj he
      rw [Broker.handled, hsane.requests k (Option.isSome_of_eq_some hp')] at hx
      cases hx
    | call n a' =>
      obtain ⟨⟨k, r⟩, hr, he⟩ := Option.map_eq_some_iff.mp hmade
      obtain ⟨rfl, rfl⟩ := Prod.mk.inj he
      exact ⟨n, r, hr⟩
    | _ => cases hmade
  have hown : (c.workers n).Owns i := Or.inr (by simp [Worker.inHand, hr])
  obtain rfl := hone n m ((hsane.stage hb hown hx).symm.trans hxS) hmS
  rcases hm with hrunning | ⟨-, copy', hcopy', rfl⟩
  · exact absurd (Prod.mk.inj (Option.some.inj (hrunning.symm.trans hr))).1 hji
  · obtain rfl := Option.some.inj (hcopy.symm.trans hcopy')
    rw [hmS] at hp
    exact h.held j _ hp

/-- The inserts that do not fail in the deployment do not fail in the system. -/
theorem Refines.records {ok : Sys → Label → Prop} (h : Refines cfg plan c s) (hsane : Sane plan c)
    (hs : DigitalCip.Reachable cfg ok s) {e : Event} {a : Answer} (hok : recordsChunks c e)
    (hmade : e.made c = some (i, a)) : chunkerRecords s (.run i a) := by
  cases a with
  | fail reason =>
    intro row hpending
    cases e with
    | serve k a' =>
      obtain ⟨p', hp', he⟩ := Option.map_eq_some_iff.mp hmade
      obtain ⟨rfl, rfl⟩ := Prod.mk.inj he
      obtain ⟨f, hf⟩ := Pool.pending_eq_some.mp hpending
      obtain ⟨copy, hcopy, -⟩ := consumerCall_of_onTask ((onTask_tracks cfg ok).holds hs hf)
        (by simp [Api.RequestCall])
      rw [h.world, Broker.handled, hsane.requests k (Option.isSome_of_eq_some hp')] at hcopy
      cases hcopy
    | call n a' =>
      obtain ⟨⟨k, r⟩, hr, he⟩ := Option.map_eq_some_iff.mp hmade
      obtain ⟨rfl, rfl⟩ := Prod.mk.inj he
      obtain ⟨f, hf⟩ := Pool.pending_eq_some.mp hpending
      obtain rfl := Option.some.inj ((h.held k r (Or.inr ⟨n, Or.inl hr⟩)).symm.trans hf)
      exact hok k row f hr
    | _ => cases hmade
  | _ => trivial

end OneChunker

/-- **As deployed, embedded means embedded**: with a single chunker process whose dedupe
rows are inserted, and any number of OCR and embedding workers, every chunk of an
`embedded` document has its embedding. -/
theorem one_chunker_embeds {cfg : Config} {plan : Plan}
    (hone : ∀ n m, plan.stage n = .chunk → plan.stage m = .chunk → n = m) {c : Cluster}
    (h : Reachable cfg plan recordsChunks c) {d : DocId} {row : Document}
    (hrow : c.world.db.documents d = some row) (hs : row.status = .embedded) :
    c.world.db.chunksOf d ≠ [] ∧ ∀ x ∈ c.world.db.chunksOf d, x.embedding.isSome := by
  have hsim : Simulates (step cfg plan) recordsChunks .init (DigitalCip.step cfg) (inTurn cfg) .init
      (Refines cfg plan) := by
    refine simulates (fun s l hl => ?_) fun c s e i a hc hs hR hok hmade => ?_
    · cases l with
      | run i a => exact absurd rfl (hl i a)
      | _ => exact ⟨trivial, trivial⟩
    · have hsane := sane_of_reachable hc
      exact ⟨hR.takeTurns hsane (reachable_base hs) hone hmade, hR.records hsane hs hok hmade⟩
  obtain ⟨s, hs', hR⟩ := hsim.reaches h
  rw [← hR.world] at hrow ⊢
  refine ⟨?_, embeddedMeans_of_inTurn hs' d ⟨row, hrow, hs⟩⟩
  exact (((reachable_base hs').db.rows d row hrow).divided (by rw [hs]; rfl)).1

/-- Process `n` gets these answers, one after the other. -/
def handling (n : Nat) (as : List Answer) : List Event :=
  .push n 0 :: .dispatch n :: as.map (.call n) ++ [.finish n]

/-- The chunker loses its connection before it acks and dies.  The message comes again, and
the document is embedded afterwards. -/
def interrupted : List Event :=
  .upload (some sampleUpload) none ['t'] ::
    [.id ['u'], .ok, .ok, .id ['m'], .id ['x'], .ok].map (.serve 0) ++
    [.boot 0, .dial 0 true, .boot 1, .dial 1 true, .boot 2, .dial 2 true] ++
    handling 0 [.ok, .ok, .ok, .ok, .ok, .text sampleText 1, .ok, .ok, .ok, .ok, .ok] ++
    .push 1 0 :: .dispatch 1 ::
      [.ok, .ok, .ok, .ok, .ok, .ok, .ok, .ok, .id ['e'], .ok].map (.call 1) ++
    [.lose 1, .call 1 (.fail "closed"), .finish 1, .exit 1, .boot 1, .dial 1 true] ++
    handling 1 [.ok, .ok] ++
    handling 2 [.ok, .ok, .ok, .ok, .ok, .vectors [sampleModel sampleText], .ok, .ok, .ok, .ok, .ok]

/-- Whether no call to insert a dedupe row fails. -/
def recording (c : Cluster) : Event → Bool
  | .call n (.fail _) => (c.workers n).running.all fun r => match r.2.pending with
    | some (.recordProcessed _) => false
    | _ => true
  | _ => true

theorem recordsChunks_of_recording (c : Cluster) (e : Event) (h : recording c e = true) :
    recordsChunks c e := by
  match e with
  | .call n (.fail reason) =>
    intro i row k hr
    rw [recording, hr] at h
    cases h
  | .call _ .ok | .call _ (.id _) | .call _ (.text _ _) | .call _ (.vectors _) => trivial
  | .upload .. | .retryRequest .. | .serve .. | .abort .. | .boot .. | .dial .. | .push ..
  | .dispatch .. | .finish .. | .lose .. | .reconnect .. | .stop .. | .exit .. | .expire .. => trivial

/-- The chunk message is handled twice, and in the end every chunk is embedded. -/
theorem one_chunker_embeds_interrupted : ∃ (c : Cluster) (row : Document),
    c.world.db.documents 1 = some row ∧ row.status = .embedded ∧
      c.world.db.chunksOf 1 ≠ [] ∧ ∀ x ∈ c.world.db.chunksOf 1, x.embedding.isSome := by
  obtain ⟨c, hc, hstatus⟩ := exists_run (Reaches.guarded (step sampleConfig samplePlan) recording) .init
    interrupted (fun c => (c.world.db.documents 1).map Document.status = some .embedded) (by decide)
  obtain ⟨row, hrow, hrs⟩ := Option.map_eq_some_iff.mp hstatus
  have hone : ∀ n m, samplePlan.stage n = .chunk → samplePlan.stage m = .chunk → n = m := by
    have hchunk : ∀ n, samplePlan.stage n = .chunk → n = 1 := by
      intro n hn
      match n with
      | 0 => cases hn
      | 1 => rfl
      | 2 => cases hn
      | _ + 3 => cases hn
    exact fun n m hn hm => (hchunk n hn).trans (hchunk m hm).symm
  have hreach := Reaches.of_guarded recordsChunks_of_recording hc
  exact ⟨c, row, hrow, hrs, one_chunker_embeds hone hreach hrow hrs⟩

end DigitalCip.Deployment
