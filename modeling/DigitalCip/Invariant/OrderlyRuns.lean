import DigitalCip.Invariant.OrderlyHandlers

/-!
# Every exclusive run is orderly

The consumers, the operations of the API and the environment keep every document
`Orderly` (`orderly_sound`), and no update in an exclusive run leaves the state
machine (`edge_of_update`).
-/

namespace DigitalCip
open Resumable

/-! ## The Python consumer -/

theorem Python.onMessage_orderly {cfg : Config} {T : Truth} {i : Nat} {S : Stage} {m : Message}
    {w : World} {N : Type} {handler : Envelope → Program (Option N)}
    {publishNext : Envelope → N → Program Unit} {K : World → Prop}
    (hhandler : wp (orderlyDiscipline cfg T).rules i (handler m.body)
      (fun r => Busy i S m.body fun w => r.isSome → K w) (fun _ => Busy i S m.body fun _ => True) w)
    (hnext : ∀ n w, Busy i S m.body K w → wp (orderlyDiscipline cfg T).rules i (publishNext m.body n)
      (fun _ => Busy i S m.body fun _ => True) (fun _ => Busy i S m.body fun _ => True) w) :
    wp (orderlyDiscipline cfg T).rules i
      (onMessage cfg.maxRetries envelopeCodec (channel S m) handler publishNext m.body)
      (fun _ _ => True) (fun _ _ => True) w := by
  have hkeeps := @keeps_busy cfg T i S m.body
  have hack : ∀ o w, Busy i S m.body (fun _ => True) w → wp (orderlyDiscipline cfg T).rules i
      ((channel S m).ack o) (fun _ => Busy i S m.body fun _ => True)
      (fun _ => Busy i S m.body fun _ => True) w :=
    fun o w h => hkeeps.calls (calls_call fun _ _ => id) h
  show wp _ i (tryCatch _ _) _ _ w
  refine wp_try (F := fun _ => Busy i S m.body fun _ => True) ?_ ?_
  · rw [wp_bind]
    refine wp_mono hhandler (fun r w₁ h₁ => ?_) fun _ _ h => h
    cases r with
    | none =>
      exact wp_mono (hack _ w₁ (h₁.weaken fun _ => trivial)) (fun _ _ _ => trivial) fun _ _ h => h
    | some next =>
      rw [wp_bind]
      refine wp_mono (hnext next w₁ (h₁.weaken fun h => h rfl)) (fun _ w₂ h₂ => ?_) fun _ _ h => h
      exact wp_mono (hack _ w₂ h₂) (fun _ _ _ => trivial) fun _ _ h => h
  · intro e w₁ h₁
    cases e with
    | permanent => exact wp_mono (hack _ w₁ h₁) (fun _ _ _ => trivial) fun _ _ _ => trivial
    | transient =>
      exact wp_mono (hkeeps.calls ((retry_settling _ _ _).mono fun _ => not_concerns_settling) h₁)
        (fun _ _ _ => trivial) fun _ _ _ => trivial
    | other =>
      exact wp_mono
        (hkeeps.calls ((unhandled_settling _ _).mono fun _ => not_concerns_settling) h₁)
        (fun _ _ _ => trivial) fun _ _ _ => trivial

/-! ## The API -/

section Requests
variable {cfg : Config} {T : Truth} {i : Nat} {w w' : World}

/-- A document that does not exist has no messages and no dedupe rows. -/
theorem Base.absent (hb : Base w) {d : DocId} (hd : w.db.documents d = none) :
    Unsent (w.view d) := by
  have hsent : ∀ S, ¬ (w.view d).sent S := by
    intro S hs
    obtain ⟨row, hrow⟩ := hb.row_of_sent hs
    rw [hd] at hrow
    cases hrow
  refine ⟨hsent, fun S hdone => ?_⟩
  obtain ⟨m, row, hm, -, hdoc⟩ := hdone
  obtain ⟨env, hh, -, hdoc'⟩ := (hb.recorded m row hm).handled
  obtain ⟨row', hrow'⟩ := hh.row hb
  rw [hdoc', hdoc, hd] at hrow'
  cases hrow'

/-- A new document is orderly. -/
theorem Orderly.new {d : DocId} {row : Document} (hunsent : Unsent (w.view d))
    (hstatus : row.status = .uploaded) (htext : row.rawText = none)
    (hchunks : (w.view d).chunks = []) : Orderly cfg T w d row := by
  refine ⟨⟨?_, ?_, ?_⟩, ⟨?_, ?_, ?_⟩, ?_, ?_, ?_, ?_, ?_, ?_⟩
  · intro h
    rw [hstatus] at h
    cases h
  · exact fun h => absurd h (hunsent.1 _)
  · exact fun h => absurd h (hunsent.1 _)
  · intro h
    rw [hstatus] at h
    cases h
  · exact fun h => absurd h (hunsent.1 _)
  · exact fun h => absurd h (hunsent.1 _)
  · exact fun h => absurd h (hunsent.2 _)
  · intro t ht
    rw [htext] at ht
    cases ht
  · intro h
    rw [hstatus] at h
    cases h
  · intro h
    rw [hstatus] at h
    cases h
  · intro h
    rw [hstatus] at h
    cases h
  · rw [hchunks]
    exact fun c hc => absurd hc List.not_mem_nil

/-- The calls of an upload keep every document orderly. -/
theorem keeps_upload : (orderlyDiscipline cfg T).Keeps i (fun _ => True) Api.UploadCall where
  stable _ _ _ _ _ _ _ _ _ := trivial
  fail c w reason _ _ _ _ := by
    refine ⟨fun _ _ _ => rfl, ?_⟩
    rintro d u row - ⟨v, he⟩ -
    cases he
  does c w v w' a hc _ hb hinv hb' hg _ _ hd := by
    -- the view of a document that is there does not change
    have hview : ∀ d, w.db.documents d ≠ none → w'.view d = w.view d := by
      intro d hd'
      refine view_of_does hd ?_
      cases c with
      | createDocument row stored =>
        rintro rfl
        exact hd' (hb.db.unused _ le_rfl)
      | publish exchange key m =>
        cases exchange with
        | ingest => exact fun h => h.1 hc.2
        | retry | dlx => exact id
      | _ => first | exact id | exact hc.elim
    have hupdate : ∀ d u, c ≠ .updateDocument d u := by
      rintro d u rfl
      exact hc
    refine ⟨?_, ⟨fun d _ hrow => hview d ?_, fun d u row he => absurd he (hupdate d u)⟩, trivial⟩
    · by_cases hall : ∀ d, w'.view d = w.view d
      · exact hinv.of_views hg hall
      obtain ⟨d, hne⟩ := not_forall.mp hall
      -- only the insert of a new document changes a view
      have hconcern : c.concerns w d := by
        by_contra hno
        exact hne (view_of_does hd hno)
      have hnone : w.db.documents d = none := by
        by_contra hrow
        exact hne (hview d hrow)
      cases c with
      | createDocument row stored =>
        obtain rfl : d = w.db.nextDocumentId := hconcern
        rcases hd with ⟨e, -, rfl⟩ | ⟨d', db, -, htx, rfl⟩
        · exact absurd rfl hne
        · obtain ⟨-, rfl, rfl⟩ := Api.createTransaction_ok htx
          have hnew : ((w.db.insertDocument row).documents w.db.nextDocumentId) = some row := by
            rw [Db.insertDocument_documents, if_pos rfl]
          refine hinv.step hg (· = w.db.nextDocumentId) (fun d hd' => ?_) ?_ ?_
          · refine view_congr ?_ rfl rfl rfl
            rw [Db.recordEvent_documents, Db.insertDocument_documents, if_neg hd']
          · rintro _ row' rfl hrow'
            obtain rfl : row = row' := Option.some.inj (hnew.symm.trans hrow')
            exact Orderly.new (hb.absent hnone) hc.1 hc.2 (hinv.bare _ hnone)
          · rintro _ rfl hno
            have hno : (w.db.insertDocument row).documents w.db.nextDocumentId = none := hno
            rw [hnew] at hno
            cases hno
      | publish exchange key m =>
        cases exchange with
        | ingest => exact absurd hc.2 hconcern.1
        | retry | dlx => exact hconcern.elim
      | _ => first | exact hconcern.elim | exact hc.elim
    · obtain ⟨row, hrow⟩ := hrow
      rw [hrow]
      exact Option.some_ne_none row

theorem keeps_retryRequest :
    (orderlyDiscipline cfg T).Keeps i (fun _ => True) Api.RetryCall where
  stable _ _ _ _ _ _ _ _ _ := trivial
  fail c w reason _ _ _ _ := by
    refine ⟨fun _ _ _ => rfl, ?_⟩
    rintro d u row - ⟨v, he⟩ -
    cases he
  does c w v w' a hc _ _ hinv _ hg _ _ hd := by
    have hview : ∀ d, w'.view d = w.view d := by
      intro d
      refine view_of_does hd ?_
      cases c <;> first | exact id | exact hc.elim
    refine ⟨hinv.of_views hg hview, ⟨fun d _ _ => hview d, fun d u row he => ?_⟩, trivial⟩
    subst he
    exact hc.elim

end Requests

/-! ## Every run -/

section Runs
variable {cfg : Config} {T : Truth}

theorem orderly_sound (cfg : Config) (T : Truth) : (orderlyDiscipline cfg T).Sound cfg .init where
  reached := .start
  start := Discipline.safe_init ⟨fun d row hrow => (by cases hrow), fun _ _ => rfl⟩
  known s h := reachable_base h
  moves s l s' h _ hstep := grows_of_step h hstep
  admits s i a c k _ _ hok hp := by
    have hpending := Pool.pending_of_progs hp
    refine ⟨hok.2.2 c hpending, ?_⟩
    rintro reason rfl row rfl
    exact hok.2.1 row hpending
  others s i a c k r w hs _ hok hp hx hguar j c' k' hji hj hc' d hd hrow := by
    have hexclusive : Reaches (step cfg) exclusive .init s := hs.mono fun _ _ h => h.1
    refine ⟨?_, hguar.1 d (fun hi => ?_) hrow⟩
    · rcases exec_cases hx with ⟨-, -, -, -, rfl⟩ | ⟨v, -, -, hdoes⟩
      · exact hd
      · rw [World.documentOf, handled_of_does hdoes]
        exact hd
    · by_contra hc
      exact hji (exclusive_atWork (fun _ _ h => h) hexclusive
        ⟨hd, c', Pool.pending_of_progs hj, hc'⟩
        ⟨hi, c, Pool.pending_of_progs hp, hc⟩)
  env s l w _ hsafe _ hmove _ hg := by
    have hview : ∀ d, w.view d = s.world.view d := fun d => view_of_envMove hmove
    exact ⟨hsafe.1.of_views hg hview, fun j c k _ _ _ d hd _ => ⟨hg.documentOf hd, hview d⟩⟩
  upload s i upload title tenantId _ _ _ _ _ := Api.upload_keeps keeps_upload _ _ _ trivial
  retryRequest s i documentId _ _ _ _ _ := Api.retryAction_keeps keeps_retryRequest _ trivial
  consumer s i S n copy w _ _ _ _ hi _ hw hb _ := by
    obtain ⟨hwork, -, -⟩ := hb.delivered hi hw
    have hbusy : Busy i S copy.message.body (fun _ => True) w :=
      ⟨hwork.handles, hwork.handles.row hb, trivial⟩
    cases S with
    | ocr => exact Python.onMessage_orderly (Ocr.handle_orderly hbusy) fun n w h =>
        Ocr.publishNext_orderly n h
    | chunk =>
      exact wp_mono (Chunker.handle_orderly hbusy) (fun _ _ _ => trivial) fun _ _ h => h.elim
    | embed =>
      show wp (orderlyDiscipline cfg T).rules i (Embedder.onMessage cfg copy.message) _ _ w
      unfold Embedder.onMessage
      refine Python.onMessage_orderly (K := fun _ => True) ?_ (fun n _ _ => n.elim)
      rw [wp_bind]
      exact wp_mono (Embedder.handle_orderly hbusy) (fun _ _ h => h.weaken fun _ _ => trivial)
        fun _ _ h => h

/-- **Every document of an exclusive run is orderly.** -/
theorem orderly_of_reachable {s : Sys} (h : Reachable cfg (orderlyRun T) s) {d : DocId}
    {row : Document} (hrow : s.world.db.documents d = some row) : Orderly cfg T s.world d row :=
  ((orderly_sound cfg T).safe h).1.rows d row hrow

/-- **Every update of an exclusive run** goes along an edge of the state machine. -/
theorem edge_of_update {s s' : Sys} (h : Reachable cfg (orderlyRun T) s) {i : Nat}
    (hl : orderlyRun T s (.run i .ok)) (hstep : step cfg s (.run i .ok) = some s') {d : DocId}
    {u : DocumentUpdate} (hp : s.pending i = some (.updateDocument d u)) {row : Document}
    (hrow : s.world.db.documents d = some row) : row.status.edge u.status = true := by
  have hsound := orderly_sound cfg T
  obtain ⟨c, k, r, w, hprog, hx, rfl⟩ := step_run hstep
  obtain ⟨k', hk'⟩ := Pool.pending_eq_some.mp hp
  obtain ⟨rfl, -⟩ := Prog.call.inj (Option.some.inj (hprog.symm.trans hk'))
  have hexec : (orderlyDiscipline cfg T).rules.exec i (.updateDocument d u) s.world r w :=
    ⟨hsound.known s h, hsound.known _ (h.next hl hstep), hsound.moves s _ _ h hl hstep, .ok,
      hsound.admits s i .ok _ k h (hsound.safe h) hl hprog, hx⟩
  have hguar := (Pool.Safe.exec (hsound.safe h) hprog hexec).2.1
  rcases exec_cases hx with ⟨_, he, -⟩ | ⟨v, rfl, -, -⟩
  · cases he
  · exact hguar.2 d u row rfl ⟨v, rfl⟩ hrow

end Runs
end DigitalCip
