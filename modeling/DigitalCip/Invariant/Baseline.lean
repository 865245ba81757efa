import DigitalCip.Invariant.Base
import DigitalCip.Invariant.Frame

/-!
# The discipline of every run

Every step is admitted.  What an execution guarantees is that it takes nothing
back and stores objects only under its own ids; so what it relies on is that
everything it has learned stays true (`Lasting`).
-/

namespace DigitalCip
open Resumable

/-- What the others do to the world of execution `i`. -/
def Around (i : Nat) (w w' : World) : Prop :=
  Grows w w' ∧ ∀ key, (i, key.uuid) ∈ w.ids → w'.objects key = w.objects key

/-- Any run at all. -/
def baseline : Discipline where
  ok := anyStep
  known _ := True
  moves _ _ := True
  admits _ _ _ _ := True
  inv := Base
  rely i _ := Around i
  guar i _ w _ w' := Grows w w' ∧ Stores i w w'
  moves_refl _ := trivial
  moves_trans _ _ _ _ _ := trivial
  rely_refl _ _ w := ⟨.refl w, fun _ _ => rfl⟩
  rely_trans _ _ _ _ _ h h' :=
    ⟨h.1.trans h'.1, fun key hkey => (h'.2 key (h.1.ids _ hkey)).trans (h.2 key hkey)⟩
  post _ _ := True

/-! ## What an execution knows for good -/

/-- `K` survives what the others do to execution `i`. -/
def Lasting (i : Nat) (K : World → Prop) : Prop :=
  ∀ w w', K w → Around i w w' → Apart i w w' → K w'

/-- Execution `i` handles `env` and has published nothing yet. -/
structure Working (i : Nat) (S : Stage) (env : Envelope) (w : World) : Prop where
  handles : Handles w i S env
  unpublished : ∀ p ∈ w.broker.accepted, p.publisher ≠ i

section Lasting
variable {i : Nat} {S : Stage} {env : Envelope} {K J : World → Prop}

/-- What no step takes back. -/
theorem Lasting.of_grows (h : ∀ w w', K w → Grows w w' → K w') : Lasting i K :=
  fun w w' hK hw _ => h w w' hK hw.1

theorem Lasting.and (hK : Lasting i K) (hJ : Lasting i J) : Lasting i fun w => K w ∧ J w :=
  fun w w' h hw ha => ⟨hK w w' h.1 hw ha, hJ w w' h.2 hw ha⟩

theorem lasting_handles : Lasting i fun w => Handles w i S env :=
  .of_grows fun _ _ h => h.mono

theorem lasting_working : Lasting i (Working i S env) :=
  fun _ _ h hw ha => ⟨h.handles.mono hw.1,
    fun p hp hi => h.unpublished p (ha.accepted p hp hi) hi⟩

end Lasting

/-! ## Calls in any run -/

section Calls
variable {i : Nat} {S : Stage} {env : Envelope} {c : Call} {α : Type} {K : World → Prop}
  {E : Exc → World → Prop} {w : World}

/-- A call of a program that knows `K`, whatever the reply. -/
theorem wp_legal {k : c.Reply → Program α} {Q : α → World → Prop} (hK : Lasting i K) (hw : K w)
    (hlegal : ∀ w, K w → Base w → Legal i w c)
    (hfail : ∀ w reason, K w → c.remote = true → wp baseline.rules i (k (.error reason)) Q E w)
    (hok : ∀ w v w', K w → Base w → Does i c v w w' → Grows w w' → Base w' →
      wp baseline.rules i (k (.ok v)) Q E w') :
    wp baseline.rules i (Prog.perform c >>= k) Q E w := by
  refine Discipline.wp_perform (D := baseline) K hw (fun w w' h _ ha hr _ => hK w w' h hr ha) ?_ ?_
  · intro w reason h _ _ hremote _
    exact ⟨⟨.refl w, .of_eq rfl⟩, hfail w reason h hremote⟩
  · intro w v w' a h _ hbase _ _ _ _ hd
    have hl := hlegal w h hbase
    have hg := hbase.grows hl hd
    have hbase' := hbase.does hl hd
    exact ⟨hbase', ⟨hg, Base.stores hl hd⟩, hok w v w' h hbase hd hg hbase'⟩

/-- A call in Python or Ruby. -/
theorem wp_legal_call {Q : c.Val → World → Prop} (hK : Lasting i K) (hw : K w)
    (hlegal : ∀ w, K w → Base w → Legal i w c)
    (hfail : ∀ w reason, K w → E (.other reason) w)
    (hok : ∀ w v w', K w → Base w → Does i c v w w' → Grows w w' → Base w' → Q v w') :
    wp baseline.rules i (call c) Q E w :=
  wp_legal hK hw hlegal (fun w reason h _ => hfail w reason h) hok

theorem Working.does {v : c.Val} {w w' : World} (h : Working i S env w) (hd : Does i c v w w')
    (hg : Grows w w') (hc : ∀ key m, c ≠ .publish .ingest key m) : Working i S env w' :=
  ⟨h.handles.mono hg, fun p hp => h.unpublished p (accepted_of_does hd hc ▸ hp)⟩

/-- A call of a worker before it publishes.  `J` is what it has learned. -/
theorem wp_work {J : World → Prop} {k : c.Reply → Program α} {Q : α → World → Prop}
    (hJ : ∀ w w', J w → Grows w w' → J w') (hw : Working i S env w) (hJw : J w)
    (hc : ∀ key m, c ≠ .publish .ingest key m)
    (hlegal : ∀ w, Working i S env w → J w → Base w → Legal i w c)
    (hfail : ∀ w reason, Working i S env w → J w → c.remote = true →
      wp baseline.rules i (k (.error reason)) Q E w)
    (hok : ∀ w v w', Working i S env w' → J w' → Base w → Base w' → Does i c v w w' →
      wp baseline.rules i (k (.ok v)) Q E w') :
    wp baseline.rules i (Prog.perform c >>= k) Q E w := by
  refine wp_legal (K := fun w => Working i S env w ∧ J w) (lasting_working.and (.of_grows hJ))
    ⟨hw, hJw⟩ (fun w h hb => hlegal w h.1 h.2 hb) (fun w reason h hr => hfail w reason h.1 h.2 hr)
    fun w v w' h hb hd hg hb' => ?_
  exact hok w v w' (h.1.does hd hg hc) (hJ w w' h.2 hg) hb hb' hd

/-- A call of a Go worker before it publishes, whose reply is not looked at. -/
theorem wp_work_ignore {J : World → Prop} {rest : Program α} {Q : α → World → Prop}
    (hJ : ∀ w w', J w → Grows w w' → J w') (hw : Working i S env w) (hJw : J w)
    (hc : ∀ key m, c ≠ .publish .ingest key m)
    (hlegal : ∀ w, Working i S env w → J w → Base w → Legal i w c)
    (hrest : ∀ w, Working i S env w → J w → wp baseline.rules i rest Q E w) :
    wp baseline.rules i (Prog.perform c >>= fun _ => rest) Q E w :=
  wp_work hJ hw hJw hc hlegal (fun w _ h hj _ => hrest w h hj) fun _ _ w h hj _ _ _ => hrest w h hj

/-- A call of a Python worker before it publishes. -/
theorem wp_work_call {J : World → Prop} {Q : c.Val → World → Prop}
    (hJ : ∀ w w', J w → Grows w w' → J w') (hw : Working i S env w) (hJw : J w)
    (hc : ∀ key m, c ≠ .publish .ingest key m)
    (hlegal : ∀ w, Working i S env w → J w → Base w → Legal i w c)
    (hok : ∀ w v w', Working i S env w' → J w' → Base w → Base w' → Does i c v w w' → Q v w') :
    wp baseline.rules i (call c) Q (fun _ => Working i S env) w :=
  wp_work hJ hw hJw hc hlegal (fun _ _ h _ _ => h) hok

/-- A call of a Python worker before it publishes, and the rest of its program. -/
theorem wp_work_then {J : World → Prop} {k : c.Val → Program α} {Q : α → World → Prop}
    (hJ : ∀ w w', J w → Grows w w' → J w') (hw : Working i S env w) (hJw : J w)
    (hc : ∀ key m, c ≠ .publish .ingest key m)
    (hlegal : ∀ w, Working i S env w → J w → Base w → Legal i w c)
    (hok : ∀ w v w', Working i S env w' → J w' → Base w → Base w' → Does i c v w w' →
      wp baseline.rules i (k v) Q (fun _ => Working i S env) w') :
    wp baseline.rules i (call c >>= k) Q (fun _ => Working i S env) w := by
  rw [wp_bind]
  exact wp_work_call hJ hw hJw hc hlegal hok

end Calls
end DigitalCip
