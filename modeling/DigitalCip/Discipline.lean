import DigitalCip.Invariant.Authorship
import DigitalCip.Resumable.Calls

/-!
# Proving a property of every run

A `Discipline` says which steps a class of runs takes and what is claimed of
them: an invariant of the world, and for each execution what it relies on and
what it guarantees.  `Discipline.Sound` lists what has to be proved, one
obligation for each kind of step and one weakest precondition for each program;
`Sound.safe` puts them together by the rules of `Resumable`.  The runs start from
the empty system, or from any state that is reached and safe.

A discipline may build on a weaker one: `known` and `moves` are facts about the
worlds and the steps of its runs that have been proved before.  What a step does
not do in the name of another execution (`Apart`) is part of every rely.
-/

namespace DigitalCip
open Resumable

/-- A class of runs and what is claimed of them. -/
structure Discipline where
  ok : Sys → Label → Prop
  known : World → Prop
  moves : World → World → Prop
  admits : Nat → Call → Answer → World → Prop
  inv : World → Prop
  rely : Nat → Call → World → World → Prop
  guar : Nat → (c : Call) → World → c.Reply → World → Prop
  moves_refl : ∀ w, moves w w
  moves_trans : ∀ w w' w'', moves w w' → moves w' w'' → moves w w''
  rely_refl : ∀ i c w, rely i c w w
  rely_trans : ∀ i c w w' w'', rely i c w w' → rely i c w' w'' → rely i c w w''
  post : Nat → World → Prop

/-- What the environment does to the world in a step. -/
inductive EnvMove (s : Sys) : Label → World → Prop where
  | deliver {i : Nat} {S : Stage} {n : Nat} {copy : Copy} (hunused : s.Unused i)
      (hcopy : (s.world.broker.queues ⟨S, .work⟩)[n]? = some copy) :
      EnvMove s (.deliver i S n)
        { s.world with broker := s.world.broker.deliver i ⟨S, .work⟩ n copy }
  | die {i : Nat} (hp : (s.progs i).isSome) : EnvMove s (.die i) (s.world.takeBack i)
  | redeliver {i : Nat} {copy : Copy} (h : s.world.broker.Unsettled i copy) :
      EnvMove s (.redeliver i) (s.world.takeBack i)
  | expire {S : Stage} {n : Nat} {copy : Copy} (hcopy : (s.world.broker.queues ⟨S, .retry⟩)[n]? = some copy) :
      EnvMove s (.expire S n)
        { s.world with broker := s.world.broker.expire ⟨S, .retry⟩ n copy }

/-- **What a step does to the world**: nothing, a move of the environment, or one call
that succeeds. -/
theorem world_of_step {cfg : Config} {s s' : Sys} {l : Label} (h : step cfg s l = some s') :
    s'.world = s.world ∨ EnvMove s l s'.world ∨ ∃ i a c k v, l = .run i a ∧
      s.progs i = some (.call c k) ∧ reply i c a s.world = some (v, s'.world) := by
  cases l with
  | upload =>
    obtain ⟨-, rfl⟩ := step_upload h
    exact Or.inl rfl
  | retryRequest =>
    obtain ⟨-, rfl⟩ := step_retryRequest h
    exact Or.inl rfl
  | deliver =>
    obtain ⟨copy, hunused, hcopy, rfl⟩ := step_deliver h
    exact Or.inr (Or.inl (.deliver hunused hcopy))
  | run i a =>
    obtain ⟨c, k, r, w, hp, hx, rfl⟩ := step_run h
    rcases exec_cases hx with ⟨-, -, -, -, rfl⟩ | ⟨v, -, hreply, -⟩
    · exact Or.inl rfl
    · exact Or.inr (Or.inr ⟨i, a, c, k, v, rfl, hp, hreply⟩)
  | die =>
    obtain ⟨hp, rfl⟩ := step_die h
    exact Or.inr (Or.inl (.die hp))
  | redeliver =>
    obtain ⟨copy, hunsettled, rfl⟩ := step_redeliver h
    exact Or.inr (Or.inl (.redeliver hunsettled))
  | expire =>
    obtain ⟨copy, hcopy, rfl⟩ := step_expire h
    exact Or.inr (Or.inl (.expire hcopy))

namespace Discipline

/-- The rules of the shared world that a discipline gives to one execution. -/
def rules (D : Discipline) : Rules World Call Call.Reply where
  exec i c w r w' := D.known w ∧ D.known w' ∧ D.moves w w' ∧
    ∃ a, D.admits i c a w ∧ exec i c a w = some (r, w')
  inv := D.inv
  rely i c w w' := D.moves w w' ∧ Apart i w w' ∧ D.rely i c w w'
  guar := D.guar
  rely_refl i c w := ⟨D.moves_refl w, .refl i w, D.rely_refl i c w⟩
  rely_trans i c w w' w'' h h' :=
    ⟨D.moves_trans w w' w'' h.1 h'.1, h.2.1.trans h'.2.1, D.rely_trans i c w w' w'' h.2.2 h'.2.2⟩

/-- The weakest precondition of a program of execution `i` that leaves the world
in `D.post i` when it ends, with a value or an exception. -/
def Verified (D : Discipline) (i : Nat) (p : Program Unit) (w : World) : Prop :=
  wp D.rules i p (fun _ => D.post i) (fun _ => D.post i) w

/-- The invariant holds and every running execution is verified. -/
def Safe (D : Discipline) (s : Sys) : Prop :=
  Pool.Safe D.rules (fun i _ => D.post i) (fun i _ => D.post i) s

variable {D : Discipline} {cfg : Config}

/-- The empty system is safe. -/
theorem safe_init (h : D.inv .empty) : D.Safe .init := ⟨h, fun _ _ _ hp => nomatch hp⟩

/-- What has to be proved of a discipline, for its runs from `s₀`. -/
structure Sound (cfg : Config) (D : Discipline) (s₀ : Sys) : Prop where
  reached : Reachable cfg D.ok s₀
  start : D.Safe s₀
  known : ∀ s, Reaches (step cfg) D.ok s₀ s → D.known s.world
  moves : ∀ s l s', Reaches (step cfg) D.ok s₀ s → D.ok s l → step cfg s l = some s' →
    D.moves s.world s'.world
  admits : ∀ s i a c k, Reaches (step cfg) D.ok s₀ s → D.Safe s → D.ok s (.run i a) →
    s.progs i = some (.call c k) → D.admits i c a s.world
  others : ∀ s i a c k r w, Reaches (step cfg) D.ok s₀ s → D.Safe s → D.ok s (.run i a) →
    s.progs i = some (.call c k) → exec i c a s.world = some (r, w) → D.guar i c s.world r w →
    ∀ j c' k', j ≠ i → s.progs j = some (.call c' k') → D.rely j c' s.world w
  env : ∀ s l w, Reaches (step cfg) D.ok s₀ s → D.Safe s → D.ok s l → EnvMove s l w → D.known w →
    D.moves s.world w → D.inv w ∧ ∀ j c k, s.progs j = some (.call c k) → l ≠ .die j →
      D.rely j c s.world w
  upload : ∀ s i upload title tenantId, Reaches (step cfg) D.ok s₀ s → D.Safe s →
    D.ok s (.upload i upload title tenantId) → s.Unused i → Untouched i s.world →
    D.Verified i (do let _ ← Api.createDocument cfg upload title tenantId; return ()) s.world
  retryRequest : ∀ s i documentId, Reaches (step cfg) D.ok s₀ s → D.Safe s →
    D.ok s (.retryRequest i documentId) → s.Unused i → Untouched i s.world →
    D.Verified i (do let _ ← Api.retryAction documentId; return ()) s.world
  consumer : ∀ s i S n copy w, Reaches (step cfg) D.ok s₀ s → D.Safe s → D.ok s (.deliver i S n) →
    s.Unused i → Untouched i w → (s.world.broker.queues ⟨S, .work⟩)[n]? = some copy →
    w = { s.world with broker := s.world.broker.deliver i ⟨S, .work⟩ n copy } →
    D.known w → D.inv w → D.Verified i (consumer cfg S copy.message) w

/-- **Every state of every run of the discipline is safe.** -/
theorem Sound.safe {s₀ s : Sys} (h : Sound cfg D s₀) (hs : Reaches (step cfg) D.ok s₀ s) :
    D.Safe s := by
  induction hs with
  | start => exact h.start
  | @next s s' l hs hok hstep ih =>
    have hknown := h.known s hs
    have hknown' := h.known s' (hs.next hok hstep)
    have hmoves := h.moves s l s' hs hok hstep
    cases l with
    | upload i upload title tenantId =>
      obtain ⟨hunused, rfl⟩ := step_upload hstep
      exact Pool.Safe.spawn ih
        (h.upload s i upload title tenantId hs ih hok hunused (hunused.untouched (h.reached.trans hs)))
    | retryRequest i documentId =>
      obtain ⟨hunused, rfl⟩ := step_retryRequest hstep
      exact Pool.Safe.spawn ih
        (h.retryRequest s i documentId hs ih hok hunused (hunused.untouched (h.reached.trans hs)))
    | deliver i S n =>
      have hapart := fun j => apart_of_step (i := j) hstep (by simp)
      obtain ⟨copy, hunused, hcopy, rfl⟩ := step_deliver hstep
      obtain ⟨hinv, hrely⟩ := h.env s _ _ hs ih hok (.deliver hunused hcopy) hknown' hmoves
      refine Pool.Safe.spawn (Pool.Safe.move ih hinv fun j c k hj =>
        ⟨hmoves, hapart j, hrely j c k hj (by simp)⟩) ?_
      exact h.consumer s i S n copy _ hs ih hok hunused
        ((hapart i).untouched (hunused.untouched (h.reached.trans hs))) hcopy rfl hknown' hinv
    | run i a =>
      obtain ⟨c, k, r, w, hp, hx, rfl⟩ := step_run hstep
      have hexec : D.rules.exec i c s.world r w :=
        ⟨hknown, hknown', hmoves, a, h.admits s i a c k hs ih hok hp, hx⟩
      have hguar := (Pool.Safe.exec ih hp hexec).2.1
      exact Pool.Safe.step ih hp hexec fun j c' k' hji hj =>
        ⟨hmoves, apart_of_exec hx hji, h.others s i a c k r w hs ih hok hp hx hguar j c' k' hji hj⟩
    | die i =>
      have hapart := fun j => apart_of_step (i := j) hstep (by simp)
      obtain ⟨hp, rfl⟩ := step_die hstep
      obtain ⟨hinv, hrely⟩ := h.env s _ _ hs ih hok (.die hp) hknown' hmoves
      refine Pool.Safe.move (Pool.Safe.kill ih i died) hinv fun j c k hj =>
        ⟨hmoves, hapart j, ?_⟩
      by_cases hji : j = i
      · subst j
        rw [Pool.kill_progs_self] at hj
        cases hj
      · exact hrely j c k (by rwa [Pool.kill_progs_of_ne s i died hji] at hj)
          fun he => hji (Label.die.inj he).symm
    | redeliver i =>
      have hapart := fun j => apart_of_step (i := j) hstep (by simp)
      obtain ⟨copy, hunsettled, rfl⟩ := step_redeliver hstep
      obtain ⟨hinv, hrely⟩ := h.env s _ _ hs ih hok (.redeliver hunsettled) hknown' hmoves
      exact Pool.Safe.move ih hinv fun j c k hj => ⟨hmoves, hapart j, hrely j c k hj (by simp)⟩
    | expire S n =>
      have hapart := fun j => apart_of_step (i := j) hstep (by simp)
      obtain ⟨copy, hcopy, rfl⟩ := step_expire hstep
      obtain ⟨hinv, hrely⟩ := h.env s _ _ hs ih hok (.expire hcopy) hknown' hmoves
      exact Pool.Safe.move ih hinv fun j c k hj => ⟨hmoves, hapart j, hrely j c k hj (by simp)⟩

/-! ## One call of a verified program -/

section Calls
variable {i : Nat} {c : Call} {α : Type} {E : Exc → World → Prop} {w : World}

/-- **One call**, whose reply goes to the rest of the program.  `K` is what is
known when the call is made. -/
theorem wp_perform {k : c.Reply → Program α} {Q : α → World → Prop} (K : World → Prop) (hw : K w)
    (hstable : ∀ w w', K w → D.moves w w' → Apart i w w' → D.rely i c w w' → D.inv w' → K w')
    (hfail : ∀ w reason, K w → D.known w → D.inv w → c.remote = true →
      D.admits i c (.fail reason) w →
        D.guar i c w (.error reason) w ∧ wp D.rules i (k (.error reason)) Q E w)
    (hok : ∀ w v w' a, K w → D.known w → D.inv w → D.known w' → D.moves w w' →
      D.admits i c a w → reply i c a w = some (v, w') → Does i c v w w' →
        D.inv w' ∧ D.guar i c w (.ok v) w' ∧ wp D.rules i (k (.ok v)) Q E w') :
    wp D.rules i (Prog.perform c >>= k) Q E w := by
  rw [Prog.perform_bind]
  refine wp_call K hw (fun w w' hK hr => hstable w w' hK hr.1 hr.2.1 hr.2.2) ?_
  rintro w r w' hK hinv ⟨hknown, hknown', hmoves, a, hadmits, hx⟩
  rcases exec_cases hx with ⟨reason, rfl, rfl, hremote, rfl⟩ | ⟨v, rfl, hreply, hdoes⟩
  · exact ⟨hinv, hfail _ reason hK hknown hinv hremote hadmits⟩
  · exact hok w v w' a hK hknown hinv hknown' hmoves hadmits hreply hdoes

/-- One call in Python or Ruby. -/
theorem wp_call {Q : c.Val → World → Prop} (K : World → Prop) (hw : K w)
    (hstable : ∀ w w', K w → D.moves w w' → Apart i w w' → D.rely i c w w' → D.inv w' → K w')
    (hfail : ∀ w reason, K w → D.known w → D.inv w → c.remote = true →
      D.admits i c (.fail reason) w →
        D.guar i c w (.error reason) w ∧ E (.other reason) w)
    (hok : ∀ w v w' a, K w → D.known w → D.inv w → D.known w' → D.moves w w' →
      D.admits i c a w → reply i c a w = some (v, w') → Does i c v w w' →
        D.inv w' ∧ D.guar i c w (.ok v) w' ∧ Q v w') :
    wp D.rules i (call c) Q E w :=
  wp_perform K hw hstable hfail hok

/-- Execution `i` knows `K`, and a call that satisfies `P` keeps it. -/
structure Keeps (D : Discipline) (i : Nat) (K : World → Prop) (P : Call → Prop) : Prop where
  stable : ∀ c w w', P c → K w → D.moves w w' → Apart i w w' → D.rely i c w w' → D.inv w' → K w'
  fail : ∀ c w reason, P c → K w → D.known w → D.inv w → D.guar i c w (.error reason) w
  does : ∀ c w v w' a, P c → K w → D.known w → D.inv w → D.known w' → D.moves w w' →
    D.admits i c a w → reply i c a w = some (v, w') → Does i c v w w' →
      D.inv w' ∧ D.guar i c w (.ok v) w' ∧ K w'

namespace Keeps
variable {K : World → Prop} {P : Call → Prop}

/-- Fewer calls keep it too. -/
theorem mono {P' : Call → Prop} (h : D.Keeps i K P) (hP : ∀ c, P' c → P c) : D.Keeps i K P' where
  stable c w w' hc := h.stable c w w' (hP c hc)
  fail c w reason hc := h.fail c w reason (hP c hc)
  does c w v w' a hc := h.does c w v w' a (hP c hc)

/-- A program of such calls keeps `K`. -/
theorem calls {p : Program α} (h : D.Keeps i K P) (hp : p.Calls P) (hw : K w) :
    wp D.rules i p (fun _ => K) (fun _ => K) w := by
  refine wp_of_calls hp hw (fun c w w₁ hc hK hr hi => h.stable c w w₁ hc hK hr.1 hr.2.1 hr.2.2 hi) ?_
  rintro c w r w₂ hc hK hinv ⟨hknown, hknown', hmoves, a, hadmits, hx⟩
  rcases exec_cases hx with ⟨reason, rfl, rfl, -, rfl⟩ | ⟨v, rfl, hreply, hdoes⟩
  · exact ⟨hinv, h.fail c _ reason hc hK hknown hinv, hK⟩
  · exact h.does c w v w₂ a hc hK hknown hinv hknown' hmoves hadmits hreply hdoes

/-- One such call, with what it does, and the rest of the program. -/
theorem perform_does {k : c.Reply → Program α} {Q : α → World → Prop} (h : D.Keeps i K P)
    (hc : P c) (hw : K w) (hfail : ∀ reason w, K w → wp D.rules i (k (.error reason)) Q E w)
    (hok : ∀ w v w', D.known w → K w → K w' → Does i c v w w' → wp D.rules i (k (.ok v)) Q E w') :
    wp D.rules i (Prog.perform c >>= k) Q E w := by
  refine wp_perform K hw (fun w w' => h.stable c w w' hc) ?_ ?_
  · intro w reason hK hknown hinv _ _
    exact ⟨h.fail c w reason hc hK hknown hinv, hfail reason w hK⟩
  · intro w v w' a hK hknown hinv hknown' hmoves hadmits hreply hdoes
    obtain ⟨hinv', hguar, hK'⟩ :=
      h.does c w v w' a hc hK hknown hinv hknown' hmoves hadmits hreply hdoes
    exact ⟨hinv', hguar, hok w v w' hknown hK hK' hdoes⟩

/-- One such call, and the rest of the program for either reply. -/
theorem perform_then {k : c.Reply → Program α} {Q : α → World → Prop} (h : D.Keeps i K P)
    (hc : P c) (hw : K w) (hk : ∀ r w, K w → wp D.rules i (k r) Q E w) :
    wp D.rules i (Prog.perform c >>= k) Q E w :=
  h.perform_does hc hw (fun _ => hk _) fun _ _ w' _ _ hK' _ => hk _ w' hK'

/-- One such call in Python or Ruby, with what it does, and the rest of the program. -/
theorem call_does {k : c.Val → Program α} {Q : α → World → Prop} (h : D.Keeps i K P) (hc : P c)
    (hw : K w) (hE : ∀ reason w, K w → E (.other reason) w)
    (hk : ∀ w v w', D.known w → K w → K w' → Does i c v w w' → wp D.rules i (k v) Q E w') :
    wp D.rules i (call c >>= k) Q E w := by
  rw [wp_bind]
  exact h.perform_does hc hw hE hk

/-- The same, and the rest of the program for any value. -/
theorem call_then {k : c.Val → Program α} {Q : α → World → Prop} (h : D.Keeps i K P) (hc : P c)
    (hw : K w) (hE : ∀ e w, K w → E e w) (hk : ∀ v w, K w → wp D.rules i (k v) Q E w) :
    wp D.rules i (call c >>= k) Q E w :=
  h.call_does hc hw (fun _ => hE _) fun _ v w' _ _ hK' _ => hk v w' hK'

end Keeps

end Calls

end Discipline
end DigitalCip
