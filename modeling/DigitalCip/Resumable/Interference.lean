import DigitalCip.Resumable.Program

/-!
# Programs that share a world

Many programs run against one shared world `W`, one call at a time and in any
order.  A program is verified on its own against a `Rules`:

* `exec i c w r w'`: program `i`, calling `c` in `w`, may get the reply `r` and
  leave `w'`;
* `inv`: what holds of the world between any two steps;
* `rely i c w w'`: what everybody else may do to the world while program `i`
  waits to perform `c`;
* `guar i c w r w'`: what program `i` owes the others when it performs `c`.

`wp` is the weakest precondition under these rules, and `Pool.Safe` says that
every running program of a pool satisfies its own.  The client of this module
shows that each step's guarantee implies the other programs' rely; then `Safe`
holds in every state of every interleaving (`Pool.Safe.step`,
`Pool.Safe.change`).
-/

namespace Resumable

/-- The rules of a shared world. -/
structure Rules (W C : Type) (Ret : C → Type) where
  exec : Nat → (c : C) → W → Ret c → W → Prop
  inv : W → Prop
  rely : Nat → C → W → W → Prop
  guar : Nat → (c : C) → W → Ret c → W → Prop
  rely_refl : ∀ i c w, rely i c w w
  rely_trans : ∀ i c w w' w'', rely i c w w' → rely i c w' w'' → rely i c w w''

variable {W C : Type} {Ret : C → Type} {ε α β : Type}

/-- The worlds from which program `i`, whatever the others do in between, keeps
the invariant and its guarantees, and ends in `Q` if it returns and in `E` if it
raises. -/
def wp (R : Rules W C Ret) (i : Nat) :
    Prog C Ret ε α → (α → W → Prop) → (ε → W → Prop) → W → Prop
  | .ret a, Q, _ => Q a
  | .raise e, _, E => E e
  | .call c k, Q, E => fun w => ∀ w₁, R.rely i c w w₁ → R.inv w₁ →
      ∀ r w₂, R.exec i c w₁ r w₂ → R.inv w₂ ∧ R.guar i c w₁ r w₂ ∧ wp R i (k r) Q E w₂

section Rules
variable {R : Rules W C Ret} {i : Nat} {Q Q' : α → W → Prop} {E E' : ε → W → Prop} {w w' : W}

@[simp] theorem wp_ret (a : α) : wp R i (.ret a : Prog C Ret ε α) Q E w = Q a w := rfl

@[simp] theorem wp_pure (a : α) : wp R i (pure a : Prog C Ret ε α) Q E w = Q a w := rfl

@[simp] theorem wp_raise (e : ε) : wp R i (.raise e : Prog C Ret ε α) Q E w = E e w := rfl

@[simp] theorem wp_throw (e : ε) : wp R i (throw e : Prog C Ret ε α) Q E w = E e w := rfl

/-- **Sequencing.** -/
@[simp] theorem wp_bind (p : Prog C Ret ε α) (f : α → Prog C Ret ε β) {Q : β → W → Prop} :
    wp R i (p >>= f) Q E w = wp R i p (fun a => wp R i (f a) Q E) E w := by
  induction p generalizing w with
  | ret a => rfl
  | raise e => rfl
  | call c k ih =>
    show (∀ w₁, _ → _ → ∀ r w₂, _ → _ ∧ _ ∧ wp R i (k r >>= f) Q E w₂) = _
    simp only [ih, wp]

/-- **Handling exceptions.** -/
@[simp] theorem wp_tryCatch (p : Prog C Ret ε α) (h : ε → Prog C Ret ε α) :
    wp R i (tryCatch p h) Q E w = wp R i p Q (fun e => wp R i (h e) Q E) w := by
  induction p generalizing w with
  | ret a => rfl
  | raise e => rfl
  | call c k ih =>
    show (∀ w₁, _ → _ → ∀ r w₂, _ → _ ∧ _ ∧ wp R i (tryCatch (k r) h) Q E w₂) = _
    simp only [ih, wp]

/-- **Consequence.** -/
theorem wp_mono {p : Prog C Ret ε α} (h : wp R i p Q E w) (hQ : ∀ a w, Q a w → Q' a w)
    (hE : ∀ e w, E e w → E' e w) : wp R i p Q' E' w := by
  induction p generalizing w with
  | ret a => exact hQ a w h
  | raise e => exact hE e w h
  | call c k ih =>
    intro w₁ hr hi r w₂ hx
    obtain ⟨hi₂, hg, hk⟩ := h w₁ hr hi r w₂ hx
    exact ⟨hi₂, hg, ih r hk⟩

/-- **The rule for exceptions**: the handler goes on from what holds where the program
raises. -/
theorem wp_try {p : Prog C Ret ε α} {f : ε → Prog C Ret ε α} {F : ε → W → Prop}
    (h : wp R i p Q F w) (hf : ∀ e w, F e w → wp R i (f e) Q E w) : wp R i (tryCatch p f) Q E w := by
  rw [wp_tryCatch]
  exact wp_mono h (fun _ _ h => h) hf

/-- **One call.**  `K` is what is known when the call is made: it holds now and
survives what the others may do in the meantime. -/
theorem wp_call {c : C} {k : Ret c → Prog C Ret ε α} (K : W → Prop) (hw : K w)
    (hstable : ∀ w w₁, K w → R.rely i c w w₁ → R.inv w₁ → K w₁)
    (hstep : ∀ w r w₂, K w → R.inv w → R.exec i c w r w₂ →
      R.inv w₂ ∧ R.guar i c w r w₂ ∧ wp R i (k r) Q E w₂) :
    wp R i (.call c k) Q E w := by
  intro w₁ hr hi r w₂ hx
  exact hstep w₁ r w₂ (hstable w w₁ hw hr hi) hi hx

/-- A waiting program does not notice what its rely admits. -/
theorem wp_call_stable {c : C} {k : Ret c → Prog C Ret ε α}
    (h : wp R i (.call c k) Q E w) (hr : R.rely i c w w') : wp R i (.call c k) Q E w' :=
  fun w₁ hr' => h w₁ (R.rely_trans i c w w' w₁ hr hr')

end Rules

/-! ## Pools -/

/-- A shared world and the programs running against it, each under its number. -/
structure Pool (W C : Type) (Ret : C → Type) (ε α : Type) where
  world : W
  progs : Nat → Option (Prog C Ret ε α)

namespace Pool

/-- The world moves. -/
def move (s : Pool W C Ret ε α) (w : W) : Pool W C Ret ε α := { s with world := w }

/-- A program starts under the number `i`. -/
def spawn (s : Pool W C Ret ε α) (i : Nat) (p : Prog C Ret ε α) : Pool W C Ret ε α :=
  { s with progs := Function.update s.progs i (some p) }

/-- Program `i` ends where it is, by the exception `e`. -/
def kill (s : Pool W C Ret ε α) (i : Nat) (e : ε) : Pool W C Ret ε α := s.spawn i (.raise e)

/-- The call program `i` waits on. -/
def pending (s : Pool W C Ret ε α) (i : Nat) : Option C := (s.progs i).bind Prog.pending

section Projections
variable (s : Pool W C Ret ε α) (w : W) (i : Nat) (p : Prog C Ret ε α) (e : ε)

@[simp] theorem move_world : (s.move w).world = w := rfl
@[simp] theorem move_progs : (s.move w).progs = s.progs := rfl
@[simp] theorem spawn_world : (s.spawn i p).world = s.world := rfl
@[simp] theorem kill_world : (s.kill i e).world = s.world := rfl

@[simp] theorem spawn_progs_self : (s.spawn i p).progs i = some p := by simp [spawn]

theorem spawn_progs_of_ne {j : Nat} (h : j ≠ i) : (s.spawn i p).progs j = s.progs j := by
  simp [spawn, h]

@[simp] theorem kill_progs_self : (s.kill i e).progs i = some (.raise e) := by simp [kill]

theorem kill_progs_of_ne {j : Nat} (h : j ≠ i) : (s.kill i e).progs j = s.progs j :=
  s.spawn_progs_of_ne i _ h

end Projections

theorem pending_eq_some {s : Pool W C Ret ε α} {i : Nat} {c : C} :
    s.pending i = some c ↔ ∃ k, s.progs i = some (.call c k) := by
  unfold pending
  constructor
  · intro h
    obtain ⟨p, hp, hc⟩ := Option.bind_eq_some_iff.mp h
    cases p with
    | call c' k =>
      obtain rfl := Option.some.inj hc
      exact ⟨k, hp⟩
    | ret | raise => cases hc
  · rintro ⟨k, hk⟩
    rw [hk]
    rfl

theorem pending_of_progs {s : Pool W C Ret ε α} {i : Nat} {c : C} {k : Ret c → Prog C Ret ε α}
    (h : s.progs i = some (.call c k)) : s.pending i = some c :=
  pending_eq_some.mpr ⟨k, h⟩

/-! ### Safety of a pool -/

variable (R : Rules W C Ret) (Q : Nat → α → W → Prop) (E : Nat → ε → W → Prop)

/-- The invariant holds, and every program that is still running satisfies its
weakest precondition. -/
def Safe (s : Pool W C Ret ε α) : Prop :=
  R.inv s.world ∧ ∀ i c k, s.progs i = some (.call c k) →
    wp R i (.call c k) (Q i) (E i) s.world

variable {R Q E} {s : Pool W C Ret ε α}

namespace Safe

/-- What a running program owes at its next step. -/
theorem exec (h : Safe R Q E s) {i : Nat} {c : C} {k : Ret c → Prog C Ret ε α}
    (hp : s.progs i = some (.call c k)) {r : Ret c} {w : W} (hx : R.exec i c s.world r w) :
    R.inv w ∧ R.guar i c s.world r w ∧ wp R i (k r) (Q i) (E i) w :=
  h.2 i c k hp s.world (R.rely_refl i c s.world) h.1 r w hx

/-- The world moves in a way that every running program relies on. -/
theorem move (h : Safe R Q E s) {w : W} (hinv : R.inv w)
    (hrely : ∀ i c k, s.progs i = some (.call c k) → R.rely i c s.world w) :
    Safe R Q E (s.move w) :=
  ⟨hinv, fun i c k hp => wp_call_stable (h.2 i c k hp) (hrely i c k hp)⟩

/-- A new program satisfies its weakest precondition. -/
theorem spawn (h : Safe R Q E s) {i : Nat} {p : Prog C Ret ε α}
    (hp : wp R i p (Q i) (E i) s.world) : Safe R Q E (s.spawn i p) := by
  refine ⟨h.1, fun j c k hj => ?_⟩
  by_cases hji : j = i
  · subst j
    rw [spawn_progs_self] at hj
    exact Option.some.inj hj ▸ hp
  · exact h.2 j c k (by rwa [spawn_progs_of_ne s i p hji] at hj)

theorem kill (h : Safe R Q E s) (i : Nat) (e : ε) : Safe R Q E (s.kill i e) := by
  refine ⟨h.1, fun j c k hj => ?_⟩
  by_cases hji : j = i
  · subst j
    rw [kill_progs_self] at hj
    cases hj
  · exact h.2 j c k (by rwa [kill_progs_of_ne s i e hji] at hj)

/-- **One program steps**, and the others rely on what it did. -/
theorem step (h : Safe R Q E s) {i : Nat} {c : C} {k : Ret c → Prog C Ret ε α}
    (hp : s.progs i = some (.call c k)) {r : Ret c} {w : W} (hx : R.exec i c s.world r w)
    (hothers : ∀ j c' k', j ≠ i → s.progs j = some (.call c' k') → R.rely j c' s.world w) :
    Safe R Q E ((s.move w).spawn i (k r)) := by
  obtain ⟨hinv, -, hk⟩ := h.exec hp hx
  refine ⟨hinv, fun j c' k' hj => ?_⟩
  by_cases hji : j = i
  · subst j
    rw [spawn_progs_self] at hj
    exact Option.some.inj hj ▸ hk
  · rw [spawn_progs_of_ne _ _ _ hji, move_progs] at hj
    exact wp_call_stable (h.2 j c' k' hj) (hothers j c' k' hji hj)

end Safe
end Pool
end Resumable
