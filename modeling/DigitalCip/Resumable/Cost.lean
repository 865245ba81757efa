import DigitalCip.Resumable.Automaton
import DigitalCip.Resumable.Run
import Mathlib.Algebra.GroupWithZero.Nat
import Mathlib.Algebra.Order.BigOperators.Group.Finset

/-!
# What programs can still cost

A `Tariff` says what each call costs, whether it is allowed and which replies it can get,
all in a mode that the replies move.  `t.Affords p n b` says that `p`, started with the
funds `n` in the mode `b`, makes only allowed calls and never spends more than it has,
whatever replies it gets.

A pool is `t.Within mode load n` if the load of its world and the funds that its running
programs need come to at most `n`.  A step whose price pays for the load it adds lowers
this bound, so a run of such steps is no longer than the bound (`Takes.length_le`).
-/

namespace Resumable
variable {B B' W C Λ σ : Type} {Ret : C → Type} {ε α β : Type}

/-- What calls cost, and how their replies move the mode. -/
structure Tariff (B C : Type) (Ret : C → Type) where
  price : B → C → Nat
  allowed : B → C → Prop
  moves : (c : C) → B → Ret c → B → Prop

namespace Tariff

/-- The account of one program: its funds, and its mode. -/
def accounts (t : Tariff B C Ret) : Automaton (Nat × B) C Ret where
  moves c a r a' := a'.1 = a.1 - t.price a.2 c ∧ t.moves c a.2 r a'.2
  owed a c := t.allowed a.2 c ∧ t.price a.2 c ≤ a.1

/-- The program never spends more than `n`. -/
abbrev Affords (t : Tariff B C Ret) (p : Prog C Ret ε α) (n : Nat) (b : B) : Prop :=
  t.accounts.Accepts p (fun _ _ => True) (fun _ _ => True) (n, b)

variable {t : Tariff B C Ret} {p : Prog C Ret ε α} {c : C} {n m : Nat} {b : B}

/-- **One call**, and the rest of the program with what is left. -/
theorem accounts_perform {k : Ret c → Prog C Ret ε α} {Q : α → Nat × B → Prop}
    {E : ε → Nat × B → Prop} (hallowed : t.allowed b c) (hprice : t.price b c ≤ n)
    (hk : ∀ r b', t.moves c b r b' → t.accounts.Accepts (k r) Q E (n - t.price b c, b')) :
    t.accounts.Accepts (Prog.perform c >>= k) Q E (n, b) := by
  refine Automaton.accepts_perform ⟨hallowed, hprice⟩ ?_
  rintro r ⟨_, b'⟩ ⟨rfl, hr⟩
  exact hk r b' hr

/-- What is left to run after a call. -/
theorem Affords.reply {k : Ret c → Prog C Ret ε α} (h : t.Affords (.call c k) n b) {r : Ret c}
    {b' : B} (hr : t.moves c b r b') :
    t.price b c ≤ n ∧ t.Affords (k r) (n - t.price b c) b' :=
  ⟨h.1.2, h.2 r _ ⟨rfl, hr⟩⟩

/-- **More funds**, lower prices, more calls and fewer replies.  `R` relates the modes. -/
theorem Affords.mono {t' : Tariff B' C Ret} (R : B → B' → Prop)
    (hprice : ∀ b b' c, R b b' → t'.price b' c ≤ t.price b c)
    (hallowed : ∀ b b' c, R b b' → t.allowed b c → t'.allowed b' c)
    (hmoves : ∀ b b' c r b₁', R b b' → t.allowed b c → t'.moves c b' r b₁' →
      ∃ b₁, t.moves c b r b₁ ∧ R b₁ b₁')
    {b' : B'} (h : t.Affords p n b) (hn : n ≤ m) (hb : R b b') : t'.Affords p m b' := by
  induction p generalizing n m b b' with
  | ret => trivial
  | raise => trivial
  | call c k ih =>
    have hcalls : t.allowed b c := h.1.1
    refine ⟨⟨hallowed b b' c hb hcalls, (hprice b b' c hb).trans (Nat.le_trans h.1.2 hn)⟩, ?_⟩
    rintro r ⟨_, b₁'⟩ ⟨rfl, hr⟩
    obtain ⟨b₁, hr₁, hb₁⟩ := hmoves b b' c r b₁' hb hcalls hr
    exact ih r (h.reply hr₁).2 (tsub_le_tsub hn (hprice b b' c hb)) hb₁

/-! ### One price for each call -/

/-- A fixed price for each call, whatever its reply. -/
def flat (price : C → Nat) : Tariff Unit C Ret where
  price _ := price
  allowed _ _ := True
  moves _ _ _ _ := True

section Flat
variable {price : C → Nat}

theorem Affords.of_le {p : Prog C Ret ε α} (h : (flat price).Affords p n ()) (hn : n ≤ m) :
    (flat price).Affords p m () :=
  h.mono (fun _ _ => True) (fun _ _ _ _ => Nat.le_refl _) (fun _ _ _ _ _ => trivial)
    (fun _ _ _ _ _ _ _ _ => ⟨(), trivial, trivial⟩) hn trivial

theorem affords_perform (c : C) :
    (flat price).Affords (Prog.perform c : Prog C Ret ε (Ret c)) (price c) () :=
  ⟨⟨trivial, Nat.le_refl _⟩, fun _ _ _ => trivial⟩

/-- Two programs, one after the other. -/
theorem Affords.bind {p : Prog C Ret ε α} {f : α → Prog C Ret ε β}
    (h : (flat price).Affords p n ()) (hf : ∀ a, (flat price).Affords (f a) m ()) :
    (flat price).Affords (p >>= f) (n + m) () := by
  induction p generalizing n with
  | ret a => exact (hf a).of_le (Nat.le_add_left m n)
  | raise e => trivial
  | call c k ih =>
    have hprice : price c ≤ n := h.1.2
    refine ⟨⟨trivial, Nat.le_trans hprice (Nat.le_add_right n m)⟩, ?_⟩
    rintro r ⟨_, b⟩ ⟨rfl, -⟩
    exact (ih r (h.reply trivial).2).of_le (by simp only [flat]; omega)

/-- A program and the handler of its exceptions. -/
theorem Affords.tryCatch {p : Prog C Ret ε α} {f : ε → Prog C Ret ε α}
    (h : (flat price).Affords p n ()) (hf : ∀ e, (flat price).Affords (f e) m ()) :
    (flat price).Affords (MonadExcept.tryCatch p f) (n + m) () := by
  induction p generalizing n with
  | ret a => trivial
  | raise e => exact (hf e).of_le (Nat.le_add_left m n)
  | call c k ih =>
    have hprice : price c ≤ n := h.1.2
    refine ⟨⟨trivial, Nat.le_trans hprice (Nat.le_add_right n m)⟩, ?_⟩
    rintro r ⟨_, b⟩ ⟨rfl, -⟩
    exact (ih r (h.reply trivial).2).of_le (by simp only [flat]; omega)

end Flat
end Tariff

/-! ## Pools -/

namespace Pool
variable {t : Tariff B C Ret} {mode : W → Nat → B} {load : W → Nat}

/-- The load of the world and what the running programs can still cost come to at most
`n`.  Each running program has funds. -/
def Within (t : Tariff B C Ret) (mode : W → Nat → B) (load : W → Nat) (n : Nat)
    (s : Pool W C Ret ε α) : Prop :=
  ∃ (is : Finset Nat) (funds : Nat → Nat),
    (∀ i c k, s.progs i = some (.call c k) →
      i ∈ is ∧ t.Affords (.call c k) (funds i) (mode s.world i)) ∧
    load s.world + ∑ i ∈ is, funds i ≤ n

/-- New funds for one program. -/
theorem sum_update_le (is : Finset Nat) (funds : Nat → Nat) (i b : Nat) :
    ∑ j ∈ insert i is, Function.update funds i b j ≤ b + ∑ j ∈ is, funds j := by
  rw [← Finset.insert_erase (Finset.mem_insert_self i is), Finset.sum_insert (by simp),
    Function.update_self]
  refine Nat.add_le_add_left ?_ b
  have hsame : ∑ j ∈ (insert i is).erase i, Function.update funds i b j =
      ∑ j ∈ (insert i is).erase i, funds j :=
    Finset.sum_congr rfl fun j hj => Function.update_of_ne (Finset.ne_of_mem_erase hj) _ _
  rw [hsame]
  refine Finset.sum_le_sum_of_subset fun j hj => ?_
  obtain ⟨hji, hj⟩ := Finset.mem_erase.mp hj
  exact (Finset.mem_insert.mp hj).resolve_left hji

/-- What one program can cost after some of its funds have been spent. -/
theorem sum_update_add {is : Finset Nat} (funds : Nat → Nat) {i : Nat} (hi : i ∈ is) (b : Nat) :
    ∑ j ∈ is, Function.update funds i b j + funds i = b + ∑ j ∈ is, funds j := by
  have hsame : ∑ j ∈ is.erase i, Function.update funds i b j = ∑ j ∈ is.erase i, funds j :=
    Finset.sum_congr rfl fun j hj => Function.update_of_ne (Finset.ne_of_mem_erase hj) _ _
  rw [← Finset.add_sum_erase is _ hi, ← Finset.add_sum_erase is funds hi, Function.update_self, hsame]
  omega

namespace Within
variable {s : Pool W C Ret ε α} {n : Nat} {w : W}

/-- The load gets lighter. -/
theorem move (h : Within t mode load n s) (hmode : ∀ i, mode w i = mode s.world i)
    (hw : load w < load s.world) : ∃ m < n, Within t mode load m (s.move w) := by
  obtain ⟨is, funds, hfunds, hn⟩ := h
  refine ⟨load w + ∑ i ∈ is, funds i, by omega, is, funds, fun i c k hi => ?_, Nat.le_refl _⟩
  obtain ⟨hmem, hafford⟩ := hfunds i c k hi
  exact ⟨hmem, (hmode i).symm ▸ hafford⟩

/-- Program `i` makes a call whose price pays for the load it adds. -/
theorem step (h : Within t mode load n s) {i : Nat} {c : C} {k : Ret c → Prog C Ret ε α}
    (hp : s.progs i = some (.call c k)) {r : Ret c}
    (hr : t.moves c (mode s.world i) r (mode w i))
    (hmode : ∀ j, j ≠ i → mode w j = mode s.world j)
    (hw : load w < load s.world + t.price (mode s.world i) c) :
    ∃ m < n, Within t mode load m ((s.move w).spawn i (k r)) := by
  obtain ⟨is, funds, hfunds, hn⟩ := h
  obtain ⟨hi, hafford⟩ := hfunds i c k hp
  obtain ⟨hprice, hk⟩ := hafford.reply hr
  have hsum := sum_update_add funds hi (funds i - t.price (mode s.world i) c)
  refine ⟨load w + ∑ j ∈ is, Function.update funds i (funds i - t.price (mode s.world i) c) j,
    by omega, is, _, ?_, Nat.le_refl _⟩
  intro j c' k' hj
  by_cases hji : j = i
  · subst j
    rw [spawn_progs_self] at hj
    rw [← Option.some.inj hj, Function.update_self]
    exact ⟨hi, hk⟩
  · rw [spawn_progs_of_ne _ _ _ hji] at hj
    rw [Function.update_of_ne hji, spawn_world, move_world, hmode j hji]
    exact hfunds j c' k' hj

/-- A program starts whose funds come out of the load. -/
theorem spawn (h : Within t mode load n s) {i : Nat} {p : Prog C Ret ε α} {b : Nat}
    (hp : t.Affords p b (mode w i)) (hmode : ∀ j, j ≠ i → mode w j = mode s.world j)
    (hw : load w + b < load s.world) :
    ∃ m < n, Within t mode load m ((s.move w).spawn i p) := by
  obtain ⟨is, funds, hfunds, hn⟩ := h
  have hsum := sum_update_le is funds i b
  refine ⟨load w + ∑ j ∈ insert i is, Function.update funds i b j, by omega, insert i is, _, ?_,
    Nat.le_refl _⟩
  intro j c k hj
  by_cases hji : j = i
  · subst j
    rw [spawn_progs_self] at hj
    obtain rfl := Option.some.inj hj
    rw [Function.update_self]
    exact ⟨Finset.mem_insert_self _ _, hp⟩
  · rw [spawn_progs_of_ne _ _ _ hji] at hj
    rw [Function.update_of_ne hji, spawn_world, move_world, hmode j hji]
    obtain ⟨hmem, hcost⟩ := hfunds j c k hj
    exact ⟨Finset.mem_insert_of_mem hmem, hcost⟩

end Within
end Pool

/-! ## Runs and their length -/

/-- The labels `ls` lead from `s` to `s'` by steps that `ok` admits. -/
inductive Takes (step : σ → Λ → Option σ) (ok : σ → Λ → Prop) : σ → List Λ → σ → Prop where
  | nil {s : σ} : Takes step ok s [] s
  | cons {s s' s'' : σ} {l : Λ} {ls : List Λ} :
      ok s l → step s l = some s' → Takes step ok s' ls s'' → Takes step ok s (l :: ls) s''

namespace Takes
variable {step : σ → Λ → Option σ} {ok : σ → Λ → Prop} {s s' : σ} {ls : List Λ}

theorem reaches (h : Takes step ok s ls s') : Reaches step ok s s' := by
  induction h with
  | nil => exact .start
  | cons hok hs _ ih => exact (Reaches.start.next hok hs).trans ih

/-- **A bound that every step lowers** bounds the length of a run. -/
theorem length_le {I : Nat → σ → Prop}
    (hstep : ∀ n s l s', I n s → ok s l → step s l = some s' → ∃ m < n, I m s') {n : Nat}
    (hI : I n s) (h : Takes step ok s ls s') : ls.length ≤ n := by
  induction h generalizing n with
  | nil => exact Nat.zero_le n
  | cons hok hs _ ih =>
    obtain ⟨m, hm, hI'⟩ := hstep n _ _ _ hI hok hs
    exact (Nat.succ_le_succ (ih hI')).trans hm

/-- **Where every run is bounded, one cannot be continued.** -/
theorem exists_stuck {n : Nat} (hbound : ∀ ls s', Takes step ok s ls s' → ls.length ≤ n) :
    ∃ ls s', Takes step ok s ls s' ∧ ∀ l s'', ok s' l → step s' l ≠ some s'' := by
  induction n generalizing s with
  | zero =>
    refine ⟨[], s, .nil, fun l s'' hok hs => ?_⟩
    exact absurd (hbound [l] s'' (.cons hok hs .nil)) (by simp)
  | succ n ih =>
    by_cases hstuck : ∀ l s'', ok s l → step s l ≠ some s''
    · exact ⟨[], s, .nil, hstuck⟩
    push Not at hstuck
    obtain ⟨l, s₁, hok, hs⟩ := hstuck
    obtain ⟨ls, s', hls, hlast⟩ := ih (s := s₁) fun ls s' h =>
      Nat.le_of_succ_le_succ (hbound (l :: ls) s' (.cons hok hs h))
    exact ⟨l :: ls, s', .cons hok hs hls, hlast⟩

end Takes
end Resumable
