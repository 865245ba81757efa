import DigitalCip.Resumable.Automaton

/-!
# Programs that are cut off and start again

`Replays start exec w₀ p w` says that in a sequence of executions from `w₀`, each of
them a program that `start` admits and each cut off anywhere, or run to its end,
the current one has reached `w` and has `p` left to run.  The rule for such a
sequence (`Replays.accepts`): if every program accepts every world in which the
invariant holds, and owes the invariant at each call and at its end, then the
invariant holds in every world of the sequence, and what is left of the current
program accepts it.
-/

namespace Resumable
variable {W C : Type} {Ret : C → Type} {ε α : Type}

/-- Where a sequence of executions that are cut off can be. -/
inductive Replays (start : Prog C Ret ε α → Prop) (exec : (c : C) → W → Ret c → W → Prop) (w₀ : W) :
    Prog C Ret ε α → W → Prop where
  | start {p : Prog C Ret ε α} : start p → Replays start exec w₀ p w₀
  | call {c : C} {k : Ret c → Prog C Ret ε α} {r : Ret c} {w w' : W} :
      Replays start exec w₀ (.call c k) w → exec c w r w' → Replays start exec w₀ (k r) w'
  | again {p p' : Prog C Ret ε α} {w : W} :
      Replays start exec w₀ p w → start p' → Replays start exec w₀ p' w

namespace Replays
variable {start : Prog C Ret ε α → Prop} {M : Automaton W C Ret} {w₀ : W} {I : W → Prop}
  {Q : α → W → Prop} {E : ε → W → Prop}

/-- What a program that accepts its world is owed at, or ends in. -/
theorem invariant_of_accepts {p : Prog C Ret ε α} {w : W} (h : M.Accepts p Q E w)
    (howed : ∀ w c, M.owed w c → I w) (hQ : ∀ x w, Q x w → I w) (hE : ∀ e w, E e w → I w) : I w :=
  h.of_passes .here howed hQ hE

/-- **The rule of replay.** -/
theorem accepts {p : Prog C Ret ε α} {w : W} (h : Replays start M.moves w₀ p w) (h₀ : I w₀)
    (hstart : ∀ p w, start p → I w → M.Accepts p Q E w) (howed : ∀ w c, M.owed w c → I w)
    (hQ : ∀ x w, Q x w → I w) (hE : ∀ e w, E e w → I w) : M.Accepts p Q E w := by
  induction h with
  | start hp => exact hstart _ _ hp h₀
  | call _ hx ih => exact ih.2 _ _ hx
  | again _ hp ih => exact hstart _ _ hp (invariant_of_accepts ih howed hQ hE)

/-- The invariant holds in every world of the sequence. -/
theorem invariant {p : Prog C Ret ε α} {w : W} (h : Replays start M.moves w₀ p w) (h₀ : I w₀)
    (hstart : ∀ p w, start p → I w → M.Accepts p Q E w) (howed : ∀ w c, M.owed w c → I w)
    (hQ : ∀ x w, Q x w → I w) (hE : ∀ e w, E e w → I w) : I w :=
  invariant_of_accepts (h.accepts h₀ hstart howed hQ hE) howed hQ hE

/-- The current program goes on for some calls. -/
theorem feed {Ans : Type} {ex : (c : C) → Ans → W → Option (Ret c × W)}
    {R : (c : C) → W → Ret c → W → Prop} {as : List Ans} {p p' : Prog C Ret ε α} {w w' : W}
    (h : Replays start R w₀ p w) (hex : ∀ c a w r w', ex c a w = some (r, w') → R c w r w')
    (hfeed : Resumable.feed ex as p w = some (p', w')) : Replays start R w₀ p' w' := by
  induction as generalizing p w with
  | nil =>
    obtain ⟨rfl, rfl⟩ := Prod.mk.inj (Option.some.inj hfeed)
    exact h
  | cons a as ih =>
    cases p with
    | ret | raise => cases hfeed
    | call c k =>
      obtain ⟨⟨r, w₁⟩, hx, hk⟩ := Option.bind_eq_some_iff.mp hfeed
      exact ih (h.call (hex _ _ _ _ _ hx)) hk

end Replays
end Resumable
