import DigitalCip.Resumable.Interference

/-!
# The calls a program can make

`p.Calls P` says that every call `p` can ever make satisfies `P`, whatever the
replies.  It is a fact about the text of a program; `wp_of_calls` turns it into a
fact about every interleaving, for what no such call can change.  `p.Closes P`
says that the calls that satisfy `P` are the last ones `p` makes.  `p.Returns Q` says the like of
what `p` returns.
-/

namespace Resumable
variable {W C : Type} {Ret : C → Type} {ε α β : Type}

namespace Prog

/-- Every call the program can make satisfies `P`. -/
def Calls (P : C → Prop) : Prog C Ret ε α → Prop
  | .ret _ => True
  | .raise _ => True
  | .call c k => P c ∧ ∀ r, (k r).Calls P

namespace Calls
variable {P : C → Prop}

@[simp] theorem ret (a : α) : (.ret a : Prog C Ret ε α).Calls P := trivial
@[simp] theorem pure (a : α) : (Pure.pure a : Prog C Ret ε α).Calls P := trivial
@[simp] theorem raise (e : ε) : (.raise e : Prog C Ret ε α).Calls P := trivial
@[simp] theorem throw (e : ε) : (MonadExcept.throw e : Prog C Ret ε α).Calls P := trivial

theorem perform {c : C} (h : P c) : (Prog.perform c : Prog C Ret ε (Ret c)).Calls P :=
  ⟨h, fun _ => trivial⟩

/-- What every call satisfies. -/
theorem of_forall (h : ∀ c, P c) (p : Prog C Ret ε α) : p.Calls P := by
  induction p with
  | ret a => trivial
  | raise e => trivial
  | call c k ih => exact ⟨h c, ih⟩

theorem bind {p : Prog C Ret ε α} {f : α → Prog C Ret ε β} (h : p.Calls P)
    (hf : ∀ a, (f a).Calls P) : (p >>= f).Calls P := by
  induction p with
  | ret a => exact hf a
  | raise e => trivial
  | call c k ih => exact ⟨h.1, fun r => ih r (h.2 r)⟩

theorem tryCatch {p : Prog C Ret ε α} {f : ε → Prog C Ret ε α} (h : p.Calls P)
    (hf : ∀ e, (f e).Calls P) : (MonadExcept.tryCatch p f).Calls P := by
  induction p with
  | ret a => trivial
  | raise e => exact hf e
  | call c k ih => exact ⟨h.1, fun r => ih r (h.2 r)⟩

theorem mono {P' : C → Prop} {p : Prog C Ret ε α} (h : p.Calls P) (hP : ∀ c, P c → P' c) :
    p.Calls P' := by
  induction p with
  | ret a => trivial
  | raise e => trivial
  | call c k ih => exact ⟨hP c h.1, fun r => ih r (h.2 r)⟩

end Calls

/-- Once the program has made a call that satisfies `P`, it makes no others. -/
def Closes (P : C → Prop) : Prog C Ret ε α → Prop
  | .ret _ => True
  | .raise _ => True
  | .call c k => (P c → ∀ r, (k r).Calls P) ∧ ∀ r, (k r).Closes P

namespace Closes
variable {P : C → Prop}

theorem of_calls {p : Prog C Ret ε α} (h : p.Calls P) : p.Closes P := by
  induction p with
  | ret a => trivial
  | raise e => trivial
  | call c k ih => exact ⟨fun _ => h.2, fun r => ih r (h.2 r)⟩

theorem of_calls_not {p : Prog C Ret ε α} (h : p.Calls fun c => ¬ P c) : p.Closes P := by
  induction p with
  | ret a => trivial
  | raise e => trivial
  | call c k ih => exact ⟨fun hc => absurd hc h.1, fun r => ih r (h.2 r)⟩

/-- The first program makes no such call. -/
theorem bind {p : Prog C Ret ε α} {f : α → Prog C Ret ε β} (h : p.Calls fun c => ¬ P c)
    (hf : ∀ a, (f a).Closes P) : (p >>= f).Closes P := by
  induction p with
  | ret a => exact hf a
  | raise e => trivial
  | call c k ih => exact ⟨fun hc => absurd hc h.1, fun r => ih r (h.2 r)⟩

/-- The handler makes only such calls. -/
theorem tryCatch {p : Prog C Ret ε α} {f : ε → Prog C Ret ε α} (h : p.Closes P)
    (hf : ∀ e, (f e).Calls P) : (MonadExcept.tryCatch p f).Closes P := by
  induction p with
  | ret a => trivial
  | raise e => exact .of_calls (hf e)
  | call c k ih =>
    exact ⟨fun hc r => Calls.tryCatch (h.1 hc r) hf, fun r => ih r (h.2 r)⟩

end Closes

/-- Whatever the replies, what the program returns satisfies `Q`. -/
def Returns (Q : α → Prop) : Prog C Ret ε α → Prop
  | .ret a => Q a
  | .raise _ => True
  | .call _ k => ∀ r, (k r).Returns Q

namespace Returns
variable {Q : α → Prop} {P : C → Prop}

@[simp] theorem throw (e : ε) : (MonadExcept.throw e : Prog C Ret ε α).Returns Q := trivial

theorem bind {p : Prog C Ret ε β} {f : β → Prog C Ret ε α} (hf : ∀ b, (f b).Returns Q) :
    (p >>= f).Returns Q := by
  induction p with
  | ret b => exact hf b
  | raise e => trivial
  | call c k ih => exact fun r => ih r

theorem tryCatch {p : Prog C Ret ε α} {f : ε → Prog C Ret ε α} (h : p.Returns Q)
    (hf : ∀ e, (f e).Returns Q) : (MonadExcept.tryCatch p f).Returns Q := by
  induction p with
  | ret a => exact h
  | raise e => exact hf e
  | call c k ih => exact fun r => ih r (h r)

/-- The calls of a program that goes on with what another one returned. -/
theorem calls_bind {p : Prog C Ret ε α} {f : α → Prog C Ret ε β} (hQ : p.Returns Q)
    (h : p.Calls P) (hf : ∀ a, Q a → (f a).Calls P) : (p >>= f).Calls P := by
  induction p with
  | ret a => exact hf a hQ
  | raise e => trivial
  | call c k ih => exact ⟨h.1, fun r => ih r (hQ r) (h.2 r)⟩

end Returns
end Prog

/-- **What no call of a program changes holds at its end.** -/
theorem wp_of_calls {R : Rules W C Ret} {i : Nat} {P : C → Prop} {p : Prog C Ret ε α}
    {K : W → Prop} {w : W} (hp : p.Calls P) (hw : K w)
    (hstable : ∀ c w w₁, P c → K w → R.rely i c w w₁ → R.inv w₁ → K w₁)
    (hstep : ∀ c w r w₂, P c → K w → R.inv w → R.exec i c w r w₂ →
      R.inv w₂ ∧ R.guar i c w r w₂ ∧ K w₂) :
    wp R i p (fun _ => K) (fun _ => K) w := by
  induction p generalizing w with
  | ret a => exact hw
  | raise e => exact hw
  | call c k ih =>
    refine wp_call K hw (fun w w₁ h => hstable c w w₁ hp.1 h) fun w r w₂ h hi hx => ?_
    obtain ⟨hi₂, hg, h₂⟩ := hstep c w r w₂ hp.1 h hi hx
    exact ⟨hi₂, hg, ih r (hp.2 r) h₂⟩

end Resumable
