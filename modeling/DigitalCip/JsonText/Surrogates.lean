import DigitalCip.JsonText.Strings
import Mathlib.Data.List.Chain

/-!
# Lone surrogates

A text can hold a surrogate that has no partner.  It is always escaped, and no two of them
that would go together are ever read one after the other (`joined_of_scanString`).  A writer
that escapes them again, and spells everything else, therefore loses nothing
(`scanString_joined`).
-/

namespace JsonText

/-- What a token can stand for: a character is no surrogate. -/
def Token.Valid : Token → Prop
  | .point n => IsScalar n
  | .escaped n => n < 0x10000

/-- No surrogate goes with the next code point. -/
def Unpaired (s : Str) : Prop := s.IsChain fun m n => isHigh m = true → isLow n = false

/-- A string as it is read. -/
structure Joined (s : Str) : Prop where
  points : ∀ n ∈ s, n < 0x110000
  unpaired : Unpaired s

section Points
variable {n h l : Nat} {s : Str}

theorem not_high_of_scalar (h : IsScalar n) : isHigh n = false := by
  have hn := isScalar_iff.mp h
  simp only [isHigh, Bool.and_eq_false_iff, decide_eq_false_iff_not]
  omega

theorem not_low_of_scalar (h : IsScalar n) : isLow n = false := by
  have hn := isScalar_iff.mp h
  simp only [isLow, Bool.and_eq_false_iff, decide_eq_false_iff_not]
  omega

theorem scalar_combine (hh : isHigh h = true) (hl : isLow l = true) : IsScalar (combine h l) := by
  simp only [isHigh, isLow, Bool.and_eq_true, decide_eq_true_eq] at hh hl
  refine Or.inr ⟨?_, ?_⟩ <;> (unfold combine; omega)

theorem Unpaired.cons (hs : Unpaired s) (h : ∀ m ∈ s.head?, isHigh n = true → isLow m = false) :
    Unpaired (n :: s) :=
  List.isChain_cons.mpr ⟨h, hs⟩

/-- A string without surrogates. -/
theorem joined_of_scalar (hs : ∀ n ∈ s, IsScalar n) : Joined s := by
  induction s with
  | nil => exact ⟨fun n hn => absurd hn List.not_mem_nil, List.IsChain.nil⟩
  | cons n s ih =>
    obtain ⟨hn, hs⟩ := List.forall_mem_cons.mp hs
    have hpoint := isScalar_iff.mp hn
    refine ⟨List.forall_mem_cons.mpr ⟨by omega, (ih hs).points⟩, (ih hs).unpaired.cons ?_⟩
    intro m _ hhigh
    rw [not_high_of_scalar hn] at hhigh
    cases hhigh

end Points

/-! ## What is read -/

section Read
variable {n : Nat} {t : Token} {ts : List Token}

theorem hexValue_lt {c : Char} (hn : hexValue c = some n) : n < 16 := by
  have hle : ∀ {d : Char}, c ≤ d → c.toNat ≤ d.toNat := fun h => Char.le_def.mp h
  unfold hexValue at hn
  split_ifs at hn with hdigit hsmall hlarge <;> obtain rfl := Option.some.inj hn
  · have h9 : c.toNat ≤ 57 := hle hdigit.2
    omega
  · have hf : c.toNat ≤ 102 := hle hsmall.2
    omega
  · have hf : c.toNat ≤ 70 := hle hlarge.2
    omega

theorem hex4Value_lt {a b c d : Char} (hn : hex4Value a b c d = some n) : n < 0x10000 := by
  simp only [hex4Value, Option.bind_eq_bind, Option.bind_eq_some_iff, Option.pure_def] at hn
  obtain ⟨a', ha, b', hb, c', hc, d', hd, hn⟩ := hn
  have ha := hexValue_lt ha
  have hb := hexValue_lt hb
  have hc := hexValue_lt hc
  have hd := hexValue_lt hd
  obtain rfl := Option.some.inj hn
  omega

theorem scalar_of_shortEscape {c : Char} (hn : shortEscape c = some n) : IsScalar n := by
  unfold shortEscape at hn
  split at hn
  case h_9 => cases hn
  all_goals
    cases Option.some.inj hn
    exact Or.inl (by decide)

/-- One more token. -/
theorem valid_cons {r : Option (List Token × List Char)} {rest : List Char} (ht : t.Valid)
    (hr : ∀ ts rest, r = some (ts, rest) → ∀ t ∈ ts, t.Valid)
    (h : (r.bind fun r => some (t :: r.1, r.2)) = some (ts, rest)) : ∀ u ∈ ts, u.Valid := by
  obtain ⟨⟨ts', rest'⟩, hr', he⟩ := Option.bind_eq_some_iff.mp h
  cases Option.some.inj he
  exact List.forall_mem_cons.mpr ⟨ht, hr _ _ hr'⟩

theorem valid_of_scanString {cs rest : List Char} (h : scanString cs = some (ts, rest)) :
    ∀ t ∈ ts, t.Valid := by
  induction cs using scanString.induct generalizing ts rest with
  | case1 => cases h
  | case2 cs =>
    rw [scanString] at h
    cases h
    exact fun t ht => absurd ht List.not_mem_nil
  | case3 a b c d cs ih =>
    rw [scanString] at h
    obtain ⟨n, hn, h⟩ := Option.bind_eq_some_iff.mp h
    have ht : (Token.escaped n).Valid := hex4Value_lt hn
    exact valid_cons ht (fun _ _ => ih) h
  | case4 c cs _ ih =>
    rw [scanString] at h
    · obtain ⟨n, hn, h⟩ := Option.bind_eq_some_iff.mp h
      have ht : (Token.point n).Valid := scalar_of_shortEscape hn
      exact valid_cons ht (fun _ _ => ih) h
    · assumption
  | case5 c cs _ _ _ hc =>
    rw [scanString, if_pos hc] at h
    · cases h
    all_goals assumption
  | case6 c cs _ _ _ hc ih =>
    rw [scanString, if_neg hc] at h
    · have ht : (Token.point c.toNat).Valid := c.valid
      exact valid_cons ht (fun _ _ => ih) h
    all_goals assumption

theorem pair_valid (ht : t.Valid) (hts : ∀ u ∈ ts, u.Valid) (hun : Unpaired (ts.map Token.code)) :
    (∀ u ∈ pair t ts, u.Valid) ∧ Unpaired ((pair t ts).map Token.code) := by
  match t, ts with
  | .point n, ts =>
    refine ⟨List.forall_mem_cons.mpr ⟨ht, hts⟩, hun.cons fun m _ hhigh => ?_⟩
    cases (not_high_of_scalar ht).symm.trans hhigh
  | .escaped h, [] =>
    exact ⟨List.forall_mem_cons.mpr ⟨ht, hts⟩, List.isChain_singleton _⟩
  | .escaped h, .point l :: ts =>
    refine ⟨List.forall_mem_cons.mpr ⟨ht, hts⟩, hun.cons fun m hm _ => ?_⟩
    cases Option.some.inj hm
    exact not_low_of_scalar (hts _ (List.mem_cons_self ..))
  | .escaped h, .escaped l :: ts =>
    rw [pair]
    split
    · rename_i hpair
      obtain ⟨hh, hl⟩ := Bool.and_eq_true_iff.mp hpair
      have hscalar := scalar_combine hh hl
      refine ⟨List.forall_mem_cons.mpr ⟨hscalar, (List.forall_mem_cons.mp hts).2⟩, ?_⟩
      refine Unpaired.cons (List.isChain_cons.mp hun).2 fun m _ hhigh => ?_
      rw [Token.code, not_high_of_scalar hscalar] at hhigh
      cases hhigh
    · rename_i hpair
      refine ⟨List.forall_mem_cons.mpr ⟨ht, hts⟩, hun.cons fun m hm hhigh => ?_⟩
      cases Option.some.inj hm
      exact Bool.eq_false_iff.mpr fun hl => hpair (Bool.and_eq_true_iff.mpr ⟨hhigh, hl⟩)

theorem Token.Valid.code_lt (h : t.Valid) : t.code < 0x110000 := by
  cases t with
  | point n =>
    have hn := isScalar_iff.mp h
    show n < 0x110000
    omega
  | escaped n =>
    have hn : n < 0x10000 := h
    show n < 0x110000
    omega

/-- **What is read is joined.** -/
theorem joined_of_scanString {cs rest : List Char} (h : scanString cs = some (ts, rest)) :
    Joined (join ts) := by
  have hfold : (∀ u ∈ ts.foldr pair [], u.Valid) ∧
      Unpaired ((ts.foldr pair []).map Token.code) := by
    have hvalid := valid_of_scanString h
    clear h
    induction ts with
    | nil => exact ⟨fun u hu => absurd hu List.not_mem_nil, List.IsChain.nil⟩
    | cons t ts ih =>
      obtain ⟨ht, hts⟩ := List.forall_mem_cons.mp hvalid
      obtain ⟨hv, hun⟩ := ih hts
      exact pair_valid ht hv hun
  refine ⟨fun n hn => ?_, hfold.2⟩
  obtain ⟨t, ht, rfl⟩ := List.mem_map.mp hn
  exact (hfold.1 t ht).code_lt

end Read

/-! ## Reading what was written -/

section Write
variable {n : Nat} {s : Str} {ts : List Token}

/-- A high surrogate stands alone in front of what is no low one. -/
theorem join_high (h : ∀ m ∈ (join ts).head?, isLow m = false) :
    join (.escaped n :: ts) = n :: join ts := by
  unfold join at h ⊢
  rw [List.foldr_cons]
  generalize ts.foldr pair [] = us at h ⊢
  match us with
  | [] => rfl
  | .point _ :: _ => rfl
  | .escaped l :: us =>
    have hl : isLow l = false := h l rfl
    have hpair : pair (.escaped n) (.escaped l :: us) = .escaped n :: .escaped l :: us :=
      if_neg (by rw [hl, Bool.and_false]; exact Bool.false_ne_true)
    rw [hpair]
    rfl

/-- **A joined string is read as it was written**, lone surrogates included. -/
theorem scanString_joined {escape : Nat → List Char}
    (hscalar : ∀ n, IsScalar n → Spells (escape n) n)
    (halone : ∀ n, 0xD800 ≤ n → n ≤ 0xDFFF → escape n = '\\' :: 'u' :: hex4 n) (hs : Joined s)
    (rest : List Char) :
    ∃ ts, scanString (s.flatMap escape ++ '"' :: rest) = some (ts, rest) ∧ join ts = s := by
  induction s with
  | nil => exact ⟨[], rfl, rfl⟩
  | cons n s ih =>
    obtain ⟨hn, hpoints⟩ := List.forall_mem_cons.mp hs.points
    obtain ⟨hnext, hunpaired⟩ := List.isChain_cons.mp hs.unpaired
    obtain ⟨ts, hscan, hjoin⟩ := ih ⟨hpoints, hunpaired⟩
    rw [List.flatMap_cons, List.append_assoc]
    by_cases hlone : 0xD800 ≤ n ∧ n ≤ 0xDFFF
    · refine ⟨.escaped n :: ts, ?_, ?_⟩
      · rw [halone n hlone.1 hlone.2, scanString_hex4 (by omega), hscan]
        rfl
      · cases hhigh : isHigh n with
        | false => rw [join_escaped ts hhigh, hjoin]
        | true =>
          rw [join_high (by rw [hjoin]; exact fun m hm => hnext m hm hhigh), hjoin]
    · obtain ⟨us, hus, husj⟩ := hscalar n (isScalar_iff.mpr (by omega))
      refine ⟨us ++ ts, ?_, (husj ts).trans (congrArg _ hjoin)⟩
      rw [hus, hscan]
      rfl

end Write
end JsonText
