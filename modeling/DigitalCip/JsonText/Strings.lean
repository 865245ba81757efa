import Mathlib.Data.List.Basic

/-!
# JSON strings

A string is its code points.  In a text it stands between quotation marks, and a character
of it stands for itself or is escaped, by a short escape or by four hexadecimal digits.  A
code point above the basic plane is escaped as two surrogates; a surrogate that has no
partner is a code point of its own.

Writers differ in what they escape.  What they have in common is that what they write for a
code point is read as that code point, whatever comes after it (`Spells`).
-/

namespace JsonText

/-- The code points of a string, lone surrogates among them. -/
abbrev Str := List Nat

/-- A code point that is no surrogate, as a character is. -/
def IsScalar (n : Nat) : Prop := n.isValidChar

theorem isScalar_iff {n : Nat} : IsScalar n ↔ n < 0xD800 ∨ 0xDFFF < n ∧ n < 0x110000 := Iff.rfl

def isHigh (n : Nat) : Bool := 0xD800 ≤ n && n ≤ 0xDBFF

def isLow (n : Nat) : Bool := 0xDC00 ≤ n && n ≤ 0xDFFF

/-- The code point of two surrogates. -/
def combine (h l : Nat) : Nat := 0x10000 + (h - 0xD800) * 0x400 + (l - 0xDC00)

/-- What stands for one code unit: a character or a short escape, or four digits. -/
inductive Token where
  | point (n : Nat)
  | escaped (n : Nat)
  deriving DecidableEq, Repr

def Token.code : Token → Nat
  | .point n | .escaped n => n

/-- An escaped high surrogate goes together with an escaped low one that follows. -/
def pair : Token → List Token → List Token
  | .escaped h, .escaped l :: ts =>
    if isHigh h && isLow l then .point (combine h l) :: ts else .escaped h :: .escaped l :: ts
  | t, ts => t :: ts

/-- The code points of the tokens. -/
def join (ts : List Token) : Str := (ts.foldr pair []).map Token.code

def hexValue (c : Char) : Option Nat :=
  if '0' ≤ c ∧ c ≤ '9' then some (c.toNat - 48)
  else if 'a' ≤ c ∧ c ≤ 'f' then some (c.toNat - 87)
  else if 'A' ≤ c ∧ c ≤ 'F' then some (c.toNat - 55)
  else none

/-- The value of four digits. -/
def hex4Value (a b c d : Char) : Option Nat := do
  return ((← hexValue a) * 16 + (← hexValue b)) * 256 + (← hexValue c) * 16 + (← hexValue d)

/-- The character after a backslash. -/
def shortEscape : Char → Option Nat
  | '"' => some 0x22
  | '\\' => some 0x5C
  | '/' => some 0x2F
  | 'b' => some 0x08
  | 'f' => some 0x0C
  | 'n' => some 0x0A
  | 'r' => some 0x0D
  | 't' => some 0x09
  | _ => none

/-- The rest of a string after its opening quotation mark, and what follows it. -/
def scanString : List Char → Option (List Token × List Char)
  | [] => none
  | '"' :: rest => some ([], rest)
  | '\\' :: 'u' :: a :: b :: c :: d :: rest => do
    let n ← hex4Value a b c d
    let (ts, rest) ← scanString rest
    return (.escaped n :: ts, rest)
  | '\\' :: c :: rest => do
    let n ← shortEscape c
    let (ts, rest) ← scanString rest
    return (.point n :: ts, rest)
  | c :: rest =>
    if c = '\\' ∨ c.toNat < 0x20 then none
    else do
      let (ts, rest) ← scanString rest
      return (.point c.toNat :: ts, rest)

/-! ## Reading what was written -/

/-- The characters `cs` in front of a text add the code point `n` to what is read. -/
def Spells (cs : List Char) (n : Nat) : Prop :=
  ∃ ts, (∀ rest, scanString (cs ++ rest) = (scanString rest).map fun r => (ts ++ r.1, r.2)) ∧
    ∀ ts', join (ts ++ ts') = n :: join ts'

section Join
variable {n h l : Nat} (ts : List Token)

@[simp] theorem join_nil : join [] = [] := rfl

@[simp] theorem join_point : join (.point n :: ts) = n :: join ts := by
  unfold join
  rw [List.foldr_cons]
  rfl

/-- What is no high surrogate is not paired with what follows. -/
theorem pair_of_not_high (hn : isHigh n = false) : pair (.escaped n) ts = .escaped n :: ts := by
  match ts with
  | [] => rfl
  | .point _ :: _ => rfl
  | .escaped l :: us => exact if_neg (by rw [hn]; exact Bool.false_ne_true)

theorem join_escaped (hn : isHigh n = false) : join (.escaped n :: ts) = n :: join ts := by
  unfold join
  rw [List.foldr_cons, pair_of_not_high _ hn, List.map_cons, Token.code]

theorem join_pair (hh : isHigh h = true) (hl : isLow l = true) :
    join (.escaped h :: .escaped l :: ts) = combine h l :: join ts := by
  have hnot : isHigh l = false := by
    simp only [isLow, isHigh, Bool.and_eq_true, decide_eq_true_eq, Bool.and_eq_false_iff,
      decide_eq_false_iff_not] at hl ⊢
    omega
  have hpair : ∀ us, pair (.escaped h) (.escaped l :: us) = .point (combine h l) :: us :=
    fun us => if_pos (by rw [hh, hl]; rfl)
  unfold join
  rw [List.foldr_cons, List.foldr_cons, pair_of_not_high _ hnot, hpair, List.map_cons, Token.code]

end Join

section Spells
variable {n : Nat}

/-- A character that stands for itself. -/
theorem spells_char {c : Char} (hquote : c ≠ '"') (hslash : c ≠ '\\') (hc : 0x20 ≤ c.toNat) :
    Spells [c] c.toNat := by
  refine ⟨[.point c.toNat], fun rest => ?_, join_point⟩
  rw [List.singleton_append, scanString.eq_def]
  split
  · rename_i he
    cases he
  · rename_i he
    exact absurd (List.cons.inj he).1 hquote
  · rename_i he
    exact absurd (List.cons.inj he).1 hslash
  · rename_i he
    exact absurd (List.cons.inj he).1 hslash
  · rename_i he
    obtain ⟨rfl, rfl⟩ := List.cons.inj he
    rw [if_neg (by simp only [hslash, false_or]; omega)]
    cases scanString rest <;> rfl

/-- A short escape. -/
theorem spells_short {c : Char} (hc : c ≠ 'u') (hn : shortEscape c = some n) :
    Spells ['\\', c] n := by
  refine ⟨[.point n], fun rest => ?_, join_point⟩
  show scanString ('\\' :: c :: rest) = _
  rw [scanString.eq_def]
  split
  · rename_i he
    cases he
  · rename_i he
    cases (List.cons.inj he).1
  · rename_i he
    exact absurd (List.cons.inj (List.cons.inj he).2).1 hc
  · rename_i he
    obtain ⟨rfl, rfl⟩ := List.cons.inj (List.cons.inj he).2
    rw [hn]
    cases scanString rest <;> rfl
  · rename_i hno he
    obtain ⟨rfl, rfl⟩ := List.cons.inj he
    exact absurd rfl (hno c rest rfl)

/-- Four hexadecimal digits, small letters among them. -/
def hex4 (n : Nat) : List Char :=
  [(n / 4096 % 16).digitChar, (n / 256 % 16).digitChar, (n / 16 % 16).digitChar, (n % 16).digitChar]

theorem hexValue_digitChar : ∀ d < 16, hexValue d.digitChar = some d := by decide

theorem scanString_hex4 (hn : n < 0x10000) (rest : List Char) :
    scanString ('\\' :: 'u' :: hex4 n ++ rest) =
      (scanString rest).map fun r => (.escaped n :: r.1, r.2) := by
  have hvalue : hex4Value (n / 4096 % 16).digitChar (n / 256 % 16).digitChar (n / 16 % 16).digitChar
      (n % 16).digitChar = some n := by
    simp only [hex4Value, hexValue_digitChar _ (Nat.mod_lt _ (by decide : 0 < 16)),
      Option.bind_eq_bind, Option.bind_some, Option.pure_def]
    congr 1
    omega
  show scanString ('\\' :: 'u' :: _ :: _ :: _ :: _ :: rest) = _
  rw [scanString, hvalue]
  cases scanString rest <;> rfl

/-- An escaped code point of the basic plane. -/
theorem spells_hex4 (hn : n < 0xD800 ∨ 0xDFFF < n) (hlt : n < 0x10000) :
    Spells ('\\' :: 'u' :: hex4 n) n := by
  refine ⟨[.escaped n], scanString_hex4 hlt, fun ts => join_escaped ts ?_⟩
  simp only [isHigh, Bool.and_eq_false_iff, decide_eq_false_iff_not]
  omega

/-- The surrogates of a code point above the basic plane. -/
def surrogates (n : Nat) : List Char :=
  '\\' :: 'u' :: hex4 (0xD800 + (n - 0x10000) / 0x400) ++
    '\\' :: 'u' :: hex4 (0xDC00 + (n - 0x10000) % 0x400)

theorem spells_surrogates (hge : 0x10000 ≤ n) (hlt : n < 0x110000) : Spells (surrogates n) n := by
  refine ⟨[.escaped (0xD800 + (n - 0x10000) / 0x400), .escaped (0xDC00 + (n - 0x10000) % 0x400)],
    fun rest => ?_, fun ts => ?_⟩
  · rw [surrogates, List.append_assoc, scanString_hex4 (by omega), scanString_hex4 (by omega)]
    cases scanString rest <;> rfl
  · have hn : combine (0xD800 + (n - 0x10000) / 0x400) (0xDC00 + (n - 0x10000) % 0x400) = n := by
      unfold combine
      omega
    show join (.escaped _ :: .escaped _ :: ts) = _
    rw [join_pair, hn]
    · simp only [isHigh, Bool.and_eq_true, decide_eq_true_eq]
      omega
    · simp only [isLow, Bool.and_eq_true, decide_eq_true_eq]
      omega

/-- **A string is read as it was written**, up to its closing quotation mark. -/
theorem scanString_flatMap {escape : Nat → List Char} {s : Str} (h : ∀ n ∈ s, Spells (escape n) n)
    (rest : List Char) :
    ∃ ts, scanString (s.flatMap escape ++ '"' :: rest) = some (ts, rest) ∧ join ts = s := by
  induction s with
  | nil => exact ⟨[], rfl, rfl⟩
  | cons n s ih =>
    obtain ⟨ts, hscan, hjoin⟩ := ih fun m hm => h m (List.mem_cons_of_mem n hm)
    obtain ⟨us, hus, husj⟩ := h n (List.mem_cons_self ..)
    refine ⟨us ++ ts, ?_, (husj ts).trans (congrArg _ hjoin)⟩
    rw [List.flatMap_cons, List.append_assoc, hus, hscan]
    rfl

end Spells
end JsonText
