import Mathlib.Algebra.Order.Ring.Rat
import Mathlib.Data.List.TakeWhile

/-!
# JSON numbers

A number is kept as it is written: a sign, the digits before the point, the digits after it
and an exponent.  Its value is a rational number, whatever a reader makes of it.
-/

namespace JsonText

/-- A number as it is written. -/
structure Number where
  negative : Bool := false
  whole : Nat
  fraction : List (Fin 10) := []
  exponent : Option Int := none
  deriving DecidableEq, Repr

namespace Number

/-- It is written without a fraction and without an exponent. -/
def isWhole (n : Number) : Bool := n.fraction.isEmpty && n.exponent.isNone

/-- What it is worth. -/
def value (n : Number) : ℚ :=
  let digits : ℚ := n.whole + n.fraction.foldr (fun d q => (q + (d.val : ℚ)) / 10) 0
  (if n.negative then -digits else digits) * 10 ^ n.exponent.getD 0

/-- A whole number, as every writer writes it. -/
def ofInt (n : Int) : Number := { negative := n < 0, whole := n.natAbs }

@[simp] theorem isWhole_ofInt (n : Int) : (ofInt n).isWhole = true := rfl

@[simp] theorem value_ofInt (n : Int) : (ofInt n).value = n := by
  simp only [value, ofInt, List.foldr_nil, add_zero, Option.getD_none, zpow_zero, mul_one,
    decide_eq_true_eq]
  split
  · have hn : (n.natAbs : Int) = -n := by omega
    rw [← Int.cast_natCast, hn, Int.cast_neg, neg_neg]
  · have hn : (n.natAbs : Int) = n := by omega
    rw [← Int.cast_natCast, hn]

/-- Zero with a minus sign, which a floating-point number can be. -/
def negativeZero : Number := { negative := true, whole := 0 }

@[simp] theorem value_negativeZero : negativeZero.value = 0 := by
  simp [value, negativeZero]

end Number

/-! ## Reading -/

/-- Decimal digits, at least one, and what follows them. -/
def scanDigits (cs : List Char) : Option (List Char × List Char) :=
  if cs.takeWhile Char.isDigit = [] then none
  else some (cs.takeWhile Char.isDigit, cs.dropWhile Char.isDigit)

/-- The digits before the point.  No zero stands in front of others. -/
def scanWhole (cs : List Char) : Option (Nat × List Char) := do
  let (ds, rest) ← scanDigits cs
  if ds.head? = some '0' ∧ ds ≠ ['0'] then none
  else return (Nat.ofDigitChars 10 ds 0, rest)

def digitOf (c : Char) : Fin 10 := Fin.ofNat 10 (c.toNat - 48)

/-- The point and the digits after it. -/
def scanFraction : List Char → Option (List (Fin 10) × List Char)
  | '.' :: cs => do
    let (ds, rest) ← scanDigits cs
    return (ds.map digitOf, rest)
  | cs => some ([], cs)

/-- The sign of an exponent, which may be a plus. -/
def scanSign : List Char → Bool × List Char
  | '-' :: cs => (true, cs)
  | '+' :: cs => (false, cs)
  | cs => (false, cs)

/-- The letter and the exponent. -/
def scanExponent : List Char → Option (Option Int × List Char)
  | 'e' :: cs | 'E' :: cs => do
    let (ds, rest) ← scanDigits (scanSign cs).2
    let k : Int := Nat.ofDigitChars 10 ds 0
    return (some (if (scanSign cs).1 then -k else k), rest)
  | cs => some (none, cs)

/-- The sign of a number. -/
def scanMinus : List Char → Bool × List Char
  | '-' :: cs => (true, cs)
  | cs => (false, cs)

/-- A number, and what follows it. -/
def scanNumber (cs : List Char) : Option (Number × List Char) := do
  let (whole, rest) ← scanWhole (scanMinus cs).2
  let (fraction, rest) ← scanFraction rest
  let (exponent, rest) ← scanExponent rest
  return (⟨(scanMinus cs).1, whole, fraction, exponent⟩, rest)

/-! ## Writing -/

def printDigits (ds : List (Fin 10)) : List Char := ds.map fun d => d.val.digitChar

def printFraction : List (Fin 10) → List Char
  | [] => []
  | d :: ds => '.' :: printDigits (d :: ds)

def printExponent : Option Int → List Char
  | none => []
  | some k => 'e' :: ((if k < 0 then ['-'] else []) ++ Nat.toDigits 10 k.natAbs)

def Number.print (n : Number) : List Char :=
  (if n.negative then ['-'] else []) ++
    (Nat.toDigits 10 n.whole ++ (printFraction n.fraction ++ printExponent n.exponent))

/-! ## Reading what was written -/

/-- No digit follows. -/
def NoDigit (rest : List Char) : Prop := ∀ c ∈ rest.head?, c.isDigit = false

/-- Nothing follows that a number could go on with. -/
def Closed (rest : List Char) : Prop :=
  ∀ c ∈ rest.head?, c.isDigit = false ∧ c ≠ '.' ∧ c ≠ 'e' ∧ c ≠ 'E'

section Digits
variable {rest : List Char}

theorem Closed.noDigit (h : Closed rest) : NoDigit rest := fun c hc => (h c hc).1

theorem scanDigits_append {ds : List Char} (hds : ∀ c ∈ ds, c.isDigit = true) (hne : ds ≠ [])
    (hrest : NoDigit rest) : scanDigits (ds ++ rest) = some (ds, rest) := by
  have htake : rest.takeWhile Char.isDigit = [] := by
    cases rest with
    | nil => rfl
    | cons c cs => exact List.takeWhile_cons_of_neg (by simp [hrest c rfl])
  have hdrop : rest.dropWhile Char.isDigit = rest := by
    cases rest with
    | nil => rfl
    | cons c cs => exact List.dropWhile_cons_of_neg (by simp [hrest c rfl])
  unfold scanDigits
  rw [List.takeWhile_append_of_pos hds, List.dropWhile_append_of_pos hds, htake, hdrop,
    List.append_nil, if_neg hne]

theorem isDigit_digitChar : ∀ d : Fin 10, d.val.digitChar.isDigit = true := by decide

theorem digitOf_digitChar : ∀ d : Fin 10, digitOf d.val.digitChar = d := by decide

theorem isDigit_toDigits (n : Nat) : ∀ c ∈ Nat.toDigits 10 n, c.isDigit = true :=
  fun _ hc => Nat.isDigit_of_mem_toDigits (by decide) (by decide) hc

theorem exists_toDigits (n : Nat) : ∃ c cs, Nat.toDigits 10 n = c :: cs ∧ c.isDigit = true := by
  obtain ⟨c, cs, hcs⟩ := List.exists_cons_of_ne_nil (Nat.toDigits_ne_nil (n := n) (b := 10))
  exact ⟨c, cs, hcs, isDigit_toDigits n c (hcs ▸ List.mem_cons_self ..)⟩

theorem scanDigits_toDigits (n : Nat) (hrest : NoDigit rest) :
    scanDigits (Nat.toDigits 10 n ++ rest) = some (Nat.toDigits 10 n, rest) :=
  scanDigits_append (isDigit_toDigits n) Nat.toDigits_ne_nil hrest

/-- A number above zero has no zero in front. -/
theorem head?_toDigits (n : Nat) (hn : 0 < n) : (Nat.toDigits 10 n).head? ≠ some '0' := by
  induction n using Nat.strongRecOn with
  | _ n ih =>
    by_cases hlt : n < 10
    · have hdigit : ∀ d < 10, 0 < d → d.digitChar ≠ '0' := by decide
      rw [Nat.toDigits_of_lt_base hlt]
      exact fun he => hdigit n hlt hn (Option.some.inj he)
    · obtain ⟨c, cs, hcs, -⟩ := exists_toDigits (n / 10)
      have hhead := ih (n / 10) (by omega) (by omega)
      rw [Nat.toDigits_of_base_le (by decide) (by omega), hcs]
      rwa [hcs] at hhead

theorem scanWhole_toDigits (n : Nat) (hrest : NoDigit rest) :
    scanWhole (Nat.toDigits 10 n ++ rest) = some (n, rest) := by
  have hzero : ¬((Nat.toDigits 10 n).head? = some '0' ∧ Nat.toDigits 10 n ≠ ['0']) := by
    rintro ⟨hhead, hne⟩
    rcases Nat.eq_zero_or_pos n with rfl | hn
    · exact hne (Nat.toDigits_zero 10)
    · exact head?_toDigits n hn hhead
  unfold scanWhole
  rw [scanDigits_toDigits n hrest]
  show ite _ none _ = _
  rw [if_neg hzero, Nat.ofDigitChars_ten_toDigits]
  rfl

end Digits

section Parts
variable {rest : List Char}

theorem scanFraction_print (ds : List (Fin 10)) (hrest : NoDigit rest)
    (hpoint : rest.head? ≠ some '.') :
    scanFraction (printFraction ds ++ rest) = some (ds, rest) := by
  match ds with
  | [] =>
    show scanFraction rest = _
    unfold scanFraction
    split
    · exact absurd rfl hpoint
    · rfl
  | d :: ds =>
    have hdigits : ∀ c ∈ printDigits (d :: ds), c.isDigit = true := by
      intro c hc
      obtain ⟨d', -, rfl⟩ := List.mem_map.mp hc
      exact isDigit_digitChar d'
    have hback : (printDigits (d :: ds)).map digitOf = d :: ds := by
      unfold printDigits
      rw [List.map_map]
      exact (List.map_congr_left fun d' _ => digitOf_digitChar d').trans (List.map_id _)
    rw [printFraction, List.cons_append, scanFraction,
      scanDigits_append hdigits (List.cons_ne_nil _ _) hrest]
    exact congrArg (fun ds => some (ds, rest)) hback

theorem scanSign_toDigits (n : Nat) :
    scanSign (Nat.toDigits 10 n ++ rest) = (false, Nat.toDigits 10 n ++ rest) := by
  obtain ⟨c, cs, hcs, hc⟩ := exists_toDigits n
  rw [hcs, List.cons_append]
  unfold scanSign
  split
  · rename_i he
    cases (List.cons.inj he).1
    cases hc
  · rename_i he
    cases (List.cons.inj he).1
    cases hc
  · rfl

theorem scanMinus_toDigits (negative : Bool) (n : Nat) :
    scanMinus ((if negative then ['-'] else []) ++ (Nat.toDigits 10 n ++ rest)) =
      (negative, Nat.toDigits 10 n ++ rest) := by
  obtain ⟨c, cs, hcs, hc⟩ := exists_toDigits n
  cases negative with
  | true => rfl
  | false =>
    rw [if_neg Bool.false_ne_true, List.nil_append, hcs, List.cons_append]
    unfold scanMinus
    split
    · rename_i he
      cases (List.cons.inj he).1
      cases hc
    · rfl

theorem scanExponent_print (k : Option Int) (hrest : Closed rest) :
    scanExponent (printExponent k ++ rest) = some (k, rest) := by
  cases k with
  | none =>
    show scanExponent rest = _
    unfold scanExponent
    split
    · exact absurd rfl (hrest _ rfl).2.2.1
    · exact absurd rfl (hrest _ rfl).2.2.2
    · rfl
  | some k =>
    rw [printExponent, List.cons_append, List.append_assoc, scanExponent]
    by_cases hk : k < 0
    · have hneg : (k.natAbs : Int) = -k := by omega
      rw [if_pos hk, List.singleton_append, scanSign, scanDigits_toDigits _ hrest.noDigit]
      show some (some (-((Nat.ofDigitChars 10 _ 0 : Nat) : Int)), rest) = _
      rw [Nat.ofDigitChars_ten_toDigits, hneg, Int.neg_neg]
    · have hpos : (k.natAbs : Int) = k := by omega
      rw [if_neg hk, List.nil_append, scanSign_toDigits, scanDigits_toDigits _ hrest.noDigit]
      show some (some ((Nat.ofDigitChars 10 _ 0 : Nat) : Int), rest) = _
      rw [Nat.ofDigitChars_ten_toDigits, hpos]

theorem head?_printExponent (k : Option Int) (hrest : Closed rest) :
    NoDigit (printExponent k ++ rest) ∧ (printExponent k ++ rest).head? ≠ some '.' := by
  cases k with
  | none => exact ⟨hrest.noDigit, fun he => (hrest _ he).2.1 rfl⟩
  | some k =>
    refine ⟨fun c hc => ?_, fun he => ?_⟩
    · cases Option.some.inj hc
      rfl
    · cases Option.some.inj he

theorem noDigit_printFraction (ds : List (Fin 10)) (hrest : NoDigit rest) :
    NoDigit (printFraction ds ++ rest) := by
  match ds with
  | [] => exact hrest
  | d :: ds =>
    intro c hc
    cases Option.some.inj hc
    rfl

/-- The first character of a number. -/
theorem head?_print (n : Number) : ∃ c cs, n.print = c :: cs ∧ (c.isDigit = true ∨ c = '-') := by
  obtain ⟨c, cs, hcs, hc⟩ := exists_toDigits n.whole
  unfold Number.print
  cases n.negative with
  | true => exact ⟨'-', _, rfl, Or.inr rfl⟩
  | false =>
    rw [if_neg Bool.false_ne_true, List.nil_append, hcs]
    exact ⟨c, _, rfl, Or.inl hc⟩

/-- **A number is read as it was written**, where nothing goes on with it. -/
theorem scanNumber_print (n : Number) (hrest : Closed rest) :
    scanNumber (n.print ++ rest) = some (n, rest) := by
  obtain ⟨hdigit, hpoint⟩ := head?_printExponent n.exponent hrest
  have hminus : scanMinus (n.print ++ rest) = (n.negative, Nat.toDigits 10 n.whole ++
      (printFraction n.fraction ++ (printExponent n.exponent ++ rest))) := by
    unfold Number.print
    rw [List.append_assoc, List.append_assoc, List.append_assoc]
    exact scanMinus_toDigits n.negative n.whole
  unfold scanNumber
  rw [hminus, scanWhole_toDigits _ (noDigit_printFraction _ hdigit)]
  simp only [Option.bind_eq_bind, Option.bind_some, scanFraction_print _ hdigit hpoint,
    scanExponent_print _ hrest, Option.pure_def]

end Parts
end JsonText
