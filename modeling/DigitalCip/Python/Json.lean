import DigitalCip.Python.Consumer
import Mathlib.Data.Int.Log
import Mathlib.Data.Rat.Floor

/-!
# Bodies that are not envelopes

A queue takes any byte string.  The consumer looks at the bytes of a body through
`json.loads` only, so a body is what `json.loads` makes of it: a value, or
nothing when it raises (the bytes are no UTF text, the text is no JSON, it is
nested too deeply).  `json.dumps` of a value that was read is a body that is read
as the same value.

Of the value the consumer uses `attempt`, which may be of any type: it compares it
with `MAX_RETRIES` and adds one, and both raise a `TypeError` unless it is a
number.
-/

namespace DigitalCip.Python

/-- A `str`: its code points, among which lone surrogates may be. -/
abbrev Str := List Nat

/-- `'…'` in the source. -/
def str (s : String) : Str := s.toList.map Char.toNat

/-- A `float`.  `json.loads` reads `NaN` and `Infinity` too. -/
inductive PyFloat where
  | nan
  | infinity (negative : Bool)
  | finite (q : ℚ)
  deriving DecidableEq

/-- The multiple of `u` nearest to `q`, the even one of two. -/
def roundTo (u q : ℚ) : ℚ :=
  let n := ⌊q / u⌋
  let rest := q / u - n
  if rest < 1 / 2 ∨ rest = 1 / 2 ∧ n % 2 = 0 then n * u else (n + 1) * u

namespace PyFloat

/-- `x >= m`, which is exact. -/
def ge : PyFloat → Int → Bool
  | .nan, _ => false
  | .infinity negative, _ => !negative
  | .finite q, m => q ≥ m

/-- `x + 1`, with a significand of 53 bits. -/
def addOne : PyFloat → PyFloat
  | .finite q => .finite (if q + 1 = 0 then 0 else roundTo (2 ^ (Int.log 2 |q + 1| - 52)) (q + 1))
  | x => x

end PyFloat

/-- What `json.loads` returns.  A `dict` has each key once. -/
inductive Json where
  | null
  | bool (b : Bool)
  | int (n : Int)
  | float (x : PyFloat)
  | str (s : Str)
  | list (xs : List Json)
  | dict (fields : List (Str × Json))

namespace Json

/-- `x >= m`. -/
def ge (m : Int) : Json → Except Exc Bool
  | .bool b => .ok (b.toInt ≥ m)
  | .int n => .ok (n ≥ m)
  | .float x => .ok (x.ge m)
  | _ => .error (.other "TypeError")

/-- `x + 1`, on a number. -/
def addOne : Json → Json
  | .bool b => .int (b.toInt + 1)
  | .int n => .int (n + 1)
  | .float x => .float x.addOne
  | x => x

end Json

/-- A `dict` that `json.loads` returned. -/
abbrev Dict := List (Str × Json)

/-- `fields[key] = value`. -/
def Dict.set (key : Str) (value : Json) : Dict → Dict
  | [] => [(key, value)]
  | (k, v) :: rest => if k = key then (k, value) :: rest else (k, v) :: Dict.set key value rest

/-- `envelope.get('attempt', 1)`. -/
def Dict.attempt (envelope : Dict) : Json := (envelope.lookup (Python.str "attempt")).getD (.int 1)

/-- A body, as `json.loads` reads it. -/
abbrev Body := Option Json

/-- How the consumer reads a body.  Only a `dict` has a method `get`. -/
def bodyCodec : Codec Body Dict where
  loads
    | some (.dict fields) => .ok fields
    | some _ => .error (.other "AttributeError")
    | none => .error (.other "ValueError")
  exhausted maxRetries envelope := envelope.attempt.ge maxRetries
  bump envelope := Dict.set (Python.str "attempt") envelope.attempt.addOne envelope

/-- `json.dumps` of an envelope is read as that envelope. -/
@[simp] theorem loads_dumps (envelope : Dict) :
    bodyCodec.loads (some (.dict envelope)) = .ok envelope := rfl

theorem lookup_set (key : Str) (value : Json) (fields : Dict) :
    (Dict.set key value fields).lookup key = some value := by
  induction fields with
  | nil => simp [Dict.set]
  | cons field rest ih =>
    obtain ⟨k, v⟩ := field
    by_cases hk : k = key
    · simp [Dict.set, hk]
    · have hkey : (key == k) = false := by
        simp only [beq_eq_false_iff_ne]
        exact fun he => hk he.symm
      simp only [Dict.set, hk, if_false, List.lookup_cons, hkey]
      exact ih

@[simp] theorem attempt_bump (envelope : Dict) :
    Dict.attempt (bodyCodec.bump envelope) = envelope.attempt.addOne := by
  unfold Dict.attempt bodyCodec
  rw [lookup_set]
  rfl

/-- After `n` retries a whole number has grown by `n`. -/
theorem attempt_iterate_bump {envelope : Dict} {a : Int} (h : envelope.attempt = .int a) (n : Nat) :
    Dict.attempt (bodyCodec.bump^[n] envelope) = .int (a + n) := by
  induction n with
  | zero => simp [h]
  | succ n ih =>
    rw [Function.iterate_succ_apply', attempt_bump, ih]
    show Json.int (a + n + 1) = _
    congr 1
    omega

end DigitalCip.Python
