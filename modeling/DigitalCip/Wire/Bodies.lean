import DigitalCip.Chunker.Json
import DigitalCip.JsonText.Values
import DigitalCip.Python.Json

/-!
# Bodies as texts

`json.loads` and `json.dumps`, `json.Unmarshal` and `json.Marshal`, on texts.  All four
keep to the same notation; what differs is what they make of a value and what they escape.
`Oj.dump` is not under this roof: it is any style there is.

Python also reads the words `NaN`, `Infinity` and `-Infinity`, which nobody writes, and it
writes floats, which no envelope has; both are left out.
-/

namespace DigitalCip
open JsonText

/-- A body of a message. -/
abbrev BodyText := List Char

/-! ## Styles -/

/-- The letter of the short escape that both writers use for a code point. -/
def shortFor (n : Nat) : Option Char :=
  if n = 0x22 then some '"'
  else if n = 0x5C then some '\\'
  else if n = 0x08 then some 'b'
  else if n = 0x0C then some 'f'
  else if n = 0x0A then some 'n'
  else if n = 0x0D then some 'r'
  else if n = 0x09 then some 't'
  else none

theorem spells_shortFor {n : Nat} {c : Char} (h : shortFor n = some c) : Spells ['\\', c] n := by
  have hshort : c ≠ 'u' ∧ shortEscape c = some n := by
    unfold shortFor at h
    split_ifs at h <;> (cases Option.some.inj h; subst n; exact ⟨by decide, rfl⟩)
  exact spells_short hshort.1 hshort.2

/-- The quotation mark and the backslash have short escapes. -/
theorem shortFor_eq_none {n : Nat} (h : shortFor n = none) : n ≠ 0x22 ∧ n ≠ 0x5C := by
  unfold shortFor at h
  split_ifs at h
  exact ⟨by assumption, by assumption⟩

theorem toNat_ofNat {n : Nat} (h : IsScalar n) : (Char.ofNat n).toNat = n := by
  have hvalid : n.isValidChar := h
  unfold Char.ofNat
  rw [dif_pos hvalid]
  rfl

theorem spells_ofNat {n : Nat} (h : IsScalar n) (hshort : shortFor n = none) (hn : 0x20 ≤ n) :
    Spells [Char.ofNat n] n := by
  have hnat := toNat_ofNat h
  obtain ⟨hquote, hslash⟩ := shortFor_eq_none hshort
  have hspells : Spells [Char.ofNat n] (Char.ofNat n).toNat := by
    refine spells_char (fun he => hquote ?_) (fun he => hslash ?_) (by rw [hnat]; exact hn)
    · rw [← hnat, he]
      rfl
    · rw [← hnat, he]
      rfl
  rwa [hnat] at hspells

namespace Python

/-- `ensure_ascii`. -/
def escape (n : Nat) : List Char :=
  match shortFor n with
  | some c => ['\\', c]
  | none =>
    if 0x20 ≤ n ∧ n ≤ 0x7E then [Char.ofNat n]
    else if n < 0x10000 then '\\' :: 'u' :: hex4 n
    else surrogates n

theorem spells_escape (n : Nat) (h : IsScalar n) : Spells (escape n) n := by
  have hscalar := isScalar_iff.mp h
  unfold escape
  split
  · exact spells_shortFor ‹_›
  · split_ifs with hascii hbasic
    · exact spells_ofNat h ‹_› hascii.1
    · exact spells_hex4 (by omega) hbasic
    · exact spells_surrogates (by omega) (by omega)

/-- The separators of `json.dumps`. -/
def style : Style where
  escape := escape
  comma := [' ']
  colon := [' ']
  spells := spells_escape
  comma_space := by simp [isSpace]
  colon_space := by simp [isSpace]

end Python

namespace Chunker

/-- `json.Marshal` escapes what HTML and JavaScript would take for their own. -/
def escape (n : Nat) : List Char :=
  match shortFor n with
  | some c => ['\\', c]
  | none =>
    if n < 0x20 ∨ n = 0x3C ∨ n = 0x3E ∨ n = 0x26 ∨ n = 0x2028 ∨ n = 0x2029 then
      '\\' :: 'u' :: hex4 n
    else [Char.ofNat n]

theorem spells_escape (n : Nat) (h : IsScalar n) : Spells (escape n) n := by
  unfold escape
  split
  · exact spells_shortFor ‹_›
  · split_ifs with hhtml
    · exact spells_hex4 (by omega) (by omega)
    · exact spells_ofNat h ‹_› (by omega)

/-- `json.Marshal` writes no white space. -/
def style : Style where
  escape := escape
  comma := []
  colon := []
  spells := spells_escape
  comma_space := by simp
  colon_space := by simp

end Chunker

/-! ## Python's values -/

namespace Python

/-- The `float` nearest to `q`. -/
def toFloat (q : ℚ) : PyFloat :=
  let r := if q = 0 then 0 else roundTo (2 ^ max (Int.log 2 |q| - 52) (-1074)) q
  if |r| < 2 ^ 1024 then .finite r else .infinity (q < 0)

/-- An `int` when neither a fraction nor an exponent is written, else a `float`. -/
def ofNumber (n : Number) : Json := if n.isWhole then .int n.value.num else .float (toFloat n.value)

mutual

/-- What `json.loads` makes of a value.  The last member with a key stands, at the place of
the first one. -/
def ofValue : Value → Json
  | .null => .null
  | .bool b => .bool b
  | .number n => ofNumber n
  | .string s => .str s
  | .array xs => .list (ofElements xs)
  | .object members => .dict (ofMembers [] members)

def ofElements : List Value → List Json
  | [] => []
  | x :: xs => ofValue x :: ofElements xs

def ofMembers (dict : Dict) : List (Str × Value) → Dict
  | [] => dict
  | (key, x) :: members => ofMembers (dict.set key (ofValue x)) members

end

/-- `json.loads`, on a text without a byte order mark, which it refuses, and without integers of
more than 4300 digits, which `int` refuses. -/
def loads (text : BodyText) : Body := (parse text).map ofValue

mutual

/-- The value that `json.dumps` writes. -/
def toValue : Json → Option Value
  | .null => some .null
  | .bool b => some (.bool b)
  | .int n => some (.number (.ofInt n))
  | .float _ => none
  | .str s => some (.string s)
  | .list xs => (toElements xs).map .array
  | .dict fields => (toMembers fields).map .object

def toElements : List Json → Option (List Value)
  | [] => some []
  | x :: xs => do return (← toValue x) :: (← toElements xs)

def toMembers : List (Str × Json) → Option (List (Str × Value))
  | [] => some []
  | (key, x) :: fields => do return (key, ← toValue x) :: (← toMembers fields)

end

/-- `json.dumps`. -/
def dumps (x : Json) : Option BodyText := (toValue x).map (·.print style)

end Python

/-! ## Go's values -/

namespace Chunker

/-- A surrogate without a partner becomes the replacement character. -/
def ofString (s : Str) : Str := s.map fun n => if 0xD800 ≤ n ∧ n ≤ 0xDFFF then 0xFFFD else n

mutual

/-- The scanned value. -/
def ofValue : JsonText.Value → Value
  | .null => .null
  | .bool b => .bool b
  | .number n => .number n.value n.isWhole n.negative
  | .string s => .string (ofString s)
  | .array xs => .array (ofElements xs)
  | .object members => .object (ofMembers members)

def ofElements : List JsonText.Value → List Value
  | [] => []
  | x :: xs => ofValue x :: ofElements xs

def ofMembers : List (Str × JsonText.Value) → List (Str × Value)
  | [] => []
  | (key, x) :: members => (ofString key, ofValue x) :: ofMembers members

end

/-- `json.Unmarshal(text, &env)`. -/
def unmarshalText (text : BodyText) : Option RawEnvelope := unmarshal ((parse text).map ofValue)

/-- A member takes its place among those after it, which stand if they have its key. -/
def insertMember (key : Str) (x : JsonText.Value) :
    List (Str × JsonText.Value) → List (Str × JsonText.Value)
  | [] => [(key, x)]
  | (k, y) :: members =>
    if key = k then (k, y) :: members
    else if key < k then (key, x) :: (k, y) :: members
    else (k, y) :: insertMember key x members

mutual

/-- The value that `json.Marshal` writes for an `any`.  A number is a `float64`, so zero keeps
its sign; how one is written that is no whole number, or beyond `2 ^ 53`, is left out. -/
def toValue : Value → Option JsonText.Value
  | .null => some .null
  | .bool b => some (.bool b)
  | .number q _ negative =>
    if q = 0 ∧ negative = true then some (.number .negativeZero)
    else if q.den = 1 ∧ q.num.natAbs ≤ 2 ^ 53 then some (.number (.ofInt q.num))
    else none
  | .string s => some (.string s)
  | .array xs => (toElements xs).map .array
  | .object members => (toMembers members).map .object

def toElements : List Value → Option (List JsonText.Value)
  | [] => some []
  | x :: xs => do return (← toValue x) :: (← toElements xs)

/-- The keys of a map are sorted. -/
def toMembers : List (Str × Value) → Option (List (Str × JsonText.Value))
  | [] => some []
  | (key, x) :: members => do return insertMember key (← toValue x) (← toMembers members)

end

/-- The struct, with what is written for its payload. -/
def envelopeValue (env : RawEnvelope) (payload : JsonText.Value) : JsonText.Value :=
  .object
    [(str "message_id", .string env.messageId),
      (str "idempotency_key", .string env.idempotencyKey),
      (str "trace_id", .string env.traceId),
      (str "stage", .string env.stage),
      (str "document_id", .number (.ofInt env.documentId)),
      (str "tenant_id", .string env.tenantId),
      (str "attempt", .number (.ofInt env.attempt)),
      (str "published_at", .string env.publishedAt),
      (str "payload", payload)]

/-- `json.Marshal(env)`.  An empty payload may be no map at all, which is written another
way, and is left out. -/
def marshal (env : RawEnvelope) : Option BodyText :=
  match env.payload with
  | [] => none
  | payload => (toMembers payload).map fun members =>
      (envelopeValue env (.object members)).print style

end Chunker
end DigitalCip
