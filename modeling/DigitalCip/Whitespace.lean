import DigitalCip.Schema
import Mathlib.Data.List.DropRight

/-!
# White space in Python and in Go

The OCR worker decides with `str.strip` whether a text is blank; the chunker cuts
the same text at `unicode.IsSpace`.  The two languages do not agree on what a
space is: Python also counts the four information separators U+001C to U+001F.
The disagreement is one-sided (`pythonSpace_of_goSpace`), so a text that is not
blank in Python is not blank in Go.
-/

namespace DigitalCip

/-- Go's `unicode.IsSpace`. -/
def goSpace (c : Char) : Bool :=
  c.toNat ∈ [0x09, 0x0A, 0x0B, 0x0C, 0x0D, 0x20, 0x85, 0xA0, 0x1680] ||
    (0x2000 ≤ c.toNat && c.toNat ≤ 0x200A) ||
    c.toNat ∈ [0x2028, 0x2029, 0x202F, 0x205F, 0x3000]

/-- Python's `str.isspace` on one character. -/
def pythonSpace (c : Char) : Bool :=
  goSpace c || (0x1C ≤ c.toNat && c.toNat ≤ 0x1F)

theorem pythonSpace_of_goSpace {c : Char} (h : goSpace c = true) : pythonSpace c = true := by
  simp [pythonSpace, h]

/-- A text without the characters of `p` at its two ends. -/
def trimBoth (p : Char → Bool) (text : Text) : Text := (text.dropWhile p).rdropWhile p

/-- Python's `str.strip()`. -/
def strip (text : Text) : Text := trimBoth pythonSpace text

/-- Go's `strings.TrimSpace`. -/
def trimSpace (text : Text) : Text := trimBoth goSpace text

theorem trimBoth_eq_nil_iff {p : Char → Bool} {text : Text} :
    trimBoth p text = [] ↔ ∀ c ∈ text, p c = true := by
  unfold trimBoth
  rw [List.rdropWhile_eq_nil_iff]
  constructor
  · intro h c hc
    rw [← List.takeWhile_append_dropWhile (p := p) (l := text)] at hc
    rcases List.mem_append.mp hc with hc | hc
    · exact List.mem_takeWhile_imp hc
    · exact h c hc
  · intro h c hc
    exact h c ((List.dropWhile_sublist p).mem hc)

/-- Trimming takes away only characters of `p`. -/
theorem mem_trimBoth {p : Char → Bool} {text : Text} {c : Char} (hc : c ∈ text)
    (hp : p c = false) : c ∈ trimBoth p text := by
  have hleft : c ∈ text.dropWhile p := by
    rw [← List.takeWhile_append_dropWhile (p := p) (l := text)] at hc
    refine (List.mem_append.mp hc).resolve_left fun h => ?_
    exact absurd (List.mem_takeWhile_imp h) (by simp [hp])
  rw [← List.rdropWhile_append_rtakeWhile (p := p) (l := text.dropWhile p)] at hleft
  refine (List.mem_append.mp hleft).resolve_right fun h => ?_
  exact absurd (List.mem_rtakeWhile_imp h) (by simp [hp])

/-- A text that `if not text.strip()` rejects. -/
def Blank (text : Text) : Prop := strip text = []

instance (text : Text) : Decidable (Blank text) := inferInstanceAs (Decidable (_ = _))

theorem not_blank_iff {text : Text} : ¬ Blank text ↔ ∃ c ∈ text, pythonSpace c = false := by
  unfold Blank strip
  rw [trimBoth_eq_nil_iff]
  simp

/-- What the OCR worker accepts as text is text to the chunker. -/
theorem exists_goText_of_not_blank {text : Text} (h : ¬ Blank text) :
    ∃ c ∈ text, goSpace c = false := by
  obtain ⟨c, hc, hp⟩ := not_blank_iff.mp h
  refine ⟨c, hc, ?_⟩
  cases hg : goSpace c with
  | false => rfl
  | true => rw [pythonSpace_of_goSpace hg] at hp; cases hp

end DigitalCip
