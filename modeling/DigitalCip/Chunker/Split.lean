import DigitalCip.Whitespace

/-!
# The splitter of the chunker

`chunk.go`: a text is cut into words at white space, and the words are grouped
into windows of `size` words that overlap by `overlap` words.  Go's `int` is an
unbounded integer here.
-/

namespace DigitalCip.Chunker

/-- `splitWords`: `strings.FieldsFunc` at `unicode.IsSpace`, the maximal runs of
characters that are not spaces. -/
def splitWords (text : Text) : List Text :=
  (text.splitOnP goSpace).filter fun w => !w.isEmpty

/-- `ApproxTokenCount`. -/
def approxTokenCount (s : Text) : Nat := (splitWords s).length

/-- `strings.Join(words, " ")`. -/
def joinWords (words : List Text) : Text := List.intercalate [' '] words

/-- The loop of `Split`, from word `start` on.  `fuel` bounds its iterations. -/
def splitLoop (words : List Text) (size step : Int) : Nat → Int → List Text
  | 0, _ => []
  | fuel + 1, start =>
    if start < words.length then
      let stop := start + size
      let stop := if stop > words.length then (words.length : Int) else stop
      let chunk := joinWords ((words.take stop.toNat).drop start.toNat)
      chunk :: if stop = words.length then [] else splitLoop words size step fuel (start + step)
    else []

/-- `size` after the fallback `if size <= 0`. -/
def effectiveSize (size : Int) : Int := if size ≤ 0 then 800 else size

/-- `overlap` after the fallback `if overlap < 0 || overlap >= size`. -/
def effectiveOverlap (size overlap : Int) : Int :=
  if overlap < 0 ∨ overlap ≥ size then size.tdiv 8 else overlap

/-- `Split`. -/
def split (text : Text) (size overlap : Int) : List Text :=
  let text := trimSpace text
  if text = [] then []
  else
    let size := effectiveSize size
    let overlap := effectiveOverlap size overlap
    let words := splitWords text
    if words = [] then []
    else
      let step := size - overlap
      let step := if step ≤ 0 then size else step
      splitLoop words size step words.length 0

theorem effectiveSize_pos (size : Int) : 0 < effectiveSize size := by
  unfold effectiveSize
  split <;> omega

/-! ## A text that is not blank has chunks -/

theorem splitWords_append_space {c : Char} (hc : goSpace c = true) (x y : Text) :
    splitWords (x ++ c :: y) = splitWords x ++ splitWords y := by
  unfold splitWords
  rw [List.splitOnP_append_cons x y hc, List.filter_append]

/-- A run of characters that are not spaces is one word. -/
theorem splitWords_of_word {w : Text} (hne : w ≠ []) (h : ∀ c ∈ w, goSpace c = false) :
    splitWords w = [w] := by
  unfold splitWords
  rw [List.splitOnP_eq_singleton fun c hc => by simp [h c hc]]
  simp [hne]

theorem splitWords_cons_ne_nil {c : Char} (hc : goSpace c = false) (x : Text) :
    splitWords (c :: x) ≠ [] := by
  by_cases hx : ∀ a ∈ x, goSpace a = false
  · rw [splitWords_of_word (List.cons_ne_nil _ _) (by simpa [hc] using hx)]
    exact List.cons_ne_nil _ _
  · obtain ⟨a, ha, hspace⟩ : ∃ a ∈ x, goSpace a = true := by simpa using hx
    -- cut at the first space after `c`: what is before it is a word
    obtain ⟨y, b, z, rfl, hb, hy⟩ :
        ∃ y b z, x = y ++ b :: z ∧ goSpace b = true ∧ ∀ a ∈ y, goSpace a = false := by
      refine ⟨x.takeWhile (!goSpace ·), ?_⟩
      cases hd : x.dropWhile (!goSpace ·) with
      | nil =>
        rw [List.dropWhile_eq_nil_iff] at hd
        simpa [hspace] using hd a ha
      | cons b z =>
        refine ⟨b, z, ?_, ?_, fun a ha => by simpa using List.mem_takeWhile_imp ha⟩
        · rw [← hd, List.takeWhile_append_dropWhile]
        · have := List.head_dropWhile_not (p := (!goSpace ·)) (l := x) (by simp [hd])
          simpa [hd] using this
    rw [← List.cons_append, splitWords_append_space hb,
      splitWords_of_word (List.cons_ne_nil _ _) (by simpa [hc] using hy)]
    simp

/-- A text with a character that is not a space has a word. -/
theorem splitWords_ne_nil {text : Text} (h : ∃ c ∈ text, goSpace c = false) :
    splitWords text ≠ [] := by
  obtain ⟨c, hc, hspace⟩ := h
  induction text with
  | nil => cases hc
  | cons a x ih =>
    by_cases ha : goSpace a = true
    · have hcx : c ∈ x := by
        rcases List.mem_cons.mp hc with rfl | hcx
        · rw [ha] at hspace; cases hspace
        · exact hcx
      have := splitWords_append_space ha [] x
      rw [List.nil_append] at this
      rw [this]
      exact List.append_ne_nil_of_right_ne_nil _ (ih hcx)
    · exact splitWords_cons_ne_nil (by simpa using ha) x

/-- **`Split` returns a chunk for every text that is not all white space.** -/
theorem split_ne_nil {text : Text} (h : ∃ c ∈ text, goSpace c = false) (size overlap : Int) :
    split text size overlap ≠ [] := by
  obtain ⟨c, hmem, hspace⟩ := h
  have hc : c ∈ trimSpace text := mem_trimBoth hmem hspace
  have hwords : splitWords (trimSpace text) ≠ [] := splitWords_ne_nil ⟨c, hc, hspace⟩
  have htext : trimSpace text ≠ [] := List.ne_nil_of_mem hc
  obtain ⟨n, hn⟩ := Nat.exists_eq_succ_of_ne_zero
    (fun h0 => hwords (List.length_eq_zero_iff.mp h0))
  simp only [split, htext, hwords, if_false]
  rw [hn, splitLoop, if_pos (by omega)]
  exact List.cons_ne_nil _ _

end DigitalCip.Chunker
