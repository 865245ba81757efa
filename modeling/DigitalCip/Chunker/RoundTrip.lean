import DigitalCip.Chunker.Windowing

/-!
# A chunk is its words

A chunk is cut into words again where it was put together, so its token count is
the length of its window, a chunk is its own only chunk, and `Split` sees nothing
of a text but its words.
-/

namespace DigitalCip.Chunker
open Sliding

section Chunks
variable {text : Text} {size overlap : Int} {s o i : Nat}

/-- The same for the words of a text. -/
theorem splitWords_chunk (text : Text) (size step i : Nat) :
    splitWords (joinWords (window (splitWords text) size step i)) =
      window (splitWords text) size step i :=
  splitWords_window (wordsOf_splitWords text).forall_word size step i

/-- A text of one window is one chunk. -/
theorem split_of_length_le (hs : (s : Int) = effectiveSize size)
    (ho : (o : Int) = effectiveOverlap (effectiveSize size) overlap) (hlt : o < s)
    (hne : splitWords text ≠ []) (hle : (splitWords text).length ≤ s) :
    split text size overlap = [joinWords (splitWords text)] := by
  obtain ⟨k, hk, hsplit⟩ := split_eq_windows hs ho hlt hne
  obtain rfl : k = 1 := by
    have hreach : k ≤ 1 := hk.2 ⟨le_refl 1, by omega⟩
    have hpos : 1 ≤ k := hk.1.1
    omega
  have hwindow : window (splitWords text) s (s - o) 0 = splitWords text := by
    simp [window, List.take_of_length_le hle]
  rw [hsplit, List.range_one, List.map_singleton, hwindow]

/-- What a chunk of `Split` is. -/
theorem chunk_of_split (hs : (s : Int) = effectiveSize size)
    (ho : (o : Int) = effectiveOverlap (effectiveSize size) overlap) (hlt : o < s) {chunk : Text}
    (h : (split text size overlap)[i]? = some chunk) :
    chunk = joinWords (window (splitWords text) s (s - o) i) ∧
      1 ≤ (window (splitWords text) s (s - o) i).length := by
  have hne : splitWords text ≠ [] := by
    intro hws
    rw [split_eq_splitLoop hs ho hlt, if_pos hws] at h
    cases h
  obtain ⟨k, hk, hsplit⟩ := split_eq_windows hs ho hlt hne
  rw [hsplit] at h
  obtain ⟨hi, rfl⟩ := of_getElem?_map_range h
  have hn : 1 ≤ (splitWords text).length := List.length_pos_of_ne_nil hne
  exact ⟨rfl, hk.length_pos hn (by omega) (Nat.sub_le s o) hi⟩

/-- A chunk has a word. -/
theorem one_le_approxTokenCount {chunk : Text} (h : chunk ∈ split text size overlap) :
    1 ≤ approxTokenCount chunk := by
  obtain ⟨s, o, hs, ho, -, hlt⟩ := exists_effective size overlap
  obtain ⟨i, hi⟩ := List.getElem?_of_mem h
  obtain ⟨rfl, hlength⟩ := chunk_of_split hs ho hlt hi
  unfold approxTokenCount
  rwa [splitWords_chunk]

/-- `Split` of the same words is the same. -/
theorem split_congr {text' : Text} (h : splitWords text' = splitWords text) (size overlap : Int) :
    split text' size overlap = split text size overlap := by
  obtain ⟨s, o, hs, ho, -, hlt⟩ := exists_effective size overlap
  rw [split_eq_splitLoop hs ho hlt, split_eq_splitLoop hs ho hlt, h]

/-- The chunks of a text with words, and their tokens. -/
theorem sum_approxTokenCount (hs : (s : Int) = effectiveSize size)
    (ho : (o : Int) = effectiveOverlap (effectiveSize size) overlap) (hlt : o < s)
    (hne : splitWords text ≠ []) :
    1 ≤ (split text size overlap).length ∧
      ((split text size overlap).map approxTokenCount).sum =
        (splitWords text).length + ((split text size overlap).length - 1) * o := by
  obtain ⟨k, hk, hsplit⟩ := split_eq_windows hs ho hlt hne
  have hn : 1 ≤ (splitWords text).length := List.length_pos_of_ne_nil hne
  have hsum := hk.sum_length hn (Nat.sub_le s o)
  have hshare : s - (s - o) = o := by omega
  have hcounts : (split text size overlap).map approxTokenCount =
      (List.range k).map fun i => (window (splitWords text) s (s - o) i).length := by
    rw [hsplit, List.map_map]
    refine List.map_congr_left ?_
    intro i _
    show (splitWords (joinWords _)).length = _
    rw [splitWords_chunk]
  have hlength : (split text size overlap).length = k := by rw [hsplit]; simp
  rw [hcounts, hsum, hlength, hshare]
  exact ⟨hk.1.1, rfl⟩

end Chunks

/-- **A chunk goes round trip to its words.**  `ws` are the words of the text, `s`
and `o` the effective size and overlap.  The token counts of the chunks count every
word once and every shared word once more, if there is a word; a text without words
has no chunks. -/
theorem chunks_round_trip (text : Text) (size overlap : Int) :
    ∃ (ws : List Text) (s o : Nat), WordsOf text ws ∧
      (s : Int) = effectiveSize size ∧ (o : Int) = effectiveOverlap (effectiveSize size) overlap ∧
      (∀ i chunk, (split text size overlap)[i]? = some chunk →
        splitWords chunk = (ws.drop (i * (s - o))).take s ∧
        approxTokenCount chunk = ((ws.drop (i * (s - o))).take s).length ∧
        1 ≤ approxTokenCount chunk ∧ approxTokenCount chunk ≤ s ∧
        split chunk size overlap = [chunk]) ∧
      (ws = [] → split text size overlap = []) ∧
      (ws ≠ [] → (((split text size overlap).map approxTokenCount).sum : Int) =
        ws.length + ((split text size overlap).length - 1) * o) ∧
      ∀ text', WordsOf text' ws → split text' size overlap = split text size overlap := by
  obtain ⟨s, o, hs, ho, hpos, hlt⟩ := exists_effective size overlap
  refine ⟨splitWords text, s, o, wordsOf_splitWords text, hs, ho, fun i chunk h => ?_, fun hws => ?_,
    fun hws => ?_, fun text' h => ?_⟩
  · obtain ⟨rfl, hlength⟩ := chunk_of_split hs ho hlt h
    have hwords := splitWords_chunk text s (s - o) i
    have hle : (window (splitWords text) s (s - o) i).length ≤ s := by
      rw [length_window]
      omega
    have hne : window (splitWords text) s (s - o) i ≠ [] := List.ne_nil_of_length_pos hlength
    refine ⟨hwords, congrArg List.length hwords, ?_, ?_, ?_⟩
    · unfold approxTokenCount
      rwa [hwords]
    · unfold approxTokenCount
      rwa [hwords]
    · rw [split_of_length_le hs ho hlt (by rwa [hwords]) (by rwa [hwords]), hwords]
  · rw [split_eq_splitLoop hs ho hlt, if_pos hws]
  · obtain ⟨hk, hsum⟩ := sum_approxTokenCount hs ho hlt hws
    rw [hsum, Int.natCast_add, Int.natCast_mul, Int.ofNat_sub hk]
    rfl
  · exact split_congr h.eq_splitWords.symm size overlap

/-- A text without words has no chunks, whose token counts do not sum to minus the
overlap. -/
theorem not_chunks_round_trip : ¬ ∀ (text : Text) (size overlap : Int),
    (((split text size overlap).map approxTokenCount).sum : Int) = (splitWords text).length +
      ((split text size overlap).length - 1) * effectiveOverlap (effectiveSize size) overlap := by
  intro hall
  have h := hall [] 200 20
  have hzero : split [] 200 20 = [] := rfl
  rw [hzero] at h
  exact absurd h (by decide)

end DigitalCip.Chunker
