import DigitalCip.Chunker.Split
import DigitalCip.Sliding.Windows

/-!
# `Split` is an exact windowing

The words of a text are the maximal runs of characters that are not spaces
(`WordsOf`), and `splitWords` finds them (`wordsOf_splitWords`).  The chunks of
`Split` are the windows of `size` words at a distance of `size - overlap`, as many
as it takes to reach the last word.  A chunk is a text again; its words are the
words of its window (`splitWords_joinWords`).
-/

namespace DigitalCip.Chunker
open Sliding

/-! ## The words of a text -/

/-- A word: characters that are not spaces, and at least one. -/
def Word (w : Text) : Prop := w ≠ [] ∧ ∀ c ∈ w, goSpace c = false

/-- The words of a text, one after the other: in front of each there may be spaces,
and after it the text ends or a space follows. -/
inductive WordsOf : Text → List Text → Prop where
  | blank {spaces : Text} (h : ∀ c ∈ spaces, goSpace c = true) : WordsOf spaces []
  | word {spaces w rest : Text} {ws : List Text} (h : ∀ c ∈ spaces, goSpace c = true) (hw : Word w)
      (hrest : ∀ c ∈ rest.head?, goSpace c = true) (hws : WordsOf rest ws) :
      WordsOf (spaces ++ (w ++ rest)) (w :: ws)

theorem WordsOf.forall_word {text : Text} {ws : List Text} (h : WordsOf text ws) :
    ∀ w ∈ ws, Word w := by
  induction h with
  | blank => exact fun w hw => nomatch hw
  | word _ hw _ _ ih =>
    intro v hv
    rcases List.mem_cons.mp hv with rfl | hv
    · exact hw
    · exact ih v hv

theorem splitWords_cons_space {c : Char} (hc : goSpace c = true) (text : Text) :
    splitWords (c :: text) = splitWords text :=
  splitWords_append_space hc [] text

theorem splitWords_spaces_append {spaces : Text} (h : ∀ c ∈ spaces, goSpace c = true) (text : Text) :
    splitWords (spaces ++ text) = splitWords text := by
  induction spaces with
  | nil => rfl
  | cons c spaces ih =>
    have hrest := ih fun a ha => h a (List.mem_cons_of_mem c ha)
    rw [List.cons_append, splitWords_cons_space (h c List.mem_cons_self), hrest]

theorem splitWords_append_spaces {spaces : Text} (h : ∀ c ∈ spaces, goSpace c = true) (text : Text) :
    splitWords (text ++ spaces) = splitWords text := by
  cases spaces with
  | nil => rw [List.append_nil]
  | cons c spaces =>
    have hblank : splitWords (spaces ++ []) = [] :=
      splitWords_spaces_append (fun a ha => h a (List.mem_cons_of_mem c ha)) []
    rw [List.append_nil] at hblank
    rw [splitWords_append_space (h c List.mem_cons_self), hblank, List.append_nil]

/-- A word, and then the end of the text or a space. -/
theorem splitWords_word_append {w rest : Text} (hw : Word w)
    (hrest : ∀ c ∈ rest.head?, goSpace c = true) :
    splitWords (w ++ rest) = w :: splitWords rest := by
  cases rest with
  | nil => rw [List.append_nil, splitWords_of_word hw.1 hw.2]; rfl
  | cons c rest =>
    have hc : goSpace c = true := hrest c rfl
    rw [splitWords_append_space hc, splitWords_of_word hw.1 hw.2, splitWords_cons_space hc]
    rfl

/-- A text has only one list of words. -/
theorem WordsOf.eq_splitWords {text : Text} {ws : List Text} (h : WordsOf text ws) :
    ws = splitWords text := by
  induction h with
  | blank h =>
    have hspaces := splitWords_spaces_append h []
    rw [List.append_nil] at hspaces
    exact hspaces.symm
  | word h hw hrest _ ih =>
    rw [splitWords_spaces_append h, splitWords_word_append hw hrest, ih]

theorem exists_wordsOf (text : Text) : ∃ ws, WordsOf text ws := by
  -- take the spaces and the first word off, and go on with what is left
  induction hn : text.length using Nat.strong_induction_on generalizing text with
  | _ n ih =>
    subst hn
    have hspaces : ∀ c ∈ text.takeWhile goSpace, goSpace c = true := fun c => List.mem_takeWhile_imp
    have htext : text.takeWhile goSpace ++ text.dropWhile goSpace = text :=
      List.takeWhile_append_dropWhile
    by_cases hblank : text.dropWhile goSpace = []
    · rw [hblank, List.append_nil] at htext
      exact ⟨[], htext ▸ .blank hspaces⟩
    generalize text.takeWhile goSpace = spaces at hspaces htext
    have hhead := List.head_dropWhile_not (p := goSpace) (l := text) hblank
    generalize hmid : text.dropWhile goSpace = mid at hblank htext hhead
    obtain ⟨c, mid, rfl⟩ := List.exists_cons_of_ne_nil hblank
    have hc : goSpace c = false := hhead
    have hw : Word ((c :: mid).takeWhile (!goSpace ·)) := by
      refine ⟨by simp [hc], fun a ha => ?_⟩
      simpa using List.mem_takeWhile_imp ha
    have hrest : ∀ a ∈ ((c :: mid).dropWhile (!goSpace ·)).head?, goSpace a = true := by
      intro a ha
      cases hd : (c :: mid).dropWhile (!goSpace ·) with
      | nil => rw [hd] at ha; cases ha
      | cons b rest =>
        have hb := List.head_dropWhile_not (p := (!goSpace ·)) (l := c :: mid) (by simp [hd])
        rw [hd] at ha
        obtain rfl : b = a := by simpa using ha
        simpa [hd] using hb
    have hmid' : (c :: mid).takeWhile (!goSpace ·) ++ (c :: mid).dropWhile (!goSpace ·) = c :: mid :=
      List.takeWhile_append_dropWhile
    generalize (c :: mid).takeWhile (!goSpace ·) = w at hw hmid'
    generalize (c :: mid).dropWhile (!goSpace ·) = rest at hrest hmid'
    have hlt : rest.length < text.length := by
      have hpos : 0 < w.length := List.length_pos_of_ne_nil hw.1
      rw [← htext, ← hmid', List.length_append, List.length_append]
      omega
    obtain ⟨ws, hws⟩ := ih rest.length hlt rest rfl
    rw [← htext, ← hmid']
    exact ⟨w :: ws, .word hspaces hw hrest hws⟩

/-- **`splitWords` finds the words of a text.** -/
theorem wordsOf_splitWords (text : Text) : WordsOf text (splitWords text) := by
  obtain ⟨ws, hws⟩ := exists_wordsOf text
  exact hws.eq_splitWords ▸ hws

/-- Trimming takes no word away. -/
theorem splitWords_trimSpace (text : Text) : splitWords (trimSpace text) = splitWords text := by
  have hleft : text.takeWhile goSpace ++ text.dropWhile goSpace = text :=
    List.takeWhile_append_dropWhile
  have hright : trimSpace text ++ (text.dropWhile goSpace).rtakeWhile goSpace =
      text.dropWhile goSpace := List.rdropWhile_append_rtakeWhile
  calc splitWords (trimSpace text)
      = splitWords (trimSpace text ++ (text.dropWhile goSpace).rtakeWhile goSpace) :=
        (splitWords_append_spaces (fun c => List.mem_rtakeWhile_imp) _).symm
    _ = splitWords (text.dropWhile goSpace) := by rw [hright]
    _ = splitWords (text.takeWhile goSpace ++ text.dropWhile goSpace) :=
        (splitWords_spaces_append (fun c => List.mem_takeWhile_imp) _).symm
    _ = splitWords text := by rw [hleft]

theorem joinWords_cons_cons (w v : Text) (ws : List Text) :
    joinWords (w :: v :: ws) = w ++ ' ' :: joinWords (v :: ws) := by
  simp [joinWords]

/-- Words that are joined are found again. -/
theorem splitWords_joinWords {ws : List Text} (h : ∀ w ∈ ws, Word w) :
    splitWords (joinWords ws) = ws := by
  induction ws with
  | nil => rfl
  | cons w ws ih =>
    have hw := h w List.mem_cons_self
    cases ws with
    | nil =>
      have hjoin : joinWords [w] = w := by simp [joinWords]
      rw [hjoin, splitWords_of_word hw.1 hw.2]
    | cons v ws =>
      have hspace : ∀ c ∈ (' ' :: joinWords (v :: ws)).head?, goSpace c = true := by
        intro c hc
        obtain rfl : ' ' = c := by simpa using hc
        decide
      have hrest := ih fun u hu => h u (List.mem_cons_of_mem w hu)
      rw [joinWords_cons_cons, splitWords_word_append hw hspace, splitWords_cons_space (by decide),
        hrest]

/-! ## The loop -/

section Loop
variable {words : List Text} {size step k : Nat}

/-- The chunk that the loop cuts at word `i * step`. -/
theorem take_drop_eq_window (words : List Text) (size step i : Nat) {stop : Int}
    (hstop : stop = min ((i * step + size : Nat) : Int) words.length) :
    (words.take stop.toNat).drop ((i * step : Nat) : Int).toNat = window words size step i := by
  have hnat : stop.toNat = min (i * step + size) words.length := by omega
  rw [hnat, Int.toNat_natCast, window_eq]

/-- **The loop cuts window after window**, from number `i` to the last one. -/
theorem splitLoop_eq (hcount : Count words.length size step k) (hn : 1 ≤ words.length)
    (hle : step ≤ size) (fuel i : Nat) (hi : i < k) (hfuel : k ≤ i + fuel) :
    splitLoop words size step fuel ((i * step : Nat) : Int) =
      (List.range' i (k - i)).map fun j => joinWords (window words size step j) := by
  induction fuel generalizing i with
  | zero => omega
  | succ fuel ih =>
    have hstart : i * step < words.length := hcount.start_lt hn hle hi
    have hlast : i + 1 < k ↔ i * step + size < words.length := by
      refine ⟨hcount.lt, fun hlt => ?_⟩
      by_contra hge
      obtain rfl : k = i + 1 := by omega
      have hend := hcount.le
      omega
    rw [splitLoop, if_pos (by omega)]
    dsimp only
    generalize hstop : (if ((i * step : Nat) : Int) + size > words.length then (words.length : Int)
      else ((i * step : Nat) : Int) + size) = stop
    have hmin : stop = min ((i * step + size : Nat) : Int) words.length := by
      rw [← hstop]
      split <;> omega
    rw [take_drop_eq_window words size step i hmin]
    have hrange : List.range' i (k - i) = i :: List.range' (i + 1) (k - (i + 1)) := by
      obtain ⟨m, hm⟩ : ∃ m, k - i = m + 1 := ⟨k - i - 1, by omega⟩
      have hm' : k - (i + 1) = m := by omega
      rw [hm, hm', List.range'_succ]
    rw [hrange, List.map_cons]
    congr 1
    by_cases hnext : i + 1 < k
    · -- the window ends before the last word, so the loop goes on
      have hlt := hlast.mp hnext
      have hsucc : ((i * step : Nat) : Int) + step = (((i + 1) * step : Nat) : Int) := by
        rw [Nat.succ_mul]
        omega
      rw [if_neg (by omega), hsucc]
      exact ih (i + 1) hnext (by omega)
    · have hge := mt hlast.mpr hnext
      obtain hk : k - (i + 1) = 0 := by omega
      rw [if_pos (by omega), hk]
      rfl

end Loop

/-! ## `Split` -/

/-- `chunks` are the windows of `size` of the words `ws` that overlap by `overlap`. -/
structure ExactWindows (ws : List Text) (size overlap : Nat) (chunks : List Text) : Prop where
  /-- As few as reach the last word. -/
  count : IsLeast {k | 1 ≤ k ∧ ws.length ≤ (k - 1) * (size - overlap) + size} chunks.length
  /-- The words of each chunk. -/
  words : ∀ i chunk, chunks[i]? = some chunk → splitWords chunk =
    (ws.take (min (i * (size - overlap) + size) ws.length)).drop (i * (size - overlap))
  /-- A chunk is its words with one blank between them. -/
  joined : ∀ chunk ∈ chunks, chunk = joinWords (splitWords chunk)
  full : ∀ i chunk, chunks[i]? = some chunk → i + 1 < chunks.length →
    (splitWords chunk).length = size
  /-- The last words of a chunk are the first words of the next. -/
  shared : ∀ i chunk next, chunks[i]? = some chunk → chunks[i + 1]? = some next →
    (splitWords chunk).drop (size - overlap) = (splitWords next).take overlap ∧
      ((splitWords next).take overlap).length = overlap
  last : 1 < chunks.length → ∀ chunk, chunks.getLast? = some chunk →
    overlap < (splitWords chunk).length
  lossless : ∃ first rest, chunks.map splitWords = first :: rest ∧
    first ++ (rest.map (List.drop overlap)).flatten = ws

/-- The words of a window are found again in its chunk. -/
theorem splitWords_window {ws : List Text} (hws : ∀ w ∈ ws, Word w) (size step i : Nat) :
    splitWords (joinWords (window ws size step i)) = window ws size step i :=
  splitWords_joinWords fun w hw => hws w (List.mem_of_mem_drop (List.mem_of_mem_take hw))

/-- Chunks are numbered like their windows. -/
theorem of_getElem?_map_range {f : Nat → Text} {k i : Nat} {chunk : Text}
    (h : ((List.range k).map f)[i]? = some chunk) : i < k ∧ chunk = f i := by
  rw [List.getElem?_map, Option.map_eq_some_iff] at h
  obtain ⟨j, hj, rfl⟩ := h
  obtain ⟨hi, hij⟩ := List.getElem?_eq_some_iff.mp hj
  rw [List.getElem_range] at hij
  subst hij
  exact ⟨by simpa using hi, rfl⟩

/-- The windows of a list of words are such chunks. -/
theorem exactWindows {ws : List Text} {size overlap k : Nat} (hws : ∀ w ∈ ws, Word w)
    (hoverlap : overlap < size) (hcount : Count ws.length size (size - overlap) k) :
    ExactWindows ws size overlap
      ((List.range k).map fun i => joinWords (window ws size (size - overlap) i)) := by
  have hstep : 1 ≤ size - overlap := by omega
  have hle : size - overlap ≤ size := Nat.sub_le _ _
  have hshare : size - (size - overlap) = overlap := by omega
  have hsplit := splitWords_window hws size (size - overlap)
  constructor
  · simpa [Count, Reach] using hcount
  · intro i chunk h
    obtain ⟨-, rfl⟩ := of_getElem?_map_range h
    rw [hsplit, window_eq]
  · intro chunk h
    obtain ⟨i, -, rfl⟩ := List.mem_map.mp h
    rw [hsplit]
  · intro i chunk h hi
    obtain ⟨-, rfl⟩ := of_getElem?_map_range h
    rw [hsplit]
    exact hcount.length_full (by simpa using hi)
  · intro i chunk next h h'
    obtain ⟨-, rfl⟩ := of_getElem?_map_range h
    obtain ⟨hi, rfl⟩ := of_getElem?_map_range h'
    have hdrop := drop_window ws size (size - overlap) i
    have hlength := hcount.length_shared hi
    rw [hshare] at hdrop hlength
    rw [hsplit, hsplit, ← hdrop]
    exact ⟨rfl, hlength⟩
  · intro hk chunk h
    rw [List.length_map, List.length_range] at hk
    rw [List.getLast?_eq_getElem?, List.length_map, List.length_range] at h
    obtain ⟨-, rfl⟩ := of_getElem?_map_range h
    have hlength := hcount.length_last hk hle hstep
    rwa [hshare, ← hsplit (k - 1)] at hlength
  · obtain ⟨m, rfl⟩ : ∃ m, k = m + 1 := ⟨k - 1, by have hk : 1 ≤ k := hcount.1.1; omega⟩
    refine ⟨window ws size (size - overlap) 0,
      (List.range m).map fun j => window ws size (size - overlap) (j + 1), ?_, ?_⟩
    · rw [List.range_succ_eq_map, List.map_cons, List.map_cons, hsplit]
      simp [Function.comp_def, hsplit]
    · have hall := hcount.lossless hle
      rw [hshare] at hall
      simpa [Function.comp_def] using hall

theorem effectiveOverlap_nonneg {size : Int} (h : 0 < size) (overlap : Int) :
    0 ≤ effectiveOverlap size overlap := by
  unfold effectiveOverlap
  split
  · exact Int.tdiv_nonneg h.le (by decide)
  · omega

theorem effectiveOverlap_lt {size : Int} (h : 0 < size) (overlap : Int) :
    effectiveOverlap size overlap < size := by
  unfold effectiveOverlap
  split
  · rw [Int.tdiv_eq_ediv_of_nonneg h.le]
    omega
  · omega

/-- The effective size and overlap are numbers of words. -/
theorem exists_effective (size overlap : Int) : ∃ s o : Nat, (s : Int) = effectiveSize size ∧
    (o : Int) = effectiveOverlap (effectiveSize size) overlap ∧ 1 ≤ s ∧ o < s := by
  have hsize := effectiveSize_pos size
  have hnonneg := effectiveOverlap_nonneg hsize overlap
  have hlt := effectiveOverlap_lt hsize overlap
  obtain ⟨s, hs⟩ := Int.eq_ofNat_of_zero_le hsize.le
  obtain ⟨o, ho⟩ := Int.eq_ofNat_of_zero_le hnonneg
  exact ⟨s, o, hs.symm, ho.symm, by omega, by omega⟩

section Split
variable {text : Text} {size overlap : Int} {s o : Nat}

/-- What `Split` returns depends on the words alone. -/
theorem split_eq_splitLoop (hs : (s : Int) = effectiveSize size)
    (ho : (o : Int) = effectiveOverlap (effectiveSize size) overlap) (hlt : o < s) :
    split text size overlap = if splitWords text = [] then [] else
      splitLoop (splitWords text) s (s - o : Nat) (splitWords text).length 0 := by
  have hstep : ((s : Int) - o) = ((s - o : Nat) : Int) := by omega
  have hpos : ¬ ((s - o : Nat) : Int) ≤ 0 := by omega
  unfold split
  dsimp only
  rw [← ho, splitWords_trimSpace, ← hs, hstep, if_neg hpos]
  by_cases htext : trimSpace text = []
  · have hws : splitWords text = [] := by rw [← splitWords_trimSpace, htext]; rfl
    rw [if_pos htext, if_pos hws]
  · rw [if_neg htext]

/-- **The chunks are the windows** of the words, each joined. -/
theorem split_eq_windows (hs : (s : Int) = effectiveSize size)
    (ho : (o : Int) = effectiveOverlap (effectiveSize size) overlap) (hlt : o < s)
    (hws : splitWords text ≠ []) : ∃ k, Count (splitWords text).length s (s - o) k ∧
      split text size overlap =
        (List.range k).map fun i => joinWords (window (splitWords text) s (s - o) i) := by
  have hn : 1 ≤ (splitWords text).length := List.length_pos_of_ne_nil hws
  obtain ⟨k, hk⟩ : ∃ k, Count (splitWords text).length s (s - o) k :=
    exists_count hn (by omega) (by omega)
  have hkn := hk.le_length hn (by omega) (by omega)
  have hloop := splitLoop_eq hk hn (Nat.sub_le s o) (splitWords text).length 0 hk.1.1 (by omega)
  refine ⟨k, hk, ?_⟩
  rw [split_eq_splitLoop hs ho hlt, if_neg hws]
  simpa [List.range_eq_range'] using hloop

end Split

/-- **`Split` is an exact, lossless windowing** of the words of its text, for every
size and overlap. -/
theorem split_windows (text : Text) (size overlap : Int) :
    ∃ (ws : List Text) (s o : Nat), WordsOf text ws ∧
      (s : Int) = effectiveSize size ∧ (o : Int) = effectiveOverlap (effectiveSize size) overlap ∧
      1 ≤ s ∧ o < s ∧ (ws = [] → split text size overlap = []) ∧
      (ws ≠ [] → ExactWindows ws s o (split text size overlap)) := by
  obtain ⟨s, o, hs, ho, hpos, hlt⟩ := exists_effective size overlap
  refine ⟨splitWords text, s, o, wordsOf_splitWords text, hs, ho, hpos, hlt, fun hws => ?_,
    fun hws => ?_⟩
  · rw [split_eq_splitLoop hs ho hlt, if_pos hws]
  · obtain ⟨k, hk, hsplit⟩ := split_eq_windows hs ho hlt hws
    rw [hsplit]
    exact exactWindows (wordsOf_splitWords text).forall_word hlt hk

/-- Five words in windows of three that overlap by one. -/
example : split "a bb  c\nd e".toList 3 1 = ["a bb c".toList, "c d e".toList] := by decide

end DigitalCip.Chunker
