import DigitalCip.Chunker.Windowing

/-!
# `Split` in machine arithmetic

`chunk.go` with Go's 64-bit `int`, whose operations wrap, on the bytes of a string.
There are at most half as many words as bytes, and whoever comes to a second
iteration has a `size` below the number of words; so no sum of the loop wraps, and
the loop is the one over the unbounded integers (`machineSplit_eq`).
-/

namespace DigitalCip.Chunker
open Sliding

/-! ## The bytes of a string -/

/-- The characters that Go reads from the bytes of a string.  What is not UTF-8 is
read byte by byte, as U+FFFD. -/
def runes : List UInt8 → Text
  | [] => []
  | b :: bytes =>
    match (b :: bytes).toByteArray.utf8DecodeChar? 0 with
    | some c => c :: runes ((b :: bytes).drop c.utf8Size)
    | none => Char.ofNat 0xFFFD :: runes bytes
termination_by bytes => bytes.length
decreasing_by
  · have hsize := Char.utf8Size_pos c
    rw [List.length_drop, List.length_cons]
    omega
  · exact Nat.lt_succ_self _

/-- A character takes at least one byte. -/
theorem length_runes_le (bytes : List UInt8) : (runes bytes).length ≤ bytes.length := by
  induction bytes using runes.induct with
  | case1 => simp [runes]
  | case2 b bytes c h ih =>
    have hsize := Char.utf8Size_pos c
    rw [List.length_drop, List.length_cons] at ih
    rw [runes, h, List.length_cons, List.length_cons]
    omega
  | case3 b bytes h ih =>
    rw [runes, h, List.length_cons, List.length_cons]
    omega

/-- A text is read from its own UTF-8. -/
theorem runes_utf8Encode (text : Text) : runes (text.flatMap String.utf8EncodeChar) = text := by
  induction text with
  | nil => simp [runes]
  | cons c text ih =>
    have hpos := Char.utf8Size_pos c
    have hlength := String.length_utf8EncodeChar c
    obtain ⟨b, bytes, hbytes⟩ : ∃ b bytes, String.utf8EncodeChar c = b :: bytes :=
      List.exists_cons_of_ne_nil (List.ne_nil_of_length_pos (by omega))
    have hdecode : (b :: (bytes ++ text.flatMap String.utf8EncodeChar)).toByteArray.utf8DecodeChar? 0 =
        some c := by
      rw [← List.cons_append, ← hbytes, List.toByteArray_append]
      exact ByteArray.utf8DecodeChar?_utf8EncodeChar_append
    have hdrop : (b :: (bytes ++ text.flatMap String.utf8EncodeChar)).drop c.utf8Size =
        text.flatMap String.utf8EncodeChar := by
      rw [← List.cons_append, ← hbytes, ← hlength, List.drop_left]
    rw [List.flatMap_cons, hbytes, List.cons_append, runes, hdecode]
    dsimp only
    rw [hdrop, ih]

/-- Between two words there is a space, so there are at most half as many words as
characters; one more at most where the text starts with a word. -/
theorem WordsOf.two_mul_length_le {text : Text} {ws : List Text} (h : WordsOf text ws) :
    2 * ws.length ≤ text.length + 1 ∧
      ((∀ c ∈ text.head?, goSpace c = true) → 2 * ws.length ≤ text.length) := by
  induction h with
  | blank => exact ⟨Nat.zero_le _, fun _ => Nat.zero_le _⟩
  | @word spaces w rest ws h hw hrest _ ih =>
    have hrest := ih.2 hrest
    have hpos : 0 < w.length := List.length_pos_of_ne_nil hw.1
    rw [List.length_append, List.length_append, List.length_cons]
    refine ⟨by omega, fun hhead => ?_⟩
    cases spaces with
    | nil =>
      obtain ⟨c, v, rfl⟩ := List.exists_cons_of_ne_nil hw.1
      have hspace : goSpace c = true := hhead c rfl
      rw [hw.2 c List.mem_cons_self] at hspace
      cases hspace
    | cons c spaces =>
      rw [List.length_cons]
      omega

theorem two_mul_length_splitWords_le (bytes : List UInt8) :
    2 * (splitWords (runes bytes)).length ≤ bytes.length + 1 := by
  have hwords := (wordsOf_splitWords (runes bytes)).two_mul_length_le.1
  have hle := length_runes_le bytes
  omega

/-! ## The machine code -/

/-- The values of `start` and `end` when the loop cuts a chunk. -/
structure Iteration where
  start : Int64
  stop : Int64
  deriving DecidableEq

/-- How `Split` ends: before the loop, by `break`, by the condition of the loop, by an
index out of range, or not within the fuel. -/
inductive Exit where
  | returned
  | reached
  | passed
  | panicked
  | running
  deriving DecidableEq

/-- A run of `Split`. -/
structure Run where
  iterations : List Iteration
  chunks : List Text
  exit : Exit

/-- `len(words)`. -/
def machineLen (words : List Text) : Int64 := Int64.ofNat words.length

/-- `words[start:end]`; the capacity of `words` is its length. -/
def slice (words : List Text) (start stop : Int64) : Option (List Text) :=
  if 0 ≤ start ∧ start ≤ stop ∧ stop ≤ machineLen words then
    some ((words.take stop.toInt.toNat).drop start.toInt.toNat)
  else none

/-- The loop of `Split`, with the values it goes through. -/
def machineLoop (words : List Text) (size step : Int64) : Nat → Int64 → Run
  | 0, _ => ⟨[], [], .running⟩
  | fuel + 1, start =>
    if start < machineLen words then
      let stop := start + size
      let stop := if stop > machineLen words then machineLen words else stop
      match slice words start stop with
      | none => ⟨[⟨start, stop⟩], [], .panicked⟩
      | some window =>
        if stop = machineLen words then ⟨[⟨start, stop⟩], [joinWords window], .reached⟩
        else
          let rest := machineLoop words size step fuel (start + step)
          ⟨⟨start, stop⟩ :: rest.iterations, joinWords window :: rest.chunks, rest.exit⟩
    else ⟨[], [], .passed⟩

/-- `size` after its fallback. -/
def machineSize (size : Int64) : Int64 := if size ≤ 0 then 800 else size

/-- `overlap` after its fallback. -/
def machineOverlap (size overlap : Int64) : Int64 :=
  if overlap < 0 ∨ overlap ≥ size then size / 8 else overlap

/-- `step` after its fallback. -/
def machineStep (size overlap : Int64) : Int64 :=
  let step := size - overlap
  if step ≤ 0 then size else step

/-- `Split`. -/
def machineSplit (fuel : Nat) (text : Text) (size overlap : Int64) : Run :=
  let text := trimSpace text
  if text = [] then ⟨[], [], .returned⟩
  else
    let size := machineSize size
    let overlap := machineOverlap size overlap
    let words := splitWords text
    if words = [] then ⟨[], [], .returned⟩
    else machineLoop words size (machineStep size overlap) fuel 0

/-! ## Before the loop -/

theorem toInt_machineSize (size : Int64) : (machineSize size).toInt = effectiveSize size.toInt := by
  unfold machineSize effectiveSize
  simp only [Int64.le_iff_toInt_le, Int64.toInt_zero]
  split
  · rfl
  · rfl

/-- `size/8` does not wrap. -/
theorem toInt_div_eight (size : Int64) : (size / 8).toInt = size.toInt.tdiv 8 :=
  Int64.toInt_div_of_ne_right size 8 (by decide)

theorem toInt_machineOverlap (size overlap : Int64) :
    (machineOverlap size overlap).toInt = effectiveOverlap size.toInt overlap.toInt := by
  unfold machineOverlap effectiveOverlap
  simp only [Int64.lt_iff_toInt_lt, Int64.toInt_zero, ge_iff_le, Int64.le_iff_toInt_le]
  split
  · exact toInt_div_eight size
  · rfl

/-- A sum of two numbers of words that is one does not wrap. -/
theorem toInt_add_of_lt {x y : Int64} {a b : Nat} (hx : x.toInt = a) (hy : y.toInt = b)
    (h : a + b < 2 ^ 63) : (x + y).toInt = (a + b : Nat) := by
  rw [Int64.toInt_add, hx, hy]
  exact Int.bmod_eq_of_le (by omega) (by omega)

section Effective
variable {size overlap : Int64} {s o : Nat} (hs : size.toInt = s) (ho : overlap.toInt = o)
include hs ho

/-- `size - overlap` does not wrap. -/
theorem toInt_sub_overlap (hlt : o < s) : (size - overlap).toInt = (s - o : Nat) := by
  have hmax := Int64.toInt_lt size
  rw [Int64.toInt_sub, hs, ho, Int.bmod_eq_of_le (by omega) (by omega)]
  omega

/-- The step is positive, so its fallback is not taken. -/
theorem machineStep_eq (hlt : o < s) : machineStep size overlap = size - overlap := by
  have hstep := toInt_sub_overlap hs ho hlt
  unfold machineStep
  dsimp only
  rw [if_neg]
  rw [Int64.le_iff_toInt_le, hstep, Int64.toInt_zero]
  omega

end Effective

/-! ## The loop -/

/-- Nothing wraps in an iteration, and its slice is in range. -/
structure Iteration.Safe (words : List Text) (size step : Int64) (it : Iteration) : Prop where
  /-- `start+size`. -/
  sum : (it.start + size).toInt = it.start.toInt + size.toInt
  /-- `start+=step`. -/
  next : (it.start + step).toInt = it.start.toInt + step.toInt
  nonneg : 0 ≤ it.start.toInt
  lt : it.start.toInt < it.stop.toInt
  le : it.stop.toInt ≤ words.length

/-- Iteration number `i`. -/
def iteration (words : List Text) (s o i : Nat) : Iteration :=
  ⟨Int64.ofNat (i * (s - o)), Int64.ofNat (min (i * (s - o) + s) words.length)⟩

section Loop
variable {words : List Text} {size step : Int64} {s o k i : Nat}
  (hcount : Count words.length s (s - o) k) (hn : 1 ≤ words.length)
  (hwords : 2 * words.length ≤ 2 ^ 63)

include hwords

theorem toInt_machineLen : (machineLen words).toInt = words.length :=
  Int64.toInt_ofNat_of_lt (by omega)

theorem toInt_stop (s o i : Nat) :
    (iteration words s o i).stop.toInt = (min (i * (s - o) + s) words.length : Nat) :=
  Int64.toInt_ofNat_of_lt (by omega)

include hcount hn

theorem toInt_start (hi : i < k) : (iteration words s o i).start.toInt = (i * (s - o) : Nat) := by
  have hstart := hcount.start_lt hn (Nat.sub_le s o) hi
  exact Int64.toInt_ofNat_of_lt (by omega)

/-- **`start+size` does not wrap**: whoever comes to a second iteration has a `size`
below the number of words. -/
theorem toInt_start_add_size (hsize : size.toInt = s) (hi : i < k) :
    ((iteration words s o i).start + size).toInt = (i * (s - o) + s : Nat) := by
  have hmax := Int64.toInt_lt size
  refine toInt_add_of_lt (toInt_start hcount hn hwords hi) hsize ?_
  cases i with
  | zero => omega
  | succ i =>
    have hstart := hcount.start_lt hn (Nat.sub_le s o) hi
    have hbefore := hcount.lt hi
    omega

/-- `start+=step` does not wrap either. -/
theorem toInt_start_add_step (hsize : size.toInt = s) (hstep : step.toInt = (s - o : Nat))
    (hi : i < k) : ((iteration words s o i).start + step).toInt = (i * (s - o) + (s - o) : Nat) := by
  have hsum := toInt_start_add_size hcount hn hwords hsize hi
  have hmax := Int64.toInt_lt ((iteration words s o i).start + size)
  exact toInt_add_of_lt (toInt_start hcount hn hwords hi) hstep (by omega)

theorem iteration_safe (hlt : o < s) (hsize : size.toInt = s) (hstep : step.toInt = (s - o : Nat))
    (hi : i < k) : (iteration words s o i).Safe words size step := by
  have hstart := toInt_start hcount hn hwords hi
  have hstop := toInt_stop hwords s o i
  have hstart_lt := hcount.start_lt hn (Nat.sub_le s o) hi
  constructor
  · rw [toInt_start_add_size hcount hn hwords hsize hi, hstart, hsize]
    omega
  · rw [toInt_start_add_step hcount hn hwords hsize hstep hi, hstart, hstep]
    omega
  · rw [hstart]
    omega
  · rw [hstart, hstop]
    omega
  · rw [hstop]
    omega

/-- The end, after it has been clamped. -/
theorem clamp_eq (hsize : size.toInt = s) (hi : i < k) :
    (if (iteration words s o i).start + size > machineLen words then machineLen words
      else (iteration words s o i).start + size) = (iteration words s o i).stop := by
  have hsum := toInt_start_add_size hcount hn hwords hsize hi
  have hlen := toInt_machineLen hwords
  apply Int64.toInt_inj.mp
  rw [toInt_stop hwords]
  split
  · rename_i hgt
    rw [gt_iff_lt, Int64.lt_iff_toInt_lt, hsum, hlen] at hgt
    omega
  · rename_i hle
    rw [gt_iff_lt, Int64.lt_iff_toInt_lt, hsum, hlen] at hle
    omega

/-- The slice is in range, and is a window. -/
theorem slice_eq (hi : i < k) :
    slice words (iteration words s o i).start (iteration words s o i).stop =
      some (window words s (s - o) i) := by
  have hstart := toInt_start hcount hn hwords hi
  have hstop := toInt_stop hwords s o i
  have hlt := hcount.start_lt hn (Nat.sub_le s o) hi
  unfold slice
  rw [if_pos, hstart, take_drop_eq_window words s (s - o) i]
  · rw [hstop]
    omega
  · simp only [Int64.le_iff_toInt_le, hstart, hstop, toInt_machineLen hwords, Int64.toInt_zero]
    omega

/-- **The loop goes through the windows**, from number `i` to the last one, where it
breaks. -/
theorem machineLoop_eq (hsize : size.toInt = s) (hstep : step.toInt = (s - o : Nat)) (fuel i : Nat)
    (hi : i < k) (hfuel : k ≤ i + fuel) :
    machineLoop words size step fuel (iteration words s o i).start =
      { iterations := (List.range' i (k - i)).map (iteration words s o)
        chunks := (List.range' i (k - i)).map fun j => joinWords (window words s (s - o) j)
        exit := .reached } := by
  induction fuel generalizing i with
  | zero => omega
  | succ fuel ih =>
    have hstart := toInt_start hcount hn hwords hi
    have hstop := toInt_stop hwords s o i
    have hlen := toInt_machineLen hwords
    have hlt := hcount.start_lt hn (Nat.sub_le s o) hi
    have hentered : (iteration words s o i).start < machineLen words := by
      rw [Int64.lt_iff_toInt_lt, hstart, hlen]
      omega
    rw [machineLoop, if_pos hentered]
    dsimp only
    rw [clamp_eq hcount hn hwords hsize hi, slice_eq hcount hn hwords hi]
    dsimp only
    have hlast : (iteration words s o i).stop = machineLen words ↔ words.length ≤ i * (s - o) + s := by
      rw [← Int64.toInt_inj, hstop, hlen]
      omega
    obtain ⟨m, hm⟩ : ∃ m, k - i = m + 1 := ⟨k - i - 1, by omega⟩
    rw [hm, List.range'_succ]
    by_cases hnext : i + 1 < k
    · -- the window ends before the last word, so the loop goes on
      have hbefore := hcount.lt hnext
      have hsucc : (iteration words s o i).start + step = (iteration words s o (i + 1)).start := by
        apply Int64.toInt_inj.mp
        rw [toInt_start_add_step hcount hn hwords hsize hstep hi, toInt_start hcount hn hwords hnext,
          Nat.succ_mul]
      have hm' : k - (i + 1) = m := by omega
      rw [if_neg (mt hlast.mp (by omega)), hsucc, ih (i + 1) hnext (by omega), hm']
      rfl
    · obtain rfl : k = i + 1 := by omega
      obtain rfl : m = 0 := by omega
      rw [if_pos (hlast.mpr hcount.le)]
      rfl

end Loop

/-! ## `Split` -/

section Split
variable {bytes : List UInt8} (hbytes : bytes.length ≤ 2 ^ 63 - 1) (size overlap : Int64)

include hbytes

theorem two_mul_words_le : 2 * (splitWords (runes bytes)).length ≤ 2 ^ 63 := by
  have hle := two_mul_length_splitWords_le bytes
  omega

/-- **A text with words is cut by the loop**, window after window. -/
theorem machineSplit_reached {s o k fuel : Nat} (hs : (machineSize size).toInt = s)
    (ho : (machineOverlap (machineSize size) overlap).toInt = o) (hlt : o < s)
    (hne : splitWords (runes bytes) ≠ []) (hk : Count (splitWords (runes bytes)).length s (s - o) k)
    (hfuel : k ≤ fuel) :
    machineSplit fuel (runes bytes) size overlap =
      { iterations := (List.range k).map (iteration (splitWords (runes bytes)) s o)
        chunks := (List.range k).map fun i => joinWords (window (splitWords (runes bytes)) s (s - o) i)
        exit := .reached } := by
  have htext : trimSpace (runes bytes) ≠ [] := by
    intro htext
    rw [← splitWords_trimSpace, htext] at hne
    exact hne rfl
  have hstep := machineStep_eq hs ho hlt
  have hloop := machineLoop_eq hk (List.length_pos_of_ne_nil hne) (two_mul_words_le hbytes) hs
    (toInt_sub_overlap hs ho hlt) fuel 0 hk.1.1 (by omega)
  have hzero : (iteration (splitWords (runes bytes)) s o 0).start = 0 := by simp [iteration]
  unfold machineSplit
  dsimp only
  rw [if_neg htext, splitWords_trimSpace, if_neg hne, hstep]
  rw [hzero] at hloop
  rw [hloop, List.range_eq_range', Nat.sub_zero]

/-- **The machine code refines the model** over the unbounded integers. -/
theorem machineSplit_eq {fuel : Nat} (hfuel : (splitWords (runes bytes)).length ≤ fuel) :
    (machineSplit fuel (runes bytes) size overlap).chunks =
      split (runes bytes) size.toInt overlap.toInt := by
  obtain ⟨s, o, hs, ho, -, hlt⟩ := exists_effective size.toInt overlap.toInt
  by_cases hne : splitWords (runes bytes) = []
  · rw [split_eq_splitLoop hs ho hlt, if_pos hne]
    unfold machineSplit
    dsimp only
    rw [splitWords_trimSpace, if_pos hne]
    split <;> rfl
  · have hn : 1 ≤ (splitWords (runes bytes)).length := List.length_pos_of_ne_nil hne
    obtain ⟨k, hk, hsplit⟩ := split_eq_windows hs ho hlt hne
    have hkn := hk.le_length hn (by omega) (by omega)
    have hsize : (machineSize size).toInt = s := (toInt_machineSize size).trans hs.symm
    have hoverlap : (machineOverlap (machineSize size) overlap).toInt = o := by
      rw [toInt_machineOverlap, toInt_machineSize, ← ho]
    rw [machineSplit_reached hbytes size overlap hsize hoverlap hlt hne hk (by omega), hsplit]

end Split

/-- **The machine arithmetic of `Split` is safe**, for every string that Go can hold and
all sizes and overlaps: nothing wraps, the slices are in range, the fallback of `step`
is not taken, and the loop, which starts at 0, advances by `step` and yields the chunks of
`split`, ends by its `break` after at most `len(words)` iterations. -/
theorem split_arithmetic_safe (bytes : List UInt8) (hbytes : bytes.length ≤ 2 ^ 63 - 1)
    (size overlap : Int64) (words : List Text) (hwords : words = splitWords (trimSpace (runes bytes)))
    (s o : Int64) (hs : s = machineSize size) (ho : o = machineOverlap s overlap) :
    (machineLen words).toInt = words.length ∧ (s / 8).toInt = s.toInt.tdiv 8 ∧
      (s - o).toInt = s.toInt - o.toInt ∧ ¬ s - o ≤ 0 ∧
      ∀ fuel, words.length ≤ fuel →
        (machineSplit fuel (runes bytes) size overlap).chunks =
          split (runes bytes) size.toInt overlap.toInt ∧
        (machineSplit fuel (runes bytes) size overlap).exit =
          (if words = [] then .returned else .reached) ∧
        (machineSplit fuel (runes bytes) size overlap).iterations.length ≤ words.length ∧
        (∀ (i : Nat) it, (machineSplit fuel (runes bytes) size overlap).iterations[i]? = some it →
          it.start.toInt = i * (s - o).toInt ∧
            it.stop.toInt = min (it.start.toInt + s.toInt) words.length) ∧
        ∀ it ∈ (machineSplit fuel (runes bytes) size overlap).iterations,
          it.Safe words s (machineStep s o) := by
  rw [splitWords_trimSpace] at hwords
  subst hwords hs ho
  have htwo := two_mul_words_le hbytes
  obtain ⟨a, b, ha, hb, -, hlt⟩ := exists_effective size.toInt overlap.toInt
  have hsize : (machineSize size).toInt = a := (toInt_machineSize size).trans ha.symm
  have hoverlap : (machineOverlap (machineSize size) overlap).toInt = b := by
    rw [toInt_machineOverlap, toInt_machineSize, ← hb]
  have hstep := toInt_sub_overlap hsize hoverlap hlt
  refine ⟨toInt_machineLen htwo, toInt_div_eight _, ?_, ?_, fun fuel hfuel =>
    ⟨machineSplit_eq hbytes size overlap hfuel, ?_⟩⟩
  · rw [hstep, hsize, hoverlap]
    omega
  · rw [Int64.le_iff_toInt_le, hstep, Int64.toInt_zero]
    omega
  by_cases hne : splitWords (runes bytes) = []
  · have hrun : machineSplit fuel (runes bytes) size overlap = ⟨[], [], .returned⟩ := by
      unfold machineSplit
      dsimp only
      rw [splitWords_trimSpace, if_pos hne]
      exact ite_self _
    rw [hrun, if_pos hne]
    exact ⟨rfl, Nat.zero_le _, by simp, by simp⟩
  · have hn : 1 ≤ (splitWords (runes bytes)).length := List.length_pos_of_ne_nil hne
    obtain ⟨k, hk, -⟩ := split_eq_windows ha hb hlt hne
    have hkn := hk.le_length hn (by omega) (by omega)
    rw [machineSplit_reached hbytes size overlap hsize hoverlap hlt hne hk (by omega), if_neg hne]
    refine ⟨rfl, by simpa using hkn, fun i it hit => ?_, fun it hit => ?_⟩
    · simp only [List.getElem?_map, Option.map_eq_some_iff] at hit
      obtain ⟨j, hj, rfl⟩ := hit
      obtain ⟨hi, rfl⟩ := List.getElem?_eq_some_iff.mp hj
      rw [List.length_range] at hi
      rw [List.getElem_range, toInt_start hk hn htwo hi, toInt_stop htwo, hstep, hsize]
      omega
    · obtain ⟨i, hi, rfl⟩ := List.mem_map.mp hit
      rw [machineStep_eq hsize hoverlap hlt]
      exact iteration_safe hk hn htwo hlt hsize hstep (List.mem_range.mp hi)

/-- The largest size, on three words. -/
theorem split_arithmetic_safe_largest : ∃ bytes, runes bytes = "a b c".toList ∧
    (machineSplit 3 (runes bytes) (2 ^ 63 - 1) (-1)).exit = .reached := by
  refine ⟨"a b c".toList.flatMap String.utf8EncodeChar, runes_utf8Encode _, ?_⟩
  have hlength : ("a b c".toList.flatMap String.utf8EncodeChar).length ≤ 2 ^ 63 - 1 := by decide
  have hwords : splitWords (trimSpace (runes ("a b c".toList.flatMap String.utf8EncodeChar))) =
      ["a".toList, "b".toList, "c".toList] := by
    rw [runes_utf8Encode]
    decide
  obtain ⟨-, hexit, -⟩ := (split_arithmetic_safe _ hlength (2 ^ 63 - 1) (-1) _ rfl _ _ rfl rfl).2.2.2.2 3
    (by rw [hwords]; decide)
  rwa [hwords] at hexit

end DigitalCip.Chunker
