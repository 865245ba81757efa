import Mathlib.Algebra.BigOperators.Group.List.Basic
import Mathlib.Algebra.GroupWithZero.Nat
import Mathlib.Order.Bounds.Basic
import Mathlib.Order.WellFounded
import Mathlib.Data.List.TakeDrop

/-!
# Sliding windows

A list is read through windows of `size` elements that start at the multiples of
`step`.  With `step ≤ size` two consecutive windows share `size - step`
elements, and as many windows as it takes to reach the end of the list hold all
of it: the least such number leaves out nothing and has no window to spare.
-/

namespace Sliding
variable {α : Type} {xs : List α} {n size step i k : Nat}

/-- Window number `i` of a list; it may be cut off by the end of the list. -/
def window (xs : List α) (size step i : Nat) : List α := (xs.drop (i * step)).take size

/-- `k` windows, of which there is at least one, reach the end of `n` elements. -/
def Reach (n size step k : Nat) : Prop := 1 ≤ k ∧ n ≤ (k - 1) * step + size

/-- The number of windows `n` elements are read through. -/
def Count (n size step k : Nat) : Prop := IsLeast {k | Reach n size step k} k

/-! ## How many windows -/

/-- With a positive step, as many windows as there are elements are enough. -/
theorem reach_length (hn : 1 ≤ n) (hstep : 1 ≤ step) (hsize : 1 ≤ size) : Reach n size step n := by
  refine ⟨hn, ?_⟩
  have hle : n - 1 ≤ (n - 1) * step := Nat.le_mul_of_pos_right _ hstep
  omega

theorem exists_count (hn : 1 ≤ n) (hstep : 1 ≤ step) (hsize : 1 ≤ size) :
    ∃ k, Count n size step k := by
  have hsome : ({k | Reach n size step k} : Set Nat).Nonempty := ⟨n, reach_length hn hstep hsize⟩
  obtain ⟨k, hk, hmin⟩ := WellFounded.has_min Nat.lt_wfRel.wf _ hsome
  exact ⟨k, hk, fun k' hk' => not_lt.mp (hmin k' hk')⟩

theorem Count.le_length (h : Count n size step k) (hn : 1 ≤ n) (hstep : 1 ≤ step)
    (hsize : 1 ≤ size) : k ≤ n :=
  h.2 (reach_length hn hstep hsize)

/-- A window that is not the last one does not reach the end. -/
theorem Count.lt (h : Count n size step k) (hi : i + 1 < k) : i * step + size < n := by
  by_contra hle
  have hreach : Reach n size step (i + 1) := ⟨Nat.le_add_left 1 i, not_lt.mp hle⟩
  have hk : k ≤ i + 1 := h.2 hreach
  omega

/-- The last window does. -/
theorem Count.le (h : Count n size step (i + 1)) : n ≤ i * step + size := h.1.2

/-- Every window starts before the end. -/
theorem Count.start_lt (h : Count n size step k) (hn : 1 ≤ n) (hle : step ≤ size) (hi : i < k) :
    i * step < n := by
  cases i with
  | zero => omega
  | succ i =>
    have hlt := h.lt hi
    rw [Nat.succ_mul]
    omega

/-! ## What is in a window -/

theorem length_window : (window xs size step i).length = min size (xs.length - i * step) := by
  simp [window]

/-- A window is a stretch of the list. -/
theorem window_eq (xs : List α) (size step i : Nat) :
    window xs size step i = (xs.take (min (i * step + size) xs.length)).drop (i * step) := by
  rw [List.drop_take, window]
  rcases Nat.le_total (i * step + size) xs.length with hle | hle
  · rw [Nat.min_eq_left hle, Nat.add_sub_cancel_left]
  · rw [Nat.min_eq_right hle, List.take_of_length_le (by rw [List.length_drop]; omega),
      List.take_of_length_le (by rw [List.length_drop])]

/-- The end of one window is the start of the next. -/
theorem drop_window (xs : List α) (size step i : Nat) :
    (window xs size step i).drop step = (window xs size step (i + 1)).take (size - step) := by
  have hstart : i * step + step = (i + 1) * step := (Nat.succ_mul i step).symm
  rw [window, window, List.drop_take, List.drop_drop, hstart, List.take_take,
    Nat.min_eq_left (Nat.sub_le size step)]

/-- What a window adds to the windows before it. -/
theorem take_window (hle : step ≤ size) :
    xs.take (i * step + size) ++ (window xs size step (i + 1)).drop (size - step) =
      xs.take ((i + 1) * step + size) := by
  have hsplit : (i + 1) * step + size = (i * step + size) + step := by
    rw [Nat.succ_mul]
    omega
  have hstart : (i + 1) * step + (size - step) = i * step + size := by
    rw [Nat.succ_mul]
    omega
  rw [window, List.drop_take, List.drop_drop, hstart, hsplit, Nat.sub_sub_self hle]
  exact List.take_add.symm

/-- The windows up to number `i`, put together without what they share. -/
theorem window_append (hle : step ≤ size) (i : Nat) :
    window xs size step 0 ++
      ((List.range i).map fun j => (window xs size step (j + 1)).drop (size - step)).flatten =
        xs.take (i * step + size) := by
  induction i with
  | zero => simp [window]
  | succ i ih =>
    rw [List.range_succ, List.map_append, List.flatten_append, ← List.append_assoc, ih]
    simpa using take_window hle

namespace Count
variable (h : Count xs.length size step k)
include h

/-- Every window but the last one is full. -/
theorem length_full (hi : i + 1 < k) : (window xs size step i).length = size := by
  have hlt := h.lt hi
  rw [length_window]
  omega

/-- Two consecutive windows share `size - step` elements. -/
theorem length_shared (hi : i + 1 < k) :
    ((window xs size step i).drop step).length = size - step := by
  rw [List.length_drop, h.length_full hi]

/-- The last of several windows has elements that the one before does not have. -/
theorem length_last (hk : 1 < k) (hle : step ≤ size) (hlt : 1 ≤ step) :
    size - step < (window xs size step (k - 1)).length := by
  obtain ⟨i, rfl⟩ : ∃ i, k = i + 2 := ⟨k - 2, by omega⟩
  have hend := h.lt (i := i) (by omega)
  show size - step < (window xs size step (i + 1)).length
  rw [length_window, Nat.succ_mul]
  omega

/-- No window is empty. -/
theorem length_pos (hn : 1 ≤ xs.length) (hsize : 1 ≤ size) (hle : step ≤ size) (hi : i < k) :
    1 ≤ (window xs size step i).length := by
  have hstart := h.start_lt hn hle hi
  rw [length_window]
  omega

/-- The windows count every element once, and what they share once more. -/
theorem sum_length (hn : 1 ≤ xs.length) (hle : step ≤ size) :
    ((List.range k).map fun i => (window xs size step i).length).sum =
      xs.length + (k - 1) * (size - step) := by
  obtain ⟨m, rfl⟩ : ∃ m, k = m + 1 := ⟨k - 1, by have hk : 1 ≤ k := h.1.1; omega⟩
  have hfull : ∀ i ∈ List.range m, (window xs size step i).length = size := by
    intro i hi
    have him := List.mem_range.mp hi
    exact h.length_full (by omega)
  have hstart := h.start_lt hn hle (Nat.lt_succ_self m)
  have hend := h.le
  have hsize : m * size = m * step + m * (size - step) := by
    rw [← Nat.mul_add, Nat.add_sub_cancel' hle]
  have hsum : ((List.range m).map fun i => (window xs size step i).length).sum = m * size := by
    rw [List.map_congr_left hfull, List.map_const', List.sum_replicate, List.length_range]
    rfl
  have hlast : (window xs size step m).length = xs.length - m * step := by
    rw [length_window]
    omega
  rw [List.range_succ, List.map_append, List.sum_append, hsum, List.map_singleton,
    List.sum_singleton, hlast, Nat.add_sub_cancel, hsize]
  omega

/-- **Nothing is left out**: the first window, and of each further one what it does
not share with the one before, make up the list. -/
theorem lossless (hle : step ≤ size) :
    window xs size step 0 ++
      ((List.range (k - 1)).map fun j => (window xs size step (j + 1)).drop (size - step)).flatten =
        xs := by
  rw [window_append hle]
  exact List.take_of_length_le h.1.2

end Count
end Sliding
