import Mathlib.Algebra.Order.Interval.Set.Group
import Mathlib.Algebra.Order.Ring.Int
import Mathlib.Data.Int.Cast.Basic
import Mathlib.Data.Int.ConditionallyCompleteOrder
import Mathlib.Order.CompletePartialOrder
import Mathlib.Order.ConditionallyCompleteLattice.Finset
import Mathlib.Order.Interval.Set.Disjoint
import Rucbase.Lib.Bytes

/-!
# Arrays in memory

The elements of an array have one size and stand one behind the other from its base on. Each of them
is a half-open interval of addresses (`cell`). Cells with different indices are disjoint, and the
cells of the first `count` indices lie between the base and the end of the array.

A block that is copied into a buffer is read back from where it was put, and a block that does not
meet it is read as before.
-/

namespace Rucbase.Lib

/-- The addresses of the element `i` of an array. -/
def cell (base size i : ℤ) : Set ℤ := Set.Ico (base + i * size) (base + i * size + size)

section Cell

variable {base size count i j : ℤ}

theorem cell_subset (hsize : 0 ≤ size) (hi : 0 ≤ i) (hcount : i < count) :
    cell base size i ⊆ Set.Ico base (base + count * size) := by
  have hfront : 0 ≤ i * size := Int.mul_nonneg hi hsize
  have hback : (i + 1) * size ≤ count * size := Int.mul_le_mul_of_nonneg_right hcount hsize
  rw [Int.add_mul, Int.one_mul] at hback
  exact Set.Ico_subset_Ico (by omega) (by omega)

theorem disjoint_cell (hne : i ≠ j) : Disjoint (cell base size i) (cell base size j) := by
  have hcell (k : ℤ) : cell base size k = Set.Ico (base + k • size) (base + (k + 1) • size) := by
    rw [cell, zsmul_eq_mul, zsmul_eq_mul, Int.cast_id, Int.cast_id, Int.add_mul, Int.one_mul,
      Int.add_assoc]
  rw [hcell, hcell]
  exact Set.pairwise_disjoint_Ico_add_zsmul base size hne

end Cell

section Copy

variable {α : Type} {dst src : List α} {offset start n : ℕ}

theorem length_memcpy (h : offset + src.length ≤ dst.length) :
    (memcpy dst offset src).length = dst.length := by
  unfold memcpy
  rw [List.length_append, List.length_append, List.length_take, List.length_drop]
  omega

theorem getElem?_slice (l : List α) (k : ℕ) :
    (slice l start n)[k]? = if k < n then l[start + k]? else none := by
  rw [slice, List.getElem?_take, List.getElem?_drop]

/-- A buffer into which a block was copied. -/
theorem getElem?_memcpy (h : offset + src.length ≤ dst.length) (k : ℕ) :
    (memcpy dst offset src)[k]? =
      if offset ≤ k ∧ k < offset + src.length then src[k - offset]? else dst[k]? := by
  have htake : (dst.take offset).length = offset := by
    rw [List.length_take]
    omega
  unfold memcpy
  rcases Nat.lt_or_ge k offset with hk | hk
  · have hout : ¬(offset ≤ k ∧ k < offset + src.length) := by omega
    rw [if_neg hout, List.append_assoc, List.getElem?_append_left (by omega),
      List.getElem?_take_of_lt hk]
  rcases Nat.lt_or_ge k (offset + src.length) with hlt | hge
  · rw [if_pos ⟨hk, hlt⟩, List.append_assoc, List.getElem?_append_right (by omega), htake,
      List.getElem?_append_left (by omega)]
  · have hout : ¬(offset ≤ k ∧ k < offset + src.length) := by omega
    have hfront : (dst.take offset ++ src).length = offset + src.length := by
      rw [List.length_append, htake]
    rw [if_neg hout, List.getElem?_append_right (by omega), hfront, List.getElem?_drop]
    congr 1
    omega

/-- A block that was copied into a buffer is read back. -/
theorem slice_memcpy (h : offset + src.length ≤ dst.length) :
    slice (memcpy dst offset src) offset src.length = src := by
  apply List.ext_getElem?
  intro k
  rw [getElem?_slice, getElem?_memcpy h]
  split_ifs with hk hin
  · rw [Nat.add_sub_cancel_left]
  · omega
  · rw [List.getElem?_eq_none (by omega)]

/-- A block that does not meet the one that was copied is read as before. -/
theorem slice_memcpy_of_disjoint (h : offset + src.length ≤ dst.length)
    (hdisjoint : start + n ≤ offset ∨ offset + src.length ≤ start) :
    slice (memcpy dst offset src) start n = slice dst start n := by
  apply List.ext_getElem?
  intro k
  rw [getElem?_slice, getElem?_slice, getElem?_memcpy h]
  split_ifs with hk hin
  · omega
  · rfl
  · rfl

end Copy

end Rucbase.Lib
