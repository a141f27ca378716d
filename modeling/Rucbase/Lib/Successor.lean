import Mathlib.Data.List.Pairwise
import Mathlib.Order.Bounds.Basic
import Mathlib.Order.Cover

/-!
# The next element of a set

`IsNext s c stop i` says that a search of `s` above `c` finds `i`: the least element of `s` between
`c` and `stop`, or `stop` if `s` has none there. A loop over the positions behind `c` finds it,
because each of its branches is a rule (`IsNext.here`, `IsNext.skip`, `IsNext.finished`).

A walk goes from each element to the next one until the search finds nothing. It meets the elements
of `s` between its two ends, all of them, in increasing order (`Walk.mem_iff`, `Walk.pairwise`).
-/

namespace Rucbase.Lib

variable {α : Type} [LinearOrder α] {s : Set α} {c i stop : α}

/-- The least element of `s` between `c` and `stop` is `i`, or there is none and `i` is `stop`. -/
def IsNext (s : Set α) (c stop i : α) : Prop :=
  IsLeast (s ∩ Set.Ioo c stop) i ∨ s ∩ Set.Ioo c stop = ∅ ∧ i = stop

/-- The element behind `c` is in the set. -/
theorem IsNext.here (hcov : c ⋖ i) (hlt : i < stop) (hi : i ∈ s) : IsNext s c stop i := by
  left
  rw [hcov.Ioo_eq_Ico]
  exact ⟨⟨hi, le_refl i, hlt⟩, fun x hx => hx.2.1⟩

/-- The element behind `c` is not in the set, so the search goes on from there. -/
theorem IsNext.skip {r : α} (hcov : c ⋖ i) (hi : i ∉ s) (h : IsNext s i stop r) :
    IsNext s c stop r := by
  have hsame : s ∩ Set.Ioo c stop = s ∩ Set.Ioo i stop := by
    rw [hcov.Ioo_eq_Ico]
    ext x
    constructor
    · rintro ⟨hx, hle, hlt⟩
      exact ⟨hx, lt_of_le_of_ne hle fun heq => hi (heq ▸ hx), hlt⟩
    · rintro ⟨hx, hgt, hlt⟩
      exact ⟨hx, hgt.le, hlt⟩
  unfold IsNext
  rwa [hsame]

/-- There is nothing between `c` and `stop`. -/
theorem IsNext.finished (hcov : c ⋖ i) (hge : stop ≤ i) : IsNext s c stop stop := by
  right
  rw [hcov.Ioo_eq_Ico, Set.Ico_eq_empty hge.not_gt, Set.inter_empty]
  exact ⟨rfl, rfl⟩

/-- What is found before the end is in the set, and nothing of the set stands before it. -/
theorem IsNext.isLeast (h : IsNext s c stop i) (hne : i ≠ stop) :
    IsLeast (s ∩ Set.Ioo c stop) i :=
  h.resolve_right fun hnone => hne hnone.2

theorem IsNext.empty (h : IsNext s c stop stop) : s ∩ Set.Ioo c stop = ∅ :=
  h.elim (fun hleast => absurd hleast.1.2.2 (lt_irrefl stop)) And.left

/-- The elements that are met on the way from `c` to `stop`. -/
inductive Walk (s : Set α) (stop : α) : α → List α → Prop
  | nil {c : α} : IsNext s c stop stop → Walk s stop c []
  | cons {c i : α} {is : List α} :
      IsNext s c stop i → i ≠ stop → Walk s stop i is → Walk s stop c (i :: is)

/-- A walk meets the elements of the set between its ends. -/
theorem Walk.mem_iff {is : List α} (h : Walk s stop c is) (x : α) :
    x ∈ is ↔ x ∈ s ∩ Set.Ioo c stop := by
  induction h with
  | nil hnext =>
    rw [hnext.empty]
    exact iff_of_false List.not_mem_nil (Set.notMem_empty x)
  | @cons c i is hnext hne _ ih =>
    obtain ⟨⟨hi, hgt, hlt⟩, hleast⟩ := hnext.isLeast hne
    rw [List.mem_cons, ih]
    constructor
    · rintro (rfl | ⟨hx, hix, hstop⟩)
      · exact ⟨hi, hgt, hlt⟩
      · exact ⟨hx, hgt.trans hix, hstop⟩
    · rintro hx
      rcases (hleast hx).eq_or_lt with heq | hix
      · exact .inl heq.symm
      · exact .inr ⟨hx.1, hix, hx.2.2⟩

/-- A walk goes upwards. -/
theorem Walk.pairwise {is : List α} (h : Walk s stop c is) : is.Pairwise (· < ·) := by
  induction h with
  | nil => exact .nil
  | cons _ _ hwalk ih => exact .cons (fun x hx => ((hwalk.mem_iff x).mp hx).2.1) ih

end Rucbase.Lib
