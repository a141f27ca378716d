import Rucbase.Optimizer.Planner

/-!
# Which index a scan takes

`choose_index` (`src/optimizer/planner.cpp`) goes over the indexes of a table and keeps the columns
of the largest one so far whose columns are all compared with a literal for equality. Behind any
part of the loop, the columns kept are those of the first index of the largest size in that part
(`Kept`), so at its end they are those of an index that is largest in the table and first among its
equals: `chooseIndex_largest`. The conditions are only asked whether they hold one of a kind, so
their order and number do not matter.
-/

namespace Rucbase

open Lib

/-- The condition is `table.column = literal`. -/
def Condition.IsEqualityOn (cond : Condition) (table column : Bytes) : Prop :=
  cond.isRhsVal = true ∧ cond.op = .eq ∧ cond.lhsCol.tabName = table ∧ cond.lhsCol.colName = column

namespace Planner

/-- Each column of the index is compared with a literal for equality. -/
def Usable (table : Bytes) (conds : List Condition) (index : IndexMeta) : Prop :=
  ∀ column ∈ index.cols, ∃ cond ∈ conds, cond.IsEqualityOn table column.name

/-- The index has columns and is usable; the usable ones before it are smaller, and those behind it
not larger. -/
structure FirstLargest (usable : IndexMeta → Prop) (indexes : List IndexMeta) (index : IndexMeta) :
    Prop where
  cols_ne : index.cols ≠ []
  is_usable : usable index
  split : ∃ before after, indexes = before ++ index :: after ∧
    (∀ other ∈ before, usable other → other.cols.length < index.cols.length) ∧
    ∀ other ∈ after, usable other → other.cols.length ≤ index.cols.length

/-- What the loop has kept when it has gone over some indexes. -/
def Kept (usable : IndexMeta → Prop) (passed : List IndexMeta) (indexColumns : List Bytes) : Prop :=
  (indexColumns = [] ∧ ∀ index ∈ passed, usable index → index.cols = []) ∨
    ∃ index, FirstLargest usable passed index ∧ indexColumns = index.colNames

section Kept

variable {usable : IndexMeta → Prop} {passed : List IndexMeta} {indexColumns : List Bytes}
  {index other : IndexMeta}

theorem length_colNames (index : IndexMeta) : index.colNames.length = index.cols.length :=
  List.length_map ..

theorem FirstLargest.mem (h : FirstLargest usable passed index) : index ∈ passed := by
  obtain ⟨before, after, rfl, -⟩ := h.split
  simp

/-- No usable index is larger. -/
theorem FirstLargest.le (h : FirstLargest usable passed index) (hother : other ∈ passed)
    (husable : usable other) : other.cols.length ≤ index.cols.length := by
  obtain ⟨before, after, rfl, hbefore, hafter⟩ := h.split
  rw [List.mem_append, List.mem_cons] at hother
  rcases hother with hmem | rfl | hmem
  · exact (hbefore other hmem husable).le
  · exact le_rfl
  · exact hafter other hmem husable

/-- The columns kept are those of the largest index, or there is none. -/
theorem Kept.length_le (h : Kept usable passed indexColumns) (hother : other ∈ passed)
    (husable : usable other) : other.cols.length ≤ indexColumns.length := by
  rcases h with ⟨-, hnone⟩ | ⟨index, hlargest, rfl⟩
  · rw [hnone other hother husable]
    exact Nat.zero_le _
  · rw [length_colNames]
    exact hlargest.le hother husable

/-- An index that is not usable, or not larger than the one kept, changes nothing. -/
theorem Kept.skip (h : Kept usable passed indexColumns)
    (hskip : usable index → index.cols.length ≤ indexColumns.length) :
    Kept usable (passed ++ [index]) indexColumns := by
  rcases h with ⟨rfl, hnone⟩ | ⟨best, hlargest, rfl⟩
  · refine .inl ⟨rfl, List.forall_mem_append.mpr ⟨hnone, ?_⟩⟩
    simpa using hskip
  · rw [length_colNames] at hskip
    obtain ⟨before, after, rfl, hbefore, hafter⟩ := hlargest.split
    refine .inr ⟨best, ⟨hlargest.cols_ne, hlargest.is_usable, before, after ++ [index], ?_, hbefore,
      ?_⟩, rfl⟩
    · rw [List.append_assoc, List.cons_append]
    · exact List.forall_mem_append.mpr ⟨hafter, by simpa using hskip⟩

/-- A usable index that is larger than the one kept takes its place. -/
theorem Kept.take (h : Kept usable passed indexColumns) (husable : usable index)
    (hlarger : indexColumns.length < index.cols.length) :
    Kept usable (passed ++ [index]) index.colNames := by
  have hne : index.cols ≠ [] := List.ne_nil_of_length_pos (Nat.zero_lt_of_lt hlarger)
  refine .inr ⟨index, ⟨hne, husable, passed, [], rfl, ?_, by simp⟩, rfl⟩
  exact fun other hother hother' => (h.length_le hother hother').trans_lt hlarger

end Kept

theorem usable_iff {table : Bytes} {conds : List Condition} {index : IndexMeta} :
    index.cols.all (hasEqualityCondition table conds) = true ↔ Usable table conds index := by
  simp only [List.all_eq_true, hasEqualityCondition, List.any_eq_true, Bool.and_eq_true,
    beq_iff_eq, and_assoc]
  rfl

/-- `choose_index` returns what its loop keeps of all indexes. -/
theorem chooseIndex_kept {db : DbMeta} {table : Bytes} {tab : TabMeta}
    (htab : db.getTable table = .ok tab) (conds : List Condition) :
    ∃ indexColumns, chooseIndex db table conds = .ok (!indexColumns.isEmpty, indexColumns) ∧
      Kept (Usable table conds) tab.indexes indexColumns := by
  refine ⟨_, by rw [chooseIndex, htab, ok_bind]; rfl, ?_⟩
  generalize tab.indexes = indexes
  -- The loop goes from the left, so the induction is on the last index.
  induction indexes using List.reverseRecOn with
  | nil => exact .inl ⟨rfl, by simp⟩
  | append_singleton passed index ih =>
    rw [List.foldl_concat]
    dsimp only
    split_ifs with hskip
    · refine ih.skip fun husable => ?_
      rcases hskip with hunmatched | hle
      · rw [usable_iff.mpr husable] at hunmatched
        exact absurd hunmatched (by decide)
      · exact hle
    · rw [not_or, Bool.not_eq_false, usable_iff, not_le] at hskip
      exact ih.take hskip.1 hskip.2

theorem usable_congr {table : Bytes} {conds conds' : List Condition}
    (h : ∀ cond, cond ∈ conds' ↔ cond ∈ conds) (column : ColMeta) :
    hasEqualityCondition table conds' column = hasEqualityCondition table conds column := by
  rw [Bool.eq_iff_iff]
  simp only [hasEqualityCondition, List.any_eq_true, h]

/-- `choose_index` chooses an index exactly when one is usable, and then the first of the largest
ones, which `get_index_meta` finds by its columns. Only which conditions there are matters. -/
theorem chooseIndex_largest {db : DbMeta} {table : Bytes} {tab : TabMeta}
    (htab : db.getTable table = .ok tab) (conds : List Condition) :
    ∃ useIndex indexColumns, chooseIndex db table conds = .ok (useIndex, indexColumns) ∧
      (useIndex = true ↔ ∃ index ∈ tab.indexes, index.cols ≠ [] ∧ Usable table conds index) ∧
      (useIndex = true →
        (∃ index, FirstLargest (Usable table conds) tab.indexes index ∧
          indexColumns = index.colNames) ∧
        ∃ found, tab.getIndexMeta indexColumns = .ok found ∧ found ∈ tab.indexes ∧
          found.colNames = indexColumns) ∧
      ∀ conds' : List Condition, (∀ cond, cond ∈ conds' ↔ cond ∈ conds) →
        chooseIndex db table conds' = .ok (useIndex, indexColumns) := by
  obtain ⟨indexColumns, hrun, hkept⟩ := chooseIndex_kept htab conds
  have hchosen : (!indexColumns.isEmpty) = true →
      ∃ index, FirstLargest (Usable table conds) tab.indexes index ∧
        indexColumns = index.colNames := by
    intro huse
    rcases hkept with ⟨rfl, -⟩ | hlargest
    · simp at huse
    · exact hlargest
  refine ⟨_, indexColumns, hrun, ⟨?_, ?_⟩, fun huse => ⟨hchosen huse, ?_⟩, ?_⟩
  · intro huse
    obtain ⟨index, hlargest, -⟩ := hchosen huse
    exact ⟨index, hlargest.mem, hlargest.cols_ne, hlargest.is_usable⟩
  · rintro ⟨index, hmem, hne, husable⟩
    have hle := hkept.length_le hmem husable
    have hpos := List.length_pos_iff.mpr hne
    have hcolumns : indexColumns ≠ [] := List.ne_nil_of_length_pos (by omega)
    simpa using hcolumns
  · obtain ⟨index, hlargest, rfl⟩ := hchosen huse
    have hfound : (tab.indexes.find? (TabMeta.matchesIndex · index.colNames)).isSome := by
      rw [List.find?_isSome]
      exact ⟨index, hlargest.mem, by simp [TabMeta.matchesIndex]⟩
    obtain ⟨found, hfound⟩ := Option.isSome_iff_exists.mp hfound
    refine ⟨found, by rw [TabMeta.getIndexMeta, hfound]; rfl, List.mem_of_find?_eq_some hfound, ?_⟩
    simpa [TabMeta.matchesIndex] using List.find?_some hfound
  · intro conds' hsame
    have hcongr : hasEqualityCondition table conds' = hasEqualityCondition table conds :=
      funext (usable_congr hsame)
    rw [← hrun]
    unfold chooseIndex
    rw [hcongr]

/-- With an equality on each of two columns, the index on both is chosen, not the one before it. -/
theorem chooseIndex_largest_enrolment :
    let conds : List Condition :=
      [⟨⟨text "enrolment", text "course"⟩, .eq, true, ⟨[], []⟩, ⟨.string, 0, text "Lean", none⟩⟩,
        ⟨⟨text "enrolment", text "student"⟩, .eq, true, ⟨[], []⟩, ⟨.int, 7, [], none⟩⟩]
    enrolmentDb.getTable (text "enrolment") = .ok enrolmentTable ∧
      chooseIndex enrolmentDb (text "enrolment") conds = .ok (true, enrolment.colNames) ∧
      FirstLargest (Usable (text "enrolment") conds) enrolmentTable.indexes enrolment := by
  intro conds
  have htab : enrolmentDb.getTable (text "enrolment") = .ok enrolmentTable := by
    simp [DbMeta.getTable, enrolmentDb, DbMeta.getElem?_insert, enrolmentTable]
  obtain ⟨useIndex, indexColumns, hrun, huse, hchosen, -⟩ := chooseIndex_largest htab conds
  have hmem : enrolment ∈ enrolmentTable.indexes := by simp [enrolmentTable]
  have husable : Usable (text "enrolment") conds enrolment := by
    rw [← usable_iff]
    decide
  have htrue : useIndex = true := huse.mpr ⟨enrolment, hmem, by decide, husable⟩
  obtain ⟨⟨index, hlargest, rfl⟩, -⟩ := hchosen htrue
  -- The other index is usable too, and smaller.
  obtain rfl : index = enrolment := by
    rcases List.mem_pair.mp hlargest.mem with rfl | rfl
    · exact absurd (hlargest.le hmem husable) (by decide)
    · rfl
  exact ⟨htab, by rw [hrun, htrue], hlargest⟩

end Planner

end Rucbase
