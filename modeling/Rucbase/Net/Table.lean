import Rucbase.Lib.Utf8
import Rucbase.Net.Text

/-!
# The table is rectangular

Every line of a table of `n` columns is `n` cells of 19 bytes and two bytes that end it, whatever
the names and the values are, and the cells are those of the names of the columns and of the texts
of the values, in order (`tableLines`). A text of more than 16 bytes loses its end, and the loop
over continuation bytes (`cutSize`) finds the last place where it may be cut.
-/

namespace Rucbase.Wire

open Lib

/-- A line of a table of `numCols` columns, made of the cells in order. -/
structure IsLine (numCols : ℕ) (cells : List Bytes) (line : Bytes) : Prop where
  length : line.length = 19 * numCols + 2
  spells : ∃ border, line = cells.flatten ++ [border, 0x0a]
  numCells : cells.length = numCols
  cell_length : ∀ cell ∈ cells, cell.length = 19

/-- How a cell shows a value. -/
structure Shows (value cell : Bytes) : Prop where
  short : value.length ≤ 16 →
    cell = text "| " ++ List.replicate (16 - value.length) 0x20 ++ value ++ text " "
  long : 16 < value.length → ∃ size ≤ 13,
    cell = text "| " ++ List.replicate (13 - size) 0x20 ++ (value.take size ++ text "...") ++
      text " " ∧
    (ValidUtf8 value → ValidUtf8 (value.take size) ∧ IsBoundary value size ∧
      ∀ other ≤ 13, IsBoundary value other → other ≤ size)

theorem cutSize_le (value : Bytes) (size : ℕ) : cutSize value size ≤ size := by
  fun_induction cutSize value size with
  | case1 => exact le_rfl
  | case2 size byte hbyte hcont ih => exact ih.trans (Nat.le_succ size)
  | case3 | case4 => exact le_rfl

/-- The loop stops in front of a byte that is not a continuation byte, or at the start. -/
theorem cutSize_next (value : Bytes) (size : ℕ) :
    cutSize value size = 0 ∨ ∀ byte ∈ value[cutSize value size]?, ¬ IsContinuation byte := by
  fun_induction cutSize value size with
  | case1 => exact .inl rfl
  | case2 size byte hbyte hcont ih => exact ih
  | case3 size byte hbyte hcont =>
    refine .inr fun other hother => ?_
    obtain rfl : byte = other := by rwa [hbyte, Option.mem_some_iff] at hother
    exact hcont
  | case4 size hnone =>
    refine .inr fun other hother => ?_
    rw [hnone] at hother
    simp at hother

/-- The loop passes only continuation bytes. -/
theorem cutSize_passed (value : Bytes) (size : ℕ) :
    ∀ other ≤ size, cutSize value size < other → ∃ byte ∈ value[other]?, IsContinuation byte := by
  fun_induction cutSize value size with
  | case1 => exact fun other hle hlt => absurd hle (by omega)
  | case2 size byte hbyte hcont ih =>
    intro other hle hlt
    rcases Nat.le_succ_iff.mp hle with hle | rfl
    · exact ih other hle hlt
    · exact ⟨byte, hbyte, hcont⟩
  | case3 | case4 => exact fun other hle hlt => absurd hle (by omega)

/-- The loop finds the last boundary up to its start. -/
theorem isBoundary_cutSize {value : Bytes} (hvalid : ValidUtf8 value) (size : ℕ)
    (hsize : size ≤ value.length) :
    IsBoundary value (cutSize value size) ∧
      ∀ other ≤ size, IsBoundary value other → other ≤ cutSize value size := by
  have hcut : cutSize value size ≤ value.length := (cutSize_le value size).trans hsize
  constructor
  · rcases cutSize_next value size with hzero | hnext
    · rw [hzero]
      exact ⟨Nat.zero_le _, ⟨[], rfl⟩, by rwa [List.drop_zero]⟩
    · exact (isBoundary_iff hvalid hcut).mpr hnext
  · intro other hother hboundary
    by_contra hlt
    obtain ⟨byte, hbyte, hcont⟩ := cutSize_passed value size other hother (not_le.mp hlt)
    exact (isBoundary_iff hvalid hboundary.1).mp hboundary byte hbyte hcont

theorem tableCell_shows (value : Bytes) : Shows value (tableCell value) := by
  constructor
  · intro hshort
    unfold tableCell kPrettyColWidth
    rw [if_neg (not_lt.mpr hshort)]
  · intro hlong
    have hcut := cutSize_le value 13
    refine ⟨cutSize value 13, hcut, ?_, fun hvalid => ?_⟩
    · have hlength :
          (value.take (cutSize value 13) ++ text "...").length = cutSize value 13 + 3 := by
        rw [List.length_append, List.length_take_of_le (by omega)]
        rfl
      unfold tableCell kPrettyColWidth
      rw [if_pos hlong]
      dsimp only [Nat.reduceSub]
      rw [hlength, Nat.add_sub_add_right 13 3]
    · obtain ⟨hboundary, hlast⟩ := isBoundary_cutSize hvalid 13 (by omega)
      exact ⟨hboundary.2.1, hboundary, hlast⟩

theorem length_tableCell (value : Bytes) : (tableCell value).length = 19 := by
  obtain ⟨hshort, hlong⟩ := tableCell_shows value
  have hbar : (text "| ").length = 2 := rfl
  have hdots : (text "...").length = 3 := rfl
  have hblank : (text " ").length = 1 := rfl
  rcases Nat.lt_or_ge 16 value.length with hlt | hle
  · obtain ⟨size, hsize, hcell, -⟩ := hlong hlt
    have htake : (value.take size).length = size := List.length_take_of_le (by omega)
    rw [hcell]
    simp only [List.length_append, List.length_replicate, htake]
    omega
  · rw [hshort hle]
    simp only [List.length_append, List.length_replicate]
    omega

/-- Cells of 19 bytes, with a border and a newline behind them, are a line. -/
theorem isLine_flatten (cells : List Bytes) (border : UInt8)
    (h : ∀ cell ∈ cells, cell.length = 19) :
    IsLine cells.length cells (cells.flatten ++ [border, 0x0a]) := by
  refine ⟨?_, ⟨border, rfl⟩, rfl, h⟩
  rw [List.length_append, List.length_flatten, List.map_congr_left h, List.map_const',
    List.sum_replicate_nat, Nat.mul_comm]
  rfl

/-- A separator is a line of ruled cells. -/
theorem isLine_separator (numCols : ℕ) :
    IsLine numCols (List.replicate numCols (0x2b :: List.replicate 18 0x2d))
      (separator numCols) := by
  have hline := isLine_flatten
    (List.replicate numCols (0x2b :: List.replicate (kPrettyColWidth + 2) 0x2d)) 0x2b
    (by simp [kPrettyColWidth])
  rwa [List.length_replicate] at hline

/-- The cells of some texts are a line. -/
theorem isLine_cells (values : List Bytes) :
    IsLine values.length (values.map tableCell) (values.flatMap tableCell ++ text "|\n") := by
  have hline := isLine_flatten (values.map tableCell) 0x7c (by simp [length_tableCell])
  rwa [List.length_map] at hline

/-- The lines of the header and of each row are as long as a separator, have the names of the
columns and the texts of the values in their cells, and each cell shows its text as far as it fits.
The text of a CHAR value is the value. -/
theorem tableLines (columns : List ColumnDef) (rows : List (List Cell))
    (hrows : ∀ row ∈ rows, row.length = columns.length) :
    (∃ names, tableHeader columns =
        separator columns.length ++ names ++ separator columns.length ∧
        IsLine columns.length (columns.map fun column => tableCell column.name) names) ∧
      (∀ numCols, IsLine numCols (List.replicate numCols (0x2b :: List.replicate 18 0x2d))
        (separator numCols)) ∧
      (∀ row ∈ rows,
        IsLine columns.length (row.map fun cell => tableCell (cellText cell)) (tableRow row)) ∧
      (∀ row ∈ rows, ∀ cell ∈ row, cell.isNull = false → cell.sqlType = kTypeChar →
        cellText cell = cell.strVal) ∧
      ∀ value, Shows value (tableCell value) := by
  refine ⟨⟨columns.flatMap (fun column => tableCell column.name) ++ text "|\n", ?_, ?_⟩,
    isLine_separator, fun row hrow => ?_, fun row _ cell _ hnull htype => ?_, tableCell_shows⟩
  · simp only [tableHeader, List.append_assoc]
  · have hline := isLine_cells (columns.map ColumnDef.name)
    rw [List.length_map, List.flatMap_map, List.map_map] at hline
    exact hline
  · have hline := isLine_cells (row.map cellText)
    rw [List.length_map, List.flatMap_map, List.map_map, hrows row hrow] at hline
    exact hline
  · unfold cellText
    rw [hnull, htype]
    rfl

/-- The two bytes of `é` are on both sides of the place where the value is too long, so it is cut in
front of them. -/
theorem tableLines_accent :
    let value := utf8Encode "menu: le café noir".toList
    IsLine 2 [tableCell (text "7"), tableCell value]
        (tableRow [⟨false, kTypeInt32, 7, 0, []⟩, ⟨false, kTypeChar, 0, 0, value⟩]) ∧
      tableCell value = text "|  menu: le caf... " ∧
      ∃ size ≤ 13, tableCell value =
        text "| " ++ List.replicate (13 - size) 0x20 ++ (value.take size ++ text "...") ++
          text " " ∧
        ValidUtf8 (value.take size) ∧ IsBoundary value size := by
  intro value
  have hvalid : ValidUtf8 value := ⟨_, rfl⟩
  obtain ⟨-, -, hrow, -, hshows⟩ := tableLines [⟨text "no", kTypeInt32⟩, ⟨text "name", kTypeChar⟩]
    [[⟨false, kTypeInt32, 7, 0, []⟩, ⟨false, kTypeChar, 0, 0, value⟩]] (by simp)
  obtain ⟨size, hsize, hcell, hcut⟩ := (hshows value).long (by decide)
  exact ⟨hrow _ (List.mem_singleton_self _), by decide, size, hsize, hcell, (hcut hvalid).1,
    (hcut hvalid).2.1⟩

end Rucbase.Wire
