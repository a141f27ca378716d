import Rucbase.Execution.Record
import Rucbase.Lib.Binary32

/-!
# Index names and the order of index keys

`IndexManager::make_index_name` (`src/index/index_manager.cpp`) names the file of an index, and
`compare_index_key` (`src/index/b_plus_tree.cpp`) compares two keys that `IndexMeta::make_key` has
packed, column by column.

A key is the concatenation of the blocks of its columns (`makeKey_eq_flatten`), so the comparison
meets the blocks one after the other. On one block its sign is the order of the values: the signed
order of integers, and for strings the byte order of what stands before the padding, because the
padding NUL is below every byte of a string (`memcmp_padded`). Over all blocks this is the
lexicographic order of the lists of values (`compareColumns_sign`), which is a linear order.
-/

namespace Rucbase

open Lib

/-! ## Names -/

namespace IndexManager

/-- `make_index_name`, on the names of the columns. -/
def makeIndexName (tableName : Bytes) (indexColumns : List Bytes) : Bytes :=
  indexColumns.foldl (fun indexName column => indexName ++ (text "_" ++ column)) tableName ++
    text ".idx"

end IndexManager

/-! ## Comparing keys -/

/-- `memcmp` on blocks of one length. The C library promises the sign of the result only; here it
is the sign itself. -/
def memcmp : Bytes → Bytes → ℤ
  | a :: left, b :: right => if a < b then -1 else if b < a then 1 else memcmp left right
  | _, _ => 0

/-- `compare_index_key` on one column. `left` and `right` are what the keys hold from the column on;
reading past their end is undefined behaviour. -/
def compareIndexKeyColumn (left right : Bytes) (type : ColType) (columnLength : ℤ) :
    Except Error ℤ := do
  throwIf (columnLength ≤ 0) (.internalError (text "Invalid index comparison input"))
  match type with
  | .int =>
    throwIf (columnLength ≠ 4) (.internalError (text "Invalid integer index key length"))
    throwIf (left.length < 4 ∨ right.length < 4) .undefinedBehaviour
    let leftValue := (BitVec.ofNat 32 (leNat (left.take 4))).toInt
    let rightValue := (BitVec.ofNat 32 (leNat (right.take 4))).toInt
    pure (if leftValue < rightValue then -1 else if leftValue > rightValue then 1 else 0)
  | .float =>
    throwIf (columnLength ≠ 4) (.internalError (text "Invalid float index key length"))
    throwIf (left.length < 4 ∨ right.length < 4) .undefinedBehaviour
    let leftValue := BitVec.ofNat 32 (leNat (left.take 4))
    let rightValue := BitVec.ofNat 32 (leNat (right.take 4))
    pure (if Binary32.lt leftValue rightValue then -1
      else if Binary32.lt rightValue leftValue then 1 else 0)
  | .string =>
    throwIf (left.length < columnLength ∨ right.length < columnLength) .undefinedBehaviour
    pure (memcmp (left.take columnLength.toNat) (right.take columnLength.toNat))

/-- The loop of `compare_index_key` over the columns; the running offset is what has been dropped
from the keys. -/
def compareColumns : List (ColType × ℤ) → Bytes → Bytes → Except Error ℤ
  | [], _, _ => pure 0
  | (type, columnLength) :: columns, left, right => do
    let result ← compareIndexKeyColumn left right type columnLength
    if result ≠ 0 then pure result
    else compareColumns columns (left.drop columnLength.toNat) (right.drop columnLength.toNat)

/-- `compare_index_key`. -/
def compareIndexKey (left right : Bytes) (columnTypes : List ColType) (columnLengths : List ℤ) :
    Except Error ℤ := do
  throwIf (columnTypes.length ≠ columnLengths.length)
    (.internalError (text "Invalid composite index metadata"))
  compareColumns (columnTypes.zip columnLengths) left right

namespace IndexMeta

/-- The `column_types_` of the index's file header. -/
def columnTypes (index : IndexMeta) : List ColType := index.cols.map ColMeta.type

/-- The `column_lengths_` of the index's file header. -/
def columnLengths (index : IndexMeta) : List ℤ := index.cols.map ColMeta.len

/-- The file name of an index of the table. -/
def fileName (tabName : Bytes) (index : IndexMeta) : Bytes :=
  IndexManager.makeIndexName tabName index.colNames

end IndexMeta

/-! ## The values behind a key -/

/-- The value of a column of an index: a signed integer, or a string without its padding. -/
inductive KeyValue where
  | int (n : ℤ)
  | str (s : Bytes)
  deriving DecidableEq, Repr

/-- Integers in their order and strings in byte order. The two never meet in one column. -/
instance : Ord KeyValue where
  compare
    | .int a, .int b => compare a b
    | .str a, .str b => compare a b
    | .int _, .str _ => .lt
    | .str _, .int _ => .gt

/-- The value of an INT or CHAR column in a record. -/
def columnValue (record : Bytes) (col : ColMeta) : KeyValue :=
  let cell := QlManager.decodeCell record col
  match col.type with
  | .int => .int cell.intVal.toInt
  | _ => .str cell.strVal

/-- The values of an index's columns in a record, in key order. -/
def IndexMeta.keyValues (index : IndexMeta) (record : Bytes) : List KeyValue :=
  index.cols.map (columnValue record)

/-- The sign that a comparison function returns for an order. -/
def orderingSign : Ordering → ℤ
  | .lt => -1
  | .eq => 0
  | .gt => 1

/-- Each of the columns that is a CHAR holds a string without NULs, padded with NULs. -/
def Padded (cols : List ColMeta) (record : Bytes) : Prop :=
  ∀ col ∈ cols, col.type = .string → ∃ (str : Bytes) (n : ℕ), (0 : UInt8) ∉ str ∧
    slice record col.offset.toNat col.len.toNat = str ++ List.replicate n 0

/-! ## The order of values -/

namespace KeyValue

@[simp]
theorem compare_int (a b : ℤ) : compare (int a) (int b) = compare a b := rfl

@[simp]
theorem compare_str (a b : Bytes) : compare (str a) (str b) = compare a b := rfl

@[simp]
theorem compare_int_str (a : ℤ) (b : Bytes) : compare (int a) (str b) = .lt := rfl

@[simp]
theorem compare_str_int (a : Bytes) (b : ℤ) : compare (str a) (int b) = .gt := rfl

instance : Std.OrientedOrd KeyValue where
  eq_swap {a b} := by
    cases a with
    | int a =>
      cases b with
      | int b => exact Std.OrientedOrd.eq_swap (α := ℤ)
      | str b => rfl
    | str a =>
      cases b with
      | int b => rfl
      | str b => exact Std.OrientedOrd.eq_swap (α := Bytes)

instance : Std.TransOrd KeyValue where
  isLE_trans {a b c} hab hbc := by
    cases a <;> cases b <;> cases c <;> simp only [compare_int, compare_str, compare_int_str,
      compare_str_int] at hab hbc ⊢
    all_goals first
      | exact Std.TransCmp.isLE_trans hab hbc
      | simp_all

instance : Std.LawfulEqOrd KeyValue where
  compare_self {a} := by
    cases a with
    | int a => exact Std.ReflOrd.compare_self (α := ℤ)
    | str a => exact Std.ReflOrd.compare_self (α := Bytes)
  eq_of_compare {a b} h := by
    cases a <;> cases b <;> simp_all

end KeyValue

/-! ## Keys as blocks -/

/-- The bytes of a column in a record. -/
def columnBlock (record : Bytes) (col : ColMeta) : Bytes :=
  slice record col.offset.toNat col.len.toNat

/-- The column lies within the record. -/
def ColMeta.Fits (record : Bytes) (col : ColMeta) : Prop :=
  0 ≤ col.offset ∧ col.offset + col.len ≤ record.length

variable {col : ColMeta} {cols : List ColMeta} {record left right : Bytes}

/-- The columns of a tiling lie between its start and its end. -/
theorem Tiles.bounds {offset : ℤ} (htiles : Tiles offset cols) (hlen : ∀ col ∈ cols, 0 < col.len)
    (hcol : col ∈ cols) :
    offset ≤ col.offset ∧ col.offset + col.len ≤ offset + (cols.map ColMeta.len).sum := by
  induction cols generalizing offset with
  | nil => simp at hcol
  | cons first cols ih =>
    obtain ⟨hoffset, htiles⟩ := htiles
    have hfirst := hlen first (List.mem_cons_self ..)
    have hrest : ∀ c ∈ cols, 0 < c.len := fun c hc => hlen c (List.mem_cons_of_mem _ hc)
    have hsum := sum_len_nonneg hrest
    rw [List.map_cons, List.sum_cons]
    rcases List.mem_cons.mp hcol with rfl | hcol
    · omega
    · have := ih htiles hrest hcol
      omega

theorem length_columnBlock (hfits : col.Fits record) (hlen : 0 < col.len) :
    ((columnBlock record col).length : ℤ) = col.len := by
  obtain ⟨hoffset, hend⟩ := hfits
  rw [columnBlock, length_slice (by omega)]
  omega

/-- Copying the columns of a record to the running offset fills the rest of the key with their
blocks. -/
theorem encodeKey_eq {front rest : Bytes} (hfits : ∀ col ∈ cols, col.Fits record)
    (hlen : ∀ col ∈ cols, 0 < col.len) (hrest : (rest.length : ℤ) = (cols.map ColMeta.len).sum) :
    IndexMeta.encodeKey record cols front.length (front ++ rest) =
      front ++ (cols.map (columnBlock record)).flatten := by
  induction cols generalizing front rest with
  | nil =>
    have hnil : rest = [] := List.length_eq_zero_iff.mp (by simpa using hrest)
    simp [IndexMeta.encodeKey, hnil]
  | cons col cols ih =>
    have hcol := hlen col (List.mem_cons_self ..)
    have hcols : ∀ c ∈ cols, 0 < c.len := fun c hc => hlen c (List.mem_cons_of_mem _ hc)
    have hsum := sum_len_nonneg hcols
    have hblock := length_columnBlock (hfits col (List.mem_cons_self ..)) hcol
    rw [List.map_cons, List.sum_cons] at hrest
    have hdrop : ((rest.drop (columnBlock record col).length).length : ℤ) =
        (cols.map ColMeta.len).sum := by
      rw [List.length_drop]
      omega
    have hoffset : front.length + col.len.toNat = (front ++ columnBlock record col).length := by
      rw [List.length_append]
      omega
    rw [IndexMeta.encodeKey, ← columnBlock, memcpy_append, hoffset,
      ih (fun c hc => hfits c (List.mem_cons_of_mem _ hc)) hcols hdrop]
    simp

/-- The key of an index is the concatenation of its columns' blocks. -/
theorem makeKey_eq_flatten {index : IndexMeta} (hfits : ∀ col ∈ index.cols, col.Fits record)
    (hlen : ∀ col ∈ index.cols, 0 < col.len) (hderived : index.rebuildDerived = index) :
    index.makeKey record = (index.cols.map (columnBlock record)).flatten := by
  have htotal : index.colTotLen = (index.cols.map ColMeta.len).sum :=
    (congrArg IndexMeta.colTotLen hderived).symm
  have hsum := sum_len_nonneg hlen
  have hrest : ((List.replicate index.colTotLen.toNat (0 : UInt8)).length : ℤ) =
      (index.cols.map ColMeta.len).sum := by
    rw [List.length_replicate]
    omega
  have hkey : IndexMeta.encodeKey record index.cols ([] : Bytes).length
      ([] ++ List.replicate index.colTotLen.toNat (0 : UInt8)) =
        [] ++ (index.cols.map (columnBlock record)).flatten := encodeKey_eq hfits hlen hrest
  exact hkey

/-! ## One column -/

theorem compare_eq_sign (m n : ℤ) :
    (if m < n then -1 else if m > n then 1 else 0) = orderingSign (compare m n) := by
  rcases lt_trichotomy m n with h | rfl | h
  · rw [if_pos h, compare_lt_iff_lt.mpr h]
    rfl
  · simp [orderingSign]
  · rw [if_neg h.le.not_gt, if_pos h, compare_gt_iff_gt.mpr h]
    rfl

theorem memcmp_self (s : Bytes) : memcmp s s = 0 := by
  induction s with
  | nil => rfl
  | cons a s ih => simp [memcmp, ih]

/-- Comparing padded strings compares the strings: the padding is below every byte of a string. -/
theorem memcmp_padded {s t : Bytes} (hs : (0 : UInt8) ∉ s) (ht : (0 : UInt8) ∉ t) {m n : ℕ}
    (hlen : s.length + m = t.length + n) :
    memcmp (s ++ List.replicate m 0) (t ++ List.replicate n 0) = orderingSign (compare s t) := by
  induction s generalizing t with
  | nil =>
    cases t with
    | nil =>
      obtain rfl : m = n := by simpa using hlen
      simp [memcmp_self, orderingSign]
    | cons b t =>
      -- The left string has ended, so its padding meets the byte `b`.
      obtain ⟨m, rfl⟩ : ∃ k, m = k + 1 := by
        simp only [List.length_nil, List.length_cons] at hlen
        exact ⟨m - 1, by omega⟩
      have hb : 0 < b := UInt8.pos_iff_ne_zero.mpr fun h => ht (h ▸ List.mem_cons_self ..)
      simp [List.replicate_succ, memcmp, hb, orderingSign]
  | cons a s ih =>
    have ha : 0 < a := UInt8.pos_iff_ne_zero.mpr fun h => hs (h ▸ List.mem_cons_self ..)
    cases t with
    | nil =>
      obtain ⟨n, rfl⟩ : ∃ k, n = k + 1 := by
        simp only [List.length_nil, List.length_cons] at hlen
        exact ⟨n - 1, by omega⟩
      simp [List.replicate_succ, memcmp, ha, UInt8.lt_asymm ha, orderingSign]
    | cons b t =>
      have hs' : (0 : UInt8) ∉ s := fun h => hs (List.mem_cons_of_mem _ h)
      have ht' : (0 : UInt8) ∉ t := fun h => ht (List.mem_cons_of_mem _ h)
      have hlen' : s.length + m = t.length + n := by
        rw [List.length_cons, List.length_cons] at hlen
        omega
      rw [List.cons_append, List.cons_append, memcmp, List.compare_cons_cons, ih hs' ht' hlen']
      rcases Nat.lt_trichotomy a.toNat b.toNat with h | h | h
      · have h := UInt8.lt_iff_toNat_lt.mpr h
        rw [if_pos h, Std.compare_eq_lt.mpr h]
        rfl
      · obtain rfl := UInt8.toNat_inj.mp h
        simp
      · have h := UInt8.lt_iff_toNat_lt.mpr h
        rw [if_neg (UInt8.lt_asymm h), if_pos h, Std.compare_eq_gt.mpr h]
        rfl

/-- What a CHAR column holds before its padding is its value. -/
theorem columnValue_str (hty : col.type = .string) {str : Bytes} {n : ℕ}
    (hnul : (0 : UInt8) ∉ str) (hblock : columnBlock record col = str ++ List.replicate n 0) :
    columnValue record col = .str str := by
  have hvalue : columnValue record col = .str ((columnBlock record col).takeWhile (· ≠ 0)) := by
    simp [columnValue, QlManager.decodeCell, hty, columnBlock]
  rw [hvalue, hblock, QlManager.takeWhile_padded hnul]

/-- The value of an INT column is the word that its block spells. -/
theorem columnValue_int (hty : col.type = .int) (hfour : col.len = 4) :
    columnValue record col = .int (BitVec.ofNat 32 (leNat (columnBlock record col))).toInt := by
  simp [columnValue, QlManager.decodeCell, hty, columnBlock, hfour]

/-- The comparison of one column, at the head of what is left of two keys. -/
theorem compareIndexKeyColumn_sign (hvalid : col.ValidLen) (hfloat : col.type ≠ .float)
    (hleft : col.Fits left) (hright : col.Fits right) (hpadLeft : Padded [col] left)
    (hpadRight : Padded [col] right) (restLeft restRight : Bytes) :
    compareIndexKeyColumn (columnBlock left col ++ restLeft) (columnBlock right col ++ restRight)
        col.type col.len =
      .ok (orderingSign (compare (columnValue left col) (columnValue right col))) := by
  have hpos := hvalid.1
  have hl := length_columnBlock hleft hpos
  have hr := length_columnBlock hright hpos
  have hbounds : ((columnBlock left col ++ restLeft).length : ℤ) ≥ col.len ∧
      ((columnBlock right col ++ restRight).length : ℤ) ≥ col.len := by
    simp only [List.length_append]
    omega
  refine bind_eq_ok.mpr ⟨(), by rw [throwIf_eq_ok]; omega, ?_⟩
  cases hty : col.type with
  | int =>
    have hfour : col.len = 4 := hvalid.2 (by simp [hty])
    refine bind_eq_ok.mpr ⟨(), by simp [hfour], bind_eq_ok.mpr ⟨(), ?_, ?_⟩⟩
    · rw [throwIf_eq_ok]
      omega
    · rw [columnValue_int hty hfour, columnValue_int hty hfour, List.take_left' (by omega),
        List.take_left' (by omega), pure_eq_ok, KeyValue.compare_int]
      exact compare_eq_sign _ _
  | float => exact absurd hty hfloat
  | string =>
    obtain ⟨s, m, hs, hblockLeft⟩ := hpadLeft col (List.mem_singleton_self _) hty
    obtain ⟨t, n, ht, hblockRight⟩ := hpadRight col (List.mem_singleton_self _) hty
    rw [columnValue_str hty hs hblockLeft, columnValue_str hty ht hblockRight,
      KeyValue.compare_str]
    refine bind_eq_ok.mpr ⟨(), by rw [throwIf_eq_ok]; omega, ?_⟩
    rw [List.take_left' (by omega), List.take_left' (by omega), pure_eq_ok]
    rw [← columnBlock] at hblockLeft hblockRight
    have hlen : s.length + m = t.length + n := by
      rw [hblockLeft, List.length_append, List.length_replicate] at hl
      rw [hblockRight, List.length_append, List.length_replicate] at hr
      omega
    rw [hblockLeft, hblockRight]
    exact memcmp_padded hs ht hlen

/-! ## All columns -/

/-- What the comparison of two records' keys needs of a column. -/
structure ColMeta.Comparable (record : Bytes) (col : ColMeta) : Prop where
  validLen : col.ValidLen
  not_float : col.type ≠ .float
  fits : col.Fits record
  padded : Padded [col] record

/-- A block of four bytes is determined by the word it spells. -/
theorem eq_of_ofNat_leNat_eq {a b : Bytes} (ha : a.length = 4) (hb : b.length = 4)
    (h : BitVec.ofNat 32 (leNat a) = BitVec.ofNat 32 (leNat b)) : a = b := by
  have hword := congrArg BitVec.toNat h
  have hlta := leNat_lt a
  have hltb := leNat_lt b
  rw [ha] at hlta
  rw [hb] at hltb
  rw [BitVec.toNat_ofNat, BitVec.toNat_ofNat, Nat.mod_eq_of_lt (by omega),
    Nat.mod_eq_of_lt (by omega)] at hword
  calc a = leBytes 4 (leNat a) := by rw [← ha, leBytes_leNat]
    _ = leBytes 4 (leNat b) := by rw [hword]
    _ = b := by rw [← hb, leBytes_leNat]

/-- The block of a column is determined by its value. -/
theorem columnBlock_eq (hleft : col.Comparable left) (hright : col.Comparable right)
    (h : columnValue left col = columnValue right col) :
    columnBlock left col = columnBlock right col := by
  have hl := length_columnBlock hleft.fits hleft.validLen.1
  have hr := length_columnBlock hright.fits hright.validLen.1
  cases hty : col.type with
  | int =>
    have hfour : col.len = 4 := hleft.validLen.2 (by simp [hty])
    rw [columnValue_int hty hfour, columnValue_int hty hfour, KeyValue.int.injEq,
      BitVec.toInt_inj] at h
    exact eq_of_ofNat_leNat_eq (by omega) (by omega) h
  | float => exact absurd hty hleft.not_float
  | string =>
    obtain ⟨s, m, hs, hblockLeft⟩ := hleft.padded col (List.mem_singleton_self _) hty
    obtain ⟨t, n, ht, hblockRight⟩ := hright.padded col (List.mem_singleton_self _) hty
    rw [← columnBlock] at hblockLeft hblockRight
    rw [columnValue_str hty hs hblockLeft, columnValue_str hty ht hblockRight,
      KeyValue.str.injEq] at h
    rw [hblockLeft, List.length_append, List.length_replicate] at hl
    rw [hblockRight, List.length_append, List.length_replicate] at hr
    subst h
    have hpad : m = n := by omega
    rw [hblockLeft, hblockRight, hpad]

/-- The comparison of the blocks of two records is that of their values. -/
theorem compareColumns_sign (hleft : ∀ col ∈ cols, col.Comparable left)
    (hright : ∀ col ∈ cols, col.Comparable right) :
    compareColumns (cols.map fun col => (col.type, col.len))
        (cols.map (columnBlock left)).flatten (cols.map (columnBlock right)).flatten =
      .ok (orderingSign
        (compare (cols.map (columnValue left)) (cols.map (columnValue right)))) := by
  induction cols with
  | nil => simp [compareColumns, orderingSign]
  | cons col cols ih =>
    have hl := hleft col (List.mem_cons_self ..)
    have hr := hright col (List.mem_cons_self ..)
    have ih := ih (fun c hc => hleft c (List.mem_cons_of_mem _ hc))
      fun c hc => hright c (List.mem_cons_of_mem _ hc)
    have hlenl := length_columnBlock hl.fits hl.validLen.1
    have hlenr := length_columnBlock hr.fits hr.validLen.1
    simp only [List.map_cons, List.flatten_cons, List.compare_cons_cons]
    refine bind_eq_ok.mpr ⟨_, compareIndexKeyColumn_sign hl.validLen hl.not_float hl.fits hr.fits
      hl.padded hr.padded _ _, ?_⟩
    rw [List.drop_left' (by omega), List.drop_left' (by omega), ih]
    -- A column that differs decides; one that does not leaves it to the others.
    cases compare (columnValue left col) (columnValue right col) with
    | lt | eq | gt => simp [orderingSign]

namespace IndexMeta

/-- A record of the table whose CHAR columns under the index are padded strings. -/
def Indexes (tab : TabMeta) (index : IndexMeta) (record : Bytes) : Prop :=
  (record.length : ℤ) = (tab.cols.map ColMeta.len).sum ∧ Padded index.cols record

/-- The keys of such records. -/
def Keys (tab : TabMeta) (index : IndexMeta) : Set Bytes :=
  { key | ∃ record, index.Indexes tab record ∧ index.makeKey record = key }

/-- The order of keys in the tree. -/
def KeyLe (index : IndexMeta) (left right : Bytes) : Prop :=
  ∃ c ≤ 0, compareIndexKey left right index.columnTypes index.columnLengths = .ok c

section

variable {tab : TabMeta} {index : IndexMeta} (htab : tab.Valid) (hindex : index ∈ tab.indexes)
  (hfloat : ∀ col ∈ index.cols, col.type ≠ .float)

include htab hindex

/-- The columns of an index lie within every record of its table. -/
theorem fits_of_valid {record : Bytes}
    (hlen : (record.length : ℤ) = (tab.cols.map ColMeta.len).sum) :
    ∀ col ∈ index.cols, col.Fits record := by
  intro col hcol
  have hmem := htab.indexCols_mem index hindex col hcol
  have hbounds := htab.tiles.bounds (fun c hc => (htab.validLen c hc).1) hmem
  exact ⟨hbounds.1, by omega⟩

theorem len_pos_of_valid : ∀ col ∈ index.cols, 0 < col.len := fun col hcol =>
  (htab.validLen col (htab.indexCols_mem index hindex col hcol)).1

include hfloat

theorem comparable_of_valid {record : Bytes} (hrecord : index.Indexes tab record) :
    ∀ col ∈ index.cols, col.Comparable record := fun col hcol =>
  ⟨htab.validLen col (htab.indexCols_mem index hindex col hcol), hfloat col hcol,
    fits_of_valid htab hindex hrecord.1 col hcol, fun c hc => by
      rw [List.mem_singleton.mp hc]
      exact hrecord.2 col hcol⟩

variable {left right : Bytes}

/-- The comparison of two keys is that of the values behind them. -/
theorem compareIndexKey_makeKey (hleft : index.Indexes tab left)
    (hright : index.Indexes tab right) :
    compareIndexKey (index.makeKey left) (index.makeKey right) index.columnTypes
        index.columnLengths =
      .ok (orderingSign (compare (index.keyValues left) (index.keyValues right))) := by
  have hderived := htab.derived index hindex
  have hlen := len_pos_of_valid htab hindex
  rw [makeKey_eq_flatten (fits_of_valid htab hindex hleft.1) hlen hderived,
    makeKey_eq_flatten (fits_of_valid htab hindex hright.1) hlen hderived]
  refine bind_eq_ok.mpr ⟨(), by simp [columnTypes, columnLengths], ?_⟩
  have hzip : index.columnTypes.zip index.columnLengths =
      index.cols.map fun col => (col.type, col.len) := by
    rw [columnTypes, columnLengths, List.zip_map']
  rw [hzip]
  exact compareColumns_sign (comparable_of_valid htab hindex hfloat hleft)
    (comparable_of_valid htab hindex hfloat hright)

/-- Records have the same key when they have the same values. -/
theorem compare_keyValues_eq_iff (hleft : index.Indexes tab left)
    (hright : index.Indexes tab right) :
    compare (index.keyValues left) (index.keyValues right) = .eq ↔
      index.makeKey left = index.makeKey right := by
  constructor
  · intro h
    have hvalues := Std.LawfulEqOrd.eq_of_compare h
    have hderived := htab.derived index hindex
    have hlen := len_pos_of_valid htab hindex
    rw [makeKey_eq_flatten (fits_of_valid htab hindex hleft.1) hlen hderived,
      makeKey_eq_flatten (fits_of_valid htab hindex hright.1) hlen hderived]
    congr 1
    refine List.map_congr_left fun col hcol => ?_
    exact columnBlock_eq (comparable_of_valid htab hindex hfloat hleft col hcol)
      (comparable_of_valid htab hindex hfloat hright col hcol)
      (List.map_inj_left.mp hvalues col hcol)
  · intro h
    -- Comparing the left key with itself is comparing it with the right one.
    have hself := compareIndexKey_makeKey htab hindex hfloat hleft hleft
    have hother := compareIndexKey_makeKey htab hindex hfloat hleft hright
    rw [← h, hself, Std.ReflOrd.compare_self, Except.ok.injEq] at hother
    cases hcmp : compare (index.keyValues left) (index.keyValues right) <;>
      simp_all [orderingSign]

theorem keyLe_makeKey (hleft : index.Indexes tab left) (hright : index.Indexes tab right) :
    index.KeyLe (index.makeKey left) (index.makeKey right) ↔
      (compare (index.keyValues left) (index.keyValues right)).isLE := by
  simp only [KeyLe, compareIndexKey_makeKey htab hindex hfloat hleft hright, Except.ok.injEq]
  cases compare (index.keyValues left) (index.keyValues right) <;> simp [orderingSign]

end

/-- The order of the keys of an index over INT and CHAR columns is the lexicographic order of the
values of those columns. It is a linear order, whose equality is that of the keys. -/
theorem compareIndexKey_lexicographic (tab : TabMeta) (htab : tab.Valid) (index : IndexMeta)
    (hindex : index ∈ tab.indexes) (hfloat : ∀ col ∈ index.cols, col.type ≠ .float) :
    (∀ left right, index.Indexes tab left → index.Indexes tab right →
      ∃ c, compareIndexKey (index.makeKey left) (index.makeKey right) index.columnTypes
          index.columnLengths = .ok c ∧
        c.sign = orderingSign (compare (index.keyValues left) (index.keyValues right)) ∧
        (c = 0 ↔ index.makeKey left = index.makeKey right)) ∧
      IsLinearOrder (index.Keys tab) fun left right => index.KeyLe left right := by
  constructor
  · intro left right hleft hright
    refine ⟨_, compareIndexKey_makeKey htab hindex hfloat hleft hright, ?_, ?_⟩
    · cases compare (index.keyValues left) (index.keyValues right) <;> rfl
    · rw [← compare_keyValues_eq_iff htab hindex hfloat hleft hright]
      cases compare (index.keyValues left) (index.keyValues right) <;> simp [orderingSign]
  · refine { refl := ?_, trans := ?_, antisymm := ?_, total := ?_ }
    · rintro ⟨_, left, hleft, rfl⟩
      simp [keyLe_makeKey htab hindex hfloat hleft hleft]
    · rintro ⟨_, a, ha, rfl⟩ ⟨_, b, hb, rfl⟩ ⟨_, c, hc, rfl⟩ hab hbc
      rw [keyLe_makeKey htab hindex hfloat ha hb] at hab
      rw [keyLe_makeKey htab hindex hfloat hb hc] at hbc
      rw [keyLe_makeKey htab hindex hfloat ha hc]
      exact Std.TransCmp.isLE_trans hab hbc
    · rintro ⟨_, a, ha, rfl⟩ ⟨_, b, hb, rfl⟩ hab hba
      rw [keyLe_makeKey htab hindex hfloat ha hb] at hab
      rw [keyLe_makeKey htab hindex hfloat hb ha] at hba
      have heq := Std.OrientedCmp.isLE_antisymm hab hba
      exact Subtype.ext ((compare_keyValues_eq_iff htab hindex hfloat ha hb).mp heq)
    · rintro ⟨_, a, ha, rfl⟩ ⟨_, b, hb, rfl⟩
      rw [keyLe_makeKey htab hindex hfloat ha hb, keyLe_makeKey htab hindex hfloat hb ha]
      rw [Std.OrientedOrd.eq_swap (a := index.keyValues b)]
      cases compare (index.keyValues a) (index.keyValues b) <;> simp

/-- The keys of two records that agree in the first column of an index and differ in the second. -/
theorem compareIndexKey_lexicographic_enrolment :
    let left := leBytes 4 7 ++ text "Lean" ++ List.replicate 4 0
    let right := leBytes 4 7 ++ text "Algebra" ++ List.replicate 1 0
    (enrolment.Indexes enrolmentTable left ∧ enrolment.Indexes enrolmentTable right) ∧
      ∃ c, compareIndexKey (enrolment.makeKey left) (enrolment.makeKey right)
        enrolment.columnTypes enrolment.columnLengths = .ok c ∧ c.sign = 1 := by
  intro left right
  have hpadded : Padded enrolment.cols left ∧ Padded enrolment.cols right := by
    constructor
    all_goals
      intro col hcol htype
      have hcourse : col = ⟨text "enrolment", text "course", .string, 8, 4, true⟩ := by
        rcases List.mem_pair.mp hcol with rfl | rfl
        · cases htype
        · rfl
      subst hcourse
    · exact ⟨text "Lean", 4, by decide, by decide⟩
    · exact ⟨text "Algebra", 1, by decide, by decide⟩
  have hleft : enrolment.Indexes enrolmentTable left := ⟨by decide, hpadded.1⟩
  have hright : enrolment.Indexes enrolmentTable right := ⟨by decide, hpadded.2⟩
  obtain ⟨c, hc, hsign, -⟩ := (compareIndexKey_lexicographic enrolmentTable (by decide) enrolment
    (by simp [enrolmentTable]) (by decide)).1 left right hleft hright
  exact ⟨⟨hleft, hright⟩, c, hc, hsign.trans (by decide)⟩

end IndexMeta

end Rucbase
