import Mathlib.Algebra.Order.BigOperators.Group.List
import Rucbase.Common.Value
import Std.Data.ExtTreeMap.Lemmas

/-!
# The catalog

The in-memory catalog of `src/system/sm_meta.h`: columns with their place in the fixed-length
record, indexes, tables, and the database that maps table names to tables. The map of tables is
ordered by the byte order of the names, as `std::map<std::string, TabMeta>` is.

`DbMeta.Valid` collects what the rest of the system may assume of a catalog: the names are present
and distinct, the columns of a table tile its record in declaration order, and everything that the
catalog could derive from a table's columns and the column lists of its indexes is as it would be
derived.
-/

namespace Rucbase

open Lib

/-- `RM_MAX_RECORD_SIZE`. -/
def rmMaxRecordSize : ℤ := 512

/-- `ColMeta`: a column and its place in the record. -/
structure ColMeta where
  tabName : Bytes
  name : Bytes
  type : ColType
  len : ℤ
  offset : ℤ
  /-- Whether some index contains the column. -/
  index : Bool
  deriving DecidableEq, Repr

/-- `IndexMeta`: an index; `cols` is in key order. -/
structure IndexMeta where
  tabName : Bytes
  colTotLen : ℤ
  colNum : ℤ
  unique : Bool
  cols : List ColMeta
  deriving DecidableEq, Repr

namespace IndexMeta

/-- The names of an index's columns, in key order. -/
def colNames (index : IndexMeta) : List Bytes := index.cols.map ColMeta.name

/-- `rebuild_derived`. -/
def rebuildDerived (index : IndexMeta) : IndexMeta :=
  { index with colNum := index.cols.length, colTotLen := (index.cols.map ColMeta.len).sum }

/-- `encode_key` from the column list on: each column's bytes of the record are copied to the
running offset of the key. -/
def encodeKey (record : Bytes) : List ColMeta → ℕ → Bytes → Bytes
  | [], _, keyOut => keyOut
  | column :: cols, offset, keyOut =>
    encodeKey record cols (offset + column.len.toNat)
      (memcpy keyOut offset (slice record column.offset.toNat column.len.toNat))

/-- `make_key`. -/
def makeKey (index : IndexMeta) (record : Bytes) : Bytes :=
  encodeKey record index.cols 0 (List.replicate index.colTotLen.toNat 0)

end IndexMeta

/-- `TabMeta`: a table, its columns and its indexes in declaration order. -/
structure TabMeta where
  name : Bytes
  cols : List ColMeta
  indexes : List IndexMeta
  deriving DecidableEq, Repr

namespace TabMeta

/-- `is_col`. -/
def isCol (tab : TabMeta) (colName : Bytes) : Bool := tab.cols.any (·.name == colName)

/-- `matches_index`: the columns of the index are the given ones in the given order. -/
def matchesIndex (index : IndexMeta) (colNames : List Bytes) : Bool :=
  index.colNames == colNames

/-- `is_index`. -/
def isIndex (tab : TabMeta) (colNames : List Bytes) : Bool :=
  tab.indexes.any (matchesIndex · colNames)

/-- `get_index_meta`. -/
def getIndexMeta (tab : TabMeta) (colNames : List Bytes) : Except Error IndexMeta :=
  match tab.indexes.find? (matchesIndex · colNames) with
  | some index => pure index
  | none => throw (.indexNotFoundError tab.name colNames)

/-- `get_col`. -/
def getCol (tab : TabMeta) (colName : Bytes) : Except Error ColMeta :=
  match tab.cols.find? (·.name == colName) with
  | some col => pure col
  | none => throw (.columnNotFoundError colName)

end TabMeta

/-- `DbMeta`: the catalog of one database. -/
structure DbMeta where
  name : Bytes
  tabs : Std.ExtTreeMap Bytes TabMeta compare

namespace DbMeta

/-- `is_table`. -/
def isTable (db : DbMeta) (tabName : Bytes) : Bool := db.tabs.contains tabName

/-- `get_table`. -/
def getTable (db : DbMeta) (tabName : Bytes) : Except Error TabMeta :=
  match db.tabs[tabName]? with
  | some tab => pure tab
  | none => throw (.tableNotFoundError tabName)

end DbMeta

/-! ## Valid catalogs -/

/-- The length of a column is positive, and that of a number is four bytes. -/
def ColMeta.ValidLen (col : ColMeta) : Prop :=
  0 < col.len ∧ (col.type ≠ .string → col.len = 4)

instance (col : ColMeta) : Decidable col.ValidLen :=
  inferInstanceAs (Decidable (_ ∧ _))

/-- The columns tile a record from `offset` on, in order. -/
def Tiles (offset : ℤ) : List ColMeta → Prop
  | [] => True
  | col :: cols => col.offset = offset ∧ Tiles (offset + col.len) cols

/-- Columns of positive lengths, in whatever form they stand, have no negative total length. -/
theorem sum_len_nonneg {α : Type} {len : α → ℤ} {cols : List α} (hlen : ∀ col ∈ cols, 0 < len col) :
    0 ≤ (cols.map len).sum := by
  refine List.sum_nonneg fun n hn => ?_
  obtain ⟨col, hcol, rfl⟩ := List.mem_map.mp hn
  exact (hlen col hcol).le

/-- Tiling is checked from the front. -/
def Tiles.decidable : (offset : ℤ) → (cols : List ColMeta) → Decidable (Tiles offset cols)
  | _, [] => isTrue trivial
  | offset, col :: cols =>
    have := Tiles.decidable (offset + col.len) cols
    inferInstanceAs (Decidable (col.offset = offset ∧ Tiles (offset + col.len) cols))

instance (offset : ℤ) (cols : List ColMeta) : Decidable (Tiles offset cols) :=
  Tiles.decidable offset cols

/-- What holds of a table of a valid catalog. -/
structure TabMeta.Valid (tab : TabMeta) : Prop where
  /-- The table has a name. -/
  name_ne : tab.name ≠ []
  /-- The table has a column. -/
  cols_ne : tab.cols ≠ []
  /-- The columns have names, -/
  colName_ne : ∀ col ∈ tab.cols, col.name ≠ []
  /-- different ones, -/
  colNames_nodup : (tab.cols.map ColMeta.name).Nodup
  /-- and the lengths of their types. -/
  validLen : ∀ col ∈ tab.cols, col.ValidLen
  /-- The offsets are the prefix sums of the lengths. -/
  tiles : Tiles 0 tab.cols
  /-- A record is not longer than the limit. -/
  recordSize_le : (tab.cols.map ColMeta.len).sum ≤ rmMaxRecordSize
  /-- The columns name their table. -/
  colTabName : ∀ col ∈ tab.cols, col.tabName = tab.name
  /-- An index has a column, -/
  indexCols_ne : ∀ index ∈ tab.indexes, index.cols ≠ []
  /-- has no column twice, -/
  indexCols_nodup : ∀ index ∈ tab.indexes, index.colNames.Nodup
  /-- has another column list than every other index, -/
  indexes_nodup : (tab.indexes.map IndexMeta.colNames).Nodup
  /-- and holds copies of the table's columns. -/
  indexCols_mem : ∀ index ∈ tab.indexes, ∀ col ∈ index.cols, col ∈ tab.cols
  /-- A column is marked exactly when an index contains it. -/
  index_iff : ∀ col ∈ tab.cols, col.index = true ↔ ∃ index ∈ tab.indexes, col ∈ index.cols
  /-- The counts and key lengths of the indexes are the derived ones. -/
  derived : ∀ index ∈ tab.indexes, index.rebuildDerived = index

instance (tab : TabMeta) : Decidable tab.Valid :=
  decidable_of_iff
    (tab.name ≠ [] ∧ tab.cols ≠ [] ∧ (∀ col ∈ tab.cols, col.name ≠ []) ∧
      (tab.cols.map ColMeta.name).Nodup ∧ (∀ col ∈ tab.cols, col.ValidLen) ∧ Tiles 0 tab.cols ∧
      (tab.cols.map ColMeta.len).sum ≤ rmMaxRecordSize ∧
      (∀ col ∈ tab.cols, col.tabName = tab.name) ∧ (∀ index ∈ tab.indexes, index.cols ≠ []) ∧
      (∀ index ∈ tab.indexes, index.colNames.Nodup) ∧
      (tab.indexes.map IndexMeta.colNames).Nodup ∧
      (∀ index ∈ tab.indexes, ∀ col ∈ index.cols, col ∈ tab.cols) ∧
      (∀ col ∈ tab.cols, col.index = true ↔ ∃ index ∈ tab.indexes, col ∈ index.cols) ∧
      ∀ index ∈ tab.indexes, index.rebuildDerived = index)
    ⟨fun ⟨h1, h2, h3, h4, h5, h6, h7, h8, h9, h10, h11, h12, h13, h14⟩ =>
      ⟨h1, h2, h3, h4, h5, h6, h7, h8, h9, h10, h11, h12, h13, h14⟩,
    fun h => ⟨h.1, h.2, h.3, h.4, h.5, h.6, h.7, h.8, h.9, h.10, h.11, h.12, h.13, h.14⟩⟩

/-- A catalog is valid when it has a name, every key is the name of its table, and every table is
valid. -/
structure DbMeta.Valid (db : DbMeta) : Prop where
  /-- The database has a name. -/
  name_ne : db.name ≠ []
  /-- A table is stored under its name. -/
  key_eq : ∀ (key : Bytes) (tab : TabMeta), db.tabs[key]? = some tab → key = tab.name
  /-- Every table is valid. -/
  tab_valid : ∀ (key : Bytes) (tab : TabMeta), db.tabs[key]? = some tab → tab.Valid

/-- Every index belongs to the table that lists it. -/
def DbMeta.IndexesNamed (db : DbMeta) : Prop :=
  ∀ (key : Bytes) (tab : TabMeta), db.tabs[key]? = some tab →
    ∀ index ∈ tab.indexes, index.tabName = tab.name

/-- Every table has a column, and its columns name the table they are stored under. -/
structure DbMeta.Owned (db : DbMeta) : Prop where
  cols_ne : ∀ (key : Bytes) (tab : TabMeta), db.tabs[key]? = some tab → tab.cols ≠ []
  colTabName : ∀ (key : Bytes) (tab : TabMeta), db.tabs[key]? = some tab →
    ∀ col ∈ tab.cols, col.tabName = key

theorem DbMeta.Valid.owned {db : DbMeta} (h : db.Valid) : db.Owned where
  cols_ne key tab htab := (h.tab_valid key tab htab).cols_ne
  colTabName key tab htab col hcol := by
    rw [(h.tab_valid key tab htab).colTabName col hcol, h.key_eq key tab htab]

/-! ## Building catalogs -/

/-- A database without tables. -/
def DbMeta.empty (name : Bytes) : DbMeta := ⟨name, ∅⟩

/-- The catalog with a table stored under its name. -/
def DbMeta.insert (db : DbMeta) (tab : TabMeta) : DbMeta :=
  { db with tabs := db.tabs.insert tab.name tab }

theorem DbMeta.valid_empty {name : Bytes} (h : name ≠ []) : (DbMeta.empty name).Valid where
  name_ne := h
  key_eq key tab htab := by simp [DbMeta.empty] at htab
  tab_valid key tab htab := by simp [DbMeta.empty] at htab

theorem DbMeta.getElem?_insert (db : DbMeta) (tab : TabMeta) (key : Bytes) :
    (db.insert tab).tabs[key]? = if tab.name = key then some tab else db.tabs[key]? := by
  simp [DbMeta.insert, Std.ExtTreeMap.getElem?_insert]

/-- Storing a valid table under its name keeps a catalog valid. -/
theorem DbMeta.Valid.insert {db : DbMeta} (hdb : db.Valid) {tab : TabMeta} (htab : tab.Valid) :
    (db.insert tab).Valid := by
  refine ⟨hdb.name_ne, fun key tab' h => ?_, fun key tab' h => ?_⟩
  · rw [getElem?_insert] at h
    split_ifs at h with hkey
    · rw [← hkey, Option.some.inj h]
    · exact hdb.key_eq key tab' h
  · rw [getElem?_insert] at h
    split_ifs at h with hkey
    · exact Option.some.inj h ▸ htab
    · exact hdb.tab_valid key tab' h

/-- Storing a table whose indexes name it keeps the indexes of a catalog named. -/
theorem DbMeta.IndexesNamed.insert {db : DbMeta} (hdb : db.IndexesNamed) {tab : TabMeta}
    (htab : ∀ index ∈ tab.indexes, index.tabName = tab.name) : (db.insert tab).IndexesNamed := by
  intro key tab' h
  rw [getElem?_insert] at h
  split_ifs at h with hkey
  · exact Option.some.inj h ▸ htab
  · exact hdb key tab' h

/-- A table of two columns with an index on the second, for the concrete instances of the results
below. -/
def studentTable : TabMeta :=
  let id : ColMeta := ⟨text "student", text "id", .int, 4, 0, false⟩
  let name : ColMeta := ⟨text "student", text "name", .string, 8, 4, true⟩
  ⟨text "student", [id, name], [⟨text "student", 8, 1, true, [name]⟩]⟩

/-- A database with that table. -/
def studentDb : DbMeta := (DbMeta.empty (text "school")).insert studentTable

theorem studentTable_valid : studentTable.Valid := by decide

theorem studentDb_valid : studentDb.Valid :=
  (DbMeta.valid_empty (by decide)).insert studentTable_valid

/-- An index on an integer and a string column. -/
def enrolment : IndexMeta where
  tabName := text "enrolment"
  colTotLen := 12
  colNum := 2
  unique := true
  cols := [⟨text "enrolment", text "student", .int, 4, 0, true⟩,
    ⟨text "enrolment", text "course", .string, 8, 4, true⟩]

/-- A table of these columns, with an index on the first of them too. -/
def enrolmentTable : TabMeta :=
  ⟨text "enrolment", enrolment.cols,
    [⟨text "enrolment", 4, 1, false, enrolment.cols.take 1⟩, enrolment]⟩

/-- A database with both tables. -/
def enrolmentDb : DbMeta := studentDb.insert enrolmentTable

end Rucbase
