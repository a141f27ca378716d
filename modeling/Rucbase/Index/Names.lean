import Rucbase.Index.Key
import Rucbase.Lib.Ascii

/-!
# The files of a database

A table is stored in the file of its name, an index in the file that `make_index_name` names, and
beside them are `db.meta` and `db.log`. The names of tables and columns are identifiers, so that a
file of one kind never has the name of a file of another kind. Two indexes are another matter:
`make_index_name` joins the names with underscores, which the names may hold themselves. It gives
two indexes one file exactly when the words between underscores are the same
(`makeIndexName_eq_iff`), so a database keeps its objects in separate files exactly when this
happens for no two of its indexes (`separateFiles_iff`).
-/

namespace Rucbase

open Lib

/-! ## Index names -/

/-- The words of a name, between its underscores. -/
def words (name : Bytes) : List Bytes := name.splitOn 95

/-- The words of the name of an index's file, without the extension. -/
def indexWords (tableName : Bytes) (columns : List Bytes) : List Bytes :=
  (tableName :: columns).flatMap words

theorem words_foldl (tableName : Bytes) (columns : List Bytes) :
    words (columns.foldl (fun indexName column => indexName ++ (text "_" ++ column)) tableName) =
      indexWords tableName columns := by
  induction columns generalizing tableName with
  | nil => simp [indexWords]
  | cons column columns ih =>
    have hsplit : words (tableName ++ (text "_" ++ column)) = words tableName ++ words column :=
      List.splitOn_append_cons_self tableName column
    rw [List.foldl_cons, ih, indexWords, indexWords, List.flatMap_cons, hsplit, List.flatMap_cons,
      List.flatMap_cons, List.append_assoc]

/-- Two indexes have one file exactly when their words are the same. -/
theorem makeIndexName_eq_iff {tableName tableName' : Bytes} {columns columns' : List Bytes} :
    IndexManager.makeIndexName tableName columns = IndexManager.makeIndexName tableName' columns' ↔
      indexWords tableName columns = indexWords tableName' columns' := by
  unfold IndexManager.makeIndexName
  rw [List.append_left_inj, ← words_foldl, ← words_foldl]
  constructor
  · exact congrArg words
  · intro h
    -- The words, joined by underscores, are the name.
    have hjoin := congrArg (List.intercalate [95]) h
    rwa [words, words, List.intercalate_splitOn, List.intercalate_splitOn] at hjoin

/-! ## The files -/

/-- What a database keeps in a file. -/
inductive StoredObject where
  | table (name : Bytes)
  | index (table : Bytes) (columns : List Bytes)
  | catalog
  | log
  deriving DecidableEq, Repr

/-- The file of an object; `DB_META_NAME` and `LOG_FILE_NAME` for the last two. -/
def StoredObject.fileName : StoredObject → Bytes
  | .table name => name
  | .index tableName columns => IndexManager.makeIndexName tableName columns
  | .catalog => text "db.meta"
  | .log => text "db.log"

namespace DbMeta

variable (db : DbMeta)

/-- The catalog has an index of the table over the columns. -/
def HasIndex (table : Bytes) (columns : List Bytes) : Prop :=
  ∃ tab, db.tabs[table]? = some tab ∧ ∃ index ∈ tab.indexes, index.colNames = columns

/-- The objects that a database stores. -/
def Stores : StoredObject → Prop
  | .table name => ∃ tab, db.tabs[name]? = some tab
  | .index tableName columns => db.HasIndex tableName columns
  | .catalog | .log => True

/-- The names of the tables are SQL identifiers. -/
def TablesAreIdentifiers : Prop :=
  ∀ (key : Bytes) (tab : TabMeta), db.tabs[key]? = some tab → IsIdentifier key

/-- No two stored objects share a file. -/
def SeparateFiles : Prop :=
  ∀ a b : StoredObject, db.Stores a → db.Stores b → a.fileName = b.fileName → a = b

end DbMeta

/-- An identifier has no dot. -/
theorem dot_not_mem {name : Bytes} (h : IsIdentifier name) : (46 : UInt8) ∉ name := by
  intro hmem
  have hdot := h.isIdentChar hmem
  revert hdot
  decide

/-- The kind of a file by its name: a table's has no dot, the others differ in the last letter. -/
def fileKind (name : Bytes) : Option UInt8 :=
  if (46 : UInt8) ∈ name then name.getLast? else none

/-- The kind of an object's file. -/
def StoredObject.kind : StoredObject → Option UInt8
  | .table _ => none
  | .index _ _ => some 120
  | .catalog => some 97
  | .log => some 103

theorem fileKind_fileName {db : DbMeta} (hnames : db.TablesAreIdentifiers) {object : StoredObject}
    (h : db.Stores object) : fileKind object.fileName = object.kind := by
  cases object with
  | table name =>
    obtain ⟨tab, htab⟩ := h
    exact if_neg (dot_not_mem (hnames name tab htab))
  | index tableName columns =>
    have hdot : (46 : UInt8) ∈ IndexManager.makeIndexName tableName columns :=
      List.mem_append_right _ (by decide)
    have hlast : (IndexManager.makeIndexName tableName columns).getLast? = some 120 := by
      unfold IndexManager.makeIndexName
      rw [List.getLast?_append]
      rfl
    rw [StoredObject.fileName, fileKind, if_pos hdot, hlast]
    rfl
  | catalog => decide
  | log => decide

/-- The objects of a database are in separate files exactly when no two of its indexes have the same
words between the underscores of their table and column names. -/
theorem separateFiles_iff (db : DbMeta) (hnames : db.TablesAreIdentifiers) :
    db.SeparateFiles ↔
      ∀ (table table' : Bytes) (columns columns' : List Bytes), db.HasIndex table columns →
        db.HasIndex table' columns' → indexWords table columns = indexWords table' columns' →
        table = table' ∧ columns = columns' := by
  constructor
  · intro h table table' columns columns' hindex hindex' hwords
    have heq := h (.index table columns) (.index table' columns') hindex hindex'
      (makeIndexName_eq_iff.mpr hwords)
    simpa using heq
  · intro h a b ha hb hfile
    have hkind : a.kind = b.kind := by
      rw [← fileKind_fileName hnames ha, ← fileKind_fileName hnames hb, hfile]
    match a, b with
    | .table name, .table name' => exact congrArg StoredObject.table hfile
    | .index tableName columns, .index tableName' columns' =>
      obtain ⟨rfl, rfl⟩ := h _ _ _ _ ha hb (makeIndexName_eq_iff.mp hfile)
      rfl
    | .catalog, .catalog | .log, .log => rfl
    | .table _, .index _ _ | .table _, .catalog | .table _, .log | .index _ _, .table _
    | .index _ _, .catalog | .index _ _, .log | .catalog, .table _ | .catalog, .index _ _
    | .catalog, .log | .log, .table _ | .log, .index _ _ | .log, .catalog =>
      simp [StoredObject.kind] at hkind

/-- Storing a table whose name is an identifier. -/
theorem DbMeta.TablesAreIdentifiers.insert {db : DbMeta} (h : db.TablesAreIdentifiers)
    {tab : TabMeta} (htab : IsIdentifier tab.name) : (db.insert tab).TablesAreIdentifiers := by
  intro key tab' hget
  rw [getElem?_insert] at hget
  split_ifs at hget with hkey
  · exact hkey ▸ htab
  · exact h key tab' hget

theorem DbMeta.tablesAreIdentifiers_empty (name : Bytes) :
    (DbMeta.empty name).TablesAreIdentifiers := by
  intro key tab hget
  simp [DbMeta.empty] at hget

/-- A database of two tables and three indexes, of which two begin with the same words. -/
theorem separateFiles_iff_enrolment :
    enrolmentDb.TablesAreIdentifiers ∧ enrolmentDb.SeparateFiles := by
  have hnames : enrolmentDb.TablesAreIdentifiers :=
    ((DbMeta.tablesAreIdentifiers_empty _).insert (by decide)).insert (by decide)
  refine ⟨hnames, (separateFiles_iff enrolmentDb hnames).mpr ?_⟩
  let indexes : List (Bytes × List Bytes) :=
    [(text "student", [text "name"]), (text "enrolment", [text "student"]),
      (text "enrolment", [text "student", text "course"])]
  have honly : ∀ {table columns}, enrolmentDb.HasIndex table columns →
      (table, columns) ∈ indexes := by
    rintro table columns ⟨tab, htab, index, hindex, rfl⟩
    rw [enrolmentDb, studentDb, DbMeta.getElem?_insert, DbMeta.getElem?_insert] at htab
    split_ifs at htab with henrolment hstudent
    · obtain rfl := Option.some.inj htab
      obtain rfl := henrolment
      rcases List.mem_pair.mp hindex with rfl | rfl <;> decide
    · obtain rfl := Option.some.inj htab
      obtain rfl := hstudent
      obtain rfl := List.mem_singleton.mp hindex
      decide
    · simp [DbMeta.empty] at htab
  have hwords : ∀ a ∈ indexes, ∀ b ∈ indexes, indexWords a.1 a.2 = indexWords b.1 b.2 → a = b := by
    decide
  intro table table' columns columns' hindex hindex' heq
  exact Prod.mk.inj (hwords _ (honly hindex) _ (honly hindex') heq)

/-- The table `a_b(c)` with an index over `c`. -/
def joinedTable : TabMeta :=
  let c : ColMeta := ⟨text "a_b", text "c", .int, 4, 0, true⟩
  ⟨text "a_b", [c], [⟨text "a_b", 4, 1, false, [c]⟩]⟩

/-- The table `a(b, c)` with an index over `b` and `c`. -/
def splitTable : TabMeta :=
  let b : ColMeta := ⟨text "a", text "b", .int, 4, 0, true⟩
  let c : ColMeta := ⟨text "a", text "c", .int, 4, 4, true⟩
  ⟨text "a", [b, c], [⟨text "a", 8, 2, false, [b, c]⟩]⟩

/-- A valid catalog whose two indexes share the file `a_b_c.idx`. -/
def clashingDb : DbMeta := ((DbMeta.empty (text "db")).insert joinedTable).insert splitTable

theorem clashingDb_not_separate :
    clashingDb.Valid ∧ clashingDb.TablesAreIdentifiers ∧ ¬ clashingDb.SeparateFiles := by
  refine ⟨?_, ?_, fun hseparate => ?_⟩
  · exact ((DbMeta.valid_empty (by decide)).insert (by decide)).insert (by decide)
  · exact ((DbMeta.tablesAreIdentifiers_empty _).insert (by decide)).insert (by decide)
  · have hclash := hseparate (.index (text "a_b") [text "c"])
      (.index (text "a") [text "b", text "c"])
      ⟨joinedTable, rfl, _, List.mem_singleton_self _, rfl⟩
      ⟨splitTable, rfl, _, List.mem_singleton_self _, rfl⟩ rfl
    revert hclash
    decide

end Rucbase
