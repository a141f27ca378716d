import Rucbase.Catalog.JsonSpec

/-!
# The documented schema of db.meta

What a `db.meta` document describes, with its integers as they are written, against what
`operator>>` (`src/system/sm_meta.cpp`) makes of it. The reader converts `length` to an `int` before
it checks it: it accepts the documents that are documented once their lengths are reduced to `int`
(`documented_reduceLengths_iff`), so a length that an `int` does not hold may be replaced by another
one that passes the checks. Such documents are the only ones that it misreads:
`readRoot_faithful_iff`.
-/

namespace Rucbase

open Lib

/-! ## Changed documents -/

namespace Json

/-- An object with the value of a key replaced by what a function makes of it. -/
def mapKey (key : Bytes) (f : Json → Json) : Json → Json
  | .object fields =>
    .object (fields.map fun field => (field.1, if field.1 = key then f field.2 else field.2))
  | value => value

/-- An array with its elements replaced by what a function makes of them. -/
def mapArray (f : Json → Json) : Json → Json
  | .array values => .array (values.map f)
  | value => value

/-- A replaced key is found with its new value, and every other key with its old one. -/
theorem find?_mapKey (value : Json) (key : Bytes) (f : Json → Json) (other : Bytes) :
    (value.mapKey key f).find? other =
      if other = key then (value.find? other).map f else value.find? other := by
  cases value with
  | object fields =>
    induction fields with
    | nil => simp [mapKey, find?]
    | cons field fields ih =>
      simp only [mapKey, find?, List.map_cons, List.find?_cons] at ih ⊢
      by_cases hfield : field.1 = other
      · by_cases hkey : other = key <;> simp [hfield, hkey]
      · rw [beq_eq_false_iff_ne.mpr hfield]
        exact ih
  | _ => simp [mapKey, find?]

/-- The key itself. -/
theorem find?_mapKey_self (value : Json) (key : Bytes) (f : Json → Json) :
    (value.mapKey key f).find? key = (value.find? key).map f := by
  rw [find?_mapKey, if_pos rfl]

/-- Another key. -/
theorem find?_mapKey_ne (value : Json) {key other : Bytes} (f : Json → Json) (h : other ≠ key) :
    (value.mapKey key f).find? other = value.find? other := by
  rw [find?_mapKey, if_neg h]

/-- An array stays an array, and nothing else becomes one. -/
theorem map_mapArray_eq_some {field : Option Json} {f : Json → Json} {values : List Json} :
    field.map (mapArray f) = some (.array values) ↔
      ∃ old, field = some (.array old) ∧ values = old.map f := by
  rcases field with - | value
  · simp
  · cases value <;> simp [mapArray, eq_comm]

end Json

namespace DbMeta

/-! ## Descriptions -/

/-- The description of a column, by the integer that is written. -/
def DescribesColumn (value : Json) (col : ColSchema) : Prop :=
  value.find? (text "name") = some (.string col.name) ∧
    value.find? (text "type") = some (.string (typeName col.type)) ∧
    value.find? (text "length") = some (.int col.len)

/-- The description of a table. -/
def DescribesTable (value : Json) (schema : TabSchema) : Prop :=
  value.find? (text "name") = some (.string schema.name) ∧
    (∃ columns, value.find? (text "columns") = some (.array columns) ∧
      List.Forall₂ DescribesColumn columns schema.columns) ∧
    ∃ indexes, value.find? (text "indexes") = some (.array indexes) ∧
      List.Forall₂ SpellsIndex indexes schema.indexes

/-- The description of a catalog. -/
def Describes (root : Json) (name : Bytes) (schemas : List TabSchema) : Prop :=
  root.find? (text "database") = some (.string name) ∧
    ∃ tables, root.find? (text "tables") = some (.array tables) ∧
      List.Forall₂ DescribesTable tables schemas

/-- The documents of the documented schema. -/
def Documented (root : Json) : Prop :=
  ∃ (name : Bytes) (schemas : List TabSchema), Describes root name schemas ∧ name ≠ [] ∧
    (∀ schema ∈ schemas, schema.Valid) ∧ (schemas.map TabSchema.name).Nodup

/-- A catalog holds what the document describes: its name, and for each table the names, types,
lengths and flags. -/
def HoldsDescribed (root : Json) (db : DbMeta) : Prop :=
  ∃ (name : Bytes) (schemas : List TabSchema), Describes root name schemas ∧ db.name = name ∧
    (∀ schema ∈ schemas, db.tabs[schema.name]?.map TabMeta.schema = some schema) ∧
    ∀ key, key ∉ schemas.map TabSchema.name → db.tabs[key]? = none

/-- Some column of a document has a length that an `int` does not hold. -/
def HasWideLength (root : Json) : Prop :=
  ∃ tables table columns column n,
    root.find? (text "tables") = some (.array tables) ∧ table ∈ tables ∧
    table.find? (text "columns") = some (.array columns) ∧ column ∈ columns ∧
    column.find? (text "length") = some (.int n) ∧ toInt32 n ≠ n

/-- An integer reduced to the range of `int`. -/
def reduceInt : Json → Json
  | .int n => .int (toInt32 n)
  | value => value

/-- A column with its length reduced. -/
def reduceColumn : Json → Json := Json.mapKey (text "length") reduceInt

/-- A table with the lengths of its columns reduced. -/
def reduceTable : Json → Json := Json.mapKey (text "columns") (Json.mapArray reduceColumn)

/-- The document with the lengths of all columns reduced to the range of `int`. -/
def reduceLengths : Json → Json := Json.mapKey (text "tables") (Json.mapArray reduceTable)

/-! ## Related lists -/

section Related

variable {α β : Type} {R S : α → β → Prop} {xs : List α} {ys : List β}

theorem forall₂_of_mem (h : List.Forall₂ R xs ys) (himp : ∀ x ∈ xs, ∀ y ∈ ys, R x y → S x y) :
    List.Forall₂ S xs ys := by
  obtain ⟨hlen, hzip⟩ := List.forall₂_iff_zip.mp h
  refine List.forall₂_iff_zip.mpr ⟨hlen, fun {x y} hmem => ?_⟩
  obtain ⟨hx, hy⟩ := List.of_mem_zip hmem
  exact himp x hx y hy (hzip hmem)

theorem exists_of_mem_forall₂ (h : List.Forall₂ R xs ys) {x : α} (hx : x ∈ xs) :
    ∃ y ∈ ys, R x y := by
  induction h with
  | nil => simp at hx
  | cons hxy _ ih =>
    rcases List.mem_cons.mp hx with rfl | hx
    · exact ⟨_, List.mem_cons_self, hxy⟩
    · obtain ⟨y, hy, hrel⟩ := ih hx
      exact ⟨y, List.mem_cons_of_mem _ hy, hrel⟩

end Related

/-! ## Lengths that an int holds -/

variable {col : ColSchema} {schema : TabSchema} {value root : Json}

/-- The lengths of a valid schema are converted to themselves. -/
theorem toInt32_len_of_valid (h : schema.Valid) (hcol : col ∈ schema.columns) :
    toInt32 col.len = col.len := by
  have hrebuilt := TabSchema.rebuild_valid h
  obtain ⟨colMeta, hmem, rfl⟩ : ∃ colMeta ∈ schema.rebuild.cols, colMeta.schema = col := by
    rw [← List.mem_map, TabSchema.rebuild, map_schema_layout]
    exact hcol
  exact toInt32_len hrebuilt hmem

theorem spellsColumn_of_describes (h : DescribesColumn value col)
    (hlen : toInt32 col.len = col.len) : SpellsColumn value col :=
  ⟨h.1, h.2.1, col.len, h.2.2, hlen⟩

theorem describesColumn_of_spells (h : SpellsColumn value col)
    (hlen : ∀ n, value.find? (text "length") = some (.int n) → toInt32 n = n) :
    DescribesColumn value col := by
  obtain ⟨hname, htype, n, hn, hconv⟩ := h
  refine ⟨hname, htype, ?_⟩
  rw [hn, ← hconv, hlen n hn]

/-- What a document describes is read as it is written, when it is valid. -/
theorem spellsTable_of_describes (h : DescribesTable value schema) (hvalid : schema.Valid) :
    SpellsTable value schema := by
  obtain ⟨hname, ⟨columns, hcolumns, hspells⟩, hindexes⟩ := h
  refine ⟨hname, ⟨columns, hcolumns, ?_⟩, hindexes⟩
  exact forall₂_of_mem hspells fun value _ col hcol hdescribes =>
    spellsColumn_of_describes hdescribes (toInt32_len_of_valid hvalid hcol)

/-- What is read of a table is what its document describes, when an `int` holds its lengths. -/
theorem describesTable_of_spells (h : SpellsTable value schema)
    (hlen : ∀ columns, value.find? (text "columns") = some (.array columns) →
      ∀ column ∈ columns, ∀ n, column.find? (text "length") = some (.int n) → toInt32 n = n) :
    DescribesTable value schema := by
  obtain ⟨hname, ⟨columns, hcolumns, hspells⟩, hindexes⟩ := h
  refine ⟨hname, ⟨columns, hcolumns, ?_⟩, hindexes⟩
  exact forall₂_of_mem hspells fun column hcolumn col _ hspelt =>
    describesColumn_of_spells hspelt (hlen columns hcolumns column hcolumn)

/-- A documented document has no length that an `int` does not hold. -/
theorem Documented.not_hasWideLength (h : Documented root) : ¬HasWideLength root := by
  rintro ⟨tables, table, columns, column, n, htables, htable, hcolumns, hcolumn, hn, hwide⟩
  obtain ⟨name, schemas, ⟨-, tables', htables', hdescribes⟩, -, hvalid, -⟩ := h
  obtain rfl : tables' = tables := by simpa [htables] using htables'.symm
  obtain ⟨schema, hschema, -, ⟨columns', hcolumns', hcols⟩, -⟩ :=
    exists_of_mem_forall₂ hdescribes htable
  obtain rfl : columns' = columns := by simpa [hcolumns] using hcolumns'.symm
  obtain ⟨col, hcol, -, -, hlen⟩ := exists_of_mem_forall₂ hcols hcolumn
  obtain rfl : col.len = n := by simpa [hn] using hlen.symm
  exact hwide (toInt32_len_of_valid (hvalid schema hschema) hcol)

/-- Every documented document is accepted. -/
theorem readRoot_of_documented (h : Documented root) : ∃ db, readRoot root = .ok db := by
  obtain ⟨name, schemas, ⟨hname, tables, htables, hdescribes⟩, hne, hvalid, hnodup⟩ := h
  refine ⟨_, readRoot_eq_ok.mpr
    ⟨name, tables, schemas, hname, hne, htables, ?_, hvalid, hnodup, rfl⟩⟩
  exact forall₂_of_mem hdescribes fun value _ schema hschema hdescribed =>
    spellsTable_of_describes hdescribed (hvalid schema hschema)

/-- A document that is accepted, and whose lengths an `int` holds, is documented, and the catalog
holds what it describes. -/
theorem documented_of_readRoot {db : DbMeta} (h : readRoot root = .ok db)
    (hwide : ¬HasWideLength root) : Documented root ∧ HoldsDescribed root db := by
  obtain ⟨name, tables, schemas, hname, hne, htables, hspells, hvalid, hnodup, rfl⟩ :=
    readRoot_eq_ok.mp h
  have hdescribes : Describes root name schemas := by
    refine ⟨hname, tables, htables, forall₂_of_mem hspells fun table htable schema _ hspelt => ?_⟩
    refine describesTable_of_spells hspelt fun columns hcolumns column hcolumn n hn => ?_
    by_contra hne
    exact hwide ⟨tables, table, columns, column, n, htables, htable, hcolumns, hcolumn, hn, hne⟩
  refine ⟨⟨name, schemas, hdescribes, hne, hvalid, hnodup⟩, name, schemas, hdescribes,
    name_insertAll _ _, fun schema hschema => ?_, fun key hkey => ?_⟩
  · rw [getElem?_insertAll_of_mem hnodup hschema, Option.map_some,
      TabSchema.schema_rebuild (hvalid schema hschema)]
  · rw [getElem?_insertAll_of_notMem hkey]
    simp [DbMeta.empty]

/-! ## Reduced lengths -/

/-- A column describes what it spells, once its length is reduced. -/
theorem describesColumn_reduceColumn :
    DescribesColumn (reduceColumn value) col ↔ SpellsColumn value col := by
  have hlen : (value.find? (text "length")).map reduceInt = some (.int col.len) ↔
      ∃ n, value.find? (text "length") = some (.int n) ∧ toInt32 n = col.len := by
    rcases value.find? (text "length") with - | field
    · simp
    · cases field <;> simp [reduceInt]
  unfold DescribesColumn SpellsColumn reduceColumn
  rw [Json.find?_mapKey_ne _ _ (by decide), Json.find?_mapKey_ne _ _ (by decide),
    Json.find?_mapKey_self, hlen]

/-- A table describes what it spells, once the lengths of its columns are reduced. -/
theorem describesTable_reduceTable :
    DescribesTable (reduceTable value) schema ↔ SpellsTable value schema := by
  unfold DescribesTable SpellsTable reduceTable
  rw [Json.find?_mapKey_ne _ _ (by decide), Json.find?_mapKey_self,
    Json.find?_mapKey_ne _ _ (by decide)]
  refine and_congr_right fun _ => and_congr_left fun _ => ?_
  simp only [Json.map_mapArray_eq_some]
  constructor
  · rintro ⟨_, ⟨columns, hcolumns, rfl⟩, hdescribes⟩
    rw [List.forall₂_map_left_iff] at hdescribes
    exact ⟨columns, hcolumns, hdescribes.imp fun _ _ => describesColumn_reduceColumn.mp⟩
  · rintro ⟨columns, hcolumns, hspells⟩
    refine ⟨_, ⟨columns, hcolumns, rfl⟩, ?_⟩
    rw [List.forall₂_map_left_iff]
    exact hspells.imp fun _ _ => describesColumn_reduceColumn.mpr

/-- The reader accepts exactly the documents that are documented once their lengths are reduced. -/
theorem documented_reduceLengths_iff :
    Documented (reduceLengths root) ↔ ∃ db, readRoot root = .ok db := by
  simp only [readRoot_eq_ok, Documented, Describes, reduceLengths, Json.find?_mapKey_self,
    Json.find?_mapKey_ne _ _ (show text "database" ≠ text "tables" by decide),
    Json.map_mapArray_eq_some]
  constructor
  · rintro ⟨name, schemas, ⟨hname, _, ⟨tables, htables, rfl⟩, hdescribes⟩, hne, hvalid, hnodup⟩
    rw [List.forall₂_map_left_iff] at hdescribes
    exact ⟨_, name, tables, schemas, hname, hne, htables,
      hdescribes.imp fun _ _ => describesTable_reduceTable.mp, hvalid, hnodup, rfl⟩
  · rintro ⟨_, name, tables, schemas, hname, hne, htables, hspells, hvalid, hnodup, -⟩
    refine ⟨name, schemas, ⟨hname, _, ⟨tables, htables, rfl⟩, ?_⟩, hne, hvalid, hnodup⟩
    rw [List.forall₂_map_left_iff]
    exact hspells.imp fun _ _ => describesTable_reduceTable.mpr

/-- The reader accepts a document exactly when it is documented, and changes no value of it, unless
the document has a length that an `int` does not hold and is documented with its lengths reduced. -/
theorem readRoot_faithful_iff (root : Json) :
    (((∃ db, readRoot root = .ok db) ↔ Documented root) ∧
      ∀ db, readRoot root = .ok db → HoldsDescribed root db) ↔
      ¬(Documented (reduceLengths root) ∧ HasWideLength root) := by
  rw [documented_reduceLengths_iff]
  constructor
  · rintro ⟨haccepts, -⟩ ⟨haccepted, hwide⟩
    exact (haccepts.mp haccepted).not_hasWideLength hwide
  · intro h
    refine ⟨⟨fun haccepted => ?_, readRoot_of_documented⟩, fun db hread => ?_⟩
    · obtain ⟨db, hread⟩ := haccepted
      exact (documented_of_readRoot hread fun hwide => h ⟨⟨db, hread⟩, hwide⟩).1
    · exact (documented_of_readRoot hread fun hwide => h ⟨⟨db, hread⟩, hwide⟩).2

/-- A document whose one column has the length `2^32 + 4`. -/
def wideDocument : Json :=
  .object [(text "database", .string (text "school")),
    (text "tables", .array [.object [(text "name", .string (text "t")),
      (text "columns", .array [.object [(text "name", .string (text "id")),
        (text "type", .string (text "INT")), (text "length", .int (2 ^ 32 + 4))]]),
      (text "indexes", .array [])]])]

/-- It is accepted, though an INT has the length 4, and the column has the length 4. -/
theorem readRoot_wideDocument :
    ¬Documented wideDocument ∧ ∃ db tab, readRoot wideDocument = .ok db ∧
      db.tabs[text "t"]? = some tab ∧ tab.cols.map ColMeta.len = [4] := by
  let schema : TabSchema := ⟨text "t", [⟨text "id", .int, 4⟩], []⟩
  have hwide : HasWideLength wideDocument :=
    ⟨_, _, _, _, _, rfl, List.mem_cons_self, rfl, List.mem_cons_self, rfl, by decide⟩
  have hspells : SpellsTable (.object [(text "name", .string (text "t")),
      (text "columns", .array [.object [(text "name", .string (text "id")),
        (text "type", .string (text "INT")), (text "length", .int (2 ^ 32 + 4))]]),
      (text "indexes", .array [])]) schema :=
    ⟨rfl, ⟨_, rfl, .cons ⟨rfl, rfl, _, rfl, by decide⟩ .nil⟩, _, rfl, .nil⟩
  have hvalid : schema.Valid :=
    ⟨by decide, by decide, by decide, by decide, by decide, by decide, by decide, by decide,
      by decide, by decide⟩
  refine ⟨fun hdocumented => hdocumented.not_hasWideLength hwide, _, schema.rebuild,
    readRoot_eq_ok.mpr ⟨text "school", _, [schema], rfl, by decide, rfl, .cons hspells .nil,
      by simpa using hvalid, by simp, rfl⟩,
    getElem?_insertAll_of_mem (by simp) List.mem_cons_self, rfl⟩

end DbMeta

end Rucbase
