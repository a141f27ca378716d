import Rucbase.Catalog.Meta
import Mathlib.Data.List.Nodup

/-!
# What a catalog stores and what it derives

A table of a catalog is determined by little: its name, the name, type and length of each column,
and the column names and uniqueness of each index. That is its schema, and `db.meta` holds nothing
else. The rest (offsets, the marks of indexed columns, the copies of columns inside indexes, their
counts and lengths) is derived, and `TabSchema.rebuild` derives it.

Valid tables whose indexes name them and valid schemas are the same thing: `rebuild` of a valid
schema is a valid table with that schema (`rebuild_valid`, `schema_rebuild`), and a valid table is
what its schema rebuilds (`schema_valid`, `rebuild_schema`). The reader of `db.meta` and
`create_table` are proved to build what `rebuild` builds.
-/

namespace Rucbase

open Lib

/-- What is stored of a column; also `ColDef`, the definition of a column of a new table. -/
structure ColSchema where
  name : Bytes
  type : ColType
  len : ℤ
  deriving DecidableEq, Repr

/-- What is stored of an index. -/
structure IndexSchema where
  columns : List Bytes
  unique : Bool
  deriving DecidableEq, Repr

/-- What is stored of a table. -/
structure TabSchema where
  name : Bytes
  columns : List ColSchema
  indexes : List IndexSchema
  deriving DecidableEq, Repr

/-- The stored part of a column. -/
def ColMeta.schema (col : ColMeta) : ColSchema := ⟨col.name, col.type, col.len⟩

/-- The stored part of an index. -/
def IndexMeta.schema (index : IndexMeta) : IndexSchema := ⟨index.colNames, index.unique⟩

/-- The stored part of a table. -/
def TabMeta.schema (tab : TabMeta) : TabSchema :=
  ⟨tab.name, tab.cols.map ColMeta.schema, tab.indexes.map IndexMeta.schema⟩

/-- The length of a column is positive, and that of a number is four bytes. -/
def ColSchema.ValidLen (col : ColSchema) : Prop :=
  0 < col.len ∧ (col.type ≠ .string → col.len = 4)

instance (col : ColSchema) : Decidable col.ValidLen :=
  inferInstanceAs (Decidable (_ ∧ _))

/-- What holds of the schema of a valid table. -/
structure TabSchema.Valid (schema : TabSchema) : Prop where
  name_ne : schema.name ≠ []
  columns_ne : schema.columns ≠ []
  colName_ne : ∀ col ∈ schema.columns, col.name ≠ []
  colNames_nodup : (schema.columns.map ColSchema.name).Nodup
  validLen : ∀ col ∈ schema.columns, col.ValidLen
  recordSize_le : (schema.columns.map ColSchema.len).sum ≤ rmMaxRecordSize
  indexColumns_ne : ∀ index ∈ schema.indexes, index.columns ≠ []
  indexColumns_nodup : ∀ index ∈ schema.indexes, index.columns.Nodup
  indexes_nodup : (schema.indexes.map IndexSchema.columns).Nodup
  indexColumns_mem : ∀ index ∈ schema.indexes, ∀ name ∈ index.columns,
    name ∈ schema.columns.map ColSchema.name

/-! ## Laying out columns -/

/-- The columns of a table from `offset` on; `indexed` says which of them are marked. -/
def layout (tabName : Bytes) (indexed : Bytes → Bool) : ℤ → List ColSchema → List ColMeta
  | _, [] => []
  | offset, col :: columns =>
    ⟨tabName, col.name, col.type, col.len, offset, indexed col.name⟩ ::
      layout tabName indexed (offset + col.len) columns

section Layout

variable (tabName : Bytes) (indexed : Bytes → Bool) (offset : ℤ) (columns : List ColSchema)

@[simp]
theorem map_schema_layout :
    (layout tabName indexed offset columns).map ColMeta.schema = columns := by
  induction columns generalizing offset with
  | nil => rfl
  | cons col columns ih => simp [layout, ih, ColMeta.schema]

@[simp]
theorem map_name_layout :
    (layout tabName indexed offset columns).map ColMeta.name = columns.map ColSchema.name := by
  conv_rhs => rw [← map_schema_layout tabName indexed offset columns, List.map_map]
  rfl

@[simp]
theorem map_len_layout :
    (layout tabName indexed offset columns).map ColMeta.len = columns.map ColSchema.len := by
  conv_rhs => rw [← map_schema_layout tabName indexed offset columns, List.map_map]
  rfl

theorem tiles_layout : Tiles offset (layout tabName indexed offset columns) := by
  induction columns generalizing offset with
  | nil => trivial
  | cons col columns ih => exact ⟨rfl, ih _⟩

variable {tabName indexed offset columns}

/-- What is known of a column of a layout. -/
theorem of_mem_layout {col : ColMeta} (h : col ∈ layout tabName indexed offset columns) :
    col.schema ∈ columns ∧ col.tabName = tabName ∧ col.index = indexed col.name := by
  induction columns generalizing offset with
  | nil => simp [layout] at h
  | cons first columns ih =>
    rcases List.mem_cons.mp h with rfl | h
    · exact ⟨List.mem_cons_self .., rfl, rfl⟩
    · obtain ⟨hmem, hrest⟩ := ih h
      exact ⟨List.mem_cons_of_mem _ hmem, hrest⟩

/-- A column of a layout is in every layout that marks it in the same way. -/
theorem mem_layout_of_indexed {indexed' : Bytes → Bool} {col : ColMeta}
    (h : col ∈ layout tabName indexed offset columns)
    (hindexed : indexed' col.name = indexed col.name) :
    col ∈ layout tabName indexed' offset columns := by
  induction columns generalizing offset with
  | nil => simp [layout] at h
  | cons first columns ih =>
    rcases List.mem_cons.mp h with rfl | h
    · have hfirst : indexed' first.name = indexed first.name := hindexed
      rw [layout, hfirst]
      exact List.mem_cons_self ..
    · exact List.mem_cons_of_mem _ (ih h)

/-- Laying out the schemas of columns that tile a record gives the columns back. -/
theorem layout_schema {cols : List ColMeta} (htiles : Tiles offset cols)
    (htabName : ∀ col ∈ cols, col.tabName = tabName)
    (hindexed : ∀ col ∈ cols, indexed col.name = col.index) :
    layout tabName indexed offset (cols.map ColMeta.schema) = cols := by
  induction cols generalizing offset with
  | nil => rfl
  | cons col cols ih =>
    obtain ⟨hoffset, htiles⟩ := htiles
    have htab := htabName col (List.mem_cons_self ..)
    have hidx := hindexed col (List.mem_cons_self ..)
    have hrest := ih htiles (fun c hc => htabName c (List.mem_cons_of_mem _ hc))
      fun c hc => hindexed c (List.mem_cons_of_mem _ hc)
    rw [List.map_cons, layout]
    refine congrArg₂ List.cons ?_ hrest
    obtain ⟨tab, name, type, len, off, idx⟩ := col
    simp only at hoffset htab hidx
    simp [ColMeta.schema, hoffset, htab, hidx]

end Layout

/-- Among columns with different names, a name finds its column. -/
theorem find?_name {cols : List ColMeta} (hnodup : (cols.map ColMeta.name).Nodup) {col : ColMeta}
    (hcol : col ∈ cols) : cols.find? (·.name == col.name) = some col := by
  induction cols with
  | nil => simp at hcol
  | cons first cols ih =>
    rw [List.map_cons, List.nodup_cons] at hnodup
    rcases List.mem_cons.mp hcol with rfl | hcol
    · simp
    · have hne : first.name ≠ col.name := fun h => hnodup.1 (h ▸ List.mem_map_of_mem hcol)
      rw [List.find?_cons_of_neg (by simpa using hne)]
      exact ih hnodup.2 hcol

/-- Columns with different names are equal when their names are. -/
theorem eq_of_name_eq {cols : List ColMeta} (hnodup : (cols.map ColMeta.name).Nodup)
    {a b : ColMeta} (ha : a ∈ cols) (hb : b ∈ cols) (h : a.name = b.name) : a = b := by
  have hfind := find?_name hnodup ha
  rw [h, find?_name hnodup hb] at hfind
  exact (Option.some.inj hfind).symm

/-! ## Rebuilding a table -/

namespace TabSchema

/-- Whether some index contains the column. -/
def indexed (schema : TabSchema) (colName : Bytes) : Bool :=
  schema.indexes.any fun index => index.columns.contains colName

/-- The columns of the given names, in the order of the names. -/
def pick (cols : List ColMeta) (names : List Bytes) : List ColMeta :=
  names.filterMap fun name => cols.find? (·.name == name)

/-- The index of a schema over the given columns. -/
def makeIndex (tabName : Bytes) (cols : List ColMeta) (index : IndexSchema) : IndexMeta :=
  IndexMeta.rebuildDerived
    ⟨tabName, 0, 0, index.unique, pick cols index.columns⟩

/-- The columns of a table with all of them marked, as the indexes hold them. -/
def markedCols (schema : TabSchema) : List ColMeta :=
  layout schema.name (fun _ => true) 0 schema.columns

/-- The table with everything derived. -/
def rebuild (schema : TabSchema) : TabMeta where
  name := schema.name
  cols := layout schema.name schema.indexed 0 schema.columns
  indexes := schema.indexes.map (makeIndex schema.name schema.markedCols)

variable {col : ColMeta} {cols : List ColMeta} {names : List Bytes}

theorem pick_cons {name : Bytes} (h : cols.find? (·.name == name) = some col) :
    pick cols (name :: names) = col :: pick cols names := by
  simp [pick, h]

/-- A list of column names picks the columns of these names. -/
theorem colNames_pick (hmem : ∀ name ∈ names, name ∈ cols.map ColMeta.name) :
    (pick cols names).map ColMeta.name = names := by
  induction names with
  | nil => rfl
  | cons name names ih =>
    obtain ⟨col, hcol, hname⟩ := List.mem_map.mp (hmem name (List.mem_cons_self ..))
    have hsome : (cols.find? (·.name == name)).isSome :=
      List.find?_isSome.mpr ⟨col, hcol, by simpa using hname⟩
    obtain ⟨found, hfound⟩ := Option.isSome_iff_exists.mp hsome
    have hfoundName : found.name = name := by simpa using List.find?_some hfound
    rw [pick_cons hfound, List.map_cons, hfoundName,
      ih fun n hn => hmem n (List.mem_cons_of_mem _ hn)]

/-- Picking columns by their own names gives them back. -/
theorem pick_names {picked : List ColMeta} (hnodup : (cols.map ColMeta.name).Nodup)
    (hmem : ∀ col ∈ picked, col ∈ cols) : pick cols (picked.map ColMeta.name) = picked := by
  induction picked with
  | nil => rfl
  | cons col picked ih =>
    rw [List.map_cons, pick_cons (find?_name hnodup (hmem col (List.mem_cons_self ..))),
      ih fun c hc => hmem c (List.mem_cons_of_mem _ hc)]

theorem of_mem_pick (h : col ∈ pick cols names) : col ∈ cols ∧ col.name ∈ names := by
  obtain ⟨name, hname, hfind⟩ := List.mem_filterMap.mp h
  have hcolName : col.name = name := by simpa using List.find?_some hfind
  exact ⟨List.mem_of_find?_eq_some hfind, hcolName ▸ hname⟩

/-- A picked column is found by its name. -/
theorem mem_pick (hnodup : (cols.map ColMeta.name).Nodup) (hcol : col ∈ cols)
    (hname : col.name ∈ names) : col ∈ pick cols names :=
  List.mem_filterMap.mpr ⟨col.name, hname, find?_name hnodup hcol⟩

theorem indexed_iff {schema : TabSchema} {colName : Bytes} :
    schema.indexed colName = true ↔ ∃ index ∈ schema.indexes, colName ∈ index.columns := by
  simp [indexed]

/-! ## Valid schemas rebuild valid tables -/

/-- The columns of an index are marked columns of the table. -/
theorem mem_cols_of_mem_makeIndex {schema : TabSchema} {index : IndexSchema}
    (hindex : index ∈ schema.indexes)
    (hcol : col ∈ (makeIndex schema.name schema.markedCols index).cols) :
    col ∈ schema.rebuild.cols ∧ col.name ∈ index.columns ∧ col.index = true := by
  obtain ⟨hmarked, hname⟩ := of_mem_pick hcol
  have hindexed : schema.indexed col.name = true := indexed_iff.mpr ⟨index, hindex, hname⟩
  exact ⟨mem_layout_of_indexed hmarked hindexed, hname, (of_mem_layout hmarked).2.2⟩

section Rebuild

variable {schema : TabSchema} (h : schema.Valid)

include h

theorem markedCols_nodup : (schema.markedCols.map ColMeta.name).Nodup := by
  rw [markedCols, map_name_layout]
  exact h.colNames_nodup

/-- The columns of an index of the schema, by name. -/
theorem colNames_makeIndex {index : IndexSchema} (hindex : index ∈ schema.indexes) :
    (makeIndex schema.name schema.markedCols index).colNames = index.columns := by
  refine colNames_pick fun name hname => ?_
  rw [markedCols, map_name_layout]
  exact h.indexColumns_mem index hindex name hname

theorem index_iff_rebuild {col : ColMeta} (hcol : col ∈ schema.rebuild.cols) :
    col.index = true ↔ ∃ index ∈ schema.rebuild.indexes, col ∈ index.cols := by
  have hmark : col.index = schema.indexed col.name := (of_mem_layout hcol).2.2
  constructor
  · intro hindex
    obtain ⟨index, hmem, hname⟩ := indexed_iff.mp (hmark ▸ hindex)
    have hmarked : col ∈ schema.markedCols :=
      mem_layout_of_indexed hcol (by rw [← hmark, hindex])
    exact ⟨_, List.mem_map_of_mem hmem, mem_pick (markedCols_nodup h) hmarked hname⟩
  · rintro ⟨_, hmem, hcolIndex⟩
    obtain ⟨index, hindex, rfl⟩ := List.mem_map.mp hmem
    exact (mem_cols_of_mem_makeIndex hindex hcolIndex).2.2

theorem colNames_rebuild :
    schema.rebuild.indexes.map IndexMeta.colNames = schema.indexes.map IndexSchema.columns := by
  rw [rebuild, List.map_map]
  exact List.map_congr_left fun index hindex => colNames_makeIndex h hindex

/-- A valid schema rebuilds a valid table. -/
theorem rebuild_valid : schema.rebuild.Valid where
  name_ne := h.name_ne
  cols_ne hnil := by
    have hcolumns := map_schema_layout schema.name schema.indexed 0 schema.columns
    have hcols : layout schema.name schema.indexed 0 schema.columns = [] := hnil
    rw [hcols] at hcolumns
    exact h.columns_ne hcolumns.symm
  colName_ne col hcol := h.colName_ne _ (of_mem_layout hcol).1
  colNames_nodup := by
    rw [rebuild, map_name_layout]
    exact h.colNames_nodup
  validLen col hcol := h.validLen _ (of_mem_layout hcol).1
  tiles := tiles_layout ..
  recordSize_le := by
    rw [rebuild, map_len_layout]
    exact h.recordSize_le
  colTabName col hcol := (of_mem_layout hcol).2.1
  indexCols_ne := by
    intro _ hmem hnil
    obtain ⟨index, hindex, rfl⟩ := List.mem_map.mp hmem
    refine h.indexColumns_ne index hindex ?_
    rw [← colNames_makeIndex h hindex, IndexMeta.colNames, hnil]
    rfl
  indexCols_nodup := by
    intro _ hmem
    obtain ⟨index, hindex, rfl⟩ := List.mem_map.mp hmem
    rw [colNames_makeIndex h hindex]
    exact h.indexColumns_nodup index hindex
  indexes_nodup := by
    rw [colNames_rebuild h]
    exact h.indexes_nodup
  indexCols_mem := by
    intro _ hmem col hcol
    obtain ⟨index, hindex, rfl⟩ := List.mem_map.mp hmem
    exact (mem_cols_of_mem_makeIndex hindex hcol).1
  index_iff col hcol := index_iff_rebuild h hcol
  derived := by
    intro _ hmem
    obtain ⟨index, -, rfl⟩ := List.mem_map.mp hmem
    rfl

/-- A valid schema is the schema of what it rebuilds. -/
theorem schema_rebuild : schema.rebuild.schema = schema := by
  have hindexes : schema.rebuild.indexes.map IndexMeta.schema = schema.indexes := by
    calc schema.rebuild.indexes.map IndexMeta.schema
        = schema.indexes.map
            fun index => (makeIndex schema.name schema.markedCols index).schema := by
          rw [rebuild, List.map_map]
          rfl
      _ = schema.indexes.map id := by
          refine List.map_congr_left fun index hindex => ?_
          rw [IndexMeta.schema, colNames_makeIndex h hindex]
          rfl
      _ = schema.indexes := List.map_id _
  have hcolumns : schema.rebuild.cols.map ColMeta.schema = schema.columns :=
    map_schema_layout ..
  rw [TabMeta.schema, hindexes, hcolumns]
  rfl

end Rebuild

theorem rebuild_indexesNamed (schema : TabSchema) :
    ∀ index ∈ schema.rebuild.indexes, index.tabName = schema.rebuild.name := by
  intro _ hmem
  obtain ⟨index, -, rfl⟩ := List.mem_map.mp hmem
  rfl

end TabSchema

/-! ## Valid tables are rebuilt by their schemas -/

namespace TabMeta

variable {tab : TabMeta} (h : tab.Valid)

include h

/-- The schema of a valid table is valid. -/
theorem schema_valid : tab.schema.Valid where
  name_ne := h.name_ne
  columns_ne hnil := h.cols_ne (List.map_eq_nil_iff.mp hnil)
  colName_ne := by
    intro _ hmem
    obtain ⟨col, hcol, rfl⟩ := List.mem_map.mp hmem
    exact h.colName_ne col hcol
  colNames_nodup := by
    rw [TabMeta.schema, List.map_map]
    exact h.colNames_nodup
  validLen := by
    intro _ hmem
    obtain ⟨col, hcol, rfl⟩ := List.mem_map.mp hmem
    exact h.validLen col hcol
  recordSize_le := by
    rw [TabMeta.schema, List.map_map]
    exact h.recordSize_le
  indexColumns_ne := by
    intro _ hmem hnil
    obtain ⟨index, hindex, rfl⟩ := List.mem_map.mp hmem
    exact h.indexCols_ne index hindex (List.map_eq_nil_iff.mp hnil)
  indexColumns_nodup := by
    intro _ hmem
    obtain ⟨index, hindex, rfl⟩ := List.mem_map.mp hmem
    exact h.indexCols_nodup index hindex
  indexes_nodup := by
    rw [TabMeta.schema, List.map_map]
    exact h.indexes_nodup
  indexColumns_mem := by
    intro _ hmem name hname
    obtain ⟨index, hindex, rfl⟩ := List.mem_map.mp hmem
    obtain ⟨col, hcol, rfl⟩ := List.mem_map.mp hname
    rw [TabMeta.schema, List.map_map]
    exact List.mem_map_of_mem (h.indexCols_mem index hindex col hcol)

/-- In a valid table, a column is in an index when its name is. -/
theorem indexed_schema {col : ColMeta} (hcol : col ∈ tab.cols) :
    tab.schema.indexed col.name = col.index := by
  have hiff : tab.schema.indexed col.name = true ↔ col.index = true := by
    rw [TabSchema.indexed_iff, h.index_iff col hcol]
    constructor
    · rintro ⟨_, hmem, hname⟩
      obtain ⟨index, hindex, rfl⟩ := List.mem_map.mp hmem
      obtain ⟨col', hcol', hname⟩ := List.mem_map.mp hname
      have hmem := h.indexCols_mem index hindex col' hcol'
      have heq := eq_of_name_eq h.colNames_nodup hmem hcol hname
      exact ⟨index, hindex, heq ▸ hcol'⟩
    · rintro ⟨index, hindex, hmem⟩
      exact ⟨index.schema, List.mem_map_of_mem hindex, List.mem_map_of_mem hmem⟩
  exact Bool.eq_iff_iff.mpr hiff

/-- An index of a valid table that names the table is what its schema makes. -/
theorem makeIndex_schema {index : IndexMeta} (hindex : index ∈ tab.indexes)
    (hname : index.tabName = tab.name) :
    TabSchema.makeIndex tab.name tab.schema.markedCols index.schema = index := by
  have hcols : layout tab.name tab.schema.indexed 0 (tab.cols.map ColMeta.schema) = tab.cols :=
    layout_schema h.tiles h.colTabName fun col hcol => indexed_schema h hcol
  -- An index holds marked columns, and those are the same in both layouts.
  have hmem : ∀ col ∈ index.cols, col ∈ tab.schema.markedCols := by
    intro col hcol
    have htab := h.indexCols_mem index hindex col hcol
    have hmark : col.index = true := (h.index_iff col htab).mpr ⟨index, hindex, hcol⟩
    rw [← hcols] at htab
    exact mem_layout_of_indexed htab (by rw [← (of_mem_layout htab).2.2, hmark])
  have hpick : TabSchema.pick tab.schema.markedCols index.schema.columns = index.cols :=
    TabSchema.pick_names (TabSchema.markedCols_nodup (schema_valid h)) hmem
  have hderived := h.derived index hindex
  rw [TabSchema.makeIndex, hpick, ← hname]
  exact hderived

/-- A valid table whose indexes name it is what its schema rebuilds. -/
theorem rebuild_schema (hname : ∀ index ∈ tab.indexes, index.tabName = tab.name) :
    tab.schema.rebuild = tab := by
  have hcols : layout tab.name tab.schema.indexed 0 (tab.cols.map ColMeta.schema) = tab.cols :=
    layout_schema h.tiles h.colTabName fun col hcol => indexed_schema h hcol
  have hindexes : tab.schema.rebuild.indexes = tab.indexes := by
    calc tab.schema.rebuild.indexes
        = tab.indexes.map
            fun index => TabSchema.makeIndex tab.name tab.schema.markedCols index.schema := by
          rw [TabSchema.rebuild, TabMeta.schema, List.map_map]
          rfl
      _ = tab.indexes.map id :=
          List.map_congr_left fun index hindex => makeIndex_schema h hindex (hname index hindex)
      _ = tab.indexes := List.map_id _
  have hrebuild : tab.schema.rebuild =
      ⟨tab.name, layout tab.name tab.schema.indexed 0 (tab.cols.map ColMeta.schema),
        tab.schema.rebuild.indexes⟩ := rfl
  rw [hrebuild, hcols, hindexes]

end TabMeta

end Rucbase
