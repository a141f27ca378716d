import Rucbase.Catalog.Json
import Mathlib.Algebra.Order.BigOperators.Group.List
import Mathlib.Data.List.Nodup

/-!
# What the catalog reader accepts

A document spells a schema when its fields hold the schema's names, types, lengths and flags. Each
loop of the reader is taken apart here into what it accepts and what it leaves, from the state it
starts in. The loop over the indexes is the one that matters: it starts from the table that the
schema read so far rebuilds and, with one more index, is again at such a table
(`readIndex_rebuild`). So a table is read exactly when its document spells a valid schema
(`readTable_eq_ok`), and a catalog that is read is valid (`read_valid`). What the writer writes
spells the schema of the catalog, so it is read back (`readRoot_writeRoot`).
-/

namespace Rucbase

open Lib

namespace DbMeta

/-! ## Fields -/

variable {key tabName : Bytes} {value object : Json} {values : List Json} {offset : ℤ}
  {columns : List ColSchema} {indexed : Bytes → Bool}

theorem atKey_eq_ok {field : Json} :
    value.atKey key = .ok field ↔ value.find? key = some field := by
  unfold Json.atKey
  cases h : value.find? key with
  | none => simp
  | some f => simp

/-- A reader of a field reads what stands at the key. -/
theorem atKey_bind_eq_ok {α : Type} {read : Json → Except Error α} {a : α} :
    (object.atKey key >>= read) = .ok a ↔
      ∃ field, object.find? key = some field ∧ read field = .ok a := by
  rw [bind_eq_ok]
  simp only [atKey_eq_ok]

theorem arrayField_eq_ok :
    arrayField object key = .ok values ↔ object.find? key = some (.array values) := by
  rw [arrayField, atKey_bind_eq_ok]
  constructor
  · rintro ⟨field, hfield, h⟩
    cases field <;> simp_all
  · intro h
    exact ⟨_, h, by simp⟩

theorem stringField_eq_ok {s : Bytes} :
    stringField object key = .ok s ↔ object.find? key = some (.string s) := by
  rw [stringField, atKey_bind_eq_ok]
  constructor
  · rintro ⟨field, hfield, h⟩
    cases field <;> simp_all
  · intro h
    exact ⟨_, h, by simp⟩

theorem intField_eq_ok {n : ℤ} :
    intField object key = .ok n ↔ ∃ m, object.find? key = some (.int m) ∧ toInt32 m = n := by
  rw [intField, atKey_bind_eq_ok]
  constructor
  · rintro ⟨field, hfield, h⟩
    cases field <;> simp_all
  · rintro ⟨m, h, hm⟩
    exact ⟨_, h, by simp [hm]⟩

theorem readType_eq_ok {name : Bytes} {type : ColType} :
    readType name = .ok type ↔ name = typeName type := by
  unfold readType
  constructor
  · intro h
    split_ifs at h with h₁ h₂ h₃ <;> simp at h <;> rw [← h] <;> assumption
  · rintro rfl
    cases type <;> rfl

/-! ## Documents that spell a schema -/

/-- The document of a column. -/
def SpellsColumn (value : Json) (col : ColSchema) : Prop :=
  value.find? (text "name") = some (.string col.name) ∧
    value.find? (text "type") = some (.string (typeName col.type)) ∧
    ∃ n, value.find? (text "length") = some (.int n) ∧ toInt32 n = col.len

/-- The document of an index; `unique` may be missing. -/
def SpellsIndex (value : Json) (index : IndexSchema) : Prop :=
  value.find? (text "columns") = some (.array (index.columns.map .string)) ∧
    (value.find? (text "unique") = none ∧ index.unique = false ∨
      value.find? (text "unique") = some (.bool index.unique))

/-- The document of a table. -/
def SpellsTable (value : Json) (schema : TabSchema) : Prop :=
  value.find? (text "name") = some (.string schema.name) ∧
    (∃ columns, value.find? (text "columns") = some (.array columns) ∧
      List.Forall₂ SpellsColumn columns schema.columns) ∧
    ∃ indexes, value.find? (text "indexes") = some (.array indexes) ∧
      List.Forall₂ SpellsIndex indexes schema.indexes

/-- A value with a field is an object. -/
theorem requireObject_of_find? {field : Json} (h : value.find? key = some field) :
    requireObject value = .ok () := by
  cases value with
  | object fields => rfl
  | _ => simp [Json.find?] at h

/-! ## Columns -/

/-- The check of a column's length. -/
theorem not_badLen_iff {type : ColType} {len : ℤ} :
    ¬(len ≤ 0 ∨ (type = .int ∧ len ≠ 4) ∨ (type = .float ∧ len ≠ 4)) ↔
      0 < len ∧ (type ≠ .string → len = 4) := by
  cases type with
  | int => simp
  | float => simp
  | string => simp

theorem readColumn_eq_ok {tableName : Bytes} {column : ColMeta} :
    readColumn value tableName offset = .ok column ↔
      ∃ col : ColSchema, SpellsColumn value col ∧ col.name ≠ [] ∧ col.ValidLen ∧
        column = ⟨tableName, col.name, col.type, col.len, offset, false⟩ := by
  simp only [readColumn, bind_eq_ok, stringField_eq_ok, readType_eq_ok, intField_eq_ok,
    throwIf_eq_ok, pure_eq_ok]
  constructor
  · rintro ⟨_, -, name, hname, _, htype, type, rfl, len, hlen, _, hcheck, rfl⟩
    rw [not_or, not_badLen_iff] at hcheck
    exact ⟨⟨name, type, len⟩, ⟨hname, htype, hlen⟩, hcheck.1, hcheck.2, rfl⟩
  · rintro ⟨col, ⟨hname, htype, hlen⟩, hne, hvalid, rfl⟩
    exact ⟨(), requireObject_of_find? hname, _, hname, _, htype, _, rfl, _, hlen, (),
      not_or.mpr ⟨hne, not_badLen_iff.mpr hvalid⟩, rfl⟩

/-- One more column with a new name. -/
theorem nodup_names_concat {cols : List ColMeta} (hnodup : (cols.map ColMeta.name).Nodup)
    (col : ColMeta) (hfresh : col.name ∉ cols.map ColMeta.name) :
    ((cols ++ [col]).map ColMeta.name).Nodup := by
  simpa using List.Nodup.concat hfresh hnodup

/-- The loop over the columns, from columns that are read already. It accepts documents of columns
with names and lengths that are valid, no name twice, and no more than the record may hold, and lays
them out. -/
theorem readColumns_eq_ok {tableName : Bytes} {cols result : List ColMeta}
    (hnodup : (cols.map ColMeta.name).Nodup) (hoffset : offset ≤ rmMaxRecordSize) :
    readColumns tableName values cols offset = .ok result ↔
      ∃ columns, List.Forall₂ SpellsColumn values columns ∧
        (∀ col ∈ columns, col.name ≠ [] ∧ col.ValidLen) ∧
        (cols.map ColMeta.name ++ columns.map ColSchema.name).Nodup ∧
        offset + (columns.map ColSchema.len).sum ≤ rmMaxRecordSize ∧
        result = cols ++ layout tableName (fun _ => false) offset columns := by
  induction values generalizing cols offset with
  | nil =>
    constructor
    · intro h
      rw [readColumns, pure_eq_ok] at h
      exact ⟨[], .nil, by simp, by simpa using hnodup, by simpa using hoffset, by simp [layout, h]⟩
    · rintro ⟨columns, hspells, -, -, -, rfl⟩
      rw [List.forall₂_nil_left_iff.mp hspells]
      simp [readColumns, layout]
  | cons value values ih =>
    simp only [readColumns, bind_eq_ok, readColumn_eq_ok, throwIf_eq_ok, not_or, List.any_eq_true,
      beq_iff_eq, ← List.mem_map, not_lt]
    constructor
    · rintro ⟨_, ⟨col, hspells, hne, hvalid, rfl⟩, _, ⟨hfresh, hroom⟩, h⟩
      have hnodup' := nodup_names_concat hnodup
        ⟨tableName, col.name, col.type, col.len, offset, false⟩ hfresh
      have hoffset' : offset + col.len ≤ rmMaxRecordSize := add_le_of_le_sub_left hroom
      obtain ⟨columns, hrest, hcolumns, hnames, hsum, rfl⟩ := (ih hnodup' hoffset').mp h
      refine ⟨col :: columns, .cons hspells hrest, ?_, ?_, ?_, ?_⟩
      · simpa using ⟨⟨hne, hvalid⟩, hcolumns⟩
      · simpa using hnames
      · rw [List.map_cons, List.sum_cons]
        omega
      · simp [layout]
    · rintro ⟨columns, hspells, hcolumns, hnames, hsum, rfl⟩
      obtain ⟨col, columns, hcol, hrest, rfl⟩ := List.forall₂_cons_left_iff.mp hspells
      obtain ⟨⟨hne, hvalid⟩, hcolumns'⟩ := List.forall_mem_cons.mp hcolumns
      have hfresh : col.name ∉ cols.map ColMeta.name := by
        intro hmem
        exact (List.nodup_append.mp hnames).2.2 _ hmem _ (List.mem_cons_self ..) rfl
      rw [List.map_cons, List.sum_cons] at hsum
      have hnonneg := sum_len_nonneg fun c hc => (hcolumns' c hc).2.1
      have hoffset' : offset + col.len ≤ rmMaxRecordSize := by omega
      refine ⟨_, ⟨col, hcol, hne, hvalid, rfl⟩, (), ⟨hfresh, le_sub_left_of_add_le hoffset'⟩,
        (ih (nodup_names_concat hnodup _ hfresh) hoffset').mpr
          ⟨columns, hrest, hcolumns', ?_, by omega, by simp [layout]⟩⟩
      simpa using hnames

/-! ## Indexes -/

/-- The loop over the column names of an index. -/
theorem readNames_eq_ok {names result : List Bytes} (hnodup : names.Nodup) :
    readNames values names = .ok result ↔
      ∃ columns : List Bytes, values = columns.map .string ∧ (∀ name ∈ columns, name ≠ []) ∧
        (names ++ columns).Nodup ∧ result = names ++ columns := by
  induction values generalizing names with
  | nil =>
    constructor
    · intro h
      rw [readNames, pure_eq_ok] at h
      exact ⟨[], rfl, by simp, by simpa using hnodup, by simp [h]⟩
    · rintro ⟨columns, hvalues, -, -, rfl⟩
      rw [List.map_eq_nil_iff.mp hvalues.symm]
      simp [readNames]
  | cons value values ih =>
    constructor
    · intro h
      cases value with
      | string name =>
        rw [readNames] at h
        obtain ⟨_, hcheck, h⟩ := bind_eq_ok.mp h
        rw [throwIf_eq_ok, not_or] at hcheck
        obtain ⟨columns, rfl, hne, hnames, rfl⟩ :=
          (ih (by simpa using List.Nodup.concat hcheck.2 hnodup)).mp h
        refine ⟨name :: columns, rfl, ?_, by simpa using hnames, by simp⟩
        simpa using ⟨hcheck.1, hne⟩
      | _ => simp [readNames] at h
    · rintro ⟨columns, hvalues, hne, hnames, rfl⟩
      cases columns with
      | nil => simp at hvalues
      | cons name columns =>
        obtain ⟨rfl, rfl⟩ := List.cons.inj hvalues
        have hfresh : name ∉ names := fun hmem =>
          (List.nodup_append.mp hnames).2.2 _ hmem _ (List.mem_cons_self ..) rfl
        have hnames' : (names ++ [name] ++ columns).Nodup := by simpa using hnames
        rw [readNames]
        refine bind_eq_ok.mpr ⟨(), ?_, ?_⟩
        · rw [throwIf_eq_ok, not_or]
          exact ⟨hne name (List.mem_cons_self ..), hfresh⟩
        · exact (ih hnames'.of_append_left).mpr ⟨columns, rfl,
            fun n hn => hne n (List.mem_cons_of_mem _ hn), hnames', by simp⟩

/-- The mark of a column. -/
def mark (col : ColMeta) : ColMeta := { col with index := true }

theorem find?_map_mark (cols : List ColMeta) (name : Bytes) :
    (cols.map mark).find? (·.name == name) = (cols.find? (·.name == name)).map mark := by
  rw [List.find?_map]
  rfl

theorem map_mark_layout (tabName : Bytes) (indexed : Bytes → Bool) (offset : ℤ)
    (columns : List ColSchema) :
    (layout tabName indexed offset columns).map mark =
      layout tabName (fun _ => true) offset columns := by
  induction columns generalizing offset with
  | nil => rfl
  | cons col columns ih => simp [layout, ih, mark]

theorem layout_congr {indexed' : Bytes → Bool}
    (h : ∀ col ∈ columns, indexed col.name = indexed' col.name) :
    layout tabName indexed offset columns = layout tabName indexed' offset columns := by
  induction columns generalizing offset with
  | nil => rfl
  | cons col columns ih =>
    rw [layout, layout, h col (List.mem_cons_self ..),
      ih fun c hc => h c (List.mem_cons_of_mem _ hc)]

/-- Marking a column of a layout is laying the columns out with one more mark. -/
theorem markColumn_layout {colName : Bytes} (hnodup : (columns.map ColSchema.name).Nodup) :
    markColumn colName (layout tabName indexed offset columns) =
      layout tabName (fun name => indexed name || name == colName) offset columns := by
  induction columns generalizing offset with
  | nil => rfl
  | cons col columns ih =>
    rw [List.map_cons, List.nodup_cons] at hnodup
    rw [layout, markColumn]
    split_ifs with h
    · -- The name stands here, so it does not stand in the rest.
      have hrest : layout tabName indexed (offset + col.len) columns =
          layout tabName (fun name => indexed name || name == colName) (offset + col.len)
            columns := by
        refine layout_congr fun c hc => ?_
        have hne : c.name ≠ colName := fun hname =>
          hnodup.1 (by rw [show col.name = c.name from h.trans hname.symm]
                       exact List.mem_map_of_mem hc)
        simp [hne]
      have hcol : col.name = colName := h
      rw [layout, hrest]
      simp [hcol]
    · have hcol : col.name ≠ colName := h
      rw [ih hnodup.2, layout]
      simp [hcol]

/-- The loop that marks and copies the columns of an index. -/
theorem markColumns_eq_ok (hnodup : (columns.map ColSchema.name).Nodup) {names : List Bytes}
    {copied : List ColMeta} {result : List ColMeta × List ColMeta} :
    markColumns names (layout tabName indexed offset columns) copied = .ok result ↔
      (∀ name ∈ names, name ∈ columns.map ColSchema.name) ∧
        result = (layout tabName (fun name => indexed name || names.contains name) offset columns,
          copied ++ TabSchema.pick (layout tabName (fun _ => true) offset columns) names) := by
  induction names generalizing indexed copied with
  | nil =>
    rw [markColumns, pure_eq_ok, eq_comm]
    simp [TabSchema.pick]
  | cons name names ih =>
    rw [markColumns]
    have hmarked := find?_map_mark (layout tabName indexed offset columns) name
    rw [map_mark_layout] at hmarked
    cases hfind : (layout tabName indexed offset columns).find? (·.name == name) with
    | none =>
      have hmissing : name ∉ columns.map ColSchema.name := by
        rw [← map_name_layout tabName indexed offset]
        intro hmem
        obtain ⟨col, hcol, hname⟩ := List.mem_map.mp hmem
        exact List.find?_eq_none.mp hfind col hcol (by simpa using hname)
      simp only [throw_ne_ok, false_iff, not_and]
      exact fun hall => absurd (hall name (List.mem_cons_self ..)) hmissing
    | some col =>
      have hpresent : name ∈ columns.map ColSchema.name := by
        rw [← map_name_layout tabName indexed offset]
        have hname : col.name = name := by simpa using List.find?_some hfind
        exact hname ▸ List.mem_map_of_mem (List.mem_of_find?_eq_some hfind)
      rw [hfind, Option.map_some] at hmarked
      simp only [markColumn_layout hnodup, ih, TabSchema.pick_cons hmarked, List.forall_mem_cons,
        hpresent, true_and, List.contains_cons, Bool.or_assoc, List.append_assoc,
        List.singleton_append]
      rfl

theorem readUnique_eq_ok {unique : Bool} :
    readUnique value = .ok unique ↔
      (value.find? (text "unique") = none ∧ unique = false ∨
        value.find? (text "unique") = some (.bool unique)) := by
  unfold readUnique
  cases h : value.find? (text "unique") with
  | none =>
    rw [pure_eq_ok, eq_comm]
    simp
  | some field => cases field <;> simp

end DbMeta

/-- The schema with one more index. -/
def TabSchema.extend (schema : TabSchema) (index : IndexSchema) : TabSchema :=
  { schema with indexes := schema.indexes ++ [index] }

/-- A valid schema is valid with fewer indexes. -/
theorem TabSchema.valid_of_append {schema : TabSchema} {indexes : List IndexSchema}
    (h : ({ schema with indexes := schema.indexes ++ indexes } : TabSchema).Valid) :
    schema.Valid := by
  have hsub : ∀ i ∈ schema.indexes, i ∈ schema.indexes ++ indexes :=
    fun i hi => List.mem_append_left _ hi
  refine ⟨h.name_ne, h.columns_ne, h.colName_ne, h.colNames_nodup, h.validLen, h.recordSize_le,
    fun i hi => h.indexColumns_ne i (hsub i hi), fun i hi => h.indexColumns_nodup i (hsub i hi), ?_,
    fun i hi => h.indexColumns_mem i (hsub i hi)⟩
  have hnodup := h.indexes_nodup
  rw [List.map_append] at hnodup
  exact hnodup.of_append_left

/-- When one more index keeps a schema valid. -/
theorem TabSchema.extend_valid_iff {schema : TabSchema} (h : schema.Valid) {index : IndexSchema} :
    (schema.extend index).Valid ↔
      index.columns ≠ [] ∧ index.columns.Nodup ∧
        index.columns ∉ schema.indexes.map IndexSchema.columns ∧
        ∀ name ∈ index.columns, name ∈ schema.columns.map ColSchema.name := by
  constructor
  · intro hext
    have hmem : index ∈ (schema.extend index).indexes :=
      List.mem_append_right _ (List.mem_singleton_self _)
    refine ⟨hext.indexColumns_ne index hmem, hext.indexColumns_nodup index hmem, ?_,
      hext.indexColumns_mem index hmem⟩
    have hnodup := hext.indexes_nodup
    rw [extend, List.map_append, List.nodup_append] at hnodup
    exact fun hold => hnodup.2.2 _ hold _ (List.mem_singleton_self _) rfl
  · rintro ⟨hne, hnodup, hnew, hcols⟩
    have hall : ∀ P : IndexSchema → Prop, (∀ i ∈ schema.indexes, P i) → P index →
        ∀ i ∈ (schema.extend index).indexes, P i := by
      intro P hold hindex i hi
      rcases List.mem_append.mp hi with hi | hi
      · exact hold i hi
      · rw [List.mem_singleton.mp hi]
        exact hindex
    refine ⟨h.name_ne, h.columns_ne, h.colName_ne, h.colNames_nodup, h.validLen, h.recordSize_le,
      hall _ h.indexColumns_ne hne, hall _ h.indexColumns_nodup hnodup, ?_,
      hall _ h.indexColumns_mem hcols⟩
    simpa [extend] using List.Nodup.concat hnew h.indexes_nodup

namespace DbMeta

variable {schema : TabSchema} {db : DbMeta}

/-- The check that no index of the table has the same columns. -/
theorem isIndex_rebuild (h : schema.Valid) (names : List Bytes) :
    schema.rebuild.isIndex names = true ↔ names ∈ schema.indexes.map IndexSchema.columns := by
  rw [← TabSchema.colNames_rebuild h]
  simp [TabMeta.isIndex, TabMeta.matchesIndex]

/-- Reading an index, from a table that a valid schema rebuilds. -/
theorem readIndex_rebuild (h : schema.Valid) {value : Json} {result : IndexMeta × TabMeta} :
    readIndex value schema.rebuild = .ok result ↔
      ∃ index, SpellsIndex value index ∧ (schema.extend index).Valid ∧
        result = (TabSchema.makeIndex schema.name schema.markedCols index,
          ⟨schema.name, (schema.extend index).rebuild.cols, schema.rebuild.indexes⟩) := by
  -- The marks that the reader adds are those of the schema with the new index.
  have hindexed : ∀ index : IndexSchema,
      (fun name => schema.indexed name || index.columns.contains name) =
        (schema.extend index).indexed := by
    intro index
    funext name
    simp [TabSchema.indexed, TabSchema.extend]
  simp only [readIndex, bind_eq_ok, arrayField_eq_ok, throwIf_eq_ok, readUnique_eq_ok,
    readNames_eq_ok List.nodup_nil, pure_eq_ok]
  constructor
  · rintro ⟨_, -, _, hcolumns, _, hempty, names, ⟨_, rfl, -, hnodup, rfl⟩, _, hnew, unique, hunique,
      ⟨cols, copied⟩, hmark, hread⟩
    rw [isIndex_rebuild h] at hnew
    obtain ⟨hmem, hresult⟩ := (markColumns_eq_ok h.colNames_nodup).mp hmark
    obtain ⟨rfl, rfl⟩ := Prod.mk.inj hresult
    refine ⟨⟨names, unique⟩, ⟨hcolumns, hunique⟩, (TabSchema.extend_valid_iff h).mpr
      ⟨?_, hnodup, hnew, hmem⟩, ?_⟩
    · rintro rfl
      simp at hempty
    · rw [← hread, hindexed ⟨names, unique⟩]
      rfl
  · rintro ⟨index, ⟨hcolumns, hunique⟩, hvalid, rfl⟩
    obtain ⟨hne, hnodup, hnew, hmem⟩ := (TabSchema.extend_valid_iff h).mp hvalid
    have hnames : ∀ name ∈ index.columns, name ≠ [] := by
      intro name hname
      obtain ⟨col, hcol, rfl⟩ := List.mem_map.mp (hmem name hname)
      exact h.colName_ne col hcol
    refine ⟨(), requireObject_of_find? hcolumns, _, hcolumns, (), by simpa using hne, index.columns,
      ⟨_, rfl, hnames, hnodup, rfl⟩, (), ?_, _, hunique, _,
      (markColumns_eq_ok h.colNames_nodup).mpr ⟨hmem, rfl⟩, ?_⟩
    · rw [isIndex_rebuild h]
      exact hnew
    · rw [hindexed index]
      rfl

/-- The loop over the indexes, from a table that a valid schema rebuilds. -/
theorem readIndexes_eq_ok (h : schema.Valid) {values : List Json} {table : TabMeta} :
    readIndexes values schema.rebuild = .ok table ↔
      ∃ indexes, List.Forall₂ SpellsIndex values indexes ∧
        ({ schema with indexes := schema.indexes ++ indexes } : TabSchema).Valid ∧
        table = ({ schema with indexes := schema.indexes ++ indexes } : TabSchema).rebuild := by
  induction values generalizing schema with
  | nil =>
    constructor
    · intro hread
      rw [readIndexes, pure_eq_ok] at hread
      exact ⟨[], .nil, by simpa using h, by simp [hread]⟩
    · rintro ⟨indexes, hspells, -, rfl⟩
      rw [List.forall₂_nil_left_iff.mp hspells]
      simp [readIndexes]
  | cons value values ih =>
    -- Reading one index leads from the table of a schema to the table of the extended one.
    have hstep : ∀ index : IndexSchema, (⟨schema.name, (schema.extend index).rebuild.cols,
        schema.rebuild.indexes ++ [TabSchema.makeIndex schema.name schema.markedCols index]⟩ :
          TabMeta) = (schema.extend index).rebuild := by
      intro index
      simp [TabSchema.rebuild, TabSchema.extend, TabSchema.markedCols]
    have happend : ∀ (index : IndexSchema) (indexes : List IndexSchema),
        ({ schema with indexes := schema.indexes ++ index :: indexes } : TabSchema) =
          { schema.extend index with indexes := (schema.extend index).indexes ++ indexes } := by
      intro index indexes
      simp [TabSchema.extend]
    simp only [readIndexes, bind_eq_ok, readIndex_rebuild h]
    constructor
    · rintro ⟨_, ⟨index, hspells, hvalid, rfl⟩, hread⟩
      simp only [hstep] at hread
      obtain ⟨indexes, hrest, hall, rfl⟩ := (ih hvalid).mp hread
      exact ⟨index :: indexes, .cons hspells hrest, happend index indexes ▸ hall,
        by rw [happend]⟩
    · rintro ⟨indexes, hspells, hall, rfl⟩
      obtain ⟨index, indexes, hindex, hrest, rfl⟩ := List.forall₂_cons_left_iff.mp hspells
      rw [happend] at hall
      have hvalid : (schema.extend index).Valid := TabSchema.valid_of_append hall
      refine ⟨_, ⟨index, hindex, hvalid, rfl⟩, ?_⟩
      simp only [hstep]
      exact (ih hvalid).mpr ⟨indexes, hrest, hall, by rw [happend]⟩

/-! ## Tables -/

/-- Before the indexes, the table is that of the schema without them. -/
theorem rebuild_nil (name : Bytes) (columns : List ColSchema) :
    (⟨name, layout name (fun _ => false) 0 columns, []⟩ : TabMeta) =
      TabSchema.rebuild ⟨name, columns, []⟩ := rfl

/-- A table is read when its document spells a valid schema; it is then the table that the schema
rebuilds. -/
theorem readTable_eq_ok {value : Json} {table : TabMeta} :
    readTable value = .ok table ↔
      ∃ schema : TabSchema, SpellsTable value schema ∧ schema.Valid ∧ table = schema.rebuild := by
  simp only [readTable, bind_eq_ok, stringField_eq_ok, throwIf_eq_ok, arrayField_eq_ok]
  constructor
  · rintro ⟨_, -, name, hname, _, hne, columns, hcolumns, _, hempty, cols, hcols, indexes, hindexes,
      hread⟩
    rw [readColumns_eq_ok (by simp) (by decide)] at hcols
    obtain ⟨schemas, hspells, hschemas, hnodup, hsum, rfl⟩ := hcols
    have hvalid : (⟨name, schemas, []⟩ : TabSchema).Valid := by
      refine ⟨hne, ?_, fun col hcol => (hschemas col hcol).1, by simpa using hnodup,
        fun col hcol => (hschemas col hcol).2, by simpa using hsum, by simp, by simp, by simp,
        by simp⟩
      rintro rfl
      rw [List.forall₂_nil_right_iff.mp hspells] at hempty
      simp at hempty
    rw [List.nil_append, rebuild_nil, readIndexes_eq_ok hvalid] at hread
    obtain ⟨indexSchemas, hindexSpells, hall, rfl⟩ := hread
    exact ⟨_, ⟨hname, ⟨columns, hcolumns, hspells⟩, indexes, hindexes, hindexSpells⟩, hall, rfl⟩
  · rintro ⟨schema, ⟨hname, ⟨columns, hcolumns, hspells⟩, indexes, hindexes, hindexSpells⟩, hvalid,
      rfl⟩
    have hstart : (⟨schema.name, schema.columns, []⟩ : TabSchema).Valid := by
      have happend : (⟨schema.name, schema.columns, [] ++ schema.indexes⟩ : TabSchema).Valid :=
        hvalid
      exact TabSchema.valid_of_append happend
    have hempty : ¬columns.isEmpty := by
      rw [List.isEmpty_iff]
      rintro rfl
      exact hvalid.columns_ne (List.forall₂_nil_left_iff.mp hspells)
    have hcols : readColumns schema.name columns [] 0 = .ok _ :=
      (readColumns_eq_ok (by simp) (by decide)).mpr ⟨schema.columns, hspells,
        fun col hcol => ⟨hvalid.colName_ne col hcol, hvalid.validLen col hcol⟩,
        by simpa using hvalid.colNames_nodup, by simpa using hvalid.recordSize_le, rfl⟩
    refine ⟨(), requireObject_of_find? hname, _, hname, (), hvalid.name_ne, columns, hcolumns, (),
      hempty, _, hcols, indexes, hindexes, ?_⟩
    rw [List.nil_append, rebuild_nil, readIndexes_eq_ok hstart]
    exact ⟨schema.indexes, hindexSpells, hvalid, rfl⟩

/-- The catalog with the tables of some schemas stored under their names. -/
def insertAll (db : DbMeta) (schemas : List TabSchema) : DbMeta :=
  schemas.foldl (fun db schema => db.insert schema.rebuild) db

/-- The loop over the tables. -/
theorem readTables_eq_ok {values : List Json} {result : DbMeta} :
    readTables values db = .ok result ↔
      ∃ schemas, List.Forall₂ SpellsTable values schemas ∧ (∀ schema ∈ schemas, schema.Valid) ∧
        (schemas.map TabSchema.name).Nodup ∧ (∀ schema ∈ schemas, db.isTable schema.name = false) ∧
        result = db.insertAll schemas := by
  induction values generalizing db with
  | nil =>
    constructor
    · intro h
      rw [readTables, pure_eq_ok] at h
      exact ⟨[], .nil, by simp, by simp, by simp, h.symm⟩
    · rintro ⟨schemas, hspells, -, -, -, rfl⟩
      rw [List.forall₂_nil_left_iff.mp hspells]
      simp [readTables, insertAll]
  | cons value values ih =>
    have hisTable : ∀ (schema : TabSchema) (name : Bytes),
        (db.insert schema.rebuild).isTable name = false ↔
          schema.name ≠ name ∧ db.isTable name = false := by
      intro schema name
      simp [isTable, DbMeta.insert, TabSchema.rebuild]
    simp only [readTables, bind_eq_ok, readTable_eq_ok, throwIf_eq_ok, Bool.not_eq_true, ih]
    constructor
    · rintro ⟨_, ⟨schema, hspells, hvalid, rfl⟩, _, hnew, schemas, hrest, hall, hnodup, hfresh, rfl⟩
      refine ⟨schema :: schemas, .cons hspells hrest, List.forall_mem_cons.mpr ⟨hvalid, hall⟩, ?_,
        List.forall_mem_cons.mpr ⟨hnew, fun s hs => ((hisTable schema _).mp (hfresh s hs)).2⟩, rfl⟩
      rw [List.map_cons, List.nodup_cons]
      refine ⟨fun hmem => ?_, hnodup⟩
      obtain ⟨s, hs, hname⟩ := List.mem_map.mp hmem
      exact ((hisTable schema _).mp (hfresh s hs)).1 hname.symm
    · rintro ⟨schemas, hspells, hall, hnodup, hfresh, rfl⟩
      obtain ⟨schema, schemas, hschema, hrest, rfl⟩ := List.forall₂_cons_left_iff.mp hspells
      obtain ⟨hvalid, hall⟩ := List.forall_mem_cons.mp hall
      obtain ⟨hnew, hfresh⟩ := List.forall_mem_cons.mp hfresh
      rw [List.map_cons, List.nodup_cons] at hnodup
      refine ⟨_, ⟨schema, hschema, hvalid, rfl⟩, (), hnew, schemas, hrest, hall, hnodup.2,
        fun s hs => ?_, rfl⟩
      refine (hisTable schema _).mpr ⟨fun hname => hnodup.1 ?_, hfresh s hs⟩
      exact hname ▸ List.mem_map_of_mem hs

/-- A document is read when it spells valid schemas of different names, under a name. -/
theorem readRoot_eq_ok {root : Json} :
    readRoot root = .ok db ↔
      ∃ (name : Bytes) (tables : List Json) (schemas : List TabSchema),
        root.find? (text "database") = some (.string name) ∧ name ≠ [] ∧
        root.find? (text "tables") = some (.array tables) ∧
        List.Forall₂ SpellsTable tables schemas ∧ (∀ schema ∈ schemas, schema.Valid) ∧
        (schemas.map TabSchema.name).Nodup ∧ db = (DbMeta.empty name).insertAll schemas := by
  simp only [readRoot, bind_eq_ok, stringField_eq_ok, throwIf_eq_ok, arrayField_eq_ok,
    readTables_eq_ok]
  constructor
  · rintro ⟨_, -, name, hname, _, hne, tables, htables, schemas, hspells, hvalid, hnodup, -, rfl⟩
    exact ⟨name, tables, schemas, hname, hne, htables, hspells, hvalid, hnodup, rfl⟩
  · rintro ⟨name, tables, schemas, hname, hne, htables, hspells, hvalid, hnodup, rfl⟩
    exact ⟨(), requireObject_of_find? hname, name, hname, (), hne, tables, htables, schemas,
      hspells, hvalid, hnodup, by simp [isTable, DbMeta.empty], rfl⟩

/-! ## What is read is valid -/

/-- Storing the tables of valid schemas keeps a catalog valid and its indexes named. -/
theorem insertAll_valid (hdb : db.Valid) (hnamed : db.IndexesNamed) {schemas : List TabSchema}
    (hschemas : ∀ schema ∈ schemas, schema.Valid) :
    (db.insertAll schemas).Valid ∧ (db.insertAll schemas).IndexesNamed := by
  induction schemas generalizing db with
  | nil => exact ⟨hdb, hnamed⟩
  | cons schema schemas ih =>
    obtain ⟨hschema, hrest⟩ := List.forall_mem_cons.mp hschemas
    refine ih (hdb.insert (TabSchema.rebuild_valid hschema)) ?_ hrest
    exact hnamed.insert schema.rebuild_indexesNamed

/-- A catalog that `operator>>` produces, from whatever document, is valid, and its indexes name
their tables. -/
theorem readRoot_valid {root : Json} (h : readRoot root = .ok db) : db.Valid ∧ db.IndexesNamed := by
  obtain ⟨name, tables, schemas, -, hne, -, -, hvalid, -, rfl⟩ := readRoot_eq_ok.mp h
  refine insertAll_valid (valid_empty hne) ?_ hvalid
  intro key tab htab
  simp [DbMeta.empty] at htab

theorem read_eq_ok {json : JsonText} {input : Bytes} :
    read json input = .ok db ↔ ∃ root, json.parse input = some root ∧ readRoot root = .ok db := by
  unfold read
  cases hparse : json.parse input with
  | none => simp
  | some root =>
    cases hroot : readRoot root with
    | ok db' => simp [hroot]
    | error e => cases e <;> simp [hroot]

/-! ## What is written is read back -/

theorem spellsColumn_writeColumn {col : ColMeta} (hlen : toInt32 col.len = col.len) :
    SpellsColumn (writeColumn col) col.schema :=
  ⟨rfl, rfl, col.len, rfl, hlen⟩

theorem spellsIndex_writeIndex (index : IndexMeta) :
    SpellsIndex (writeIndex index) index.schema := by
  refine ⟨?_, .inr rfl⟩
  have hcolumns : index.schema.columns.map Json.string =
      index.cols.map fun column => Json.string column.name := by
    simp [IndexMeta.schema, IndexMeta.colNames]
  rw [hcolumns]
  rfl

/-- The lengths of a valid table are stored as they are. -/
theorem toInt32_len {tab : TabMeta} (h : tab.Valid) {col : ColMeta} (hcol : col ∈ tab.cols) :
    toInt32 col.len = col.len := by
  have hpos := (h.validLen col hcol).1
  have hle : col.len ≤ (tab.cols.map ColMeta.len).sum := by
    refine List.single_le_sum (fun n hn => ?_) _ (List.mem_map_of_mem hcol)
    obtain ⟨c, hc, rfl⟩ := List.mem_map.mp hn
    exact (h.validLen c hc).1.le
  have hmax := h.recordSize_le
  rw [rmMaxRecordSize] at hmax
  rw [toInt32, Int.bmod_eq_of_le] <;> omega

theorem spellsTable_writeTable {tab : TabMeta} (h : tab.Valid) :
    SpellsTable (writeTable tab) tab.schema := by
  refine ⟨rfl, ⟨tab.cols.map writeColumn, rfl, ?_⟩, tab.indexes.map writeIndex, rfl, ?_⟩
  · show List.Forall₂ SpellsColumn (tab.cols.map writeColumn) (tab.cols.map ColMeta.schema)
    rw [List.forall₂_map_left_iff, List.forall₂_map_right_iff, List.forall₂_same]
    exact fun col hcol => spellsColumn_writeColumn (toInt32_len h hcol)
  · show List.Forall₂ SpellsIndex (tab.indexes.map writeIndex) (tab.indexes.map IndexMeta.schema)
    rw [List.forall₂_map_left_iff, List.forall₂_map_right_iff, List.forall₂_same]
    exact fun index _ => spellsIndex_writeIndex index

theorem getElem?_insertAll_of_notMem {schemas : List TabSchema} {key : Bytes}
    (h : key ∉ schemas.map TabSchema.name) : (db.insertAll schemas).tabs[key]? = db.tabs[key]? := by
  induction schemas generalizing db with
  | nil => rfl
  | cons schema schemas ih =>
    rw [List.map_cons, List.mem_cons, not_or] at h
    have hne : ¬ schema.rebuild.name = key := fun hname => h.1 hname.symm
    calc (db.insertAll (schema :: schemas)).tabs[key]?
        = ((db.insert schema.rebuild).insertAll schemas).tabs[key]? := rfl
      _ = (db.insert schema.rebuild).tabs[key]? := ih h.2
      _ = db.tabs[key]? := by rw [getElem?_insert, if_neg hne]

theorem getElem?_insertAll_of_mem {schemas : List TabSchema}
    (hnodup : (schemas.map TabSchema.name).Nodup) (h : schema ∈ schemas) :
    (db.insertAll schemas).tabs[schema.name]? = some schema.rebuild := by
  induction schemas generalizing db with
  | nil => simp at h
  | cons first schemas ih =>
    rw [List.map_cons, List.nodup_cons] at hnodup
    have hunfold : db.insertAll (first :: schemas) = (db.insert first.rebuild).insertAll schemas :=
      rfl
    rw [hunfold]
    rcases List.mem_cons.mp h with rfl | h
    · rw [getElem?_insertAll_of_notMem hnodup.1, getElem?_insert]
      simp [TabSchema.rebuild]
    · exact ih hnodup.2 h

theorem name_insertAll (db : DbMeta) (schemas : List TabSchema) :
    (db.insertAll schemas).name = db.name := by
  induction schemas generalizing db with
  | nil => rfl
  | cons schema schemas ih => exact ih (db.insert schema.rebuild)

/-- The schemas of a catalog's tables, in the order of the map. -/
def schemas (db : DbMeta) : List TabSchema := db.tabs.toList.map fun entry => entry.2.schema

theorem mem_schemas :
    schema ∈ db.schemas ↔ ∃ (key : Bytes) (tab : TabMeta), db.tabs[key]? = some tab ∧
      tab.schema = schema := by
  simp [schemas, Std.ExtTreeMap.mem_toList_iff_getElem?_eq_some]

theorem map_name_schemas (hdb : db.Valid) : (db.schemas.map TabSchema.name).Nodup := by
  have hkeys : db.schemas.map TabSchema.name = db.tabs.toList.map Prod.fst := by
    rw [schemas, List.map_map]
    refine List.map_congr_left fun entry hentry => ?_
    have htab : db.tabs[entry.1]? = some entry.2 :=
      Std.ExtTreeMap.mem_toList_iff_getElem?_eq_some.mp hentry
    exact (hdb.key_eq _ _ htab).symm
  rw [hkeys, List.Nodup, List.pairwise_map]
  exact db.tabs.distinct_keys_toList.imp fun h => by simpa using h

/-- Storing the tables of a valid catalog's schemas, from nothing, gives the catalog back. -/
theorem insertAll_schemas (hdb : db.Valid) (hnamed : db.IndexesNamed) :
    (DbMeta.empty db.name).insertAll db.schemas = db := by
  have htabs : ((DbMeta.empty db.name).insertAll db.schemas).tabs = db.tabs := by
    refine Std.ExtTreeMap.ext_getElem? fun key => ?_
    cases hkey : db.tabs[key]? with
    | some tab =>
      have hmem : tab.schema ∈ db.schemas := mem_schemas.mpr ⟨key, tab, hkey, rfl⟩
      have hname : key = tab.schema.name := hdb.key_eq key tab hkey
      rw [hname, getElem?_insertAll_of_mem (map_name_schemas hdb) hmem,
        TabMeta.rebuild_schema (hdb.tab_valid key tab hkey) (hnamed key tab hkey)]
    | none =>
      have hnone : key ∉ db.schemas.map TabSchema.name := by
        intro hmem
        obtain ⟨schema, hschema, hname⟩ := List.mem_map.mp hmem
        obtain ⟨key', tab, htab, rfl⟩ := mem_schemas.mp hschema
        have hkey' : key' = key := (hdb.key_eq key' tab htab).trans hname
        rw [hkey', hkey] at htab
        simp at htab
      rw [getElem?_insertAll_of_notMem hnone]
      simp [DbMeta.empty]
  have hname : ((DbMeta.empty db.name).insertAll db.schemas).name = db.name := name_insertAll ..
  exact congrArg₂ DbMeta.mk hname htabs

/-- What `operator<<` writes of a valid catalog whose indexes name their tables is read back as that
catalog. -/
theorem readRoot_writeRoot (hdb : db.Valid) (hnamed : db.IndexesNamed) :
    readRoot db.writeRoot = .ok db := by
  refine readRoot_eq_ok.mpr ⟨db.name, db.tabs.toList.map fun entry => writeTable entry.2,
    db.schemas, rfl, hdb.name_ne, rfl, ?_, ?_, map_name_schemas hdb,
    (insertAll_schemas hdb hnamed).symm⟩
  · rw [schemas, List.forall₂_map_left_iff, List.forall₂_map_right_iff, List.forall₂_same]
    intro entry hentry
    have htab : db.tabs[entry.1]? = some entry.2 :=
      Std.ExtTreeMap.mem_toList_iff_getElem?_eq_some.mp hentry
    exact spellsTable_writeTable (hdb.tab_valid _ _ htab)
  · intro schema hschema
    obtain ⟨key, tab, htab, rfl⟩ := mem_schemas.mp hschema
    exact TabMeta.schema_valid (hdb.tab_valid _ _ htab)

end DbMeta

end Rucbase
