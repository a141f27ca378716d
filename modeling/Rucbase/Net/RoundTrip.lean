import Rucbase.Net.Grammar

/-!
# Encoders and decoders are inverse

What `TryEncodeMeta` and `TryEncodeRow` leave in their output parameters, against the META and ROW
branches of `ExecStreamResult` (`src/net/wire.cpp`). An encoder succeeds exactly on the lists that a
frame can carry (`metaEncodable_iff`), and what it writes has the size that it added up. A branch
accepts exactly the spellings of such lists (`onMetaFrame_eq_next`, `onRowFrame_eq_next`), so a
payload has one meaning and a list has one spelling.
-/

namespace Rucbase.Wire

open Lib

/-! ## META -/

/-- The size of a META payload. -/
def metaEncodedSize (columns : List ColumnDef) : ℕ :=
  2 + (columns.map fun column => 3 + column.name.length).sum

/-- The lists of columns that a META frame can carry. -/
def MetaEncodable (columns : List ColumnDef) : Prop :=
  (1 ≤ columns.length ∧ columns.length ≤ 65535) ∧
    (∀ column ∈ columns, (1 ≤ column.name.length ∧ column.name.length ≤ 65535) ∧
      isKnownSqlType column.sqlType = true) ∧
    metaEncodedSize columns ≤ 1024 * 1024

theorem length_metaBytes (columns : List ColumnDef) :
    (metaBytes columns).length = metaEncodedSize columns := by
  have hlen : (fun column : ColumnDef => (columnBytes column).length) =
      fun column => 3 + column.name.length := by
    funext column
    rw [length_columnBytes]
    omega
  rw [metaBytes, List.length_append, length_beBytes, List.length_flatMap, hlen]
  rfl

variable {columns : List ColumnDef} {cells : List Cell}

theorem metaEncodable_iff :
    MetaEncodable columns ↔
      ValidColumns columns ∧ (metaBytes columns).length ≤ kMaxPayloadBytes := by
  rw [length_metaBytes]
  constructor
  · rintro ⟨hcount, hcolumns, hsize⟩
    refine ⟨⟨List.ne_nil_of_length_pos hcount.1, by omega, ?_⟩, hsize⟩
    intro column hcolumn
    obtain ⟨hname, hknown⟩ := hcolumns column hcolumn
    exact ⟨List.ne_nil_of_length_pos hname.1, by omega, hknown⟩
  · rintro ⟨hvalid, hsize⟩
    have hpos := List.length_pos_iff.mpr hvalid.ne
    have hlt := hvalid.lt
    refine ⟨⟨hpos, by omega⟩, ?_, hsize⟩
    intro column hcolumn
    have hcol := hvalid.valid column hcolumn
    have hname := List.length_pos_iff.mpr hcol.name_ne
    have hmax := hcol.name_lt
    exact ⟨⟨hname, by omega⟩, hcol.known⟩

/-- With a payload that is not null, the encoders return what they have made. -/
theorem encodeInto_some (nullOutput payload : Bytes) (encoded : Except Bytes Bytes)
    (diagnostic : Option Bytes) :
    encodeInto nullOutput encoded (some payload) diagnostic =
      match encoded with
      | .ok bytes => ⟨true, some bytes, diagnostic⟩
      | .error message => ⟨false, some [], setDiagnostic diagnostic message⟩ := by
  cases encoded <;> rfl

/-- The META branch without the raw text flag goes on exactly with a payload that it can decode, as
the first frame. -/
theorem onMetaFrame_eq_next {options : ExecuteOptions} {st st' : Exchange} {payload : Bytes} :
    st.onMetaFrame options ⟨kTagMeta, 0, payload⟩ = .next st' ↔
      st.state = .awaitFirst ∧ ∃ columns, decodeMeta payload = .ok columns ∧
        st' = Exchange.beginRows options columns { st with
          state := .rows, rawTextResult := false
          result := { st.result with columns := columns } } := by
  have hflags : (0 : UInt8) &&& ~~~kFlagRawText = 0 := by decide
  have hraw : ((0 : UInt8) &&& kFlagRawText != 0) = false := by decide
  unfold Exchange.onMetaFrame
  simp only [hflags, ne_eq, not_true_eq_false, if_false, hraw, Bool.false_eq_true, false_and]
  by_cases hstate : st.state = .awaitFirst
  · rw [if_neg (by simp [hstate])]
    cases decodeMeta payload with
    | error e => simp [Exchange.protocolError]
    | ok columns => simp [hstate, eq_comm]
  · simp [hstate, Exchange.protocolError]

theorem columns_beginRows (options : ExecuteOptions) (columns : List ColumnDef) (st : Exchange) :
    (st.beginRows options columns).result.columns = st.result.columns :=
  congrArg (·.2.2) (Exchange.position_beginRows options columns st)

/-- `TryEncodeMeta` and the META branch are inverse, and the running size never passes the limit
that it is subtracted from. -/
theorem meta_roundTrip :
    (∀ (columns : List ColumnDef) (payload : Bytes) (diagnostic : Option Bytes),
      ((tryEncodeMeta columns (some payload) diagnostic).ok = true ↔ MetaEncodable columns) ∧
      ((tryEncodeMeta columns (some payload) diagnostic).ok = true →
        ∃ bytes, (tryEncodeMeta columns (some payload) diagnostic).payload = some bytes ∧
          bytes.length = metaEncodedSize columns ∧
          ∀ (options : ExecuteOptions) (st : Exchange), st.state = .awaitFirst →
            ∃ st', st.onMetaFrame options ⟨kTagMeta, 0, bytes⟩ = .next st' ∧
              st'.result.columns = columns) ∧
      ((tryEncodeMeta columns (some payload) diagnostic).ok = false →
        (tryEncodeMeta columns (some payload) diagnostic).payload = some [])) ∧
    (∀ (options : ExecuteOptions) (st st' : Exchange) (bytes : Bytes),
      bytes.length ≤ 1024 * 1024 →
      st.onMetaFrame options ⟨kTagMeta, 0, bytes⟩ = .next st' →
      ∀ (payload : Bytes) (diagnostic : Option Bytes),
        tryEncodeMeta st'.result.columns (some payload) diagnostic =
          ⟨true, some bytes, diagnostic⟩) ∧
    ∀ (passed : List ColumnDef) (size : ℕ),
      metaSize passed 2 = .ok size → size ≤ kMaxPayloadBytes := by
  refine ⟨?_, ?_, ?_⟩
  · intro columns payload diagnostic
    rw [tryEncodeMeta, encodeInto_some, metaEncodable_iff]
    cases hencode : encodedMeta columns with
    | error message =>
      refine ⟨⟨by simp, ?_⟩, by simp, fun _ => rfl⟩
      rintro ⟨hvalid, hsize⟩
      rw [encodedMeta_eq_ok.mpr ⟨hvalid, rfl, hsize⟩] at hencode
      simp at hencode
    | ok bytes =>
      obtain ⟨hvalid, rfl, hsize⟩ := encodedMeta_eq_ok.mp hencode
      refine ⟨by simp [hvalid, hsize], fun _ => ⟨_, rfl, length_metaBytes columns, ?_⟩, by simp⟩
      intro options st hstate
      have hdecode := decodeMeta_eq_ok.mpr ⟨hvalid, rfl⟩
      refine ⟨_, onMetaFrame_eq_next.mpr ⟨hstate, columns, hdecode, rfl⟩, ?_⟩
      rw [columns_beginRows]
  · intro options st st' bytes hsize hnext payload diagnostic
    obtain ⟨-, columns, hdecode, rfl⟩ := onMetaFrame_eq_next.mp hnext
    obtain ⟨hvalid, rfl⟩ := decodeMeta_eq_ok.mp hdecode
    rw [columns_beginRows, tryEncodeMeta, encodeInto_some,
      encodedMeta_eq_ok.mpr ⟨hvalid, rfl, hsize⟩]
  · intro passed size hpassed
    exact ((metaSize_eq_ok (by decide)).mp hpassed).2.1

/-! ## ROW -/

/-- The size of a cell in a ROW payload. -/
def cellEncodedSize (cell : Cell) : ℕ :=
  if cell.isNull then 1
  else if cell.sqlType = kTypeChar then 1 + (4 + cell.strVal.length)
  else 1 + 4

/-- The size of a ROW payload. -/
def rowEncodedSize (cells : List Cell) : ℕ := (cells.map cellEncodedSize).sum

theorem length_flatMap_cellBytes (hknown : ∀ cell ∈ cells, isKnownSqlType cell.sqlType = true) :
    (cells.flatMap cellBytes).length = rowEncodedSize cells := by
  rw [List.length_flatMap, rowEncodedSize]
  congr 1
  exact List.map_congr_left fun cell hcell => length_cellBytes (hknown cell hcell)

theorem foldl_append_cellBytes (cells : List Cell) (out : Bytes) :
    cells.foldl (fun out cell => out ++ cellBytes cell) out = out ++ cells.flatMap cellBytes := by
  induction cells generalizing out with
  | nil => simp
  | cons cell cells ih => simp [ih]

/-- The ROW branch goes on exactly with a payload that it can decode, behind META. -/
theorem onRowFrame_eq_next {options : ExecuteOptions} {st st' : Exchange} {payload : Bytes} :
    st.onRowFrame options ⟨kTagRow, 0, payload⟩ = .next st' ↔
      (st.state = .rows ∧ st.result.columns ≠ []) ∧
        ∃ row, decodeRow st.result.columns payload = .ok row ∧ st' = st.addRow options row := by
  unfold Exchange.onRowFrame
  by_cases hready : st.state = .rows ∧ st.result.columns ≠ []
  · rw [if_neg (by simp [hready])]
    cases decodeRow st.result.columns payload with
    | error e => simp [Exchange.protocolError]
    | ok row => simp [hready, eq_comm]
  · rw [if_pos (by simp only [ne_eq, not_true_eq_false, false_or]; tauto)]
    simp [hready, Exchange.protocolError]

/-- Columns have the types of cells when they fit the cells' canonical forms. -/
theorem cellsOf_canonical (htypes : columns.map ColumnDef.sqlType = cells.map Cell.sqlType)
    (hcells : ∀ cell ∈ cells, cell.canonical.Canonical) :
    CellsOf columns (cells.map Cell.canonical) := by
  induction columns generalizing cells with
  | nil =>
    obtain rfl : cells = [] := List.map_eq_nil_iff.mp htypes.symm
    exact .nil
  | cons column columns ih =>
    obtain ⟨cell, cells, rfl⟩ : ∃ cell cells', cells = cell :: cells' := by
      cases cells with
      | nil => simp at htypes
      | cons cell cells => exact ⟨cell, cells, rfl⟩
    obtain ⟨hcell, hrest⟩ := List.forall_mem_cons.mp hcells
    rw [List.map_cons, List.map_cons, List.cons.injEq] at htypes
    exact .cons ⟨by rw [Cell.sqlType_canonical, htypes.1], hcell⟩ (ih htypes.2 hrest)

theorem CellsOf.known (h : CellsOf columns cells) :
    ∀ cell ∈ cells, isKnownSqlType cell.sqlType = true := by
  induction h with
  | nil => simp
  | cons hcell _ ih => exact List.forall_mem_cons.mpr ⟨hcell.2.known, ih⟩

/-- Rows of the same types with the same spelling are the same in the fields that are sent. -/
theorem canonical_eq_of_cellBytes_eq {cells' : List Cell}
    (htypes : cells.map Cell.sqlType = cells'.map Cell.sqlType)
    (hcells : ∀ cell ∈ cells, cell.canonical.Canonical)
    (hcells' : ∀ cell ∈ cells', cell.canonical.Canonical)
    (hbytes : cells.flatMap cellBytes = cells'.flatMap cellBytes) :
    cells.map Cell.canonical = cells'.map Cell.canonical := by
  -- The decoder of the common types returns both.
  have hcolumns : (cells.map fun cell => ColumnDef.mk [] cell.sqlType).map ColumnDef.sqlType =
      cells.map Cell.sqlType := by
    rw [List.map_map]
    rfl
  have hdecode := decodeRow_eq_ok.mpr
    ⟨cellsOf_canonical hcolumns hcells, (flatMap_cellBytes_canonical cells).symm⟩
  have hdecode' := decodeRow_eq_ok.mpr
    ⟨cellsOf_canonical (hcolumns.trans htypes) hcells', (flatMap_cellBytes_canonical cells').symm⟩
  rw [hbytes, hdecode'] at hdecode
  exact (Except.ok.inj hdecode).symm

/-- `TryEncodeRow` and the ROW branch are inverse, for the columns of the cells' types, up to the
fields that a cell's type and `is_null` do not select. -/
theorem row_roundTrip :
    (∀ (cells : List Cell) (payload : Bytes) (diagnostic : Option Bytes), cells ≠ [] →
      (∀ cell ∈ cells, isKnownSqlType cell.sqlType = true) →
      ((tryEncodeRow cells (some payload) diagnostic).ok = true ↔
        rowEncodedSize cells ≤ 1024 * 1024) ∧
      ((tryEncodeRow cells (some payload) diagnostic).ok = true →
        ∃ bytes, (tryEncodeRow cells (some payload) diagnostic).payload = some bytes ∧
          bytes.length = rowEncodedSize cells ∧
          ∀ (options : ExecuteOptions) (st : Exchange), st.state = .rows →
            st.result.columns.map ColumnDef.sqlType = cells.map Cell.sqlType →
            st.onRowFrame options ⟨kTagRow, 0, bytes⟩ =
              .next (st.addRow options (cells.map Cell.canonical))) ∧
      ((tryEncodeRow cells (some payload) diagnostic).ok = false →
        (tryEncodeRow cells (some payload) diagnostic).payload = some [])) ∧
    (∀ (options : ExecuteOptions) (st st' : Exchange) (bytes : Bytes),
      st.onRowFrame options ⟨kTagRow, 0, bytes⟩ = .next st' →
      ∃ row, decodeRow st.result.columns bytes = .ok row ∧ st' = st.addRow options row ∧
        row.foldl (fun out cell => out ++ cellBytes cell) [] = bytes ∧
        (bytes.length ≤ 1024 * 1024 → ∀ (payload : Bytes) (diagnostic : Option Bytes),
          tryEncodeRow row (some payload) diagnostic = ⟨true, some bytes, diagnostic⟩)) ∧
    ∀ (cells cells' : List Cell) (payload bytes : Bytes) (diagnostic : Option Bytes),
      cells.map Cell.sqlType = cells'.map Cell.sqlType →
      tryEncodeRow cells (some payload) diagnostic = ⟨true, some bytes, diagnostic⟩ →
      tryEncodeRow cells' (some payload) diagnostic = ⟨true, some bytes, diagnostic⟩ →
      cells.map Cell.canonical = cells'.map Cell.canonical := by
  have hok : ∀ {cells : List Cell} {payload bytes : Bytes} {diagnostic : Option Bytes},
      tryEncodeRow cells (some payload) diagnostic = ⟨true, some bytes, diagnostic⟩ →
      encodedRow cells = .ok bytes := by
    intro cells payload bytes diagnostic h
    rw [tryEncodeRow, encodeInto_some] at h
    cases hencode : encodedRow cells with
    | error message => simp [hencode] at h
    | ok bytes' => simpa [hencode] using h
  refine ⟨?_, ?_, ?_⟩
  · intro cells payload diagnostic hne hknown
    have hlen := length_flatMap_cellBytes hknown
    rw [tryEncodeRow, encodeInto_some]
    cases hencode : encodedRow cells with
    | error message =>
      refine ⟨⟨by simp, ?_⟩, by simp, fun _ => rfl⟩
      intro hsize
      rw [encodedRow_eq_ok.mpr ⟨hne, hknown, rfl, hlen.le.trans hsize⟩] at hencode
      simp at hencode
    | ok bytes =>
      obtain ⟨-, -, rfl, hsize⟩ := encodedRow_eq_ok.mp hencode
      refine ⟨by simp only [true_iff]; exact hlen.ge.trans hsize, fun _ => ⟨_, rfl, hlen, ?_⟩,
        by simp⟩
      intro options st hstate htypes
      have hcolumns : st.result.columns ≠ [] := by
        intro hnil
        rw [hnil] at htypes
        exact hne (List.map_eq_nil_iff.mp htypes.symm)
      have hdecode := decodeRow_eq_ok.mpr
        ⟨cellsOf_canonical htypes (canonical_of_row_fits hknown hsize),
          (flatMap_cellBytes_canonical cells).symm⟩
      exact onRowFrame_eq_next.mpr ⟨⟨hstate, hcolumns⟩, _, hdecode, rfl⟩
  · intro options st st' bytes hnext
    obtain ⟨⟨-, hcolumns⟩, row, hdecode, rfl⟩ := onRowFrame_eq_next.mp hnext
    obtain ⟨hcells, rfl⟩ := decodeRow_eq_ok.mp hdecode
    refine ⟨row, hdecode, rfl, by rw [foldl_append_cellBytes, List.nil_append], ?_⟩
    intro hsize payload diagnostic
    have hne : row ≠ [] := by
      rintro rfl
      exact hcolumns (List.forall₂_nil_right_iff.mp hcells)
    rw [tryEncodeRow, encodeInto_some, encodedRow_eq_ok.mpr ⟨hne, hcells.known, rfl, hsize⟩]
  · intro cells cells' payload bytes diagnostic htypes h h'
    obtain ⟨-, hknown, rfl, hsize⟩ := encodedRow_eq_ok.mp (hok h)
    obtain ⟨-, hknown', hbytes, -⟩ := encodedRow_eq_ok.mp (hok h')
    rw [hbytes] at hsize
    exact canonical_eq_of_cellBytes_eq htypes
      (canonical_of_row_fits hknown (hbytes ▸ hsize)) (canonical_of_row_fits hknown' hsize) hbytes

end Rucbase.Wire
