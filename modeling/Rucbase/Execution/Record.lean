import Rucbase.Analyze.Sound
import Rucbase.Common.WireResult

/-!
# Records: what INSERT writes and SELECT reads

`InsertExecutor` builds a record by copying the encoding of each value to its column's offset
(`src/execution/executor_insert.h`), and `QlManager::select_from` decodes a cell by reading at the
same offset (`src/execution/execution_manager.cpp`). The buffer is allocated without being
initialised, so a record is built from the bytes that the allocation happens to find.

The columns of a valid table tile its record, so the copies fill the buffer from the front: after
each of them the buffer is the encodings so far followed by a rest that nothing has written yet
(`storeColumns_tiles`). The built record is therefore the concatenation of the encodings, whatever
the allocation found, and the block of a column is its own encoding (`forall₂_slice_encodings`).
-/

namespace Rucbase

open Lib

/-! ## Building a record -/

/-- `RmRecord(size)`: a buffer with the bytes that `new char[size]` finds. -/
def newRecord (size : ℤ) (garbage : ℕ → UInt8) : Except Error Bytes := do
  throwIf (size < 0) (.invalidRecordSizeError size)
  pure ((List.range size.toNat).map garbage)

/-- `InsertExecutor`, with what its constructor has checked. -/
structure InsertExecutor where
  tab : TabMeta
  values : List Value
  tabName : Bytes
  /-- The record size in the header of the file behind `fh_`. -/
  recordSize : ℤ
  /-- There is one value for each column. -/
  length_values : values.length = tab.cols.length

namespace InsertExecutor

/-- The constructor; `fhs` gives the record size in the header of each open record file. -/
def make (db : DbMeta) (fhs : Bytes → Option ℤ) (tabName : Bytes) (values : List Value) :
    Except Error InsertExecutor := do
  let tab ← db.getTable tabName
  if h : values.length = tab.cols.length then
    match fhs tabName with
    | some recordSize => pure ⟨tab, values, tabName, recordSize, h⟩
    | none => throw .outOfRange
  else throw .invalidValueCountError

/-- The buffer of a value for its column: the one it carries, or a fresh one. -/
def rawFor (col : ColMeta) (val : Value) : Except Error Bytes := do
  throwIf (col.type ≠ val.type)
    (.incompatibleTypeError (coltype2str col.type) (coltype2str val.type))
  match val.raw with
  | none =>
    let val ← val.initRaw col.len
    pure (val.raw.getD [])
  | some raw =>
    throwIf ((raw.length : ℤ) ≠ col.len)
      (.internalError (text "Insert value raw size does not match column length"))
    pure raw

/-- One round of the loop over the values. The copy is not checked by the source; one that leaves
the record is undefined behaviour. -/
def storeColumn (record : Bytes) (cv : ColMeta × Value) : Except Error Bytes := do
  let raw ← rawFor cv.1 cv.2
  throwIf (cv.1.offset < 0 ∨ (record.length : ℤ) < cv.1.offset + cv.1.len) .undefinedBehaviour
  pure (memcpy record cv.1.offset.toNat raw)

/-- The record that `next` builds. The buffers that it encodes stay with the values, where a second
call would find them. -/
def makeRecord (exec : InsertExecutor) (garbage : ℕ → UInt8) : Except Error Bytes := do
  let record ← newRecord exec.recordSize garbage
  (exec.tab.cols.zip exec.values).foldlM storeColumn record

end InsertExecutor

/-! ## Reading a record -/

namespace QlManager

/-- The cell of a column, as `select_from` decodes it: four bytes of a number, and a string up to
the first NUL or the end of the column. -/
def decodeCell (record : Bytes) (col : ColMeta) : WireResultCell :=
  match col.type with
  | .int => { type := .int, intVal := .ofNat 32 (leNat (slice record col.offset.toNat 4)) }
  | .float => { type := .float, floatVal := .ofNat 32 (leNat (slice record col.offset.toNat 4)) }
  | .string =>
    { type := .string
      strVal := (slice record col.offset.toNat col.len.toNat).takeWhile (· ≠ 0) }

/-- The columns that `select_from` announces: captions come from the select list as far as it
goes. -/
def resultColumns : List TabCol → List ColMeta → List WireResultColumn
  | _, [] => []
  | [], col :: projCols => ⟨col.name, col.type⟩ :: resultColumns [] projCols
  | selCol :: selCols, col :: projCols =>
    ⟨selCol.colName, col.type⟩ :: resultColumns selCols projCols

end QlManager

/-! ## The record of a value list -/

namespace InsertExecutor

/-- The encodings of a value list, one for each column. -/
def encodings (cols : List ColMeta) (values : List Value) : List Bytes :=
  List.zipWith (fun col v => v.encoding col.len) cols values

/-- The encodings of a value list are as long as the columns together. -/
theorem length_encodings {cols : List ColMeta} {values : List Value}
    (henc : List.Forall₂ Value.EncodedFor values cols) :
    ((encodings cols values).flatten.length : ℤ) = (cols.map ColMeta.len).sum := by
  induction henc with
  | nil => simp [encodings]
  | cons hv _ ih =>
    have hlen := hv.2.2
    simp only [encodings] at ih
    simp only [encodings, List.zipWith_cons_cons, List.flatten_cons, List.length_append,
      List.map_cons, List.sum_cons]
    omega

/-- A value that is encoded for its column is copied as it is. -/
theorem rawFor_encodedFor {col : ColMeta} {v : Value} (h : v.EncodedFor col) :
    rawFor col v = .ok (v.encoding col.len) := by
  obtain ⟨htype, hraw, hlen⟩ := h
  rw [rawFor, hraw]
  exact bind_eq_ok.mpr ⟨(), by simp [htype], bind_eq_ok.mpr ⟨(), by simp [hlen], by simp⟩⟩

/-- One copy to the end of a filled front part fills it further by the encoding. -/
theorem storeColumn_front {col : ColMeta} {v : Value} (h : v.EncodedFor col) {front rest : Bytes}
    (hoffset : col.offset = front.length) (hrest : col.len ≤ rest.length) :
    storeColumn (front ++ rest) (col, v) =
      .ok (front ++ v.encoding col.len ++ rest.drop (v.encoding col.len).length) := by
  have hbound : ¬(col.offset < 0 ∨ ((front ++ rest).length : ℤ) < col.offset + col.len) := by
    rw [List.length_append]
    omega
  have hfront : col.offset.toNat = front.length := by omega
  refine bind_eq_ok.mpr ⟨_, rawFor_encodedFor h, bind_eq_ok.mpr ⟨(), ?_, ?_⟩⟩
  · rw [throwIf_eq_ok]
    exact hbound
  · rw [pure_eq_ok, hfront, memcpy_append]

/-- The loop over the values of columns that tile the rest of a buffer overwrites all of it. -/
theorem storeColumns_tiles {cols : List ColMeta} {values : List Value}
    (henc : List.Forall₂ Value.EncodedFor values cols) {front rest : Bytes}
    (htiles : Tiles front.length cols) (hrest : (rest.length : ℤ) = (cols.map ColMeta.len).sum) :
    (cols.zip values).foldlM storeColumn (front ++ rest) =
      .ok (front ++ (encodings cols values).flatten) := by
  -- The invariant is the shape of the buffer: a front part that is final, and a rest as long as
  -- the columns that are still to come.
  induction henc generalizing front rest with
  | nil =>
    have hnil : rest = [] := List.length_eq_zero_iff.mp (by simpa using hrest)
    rw [hnil, List.zip_nil_right, List.foldlM_nil]
    simp [encodings]
  | @cons v col values cols hv hvs ih =>
    obtain ⟨hoffset, htiles⟩ := htiles
    have hlen := hv.2.2
    have hsum := length_encodings hvs
    rw [List.map_cons, List.sum_cons] at hrest
    have hfront : ((front ++ v.encoding col.len).length : ℤ) = front.length + col.len := by
      rw [List.length_append]
      omega
    have hdrop : ((rest.drop (v.encoding col.len).length).length : ℤ) =
        (cols.map ColMeta.len).sum := by
      rw [List.length_drop]
      omega
    rw [List.zip_cons_cons, List.foldlM_cons]
    refine bind_eq_ok.mpr ⟨_, storeColumn_front hv hoffset (by omega), ?_⟩
    rw [ih (hfront ▸ htiles) hdrop]
    simp [encodings]

/-- The record of encoded values over columns that tile it: the encodings one after the other,
whatever the buffer held before. -/
theorem makeRecord_eq {exec : InsertExecutor}
    (henc : List.Forall₂ Value.EncodedFor exec.values exec.tab.cols)
    (htiles : Tiles 0 exec.tab.cols)
    (hsize : exec.recordSize = (exec.tab.cols.map ColMeta.len).sum) (garbage : ℕ → UInt8) :
    exec.makeRecord garbage = .ok (encodings exec.tab.cols exec.values).flatten := by
  have hsum := length_encodings henc
  have hnonneg : ¬ exec.recordSize < 0 := by omega
  refine bind_eq_ok.mpr ⟨(List.range exec.recordSize.toNat).map garbage, ?_, ?_⟩
  · exact bind_eq_ok.mpr ⟨(), by simpa using hnonneg, by simp⟩
  · have hlen : (((List.range exec.recordSize.toNat).map garbage).length : ℤ) =
        (exec.tab.cols.map ColMeta.len).sum := by
      rw [List.length_map, List.length_range]
      omega
    have htiles' : Tiles (([] : Bytes).length : ℤ) exec.tab.cols := htiles
    simpa using storeColumns_tiles henc htiles' hlen

end InsertExecutor

/-! ## Reading back -/

namespace QlManager

/-- The cell that a literal is read back as. -/
def literalCell : Ast.Expr → Option WireResultCell
  | .intLit val => some { type := .int, intVal := val }
  | .floatLit val => some { type := .float, floatVal := val }
  | .stringLit val => some { type := .string, strVal := val }
  | _ => none

/-- The cell that a value is read back as. -/
def valueCell (v : Value) : WireResultCell :=
  match v.type with
  | .int => { type := .int, intVal := v.num }
  | .float => { type := .float, floatVal := v.num }
  | .string => { type := .string, strVal := v.strVal }

/-- A literal and its value are read back as the same cell. -/
theorem literalCell_eq {e : Ast.Expr} {v : Value}
    (h : Analyzer.convertAstValue e = .ok { v with raw := none }) :
    literalCell e = some (valueCell v) := by
  obtain ⟨type, num, strVal, raw⟩ := v
  cases e <;> simp [Analyzer.convertAstValue, Value.setInt, Value.setFloat, Value.setStr] at h
  all_goals
    obtain ⟨rfl, rfl, rfl⟩ := h
    rfl

/-- A value of type string comes from a string literal. -/
theorem convertAstValue_string {e : Ast.Expr} {v : Value}
    (h : Analyzer.convertAstValue e = .ok { v with raw := none }) (hty : v.type = .string) :
    e = .stringLit v.strVal := by
  obtain ⟨type, num, strVal, raw⟩ := v
  cases e <;> simp_all [Analyzer.convertAstValue, Value.setInt, Value.setFloat, Value.setStr]

/-- A string without NULs is what stands before the first NUL of its padding. -/
theorem takeWhile_padded {str : Bytes} (h : (0 : UInt8) ∉ str) (n : ℕ) :
    (str ++ List.replicate n 0).takeWhile (· ≠ 0) = str := by
  have hall : ∀ b ∈ str, decide (b ≠ 0) = true := fun b hb =>
    decide_eq_true fun hzero => h (hzero ▸ hb)
  rw [List.takeWhile_append_of_pos hall]
  cases n with
  | zero => simp
  | succ n => simp [List.replicate_succ]

/-- The four bytes of a word spell it. -/
theorem ofNat_leNat_leBytes (w : BitVec 32) : BitVec.ofNat 32 (leNat (leBytes 4 w.toNat)) = w := by
  rw [leNat_leBytes (by have := w.isLt; omega), BitVec.ofNat_toNat, BitVec.setWidth_eq]

/-- A column whose block of the record is the encoding of a value is read back as that value. -/
theorem decodeCell_encoding {record : Bytes} {col : ColMeta} {v : Value} (henc : v.EncodedFor col)
    (hblock : slice record col.offset.toNat col.len.toNat = v.encoding col.len)
    (hnum : col.type ≠ .string → col.len = 4) (hnul : v.type = .string → (0 : UInt8) ∉ v.strVal) :
    decodeCell record col = valueCell v := by
  have hword : v.type ≠ .string → slice record col.offset.toNat 4 = leBytes 4 v.num.toNat := by
    intro hne
    have hlen : col.len = 4 := hnum (henc.1 ▸ hne)
    have hfour : col.len.toNat = 4 := by omega
    rw [hfour] at hblock
    rw [hblock]
    cases hty : v.type <;> simp_all [Value.encoding]
  cases hty : v.type with
  | int | float => simp [decodeCell, valueCell, ← henc.1, hty, hword, ofNat_leNat_leBytes]
  | string =>
    simp only [decodeCell, valueCell, ← henc.1, hty, hblock, Value.encoding]
    rw [takeWhile_padded (hnul hty)]

/-- In the record of encoded values over tiling columns, each column's block is its encoding. -/
theorem forall₂_slice_encodings {cols : List ColMeta} {values : List Value}
    (henc : List.Forall₂ Value.EncodedFor values cols) {front : Bytes}
    (htiles : Tiles front.length cols) :
    List.Forall₂ (fun (v : Value) (col : ColMeta) => v.EncodedFor col ∧
      slice (front ++ (InsertExecutor.encodings cols values).flatten) col.offset.toNat
        col.len.toNat = v.encoding col.len) values cols := by
  induction henc generalizing front with
  | nil => exact .nil
  | @cons v col values cols hv hvs ih =>
    obtain ⟨hoffset, htiles⟩ := htiles
    have hlen := hv.2.2
    have hfront : ((front ++ v.encoding col.len).length : ℤ) = front.length + col.len := by
      rw [List.length_append]
      omega
    have hbuffer : front ++ (InsertExecutor.encodings (col :: cols) (v :: values)).flatten =
        front ++ v.encoding col.len ++ (InsertExecutor.encodings cols values).flatten := by
      simp [InsertExecutor.encodings]
    rw [hbuffer]
    refine .cons ⟨hv, ?_⟩ (ih (hfront ▸ htiles))
    have hblock := slice_append_middle front (v.encoding col.len)
      (InsertExecutor.encodings cols values).flatten
    rwa [show front.length = col.offset.toNat by omega,
      show (v.encoding col.len).length = col.len.toNat by omega] at hblock

/-- Literals whose encodings are the blocks of a record are read back, column by column. -/
theorem forall₂_decodeCell {literals : List Ast.Expr} {values : List Value} {cols : List ColMeta}
    {record : Bytes}
    (hconv : List.Forall₂ (fun e (v : Value) =>
      Analyzer.convertAstValue e = .ok { v with raw := none }) literals values)
    (hblocks : List.Forall₂ (fun (v : Value) (col : ColMeta) => v.EncodedFor col ∧
      slice record col.offset.toNat col.len.toNat = v.encoding col.len) values cols)
    (hlen : ∀ col ∈ cols, col.ValidLen)
    (hnul : ∀ str, Ast.Expr.stringLit str ∈ literals → (0 : UInt8) ∉ str) :
    List.Forall₂ (fun e col => literalCell e = some (decodeCell record col)) literals cols := by
  induction hconv generalizing cols with
  | nil =>
    cases hblocks
    exact .nil
  | @cons e v literals values he _ ih =>
    obtain ⟨col, cols', ⟨henc, hblock⟩, hrest, rfl⟩ := List.forall₂_cons_left_iff.mp hblocks
    have hstr : v.type = .string → (0 : UInt8) ∉ v.strVal := by
      intro hty
      rw [convertAstValue_string he hty] at hnul
      exact hnul _ (List.mem_cons_self ..)
    refine .cons ?_ (ih hrest (fun c hc => hlen c (List.mem_cons_of_mem _ hc))
      fun str h => hnul str (List.mem_cons_of_mem _ h))
    have hcol := (hlen col (List.mem_cons_self ..)).2
    rw [literalCell_eq he, decodeCell_encoding henc hblock hcol hstr]

/-- What an INSERT that the analyzer accepts stores is what a SELECT reads. When the table's record
file is open, the executor is constructed, its record does not depend on what the allocation found,
and each column is read back as the literal given for it. -/
theorem decodeCell_makeRecord (db : DbMeta) (hdb : db.Valid) (fhs : Bytes → Option ℤ)
    (hfhs : ∀ (key : Bytes) (tab : TabMeta), db.tabs[key]? = some tab →
      fhs key = some (tab.cols.map ColMeta.len).sum)
    (tabName : Bytes) (literals : List Ast.Expr) (start query : AnalyzedQuery)
    (haccept : Analyzer.analyzeInsert db tabName literals start = .ok query)
    (hnul : ∀ str, Ast.Expr.stringLit str ∈ literals → (0 : UInt8) ∉ str) :
    ∃ (exec : InsertExecutor) (record : Bytes),
      InsertExecutor.make db fhs query.boundTargetTable query.boundValues = .ok exec ∧
      db.tabs[tabName]? = some exec.tab ∧
      (record.length : ℤ) = exec.recordSize ∧
      (∀ garbage, exec.makeRecord garbage = .ok record) ∧
      List.Forall₂ (fun e col => literalCell e = some (decodeCell record col))
        literals exec.tab.cols := by
  unfold Analyzer.analyzeInsert at haccept
  obtain ⟨tab, htab, haccept⟩ := bind_eq_ok.mp haccept
  obtain ⟨_, hcount, haccept⟩ := bind_eq_ok.mp haccept
  obtain ⟨bound, hbound, haccept⟩ := bind_eq_ok.mp haccept
  rw [Analyzer.getTable_eq_ok] at htab
  rw [throwIf_eq_ok, not_not] at hcount
  rw [pure_eq_ok] at haccept
  have hvalid := hdb.tab_valid _ _ htab
  have hname : tab.name = tabName := (hdb.key_eq _ _ htab).symm
  obtain ⟨henc, hconv⟩ := Analyzer.analyzeInsert_values hcount hbound
  let exec : InsertExecutor :=
    ⟨tab, bound, tabName, (tab.cols.map ColMeta.len).sum, henc.length_eq⟩
  refine ⟨exec, (InsertExecutor.encodings tab.cols bound).flatten, ?_, htab,
    InsertExecutor.length_encodings henc, InsertExecutor.makeRecord_eq henc hvalid.tiles rfl, ?_⟩
  · rw [← haccept]
    refine bind_eq_ok.mpr ⟨tab, Analyzer.getTable_eq_ok.mpr (by rw [hname]; exact htab), ?_⟩
    simp [henc.length_eq, hname, hfhs _ _ htab, exec]
  · have htiles : Tiles (([] : Bytes).length : ℤ) tab.cols := hvalid.tiles
    have hblocks := forall₂_slice_encodings henc htiles
    rw [List.nil_append] at hblocks
    exact forall₂_decodeCell hconv hblocks hvalid.validLen hnul

/-- The handles of the sample database: one record file, of 12-byte records. -/
def studentFhs (key : Bytes) : Option ℤ := if key = studentTable.name then some 12 else none

/-- The round trip of a row of the sample table, with a string as long as its column. -/
theorem decodeCell_makeRecord_student :
    ∃ (query : AnalyzedQuery) (exec : InsertExecutor) (record : Bytes),
      Analyzer.analyzeInsert studentDb (text "student") [.intLit 7, .stringLit (text "Ada Byrn")]
        { boundStatement := .null } = .ok query ∧
      InsertExecutor.make studentDb studentFhs query.boundTargetTable query.boundValues = .ok exec ∧
      (∀ garbage, exec.makeRecord garbage = .ok record) ∧
      List.Forall₂ (fun e col => literalCell e = some (decodeCell record col))
        [.intLit 7, .stringLit (text "Ada Byrn")] exec.tab.cols := by
  have hfhs : ∀ (key : Bytes) (tab : TabMeta), studentDb.tabs[key]? = some tab →
      studentFhs key = some (tab.cols.map ColMeta.len).sum := by
    intro key tab h
    rw [studentDb, DbMeta.getElem?_insert] at h
    split_ifs at h with hkey
    · rw [← hkey, ← Option.some.inj h]
      decide
    · simp [DbMeta.empty] at h
  have hnul : ∀ str, Ast.Expr.stringLit str ∈
      [Ast.Expr.intLit 7, Ast.Expr.stringLit (text "Ada Byrn")] → (0 : UInt8) ∉ str := by
    intro str h
    obtain rfl : str = text "Ada Byrn" := by simpa using h
    decide
  obtain ⟨exec, record, hmake, -, -, hrecord, hcells⟩ :=
    decodeCell_makeRecord studentDb studentDb_valid studentFhs hfhs (text "student")
      [.intLit 7, .stringLit (text "Ada Byrn")] { boundStatement := .null } _ rfl hnul
  exact ⟨_, exec, record, rfl, hmake, hrecord, hcells⟩

end QlManager

end Rucbase
