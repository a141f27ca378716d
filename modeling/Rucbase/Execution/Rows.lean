import Rucbase.Execution.Insert
import Rucbase.Lib.Entries
import Rucbase.Optimizer.Meaning

/-!
# The rows of a table

A record of a table spells a row: a value for each column name. The file of a table holds the rows
of a multiset when its records spell them, each place one (`HoldsRows`), and the table's indexes
follow the file when each of their trees has the entry of every record, once (`Storage.Indexed`).

INSERT adds the row of its literals and keeps the indexes (`holds_of_next`).
-/

namespace Rucbase

open Lib

/-- The value in a cell. -/
def WireResultCell.datum (cell : WireResultCell) : Datum :=
  match cell.type with
  | .int => .int cell.intVal
  | .float => .float cell.floatVal
  | .string => .string cell.strVal

namespace TabMeta

/-- The bytes are as long as a record of the table. -/
def IsRecord (tab : TabMeta) (record : Bytes) : Prop :=
  (record.length : ℤ) = (tab.cols.map ColMeta.len).sum

/-- The row that a record of the table spells, by column name. -/
def rowOf (tab : TabMeta) (record : Bytes) : Bytes → Option Datum := fun name =>
  (tab.cols.find? (·.name == name)).map fun col => (QlManager.decodeCell record col).datum

end TabMeta

/-- The value of a literal. -/
def literalDatum : Ast.Expr → Option Datum
  | .intLit val => some (.int val)
  | .floatLit val => some (.float val)
  | .stringLit val => some (.string val)
  | _ => none

/-- The row of a value list. -/
def literalRow (tab : TabMeta) (literals : List Ast.Expr) : Bytes → Option Datum := fun name =>
  ((tab.cols.zip literals).find? (·.1.name == name)).bind fun pair => literalDatum pair.2

/-! ## A file that holds rows -/

/-- The rows at the places. -/
def rowsOf (tab : TabMeta) (places : List (Rid × Bytes)) : Multiset (Bytes → Option Datum) :=
  ↑(places.map fun place => tab.rowOf place.2)

/-- The places and records of a file hold the rows. -/
structure HoldsAt (records : Rid → Option Bytes) (tab : TabMeta)
    (rows : Multiset (Bytes → Option Datum)) (places : List (Rid × Bytes)) : Prop where
  enumerates : Enumerates records places
  isRecord : ∀ place ∈ places, tab.IsRecord place.2
  rows_eq : rows = rowsOf tab places

/-- The records of a file spell the rows, each place one of them. -/
def HoldsRows (records : Rid → Option Bytes) (tab : TabMeta)
    (rows : Multiset (Bytes → Option Datum)) : Prop :=
  ∃ places, HoldsAt records tab rows places

/-- The trees of the table's indexes have the entry of every record of the file. -/
def Storage.Indexed (st : Storage) (tab : TabMeta) : Prop :=
  ∀ index ∈ tab.indexes, ∃ places, Enumerates st.records places ∧
    st.indexes (index.fileName tab.name) =
      some ↑(places.map fun place => (index.makeKey place.2, place.1))

theorem holds_empty (tab : TabMeta) : HoldsRows (fun _ => none) tab 0 :=
  ⟨[], .empty, by simp, rfl⟩

/-! ## INSERT -/

/-- A literal has the value of the cell that it is read back as. -/
theorem literalDatum_of_literalCell {e : Ast.Expr} {cell : WireResultCell}
    (h : QlManager.literalCell e = some cell) : literalDatum e = some cell.datum := by
  cases e <;> simp only [QlManager.literalCell, Option.some.injEq, reduceCtorEq] at h <;>
    subst h <;> rfl

/-- A record whose columns are read back as literals spells their row. -/
theorem rowOf_eq_literalRow {tab : TabMeta} {literals : List Ast.Expr} {record : Bytes}
    (h : List.Forall₂ (fun e col => QlManager.literalCell e =
      some (QlManager.decodeCell record col)) literals tab.cols) :
    tab.rowOf record = literalRow tab literals := by
  funext name
  unfold TabMeta.rowOf literalRow
  generalize tab.cols = cols at h
  induction h with
  | nil => rfl
  | @cons e col literals cols he _ ih =>
    rw [List.zip_cons_cons, List.find?_cons, List.find?_cons]
    by_cases hname : col.name == name
    · simp only [hname, Option.map_some, Option.bind_some, literalDatum_of_literalCell he]
    · simp only [hname, ih]

/-- The record of an INSERT that the analyzer accepts spells the row of its literals. -/
theorem record_of_analyzeInsert {db : DbMeta} (hdb : db.Valid) {tabName : Bytes}
    {literals : List Ast.Expr} {query₀ query : AnalyzedQuery}
    (haccept : Analyzer.analyzeInsert db tabName literals query₀ = .ok query)
    (hnul : ∀ str, Ast.Expr.stringLit str ∈ literals → (0 : UInt8) ∉ str) :
    ∃ tab, db.tabs[tabName]? = some tab ∧ query.boundTargetTable = tabName ∧
      ∀ (exec : InsertExecutor) (garbage : ℕ → UInt8), exec.tab = tab →
        exec.values = query.boundValues → exec.recordSize = (tab.cols.map ColMeta.len).sum →
        ∃ record, exec.makeRecord garbage = .ok record ∧ tab.IsRecord record ∧
          tab.rowOf record = literalRow tab literals := by
  unfold Analyzer.analyzeInsert at haccept
  obtain ⟨tab, htab, haccept⟩ := bind_eq_ok.mp haccept
  obtain ⟨_, hcount, haccept⟩ := bind_eq_ok.mp haccept
  obtain ⟨bound, hbound, haccept⟩ := bind_eq_ok.mp haccept
  rw [Analyzer.getTable_eq_ok] at htab
  rw [throwIf_eq_ok, not_not] at hcount
  rw [pure_eq_ok] at haccept
  subst haccept
  have hvalid := hdb.tab_valid _ _ htab
  obtain ⟨henc, hconv⟩ := Analyzer.analyzeInsert_values hcount hbound
  refine ⟨tab, htab, (hdb.key_eq _ _ htab).symm, ?_⟩
  rintro ⟨tab, values, name, size, hlength⟩ garbage rfl rfl hsize
  have htiles : Tiles (([] : Bytes).length : ℤ) tab.cols := hvalid.tiles
  have hblocks := QlManager.forall₂_slice_encodings henc htiles
  rw [List.nil_append] at hblocks
  refine ⟨_, InsertExecutor.makeRecord_eq henc hvalid.tiles hsize garbage,
    InsertExecutor.length_encodings henc, rowOf_eq_literalRow ?_⟩
  exact QlManager.forall₂_decodeCell hconv hblocks hvalid.validLen hnul

/-- An INSERT that returns has added the row of its record to the file, and its entry to each index
of the table. -/
theorem holds_of_next {exec : InsertExecutor} (hname : exec.tabName = exec.tab.name)
    (hnodup : (exec.tab.indexes.map (·.fileName exec.tab.name)).Nodup) {garbage : ℕ → UInt8}
    {outcomes : InsertExecutor.Outcomes} {st st' : Storage}
    (hfree : ∀ rid, outcomes.insertRecord = .ok rid → st.records rid = none)
    {row : Bytes → Option Datum} {rows : Multiset (Bytes → Option Datum)}
    (hrecord : ∃ record, exec.makeRecord garbage = .ok record ∧ exec.tab.IsRecord record ∧
      exec.tab.rowOf record = row)
    (hholds : HoldsRows st.records exec.tab rows) (hindexed : st.Indexed exec.tab) {rid : Rid}
    (hnext : exec.next garbage outcomes st = (.ok rid, st')) :
    HoldsRows st'.records exec.tab (row ::ₘ rows) ∧ st'.Indexed exec.tab ∧
      ∀ name ∉ exec.tab.indexes.map (·.fileName exec.tab.name),
        st'.indexes name = st.indexes name := by
  have hstep := InsertExecutor.atomic_of_nodup hnodup exec garbage outcomes st rfl hname hfree
  rw [hnext] at hstep
  obtain ⟨record, hmake, hfree, hrecords, htrees, hothers⟩ := hstep
  obtain ⟨_, hmade, hlen, rfl⟩ := hrecord
  obtain rfl : _ = record := Except.ok.inj (hmade.symm.trans hmake)
  rw [hname] at htrees hothers
  refine ⟨?_, ?_, hothers⟩
  · obtain ⟨places, henum, hlens, rfl⟩ := hholds
    refine ⟨(rid, _) :: places, hrecords ▸ henum.insert hfree _, ?_, rfl⟩
    exact List.forall_mem_cons.mpr ⟨hlen, hlens⟩
  · intro index hindex
    obtain ⟨places, henum, hplaces⟩ := hindexed index hindex
    obtain ⟨tree, htree, hafter⟩ := htrees index hindex
    refine ⟨(rid, _) :: places, hrecords ▸ henum.insert hfree _, ?_⟩
    rw [htree] at hplaces
    rw [hafter, Option.some.inj hplaces]
    rfl

end Rucbase
