import Rucbase.Optimizer.Planner

/-!
# The executors of a plan

`Portal::convert_plan_executor` (`src/portal/portal.cpp`) and the constructors of the executors
under `src/execution/`. A constructor reads `cols()` and `tuple_len()` of the executors below it.
These are stubs in the source as it stands; here a scan and a join expose the columns and the length
that their constructors compute, a projection the columns it selects, and a sort what the executor
below it exposes. An executor is what it exposes: what it does with its rows is not modelled.

`fhs` are the tables whose record files are open (`SmManager::fhs_`).
-/

namespace Rucbase

open Lib

/-- What an executor exposes: `cols()` and `tuple_len()`. -/
structure Executor where
  cols : List ColMeta
  tupleLen : ℤ
  deriving DecidableEq, Repr

namespace Executor

/-- `AbstractExecutor::get_col`. -/
def getCol (recCols : List ColMeta) (target : TabCol) : Except Error ColMeta :=
  match recCols.find? fun col => col.tabName == target.tabName && col.name == target.colName with
  | some col => pure col
  | none => throw (.columnNotFoundError (target.tabName ++ text "." ++ target.colName))

/-- The record of a table, as the scans expose it. -/
def ofTable (tab : TabMeta) : Except Error Executor :=
  match tab.cols.getLast? with
  | none => throw .undefinedBehaviour
  | some last => pure ⟨tab.cols, last.offset + last.len⟩

/-- `SeqScanExecutor`. -/
def seqScan (db : DbMeta) (fhs : List Bytes) (tabName : Bytes) : Except Error Executor := do
  let tab ← db.getTable tabName
  throwIf (tabName ∉ fhs) .outOfRange
  ofTable tab

/-- `IndexScanExecutor`. A condition whose left side is a column of another table must have a column
of this table on the right. -/
def indexScan (db : DbMeta) (fhs : List Bytes) (tabName : Bytes) (conds : List Condition)
    (indexColNames : List Bytes) : Except Error Executor := do
  let tab ← db.getTable tabName
  let _ ← tab.getIndexMeta indexColNames
  throwIf (tabName ∉ fhs) .outOfRange
  let executor ← ofTable tab
  throwIf (conds.any fun cond => cond.lhsCol.tabName != tabName &&
      !(!cond.isRhsVal && cond.rhsCol.tabName == tabName)) .assertionFailed
  pure executor

/-- The record of a join: the columns of the right side stand behind the record of the left one. -/
def joined (left right : Executor) : Executor where
  cols := left.cols ++ right.cols.map fun col => { col with offset := col.offset + left.tupleLen }
  tupleLen := left.tupleLen + right.tupleLen

/-- `NestedLoopJoinExecutor`. -/
def nestedLoopJoin (left right : Executor) : Executor := joined left right

/-- What the constructor of `MergeJoinExecutor` throws without a key. -/
def noKey : Error :=
  .internalError (text "MergeJoinExecutor requires a column equality as its first condition")

/-- `MergeJoinExecutor`. -/
def mergeJoin (left right : Executor) (conds : List Condition) : Except Error Executor :=
  match conds with
  | [] => throw noKey
  | mergeCond :: _ => do
    throwIf (mergeCond.isRhsVal ∨ mergeCond.op ≠ .eq) noKey
    let _ ← getCol left.cols mergeCond.lhsCol
    let _ ← getCol right.cols mergeCond.rhsCol
    pure (joined left right)

/-- `SortExecutor`. -/
def sort (prev : Executor) (selCol : TabCol) : Except Error Executor := do
  let _ ← getCol prev.cols selCol
  pure prev

/-- The loop of the constructor of `ProjectionExecutor`: the selected columns from `currOffset` on,
and the offset behind them. -/
def selectCols (prevCols : List ColMeta) : List TabCol → ℤ → Except Error (List ColMeta × ℤ)
  | [], currOffset => pure ([], currOffset)
  | selCol :: selCols, currOffset => do
    let col ← getCol prevCols selCol
    let (cols, endOffset) ← selectCols prevCols selCols (currOffset + col.len)
    pure ({ col with offset := currOffset } :: cols, endOffset)

/-- `ProjectionExecutor`. -/
def projection (prev : Executor) (selCols : List TabCol) : Except Error Executor := do
  let (cols, len) ← selectCols prev.cols selCols 0
  pure ⟨cols, len⟩

end Executor

/-- `Portal::convert_plan_executor`. -/
def Portal.convertPlanExecutor (db : DbMeta) (fhs : List Bytes) : Plan → Except Error Executor
  | .projection _ subplan selCols => do
    let prev ← convertPlanExecutor db fhs subplan
    Executor.projection prev selCols
  | .scan scan =>
    if scan.tag = .seqScan then Executor.seqScan db fhs scan.tabName
    else Executor.indexScan db fhs scan.tabName scan.conds scan.indexColNames
  | .join tag left right conds => do
    let left ← convertPlanExecutor db fhs left
    let right ← convertPlanExecutor db fhs right
    if tag = .sortMerge then Executor.mergeJoin left right conds
    else pure (Executor.nestedLoopJoin left right)
  | .sort _ subplan selCol _ => do
    let prev ← convertPlanExecutor db fhs subplan
    Executor.sort prev selCol
  | .select .. | .insert .. | .delete .. | .update .. | .ddl .. | .other .. | .setKnob .. =>
    throw (.notImplementedError (text "executor conversion for this query plan"))

end Rucbase
