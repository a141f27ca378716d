import Rucbase.Analyze.Analyzer
import Rucbase.Catalog.Schema

/-!
# The planner

`src/optimizer/plan.h`, `planner.cpp` and `optimizer.h`: the plan of an analyzed statement. A
pointer that is moved out of a vector leaves a null pointer behind, so the scan plans of a join are
a list of `Option Plan`; `attach_join_condition` changes the tree that it searches, so here it
returns the tree. The flag `enable_sortmerge` is shared with other sessions and is read once for
each join node: `flag n` is what the `n`-th read returns.
-/

namespace Rucbase

open Lib

/-- `PlanTag`. -/
inductive PlanTag where
  | invalid
  | help
  | showDatabase
  | showTable
  | descTable
  | setKnob
  | createTable
  | dropTable
  | createIndex
  | dropIndex
  | insert
  | update
  | delete
  | select
  | transactionBegin
  | transactionCommit
  | transactionAbort
  | transactionRollback
  | seqScan
  | indexScan
  | nestLoop
  | sortMerge
  | sort
  | projection
  deriving DecidableEq, Repr

/-- `ScanPlan`. -/
structure ScanPlan where
  tag : PlanTag
  tabName : Bytes
  cols : List ColMeta
  conds : List Condition
  len : ℤ
  fedConds : List Condition
  indexColNames : List Bytes
  deriving DecidableEq, Repr

/-- `Plan` and its subclasses. The plans whose class has one tag do not carry it. -/
inductive Plan where
  | scan (plan : ScanPlan)
  | join (tag : PlanTag) (left right : Plan) (conds : List Condition)
  | projection (tag : PlanTag) (subplan : Plan) (selCols : List TabCol)
  | sort (tag : PlanTag) (subplan : Plan) (selCol : TabCol) (isDesc : Bool)
  | select (projection : Plan)
  | insert (table : Bytes) (values : List Value)
  | delete (scan : Plan) (table : Bytes) (conds : List Condition)
  | update (scan : Plan) (table : Bytes) (conds : List Condition) (setClauses : List SetClause)
  | ddl (tag : PlanTag) (tabName : Bytes) (tabColNames : List Bytes) (cols : List ColSchema)
      (unique : Bool)
  | other (tag : PlanTag) (tabName : Bytes)
  | setKnob (knob : Bytes) (value : Bool)
  deriving DecidableEq, Repr

/-- The constructor of `ScanPlan`. The length of a record is the end of the last column; a table
without columns has none. -/
def ScanPlan.make (db : DbMeta) (tag : PlanTag) (tabName : Bytes) (conds : List Condition)
    (indexColNames : List Bytes) : Except Error ScanPlan := do
  let tab ← db.getTable tabName
  match tab.cols.getLast? with
  | none => throw .undefinedBehaviour
  | some last => pure ⟨tag, tabName, tab.cols, conds, last.offset + last.len, conds, indexColNames⟩

namespace Planner

/-- `reverse_comparison`. -/
def reverseComparison : CompOp → CompOp
  | .eq => .eq
  | .ne => .ne
  | .lt => .gt
  | .gt => .lt
  | .le => .ge
  | .ge => .le

/-- The two statements with which the planner turns a condition around: the columns are swapped and
the operator is reversed. -/
def swapOperands (condition : Condition) : Condition :=
  { condition with
    lhsCol := condition.rhsCol, rhsCol := condition.lhsCol,
    op := reverseComparison condition.op }

/-! ## Scans -/

/-- `has_equality_condition`. -/
def hasEqualityCondition (table : Bytes) (conds : List Condition) (column : ColMeta) : Bool :=
  conds.any fun condition =>
    condition.isRhsVal && condition.op == .eq && condition.lhsCol.tabName == table &&
      condition.lhsCol.colName == column.name

/-- `choose_index`: whether an index is chosen, and its columns. -/
def chooseIndex (db : DbMeta) (table : Bytes) (conds : List Condition) :
    Except Error (Bool × List Bytes) := do
  let tab ← db.getTable table
  let indexColumns := tab.indexes.foldl (fun indexColumns index =>
    let matched := index.cols.all (hasEqualityCondition table conds)
    -- Of two indexes with as many columns the earlier one stays.
    if matched = false ∨ index.cols.length ≤ indexColumns.length then indexColumns
    else index.colNames) []
  pure (!indexColumns.isEmpty, indexColumns)

/-- `make_scan_plan`. -/
def makeScanPlan (db : DbMeta) (table : Bytes) (conds : List Condition) : Except Error Plan := do
  let (useIndex, indexColumns) ← chooseIndex db table conds
  let scanTag : PlanTag := if useIndex then .indexScan else .seqScan
  let scan ← ScanPlan.make db scanTag table conds indexColumns
  pure (.scan scan)

/-- The conditions that `take_table_conditions` takes for a table. -/
def isTableCondition (table : Bytes) (condition : Condition) : Bool :=
  let valueCondition := condition.isRhsVal && condition.lhsCol.tabName == table
  let sameTableCond := !condition.isRhsVal && condition.lhsCol.tabName == table &&
    condition.rhsCol.tabName == table
  valueCondition || sameTableCond

/-- `take_table_conditions`: the conditions taken and those left in the vector. -/
def takeTableConditions (conditions : List Condition) (table : Bytes) :
    List Condition × List Condition :=
  conditions.partition (isTableCondition table)

/-- The loop of `build_from_plan` over the tables: a scan plan for each, and the conditions that no
table has taken. -/
def makeScanPlans (db : DbMeta) : List Bytes → List Condition →
    Except Error (List Plan × List Condition)
  | [], remaining => pure ([], remaining)
  | table :: tables, remaining => do
    let (taken, remaining) := takeTableConditions remaining table
    let scan ← makeScanPlan db table taken
    let (scans, remaining) ← makeScanPlans db tables remaining
    pure (scan :: scans, remaining)

/-! ## Joins -/

/-- `table_index`. -/
def tableIndex (tables : List Bytes) (table : Bytes) : Except Error ℕ :=
  if table ∈ tables then pure (tables.idxOf table)
  else throw (.internalError (text "Join condition references an unknown table"))

/-- The vectors `joined` and `scan_plans` of `build_join_tree`. -/
structure ScanPool where
  joined : List Bool
  scanPlans : List (Option Plan)
  deriving DecidableEq, Repr

/-- `joined[index]`. -/
def ScanPool.isJoined (pool : ScanPool) (index : ℕ) : Except Error Bool :=
  match pool.joined[index]? with
  | some joined => pure joined
  | none => throw .undefinedBehaviour

/-- `take_scan_plan`. -/
def takeScanPlan (index : ℕ) (pool : ScanPool) : Except Error (Plan × ScanPool) := do
  let invalid : Error := .internalError (text "Invalid scan plan state while building a join")
  -- The size of `scan_plans` is checked, that of `joined` is not.
  throwIf (pool.scanPlans.length ≤ index) invalid
  let joined ← pool.isJoined index
  throwIf (joined = true) invalid
  match pool.scanPlans[index]? with
  | some (some plan) =>
    pure (plan, ⟨pool.joined.set index true, pool.scanPlans.set index none⟩)
  | _ => throw invalid

/-- `ConditionCoverage`. -/
inductive ConditionCoverage where
  | none
  | lhs
  | rhs
  | both
  deriving DecidableEq, Repr

/-- `attach_join_condition`: what the plan covers of the condition, and the plan, with the condition
attached to a join when both sides are covered. -/
def attachJoinCondition (condition : Condition) : Plan → ConditionCoverage × Plan
  | .scan scan =>
    -- If both operands are columns of this table, it counts as the left one.
    if scan.tabName = condition.lhsCol.tabName then (.lhs, .scan scan)
    else if scan.tabName = condition.rhsCol.tabName then (.rhs, .scan scan)
    else (.none, .scan scan)
  | .join tag left right conds =>
    let (leftCoverage, left) := attachJoinCondition condition left
    -- The condition has found its join further down.
    if leftCoverage = .both then (.both, .join tag left right conds)
    else
      let (rightCoverage, right) := attachJoinCondition condition right
      if rightCoverage = .both then (.both, .join tag left right conds)
      else if leftCoverage = .none then (rightCoverage, .join tag left right conds)
      else if rightCoverage = .none then (leftCoverage, .join tag left right conds)
      else
        -- Each side covers one operand: the condition belongs to this join, turned around if the
        -- left side covers the right operand.
        let condition := if leftCoverage = .rhs then swapOperands condition else condition
        (.both, .join tag left right (conds ++ [condition]))
  | plan => (.none, plan)

/-- The start of `build_join_tree`: the first scan, or the join of the first condition's tables. The
source takes the two scan plans in an order that the language leaves open. -/
def startJoinTree (tables : List Bytes) (pool : ScanPool) :
    List Condition → Except Error (Plan × ScanPool)
  | [] => takeScanPlan 0 pool
  | first :: _ => do
    let lhs ← tableIndex tables first.lhsCol.tabName
    let rhs ← tableIndex tables first.rhsCol.tabName
    let (left, pool) ← takeScanPlan lhs pool
    let (right, pool) ← takeScanPlan rhs pool
    pure (.join .nestLoop left right [first], pool)

/-- The body of the loop of `build_join_tree` over the other conditions. -/
def joinCondition (tables : List Bytes) (state : Plan × ScanPool) (condition : Condition) :
    Except Error (Plan × ScanPool) := do
  let (joinRoot, pool) := state
  let lhs ← tableIndex tables condition.lhsCol.tabName
  let rhs ← tableIndex tables condition.rhsCol.tabName
  let lhsJoined ← pool.isJoined lhs
  let rhsJoined ← pool.isJoined rhs
  if lhsJoined = false ∧ rhsJoined = false then do
    let (left, pool) ← takeScanPlan lhs pool
    let (right, pool) ← takeScanPlan rhs pool
    -- Two new tables make a component of their own, which is joined with the tree by a product.
    let component := Plan.join .nestLoop left right [condition]
    pure (.join .nestLoop component joinRoot [], pool)
  else if lhsJoined ≠ rhsJoined then do
    -- The new table goes to the left, so its column becomes the left operand.
    let newTable := if lhsJoined then rhs else lhs
    let condition := if lhsJoined then swapOperands condition else condition
    let (scan, pool) ← takeScanPlan newTable pool
    pure (.join .nestLoop scan joinRoot [condition], pool)
  else
    -- Both tables are in the tree already.
    let (coverage, joinRoot) := attachJoinCondition condition joinRoot
    if coverage ≠ .both then
      throw (.internalError (text "Failed to attach join condition to plan tree"))
    else pure (joinRoot, pool)

/-- The body of the loop of `build_join_tree` over the table numbers. -/
def joinLeftover (state : Plan × ScanPool) (i : ℕ) : Except Error (Plan × ScanPool) := do
  let (joinRoot, pool) := state
  let joined ← pool.isJoined i
  if joined = false then do
    let (scan, pool) ← takeScanPlan i pool
    pure (.join .nestLoop scan joinRoot [], pool)
  else pure (joinRoot, pool)

/-- `build_join_tree`. -/
def buildJoinTree (tables : List Bytes) (scanPlans : List Plan) (joinConditions : List Condition) :
    Except Error Plan := do
  let pool : ScanPool := ⟨List.replicate tables.length false, scanPlans.map some⟩
  let state ← startJoinTree tables pool joinConditions
  let state ← joinConditions.tail.foldlM (joinCondition tables) state
  -- Tables that no condition mentions are joined last, each by a product.
  let state ← (List.range tables.length).foldlM joinLeftover state
  pure state.1

/-- `build_from_plan`. -/
def buildFromPlan (db : DbMeta) (query : AnalyzedQuery) : Except Error Plan := do
  throwIf query.boundTables.isEmpty (.internalError (text "SELECT query has no bound tables"))
  let (scanPlans, remainingConditions) ← makeScanPlans db query.boundTables query.boundConds
  if query.boundTables.length = 1 then
    match scanPlans with
    | scan :: _ => pure scan
    | [] => throw .undefinedBehaviour
  else buildJoinTree query.boundTables scanPlans remainingConditions

/-- The condition that `choose_join_algorithm` takes for the key of a merge. -/
def isMergeKey (condition : Condition) : Bool := !condition.isRhsVal && condition.op == .eq

/-- `std::rotate` of the conditions: the first that can be a merge key, with it moved to the front
of the list. -/
def rotateMergeKey (conds : List Condition) : Option (Condition × List Condition) :=
  match conds.find? isMergeKey with
  | none => none
  | some key => some (key, key :: conds.eraseIdx (conds.findIdx isMergeKey))

/-- `choose_join_algorithm` from the `reads`-th read of the flag on: the plan, and the number of
reads after it. -/
def chooseJoinAlgorithm (flag : ℕ → Bool) : Plan → ℕ → Plan × ℕ
  | .join tag left right conds, reads =>
    let (left, reads) := chooseJoinAlgorithm flag left reads
    let (right, reads) := chooseJoinAlgorithm flag right reads
    if flag reads = false then (.join tag left right conds, reads + 1)
    else match rotateMergeKey conds with
      | none => (.join tag left right conds, reads + 1)
      | some (key, conds) =>
        -- Both inputs are sorted by the key, and the other conditions stay with the join.
        (.join .sortMerge (.sort .sort left key.lhsCol false) (.sort .sort right key.rhsCol false)
          conds, reads + 1)
  | plan, reads => (plan, reads)

/-! ## Statements -/

/-- `logical_optimization`. -/
def logicalOptimization (query : AnalyzedQuery) : AnalyzedQuery := query

/-- `physical_optimization`. -/
def physicalOptimization (db : DbMeta) (flag : ℕ → Bool) (query : AnalyzedQuery) :
    Except Error Plan := do
  let root ← buildFromPlan db query
  let (root, _) := chooseJoinAlgorithm flag root 0
  match query.boundOrderCol with
  | some orderCol => pure (.sort .sort root orderCol query.boundOrderDesc)
  | none => pure root

/-- `plan_select`. -/
def planSelect (db : DbMeta) (flag : ℕ → Bool) (query : AnalyzedQuery) : Except Error Plan := do
  let query := logicalOptimization query
  let root ← physicalOptimization db flag query
  pure (.select (.projection .projection root query.boundCols))

/-- `interpret_type`. -/
def interpretType : Ast.DataType → ColType
  | .int => .int
  | .float => .float
  | .string => .string

/-- `do_planner`. -/
def doPlanner (db : DbMeta) (flag : ℕ → Bool) (query : AnalyzedQuery) : Except Error Plan :=
  match query.boundStatement with
  | .createTable tabName fields =>
    let colDefs : List ColSchema := fields.map fun field =>
      ⟨field.colName, interpretType field.typeLen.type, field.typeLen.declaredLen⟩
    pure (.ddl .createTable tabName [] colDefs false)
  | .dropTable tabName => pure (.ddl .dropTable tabName [] [] false)
  | .createIndex tabName colNames unique => pure (.ddl .createIndex tabName colNames [] unique)
  | .dropIndex tabName colNames => pure (.ddl .dropIndex tabName colNames [] false)
  | .insert _ _ => do
    throwIf query.boundTargetTable.isEmpty
      (.internalError (text "INSERT query has no bound target table"))
    pure (.insert query.boundTargetTable query.boundValues)
  | .delete _ _ => do
    throwIf query.boundTargetTable.isEmpty
      (.internalError (text "DELETE query has no bound target table"))
    let scan ← makeScanPlan db query.boundTargetTable query.boundConds
    pure (.delete scan query.boundTargetTable query.boundConds)
  | .update _ _ _ => do
    throwIf query.boundTargetTable.isEmpty
      (.internalError (text "UPDATE query has no bound target table"))
    let scan ← makeScanPlan db query.boundTargetTable query.boundConds
    pure (.update scan query.boundTargetTable query.boundConds query.boundSetClauses)
  | .select _ => planSelect db flag query
  | .null | .help | .showTables | .showDatabase | .setKnob _ _ | .txnBegin | .txnCommit
  | .txnAbort | .txnRollback | .descTable _ =>
    throw (.internalError (text "Planner received a non-plannable statement kind"))

end Planner

/-- `Optimizer::plan_query`. -/
def Optimizer.planQuery (db : DbMeta) (flag : ℕ → Bool) (query : AnalyzedQuery) :
    Except Error Plan :=
  match query.boundStatement with
  | .help => pure (.other .help [])
  | .showDatabase => pure (.other .showDatabase [])
  | .showTables => pure (.other .showTable [])
  | .setKnob _ _ => pure (.setKnob query.boundKnobName query.boundKnobValue)
  | .descTable tabName => pure (.other .descTable tabName)
  | .txnBegin => pure (.other .transactionBegin [])
  | .txnAbort => pure (.other .transactionAbort [])
  | .txnCommit => pure (.other .transactionCommit [])
  | .txnRollback => pure (.other .transactionRollback [])
  | .null | .createTable _ _ | .dropTable _ | .createIndex _ _ _ | .dropIndex _ _ | .insert _ _
  | .delete _ _ | .update _ _ _ | .select _ => Planner.doPlanner db flag query

end Rucbase
