import Rucbase.Catalog.Meta
import Rucbase.Parser.Ast

/-!
# The analyzer

`src/analyze/analyzer.cpp`: the binding of a statement to the catalog. Each function reads the
catalog of `sm_manager_->db_` and either throws or returns what it would write into the
`AnalyzedQuery`. The checks stand in the order of the source, so that the exception of a statement
with several faults is the one that the code reports.
-/

namespace Rucbase

open Lib

/-- `AnalyzedQuery`. -/
structure AnalyzedQuery where
  boundStatement : Ast.Statement
  boundTargetTable : Bytes := []
  boundConds : List Condition := []
  boundCols : List TabCol := []
  boundTables : List Bytes := []
  boundOrderCol : Option TabCol := none
  boundOrderDesc : Bool := false
  boundSetClauses : List SetClause := []
  boundValues : List Value := []
  boundKnobName : Bytes := []
  boundKnobValue : Bool := false

namespace Analyzer

/-! ## Literals and operators -/

/-- `convert_ast_value`. -/
def convertAstValue : Ast.Expr → Except Error Value
  | .intLit val => pure (Value.setInt val)
  | .floatLit val => pure (Value.setFloat val)
  | .stringLit val => pure (Value.setStr val)
  | _ => throw (.internalError (text "Non-literal expression stored as an AST value"))

/-- `convert_ast_comp_op`. -/
def convertAstCompOp : Ast.CompOp → CompOp
  | .eq => .eq
  | .ne => .ne
  | .lt => .lt
  | .gt => .gt
  | .le => .le
  | .ge => .ge

/-! ## FROM and column references -/

/-- `get_table_names`: the tables of a FROM tree, from left to right. -/
def getTableNames : Ast.FromNode → Except Error (List Bytes)
  | .null => throw (.internalError (text "FROM tree contains a null node"))
  | .tableRef tableName aliasName => do
    throwIf (aliasName ≠ []) (.notImplementedError (text "Table aliases are not supported yet"))
    pure [tableName]
  | .derivedTable _ aliasName => do
    -- The alias is checked before the kind of the source.
    throwIf (aliasName ≠ []) (.notImplementedError (text "Table aliases are not supported yet"))
    throw (.notImplementedError (text "Derived-table subqueries are not supported yet"))
  | .join type left right condition => do
    -- Both checks are made at a join before its subtrees are visited.
    throwIf (type ≠ .cross ∧ type ≠ .inner)
      (.notImplementedError (text "Outer joins are not supported yet"))
    throwIf (condition.isNull = false)
      (.notImplementedError (text "JOIN ON predicates are not supported yet"))
    let tableNames ← getTableNames left
    let rightTableNames ← getTableNames right
    pure (tableNames ++ rightTableNames)

/-- `get_all_cols`: the columns of the tables, in the order of the list. -/
def getAllCols (db : DbMeta) (tabNames : List Bytes) : Except Error (List ColMeta) := do
  let tabs ← tabNames.mapM db.getTable
  pure (tabs.flatMap TabMeta.cols)

/-- The loop of `check_column` over the visible columns for an unqualified reference: `tabName` is
the table found so far, empty before the first match. -/
def resolveUnqualified (colName : Bytes) : List ColMeta → Bytes → Except Error Bytes
  | [], tabName => pure tabName
  | col :: cols, tabName =>
    if col.name = colName then do
      -- A second match is an error at once, even in the same table.
      throwIf (tabName ≠ []) (.ambiguousColumnError colName)
      resolveUnqualified colName cols col.tabName
    else resolveUnqualified colName cols tabName

/-- `check_column`: resolve a reference in the visible columns. -/
def checkColumn (allCols : List ColMeta) (target : TabCol) : Except Error TabCol :=
  if target.tabName = [] then do
    let tabName ← resolveUnqualified target.colName allCols []
    throwIf (tabName = []) (.columnNotFoundError target.colName)
    pure { target with tabName := tabName }
  else if allCols.any fun candidate =>
      candidate.tabName == target.tabName && candidate.name == target.colName then
    pure target
  else throw (.columnNotFoundError (target.tabName ++ text "." ++ target.colName))

/-! ## WHERE -/

/-- The comparison case of `append_clause`: the condition for a comparison of the column `lhs` with
the operand `rhs`. Of a condition between two columns, `rhs_val` stays as `Condition{}` leaves
it. -/
def comparisonClause (lhs : Ast.Col) (op : Ast.CompOp) (rhs : Ast.Expr) :
    Except Error Condition :=
  let lhsCol : TabCol := ⟨lhs.tabName, lhs.colName⟩
  match rhs with
  | .null => throw (.internalError (text "Comparison contains a null operand"))
  | .intLit _ | .floatLit _ | .stringLit _ => do
    let rhsVal ← convertAstValue rhs
    pure ⟨lhsCol, convertAstCompOp op, true, ⟨[], []⟩, rhsVal⟩
  | .col rhsCol =>
    -- The columns are copied as written, and bound later by `check_clause`.
    pure ⟨lhsCol, convertAstCompOp op, false, ⟨rhsCol.tabName, rhsCol.colName⟩,
      ⟨.int, 0, [], none⟩⟩
  | .star _ | .binary _ _ _ | .logical _ _ _ | .unary _ _ | .functionCall _ _ _ | .subquery _ =>
    throw (.notImplementedError (text "This comparison right-hand side is not supported yet"))

/-- `append_clause`: the conditions of a conjunction of comparisons, behind those collected
already. -/
def appendClause : Ast.Expr → List Condition → Except Error (List Condition)
  | .null, _ => throw (.internalError (text "Predicate tree contains a null expression"))
  | .logical op lhs rhs, conds => do
    throwIf (op ≠ .and) (.notImplementedError (text "OR predicates are not supported yet"))
    -- The left operand comes first, so the conditions keep the order of the text.
    let conds ← appendClause lhs conds
    appendClause rhs conds
  | .unary _ _, _ => throw (.notImplementedError (text "NOT predicates are not supported yet"))
  | .binary none _ _, _ => throw (.internalError (text "Comparison contains a null operand"))
  | .binary (some lhs) op rhs, conds => do
    let cond ← comparisonClause lhs op rhs
    pure (conds ++ [cond])
  | .intLit _, _ | .floatLit _, _ | .stringLit _, _ | .col _, _ | .star _, _
  | .functionCall _ _ _, _ | .subquery _, _ =>
    throw (.notImplementedError (text "This predicate expression is not supported yet"))

/-- `get_clause`: no predicate is no condition. -/
def getClause (predicate : Ast.Expr) : Except Error (List Condition) :=
  if predicate.isNull then pure [] else appendClause predicate []

/-- The body of the loop of `check_clause`: bind both sides of a condition, compare their types, and
encode a literal for the column on the left. -/
def checkCond (db : DbMeta) (allCols : List ColMeta) (cond : Condition) :
    Except Error Condition := do
  let lhsCol ← checkColumn allCols cond.lhsCol
  let rhsCol ← (if cond.isRhsVal then pure cond.rhsCol else checkColumn allCols cond.rhsCol)
  let lhsTab ← db.getTable lhsCol.tabName
  let lhsMeta ← lhsTab.getCol lhsCol.colName
  let rhsType ← (if cond.isRhsVal then pure cond.rhsVal.type else do
    let rhsTab ← db.getTable rhsCol.tabName
    let rhsMeta ← rhsTab.getCol rhsCol.colName
    pure rhsMeta.type)
  throwIf (lhsMeta.type ≠ rhsType)
    (.incompatibleTypeError (coltype2str lhsMeta.type) (coltype2str rhsType))
  -- The literal takes the length of the column, and must fit into it.
  let rhsVal ← (if cond.isRhsVal then cond.rhsVal.initRaw lhsMeta.len else pure cond.rhsVal)
  pure { cond with lhsCol := lhsCol, rhsCol := rhsCol, rhsVal := rhsVal }

/-- `check_clause`. -/
def checkClause (db : DbMeta) (allCols : List ColMeta) (conds : List Condition) :
    Except Error (List Condition) :=
  conds.mapM (checkCond db allCols)

/-! ## Statements -/

/-- The columns that one item of the select list stands for, before they are bound: a column as it
is written, or the visible columns that a star matches. -/
def expandItem (boundTables : List Bytes) (allCols : List ColMeta) :
    Ast.Expr → Except Error (List TabCol)
  | .null => throw (.internalError (text "SELECT projection contains a null expression"))
  | .col column => pure [⟨column.tabName, column.colName⟩]
  | .star tabName => do
    throwIf (tabName ≠ [] ∧ tabName ∉ boundTables) (.tableNotFoundError tabName)
    pure ((allCols.filter fun col => tabName = [] ∨ col.tabName = tabName).map
      fun col => ⟨col.tabName, col.name⟩)
  | .intLit _ | .floatLit _ | .stringLit _ | .binary _ _ _ | .logical _ _ _ | .unary _ _
  | .functionCall _ _ _ | .subquery _ =>
    throw (.notImplementedError (text "This SELECT item expression is not supported yet"))

/-- The ORDER BY part of `analyze_select`: the bound column and whether it is descending. -/
def analyzeOrderBy (allCols : List ColMeta) :
    List (Option Ast.OrderBy) → Except Error (Option TabCol × Bool)
  | [] => pure (none, false)
  | none :: _ => throw (.internalError (text "ORDER BY contains a null expression"))
  | some item :: _ =>
    match item.expression with
    | .null => throw (.internalError (text "ORDER BY contains a null expression"))
    | .col column => do
      let orderCol ← checkColumn allCols ⟨column.tabName, column.colName⟩
      pure (some orderCol, item.direction = .desc)
    | _ => throw (.notImplementedError (text "ORDER BY expressions are not supported yet"))

/-- `analyze_select`. -/
def analyzeSelect (db : DbMeta) (stmt : Ast.SelectStmt) (query : AnalyzedQuery) :
    Except Error AnalyzedQuery := do
  throwIf stmt.fromNode.isNull (.internalError (text "SELECT statement has no FROM source"))
  let boundTables ← getTableNames stmt.fromNode
  let allCols ← getAllCols db boundTables
  throwIf stmt.selectItems.isEmpty
    (.internalError (text "SELECT statement has an empty projection list"))
  let items ← stmt.selectItems.mapM (expandItem boundTables allCols)
  -- Columns that a star stands for are bound again, like those that are written.
  let boundCols ← items.flatten.mapM (checkColumn allCols)
  throwIf (stmt.groupBy.isEmpty = false ∨ stmt.having.isNull = false ∨ stmt.limit.isSome)
    (.notImplementedError (text "GROUP BY, HAVING, and LIMIT are not supported yet"))
  throwIf (1 < stmt.orderBy.length)
    (.notImplementedError (text "Multiple ORDER BY items are not supported yet"))
  let (orderCol, orderDesc) ← analyzeOrderBy allCols stmt.orderBy
  let conds ← getClause stmt.whereExpr
  let boundConds ← checkClause db allCols conds
  pure { query with boundTables := boundTables, boundCols := boundCols,
                    boundOrderCol := orderCol, boundOrderDesc := orderDesc,
                    boundConds := boundConds }

/-- The body of the loop of `analyze_update` over the SET clauses. -/
def analyzeSetClause (table : TabMeta) : Option Ast.SetClause → Except Error SetClause
  | none | some ⟨none, _⟩ | some ⟨_, .null⟩ =>
    throw (.internalError (text "UPDATE SET contains a null AST node"))
  | some ⟨some targetColumn, assignedExpr⟩ => do
    let target ← checkColumn table.cols ⟨targetColumn.tabName, targetColumn.colName⟩
    throwIf (assignedExpr.isLiteral = false)
      (.notImplementedError (text "UPDATE SET expressions are not supported yet"))
    -- Any other expression has been refused, so the conversion succeeds.
    let rhs ← convertAstValue assignedExpr
    let column ← table.getCol target.colName
    throwIf (column.type ≠ rhs.type)
      (.incompatibleTypeError (coltype2str column.type) (coltype2str rhs.type))
    let rhs ← rhs.initRaw column.len
    pure ⟨target, rhs⟩

/-- `analyze_update`. -/
def analyzeUpdate (db : DbMeta) (tabName : Bytes) (setClauses : List (Option Ast.SetClause))
    (whereExpr : Ast.Expr) (query : AnalyzedQuery) : Except Error AnalyzedQuery := do
  let table ← db.getTable tabName
  let boundSetClauses ← setClauses.mapM (analyzeSetClause table)
  let conds ← getClause whereExpr
  let boundConds ← checkClause db table.cols conds
  pure { query with boundTargetTable := table.name, boundSetClauses := boundSetClauses,
                    boundConds := boundConds }

/-- `analyze_delete`. -/
def analyzeDelete (db : DbMeta) (tabName : Bytes) (whereExpr : Ast.Expr) (query : AnalyzedQuery) :
    Except Error AnalyzedQuery := do
  let table ← db.getTable tabName
  let conds ← getClause whereExpr
  let boundConds ← checkClause db table.cols conds
  pure { query with boundTargetTable := table.name, boundConds := boundConds }

/-- The body of the loop of `analyze_insert`: the value for one column. -/
def analyzeInsertValue (value : Ast.Expr) (column : ColMeta) : Except Error Value := do
  throwIf value.isNull (.internalError (text "INSERT contains a null value node"))
  let value ← convertAstValue value
  throwIf (value.type ≠ column.type)
    (.incompatibleTypeError (coltype2str column.type) (coltype2str value.type))
  value.initRaw column.len

/-- `analyze_insert`. -/
def analyzeInsert (db : DbMeta) (tabName : Bytes) (values : List Ast.Expr)
    (query : AnalyzedQuery) : Except Error AnalyzedQuery := do
  let table ← db.getTable tabName
  throwIf (values.length ≠ table.cols.length) .invalidValueCountError
  -- The counts agree, so `zip` pairs every value with its column.
  let boundValues ← (values.zip table.cols).mapM fun vc => analyzeInsertValue vc.1 vc.2
  pure { query with boundTargetTable := table.name, boundValues := boundValues }

/-- `std::tolower` on a byte in the C locale. -/
def toLower (c : UInt8) : UInt8 := if 65 ≤ c ∧ c ≤ 90 then c + 32 else c

/-- `analyze_set_knob`. -/
def analyzeSetKnob (name value : Bytes) (query : AnalyzedQuery) :
    Except Error AnalyzedQuery := do
  let lowerName := name.map toLower
  let lowerValue := value.map toLower
  throwIf (lowerName ∉ [text "enable_sortmerge"] ∨
      (lowerValue ≠ text "true" ∧ lowerValue ≠ text "false"))
    (.invalidKnobError name value)
  pure { query with boundKnobName := lowerName, boundKnobValue := lowerValue = text "true" }

/-- `analyze`: DDL and utility statements need no binding. -/
def analyze (db : DbMeta) (statement : Ast.Statement) : Except Error AnalyzedQuery :=
  let query : AnalyzedQuery := { boundStatement := statement }
  match statement with
  | .null => throw (.internalError (text "Analyzer received a null AST statement"))
  | .select stmt => analyzeSelect db stmt query
  | .update tabName setClauses whereExpr => analyzeUpdate db tabName setClauses whereExpr query
  | .delete tabName whereExpr => analyzeDelete db tabName whereExpr query
  | .insert tabName values => analyzeInsert db tabName values query
  | .setKnob name value => analyzeSetKnob name value query
  | .help | .showTables | .showDatabase | .txnBegin | .txnCommit | .txnAbort | .txnRollback
  | .createTable _ _ | .dropTable _ | .descTable _ | .createIndex _ _ _ | .dropIndex _ _ =>
    pure query

end Analyzer

end Rucbase
