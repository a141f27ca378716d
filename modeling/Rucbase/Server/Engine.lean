import Rucbase.Execution.Insert
import Rucbase.Parser.Outcome
import Rucbase.Portal.Executors
import Rucbase.Server.Session
import Rucbase.System.CreateTable

/-!
# The engine behind a request

`Server::execute_sql` (`src/server/server.cpp`) takes the text of a request through four stages: the
parser, the analyzer, the planner, and `Portal` (`src/portal/portal.cpp`), which builds executors
for the plan and runs them through `QlManager` (`src/execution/execution_manager.cpp`) and
`SmManager` (`src/system/sm_manager.cpp`). What an exception has left in the engine stays there, and
what it has left in the result of the request is dropped.

The source leaves parts of the engine to the labs: dropping tables, creating and dropping indexes,
what the executors expose and pass on, and the `next` of UPDATE and DELETE. They are parameters here
(`Labs`), and `Labs.stubs` is what stands in their place. Transactions are switched off in this
source, so that a request has none. Statements follow one another, and memory does not run out.
-/

namespace Rucbase

open Lib Server

/-! ## The parts -/

/-- What the engine takes from the libraries below it. -/
structure Libraries where
  json : JsonText
  strtof : Bytes → Option (BitVec 32)
  /-- The text of a syntax error. -/
  syntaxError :
    List (Lr.Item Parser.Nonterminal Parser.Terminal Parser.SemanticValue Ast.Statement) →
      Option Parser.Token → Bytes
  /-- `what()` of an exception that is not of `errors.h`. -/
  what : Error → Bytes

/-- An exception as the handlers of `execute_sql` find it. A failed assertion or undefined behaviour
is none that they catch. -/
def Libraries.thrown (libs : Libraries) (e : Error) : Thrown :=
  match e.what, e with
  | some what, _ => .rmdbError what
  | none, .assertionFailed => .other
  | none, .undefinedBehaviour => .other
  | none, e => .stdException (libs.what e)

/-- The state that the sessions share. -/
structure Engine where
  /-- What `SmManager` holds, and the disk below it. -/
  system : System
  /-- The records of the record files, by table. -/
  records : Bytes → Rid → Option Bytes
  /-- The entries of the trees of `indexes_`, by file name. -/
  indexes : Bytes → Option (Multiset (Bytes × Rid))
  /-- `enable_sortmerge_` of the planner. -/
  enableSortmerge : Bool := false
  /-- The start condition of the scanner. -/
  start : Parser.StartCondition := .initial

namespace Engine

/-- What an INSERT into a table touches. -/
def storage (engine : Engine) (tabName : Bytes) : Storage :=
  ⟨engine.records tabName, engine.indexes⟩

def setStorage (engine : Engine) (tabName : Bytes) (st : Storage) : Engine :=
  { engine with
    records := Function.update engine.records tabName st.records
    indexes := st.indexes }

/-- The tables of the catalog whose record files are open. -/
def openTables (engine : Engine) : List Bytes :=
  engine.system.db.tabs.keys.filter fun tabName => (engine.system.fhs tabName).isSome

/-- The record sizes in the headers of the open record files. -/
def recordSizes (engine : Engine) (tabName : Bytes) : Option ℤ :=
  (engine.system.fhs tabName).map fun handle => handle.fileHdr.recordSize

end Engine

/-- What a loop over an executor comes to, from `begin_tuple` on: the tuples that it passes, each
with its place, and what it throws if it does not come to its end. -/
structure Iteration where
  tuples : List (Rid × Bytes)
  thrown : Option Thrown := none

/-- `UpdateExecutor`, with what its constructor stores. -/
structure UpdateExecutor where
  tab : TabMeta
  tabName : Bytes
  setClauses : List SetClause
  conds : List Condition
  rids : List Rid

/-- `DeleteExecutor`, with what its constructor stores. -/
structure DeleteExecutor where
  tab : TabMeta
  tabName : Bytes
  conds : List Condition
  rids : List Rid

/-- What the source leaves to the labs. -/
structure Labs where
  /-- `SmManager::drop_table`. -/
  dropTable : Bytes → Effect Thrown Engine Unit
  /-- `SmManager::create_index`. -/
  createIndex : Bytes → List Bytes → Bool → Effect Thrown Engine Unit
  /-- `SmManager::drop_index`. -/
  dropIndex : Bytes → List Bytes → Effect Thrown Engine Unit
  /-- `UpdateExecutor::next`. -/
  update : UpdateExecutor → Effect Thrown Engine Unit
  /-- `DeleteExecutor::next`. -/
  delete : DeleteExecutor → Effect Thrown Engine Unit
  /-- `Portal::convert_plan_executor`, whose constructors read `cols()` and `tuple_len()` of the
  executors below them; `Portal.convertPlanExecutor` where these are what the constructors found. -/
  convert : DbMeta → List Bytes → Plan → Except Error Executor
  /-- The iteration of the executor tree of a plan. -/
  iterate : Engine → Plan → Iteration

/-- What is decided outside of the modelled code while a statement runs: the call of CREATE TABLE
that fails, what a new record buffer holds, and what the storage answers to an INSERT, which it
gives a free place. -/
structure World where
  fault : Option Fault := none
  garbage : ℕ → UInt8 := fun _ => 0
  outcomes : Storage → InsertExecutor.Outcomes
  free : ∀ st rid, (outcomes st).insertRecord = .ok rid → st.records rid = none

/-! ## A request -/

/-- The engine, and the operations on the result of the request (`context->result()`). -/
structure Request where
  engine : Engine
  ops : List QueryResultBuilder.Op := []

/-- Computations of a request. -/
abbrev Exec := Effect Thrown Request

/-- What an operation of the builder throws, if it does. -/
def QueryResultBuilder.Op.throws (result : WireResultSet) : QueryResultBuilder.Op → Option Error
  | .resetQuery => none
  | .setColumns columns => (QueryResultBuilder.setColumns columns).2
  | .setRawText columnName txt => (QueryResultBuilder.setRawText result columnName txt).2
  | .addRow row => (QueryResultBuilder.addRow result row).2

namespace Exec

variable (libs : Libraries) {α : Type}

/-- What throws the exceptions of the modelled code. -/
def attempt (x : Except Error α) : Exec α := Effect.lift (x.mapError libs.thrown)

/-- A computation on the state of `SmManager`. -/
def onSystem (x : Sm α) : Exec α := fun s =>
  ((x s.engine.system).1.mapError libs.thrown,
    { s with engine := { s.engine with system := (x s.engine.system).2 } })

/-- A computation on the engine. -/
def onEngine (x : Effect Thrown Engine α) : Exec α := fun s =>
  ((x s.engine).1, { s with engine := (x s.engine).2 })

/-- An operation on the result. What it leaves there stays, also when it throws. -/
def build (op : QueryResultBuilder.Op) : Exec Unit := fun s =>
  (match op.throws (QueryResultBuilder.build s.ops) with
    | some e => .error (libs.thrown e)
    | none => .ok (),
    { s with ops := s.ops ++ [op] })

/-- A result of columns and rows: `set_columns`, and `add_row` for one row after the other. -/
def buildTable (columns : List WireResultColumn) (rows : List (List WireResultCell)) :
    Exec Unit := do
  build libs (.setColumns columns)
  rows.forM fun row => build libs (.addRow row)

end Exec

/-- The end of an iteration. -/
def Iteration.finish (iteration : Iteration) : Exec Unit :=
  match iteration.thrown with
  | some thrown => Effect.raise thrown
  | none => pure ()

/-- An executor, with what the iteration over it comes to. -/
structure Cursor where
  executor : Executor
  iteration : Iteration

/-! ## `SmManager` -/

namespace SmManager

variable (libs : Libraries)

/-- `set_string_result`. -/
def setStringResult (columnNames : List Bytes) (rowValues : List (List Bytes)) : Exec Unit :=
  Exec.buildTable libs (columnNames.map fun name => ⟨name, .string⟩)
    (rowValues.map fun values => values.map fun value => { type := .string, strVal := value })

/-- `show_database`. -/
def showDatabase (db : DbMeta) : Exec Unit := setStringResult libs [text "Database"] [[db.name]]

/-- `show_tables`: the tables in the order of the map. -/
def showTables (db : DbMeta) : Exec Unit :=
  setStringResult libs [text "Tables"] (db.tabs.toList.map fun entry => [entry.2.name])

/-- A row of `desc_table`. -/
def descColumn (col : ColMeta) : List Bytes :=
  [col.name, coltype2str col.type, if col.index then text "YES" else text "NO"]

/-- `desc_table`. -/
def descTable (db : DbMeta) (tabName : Bytes) : Exec Unit := do
  let tab ← Exec.attempt libs (db.getTable tabName)
  setStringResult libs [text "Field", text "Type", text "Index"] (tab.cols.map descColumn)

/-- `create_table`, behind which the new file has no records. -/
def createEmptyTable (world : World) (tabName : Bytes) (colDefs : List ColSchema) : Exec Unit := do
  Exec.onSystem libs (createTable libs.json world.fault tabName colDefs)
  Effect.modify fun s => { s with engine :=
    { s.engine with records := Function.update s.engine.records tabName fun _ => none } }

end SmManager

/-! ## `QlManager` -/

namespace QlManager

/-- `help_info`. The text is never looked into. -/
@[irreducible]
def helpInfo : Bytes := text (
  "Supported SQL syntax:\n" ++
  "  command ;\n" ++
  "command:\n" ++
  "  SHOW DATABASE\n" ++
  "  SHOW TABLES\n" ++
  "  DESC table_name\n" ++
  "  CREATE TABLE table_name (column_name type [, column_name type ...])\n" ++
  "  DROP TABLE table_name\n" ++
  "  CREATE [UNIQUE] INDEX table_name (column_name)\n" ++
  "  DROP INDEX table_name (column_name)\n" ++
  "  INSERT INTO table_name VALUES (value [, value ...])\n" ++
  "  DELETE FROM table_name [WHERE where_clause]\n" ++
  "  UPDATE table_name SET column_name = value [, column_name = value ...] " ++
  "[WHERE where_clause]\n" ++
  "  SELECT selector FROM table_name [\x7b, | JOIN\x7d table_name ...] [WHERE where_clause]\n" ++
  "  SET enable_sortmerge = \x7btrue | false\x7d\n" ++
  "type:\n" ++
  "  \x7bINT | FLOAT | CHAR(n)\x7d\n" ++
  "where_clause:\n" ++
  "  condition [AND condition ...]\n" ++
  "condition:\n" ++
  "  column op \x7bcolumn | value\x7d\n" ++
  "column:\n" ++
  "  [table_name.]column_name\n" ++
  "op:\n" ++
  "  \x7b= | <> | < | > | <= | >=\x7d\n" ++
  "selector:\n" ++
  "  \x7b* | column [, column ...]\x7d\n")

variable (libs : Libraries) (labs : Labs) (world : World)

/-- `run_mutli_query`. -/
def runMutliQuery : Plan → Exec Unit
  | .ddl .createTable tabName _ cols _ => SmManager.createEmptyTable libs world tabName cols
  | .ddl .dropTable tabName _ _ _ => Exec.onEngine (labs.dropTable tabName)
  | .ddl .createIndex tabName tabColNames _ unique =>
    Exec.onEngine (labs.createIndex tabName tabColNames unique)
  | .ddl .dropIndex tabName tabColNames _ _ => Exec.onEngine (labs.dropIndex tabName tabColNames)
  | .ddl _ _ _ _ _ => Exec.attempt libs (throw (.internalError (text "Unexpected ddl type")))
  | _ => pure ()

/-- `run_cmd_utility`. The request has no transaction. -/
def runCmdUtility (db : DbMeta) : Plan → Exec Unit
  | .other .help _ => Exec.build libs (.setRawText (text "Help") helpInfo)
  | .other .showDatabase _ => SmManager.showDatabase libs db
  | .other .showTable _ => SmManager.showTables libs db
  | .other .descTable tabName => SmManager.descTable libs db tabName
  | .setKnob knob value => do
    Exec.attempt libs (throwIf (knob ≠ text "enable_sortmerge")
      (.internalError (text "Unexpected setting: " ++ knob)))
    Effect.modify fun s => { s with engine := { s.engine with enableSortmerge := value } }
  | .other .setKnob _ =>
    -- The reference cast to `SetKnobPlan` fails.
    Effect.raise (.stdException (text "std::bad_cast"))
  | .other .transactionBegin _ | .other .transactionCommit _ | .other .transactionRollback _
  | .other .transactionAbort _ =>
    Exec.attempt libs (throw (.notImplementedError (text "Lab 4 transaction control")))
  | .other _ _ => Exec.attempt libs (throw (.internalError (text "Unexpected field type")))
  | _ => pure ()

/-- `select_from` on an executor that may throw: the rows before the exception are in the result. -/
def selectFromExecutor (root : Cursor) (selCols : List TabCol) : Exec Unit := do
  Exec.buildTable libs (resultColumns selCols root.executor.cols)
    (root.iteration.tuples.map fun tuple => root.executor.cols.map (decodeCell tuple.2))
  root.iteration.finish

/-- `InsertExecutor::next`. -/
def insertNext (exec : InsertExecutor) : Exec Unit := fun s =>
  let st := s.engine.storage exec.tabName
  let (result, st') := exec.next world.garbage (world.outcomes st) st
  (match result with
    | .ok _ => .ok ()
    | .error e => .error (libs.thrown e),
    { s with engine := s.engine.setStorage exec.tabName st' })

end QlManager

/-! ## `Portal` -/

namespace Portal

open QlManager

variable (libs : Libraries) (labs : Labs) (world : World)

/-- `PortalStmt`. A statement of type `Dml` has one of three executors. -/
inductive PortalStmt where
  | select (selCols : List TabCol) (root : Cursor)
  | insert (root : InsertExecutor)
  | update (root : UpdateExecutor)
  | delete (root : DeleteExecutor)
  | ddl (plan : Plan)
  | utility (plan : Plan)

/-- The columns of a projection. -/
def selCols : Plan → List TabCol
  | .projection _ _ selCols => selCols
  | _ => []

/-- The executor tree of a plan. -/
def openCursor (engine : Engine) (plan : Plan) : Exec Cursor := do
  let executor ← Exec.attempt libs (labs.convert engine.system.db engine.openTables plan)
  pure ⟨executor, labs.iterate engine plan⟩

/-- `collect_rids`. -/
def collectRids (scan : Cursor) : Exec (List Rid) := do
  scan.iteration.finish
  pure (scan.iteration.tuples.map Prod.fst)

/-- What the constructors of `UpdateExecutor` and `DeleteExecutor` look up. -/
def targetTable (engine : Engine) (tabName : Bytes) : Exec TabMeta := do
  let tab ← Exec.attempt libs (engine.system.db.getTable tabName)
  Exec.attempt libs (throwIf ((engine.system.fhs tabName).isNone) .outOfRange)
  pure tab

/-- `start`. -/
def start (engine : Engine) (plan : Plan) : Exec PortalStmt :=
  match plan with
  | .other .. | .setKnob .. => pure (.utility plan)
  | .ddl .. => pure (.ddl plan)
  | .select projection => do
    let root ← openCursor libs labs engine projection
    pure (.select (selCols projection) root)
  | .update scanPlan table conds setClauses => do
    let scan ← openCursor libs labs engine scanPlan
    let rids ← collectRids scan
    let tab ← targetTable libs engine table
    pure (.update ⟨tab, table, setClauses, conds, rids⟩)
  | .delete scanPlan table conds => do
    let scan ← openCursor libs labs engine scanPlan
    let rids ← collectRids scan
    let tab ← targetTable libs engine table
    pure (.delete ⟨tab, table, conds, rids⟩)
  | .insert table values => do
    let root ← Exec.attempt libs
      (InsertExecutor.make engine.system.db engine.recordSizes table values)
    pure (.insert root)
  | .scan .. | .join .. | .projection .. | .sort .. =>
    Exec.attempt libs (throw (.internalError (text "unexpected plan type")))

/-- `run`, with `run_dml` for the executors. -/
def run (engine : Engine) : PortalStmt → Exec Unit
  | .select selCols root => selectFromExecutor libs root selCols
  | .insert root => insertNext libs world root
  | .update root => Exec.onEngine (labs.update root)
  | .delete root => Exec.onEngine (labs.delete root)
  | .ddl plan => runMutliQuery libs labs world plan
  | .utility plan => runCmdUtility libs engine.system.db plan

end Portal

/-! ## `execute_sql` -/

namespace Engine

variable (libs : Libraries) (labs : Labs) (world : World)

/-- The stages behind the parser. The catalog is read by the first three, and none of them writes
it. -/
def runStatement (engine : Engine) (statement : Ast.Statement) : Exec Unit := do
  let query ← Exec.attempt libs (Analyzer.analyze engine.system.db statement)
  let plan ← Exec.attempt libs
    (Optimizer.planQuery engine.system.db (fun _ => engine.enableSortmerge) query)
  let stmt ← Portal.start libs labs engine plan
  Portal.run libs labs world engine stmt

/-- The end of a request, before anything is sent. -/
def outcomeOf : Except Thrown Unit × Request → Outcome × Engine
  | (.ok _, s) => (.result s.ops, s.engine)
  | (.error thrown, s) => (.threw thrown, s.engine)

/-- `execute_sql` up to the response. -/
def executeSql (engine : Engine) (sql : Bytes) : Outcome × Engine :=
  let parsed := Parser.parse libs.strtof (Parser.yyparse libs.syntaxError) engine.start sql
  let engine := { engine with start := parsed.2 }
  match parsed.1.error with
  | some error => (.parseError (Parser.formatError sql error), engine)
  | none =>
    if Parser.isNull parsed.1.statement then
      (.threw (libs.thrown
        (.internalError (text "parser returned neither a statement nor an error"))), engine)
    else outcomeOf (engine.runStatement libs labs world parsed.1.statement ⟨engine, []⟩)

/-- Requests one after another, each with the accidents that it meets. -/
def run : List (World × Bytes) → Engine → List (Bytes × Outcome) × Engine
  | [], engine => ([], engine)
  | (world, sql) :: requests, engine =>
    let (outcome, engine) := engine.executeSql libs labs world sql
    match outcome with
    -- No handler catches it, and the process ends.
    | .threw .other => ([(sql, outcome)], engine)
    | _ =>
      let (outcomes, engine) := run requests engine
      ((sql, outcome) :: outcomes, engine)

end Engine

/-! ## What stands in place of the labs -/

/-- `NotImplementedError`, as the handlers find it. -/
def notImplemented (component : Bytes) : Thrown :=
  .rmdbError (text "Error: " ++ component ++ text " is not implemented")

/-- The class of the executor of a scan. -/
def executorName : Plan → Bytes
  | .scan scan => if scan.tag = .seqScan then text "SeqScanExecutor" else text "IndexScanExecutor"
  | _ => text "AbstractExecutor"

/-- What `cols()` and `tuple_len()` of the executor of a scan throw. -/
def noColumns : Plan → Error
  | .scan scan => .notImplementedError (if scan.tag = .seqScan then
      text "Lab 3 sequential scan executor" else text "Lab 3 index scan executor")
  | _ => .notImplementedError (text "AbstractExecutor::cols")

/-- `convert_plan_executor` as the source leaves it. The constructors of the scans return, and those
above a scan throw. -/
def Portal.convertStub (db : DbMeta) (fhs : List Bytes) : Plan → Except Error Executor
  | .projection _ subplan _ | .sort _ subplan _ _ => do
    let _ ← convertStub db fhs subplan
    throw (noColumns subplan)
  | .join tag left right conds => do
    let _ ← convertStub db fhs left
    let _ ← convertStub db fhs right
    throwIf (tag = .sortMerge ∧ conds.head?.all fun cond => cond.isRhsVal || cond.op != .eq)
      Executor.noKey
    -- Which side of the sum of the two lengths is read first is not specified.
    throw (noColumns left)
  | plan => convertPlanExecutor db fhs plan

/-- The functions as the source leaves them. -/
def Labs.stubs : Labs where
  dropTable _ := Effect.raise (notImplemented (text "SmManager::drop_table (Lab 3)"))
  createIndex _ _ _ := Effect.raise (notImplemented (text "SmManager::create_index (Lab 3)"))
  dropIndex _ _ := Effect.raise (notImplemented (text "SmManager::drop_index (Lab 3)"))
  update _ := Effect.raise (notImplemented (text "UpdateExecutor::next"))
  delete _ := Effect.raise (notImplemented (text "DeleteExecutor::next"))
  convert := Portal.convertStub
  iterate _ plan := ⟨[], some (notImplemented (executorName plan ++ text "::begin_tuple"))⟩

end Rucbase
