import Rucbase.Execution.Rows
import Rucbase.Index.Names
import Rucbase.Server.Engine

/-!
# A database as its users see it

A database is a catalog and, for each table, a multiset of rows. `Relational.Returned` says which
statements return, what they answer and what they do to the database; a statement that fails does
nothing to it (`Relational.Step`).

`Engine.Implements` connects the engine with a database: it has the catalog, the open record files,
records that spell the rows, and indexes that have an entry for each record.
-/

namespace Rucbase

open Lib Server

/-- A catalog and the rows of its tables. -/
structure Relational where
  db : DbMeta
  contents : Contents

/-! ## What a statement does -/

/-- A result of columns and rows. -/
structure WireResultSet.IsTable (result : WireResultSet) (columns : List WireResultColumn)
    (rows : List (List WireResultCell)) : Prop where
  hasQueryResult : result.hasQueryResult = true
  rawText : result.rawText = false
  columns_eq : result.columns = columns
  rows_eq : result.rows = rows

/-- A result of CHAR columns. -/
def WireResultSet.IsTexts (result : WireResultSet) (names : List Bytes)
    (rows : List (List Bytes)) : Prop :=
  result.IsTable (names.map fun name => ⟨name, .string⟩)
    (rows.map fun values => values.map fun value => { type := .string, strVal := value })

/-- The column that a field of CREATE TABLE defines. -/
def fieldColumn (field : Ast.ColDef) : ColSchema :=
  ⟨field.colName, Planner.interpretType field.typeLen.type, field.typeLen.declaredLen⟩

namespace Relational

/-- The database with other rows in a table. -/
def setRows (rel : Relational) (table : Bytes) (rows : Multiset (Bytes → Option Datum)) :
    Relational :=
  { rel with contents := Function.update rel.contents table rows }

/-- The result of a statement that returns, and the database behind it. -/
def Returned (rel : Relational) (statement : Ast.Statement) (result : WireResultSet)
    (rel' : Relational) : Prop :=
  match statement with
  | .help => result = (QueryResultBuilder.setRawText {} (text "Help") QlManager.helpInfo).1 ∧
      rel' = rel
  | .showDatabase => result.IsTexts [text "Database"] [[rel.db.name]] ∧ rel' = rel
  | .showTables => result.IsTexts [text "Tables"] (rel.db.tabs.keys.map fun name => [name]) ∧
      rel' = rel
  | .descTable tabName => ∃ tab, rel.db.tabs[tabName]? = some tab ∧
      result.IsTexts [text "Field", text "Type", text "Index"]
        (tab.cols.map SmManager.descColumn) ∧ rel' = rel
  | .setKnob _ _ => result = {} ∧ rel' = rel
  | .createTable tabName fields => result = {} ∧ rel.db.tabs[tabName]? = none ∧
      rel' = setRows ⟨rel.db.insert (TabSchema.rebuild ⟨tabName, fields.map fieldColumn, []⟩),
        rel.contents⟩ tabName 0
  | .insert tabName literals => result = {} ∧ ∃ tab, rel.db.tabs[tabName]? = some tab ∧
      rel' = rel.setRows tabName (literalRow tab literals ::ₘ rel.contents tabName)
  -- What they need is left to the labs, or switched off.
  | .select _ | .delete _ _ | .update _ _ _ | .dropTable _ | .createIndex _ _ _ | .dropIndex _ _
  | .txnBegin | .txnCommit | .txnAbort | .txnRollback | .null => False

/-- What a request does, by its text and its outcome. -/
def Step (libs : Libraries) (rel : Relational) (sql : Bytes) (outcome : Outcome)
    (rel' : Relational) : Prop :=
  let parsed := (Parser.parse libs.strtof (Parser.yyparse libs.syntaxError) .initial sql).1
  match outcome with
  | .parseError diagnostic => rel' = rel ∧
      ∃ error, parsed.error = some error ∧ diagnostic = Parser.formatError sql error
  | .threw _ => parsed.error = none ∧ rel' = rel
  | .result ops => parsed.error = none ∧
      rel.Returned parsed.statement (QueryResultBuilder.build ops) rel'

end Relational

/-! ## The engine implements a database -/

/-- No two indexes of the catalog share a file. -/
def DbMeta.SeparateIndexes (db : DbMeta) : Prop :=
  ∀ (table table' : Bytes) (columns columns' : List Bytes), db.HasIndex table columns →
    db.HasIndex table' columns' →
    IndexManager.makeIndexName table columns = IndexManager.makeIndexName table' columns' →
    table = table' ∧ columns = columns'

/-- The engine has the catalog, its record files are open, their records spell the rows, and the
indexes have the entry of every record. -/
structure Engine.Implements (engine : Engine) (rel : Relational) : Prop where
  db_eq : engine.system.db = rel.db
  valid : rel.db.Valid
  separate : rel.db.SeparateIndexes
  opened : ∀ (key : Bytes) (tab : TabMeta), rel.db.tabs[key]? = some tab →
    engine.recordSizes key = some (tab.cols.map ColMeta.len).sum
  start_eq : engine.start = .initial
  holds : ∀ (key : Bytes) (tab : TabMeta), rel.db.tabs[key]? = some tab →
    HoldsRows (engine.records key) tab (rel.contents key)
  indexed : ∀ (key : Bytes) (tab : TabMeta), rel.db.tabs[key]? = some tab →
    (engine.storage key).Indexed tab

/-- At most the records of a table and the trees of its indexes are different. -/
structure Engine.Frame (tab : TabMeta) (engine engine' : Engine) : Prop where
  db_eq : engine'.system.db = engine.system.db
  recordSizes_eq : engine'.recordSizes = engine.recordSizes
  start_eq : engine'.start = engine.start
  records_eq : ∀ key ≠ tab.name, engine'.records key = engine.records key
  indexes_eq : ∀ name ∉ tab.indexes.map (·.fileName tab.name),
    engine'.indexes name = engine.indexes name

end Rucbase
