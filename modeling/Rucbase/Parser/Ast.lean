import Rucbase.Lib.Bytes

/-!
# The syntax tree

The statements and expressions of `src/parser/ast.h` and `src/parser/expression.h`, as far as a
program can build them: wider than the grammar, with null children and with the node kinds that the
grammar never emits. A `shared_ptr<Expr>` or `shared_ptr<FromNode>` is one type here, whose
constructor `null` is the null pointer and whose other constructors are the node classes.
-/

namespace Rucbase.Ast

open Lib

/-- `ast::CompOp`. -/
inductive CompOp where
  | eq
  | ne
  | lt
  | gt
  | le
  | ge
  deriving DecidableEq, Repr

/-- `ast::LogicalOp`. -/
inductive LogicalOp where
  | and
  | or
  deriving DecidableEq, Repr

/-- `ast::UnaryOp`. -/
inductive UnaryOp where
  | not
  deriving DecidableEq, Repr

/-- `ast::DataType`. -/
inductive DataType where
  | int
  | float
  | string
  deriving DecidableEq, Repr

/-- `ast::OrderByDir`. -/
inductive OrderByDir where
  | default
  | asc
  | desc
  deriving DecidableEq, Repr

/-- `ast::JoinType`; a comma in FROM is `cross`. -/
inductive JoinType where
  | cross
  | inner
  | left
  | right
  | full
  deriving DecidableEq, Repr

/-- `ast::Col`; an empty `tabName` is an unqualified reference. -/
structure Col where
  tabName : Bytes
  colName : Bytes
  deriving DecidableEq, Repr

/-- `ast::LimitClause`. -/
structure LimitClause where
  count : ℤ
  offset : Option ℤ
  deriving DecidableEq, Repr

mutual

/-- A pointer to an expression node. -/
inductive Expr where
  | null
  | intLit (val : BitVec 32)
  | floatLit (val : BitVec 32)
  | stringLit (val : Bytes)
  | col (col : Col)
  | star (tabName : Bytes)
  | binary (lhs : Option Col) (op : CompOp) (rhs : Expr)
  | logical (op : LogicalOp) (lhs rhs : Expr)
  | unary (op : UnaryOp) (operand : Expr)
  | functionCall (name : Bytes) (arguments : List Expr) (distinct : Bool)
  | subquery (query : Option SelectStmt)

/-- A pointer to a node of the FROM tree. A `TableRef` has one constructor for each alternative of
its `source`. -/
inductive FromNode where
  | null
  | tableRef (tableName aliasName : Bytes)
  | derivedTable (subquery : Option SelectStmt) (aliasName : Bytes)
  | join (type : JoinType) (left right : FromNode) (condition : Expr)

/-- An item of ORDER BY. -/
inductive OrderBy where
  | mk (expression : Expr) (direction : OrderByDir)

/-- A SELECT statement. -/
inductive SelectStmt where
  | mk (selectItems : List Expr) (fromNode : FromNode) (whereExpr : Expr) (groupBy : List Expr)
      (having : Expr) (orderBy : List (Option OrderBy)) (limit : Option LimitClause)

end

namespace OrderBy

def expression : OrderBy → Expr
  | mk expression _ => expression

def direction : OrderBy → OrderByDir
  | mk _ direction => direction

end OrderBy

namespace SelectStmt

def selectItems : SelectStmt → List Expr
  | mk selectItems _ _ _ _ _ _ => selectItems

def fromNode : SelectStmt → FromNode
  | mk _ fromNode _ _ _ _ _ => fromNode

def whereExpr : SelectStmt → Expr
  | mk _ _ whereExpr _ _ _ _ => whereExpr

def groupBy : SelectStmt → List Expr
  | mk _ _ _ groupBy _ _ _ => groupBy

def having : SelectStmt → Expr
  | mk _ _ _ _ having _ _ => having

def orderBy : SelectStmt → List (Option OrderBy)
  | mk _ _ _ _ _ orderBy _ => orderBy

def limit : SelectStmt → Option LimitClause
  | mk _ _ _ _ _ _ limit => limit

end SelectStmt

/-- Whether an expression pointer is null. -/
def Expr.isNull : Expr → Bool
  | .null => true
  | _ => false

/-- Whether an expression is of one of the three literal kinds. -/
def Expr.isLiteral : Expr → Bool
  | .intLit _ | .floatLit _ | .stringLit _ => true
  | _ => false

/-- Whether a pointer to a node of the FROM tree is null. -/
def FromNode.isNull : FromNode → Bool
  | .null => true
  | _ => false

/-- `ast::TypeLen`. -/
structure TypeLen where
  type : DataType
  declaredLen : ℤ
  deriving DecidableEq, Repr

/-- `ast::ColDef`. -/
structure ColDef where
  colName : Bytes
  typeLen : TypeLen
  deriving DecidableEq, Repr

/-- `ast::SetClause`. -/
structure SetClause where
  targetColumn : Option Col
  assignedExpr : Expr

/-- A pointer to a statement. A value list holds expression pointers; the analyzer rejects what is
not a literal. -/
inductive Statement where
  | null
  | help
  | showTables
  | showDatabase
  | setKnob (name value : Bytes)
  | txnBegin
  | txnCommit
  | txnAbort
  | txnRollback
  | createTable (tabName : Bytes) (fields : List ColDef)
  | dropTable (tabName : Bytes)
  | descTable (tabName : Bytes)
  | createIndex (tabName : Bytes) (colNames : List Bytes) (unique : Bool)
  | dropIndex (tabName : Bytes) (colNames : List Bytes)
  | insert (tabName : Bytes) (values : List Expr)
  | delete (tabName : Bytes) (whereExpr : Expr)
  | update (tabName : Bytes) (setClauses : List (Option SetClause)) (whereExpr : Expr)
  | select (stmt : SelectStmt)

end Rucbase.Ast
