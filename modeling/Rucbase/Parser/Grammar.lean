import Rucbase.Parser.Ast
import Rucbase.Parser.Lexer

/-!
# The grammar

The productions of `src/parser/yacc.y` with their semantic actions: one relation for each
nonterminal, between the tokens and the value that it returns. The nonterminals `table_name` and
`column_name`, which are identifiers, and the four kinds of statements stand where they are used.
Lists with commas are all left-recursive in the same way (`CommaList`).
-/

namespace Rucbase.Parser.Grammar

open Lib Ast

/-- A single character as a token. -/
abbrev op (c : Char) : Token := .op (byte c)

/-! ## Predicates -/

/-- `value`. -/
inductive Value : List Token → Expr → Prop where
  | int {v : BitVec 32} : Value [.valueInt v] (.intLit v)
  | float {v : BitVec 32} : Value [.valueFloat v] (.floatLit v)
  | string {s : Bytes} : Value [.valueString s] (.stringLit s)

/-- `column_reference`. -/
inductive ColumnReference : List Token → Col → Prop where
  | qualified {tableName columnName : Bytes} :
    ColumnReference [.identifier tableName, op '.', .identifier columnName] ⟨tableName, columnName⟩
  | plain {columnName : Bytes} : ColumnReference [.identifier columnName] ⟨[], columnName⟩

/-- `comparison_operator`. -/
inductive ComparisonOperator : Token → Ast.CompOp → Prop where
  | eq : ComparisonOperator (op '=') .eq
  | lt : ComparisonOperator (op '<') .lt
  | gt : ComparisonOperator (op '>') .gt
  | ne : ComparisonOperator .neq .ne
  | le : ComparisonOperator .leq .le
  | ge : ComparisonOperator .geq .ge

/-- `comparison_operand`. -/
inductive ComparisonOperand : List Token → Expr → Prop where
  | value {ts : List Token} {e : Expr} : Value ts e → ComparisonOperand ts e
  | columnReference {ts : List Token} {col : Col} :
    ColumnReference ts col → ComparisonOperand ts (.col col)

/-- `comparison`. -/
inductive Comparison : List Token → Expr → Prop where
  | mk {ts us : List Token} {t : Token} {lhs : Col} {operator : Ast.CompOp} {rhs : Expr} :
    ColumnReference ts lhs → ComparisonOperator t operator → ComparisonOperand us rhs →
    Comparison (ts ++ t :: us) (.binary (some lhs) operator rhs)

/-- `predicate`. -/
inductive Predicate : List Token → Expr → Prop where
  | comparison {ts : List Token} {e : Expr} : Comparison ts e → Predicate ts e
  | and {ts us : List Token} {lhs rhs : Expr} : Predicate ts lhs → Comparison us rhs →
    Predicate (ts ++ .keyword .and :: us) (.logical .and lhs rhs)

/-- `optional_where`. -/
inductive OptionalWhere : List Token → Expr → Prop where
  | empty : OptionalWhere [] .null
  | predicate {ts : List Token} {e : Expr} : Predicate ts e →
    OptionalWhere (.keyword .where_ :: ts) e

/-! ## Lists and scalar expressions -/

/-- A list whose items have commas between them. -/
inductive CommaList {α : Type} (item : List Token → α → Prop) : List Token → List α → Prop where
  | one {ts : List Token} {a : α} : item ts a → CommaList item ts [a]
  | push {ts us : List Token} {as : List α} {a : α} : CommaList item ts as → item us a →
    CommaList item (ts ++ op ',' :: us) (as ++ [a])

mutual

/-- `scalar_expression`. -/
inductive ScalarExpression : List Token → Expr → Prop where
  | value {ts : List Token} {e : Expr} : Value ts e → ScalarExpression ts e
  | columnReference {ts : List Token} {col : Col} :
    ColumnReference ts col → ScalarExpression ts (.col col)
  | functionCall {ts : List Token} {e : Expr} : FunctionCall ts e → ScalarExpression ts e
  | parentheses {ts : List Token} {e : Expr} : ScalarExpression ts e →
    ScalarExpression (op '(' :: (ts ++ [op ')'])) e

/-- `function_call`, with `scalar_expression_list`. -/
inductive FunctionCall : List Token → Expr → Prop where
  | empty {name : Bytes} :
    FunctionCall [.identifier name, op '(', op ')'] (.functionCall name [] false)
  | list {name : Bytes} {ts : List Token} {arguments : List Expr} :
    CommaList ScalarExpression ts arguments →
    FunctionCall (.identifier name :: op '(' :: (ts ++ [op ')']))
      (.functionCall name arguments false)
  | star {name : Bytes} :
    FunctionCall [.identifier name, op '(', op '*', op ')'] (.functionCall name [.star []] false)

end

/-- `column_name`. -/
inductive ColumnName : List Token → Bytes → Prop where
  | mk {name : Bytes} : ColumnName [.identifier name] name

/-- `column_type`. -/
inductive ColumnType : List Token → TypeLen → Prop where
  | int : ColumnType [.keyword .int] ⟨.int, 4⟩
  | char {n : BitVec 32} :
    ColumnType [.keyword .char, op '(', .valueInt n, op ')'] ⟨.string, n.toInt⟩
  | float : ColumnType [.keyword .float] ⟨.float, 4⟩

/-- `column_definition`. -/
inductive ColumnDefinition : List Token → ColDef → Prop where
  | mk {name : Bytes} {ts : List Token} {typeLen : TypeLen} : ColumnType ts typeLen →
    ColumnDefinition (.identifier name :: ts) ⟨name, typeLen⟩

/-- `set_clause`. -/
inductive SetClause : List Token → Option Ast.SetClause → Prop where
  | mk {ts us : List Token} {target : Col} {assigned : Expr} : ColumnReference ts target →
    ScalarExpression us assigned → SetClause (ts ++ op '=' :: us) (some ⟨some target, assigned⟩)

/-! ## SELECT -/

/-- `select_item`. -/
inductive SelectItem : List Token → Expr → Prop where
  | mk {ts : List Token} {col : Col} : ColumnReference ts col → SelectItem ts (.col col)

/-- `select_list`. -/
inductive SelectList : List Token → List Expr → Prop where
  | star : SelectList [op '*'] [.star []]
  | items {ts : List Token} {items : List Expr} : CommaList SelectItem ts items →
    SelectList ts items

/-- `from_tree`. -/
inductive FromTree : List Token → FromNode → Prop where
  | table {name : Bytes} : FromTree [.identifier name] (.tableRef name [])
  | cross {ts : List Token} {left : FromNode} {name : Bytes} : FromTree ts left →
    FromTree (ts ++ [op ',', .identifier name]) (.join .cross left (.tableRef name []) .null)
  | inner {ts : List Token} {left : FromNode} {name : Bytes} : FromTree ts left →
    FromTree (ts ++ [.keyword .join, .identifier name])
      (.join .inner left (.tableRef name []) .null)

/-- `optional_order_direction`. -/
inductive OptionalOrderDirection : List Token → OrderByDir → Prop where
  | asc : OptionalOrderDirection [.keyword .asc] .asc
  | desc : OptionalOrderDirection [.keyword .desc] .desc
  | empty : OptionalOrderDirection [] .default

/-- `order_item`. -/
inductive OrderItem : List Token → OrderBy → Prop where
  | mk {ts us : List Token} {col : Col} {direction : OrderByDir} : ColumnReference ts col →
    OptionalOrderDirection us direction → OrderItem (ts ++ us) (.mk (.col col) direction)

/-- `optional_order_by`. -/
inductive OptionalOrderBy : List Token → List (Option OrderBy) → Prop where
  | item {ts : List Token} {item : OrderBy} : OrderItem ts item →
    OptionalOrderBy (.keyword .order :: .keyword .by_ :: ts) [some item]
  | empty : OptionalOrderBy [] []

/-! ## Statements -/

/-- `stmt`. -/
inductive Stmt : List Token → Statement → Prop where
  | txnBegin : Stmt [.keyword .txnBegin] .txnBegin
  | txnCommit : Stmt [.keyword .txnCommit] .txnCommit
  | txnAbort : Stmt [.keyword .txnAbort] .txnAbort
  | txnRollback : Stmt [.keyword .txnRollback] .txnRollback
  | showDatabase : Stmt [.keyword .show_, .keyword .database] .showDatabase
  | showTables : Stmt [.keyword .show_, .keyword .tables] .showTables
  | help : Stmt [.keyword .help] .help
  | setKnob {name value : Bytes} :
    Stmt [.keyword .set, .identifier name, op '=', .identifier value] (.setKnob name value)
  | createTable {tabName : Bytes} {ts : List Token} {fields : List ColDef} :
    CommaList ColumnDefinition ts fields →
    Stmt (.keyword .create :: .keyword .table :: .identifier tabName :: op '(' :: (ts ++ [op ')']))
      (.createTable tabName fields)
  | dropTable {tabName : Bytes} :
    Stmt [.keyword .drop, .keyword .table, .identifier tabName] (.dropTable tabName)
  | descTable {tabName : Bytes} :
    Stmt [.keyword .desc, .identifier tabName] (.descTable tabName)
  | createIndex {tabName : Bytes} {ts : List Token} {colNames : List Bytes} :
    CommaList ColumnName ts colNames →
    Stmt (.keyword .create :: .keyword .index :: .identifier tabName :: op '(' :: (ts ++ [op ')']))
      (.createIndex tabName colNames false)
  | createUniqueIndex {tabName : Bytes} {ts : List Token} {colNames : List Bytes} :
    CommaList ColumnName ts colNames →
    Stmt (.keyword .create :: .keyword .unique :: .keyword .index :: .identifier tabName ::
        op '(' :: (ts ++ [op ')']))
      (.createIndex tabName colNames true)
  | dropIndex {tabName : Bytes} {ts : List Token} {colNames : List Bytes} :
    CommaList ColumnName ts colNames →
    Stmt (.keyword .drop :: .keyword .index :: .identifier tabName :: op '(' :: (ts ++ [op ')']))
      (.dropIndex tabName colNames)
  | insert {tabName : Bytes} {ts : List Token} {values : List Expr} :
    CommaList Value ts values →
    Stmt (.keyword .insert :: .keyword .into :: .identifier tabName :: .keyword .values ::
        op '(' :: (ts ++ [op ')']))
      (.insert tabName values)
  | delete {tabName : Bytes} {ts : List Token} {whereExpr : Expr} :
    OptionalWhere ts whereExpr →
    Stmt (.keyword .delete :: .keyword .from_ :: .identifier tabName :: ts)
      (.delete tabName whereExpr)
  | update {tabName : Bytes} {ts us : List Token} {setClauses : List (Option Ast.SetClause)}
      {whereExpr : Expr} :
    CommaList SetClause ts setClauses → OptionalWhere us whereExpr →
    Stmt (.keyword .update :: .identifier tabName :: .keyword .set :: (ts ++ us))
      (.update tabName setClauses whereExpr)
  | select {ts us vs ws : List Token} {selectItems : List Expr} {fromNode : FromNode}
      {whereExpr : Expr} {orderBy : List (Option OrderBy)} :
    SelectList ts selectItems → FromTree us fromNode → OptionalWhere vs whereExpr →
    OptionalOrderBy ws orderBy →
    Stmt (.keyword .select :: (ts ++ .keyword .from_ :: (us ++ (vs ++ ws))))
      (.select (.mk selectItems fromNode whereExpr [] .null orderBy none))

/-- `start`. -/
inductive Start : List Token → Statement → Prop where
  | mk {ts : List Token} {statement : Statement} : Stmt ts statement →
    Start (ts ++ [op ';']) statement

end Rucbase.Parser.Grammar
