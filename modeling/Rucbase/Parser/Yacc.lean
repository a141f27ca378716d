import Rucbase.Lib.Lr
import Rucbase.Parser.Grammar
import Rucbase.Parser.Scan

/-!
# The generated parser

The rules of `src/parser/yacc.y` with their semantic actions, and the parser that Bison generates
from them with its default settings (`Lib.Lr`). As `SemanticValue` is not a trivial type, the stack
of the generated parser does not grow beyond its initial size.

Two rules are complete behind an identifier, those of `table_name` and `column_name`. The first one
is taken before a dot, the only token that comes behind a table name there, and the second one is
the default. The text of a syntax error is a parameter; it depends on the state and the token.
-/

namespace Rucbase.Parser

open Lib Ast Lr Grammar

/-! ## Symbols and values -/

/-- The nonterminals, with Bison's own `$accept`. -/
inductive Nonterminal where
  | accept
  | start
  | stmt
  | transactionStmt
  | utilityStmt
  | ddlStmt
  | dmlStmt
  | columnDefinitionList
  | columnNameList
  | columnDefinition
  | columnType
  | valueList
  | value
  | comparison
  | optionalWhere
  | predicate
  | columnReference
  | comparisonOperator
  | comparisonOperand
  | scalarExpression
  | scalarExpressionList
  | functionCall
  | setClauseList
  | setClause
  | selectItem
  | selectItemList
  | selectList
  | fromTree
  | optionalOrderBy
  | orderItem
  | optionalOrderDirection
  | tableName
  | columnName
  deriving DecidableEq, Repr

/-- The kinds of tokens, with the end of the input. -/
inductive Terminal where
  | end_
  | keyword (keyword : Keyword)
  | leq
  | neq
  | geq
  | invalid
  | identifier
  | valueString
  | valueInt
  | valueFloat
  | op (c : UInt8)
  deriving DecidableEq, Repr

/-- `SemanticValue`. -/
structure SemanticValue where
  integer : BitVec 32 := 0
  floatingPoint : BitVec 32 := 0
  text : Bytes := []
  columnNames : List Bytes := []
  statement : Statement := .null
  comparisonOperator : Ast.CompOp := .eq
  typeLength : TypeLen := ⟨.int, 0⟩
  columnDefinition : ColDef := ⟨[], ⟨.int, 0⟩⟩
  columnDefinitions : List ColDef := []
  expression : Expr := .null
  expressions : List Expr := []
  value : Expr := .null
  values : List Expr := []
  column : Option Col := none
  setClause : Option Ast.SetClause := none
  setClauses : List (Option Ast.SetClause) := []
  condition : Expr := .null
  fromNode : FromNode := .null
  orderBy : Option OrderBy := none
  orderByItems : List (Option OrderBy) := []
  orderDirection : OrderByDir := .default

/-- The kind of a token. -/
def Token.kind : Token → Terminal
  | keyword k => .keyword k
  | geq => .geq
  | leq => .leq
  | neq => .neq
  | op c => .op c
  | identifier _ => .identifier
  | valueInt _ => .valueInt
  | valueFloat _ => .valueFloat
  | valueString _ => .valueString
  | invalid => .invalid

/-- What the scanner puts into `yylval`. -/
def Token.yylval : Token → SemanticValue
  | identifier s | valueString s => { text := s }
  | valueInt v => { integer := v }
  | valueFloat v => { floatingPoint := v }
  | _ => {}

/-! ## Rules -/

/-- A symbol on a right-hand side. -/
abbrev YySymbol := Lr.Symbol Nonterminal Terminal

/-- A right-hand side with its action. The context is the statement in it. -/
abbrev YyRule := Alternative Nonterminal Terminal SemanticValue Statement

/-- A rule with the place up to which it has been read. -/
abbrev YyItem := Item Nonterminal Terminal SemanticValue Statement

/-- A right-hand side and its action, which is given the values `$i` and, as the first value of
`$$`, that of `$1`. -/
def rule (rhs : List YySymbol)
    (action : (ℕ → SemanticValue) → SemanticValue → SemanticValue) : YyRule where
  rhs := rhs
  action values statement :=
    let value (i : ℕ) := values.getD (i - 1) {}
    (action value (value 1), statement)

/-- A column pointer as an expression pointer. -/
def columnExpr : Option Col → Expr
  | some col => .col col
  | none => .null

section

open Nonterminal

/-- A nonterminal, a keyword and a single character on a right-hand side. -/
abbrev nt (n : Nonterminal) : YySymbol := .nonterminal n
abbrev kw (k : Keyword) : YySymbol := .terminal (.keyword k)
abbrev ch (c : Char) : YySymbol := .terminal (.op (byte c))
abbrev tk (t : Terminal) : YySymbol := .terminal t

/-- `item: first | list ',' item`. -/
def commaRules (list item : Nonterminal)
    (first push : SemanticValue → SemanticValue → SemanticValue) : List YyRule :=
  [rule [nt item] fun v yyval => first yyval (v 1),
    rule [nt list, ch ',', nt item] fun v yyval => push yyval (v 3)]

/-- The rules of a nonterminal. -/
def alternatives : Nonterminal → List YyRule
  | accept => [rule [nt start, tk .end_] fun _ yyval => yyval]
  | start =>
    -- `context->statement = std::move($1)`.
    [⟨[nt stmt, ch ';'], fun values _ => (values.getD 0 {}, (values.getD 0 {}).statement)⟩]
  | stmt =>
    [rule [nt utilityStmt] fun _ yyval => yyval,
      rule [nt ddlStmt] fun _ yyval => yyval,
      rule [nt dmlStmt] fun _ yyval => yyval,
      rule [nt transactionStmt] fun _ yyval => yyval]
  | transactionStmt =>
    [rule [kw .txnBegin] fun _ yyval => { yyval with statement := .txnBegin },
      rule [kw .txnCommit] fun _ yyval => { yyval with statement := .txnCommit },
      rule [kw .txnAbort] fun _ yyval => { yyval with statement := .txnAbort },
      rule [kw .txnRollback] fun _ yyval => { yyval with statement := .txnRollback }]
  | utilityStmt =>
    [rule [kw .show_, kw .database] fun _ yyval => { yyval with statement := .showDatabase },
      rule [kw .show_, kw .tables] fun _ yyval => { yyval with statement := .showTables },
      rule [kw .help] fun _ yyval => { yyval with statement := .help },
      rule [kw .set, tk .identifier, ch '=', tk .identifier] fun v yyval =>
        { yyval with statement := .setKnob (v 2).text (v 4).text }]
  | ddlStmt =>
    [rule [kw .create, kw .table, nt tableName, ch '(', nt columnDefinitionList, ch ')']
        fun v yyval => { yyval with statement := .createTable (v 3).text (v 5).columnDefinitions },
      rule [kw .drop, kw .table, nt tableName] fun v yyval =>
        { yyval with statement := .dropTable (v 3).text },
      rule [kw .desc, nt tableName] fun v yyval =>
        { yyval with statement := .descTable (v 2).text },
      rule [kw .create, kw .index, nt tableName, ch '(', nt columnNameList, ch ')'] fun v yyval =>
        { yyval with statement := .createIndex (v 3).text (v 5).columnNames false },
      rule [kw .create, kw .unique, kw .index, nt tableName, ch '(', nt columnNameList, ch ')']
        fun v yyval => { yyval with statement := .createIndex (v 4).text (v 6).columnNames true },
      rule [kw .drop, kw .index, nt tableName, ch '(', nt columnNameList, ch ')'] fun v yyval =>
        { yyval with statement := .dropIndex (v 3).text (v 5).columnNames }]
  | dmlStmt =>
    [rule [kw .insert, kw .into, nt tableName, kw .values, ch '(', nt valueList, ch ')']
        fun v yyval => { yyval with statement := .insert (v 3).text (v 6).values },
      rule [kw .delete, kw .from_, nt tableName, nt optionalWhere] fun v yyval =>
        { yyval with statement := .delete (v 3).text (v 4).expression },
      rule [kw .update, nt tableName, kw .set, nt setClauseList, nt optionalWhere] fun v yyval =>
        { yyval with statement := .update (v 2).text (v 4).setClauses (v 5).expression },
      rule [kw .select, nt selectList, kw .from_, nt fromTree, nt optionalWhere,
          nt optionalOrderBy] fun v yyval =>
        let stmt := .mk (v 2).expressions (v 4).fromNode (v 5).expression [] .null
          (v 6).orderByItems none
        { yyval with statement := .select stmt }]
  | columnDefinitionList =>
    commaRules columnDefinitionList columnDefinition
      (fun yyval v => { yyval with columnDefinitions := [v.columnDefinition] })
      fun yyval v =>
        { yyval with columnDefinitions := yyval.columnDefinitions ++ [v.columnDefinition] }
  | columnNameList =>
    commaRules columnNameList columnName
      (fun yyval v => { yyval with columnNames := [v.text] })
      fun yyval v => { yyval with columnNames := yyval.columnNames ++ [v.text] }
  | columnDefinition =>
    [rule [nt columnName, nt columnType] fun v yyval =>
      { yyval with columnDefinition := ⟨(v 1).text, (v 2).typeLength⟩ }]
  | columnType =>
    [rule [kw .int] fun _ yyval => { yyval with typeLength := ⟨.int, 4⟩ },
      rule [kw .char, ch '(', tk .valueInt, ch ')'] fun v yyval =>
        { yyval with typeLength := ⟨.string, (v 3).integer.toInt⟩ },
      rule [kw .float] fun _ yyval => { yyval with typeLength := ⟨.float, 4⟩ }]
  | valueList =>
    commaRules valueList value
      (fun yyval v => { yyval with values := [v.value] })
      fun yyval v => { yyval with values := yyval.values ++ [v.value] }
  | value =>
    [rule [tk .valueInt] fun v yyval => { yyval with value := .intLit (v 1).integer },
      rule [tk .valueFloat] fun v yyval => { yyval with value := .floatLit (v 1).floatingPoint },
      rule [tk .valueString] fun v yyval => { yyval with value := .stringLit (v 1).text }]
  | comparison =>
    [rule [nt columnReference, nt comparisonOperator, nt comparisonOperand] fun v yyval =>
      { yyval with
        condition := .binary (v 1).column (v 2).comparisonOperator (v 3).expression }]
  | optionalWhere =>
    [rule [] fun _ yyval => { yyval with expression := .null },
      rule [kw .where_, nt predicate] fun v yyval =>
        { yyval with expression := (v 2).expression }]
  | predicate =>
    [rule [nt comparison] fun v yyval => { yyval with expression := (v 1).condition },
      rule [nt predicate, kw .and, nt comparison] fun v yyval =>
        { yyval with expression := .logical .and (v 1).expression (v 3).condition }]
  | columnReference =>
    [rule [nt tableName, ch '.', nt columnName] fun v yyval =>
        { yyval with column := some ⟨(v 1).text, (v 3).text⟩ },
      rule [nt columnName] fun v yyval => { yyval with column := some ⟨[], (v 1).text⟩ }]
  | comparisonOperator =>
    [rule [ch '='] fun _ yyval => { yyval with comparisonOperator := .eq },
      rule [ch '<'] fun _ yyval => { yyval with comparisonOperator := .lt },
      rule [ch '>'] fun _ yyval => { yyval with comparisonOperator := .gt },
      rule [tk .neq] fun _ yyval => { yyval with comparisonOperator := .ne },
      rule [tk .leq] fun _ yyval => { yyval with comparisonOperator := .le },
      rule [tk .geq] fun _ yyval => { yyval with comparisonOperator := .ge }]
  | comparisonOperand =>
    [rule [nt value] fun v yyval => { yyval with expression := (v 1).value },
      rule [nt columnReference] fun v yyval =>
        { yyval with expression := columnExpr (v 1).column }]
  | scalarExpression =>
    [rule [nt value] fun v yyval => { yyval with expression := (v 1).value },
      rule [nt columnReference] fun v yyval =>
        { yyval with expression := columnExpr (v 1).column },
      rule [nt functionCall] fun v yyval => { yyval with expression := (v 1).expression },
      rule [ch '(', nt scalarExpression, ch ')'] fun v yyval =>
        { yyval with expression := (v 2).expression }]
  | scalarExpressionList =>
    commaRules scalarExpressionList scalarExpression
      (fun yyval v => { yyval with expressions := [v.expression] })
      fun yyval v => { yyval with expressions := yyval.expressions ++ [v.expression] }
  | functionCall =>
    [rule [tk .identifier, ch '(', ch ')'] fun v yyval =>
        { yyval with expression := .functionCall (v 1).text [] false },
      rule [tk .identifier, ch '(', nt scalarExpressionList, ch ')'] fun v yyval =>
        { yyval with expression := .functionCall (v 1).text (v 3).expressions false },
      rule [tk .identifier, ch '(', ch '*', ch ')'] fun v yyval =>
        { yyval with expression := .functionCall (v 1).text [.star []] false }]
  | setClauseList =>
    commaRules setClauseList setClause
      (fun yyval v => { yyval with setClauses := [v.setClause] })
      fun yyval v => { yyval with setClauses := yyval.setClauses ++ [v.setClause] }
  | setClause =>
    [rule [nt columnReference, ch '=', nt scalarExpression] fun v yyval =>
      { yyval with setClause := some ⟨(v 1).column, (v 3).expression⟩ }]
  | selectItem =>
    [rule [nt columnReference] fun v yyval =>
      { yyval with expression := columnExpr (v 1).column }]
  | selectItemList =>
    commaRules selectItemList selectItem
      (fun yyval v => { yyval with expressions := [v.expression] })
      fun yyval v => { yyval with expressions := yyval.expressions ++ [v.expression] }
  | selectList =>
    [rule [ch '*'] fun _ yyval => { yyval with expressions := [.star []] },
      rule [nt selectItemList] fun v yyval => { yyval with expressions := (v 1).expressions }]
  | fromTree =>
    [rule [nt tableName] fun v yyval =>
        { yyval with fromNode := .tableRef (v 1).text [] },
      rule [nt fromTree, ch ',', nt tableName] fun v yyval =>
        { yyval with fromNode := .join .cross (v 1).fromNode (.tableRef (v 3).text []) .null },
      rule [nt fromTree, kw .join, nt tableName] fun v yyval =>
        { yyval with fromNode := .join .inner (v 1).fromNode (.tableRef (v 3).text []) .null }]
  | optionalOrderBy =>
    [rule [kw .order, kw .by_, nt orderItem] fun v yyval =>
        { yyval with orderByItems := [(v 3).orderBy] },
      rule [] fun _ yyval => { yyval with orderByItems := [] }]
  | orderItem =>
    [rule [nt columnReference, nt optionalOrderDirection] fun v yyval =>
      { yyval with orderBy := some (.mk (columnExpr (v 1).column) (v 2).orderDirection) }]
  | optionalOrderDirection =>
    [rule [kw .asc] fun _ yyval => { yyval with orderDirection := .asc },
      rule [kw .desc] fun _ yyval => { yyval with orderDirection := .desc },
      rule [] fun _ yyval => { yyval with orderDirection := .default }]
  | tableName => [rule [tk .identifier] fun _ yyval => yyval]
  | columnName => [rule [tk .identifier] fun _ yyval => yyval]

end

/-! ## The parser -/

/-- `YYINITDEPTH`. -/
def yyinitdepth : ℕ := 200

/-- The tables of the generated parser. -/
def lrParser : Lr.Parser Nonterminal Terminal SemanticValue Statement Token where
  alternatives := alternatives
  accept := .accept
  size := 33
  kind := Token.kind
  value := Token.yylval
  resolve complete t :=
    let lhs := if t = .op (byte '.') then .tableName else .columnName
    complete.find? (·.lhs = lhs)
  resolve_mem _ _ _ := List.mem_of_find?_eq_some
  -- The state at the bottom of the stack takes a place too.
  depth := yyinitdepth - 1

/-- The state of the generated parser. -/
abbrev YyConfig := Config Nonterminal Terminal SemanticValue Statement

/-- More reductions than there can be between two tokens. -/
def maxReductions : ℕ := 24 * yyinitdepth

section Yyparse

-- The text of a syntax error in a state, at a token or at the end of the input.
variable (syntaxError : List YyItem → Option Token → Bytes)

/-- `yyerrlab` and `yyexhaustedlab`. There is no rule for errors, so the first one ends the
parse. -/
def failed (c : YyConfig) (verdict : Verdict) (token : Option Token) (yylloc : Location) : Exit :=
  let yyerror (message : Bytes) : Option ParseError :=
    some ⟨yylloc.firstLine, yylloc.firstColumn, message⟩
  match verdict with
  | .full => ⟨2, c.context, yyerror (text "memory exhausted")⟩
  | _ => ⟨1, c.context, yyerror (syntaxError (lrParser.top c.stack) token)⟩

/-- `yyparse`. A token is reduced on and shifted, and then the parser goes on as far as it can
without the next one. -/
def yyparse : Yyparse where
  State := YyConfig
  initial := ⟨[], .null⟩
  step c token yylloc :=
    match lrParser.settle maxReductions c (some token.kind) with
    | (c, .shift) =>
      let c := lrParser.shift c token
      if lrParser.depth ≤ c.stack.length then .inr (failed syntaxError c .full token yylloc)
      else
        match lrParser.settle maxReductions c none with
        | (c, .read) => .inl c
        | (c, verdict) => .inr (failed syntaxError c verdict token yylloc)
    | (c, verdict) => .inr (failed syntaxError c verdict token yylloc)
  finish c yylloc :=
    match lrParser.settle maxReductions c (some .end_) with
    | (c, .shift) => ⟨0, c.context, none⟩
    | (c, verdict) => failed syntaxError c verdict none yylloc

end Yyparse

-- `select a.b from t, u where c <= 3 order by b desc;` is shifted to its end.
example :
    let name (s : String) : Token := .identifier (text s)
    let tokens := [.keyword .select, name "a", op '.', name "b", .keyword .from_, name "t", op ',',
      name "u", .keyword .where_, name "c", .leq, .valueInt 3, .keyword .order, .keyword .by_,
      name "b", .keyword .desc, op ';']
    let parser := yyparse fun _ _ => []
    (tokens.foldlM (fun c token => (parser.step c token ⟨1, 1, 1, 1⟩).getLeft?)
      parser.initial).isSome = true := by
  decide +kernel

end Rucbase.Parser
