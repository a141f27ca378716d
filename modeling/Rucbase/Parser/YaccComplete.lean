import Rucbase.Lib.LrComplete
import Rucbase.Parser.Yacc

/-!
# The generated parser follows the grammar

The rules of the generated parser make every statement of the grammar (`Grammar.Start.parses`), and
the parser reads what its rules make if its stack has room for it (`reads_start`). For that it has
to find out in each of its states which rule to take, with one token: this is checked for all of
them (`guides_lrStates`). It follows that no two statements have the same tokens
(`Grammar.Start.unique`).
-/

namespace Rucbase.Parser

open Lib Ast Lr Grammar

/-! ## The tables -/

/-- The tokens that may come behind a nonterminal. -/
def follow (n : Nonterminal) : List Terminal :=
  let semicolon : Terminal := .op (byte ';')
  let comma : Terminal := .op (byte ',')
  let close : Terminal := .op (byte ')')
  let behindWhere : List Terminal := [semicolon, .keyword .order]
  let behindComparison : List Terminal := .keyword .and :: behindWhere
  let behindSetClause : List Terminal := [comma, semicolon, .keyword .where_]
  let behindFrom : List Terminal := comma :: .keyword .join :: .keyword .where_ :: behindWhere
  let behindValue : List Terminal := close :: behindSetClause ++ behindComparison
  let behindColumn : List Terminal :=
    [.op (byte '='), .op (byte '<'), .op (byte '>'), .neq, .leq, .geq, .keyword .asc,
      .keyword .desc, .keyword .from_] ++ behindValue
  match n with
  | .accept => []
  | .start => [.end_]
  | .columnDefinitionList | .columnNameList | .columnDefinition | .columnType | .valueList
  | .scalarExpressionList => [comma, close]
  | .value => behindValue
  | .comparison | .predicate | .comparisonOperand => behindComparison
  | .optionalWhere => behindWhere
  | .columnReference => behindColumn
  | .comparisonOperator => [.identifier, .valueInt, .valueFloat, .valueString]
  | .scalarExpression | .functionCall => close :: behindSetClause
  | .setClauseList | .setClause => behindSetClause
  | .selectItem | .selectItemList => [comma, .keyword .from_]
  | .selectList => [.keyword .from_]
  | .fromTree => behindFrom
  | .tableName =>
    .op (byte '.') :: .op (byte '(') :: .keyword .values :: .keyword .set :: behindFrom
  | .columnName => [.keyword .int, .keyword .char, .keyword .float] ++ behindColumn
  | _ => [semicolon]

/-- The states of the parser. -/
def lrStates : List (List YyItem) :=
  lrParser.explore 160 [lrParser.items .accept] [lrParser.items .accept]

/-- Every state passes the check. -/
theorem guides_lrStates : lrStates.all (lrParser.guides follow lrStates) = true := by
  decide +kernel

/-- In each of its states the parser finds out which rule it has to take. -/
theorem guided_lrParser : Guided lrParser follow lrStates where
  rules n := by cases n <;> decide
  begins n := by cases n <;> decide
  start := lrParser.subset_explore _ _ _ (List.mem_singleton_self _)
  reachable := lrParser.reachable_explore _ _ _
    (List.forall_mem_singleton.mpr .start) (List.forall_mem_singleton.mpr .start)
  guides := List.all_eq_true.mp guides_lrStates

/-! ## Derivations of the grammar -/

/-- Only the rule of `start` changes the context. -/
theorem action_eq {n : Nonterminal} (hn : n ≠ .start) (values : List SemanticValue) :
    ∀ alternative ∈ alternatives n, ∀ statement,
      alternative.action values statement = ((alternative.action values .null).1, statement) := by
  cases n with
  | start => exact absurd rfl hn
  | _ => simp [alternatives, commaRules, rule]

/-- The rules make these tokens and values of the symbols. -/
def Parses (symbols : List YySymbol) (ts : List Token) (values : List SemanticValue) : Prop :=
  ∃ places, Derives lrParser symbols ts values places

namespace Parses

variable {symbols : List YySymbol} {ts us : List Token} {values others : List SemanticValue}
  {n : Nonterminal} {alternative : YyRule}

/-- No symbols make no tokens. -/
theorem nil : Parses [] [] [] := ⟨0, .nil⟩

/-- A token stands for its kind. -/
theorem token (token : Token) (h : Parses symbols ts values) :
    Parses (.terminal token.kind :: symbols) (token :: ts) (token.yylval :: values) :=
  h.imp' Nat.succ fun _ => .token token

/-- The first symbol and the others. -/
theorem cons {symbol : YySymbol} {value : SemanticValue} (hone : Parses [symbol] ts [value])
    (h : Parses symbols us others) : Parses (symbol :: symbols) (ts ++ us) (value :: others) := by
  obtain ⟨places, hone⟩ := hone
  obtain ⟨more, h⟩ := h
  exact ⟨_, hone.append h⟩

/-- A nonterminal, by one of its rules. -/
theorem rule (i : ℕ) (hrule : (alternatives n)[i]? = some alternative)
    (hn : decide (n = .start) = false) (h : Parses alternative.rhs ts values) :
    Parses [nt n] ts [(alternative.action values .null).1] := by
  obtain ⟨places, h⟩ := h
  have hmem := List.mem_of_getElem? hrule
  exact ⟨_, h.one hmem (action_eq (of_decide_eq_false hn) values alternative hmem)⟩

/-- A table name is an identifier. -/
theorem tableName (name : Bytes) (h : Parses symbols ts values) :
    Parses (nt .tableName :: symbols) (.identifier name :: ts) ({ text := name } :: values) := by
  have hname := rule (n := .tableName) 0 rfl rfl (token (.identifier name) nil)
  exact cons hname h

/-- A column name is an identifier. -/
theorem columnName (name : Bytes) (h : Parses symbols ts values) :
    Parses (nt .columnName :: symbols) (.identifier name :: ts) ({ text := name } :: values) := by
  have hname := rule (n := .columnName) 0 rfl rfl (token (.identifier name) nil)
  exact cons hname h

end Parses

/-- The rules of a nonterminal make a value of the tokens, and the part of it that counts. -/
abbrev Makes {α : Type} (n : Nonterminal) (get : SemanticValue → α) (ts : List Token) (a : α) :
    Prop :=
  ∃ v, Parses [nt n] ts [v] ∧ get v = a

namespace Grammar

variable {ts : List Token}

variable {e : Expr}

/-- The rules of `value`. -/
theorem Value.parses (h : Value ts e) : Makes .value (·.value) ts e := by
  cases h with
  | @int v => exact ⟨_, .rule 0 rfl rfl (.token (.valueInt v) .nil), rfl⟩
  | @float v => exact ⟨_, .rule 1 rfl rfl (.token (.valueFloat v) .nil), rfl⟩
  | @string s => exact ⟨_, .rule 2 rfl rfl (.token (.valueString s) .nil), rfl⟩

/-- The rules of `column_reference`. -/
theorem ColumnReference.parses {col : Col} (h : ColumnReference ts col) :
    Makes .columnReference (·.column) ts (some col) := by
  cases h with
  | @qualified tableName columnName =>
    have hrhs := Parses.tableName tableName (.token (op '.') (.columnName columnName .nil))
    exact ⟨_, .rule 0 rfl rfl hrhs, rfl⟩
  | @plain columnName => exact ⟨_, .rule 1 rfl rfl (.columnName columnName .nil), rfl⟩

/-- The rules of `comparison_operator`. -/
theorem ComparisonOperator.parses {t : Token} {operator : Ast.CompOp}
    (h : ComparisonOperator t operator) :
    Makes .comparisonOperator (·.comparisonOperator) [t] operator := by
  cases h with
  | eq => exact ⟨_, .rule 0 rfl rfl (.token (op '=') .nil), rfl⟩
  | lt => exact ⟨_, .rule 1 rfl rfl (.token (op '<') .nil), rfl⟩
  | gt => exact ⟨_, .rule 2 rfl rfl (.token (op '>') .nil), rfl⟩
  | ne => exact ⟨_, .rule 3 rfl rfl (.token .neq .nil), rfl⟩
  | le => exact ⟨_, .rule 4 rfl rfl (.token .leq .nil), rfl⟩
  | ge => exact ⟨_, .rule 5 rfl rfl (.token .geq .nil), rfl⟩

/-- The rules of `comparison_operand`. -/
theorem ComparisonOperand.parses (h : ComparisonOperand ts e) :
    Makes .comparisonOperand (·.expression) ts e := by
  cases h with
  | value h =>
    obtain ⟨v, hv, rfl⟩ := h.parses
    exact ⟨_, .rule 0 rfl rfl hv, rfl⟩
  | columnReference h =>
    obtain ⟨v, hv, hcol⟩ := h.parses
    exact ⟨_, .rule 1 rfl rfl hv, congrArg columnExpr hcol⟩

/-- The rule of `comparison`. -/
theorem Comparison.parses (h : Comparison ts e) :
    Makes .comparison (·.condition) ts e := by
  cases h with
  | mk hlhs hoperator hrhs =>
    obtain ⟨v, hv, hcol⟩ := hlhs.parses
    obtain ⟨w, hw, rfl⟩ := hoperator.parses
    obtain ⟨x, hx, rfl⟩ := hrhs.parses
    exact ⟨_, .rule 0 rfl rfl (hv.cons (hw.cons hx)), congrArg (Expr.binary · _ _) hcol⟩

/-- The rules of `predicate`, by induction on its comparisons. -/
theorem Predicate.parses (h : Predicate ts e) :
    Makes .predicate (·.expression) ts e := by
  induction h with
  | comparison h =>
    obtain ⟨v, hv, rfl⟩ := h.parses
    exact ⟨_, .rule 0 rfl rfl hv, rfl⟩
  | and _ h ih =>
    obtain ⟨v, hv, rfl⟩ := ih
    obtain ⟨w, hw, rfl⟩ := h.parses
    exact ⟨_, .rule 1 rfl rfl (hv.cons (.token (.keyword .and) hw)), rfl⟩

/-- The rules of `optional_where`. -/
theorem OptionalWhere.parses (h : OptionalWhere ts e) :
    Makes .optionalWhere (·.expression) ts e := by
  cases h with
  | empty => exact ⟨_, .rule 0 rfl rfl .nil, rfl⟩
  | predicate h =>
    obtain ⟨v, hv, rfl⟩ := h.parses
    exact ⟨_, .rule 1 rfl rfl (.token (.keyword .where_) hv), rfl⟩

/-- The two rules of a list with commas, and the values that they make. -/
def IsCommaList {α : Type} (list n : Nonterminal) (get : SemanticValue → α)
    (getAll : SemanticValue → List α) : Prop :=
  decide (list = .start) = false ∧ ∃ one more, alternatives list = [one, more] ∧
    one.rhs = [nt n] ∧ (∀ v, getAll (one.action [v] .null).1 = [get v]) ∧
    more.rhs = [nt list, ch ',', nt n] ∧
    ∀ v comma w, getAll (more.action [v, comma, w] .null).1 = getAll v ++ [get w]

/-- A list with commas is made from left to right. -/
theorem CommaList.parses {α : Type} {item : List Token → α → Prop} {as : List α}
    {list n : Nonterminal} {get : SemanticValue → α} {getAll : SemanticValue → List α}
    (hlist : IsCommaList list n get getAll)
    (hitem : ∀ {ts a}, item ts a → Makes n get ts a)
    (h : CommaList item ts as) : Makes list getAll ts as := by
  obtain ⟨hstart, one, more, hrules, hone, hfirst, hmore, hpush⟩ := hlist
  induction h with
  | one h =>
    obtain ⟨v, hv, rfl⟩ := hitem h
    rw [← hone] at hv
    exact ⟨_, .rule 0 (by rw [hrules]; rfl) hstart hv, hfirst v⟩
  | push _ h ih =>
    obtain ⟨v, hv, rfl⟩ := ih
    obtain ⟨w, hw, rfl⟩ := hitem h
    have hrhs : Parses [nt list, ch ',', nt n] _ _ := hv.cons (.token (op ',') hw)
    rw [← hmore] at hrhs
    exact ⟨_, .rule 1 (by rw [hrules]; rfl) hstart hrhs, hpush v _ w⟩

/-- The items of a list are not longer than the list. -/
theorem CommaList.bounded {α : Type} {item : List Token → α → Prop} {as : List α}
    (h : CommaList item ts as) {n : ℕ} (hn : ts.length ≤ n) :
    CommaList (fun us a => item us a ∧ us.length ≤ n) ts as := by
  induction h with
  | one h => exact .one ⟨h, hn⟩
  | push _ h ih =>
    simp only [List.length_append, List.length_cons] at hn
    exact .push (ih (by omega)) ⟨h, by omega⟩

/-- A scalar expression has at least one token. -/
theorem ScalarExpression.ne_nil (h : ScalarExpression ts e) : ts ≠ [] := by
  cases h with
  | value h => cases h <;> exact List.cons_ne_nil _ _
  | columnReference h => cases h <;> exact List.cons_ne_nil _ _
  | functionCall h => cases h <;> exact List.cons_ne_nil _ _
  | parentheses => exact List.cons_ne_nil _ _

/-- The rules of `scalar_expression`, by induction on the number of tokens: an argument has fewer
than its call. -/
theorem ScalarExpression.parses {count : ℕ} (h : ScalarExpression ts e)
    (hcount : ts.length ≤ count) :
    Makes .scalarExpression (·.expression) ts e := by
  induction count generalizing ts e with
  | zero => exact absurd (List.eq_nil_of_length_eq_zero (Nat.le_zero.mp hcount)) h.ne_nil
  | succ count ih =>
    cases h with
    | value h =>
      obtain ⟨v, hv, rfl⟩ := h.parses
      exact ⟨_, .rule 0 rfl rfl hv, rfl⟩
    | columnReference h =>
      obtain ⟨v, hv, hcol⟩ := h.parses
      exact ⟨_, .rule 1 rfl rfl hv, congrArg columnExpr hcol⟩
    | functionCall h =>
      cases h with
      | @empty name =>
        have hcall := Parses.token (.identifier name) (.token (op '(') (.token (op ')') .nil))
        have hrule := Parses.rule (n := .functionCall) 0 rfl rfl hcall
        exact ⟨_, .rule 2 rfl rfl hrule, rfl⟩
      | @star name =>
        have hcall := Parses.token (.identifier name)
          (.token (op '(') (.token (op '*') (.token (op ')') .nil)))
        have hrule := Parses.rule (n := .functionCall) 2 rfl rfl hcall
        exact ⟨_, .rule 2 rfl rfl hrule, rfl⟩
      | @list name ts arguments h =>
        simp only [List.length_cons, List.length_append, List.length_nil] at hcount
        -- The arguments have fewer tokens than the call.
        have hbounded := h.bounded (n := count) (by omega)
        have hrules : IsCommaList .scalarExpressionList .scalarExpression SemanticValue.expression
            SemanticValue.expressions :=
          ⟨rfl, _, _, rfl, rfl, fun _ => rfl, rfl, fun _ _ _ => rfl⟩
        obtain ⟨v, hv, rfl⟩ := hbounded.parses hrules fun h => ih h.1 h.2
        have hcall := Parses.token (.identifier name)
          (.token (op '(') (hv.cons (.token (op ')') .nil)))
        have hrule := Parses.rule (n := .functionCall) 1 rfl rfl hcall
        exact ⟨_, .rule 2 rfl rfl hrule, rfl⟩
    | parentheses h =>
      simp only [List.length_cons, List.length_append, List.length_nil] at hcount
      obtain ⟨v, hv, rfl⟩ := ih h (by omega)
      exact ⟨_, .rule 3 rfl rfl (.token (op '(') (hv.cons (.token (op ')') .nil))), rfl⟩

/-- The rule of `column_name`. -/
theorem ColumnName.parses {name : Bytes} (h : ColumnName ts name) :
    Makes .columnName (·.text) ts name := by
  cases h with
  | mk => exact ⟨_, .columnName name .nil, rfl⟩

/-- The rules of `column_type`. -/
theorem ColumnType.parses {typeLen : TypeLen} (h : ColumnType ts typeLen) :
    Makes .columnType (·.typeLength) ts typeLen := by
  cases h with
  | int => exact ⟨_, .rule 0 rfl rfl (.token (.keyword .int) .nil), rfl⟩
  | @char n =>
    have hrhs := Parses.token (.keyword .char)
      (.token (op '(') (.token (.valueInt n) (.token (op ')') .nil)))
    exact ⟨_, .rule 1 rfl rfl hrhs, rfl⟩
  | float => exact ⟨_, .rule 2 rfl rfl (.token (.keyword .float) .nil), rfl⟩

/-- The rule of `column_definition`. -/
theorem ColumnDefinition.parses {field : ColDef} (h : ColumnDefinition ts field) :
    Makes .columnDefinition (·.columnDefinition) ts field := by
  cases h with
  | @mk name ts typeLen h =>
    obtain ⟨v, hv, rfl⟩ := h.parses
    exact ⟨_, .rule 0 rfl rfl (.columnName name hv), rfl⟩

/-- The rule of `set_clause`. -/
theorem SetClause.parses {clause : Option Ast.SetClause} (h : SetClause ts clause) :
    Makes .setClause (·.setClause) ts clause := by
  cases h with
  | mk htarget hassigned =>
    obtain ⟨v, hv, hcol⟩ := htarget.parses
    obtain ⟨w, hw, rfl⟩ := hassigned.parses le_rfl
    refine ⟨_, .rule 0 rfl rfl (hv.cons (.token (op '=') hw)), ?_⟩
    rw [← hcol]
    rfl

/-- The rule of `select_item`. -/
theorem SelectItem.parses (h : SelectItem ts e) :
    Makes .selectItem (·.expression) ts e := by
  cases h with
  | mk h =>
    obtain ⟨v, hv, hcol⟩ := h.parses
    exact ⟨_, .rule 0 rfl rfl hv, congrArg columnExpr hcol⟩

/-- The rules of `select_list`. -/
theorem SelectList.parses {items : List Expr} (h : SelectList ts items) :
    Makes .selectList (·.expressions) ts items := by
  cases h with
  | star => exact ⟨_, .rule 0 rfl rfl (.token (op '*') .nil), rfl⟩
  | items h =>
    have hrules : IsCommaList .selectItemList .selectItem SemanticValue.expression
        SemanticValue.expressions :=
      ⟨rfl, _, _, rfl, rfl, fun _ => rfl, rfl, fun _ _ _ => rfl⟩
    obtain ⟨v, hv, rfl⟩ := h.parses hrules SelectItem.parses
    exact ⟨_, .rule 1 rfl rfl hv, rfl⟩

/-- The rules of `from_tree`, by induction on its tables. -/
theorem FromTree.parses {fromNode : FromNode} (h : FromTree ts fromNode) :
    Makes .fromTree (·.fromNode) ts fromNode := by
  induction h with
  | @table name => exact ⟨_, .rule 0 rfl rfl (.tableName name .nil), rfl⟩
  | @cross ts left name _ ih =>
    obtain ⟨v, hv, rfl⟩ := ih
    exact ⟨_, .rule 1 rfl rfl (hv.cons (.token (op ',') (.tableName name .nil))), rfl⟩
  | @inner ts left name _ ih =>
    obtain ⟨v, hv, rfl⟩ := ih
    exact ⟨_, .rule 2 rfl rfl (hv.cons (.token (.keyword .join) (.tableName name .nil))), rfl⟩

/-- The rules of `optional_order_direction`. -/
theorem OptionalOrderDirection.parses {direction : OrderByDir}
    (h : OptionalOrderDirection ts direction) :
    Makes .optionalOrderDirection (·.orderDirection) ts direction := by
  cases h with
  | asc => exact ⟨_, .rule 0 rfl rfl (.token (.keyword .asc) .nil), rfl⟩
  | desc => exact ⟨_, .rule 1 rfl rfl (.token (.keyword .desc) .nil), rfl⟩
  | empty => exact ⟨_, .rule 2 rfl rfl .nil, rfl⟩

/-- The rules of `optional_order_by` and of `order_item`. -/
theorem OptionalOrderBy.parses {items : List (Option OrderBy)} (h : OptionalOrderBy ts items) :
    Makes .optionalOrderBy (·.orderByItems) ts items := by
  cases h with
  | item h =>
    obtain ⟨hcol, hdirection⟩ := h
    obtain ⟨v, hv, hcol⟩ := hcol.parses
    obtain ⟨w, hw, rfl⟩ := hdirection.parses
    have hitem := Parses.rule (n := .orderItem) 0 rfl rfl (hv.cons hw)
    have hrhs := Parses.token (.keyword .order) (.token (.keyword .by_) hitem)
    have hrule := Parses.rule (n := .optionalOrderBy) 0 rfl rfl hrhs
    exact ⟨_, hrule, congrArg (fun col => [some (OrderBy.mk (columnExpr col) _)]) hcol⟩
  | empty =>
    have hrule := Parses.rule (n := .optionalOrderBy) 1 rfl rfl .nil
    exact ⟨_, hrule, rfl⟩

/-- Rule `kind` of `stmt` is for one of the four kinds of statements, and keeps its value. -/
def IsKind (kind : ℕ) (n : Nonterminal) : Prop :=
  decide (n = .start) = false ∧ ∃ outer, (alternatives .stmt)[kind]? = some outer ∧
    outer.rhs = [nt n] ∧ ∀ v, (outer.action [v] .null).1 = v

/-- A rule of one of the four kinds of statements. -/
theorem Stmt.parses_rule {kind : ℕ} {n : Nonterminal} {alternative : YyRule}
    {values : List SemanticValue} (hkind : IsKind kind n) (i : ℕ)
    (hrule : (alternatives n)[i]? = some alternative) (h : Parses alternative.rhs ts values) :
    Makes .stmt (·.statement) ts (alternative.action values .null).1.statement := by
  obtain ⟨hn, outer, houter, hrhs, haction⟩ := hkind
  have hinner := Parses.rule i hrule hn h
  rw [← hrhs] at hinner
  have hstmt := Parses.rule kind houter rfl hinner
  rw [haction] at hstmt
  exact ⟨_, hstmt, rfl⟩

/-- The rules make every statement of the grammar. -/
theorem Stmt.parses {statement : Statement} (h : Stmt ts statement) :
    Makes .stmt (·.statement) ts statement := by
  have hutility : IsKind 0 .utilityStmt := ⟨rfl, _, rfl, rfl, fun _ => rfl⟩
  have hddl : IsKind 1 .ddlStmt := ⟨rfl, _, rfl, rfl, fun _ => rfl⟩
  have hdml : IsKind 2 .dmlStmt := ⟨rfl, _, rfl, rfl, fun _ => rfl⟩
  have htransaction : IsKind 3 .transactionStmt := ⟨rfl, _, rfl, rfl, fun _ => rfl⟩
  have hname : IsCommaList .columnNameList .columnName SemanticValue.text
      SemanticValue.columnNames := ⟨rfl, _, _, rfl, rfl, fun _ => rfl, rfl, fun _ _ _ => rfl⟩
  cases h with
  | txnBegin => exact parses_rule htransaction 0 rfl (.token (.keyword .txnBegin) .nil)
  | txnCommit => exact parses_rule htransaction 1 rfl (.token (.keyword .txnCommit) .nil)
  | txnAbort => exact parses_rule htransaction 2 rfl (.token (.keyword .txnAbort) .nil)
  | txnRollback => exact parses_rule htransaction 3 rfl (.token (.keyword .txnRollback) .nil)
  | showDatabase =>
    have hrhs := Parses.token (.keyword .show_) (.token (.keyword .database) .nil)
    exact parses_rule hutility 0 rfl hrhs
  | showTables =>
    have hrhs := Parses.token (.keyword .show_) (.token (.keyword .tables) .nil)
    exact parses_rule hutility 1 rfl hrhs
  | help => exact parses_rule hutility 2 rfl (.token (.keyword .help) .nil)
  | @setKnob name value =>
    have hrhs := Parses.token (.keyword .set)
      (.token (.identifier name) (.token (op '=') (.token (.identifier value) .nil)))
    exact parses_rule hutility 3 rfl hrhs
  | @createTable tabName ts fields h =>
    have hrules : IsCommaList .columnDefinitionList .columnDefinition
        SemanticValue.columnDefinition SemanticValue.columnDefinitions :=
      ⟨rfl, _, _, rfl, rfl, fun _ => rfl, rfl, fun _ _ _ => rfl⟩
    obtain ⟨v, hv, rfl⟩ := h.parses hrules ColumnDefinition.parses
    have hrhs := Parses.token (.keyword .create) (.token (.keyword .table)
      (.tableName tabName (.token (op '(') (hv.cons (.token (op ')') .nil)))))
    exact parses_rule hddl 0 rfl hrhs
  | @dropTable tabName =>
    have hrhs := Parses.token (.keyword .drop)
      (.token (.keyword .table) (.tableName tabName .nil))
    exact parses_rule hddl 1 rfl hrhs
  | @descTable tabName =>
    have hrhs := Parses.token (.keyword .desc) (.tableName tabName .nil)
    exact parses_rule hddl 2 rfl hrhs
  | @createIndex tabName ts colNames h =>
    obtain ⟨v, hv, rfl⟩ := h.parses hname ColumnName.parses
    have hrhs := Parses.token (.keyword .create) (.token (.keyword .index)
      (.tableName tabName (.token (op '(') (hv.cons (.token (op ')') .nil)))))
    exact parses_rule hddl 3 rfl hrhs
  | @createUniqueIndex tabName ts colNames h =>
    obtain ⟨v, hv, rfl⟩ := h.parses hname ColumnName.parses
    have hrhs := Parses.token (.keyword .create) (.token (.keyword .unique)
      (.token (.keyword .index) (.tableName tabName
        (.token (op '(') (hv.cons (.token (op ')') .nil))))))
    exact parses_rule hddl 4 rfl hrhs
  | @dropIndex tabName ts colNames h =>
    obtain ⟨v, hv, rfl⟩ := h.parses hname ColumnName.parses
    have hrhs := Parses.token (.keyword .drop) (.token (.keyword .index)
      (.tableName tabName (.token (op '(') (hv.cons (.token (op ')') .nil)))))
    exact parses_rule hddl 5 rfl hrhs
  | @insert tabName ts values h =>
    have hrules : IsCommaList .valueList .value SemanticValue.value SemanticValue.values :=
      ⟨rfl, _, _, rfl, rfl, fun _ => rfl, rfl, fun _ _ _ => rfl⟩
    obtain ⟨v, hv, rfl⟩ := h.parses hrules Value.parses
    have hrhs := Parses.token (.keyword .insert) (.token (.keyword .into)
      (.tableName tabName (.token (.keyword .values)
        (.token (op '(') (hv.cons (.token (op ')') .nil))))))
    exact parses_rule hdml 0 rfl hrhs
  | @delete tabName ts whereExpr h =>
    obtain ⟨v, hv, rfl⟩ := h.parses
    have hrhs := Parses.token (.keyword .delete) (.token (.keyword .from_)
      (.tableName tabName hv))
    exact parses_rule hdml 1 rfl hrhs
  | @update tabName ts us setClauses whereExpr hset hwhere =>
    have hrules : IsCommaList .setClauseList .setClause SemanticValue.setClause
        SemanticValue.setClauses := ⟨rfl, _, _, rfl, rfl, fun _ => rfl, rfl, fun _ _ _ => rfl⟩
    obtain ⟨v, hv, rfl⟩ := hset.parses hrules SetClause.parses
    obtain ⟨w, hw, rfl⟩ := hwhere.parses
    have hrhs := Parses.token (.keyword .update) (.tableName tabName
      (.token (.keyword .set) (hv.cons hw)))
    exact parses_rule hdml 2 rfl hrhs
  | select hitems hfrom hwhere horder =>
    obtain ⟨v, hv, rfl⟩ := hitems.parses
    obtain ⟨w, hw, rfl⟩ := hfrom.parses
    obtain ⟨x, hx, rfl⟩ := hwhere.parses
    obtain ⟨y, hy, rfl⟩ := horder.parses
    have hrhs := Parses.token (.keyword .select)
      (hv.cons (.token (.keyword .from_) (hw.cons (hx.cons hy))))
    exact parses_rule hdml 3 rfl hrhs

/-- The rules make every statement with its semicolon. -/
theorem Start.parses {statement : Statement} (h : Start ts statement) :
    ∃ v w, Parses [nt .stmt, ch ';'] ts [v, w] ∧ v.statement = statement := by
  cases h with
  | mk h =>
    obtain ⟨v, hv, hstatement⟩ := h.parses
    exact ⟨v, _, hv.cons (.token (op ';') .nil), hstatement⟩

end Grammar

/-! ## Reading a statement -/

/-- The parser reads a statement and its semicolon if its stack has room for them. -/
theorem reads_start {ts : List Token} {values : List SemanticValue} {places limit : ℕ}
    (h : Derives lrParser [nt .stmt, ch ';'] ts values places) (hroom : places < limit) :
    Reads lrParser limit ⟨[], .null⟩ ts
      (lrParser.pushAll ⟨[], .null⟩ [nt .stmt, ch ';'] values) := by
  generalize hsemicolon : [ch ';'] = symbols at h
  cases h with
  | @rule n alternative symbols ts us values others value places more hrule hrhs haction hrest =>
    cases hrest with
    | nil | rule => cases hsemicolon
    | @token token symbols us others more hrest =>
      obtain ⟨hkind, rfl⟩ := List.cons.inj hsemicolon
      cases hrest
      -- `accept` begins with `start`, and `start` with the statement.
      have haccept : ⟨.accept, _, [], [nt .start, tk .end_]⟩ ∈
          lrParser.closure (lrParser.items .accept) := List.mem_append_left _ List.mem_cons_self
      have hitem := guided_lrParser.predicts guided_lrParser.start haccept rfl List.mem_cons_self
      obtain ⟨-, hnext⟩ := guided_lrParser.goto guided_lrParser.start hitem rfl
      refine (hrhs.one hrule haction).reads guided_lrParser guided_lrParser.start hitem rfl
        ?_ ?_ ?_
      · rw [← Lr.Symbol.terminal.inj hkind]
        decide
      · rw [List.length_nil]
        omega
      · refine .shift (Parser.next_of_terminal hnext hsemicolon) ?_ (.refl _)
        exact lt_of_le_of_lt (le_max_right _ _) hroom

/-- The tokens of a statement with its semicolon are those of no other one: the parser reads both in
the same way. -/
theorem Grammar.Start.unique {ts : List Token} {statement other : Statement}
    (h : Start ts statement) (hother : Start ts other) : statement = other := by
  obtain ⟨v, v', ⟨places, hv⟩, rfl⟩ := h.parses
  obtain ⟨w, w', ⟨places', hw⟩, rfl⟩ := hother.parses
  have hreads : Reads lrParser (max places places' + 1) _ ts _ := reads_start hv (by omega)
  have heq := congrArg Config.stack (hreads.unique (reads_start hw (by omega)))
  have hentry := (List.cons.inj (List.cons.inj heq).2).1
  rw [(Entry.mk.inj hentry).2.2]

end Rucbase.Parser
