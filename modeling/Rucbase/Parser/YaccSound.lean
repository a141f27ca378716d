import Rucbase.Lib.LrComplete
import Rucbase.Parser.Yacc

/-!
# The rules follow the grammar

The value that a rule makes of the values of its right-hand side is the one that the relations of
`Parser.Grammar` give to the tokens (`sound_alternatives`). So whatever the parser has on its stack
was read from tokens that say so. The weights of the symbols show that between two tokens the parser
reduces a bounded number of times (`weights`).
-/

namespace Rucbase.Parser

open Lib Ast Lr Grammar

/-- What a symbol says about its tokens and its value. -/
def Means : YySymbol → List Token → SemanticValue → Prop
  | .terminal t, ts, v =>
    match t with
    | .end_ => False
    | .keyword k => ts = [.keyword k]
    | .leq => ts = [.leq]
    | .neq => ts = [.neq]
    | .geq => ts = [.geq]
    | .invalid => ts = [.invalid]
    | .identifier => ts = [.identifier v.text]
    | .valueString => ts = [.valueString v.text]
    | .valueInt => ts = [.valueInt v.integer]
    | .valueFloat => ts = [.valueFloat v.floatingPoint]
    | .op c => ts = [.op c]
  | .nonterminal n, ts, v =>
    match n with
    | .accept => False
    | .start => Start ts v.statement
    | .stmt | .transactionStmt | .utilityStmt | .ddlStmt | .dmlStmt => Stmt ts v.statement
    | .columnDefinitionList => CommaList ColumnDefinition ts v.columnDefinitions
    | .columnNameList => CommaList ColumnName ts v.columnNames
    | .columnDefinition => ColumnDefinition ts v.columnDefinition
    | .columnType => ColumnType ts v.typeLength
    | .valueList => CommaList Grammar.Value ts v.values
    | .value => Grammar.Value ts v.value
    | .comparison => Comparison ts v.condition
    | .optionalWhere => OptionalWhere ts v.expression
    | .predicate => Predicate ts v.expression
    | .columnReference => ∃ col, v.column = some col ∧ ColumnReference ts col
    | .comparisonOperator => ∃ t, ts = [t] ∧ ComparisonOperator t v.comparisonOperator
    | .comparisonOperand => ComparisonOperand ts v.expression
    | .scalarExpression => ScalarExpression ts v.expression
    | .scalarExpressionList => CommaList ScalarExpression ts v.expressions
    | .functionCall => FunctionCall ts v.expression
    | .setClauseList => CommaList Grammar.SetClause ts v.setClauses
    | .setClause => Grammar.SetClause ts v.setClause
    | .selectItem => SelectItem ts v.expression
    | .selectItemList => CommaList SelectItem ts v.expressions
    | .selectList => SelectList ts v.expressions
    | .fromTree => FromTree ts v.fromNode
    | .optionalOrderBy => OptionalOrderBy ts v.orderByItems
    | .orderItem => ∃ item, v.orderBy = some item ∧ OrderItem ts item
    | .optionalOrderDirection => OptionalOrderDirection ts v.orderDirection
    | .tableName => ts = [.identifier v.text]
    | .columnName => ColumnName ts v.text

/-- The rules of a nonterminal make what it says. -/
def SoundRules (n : Nonterminal) (rules : List YyRule) : Prop :=
  ∀ statement, ∀ alternative ∈ rules, ForEach Means alternative.rhs fun ts values =>
    Means (nt n) ts (alternative.action values statement).1

theorem SoundRules.nil {n : Nonterminal} : SoundRules n [] := by
  rintro _ _ ⟨⟩

theorem SoundRules.cons {n : Nonterminal} {alternative : YyRule} {rules : List YyRule}
    (h : ∀ statement, ForEach Means alternative.rhs fun ts values =>
      Means (nt n) ts (alternative.action values statement).1) (hrules : SoundRules n rules) :
    SoundRules n (alternative :: rules) := by
  intro statement
  exact List.forall_mem_cons.mpr ⟨h statement, hrules statement⟩

/-- The two rules of a list with commas. -/
theorem soundRules_commaRules {α : Type} (item : List Token → α → Prop) {list n : Nonterminal}
    {first push : SemanticValue → SemanticValue → SemanticValue} (get : SemanticValue → α)
    (getAll : SemanticValue → List α)
    (hitem : ∀ {ts v}, Means (nt n) ts v → item ts (get v) := by exact id)
    (hlist : ∀ {ts v}, Means (nt list) ts v ↔ CommaList item ts (getAll v) := by exact Iff.rfl)
    (hfirst : ∀ yyval v, getAll (first yyval v) = [get v] := by intros; rfl)
    (hpush : ∀ yyval v, getAll (push yyval v) = getAll yyval ++ [get v] := by intros; rfl) :
    SoundRules list (commaRules list n first push) := by
  refine .cons ?_ (.cons ?_ .nil)
  · intro statement ts v hv
    refine hlist.mpr ?_
    have hone := CommaList.one (hitem hv)
    rwa [← hfirst v v] at hone
  · rintro statement ts v hv _ _ rfl us w hw
    refine hlist.mpr ?_
    have hmore := CommaList.push (hlist.mp hv) (hitem hw)
    rwa [← hpush v w] at hmore

/-- A column pointer that is not null is the expression of its column. -/
theorem soundColumnExpr {derives : List Token → Expr → Prop} {ts : List Token} {col : Col}
    {column : Option Col} (hcol : column = some col) (h : derives ts (.col col)) :
    derives ts (columnExpr column) := by
  rw [hcol]
  exact h

theorem soundRules_alternatives (n : Nonterminal) : SoundRules n (alternatives n) := by
  cases n with
  | accept => exact .cons (fun _ _ _ _ _ _ h => h.elim) .nil
  | start => exact .cons (by rintro _ _ _ hstmt _ _ rfl; exact .mk hstmt) .nil
  | stmt =>
    exact .cons (fun _ _ _ h => h) (.cons (fun _ _ _ h => h) (.cons (fun _ _ _ h => h)
      (.cons (fun _ _ _ h => h) .nil)))
  | transactionStmt =>
    refine .cons ?_ (.cons ?_ (.cons ?_ (.cons ?_ .nil)))
    · rintro _ _ _ rfl
      exact .txnBegin
    · rintro _ _ _ rfl
      exact .txnCommit
    · rintro _ _ _ rfl
      exact .txnAbort
    · rintro _ _ _ rfl
      exact .txnRollback
  | utilityStmt =>
    refine .cons ?_ (.cons ?_ (.cons ?_ (.cons ?_ .nil)))
    · rintro _ _ _ rfl _ _ rfl
      exact .showDatabase
    · rintro _ _ _ rfl _ _ rfl
      exact .showTables
    · rintro _ _ _ rfl
      exact .help
    · rintro _ _ _ rfl _ _ rfl _ _ rfl _ _ rfl
      exact .setKnob
  | ddlStmt =>
    refine .cons ?_ (.cons ?_ (.cons ?_ (.cons ?_ (.cons ?_ (.cons ?_ .nil)))))
    · rintro _ _ _ rfl _ _ rfl _ _ rfl _ _ rfl _ _ hfields _ _ rfl
      exact .createTable hfields
    · rintro _ _ _ rfl _ _ rfl _ _ rfl
      exact .dropTable
    · rintro _ _ _ rfl _ _ rfl
      exact .descTable
    · rintro _ _ _ rfl _ _ rfl _ _ rfl _ _ rfl _ _ hnames _ _ rfl
      exact .createIndex hnames
    · rintro _ _ _ rfl _ _ rfl _ _ rfl _ _ rfl _ _ rfl _ _ hnames _ _ rfl
      exact .createUniqueIndex hnames
    · rintro _ _ _ rfl _ _ rfl _ _ rfl _ _ rfl _ _ hnames _ _ rfl
      exact .dropIndex hnames
  | dmlStmt =>
    refine .cons ?_ (.cons ?_ (.cons ?_ (.cons ?_ .nil)))
    · rintro _ _ _ rfl _ _ rfl _ _ rfl _ _ rfl _ _ rfl _ _ hvalues _ _ rfl
      exact .insert hvalues
    · rintro _ _ _ rfl _ _ rfl _ _ rfl _ _ hwhere
      exact .delete hwhere
    · rintro _ _ _ rfl _ _ rfl _ _ rfl ts _ hclauses us _ hwhere
      exact @Stmt.update _ ts us _ _ hclauses hwhere
    · rintro _ _ _ rfl ts _ hitems _ _ rfl us _ hfrom vs _ hwhere ws _ horder
      exact @Stmt.select ts us vs ws _ _ _ _ hitems hfrom hwhere horder
  | columnDefinitionList =>
    unfold alternatives
    exact soundRules_commaRules ColumnDefinition SemanticValue.columnDefinition
      SemanticValue.columnDefinitions
  | columnNameList =>
    unfold alternatives
    exact soundRules_commaRules ColumnName SemanticValue.text SemanticValue.columnNames
  | columnDefinition =>
    refine .cons ?_ .nil
    rintro _ _ _ ⟨⟩ _ _ htype
    exact .mk htype
  | columnType =>
    refine .cons ?_ (.cons ?_ (.cons ?_ .nil))
    · rintro _ _ _ rfl
      exact .int
    · rintro _ _ _ rfl _ _ rfl _ _ rfl _ _ rfl
      exact .char
    · rintro _ _ _ rfl
      exact .float
  | valueList =>
    unfold alternatives
    exact soundRules_commaRules Grammar.Value SemanticValue.value SemanticValue.values
  | value =>
    refine .cons ?_ (.cons ?_ (.cons ?_ .nil))
    · rintro _ _ _ rfl
      exact .int
    · rintro _ _ _ rfl
      exact .float
    · rintro _ _ _ rfl
      exact .string
  | comparison =>
    refine .cons ?_ .nil
    rintro _ ts v ⟨col, hcol, hlhs⟩ _ _ ⟨t, rfl, hoperator⟩ us _ hrhs
    change Comparison _ (.binary v.column _ _)
    rw [hcol]
    exact @Comparison.mk ts us t _ _ _ hlhs hoperator hrhs
  | optionalWhere =>
    refine .cons ?_ (.cons ?_ .nil)
    · exact fun _ => .empty
    · rintro _ _ _ rfl _ _ hpredicate
      exact .predicate hpredicate
  | predicate =>
    refine .cons ?_ (.cons ?_ .nil)
    · exact fun _ _ _ hcomparison => .comparison hcomparison
    · rintro _ _ _ hpredicate _ _ rfl _ _ hcomparison
      exact .and hpredicate hcomparison
  | columnReference =>
    refine .cons ?_ (.cons ?_ .nil)
    · rintro _ _ _ rfl _ _ rfl _ _ ⟨⟩
      exact ⟨_, rfl, .qualified⟩
    · rintro _ _ _ ⟨⟩
      exact ⟨_, rfl, .plain⟩
  | comparisonOperator =>
    refine .cons ?_ (.cons ?_ (.cons ?_ (.cons ?_ (.cons ?_ (.cons ?_ .nil)))))
    · rintro _ _ _ rfl
      exact ⟨_, rfl, .eq⟩
    · rintro _ _ _ rfl
      exact ⟨_, rfl, .lt⟩
    · rintro _ _ _ rfl
      exact ⟨_, rfl, .gt⟩
    · rintro _ _ _ rfl
      exact ⟨_, rfl, .ne⟩
    · rintro _ _ _ rfl
      exact ⟨_, rfl, .le⟩
    · rintro _ _ _ rfl
      exact ⟨_, rfl, .ge⟩
  | comparisonOperand =>
    refine .cons ?_ (.cons ?_ .nil)
    · exact fun _ _ _ hvalue => .value hvalue
    · rintro _ ts v ⟨col, hcol, href⟩
      exact soundColumnExpr hcol (.columnReference href)
  | scalarExpression =>
    refine .cons ?_ (.cons ?_ (.cons ?_ (.cons ?_ .nil)))
    · exact fun _ _ _ hvalue => .value hvalue
    · rintro _ ts v ⟨col, hcol, href⟩
      exact soundColumnExpr hcol (.columnReference href)
    · exact fun _ _ _ hcall => .functionCall hcall
    · rintro _ _ _ rfl _ _ hexpression _ _ rfl
      exact .parentheses hexpression
  | scalarExpressionList =>
    unfold alternatives
    exact soundRules_commaRules ScalarExpression SemanticValue.expression SemanticValue.expressions
  | functionCall =>
    refine .cons ?_ (.cons ?_ (.cons ?_ .nil))
    · rintro _ _ _ rfl _ _ rfl _ _ rfl
      exact .empty
    · rintro _ _ _ rfl _ _ rfl _ _ harguments _ _ rfl
      exact .list harguments
    · rintro _ _ _ rfl _ _ rfl _ _ rfl _ _ rfl
      exact .star
  | setClauseList =>
    unfold alternatives
    exact soundRules_commaRules Grammar.SetClause SemanticValue.setClause SemanticValue.setClauses
  | setClause =>
    refine .cons ?_ .nil
    rintro _ ts v ⟨col, hcol, htarget⟩ _ _ rfl us _ hassigned
    change Grammar.SetClause _ (some ⟨v.column, _⟩)
    rw [hcol]
    exact @Grammar.SetClause.mk ts us _ _ htarget hassigned
  | selectItem =>
    refine .cons ?_ .nil
    rintro _ ts v ⟨col, hcol, href⟩
    exact soundColumnExpr hcol (.mk href)
  | selectItemList =>
    unfold alternatives
    exact soundRules_commaRules SelectItem SemanticValue.expression SemanticValue.expressions
  | selectList =>
    refine .cons ?_ (.cons ?_ .nil)
    · rintro _ _ _ rfl
      exact .star
    · exact fun _ _ _ hitems => .items hitems
  | fromTree =>
    refine .cons ?_ (.cons ?_ (.cons ?_ .nil))
    · rintro _ _ _ rfl
      exact .table
    · rintro _ _ _ hleft _ _ rfl _ _ rfl
      exact .cross hleft
    · rintro _ _ _ hleft _ _ rfl _ _ rfl
      exact .inner hleft
  | optionalOrderBy =>
    refine .cons ?_ (.cons ?_ .nil)
    · rintro _ _ _ rfl _ _ rfl _ v ⟨item, hitem, horder⟩
      change OptionalOrderBy _ [v.orderBy]
      rw [hitem]
      exact .item horder
    · exact fun _ => .empty
  | orderItem =>
    refine .cons ?_ .nil
    rintro _ ts v ⟨col, hcol, href⟩ us _ hdirection
    change ∃ item, some (OrderBy.mk (columnExpr v.column) _) = some item ∧ _
    rw [hcol]
    exact ⟨_, rfl, .mk href hdirection⟩
  | optionalOrderDirection =>
    refine .cons ?_ (.cons ?_ (.cons ?_ .nil))
    · rintro _ _ _ rfl
      exact .asc
    · rintro _ _ _ rfl
      exact .desc
    · exact fun _ => .empty
  | tableName => exact .cons (fun _ _ _ h => h) .nil
  | columnName =>
    refine .cons ?_ .nil
    rintro _ _ _ rfl
    exact .mk

theorem sound_lrParser : Sound lrParser Means where
  token token := by cases token <;> rfl
  rule n statement := soundRules_alternatives n statement

/-! ## The end of the reductions -/

/-- A rule with one symbol makes a lighter one of it. -/
def weight : YySymbol → ℕ
  | .terminal _ => 20
  | .nonterminal n =>
    match n with
    | .tableName | .columnName => 19
    | .columnReference | .value | .functionCall => 18
    | .selectItem | .comparisonOperand | .scalarExpression | .fromTree => 17
    | .selectItemList | .scalarExpressionList => 16
    | .selectList => 15
    | .columnDefinitionList | .columnNameList | .valueList | .setClauseList => 9
    | .predicate | .stmt => 9
    | .start => 8
    | .accept => 7
    | .optionalWhere | .optionalOrderBy | .optionalOrderDirection => 1
    | _ => 10

/-- `optional_order_by` may be empty behind an empty `optional_where`. -/
def onTop : YySymbol → ℕ
  | .nonterminal .optionalOrderBy | .nonterminal .optionalOrderDirection => 0
  | .nonterminal .optionalWhere => 2
  | _ => 4

def weights : Weights lrParser where
  weight := weight
  onTop := onTop
  heaviest := 24
  weight_le symbol := by
    cases symbol with
    | nonterminal n => cases n <;> decide
    | terminal t => exact le_rfl
  rule n := by cases n <;> rfl
  accept := rfl
  empty n hempty m := by
    cases n with
    | optionalWhere | optionalOrderBy | optionalOrderDirection => cases m <;> rfl
    | _ => cases hempty

end Rucbase.Parser
