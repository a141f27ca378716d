import Rucbase.Parser.Scan
import Rucbase.Parser.YaccComplete

/-!
# Rendering statements

The tokens that a statement is written with (`renderStmt`). For a statement that the grammar builds,
they are a derivation of it again, without parentheses around expressions. With the words of the
tokens and single blanks between them, the scanner returns these tokens and the grammar gives them
this statement only (`render_parses`).
-/

namespace Rucbase.Parser.Grammar

open Lib Ast

/-! ## Tokens of a statement -/

/-- A column, with its table where it has one. -/
def renderCol (col : Col) : List Token :=
  if col.tabName = [] then [.identifier col.colName]
  else [.identifier col.tabName, op '.', .identifier col.colName]

/-- The operator of a comparison. -/
def renderCompOp : Ast.CompOp → Token
  | .eq => op '='
  | .lt => op '<'
  | .gt => op '>'
  | .ne => .neq
  | .le => .leq
  | .ge => .geq

mutual

/-- The expressions of the grammar; the other kinds have no tokens. -/
def renderExpr : Expr → List Token
  | .intLit v => [.valueInt v]
  | .floatLit v => [.valueFloat v]
  | .stringLit s => [.valueString s]
  | .col col => renderCol col
  | .star _ => [op '*']
  | .binary (some lhs) operator rhs => renderCol lhs ++ renderCompOp operator :: renderExpr rhs
  | .logical .and lhs rhs => renderExpr lhs ++ .keyword .and :: renderExpr rhs
  | .functionCall name arguments _ =>
    .identifier name :: op '(' :: (renderExprs arguments ++ [op ')'])
  | _ => []

/-- Expressions with commas between them. -/
def renderExprs : List Expr → List Token
  | [] => []
  | e :: es => renderExpr e ++ renderMore es

/-- Expressions with a comma in front of each of them. -/
def renderMore : List Expr → List Token
  | [] => []
  | e :: es => op ',' :: (renderExpr e ++ renderMore es)

end

/-- Items with commas between them. -/
def commaJoin {α : Type} (render : α → List Token) : List α → List Token
  | [] => []
  | a :: as => render a ++ as.flatMap fun a => op ',' :: render a

/-- A WHERE clause, or nothing. -/
def renderWhere : Expr → List Token
  | .null => []
  | e => .keyword .where_ :: renderExpr e

/-- The type of a column; only `CHAR` is written with a length. -/
def renderTypeLen (typeLen : TypeLen) : List Token :=
  match typeLen.type with
  | .int => [.keyword .int]
  | .string => [.keyword .char, op '(', .valueInt (BitVec.ofInt 32 typeLen.declaredLen), op ')']
  | .float => [.keyword .float]

/-- The definition of a column. -/
def renderColDef (field : ColDef) : List Token :=
  .identifier field.colName :: renderTypeLen field.typeLen

/-- One assignment of an UPDATE. -/
def renderSetClause : Option Ast.SetClause → List Token
  | some ⟨some target, assigned⟩ => renderCol target ++ op '=' :: renderExpr assigned
  | _ => []

/-- The tables of a FROM clause, which is nested to the left. -/
def renderFrom : FromNode → List Token
  | .tableRef name _ => [.identifier name]
  | .join .cross left (.tableRef name _) _ => renderFrom left ++ [op ',', .identifier name]
  | .join .inner left (.tableRef name _) _ =>
    renderFrom left ++ [.keyword .join, .identifier name]
  | _ => []

/-- The direction of an order, which may be left out. -/
def renderDirection : OrderByDir → List Token
  | .asc => [.keyword .asc]
  | .desc => [.keyword .desc]
  | .default => []

/-- An ORDER BY clause, or nothing. -/
def renderOrderBy : List (Option OrderBy) → List Token
  | [some (.mk e direction)] =>
    .keyword .order :: .keyword .by_ :: (renderExpr e ++ renderDirection direction)
  | _ => []

/-- The tokens of a statement, without the semicolon. -/
def renderStmt : Statement → List Token
  | .txnBegin => [.keyword .txnBegin]
  | .txnCommit => [.keyword .txnCommit]
  | .txnAbort => [.keyword .txnAbort]
  | .txnRollback => [.keyword .txnRollback]
  | .showDatabase => [.keyword .show_, .keyword .database]
  | .showTables => [.keyword .show_, .keyword .tables]
  | .help => [.keyword .help]
  | .setKnob name value => [.keyword .set, .identifier name, op '=', .identifier value]
  | .createTable tabName fields =>
    .keyword .create :: .keyword .table :: .identifier tabName :: op '(' ::
      (commaJoin renderColDef fields ++ [op ')'])
  | .dropTable tabName => [.keyword .drop, .keyword .table, .identifier tabName]
  | .descTable tabName => [.keyword .desc, .identifier tabName]
  | .createIndex tabName colNames false =>
    .keyword .create :: .keyword .index :: .identifier tabName :: op '(' ::
      (commaJoin (fun name => [.identifier name]) colNames ++ [op ')'])
  | .createIndex tabName colNames true =>
    .keyword .create :: .keyword .unique :: .keyword .index :: .identifier tabName :: op '(' ::
      (commaJoin (fun name => [.identifier name]) colNames ++ [op ')'])
  | .dropIndex tabName colNames =>
    .keyword .drop :: .keyword .index :: .identifier tabName :: op '(' ::
      (commaJoin (fun name => [.identifier name]) colNames ++ [op ')'])
  | .insert tabName values =>
    .keyword .insert :: .keyword .into :: .identifier tabName :: .keyword .values :: op '(' ::
      (renderExprs values ++ [op ')'])
  | .delete tabName whereExpr =>
    .keyword .delete :: .keyword .from_ :: .identifier tabName :: renderWhere whereExpr
  | .update tabName setClauses whereExpr =>
    .keyword .update :: .identifier tabName :: .keyword .set ::
      (commaJoin renderSetClause setClauses ++ renderWhere whereExpr)
  | .select (.mk selectItems fromNode whereExpr _ _ orderBy _) =>
    .keyword .select :: (renderExprs selectItems ++ .keyword .from_ ::
      (renderFrom fromNode ++ (renderWhere whereExpr ++ renderOrderBy orderBy)))
  | .null => []

/-! ## Names, values and predicates -/

variable {ts : List Token}

/-- A derivation whose tokens can be spelt. -/
def Spelt {α : Type} (derives : List Token → α → Prop) (ts : List Token) (a : α) : Prop :=
  derives ts a ∧ ∀ t ∈ ts, t.Spellable

variable {e : Expr}

/-- A literal keeps its token. -/
theorem Value.render (h : Value ts e) : renderExpr e = ts := by
  cases h <;> rfl

/-- An identifier is not empty, so the name of a table tells qualified references apart. -/
theorem ColumnReference.render {col : Col} (h : ColumnReference ts col)
    (ht : ∀ t ∈ ts, t.Spellable) : renderCol col = ts := by
  cases h with
  | @qualified tableName columnName =>
    -- An empty name would be rendered as a plain reference.
    have hname : IsIdentifier tableName := (ht _ List.mem_cons_self).1
    have hne : tableName ≠ [] := by
      rintro rfl
      exact hname
    exact if_neg hne
  | plain => rfl

/-- An operator keeps its token. -/
theorem ComparisonOperator.render {t : Token} {operator : Ast.CompOp}
    (h : ComparisonOperator t operator) : renderCompOp operator = t := by
  cases h <;> rfl

/-- What is compared keeps its tokens. -/
theorem ComparisonOperand.render (h : ComparisonOperand ts e) (ht : ∀ t ∈ ts, t.Spellable) :
    renderExpr e = ts := by
  cases h with
  | value h => exact h.render
  | columnReference h =>
    rw [renderExpr]
    exact h.render ht

/-- A comparison keeps its tokens. -/
theorem Comparison.render (h : Comparison ts e) (ht : ∀ t ∈ ts, t.Spellable) :
    renderExpr e = ts := by
  cases h with
  | mk hlhs hoperator hrhs =>
    rw [List.forall_mem_append, List.forall_mem_cons] at ht
    rw [renderExpr, hlhs.render ht.1, hoperator.render, hrhs.render ht.2.2]

/-- Comparisons with AND between them keep their tokens: the grammar has no parentheses here. -/
theorem Predicate.render (h : Predicate ts e) (ht : ∀ t ∈ ts, t.Spellable) : renderExpr e = ts := by
  induction h with
  | comparison h => exact h.render ht
  | and _ h ih =>
    -- AND is nested to the left, so the induction hypothesis is about the left side only.
    rw [List.forall_mem_append, List.forall_mem_cons] at ht
    rw [renderExpr, ih ht.1, h.render ht.2.2]

/-- A predicate is not the missing one. -/
theorem Predicate.ne_null (h : Predicate ts e) : e ≠ .null := by
  cases h with
  | comparison h =>
    cases h
    exact Expr.noConfusion
  | and => exact Expr.noConfusion

/-- A WHERE clause keeps its tokens. -/
theorem OptionalWhere.render (h : OptionalWhere ts e) (ht : ∀ t ∈ ts, t.Spellable) :
    renderWhere e = ts := by
  cases h with
  | empty => rfl
  | predicate h =>
    -- The missing predicate would be rendered as no clause at all.
    rw [List.forall_mem_cons] at ht
    rw [renderWhere, h.render ht.2]
    exact h.ne_null

/-! ## Lists and scalar expressions -/

section CommaList

variable {α : Type} {item item' : List Token → α → Prop} {tokens : α → List Token} {as : List α}

/-- A list of the grammar has an item. -/
theorem CommaList.ne_nil (h : CommaList item ts as) : as ≠ [] := by
  cases h <;> simp

/-- One more item comes behind one more comma. -/
theorem commaJoin_concat (has : as ≠ []) (a : α) :
    commaJoin tokens (as ++ [a]) = commaJoin tokens as ++ op ',' :: tokens a := by
  match as, has with
  | b :: bs, _ => simp [commaJoin]

/-- If the tokens of every item derive the item, then those of a list derive the list. -/
theorem CommaList.render (h : CommaList item ts as) (ht : ∀ t ∈ ts, t.Spellable)
    (hitem : ∀ us a, item us a → (∀ t ∈ us, t.Spellable) → Spelt item' (tokens a) a) :
    Spelt (CommaList item') (commaJoin tokens as) as := by
  induction h with
  | one h =>
    obtain ⟨hderives, hspell⟩ := hitem _ _ h ht
    simp only [commaJoin, List.flatMap_nil, List.append_nil]
    exact ⟨.one hderives, hspell⟩
  | push hlist h ih =>
    -- The grammar adds the last item, and so does `commaJoin_concat`.
    rw [List.forall_mem_append, List.forall_mem_cons] at ht
    obtain ⟨hderives, hspell⟩ := hitem _ _ h ht.2.2
    obtain ⟨hfront, hfrontSpell⟩ := ih ht.1
    rw [commaJoin_concat hlist.ne_nil]
    refine ⟨.push hfront hderives, ?_⟩
    rw [List.forall_mem_append, List.forall_mem_cons]
    exact ⟨hfrontSpell, ht.2.1, hspell⟩

/-- A list whose items keep their tokens keeps its own. -/
theorem CommaList.render_eq (h : CommaList item ts as) (ht : ∀ t ∈ ts, t.Spellable)
    (hitem : ∀ us a, item us a → (∀ t ∈ us, t.Spellable) → tokens a = us) :
    commaJoin tokens as = ts := by
  induction h with
  | one h => simp [commaJoin, hitem _ _ h ht]
  | push hlist h ih =>
    rw [List.forall_mem_append, List.forall_mem_cons] at ht
    rw [commaJoin_concat hlist.ne_nil, ih ht.1, hitem _ _ h ht.2.2]

end CommaList

/-- The lists of expressions are rendered like other lists. -/
theorem renderExprs_eq (es : List Expr) : renderExprs es = commaJoin renderExpr es := by
  have hmore : ∀ es, renderMore es = es.flatMap fun e => op ',' :: renderExpr e := by
    intro es
    induction es with
    | nil => rfl
    | cons e es ih => simp [renderMore, ih]
  cases es with
  | nil => rfl
  | cons e es => rw [renderExprs, commaJoin, hmore]

/-- The tokens of a scalar expression derive it, without the parentheses around it. The induction is
on the number of tokens. -/
theorem ScalarExpression.render {n : ℕ} (h : ScalarExpression ts e) (ht : ∀ t ∈ ts, t.Spellable)
    (hn : ts.length ≤ n) : Spelt ScalarExpression (renderExpr e) e := by
  induction n generalizing ts e with
  | zero => exact absurd (List.eq_nil_of_length_eq_zero (Nat.le_zero.mp hn)) h.ne_nil
  | succ n ih =>
    cases h with
    | value h =>
      rw [h.render]
      exact ⟨.value h, ht⟩
    | columnReference h =>
      rw [renderExpr, h.render ht]
      exact ⟨.columnReference h, ht⟩
    | parentheses h =>
      simp only [List.length_cons, List.length_append, List.length_nil] at hn
      rw [List.forall_mem_cons, List.forall_mem_append] at ht
      -- The parentheses are not rendered.
      exact ih h ht.2.1 (by omega)
    | functionCall h =>
      cases h with
      | empty => exact ⟨.functionCall .empty, ht⟩
      | star => exact ⟨.functionCall .star, ht⟩
      | list h =>
        simp only [List.length_cons, List.length_append, List.length_nil] at hn
        simp only [List.forall_mem_cons, List.forall_mem_append] at ht
        obtain ⟨hname, hopen, harguments, hclose⟩ := ht
        -- The arguments are shorter than the call, so the induction hypothesis is about each of
        -- them.
        have hbounded : CommaList (fun us e => ScalarExpression us e ∧ us.length ≤ n) _ _ :=
          h.bounded (by omega)
        obtain ⟨hderives, hspell⟩ := hbounded.render harguments
          fun us e hus hspell => ih hus.1 hspell hus.2
        rw [renderExpr, renderExprs_eq]
        refine ⟨.functionCall (.list hderives), ?_⟩
        simp only [List.forall_mem_cons, List.forall_mem_append]
        exact ⟨hname, hopen, hspell, hclose⟩

/-! ## Clauses -/

/-- The definition of a column keeps its tokens. -/
theorem ColumnDefinition.render {field : ColDef} (h : ColumnDefinition ts field) :
    renderColDef field = ts := by
  cases h with
  | mk h =>
    -- One case for each type; the length of a `CHAR` is read as it was written.
    cases h with
    | int => rfl
    | char => simp [renderColDef, renderTypeLen]
    | float => rfl

/-- The tokens of an assignment derive it, without the parentheses around what is assigned. -/
theorem SetClause.render {clause : Option Ast.SetClause} (h : SetClause ts clause)
    (ht : ∀ t ∈ ts, t.Spellable) : Spelt SetClause (renderSetClause clause) clause := by
  cases h with
  | mk htarget hassigned =>
    rw [List.forall_mem_append, List.forall_mem_cons] at ht
    obtain ⟨hderives, hspell⟩ := hassigned.render ht.2.2 le_rfl
    rw [renderSetClause, htarget.render ht.1]
    refine ⟨.mk htarget hderives, ?_⟩
    rw [List.forall_mem_append, List.forall_mem_cons]
    exact ⟨ht.1, ht.2.1, hspell⟩

/-- What is selected keeps its tokens. -/
theorem SelectList.render {items : List Expr} (h : SelectList ts items)
    (ht : ∀ t ∈ ts, t.Spellable) : renderExprs items = ts := by
  cases h with
  | star => rfl
  | items h =>
    rw [renderExprs_eq]
    refine h.render_eq ht ?_
    -- The items of the grammar are columns.
    rintro us _ ⟨hcol⟩ hus
    rw [renderExpr, hcol.render hus]

/-- A FROM clause keeps its tokens. -/
theorem FromTree.render {fromNode : FromNode} (h : FromTree ts fromNode) :
    renderFrom fromNode = ts := by
  induction h with
  | table => rw [renderFrom]
  | cross _ ih => rw [renderFrom, ih]
  | inner _ ih => rw [renderFrom, ih]

/-- An ORDER BY clause keeps its tokens. -/
theorem OptionalOrderBy.render {items : List (Option OrderBy)} (h : OptionalOrderBy ts items)
    (ht : ∀ t ∈ ts, t.Spellable) : renderOrderBy items = ts := by
  cases h with
  | empty => rfl
  | item h =>
    cases h with
    | mk hcol hdirection =>
      simp only [List.forall_mem_cons, List.forall_mem_append] at ht
      rw [renderOrderBy, renderExpr, hcol.render ht.2.2.1]
      cases hdirection <;> rfl

/-! ## Statements -/

/-- The name of a column keeps its token. -/
theorem ColumnName.render {name : Bytes} (h : ColumnName ts name) :
    [Token.identifier name] = ts := by
  cases h
  rfl

/-- The tokens of a statement derive it. -/
theorem Stmt.render {statement : Statement} (h : Stmt ts statement)
    (ht : ∀ t ∈ ts, t.Spellable) : Spelt Stmt (renderStmt statement) statement := by
  have hts := ht
  -- One case for each rule. The tokens of most statements are the ones they were derived from.
  cases h with
  | txnBegin => exact ⟨.txnBegin, ht⟩
  | txnCommit => exact ⟨.txnCommit, ht⟩
  | txnAbort => exact ⟨.txnAbort, ht⟩
  | txnRollback => exact ⟨.txnRollback, ht⟩
  | showDatabase => exact ⟨.showDatabase, ht⟩
  | showTables => exact ⟨.showTables, ht⟩
  | help => exact ⟨.help, ht⟩
  | setKnob => exact ⟨.setKnob, ht⟩
  | dropTable => exact ⟨.dropTable, ht⟩
  | descTable => exact ⟨.descTable, ht⟩
  -- The statements with a list keep the tokens of its items.
  | createTable h =>
    simp only [List.forall_mem_cons, List.forall_mem_append] at hts
    rw [renderStmt, h.render_eq hts.2.2.2.2.1 fun _ _ hfield _ => hfield.render]
    exact ⟨.createTable h, ht⟩
  | createIndex h =>
    simp only [List.forall_mem_cons, List.forall_mem_append] at hts
    rw [renderStmt, h.render_eq hts.2.2.2.2.1 fun _ _ hname _ => hname.render]
    exact ⟨.createIndex h, ht⟩
  | createUniqueIndex h =>
    simp only [List.forall_mem_cons, List.forall_mem_append] at hts
    rw [renderStmt, h.render_eq hts.2.2.2.2.2.1 fun _ _ hname _ => hname.render]
    exact ⟨.createUniqueIndex h, ht⟩
  | dropIndex h =>
    simp only [List.forall_mem_cons, List.forall_mem_append] at hts
    rw [renderStmt, h.render_eq hts.2.2.2.2.1 fun _ _ hname _ => hname.render]
    exact ⟨.dropIndex h, ht⟩
  | insert h =>
    simp only [List.forall_mem_cons, List.forall_mem_append] at hts
    rw [renderStmt, renderExprs_eq, h.render_eq hts.2.2.2.2.2.1 fun _ _ hvalue _ => hvalue.render]
    exact ⟨.insert h, ht⟩
  -- The statements with clauses keep the tokens of the clauses.
  | delete h =>
    simp only [List.forall_mem_cons] at hts
    rw [renderStmt, h.render hts.2.2.2]
    exact ⟨.delete h, ht⟩
  | update hclauses hwhere =>
    simp only [List.forall_mem_cons, List.forall_mem_append] at hts
    obtain ⟨hupdate, hname, hset, hts, hus⟩ := hts
    -- Only the assigned expressions may lose parentheses.
    obtain ⟨hderives, hspell⟩ := hclauses.render hts fun _ _ hclause => hclause.render
    rw [renderStmt, hwhere.render hus]
    refine ⟨.update hderives hwhere, ?_⟩
    simp only [List.forall_mem_cons, List.forall_mem_append]
    exact ⟨hupdate, hname, hset, hspell, hus⟩
  | select hitems hfrom hwhere horder =>
    simp only [List.forall_mem_cons, List.forall_mem_append] at hts
    obtain ⟨-, hts, -, -, hvs, hws⟩ := hts
    rw [renderStmt, hitems.render hts, hfrom.render, hwhere.render hvs, horder.render hws]
    exact ⟨.select hitems hfrom hwhere horder, ht⟩

/-- Rendering and parsing again is the identity on the statements that the grammar builds: each has
a text, every such text is scanned to its tokens, and the grammar gives them this statement only. -/
theorem render_parses (strtof : Bytes → Option (BitVec 32)) {statement : Statement}
    (h : Stmt ts statement) (ht : ∀ t ∈ ts, t.Spellable) :
    (∃ sql, Renders (renderStmt statement ++ [op ';']) sql) ∧
    (∀ scanner : Scanner, scanner.start = .initial →
      Renders (renderStmt statement ++ [op ';']) scanner.input →
      0 ∉ scanner.input ∧ scanAll strtof scanner = renderStmt statement ++ [op ';']) ∧
    ∀ other, Start (renderStmt statement ++ [op ';']) other ↔ other = statement := by
  obtain ⟨hderives, hspell⟩ := h.render ht
  have htokens : ∀ t ∈ renderStmt statement ++ [op ';'], t.Spellable := by
    rw [List.forall_mem_append]
    exact ⟨hspell, List.forall_mem_singleton.mpr (by decide : byte ';' ∈ Lex.singleOps)⟩
  refine ⟨exists_renders htokens, ?_, ?_⟩
  · intro scanner hstart hrenders
    exact ⟨hrenders.notMem_zero htokens, hrenders.scanAll hstart htokens⟩
  · intro other
    constructor
    · intro hother
      -- The generated parser reads both derivations in the same way.
      exact hother.unique (.mk hderives)
    · rintro rfl
      exact .mk hderives

/-- `UPDATE grades SET g = (f(g, max(-7))), note = 'it''s' WHERE grades.id >= 3`. -/
def gradesTokens : List Token :=
  [.keyword .update, .identifier (text "grades"), .keyword .set,
    .identifier (text "g"), op '=', op '(', .identifier (text "f"), op '(', .identifier (text "g"),
    op ',', .identifier (text "max"), op '(', .valueInt (-7), op ')', op ')', op ')', op ',',
    .identifier (text "note"), op '=', .valueString (text "it's"),
    .keyword .where_, .identifier (text "grades"), op '.', .identifier (text "id"), .geq,
    .valueInt 3]

/-- The statement of these tokens. -/
def gradesUpdate : Statement :=
  .update (text "grades")
    [some ⟨some ⟨[], text "g"⟩,
      .functionCall (text "f")
        [.col ⟨[], text "g"⟩, .functionCall (text "max") [.intLit (-7)] false] false⟩,
    some ⟨some ⟨[], text "note"⟩, .stringLit (text "it's")⟩]
    (.binary (some ⟨text "grades", text "id"⟩) .ge (.intLit 3))

/-- A text of the update, without the parentheses. -/
def gradesSql : Bytes :=
  text "Update grades SET g = f ( g , max ( -7 ) ) , note = 'it''s' where grades . id >= 3 ;"

/-- The grammar derives the update. -/
theorem stmt_gradesTokens : Stmt gradesTokens gradesUpdate := by
  have hseven : CommaList ScalarExpression [.valueInt (-7)] _ := .one (.value .int)
  have hmax : FunctionCall (.identifier (text "max") :: _) (.functionCall (text "max") _ _) :=
    .list hseven
  have hg : ColumnReference [.identifier (text "g")] _ := .plain
  have harguments : CommaList ScalarExpression _ _ :=
    .push (.one (.columnReference hg)) (.functionCall hmax)
  have hf : FunctionCall (.identifier (text "f") :: _) (.functionCall (text "f") _ _) :=
    .list harguments
  have hnote : ColumnReference [.identifier (text "note")] _ := .plain
  have hstring : Value [.valueString (text "it's")] _ := .string
  have hclauses : CommaList SetClause _ _ :=
    .push (.one (.mk hg (.parentheses (.functionCall hf)))) (.mk hnote (.value hstring))
  exact .update hclauses (.predicate (.comparison (.mk .qualified .ge (.value .int))))

/-- The text has the words of the rendered update. -/
theorem renders_gradesSql : Renders (renderStmt gradesUpdate ++ [op ';']) gradesSql := by
  refine ⟨["Update", "grades", "SET", "g", "=", "f", "(", "g", ",", "max", "(", "-7", ")", ")", ",",
    "note", "=", "'it''s'", "where", "grades", ".", "id", ">=", "3", ";"].map text, ?_, by decide⟩
  decide

/-- The update is read again from its text, without the parentheses around the call. -/
theorem render_parses_grades :
    (Stmt gradesTokens gradesUpdate ∧ ∀ t ∈ gradesTokens, t.Spellable) ∧
    scanAll (fun _ => none) ⟨.initial, gradesSql, ⟨1, 1, 1, 1⟩, ⟨none, 1, 1⟩⟩ =
      renderStmt gradesUpdate ++ [op ';'] ∧
    ∀ other, Start (renderStmt gradesUpdate ++ [op ';']) other ↔ other = gradesUpdate := by
  have ht : ∀ t ∈ gradesTokens, t.Spellable := by decide
  obtain ⟨-, hscan, honly⟩ := render_parses (fun _ => none) stmt_gradesTokens ht
  exact ⟨⟨stmt_gradesTokens, ht⟩, (hscan _ rfl renders_gradesSql).2, honly⟩

end Rucbase.Parser.Grammar
