import Rucbase.Parser.Outcome

/-!
# What stands in an accepted statement

The checks behind the parser rely on two facts about the texts in a syntax tree that the catalog and
the record format need, and that no code checks again: a name is not empty, and a string literal has
no NUL. Both come from the text. An identifier is a match of its rule, and the characters of a
literal are characters of the SQL text, in which `Parse` has refused NULs (`parse_spelt`).
-/

namespace Rucbase.Parser

open Lib Ast Lr Grammar

/-- The text of the token is one that the scanner takes from `input`. -/
def Token.Spelt (input : Bytes) : Token → Prop
  | .identifier name => name ≠ []
  | .valueString str => str ⊆ input
  | _ => True

theorem Token.Spelt.mono {token : Token} {input input' : Bytes} (h : token.Spelt input)
    (hsub : input ⊆ input') : token.Spelt input' := by
  cases token with
  | valueString str => exact fun c hc => hsub (h hc)
  | _ => exact h

/-! ## The scanner -/

theorem decodeQuotes_subset (str : Bytes) : decodeQuotes str ⊆ str := by
  induction str using decodeQuotes.induct with
  | case1 => exact fun _ h => h
  | case2 c => exact fun _ h => h
  | case3 c d rest hquotes ih =>
    rw [decodeQuotes, if_pos hquotes]
    exact List.cons_subset.mpr ⟨by simp, fun x hx => by simp [ih hx]⟩
  | case4 c d rest hquotes ih =>
    rw [decodeQuotes, if_neg hquotes]
    exact List.cons_subset_cons c ih

theorem decodeStringLiteral_subset (yytext : Bytes) : decodeStringLiteral yytext ⊆ yytext := by
  unfold decodeStringLiteral
  split_ifs with hshort
  · simp
  · intro c hc
    exact List.mem_of_mem_drop (List.dropLast_subset _ (decodeQuotes_subset _ hc))

theorem spelt_of_result {strtof : Bytes → Option (BitVec 32)} {action : Action} {c : UInt8}
    {w input : Bytes} {token : Token} {message : Option Bytes} (hsub : c :: w ⊆ input)
    (h : action.result strtof (c :: w) = some (token, message)) : token.Spelt input := by
  cases action with
  | identifier =>
    obtain ⟨rfl, -⟩ : Token.identifier (c :: w) = token ∧ none = message := by
      simpa [Action.result] using h
    exact List.cons_ne_nil c w
  | valueString =>
    obtain ⟨rfl, -⟩ :
        Token.valueString (decodeStringLiteral (c :: w)) = token ∧ none = message := by
      simpa [Action.result] using h
    exact fun b hb => hsub (decodeStringLiteral_subset _ hb)
  | valueInt | valueFloat =>
    dsimp only [Action.result] at h
    split at h
    all_goals
      obtain ⟨rfl, -⟩ := Prod.mk.inj (Option.some.inj h)
      trivial
  | beginComment | endComment | skip | echo => exact absurd h (by simp [Action.result])
  | _ =>
    obtain ⟨rfl, -⟩ := Prod.mk.inj (Option.some.inj h)
    trivial

section Scan

variable {strtof : Bytes → Option (BitVec 32)}

/-- A token is spelt in the input, of which its scanner leaves a part. -/
theorem spelt_yylex {scanner next : Scanner} {token : Token}
    (h : yylex strtof scanner = (some token, next)) :
    token.Spelt scanner.input ∧ next.input ⊆ scanner.input := by
  have hdrop {w rest : Bytes} {c : UInt8} : rest.drop w.length ⊆ c :: rest := fun b hb =>
    List.mem_cons_of_mem _ (List.mem_of_mem_drop hb)
  fun_induction yylex strtof scanner with
  | case1 scanner hinput =>
    unfold Scanner.atEnd at h
    split at h
    · cases (Prod.mk.inj h).1
    · obtain ⟨htoken, rfl⟩ := Prod.mk.inj h
      obtain rfl := Option.some.inj htoken
      exact ⟨trivial, by simp [hinput]⟩
  | case2 scanner c rest hinput w action hmatch _ found message hresult =>
    obtain ⟨htoken, rfl⟩ := Prod.mk.inj h
    obtain rfl := Option.some.inj htoken
    have htext : c :: w ⊆ c :: rest := (nextMatch_eq.mp hmatch).start.subset
    rw [Scanner.input_act, hinput]
    exact ⟨spelt_of_result htext hresult, hdrop⟩
  | case3 scanner c rest hinput w action _ _ _ ih =>
    obtain ⟨hspelt, hnext⟩ := ih h
    rw [Scanner.input_act] at hspelt hnext
    rw [hinput]
    exact ⟨hspelt.mono hdrop, List.Subset.trans hnext hdrop⟩

/-- All tokens of a text are spelt in it. -/
theorem spelt_scanAll (scanner : Scanner) :
    ∀ token ∈ scanAll strtof scanner, token.Spelt scanner.input := by
  fun_induction scanAll strtof scanner with
  | case1 => simp
  | case2 scanner token next hyylex ih =>
    obtain ⟨hspelt, hnext⟩ := spelt_yylex hyylex
    exact List.forall_mem_cons.mpr ⟨hspelt, fun t ht => (ih t ht).mono hnext⟩

end Scan

/-! ## The statement -/

/-- The texts of a CREATE TABLE or an INSERT are ones that the scanner takes from `input`. -/
def SpeltStatement (input : Bytes) : Statement → Prop
  | .createTable tabName fields => tabName ≠ [] ∧ ∀ field ∈ fields, field.colName ≠ []
  | .insert _ values => ∀ str, Expr.stringLit str ∈ values → str ⊆ input
  | _ => True

theorem CommaList.forall_of_tokens {α : Type} {item : List Token → α → Prop} {P : Token → Prop}
    {Q : α → Prop} (hitem : ∀ ts a, item ts a → (∀ t ∈ ts, P t) → Q a) {ts : List Token}
    {as : List α} (h : CommaList item ts as) (hts : ∀ t ∈ ts, P t) : ∀ a ∈ as, Q a := by
  induction h with
  | one ha =>
    simpa using hitem _ _ ha hts
  | push _ ha ih =>
    simp only [List.forall_mem_append, List.forall_mem_cons] at hts
    intro a hmem
    rcases List.mem_append.mp hmem with hmem | hmem
    · exact ih hts.1 a hmem
    · rw [List.mem_singleton.mp hmem]
      exact hitem _ _ ha hts.2.2

theorem spelt_columnDefinition {input : Bytes} (ts : List Token) (field : ColDef)
    (h : ColumnDefinition ts field) (hts : ∀ t ∈ ts, t.Spelt input) : field.colName ≠ [] := by
  cases h with
  | mk _ => exact (List.forall_mem_cons.mp hts).1

theorem spelt_value {input : Bytes} (ts : List Token) (e : Expr) (h : Grammar.Value ts e)
    (hts : ∀ t ∈ ts, t.Spelt input) : ∀ str, e = .stringLit str → str ⊆ input := by
  rintro str rfl
  cases h with
  | string => exact (List.forall_mem_cons.mp hts).1

theorem spelt_start {input : Bytes} {ts : List Token} {statement : Statement}
    (h : Start ts statement) (hts : ∀ t ∈ ts, t.Spelt input) : SpeltStatement input statement := by
  cases h with
  | mk hstmt =>
    replace hts := (List.forall_mem_append.mp hts).1
    cases hstmt with
    | createTable hfields =>
      simp only [List.forall_mem_cons, List.forall_mem_append] at hts
      exact ⟨hts.2.2.1,
        CommaList.forall_of_tokens spelt_columnDefinition hfields hts.2.2.2.2.1⟩
    | insert hvalues =>
      simp only [List.forall_mem_cons, List.forall_mem_append] at hts
      have hall := CommaList.forall_of_tokens spelt_value hvalues hts.2.2.2.2.2.1
      exact fun str hmem => hall _ hmem str rfl
    | _ => trivial

/-- The names of an accepted CREATE TABLE are not empty, and the strings of an accepted INSERT have
no NULs. -/
theorem parse_spelt {syntaxError : List YyItem → Option Token → Bytes}
    {strtof : Bytes → Option (BitVec 32)} {sql : Bytes} {statement : Statement}
    (h : (parse strtof (yyparse syntaxError) .initial sql).1 = ⟨statement, none⟩) :
    SpeltStatement sql statement ∧ 0 ∉ sql := by
  constructor
  · rcases parse_cases sql h.symm with ⟨herror, -⟩ | ⟨-, hstart⟩ | ⟨herror, -⟩
    · exact absurd rfl herror
    · exact spelt_start hstart (spelt_scanAll (Scanner.fresh sql))
    · exact absurd rfl herror
  · unfold parse at h
    split at h
    · simp at h
    · next hfind => exact findIdx?_eq_none.mp hfind

end Rucbase.Parser
