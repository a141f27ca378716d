import Rucbase.Parser.Ast
import Rucbase.Parser.Words

/-!
# Parsing one text after another

`Parse` of `src/parser/parser.cpp`. The scanner that Flex generates keeps its start condition in a
global variable, so a call could find it where an earlier call has left it. Everything else is local
to a call: the buffer, the context, and the locations and values of the generated parser.

The parser may stop at any token. So what matters is the start condition whenever `yylex` returns,
and that is always `INITIAL` (`start_yylex`): inside a comment no rule returns, and at the end of
the input the `<<EOF>>` rule goes back. `parse_history` follows for any sequence of texts.

The tables of the generated parser are not modelled. `Yyparse` is any automaton that reads one token
at a time, with its location, until it stops.
-/

namespace Rucbase.Parser

open Lib Regex

/-! ## The generated parser -/

/-- What `yyparse` has done when it returns. -/
structure Exit where
  status : ℤ
  /-- The statement in the context. -/
  statement : Ast.Statement
  /-- The error that `yyerror` records. -/
  yyerror : Option ParseError

/-- A parser that reads one token at a time. It stops at the end of the input, if not before. -/
structure Yyparse where
  State : Type
  initial : State
  step : State → Token → Location → State ⊕ Exit
  finish : State → Location → Exit

/-- How much a scanner may still return. -/
def Scanner.measure (scanner : Scanner) : ℕ :=
  2 * scanner.input.length + if scanner.start = .comment then 1 else 0

section Parse

variable (strtof : Bytes → Option (BitVec 32))

/-- A rule that returns is one of `INITIAL`, and stays there. -/
theorem start_of_result {start : StartCondition} {c : UInt8} {rest w : Bytes} {action : Action}
    {result : Token × Option Bytes} (hmatch : nextMatch start c rest = (w, action))
    (h : action.result strtof (c :: w) = some result) : action.next start = .initial := by
  have hmunch := nextMatch_eq.mp hmatch
  obtain ⟨before, r, after, hrules, -, -⟩ := hmunch.mem
  have hrule : (r, action) ∈ rules start := by simp [hrules]
  cases start with
  | initial =>
    cases action with
    | beginComment => exact absurd h (by simp [Action.result])
    | _ => rfl
  | comment =>
    simp only [rules, commentRules, List.mem_cons, Prod.mk.injEq, List.not_mem_nil, or_false]
      at hrule
    rcases hrule with ⟨-, rfl⟩ | ⟨-, rfl⟩ | ⟨-, rfl⟩ <;> exact absurd h (by simp [Action.result])

theorem start_atEnd (scanner : Scanner) : scanner.atEnd.2.start = .initial := by
  unfold Scanner.atEnd
  split
  · assumption
  · rfl

/-- Whenever the scanner returns, its start condition is `INITIAL`. -/
theorem start_yylex (scanner : Scanner) : (yylex strtof scanner).2.start = .initial := by
  fun_induction yylex strtof scanner with
  | case1 scanner => exact start_atEnd scanner
  | case2 scanner c rest _ w action hmatch _ token message hresult =>
    exact (Scanner.start_act ..).trans (start_of_result strtof hmatch hresult)
  | case3 _ _ _ _ _ _ _ _ _ ih => exact ih

/-- A match takes something from the scanner. -/
theorem measure_act {scanner : Scanner} {c : UInt8} {rest w : Bytes} {action : Action}
    (hinput : scanner.input = c :: rest) :
    (scanner.act strtof (c :: w) (rest.drop w.length) action).measure < scanner.measure := by
  unfold Scanner.measure
  rw [Scanner.input_act, List.length_drop, hinput, List.length_cons]
  split <;> split <;> omega

/-- Every token takes something from the scanner. -/
theorem measure_yylex {scanner next : Scanner} {token : Token}
    (h : yylex strtof scanner = (some token, next)) : next.measure < scanner.measure := by
  fun_induction yylex strtof scanner with
  | case1 scanner =>
    -- At the end, only an open comment makes a token.
    unfold Scanner.atEnd at h
    cases hstart : scanner.start with
    | initial => simp [hstart] at h
    | comment =>
      simp only [hstart, Prod.mk.injEq] at h
      obtain ⟨-, rfl⟩ := h
      simp [Scanner.measure, hstart]
  | case2 scanner c rest hinput =>
    obtain ⟨-, rfl⟩ := Prod.mk.inj h
    exact measure_act strtof hinput
  | case3 scanner c rest hinput w action _ _ _ ih => exact (ih h).trans (measure_act strtof hinput)

/-- `yyparse`: the parser asks the scanner for tokens until it stops. -/
def Yyparse.run (parser : Yyparse) (state : parser.State) (scanner : Scanner) : Exit × Scanner :=
  match _h : yylex strtof scanner with
  | (none, next) => (parser.finish state next.yylloc, next)
  | (some token, next) =>
    match parser.step state token next.yylloc with
    | .inl state => parser.run state next
    | .inr exit => (exit, next)
  termination_by scanner.measure
  decreasing_by exact measure_yylex strtof _h

/-! ## Parse -/

/-- `ParseResult`. -/
structure ParseResult where
  statement : Ast.Statement
  error : Option ParseError

/-- The body of the loop of `ErrorAtOffset`. The counters wrap around where the source leaves their
overflow undefined. -/
def countByte (counters : Int32 × Int32) (c : UInt8) : Int32 × Int32 :=
  let (line, column) := counters
  if c = byte '\n' then (line + 1, 1) else (line, column + 1)

/-- `ErrorAtOffset`. -/
def errorAtOffset (sql : Bytes) (offset : ℕ) (message : Bytes) : ParseError :=
  let (line, column) := (sql.take offset).foldl countByte (1, 1)
  ⟨line, column, message⟩

/-- Whether a statement pointer is null. -/
def isNull : Ast.Statement → Bool
  | .null => true
  | _ => false

/-- `Parse`, with the start condition that it finds and the one that it leaves. -/
def parse (parser : Yyparse) (start : StartCondition) (sql : Bytes) :
    ParseResult × StartCondition :=
  match sql.findIdx? (· == 0) with
  | some nul =>
    (⟨.null, some (errorAtOffset sql nul (text "NUL byte is not allowed in SQL"))⟩, start)
  | none =>
    if 2^31 - 1 < sql.length then
      (⟨.null, some ⟨1, 1, text "SQL statement is too large"⟩⟩, start)
    else
      let scanner : Scanner := ⟨start, sql, ⟨1, 1, 1, 1⟩, ⟨none, 1, 1⟩⟩
      let (exit, scanner) := parser.run strtof parser.initial scanner
      let error := scanner.context.error.or exit.yyerror
      let error := if exit.status ≠ 0 ∧ error = none then
          some ⟨1, 1, text "syntax error"⟩ else error
      let error := if exit.status = 0 ∧ isNull exit.statement = true ∧ error = none then
          some ⟨1, 1, text "empty SQL statement"⟩ else error
      (⟨exit.statement, error⟩, scanner.start)

/-- One call of `Parse` after another. -/
def parseAll (parser : Yyparse) (start : StartCondition) : List Bytes → List ParseResult
  | [] => []
  | sql :: texts =>
    let (result, start) := parse strtof parser start sql
    result :: parseAll parser start texts

variable {strtof}

theorem Yyparse.run_none {parser : Yyparse} {state : parser.State} {scanner next : Scanner}
    (h : yylex strtof scanner = (none, next)) :
    parser.run strtof state scanner = (parser.finish state next.yylloc, next) := by
  rw [Yyparse.run]
  split <;> simp_all

theorem Yyparse.run_some {parser : Yyparse} {state : parser.State} {scanner next : Scanner}
    {token : Token} (h : yylex strtof scanner = (some token, next)) :
    parser.run strtof state scanner =
      match parser.step state token next.yylloc with
      | .inl state => parser.run strtof state next
      | .inr exit => (exit, next) := by
  rw [Yyparse.run]
  split
  · simp_all
  case h_2 token' next' h' =>
    obtain ⟨rfl, rfl⟩ : token = token' ∧ next = next' := by simpa using h.symm.trans h'
    rfl

theorem Yyparse.start_run (parser : Yyparse) (state : parser.State) (scanner : Scanner) :
    (parser.run strtof state scanner).2.start = .initial := by
  have hstart {scanner next : Scanner} {token : Option Token}
      (h : yylex strtof scanner = (token, next)) : next.start = .initial :=
    (congrArg (·.2.start) h).symm.trans (start_yylex strtof scanner)
  fun_induction Yyparse.run strtof parser state scanner with
  | case1 _ _ _ hyylex => exact hstart hyylex
  | case2 _ _ _ _ _ _ _ ih => exact ih
  | case3 _ _ _ _ hyylex => exact hstart hyylex

/-- `Parse` leaves the start condition as it is before the first call. -/
theorem start_parse (parser : Yyparse) (sql : Bytes) :
    (parse strtof parser .initial sql).2 = .initial := by
  unfold parse
  split
  · rfl
  · split
    · rfl
    · exact parser.start_run _ _

/-- Each result is that of the text as the first one: the scanner returns in `INITIAL` only, and its
rules match at every byte in each start condition. -/
theorem parse_history (parser : Yyparse) (texts : List Bytes) :
    (∀ scanner, (yylex strtof scanner).2.start = .initial) ∧
    (∀ start c rest, ∃ w action, munch (rules start) (c :: rest) = some (c :: w, action)) ∧
    parseAll strtof parser .initial texts =
      texts.map fun sql => (parse strtof parser .initial sql).1 := by
  refine ⟨start_yylex strtof, munch_rules, ?_⟩
  induction texts with
  | nil => rfl
  | cons sql texts ih =>
    rw [parseAll, List.map_cons, ← ih]
    simp only [start_parse]

end Parse

end Rucbase.Parser
