import Rucbase.Lib.Ascii
import Rucbase.Lib.Regex

/-!
# The lexer

`src/parser/lex.l`: the rules of the two start conditions as regular expressions with their actions,
and the scanner that Flex generates from them. The scanner takes the longest match, and the first
rule among those that match it. If no rule matched, it would echo a byte to its output; the rules
leave no byte to that (`munch_rules`).

`lexemes` cuts a whole text into its matches. `yylex` is one call of the scanner, which goes on
until an action returns, and keeps the source location and the first error of the parse.
-/

namespace Rucbase.Parser

open Lib

/-! ## Tokens -/

/-- The keywords, in the order of their rules. -/
inductive Keyword where
  | show_
  | database
  | txnBegin
  | txnCommit
  | txnAbort
  | txnRollback
  | tables
  | create
  | table
  | drop
  | desc
  | insert
  | into
  | values
  | delete
  | from_
  | where_
  | update
  | set
  | select
  | int
  | char
  | float
  | index
  | unique
  | and
  | join
  | help
  | order
  | by_
  | asc
  deriving DecidableEq, Repr

/-- The text of a keyword's rule. -/
def Keyword.pattern : Keyword → Bytes
  | show_ => text "SHOW"
  | database => text "DATABASE"
  | txnBegin => text "BEGIN"
  | txnCommit => text "COMMIT"
  | txnAbort => text "ABORT"
  | txnRollback => text "ROLLBACK"
  | tables => text "TABLES"
  | create => text "CREATE"
  | table => text "TABLE"
  | drop => text "DROP"
  | desc => text "DESC"
  | insert => text "INSERT"
  | into => text "INTO"
  | values => text "VALUES"
  | delete => text "DELETE"
  | from_ => text "FROM"
  | where_ => text "WHERE"
  | update => text "UPDATE"
  | set => text "SET"
  | select => text "SELECT"
  | int => text "INT"
  | char => text "CHAR"
  | float => text "FLOAT"
  | index => text "INDEX"
  | unique => text "UNIQUE"
  | and => text "AND"
  | join => text "JOIN"
  | help => text "HELP"
  | order => text "ORDER"
  | by_ => text "BY"
  | asc => text "ASC"

/-- All keywords, in the order of their rules. -/
def keywords : List Keyword :=
  [.show_, .database, .txnBegin, .txnCommit, .txnAbort, .txnRollback, .tables, .create, .table,
    .drop, .desc, .insert, .into, .values, .delete, .from_, .where_, .update, .set, .select, .int,
    .char, .float, .index, .unique, .and, .join, .help, .order, .by_, .asc]

/-- A token with its semantic value. A single character is its own token. -/
inductive Token where
  | keyword (keyword : Keyword)
  | geq
  | leq
  | neq
  | op (c : UInt8)
  | identifier (text : Bytes)
  | valueInt (integer : BitVec 32)
  | valueFloat (floatingPoint : BitVec 32)
  | valueString (text : Bytes)
  | invalid
  deriving DecidableEq, Repr

/-! ## Literals -/

/-- The number that decimal digits spell. -/
def digitsValue (digits : Bytes) : ℕ := digits.foldl (fun n d => n * 10 + (d.toNat - 48)) 0

/-- `std::from_chars` for `int` on a whole text: an optional minus sign and digits, if the number is
one of the type. -/
def fromChars (text : Bytes) : Option (BitVec 32) :=
  let (negative, digits) := match text with
    | [] => (false, [])
    | c :: rest => if c = byte '-' then (true, rest) else (false, c :: rest)
  let value : ℤ := if negative then -digitsValue digits else digitsValue digits
  if digits ≠ [] ∧ digits.all isDigit ∧ -2^31 ≤ value ∧ value < 2^31 then
    some (BitVec.ofInt 32 value)
  else none

/-- `ParseIntegerLiteral`. -/
def parseIntegerLiteral : Bytes → Option (BitVec 32)
  | [] => none
  | c :: rest => if c = byte '+' then fromChars rest else fromChars (c :: rest)

/-- The loop of `DecodeStringLiteral`, on what stands between the quotes. -/
def decodeQuotes : Bytes → Bytes
  | [] => []
  | [c] => [c]
  | c :: d :: rest =>
    if c = byte '\'' ∧ d = byte '\'' then d :: decodeQuotes rest else c :: decodeQuotes (d :: rest)

/-- `DecodeStringLiteral`. -/
def decodeStringLiteral (text : Bytes) : Bytes :=
  if text.length < 2 then [] else decodeQuotes (text.drop 1).dropLast

/-! ## Rules -/

/-- The start conditions. -/
inductive StartCondition where
  | initial
  | comment
  deriving DecidableEq, Repr

/-- The actions of the rules. -/
inductive Action where
  | beginComment
  | endComment
  | skip
  | keyword (keyword : Keyword)
  | geq
  | leq
  | neq
  | singleOp
  | identifier
  | valueInt
  | valueFloat
  | valueString
  | unterminatedString
  | unexpectedCharacter
  /-- What the scanner does where no rule matches. -/
  | echo
  deriving DecidableEq, Repr

namespace Lex

/-- A quoted text. -/
def quoted (pattern : Bytes) : Regex UInt8 := .word (pattern.map fun c d => d == c)

/-- A quoted text of letters, which `%option caseless` matches in either case. -/
def caseless (pattern : Bytes) : Regex UInt8 :=
  .word (pattern.map fun c d => toLower d == toLower c)

/-- A class `[^c]` of all bytes but one. -/
def allBut (c : UInt8) : Regex UInt8 := .chars fun d => d != c

/-- `.`. -/
def dot : Regex UInt8 := allBut (byte '\n')

/-- `white_space`. -/
def whiteSpace : Regex UInt8 := .plus (.chars fun c => c == byte ' ' || c == byte '\t')

/-- `new_line`. -/
def newLine : Regex UInt8 :=
  .alt (quoted [byte '\r']) (.alt (quoted [byte '\n']) (quoted [byte '\r', byte '\n']))

/-- `sign`. -/
def sign : Regex UInt8 := .chars fun c => c == byte '+' || c == byte '-'

/-- `identifier`. -/
def identifier : Regex UInt8 := .seq (.chars isAlpha) (.star (.chars isIdentChar))

/-- `value_int`. -/
def valueInt : Regex UInt8 := .seq (.opt sign) (.plus (.chars isDigit))

/-- `value_float`. -/
def valueFloat : Regex UInt8 :=
  .seq valueInt (.seq (quoted [byte '.']) (.opt (.plus (.chars isDigit))))

/-- `([^']|'')*`. -/
def stringBody : Regex UInt8 := .star (.alt (allBut (byte '\'')) (quoted [byte '\'', byte '\'']))

/-- `value_string`. -/
def valueString : Regex UInt8 :=
  .seq (quoted [byte '\'']) (.seq stringBody (quoted [byte '\'']))

/-- `'([^']|'')*`. -/
def unterminatedString : Regex UInt8 := .seq (quoted [byte '\'']) stringBody

/-- The characters of `single_op`. -/
def singleOps : Bytes := text ";(),*=><."

/-- `single_op`. -/
def singleOp : Regex UInt8 := .chars fun c => singleOps.contains c

end Lex

/-- The rules of the start condition `INITIAL`. -/
def initialRules : List (Regex UInt8 × Action) :=
  [(Lex.quoted (text "/*"), .beginComment),
    (.seq (Lex.quoted (text "--")) (.star Lex.dot), .skip),
    (Lex.whiteSpace, .skip),
    (Lex.newLine, .skip)] ++
  keywords.map (fun keyword => (Lex.caseless keyword.pattern, .keyword keyword)) ++
  [(Lex.quoted (text ">="), .geq),
    (Lex.quoted (text "<="), .leq),
    (Lex.quoted (text "!="), .neq),
    (Lex.quoted (text "<>"), .neq),
    (Lex.singleOp, .singleOp),
    (Lex.identifier, .identifier),
    (Lex.valueInt, .valueInt),
    (Lex.valueFloat, .valueFloat),
    (Lex.valueString, .valueString),
    (Lex.unterminatedString, .unterminatedString),
    (Lex.dot, .unexpectedCharacter)]

/-- The rules of the start condition `STATE_COMMENT`, which is an exclusive one. -/
def commentRules : List (Regex UInt8 × Action) :=
  [(Lex.quoted (text "*/"), .endComment),
    (Lex.allBut (byte '*'), .skip),
    (Lex.quoted [byte '*'], .skip)]

/-- The rules of a start condition. -/
def rules : StartCondition → List (Regex UInt8 × Action)
  | .initial => initialRules
  | .comment => commentRules

/-! ## Lexemes -/

/-- The start condition behind an action. -/
def Action.next (start : StartCondition) : Action → StartCondition
  | beginComment => .comment
  | endComment => .initial
  | _ => start

/-- What the scanner matches at the byte `c`: the rest of `yytext`, and the action. -/
def nextMatch (start : StartCondition) (c : UInt8) (rest : Bytes) : Bytes × Action :=
  match Regex.munch (rules start) (c :: rest) with
  | some (_ :: w, action) => (w, action)
  | _ => ([], .echo)

/-- A match of the scanner. -/
structure Lexeme where
  yytext : Bytes
  action : Action
  deriving DecidableEq, Repr

/-- The matches of a whole text. -/
def lexemes (start : StartCondition) : Bytes → List Lexeme
  | [] => []
  | c :: rest =>
    let (w, action) := nextMatch start c rest
    ⟨c :: w, action⟩ :: lexemes (action.next start) (rest.drop w.length)
  termination_by input => input.length
  decreasing_by
    simp only [List.length_drop, List.length_cons]
    omega

/-! ## The scanner -/

/-- `YYLTYPE`. -/
structure Location where
  firstLine : Int32
  firstColumn : Int32
  lastLine : Int32
  lastColumn : Int32
  deriving DecidableEq, Repr

/-- `YY_USER_ACTION`. The counters wrap around where the source leaves their overflow undefined. -/
def Location.advance (yylloc : Location) (yytext : Bytes) : Location :=
  (yytext.takeWhile (· ≠ 0)).foldl
    (fun loc c =>
      if c = byte '\n' then { loc with lastLine := loc.lastLine + 1, lastColumn := 1 }
      else { loc with lastColumn := loc.lastColumn + 1 })
    { yylloc with firstLine := yylloc.lastLine, firstColumn := yylloc.lastColumn }

/-- `ParseError`. -/
structure ParseError where
  line : Int32
  column : Int32
  message : Bytes
  deriving DecidableEq, Repr

/-- `ParseContext`, as far as the scanner knows it. -/
structure ParseContext where
  error : Option ParseError
  blockCommentLine : Int32
  blockCommentColumn : Int32
  deriving DecidableEq, Repr

/-- `RecordError`: only the first error is kept. -/
def ParseContext.recordError (context : ParseContext) (line column : Int32) (message : Bytes) :
    ParseContext :=
  { context with error := context.error.or (some ⟨line, column, message⟩) }

/-- What a call of the scanner works on. The start condition is a global variable of the generated
code; the rest belongs to one parse. -/
structure Scanner where
  start : StartCondition
  input : Bytes
  yylloc : Location
  context : ParseContext
  deriving DecidableEq, Repr

/-- The scanner records an error where the current match starts. -/
def Scanner.recordError (scanner : Scanner) (message : Bytes) : Scanner :=
  { scanner with context :=
      scanner.context.recordError scanner.yylloc.firstLine scanner.yylloc.firstColumn message }

section Yylex

-- `std::strtof` of a floating-point literal, unless it is out of range.
variable (strtof : Bytes → Option (BitVec 32))

/-- What an action returns on its match: nothing if it lets the scanner go on, and otherwise a token
and the message of the error that it records. -/
def Action.result (yytext : Bytes) : Action → Option (Token × Option Bytes)
  | beginComment => none
  | endComment => none
  | skip => none
  | echo => none
  | keyword k => some (.keyword k, none)
  | geq => some (.geq, none)
  | leq => some (.leq, none)
  | neq => some (.neq, none)
  | singleOp => some (.op (yytext.headD 0), none)
  | identifier => some (.identifier yytext, none)
  | valueInt =>
    match parseIntegerLiteral yytext with
    | some integer => some (.valueInt integer, none)
    | none => some (.invalid, some (text "integer literal is out of range"))
  | valueFloat =>
    match strtof yytext with
    | some floatingPoint => some (.valueFloat floatingPoint, none)
    | none => some (.invalid, some (text "floating-point literal is out of range"))
  | valueString => some (.valueString (decodeStringLiteral yytext), none)
  | unterminatedString => some (.invalid, some (text "unterminated string literal"))
  | unexpectedCharacter => some (.invalid, some (text "unexpected character"))

/-- The scanner behind a match: the user action, and what the rule's own action does to the start
condition and the context. -/
def Scanner.act (scanner : Scanner) (yytext rest : Bytes) (action : Action) : Scanner :=
  let scanner := { scanner with
    start := action.next scanner.start
    input := rest
    yylloc := scanner.yylloc.advance yytext }
  match action with
  | .beginComment => { scanner with context :=
      { scanner.context with
        blockCommentLine := scanner.yylloc.firstLine
        blockCommentColumn := scanner.yylloc.firstColumn } }
  | _ =>
    match action.result strtof yytext with
    | some (_, some message) => scanner.recordError message
    | _ => scanner

/-- The `<<EOF>>` rules. The end of the input is the token 0. -/
def Scanner.atEnd (scanner : Scanner) : Option Token × Scanner :=
  match scanner.start with
  | .initial => (none, scanner)
  | .comment =>
    (some .invalid,
      { scanner with
        start := .initial
        context := scanner.context.recordError scanner.context.blockCommentLine
          scanner.context.blockCommentColumn (text "unterminated block comment") })

@[simp]
theorem Scanner.input_act (scanner : Scanner) (yytext rest : Bytes) (action : Action) :
    (scanner.act strtof yytext rest action).input = rest := by
  unfold Scanner.act
  split
  · rfl
  · split <;> rfl

@[simp]
theorem Scanner.start_act (scanner : Scanner) (yytext rest : Bytes) (action : Action) :
    (scanner.act strtof yytext rest action).start = action.next scanner.start := by
  unfold Scanner.act
  split
  · rfl
  · split <;> rfl

/-- `yylex`. -/
def yylex (scanner : Scanner) : Option Token × Scanner :=
  match _hinput : scanner.input with
  | [] => scanner.atEnd
  | c :: rest =>
    let (w, action) := nextMatch scanner.start c rest
    let next := scanner.act strtof (c :: w) (rest.drop w.length) action
    match action.result strtof (c :: w) with
    | some (token, _) => (some token, next)
    | none => yylex next
  termination_by scanner.input.length
  decreasing_by
    simp only [_hinput, Scanner.input_act, List.length_drop, List.length_cons]
    omega

theorem yylex_nil {scanner : Scanner} (h : scanner.input = []) :
    yylex strtof scanner = scanner.atEnd := by
  rw [yylex]
  split
  · rfl
  · simp_all

theorem yylex_cons {scanner : Scanner} {c : UInt8} {rest w : Bytes} {action : Action}
    (h : scanner.input = c :: rest) (hmatch : nextMatch scanner.start c rest = (w, action)) :
    yylex strtof scanner =
      match action.result strtof (c :: w) with
      | some (token, _) =>
        (some token, scanner.act strtof (c :: w) (rest.drop w.length) action)
      | none => yylex strtof (scanner.act strtof (c :: w) (rest.drop w.length) action) := by
  rw [yylex]
  split
  · simp_all
  · rename_i c' rest' h'
    obtain ⟨rfl, rfl⟩ := List.cons.inj (h.symm.trans h')
    simp only [hmatch]

end Yylex

end Rucbase.Parser
