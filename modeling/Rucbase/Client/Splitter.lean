import Rucbase.Parser.Words

/-!
# Splitting the input of the client

`TakeCompleteStatements` (`rucbase_client/main.cpp`) cuts what the user has typed at the semicolons
that end statements. It goes through the text byte by byte, looks one byte ahead, and keeps four
flags: whether it is in a string, in a line comment or in a block comment, and whether the current
piece holds more than white space and comments.

The lexer of the server cuts the same text into the matches of regular expressions. `Client/Passing`
relates the two on one match, and `Client/Agreement` on a whole text.
-/

namespace Rucbase.Client

open Lib Rucbase.Parser

/-! ## The client -/

/-- `std::isspace` in the C locale. -/
def isSpace (c : UInt8) : Bool := c == 32 || (9 ≤ c && c ≤ 13)

/-- The flags of `TakeCompleteStatements`. -/
structure Flags where
  inString : Bool
  inLineComment : Bool
  inBlockComment : Bool
  tailHasSql : Bool
  deriving DecidableEq, Repr

/-- What a round of the loop does besides setting the flags. -/
inductive Event where
  | next
  /-- `++index` in the body of the loop. -/
  | skipNext
  /-- A semicolon ends the piece. -/
  | terminator
  deriving DecidableEq, Repr

/-- A round of the loop, on the byte `ch` and the byte behind it. -/
def Flags.step (flags : Flags) (ch next : UInt8) : Flags × Event :=
  if flags.inLineComment then
    (if ch = byte '\n' then { flags with inLineComment := false } else flags, .next)
  else if flags.inBlockComment then
    if ch = byte '*' ∧ next = byte '/' then ({ flags with inBlockComment := false }, .skipNext)
    else (flags, .next)
  else if flags.inString then
    if ch = byte '\'' then
      -- A doubled quote is a quote inside the string.
      if next = byte '\'' then (flags, .skipNext) else ({ flags with inString := false }, .next)
    else (flags, .next)
  else if ch = byte '-' ∧ next = byte '-' then ({ flags with inLineComment := true }, .skipNext)
  else if ch = byte '/' ∧ next = byte '*' then ({ flags with inBlockComment := true }, .skipNext)
  -- A string is something to send; a comment is not.
  else if ch = byte '\'' then ({ flags with inString := true, tailHasSql := true }, .next)
  else if ch = byte ';' then ({ flags with tailHasSql := false }, .terminator)
  else if !isSpace ch then ({ flags with tailHasSql := true }, .next)
  else (flags, .next)

/-- The variables of `TakeCompleteStatements`. The positions at which a semicolon has ended a piece
are noted beside them. -/
structure Splitter where
  flags : Flags
  statements : List Bytes
  statementStart : ℕ
  terminators : List ℕ
  deriving DecidableEq, Repr

/-- The loop of `TakeCompleteStatements`: `rest` is what `input` holds from `index` on. -/
def Splitter.run (input : Bytes) (splitter : Splitter) (index : ℕ) : Bytes → Splitter
  | [] => splitter
  | ch :: rest =>
    match splitter.flags.step ch (rest.headD 0) with
    | (flags, .next) => run input { splitter with flags := flags } (index + 1) rest
    | (flags, .skipNext) => run input { splitter with flags := flags } (index + 2) rest.tail
    | (flags, .terminator) =>
      let statements :=
        if splitter.flags.tailHasSql then
          -- The semicolon belongs to the statement. A piece without SQL is dropped.
          splitter.statements ++
            [slice input splitter.statementStart (index - splitter.statementStart + 1)]
        else splitter.statements
      run input ⟨flags, statements, index + 1, splitter.terminators ++ [index]⟩ (index + 1) rest
  termination_by rest => rest.length
  decreasing_by all_goals simp; try omega

/-- The variables at the start. -/
def Splitter.initial : Splitter := ⟨⟨false, false, false, false⟩, [], 0, []⟩

/-- The variables behind the loop. -/
def split (input : Bytes) : Splitter := Splitter.run input .initial 0 input

/-- `TakeCompleteStatements`: the statements, and what remains of the input. -/
def takeCompleteStatements (input : Bytes) : List Bytes × Bytes :=
  let splitter := split input
  let input := input.drop splitter.statementStart
  -- A tail that holds no SQL is dropped too, unless a comment is still open in it.
  (splitter.statements,
    if !splitter.flags.tailHasSql && !splitter.flags.inBlockComment then [] else input)

end Rucbase.Client
