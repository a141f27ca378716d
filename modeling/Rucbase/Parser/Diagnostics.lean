import Mathlib.Data.List.TakeWhile
import Rucbase.Parser.Parse

/-!
# Where an error is

A place in a text is a line and a column. `YY_USER_ACTION` moves it along with each match of the
scanner, `ErrorAtOffset` counts it from the start of the text, and `FormatError` goes back from a
place to the line it is in, to print the line and a caret under the place (`src/parser/lex.l`,
`src/parser/parser.cpp`). All three agree: see `location_eq_errorAtOffset` and
`formatError_errorAtOffset`.
-/

namespace Rucbase.Parser

open Lib

/-! ## Printing an error -/

/-- The loop of `FindLine`: the text behind so many line breaks. -/
def skipLines : ℕ → Bytes → Option Bytes
  | 0, sql => some sql
  | count + 1, sql =>
    match sql.findIdx? (· == byte '\n') with
    | none => none
    | some newline => skipLines count (sql.drop (newline + 1))

/-- `FindLine`. -/
def findLine (sql : Bytes) (targetLine : Int32) : Option Bytes :=
  if targetLine < 1 then none
  else
    match skipLines (targetLine.toInt - 1).toNat sql with
    | none => none
    | some rest =>
      let size := (rest.findIdx? (· == byte '\n')).getD rest.length
      let size := if 0 < size ∧ rest[size - 1]? = some (byte '\r') then size - 1 else size
      some (rest.take size)

/-- What stands above the caret in place of a byte of the line. -/
def caretSpace (c : UInt8) : UInt8 := if c = byte '\t' then byte '\t' else byte ' '

/-- The first line that `FormatError` prints. -/
def errorHeader (line column : Int32) (message : Bytes) : Bytes :=
  text "Parser Error at line " ++ text (toString line) ++ text " column " ++
    text (toString column) ++ text ": " ++
    (if message = [] then text "syntax error" else message) ++ text "\n"

/-- `FormatError`. -/
def formatError (sql : Bytes) (error : ParseError) : Bytes :=
  let lineNumber := max error.line 1
  let columnNumber := max error.column 1
  let header := errorHeader lineNumber columnNumber error.message
  match findLine sql lineNumber with
  | none => header
  | some sourceLine =>
    let caretOffset := min (columnNumber.toInt - 1).toNat sourceLine.length
    header ++ sourceLine ++ text "\n" ++ (sourceLine.take caretOffset).map caretSpace ++ text "^\n"

/-! ## Places -/

/-- The place behind a byte. -/
def nextPlace (place : ℕ × ℕ) (c : UInt8) : ℕ × ℕ :=
  if c = byte '\n' then (place.1 + 1, 1) else (place.1, place.2 + 1)

/-- The place behind a text. -/
def placeBehind (sql : Bytes) : ℕ × ℕ := sql.foldl nextPlace (1, 1)

/-- A place in the counters of the source. -/
def counters (place : ℕ × ℕ) : Int32 × Int32 := (.ofNat place.1, .ofNat place.2)

/-- The counters follow the place. -/
theorem foldl_countByte (w : Bytes) (place : ℕ × ℕ) :
    w.foldl countByte (counters place) = counters (w.foldl nextPlace place) := by
  induction w generalizing place with
  | nil => rfl
  | cons c w ih =>
    have hbyte : countByte (counters place) c = counters (nextPlace place c) := by
      by_cases hc : c = byte '\n'
      · simp only [countByte, nextPlace, counters, if_pos hc]
        exact Prod.ext (Int32.ofNat_add _ _).symm rfl
      · simp only [countByte, nextPlace, counters, if_neg hc]
        exact Prod.ext rfl (Int32.ofNat_add _ _).symm
    rw [List.foldl_cons, hbyte, ih, List.foldl_cons]

/-- `ErrorAtOffset` counts the place behind the bytes before the offset. -/
theorem errorAtOffset_eq (sql : Bytes) (offset : ℕ) (message : Bytes) :
    errorAtOffset sql offset message =
      ⟨.ofNat (placeBehind (sql.take offset)).1, .ofNat (placeBehind (sql.take offset)).2,
        message⟩ := by
  have hcount : (sql.take offset).foldl countByte (1, 1) =
      counters (placeBehind (sql.take offset)) := foldl_countByte (sql.take offset) (1, 1)
  rw [errorAtOffset, hcount]
  rfl

variable {line back sql : Bytes} {lines : List Bytes} {offset : ℕ}

/-- On one line, only the column moves. -/
theorem foldl_nextPlace (h : byte '\n' ∉ line) (place : ℕ × ℕ) :
    line.foldl nextPlace place = (place.1, place.2 + line.length) := by
  induction line generalizing place with
  | nil => rfl
  | cons c line ih =>
    rw [List.mem_cons, not_or] at h
    rw [List.foldl_cons, ih h.2, nextPlace, if_neg (Ne.symm h.1), List.length_cons]
    simp only [Nat.add_assoc, Nat.add_comm 1]

/-! ## The scanner -/

section Scanner

variable (strtof : Bytes → Option (BitVec 32))

/-- The scanner at the start of a text. -/
def Scanner.fresh (sql : Bytes) : Scanner := ⟨.initial, sql, ⟨1, 1, 1, 1⟩, ⟨none, 1, 1⟩⟩

/-- One match: what it is, and the scanner behind it. -/
inductive Scanner.Match (scanner : Scanner) : Lexeme → Scanner → Prop where
  | intro {c : UInt8} {rest w : Bytes} {action : Action} (hinput : scanner.input = c :: rest)
      (hmatch : nextMatch scanner.start c rest = (w, action)) :
      Match scanner ⟨c :: w, action⟩ (scanner.act strtof (c :: w) (rest.drop w.length) action)

/-- One match after another. -/
inductive Scanner.Matches (scanner : Scanner) : List Lexeme → Scanner → Prop where
  | refl : Matches scanner [] scanner
  | snoc {ls : List Lexeme} {l : Lexeme} {last next : Scanner} (hmatches : Matches scanner ls last)
      (hmatch : last.Match strtof l next) : Matches scanner (ls ++ [l]) next

variable {strtof}

theorem Scanner.yylloc_act (scanner : Scanner) (yytext rest : Bytes) (action : Action) :
    (scanner.act strtof yytext rest action).yylloc = scanner.yylloc.advance yytext := by
  unfold Scanner.act
  split
  · rfl
  · split <;> rfl

/-- `YY_USER_ACTION` on a byte. -/
def Location.step (loc : Location) (c : UInt8) : Location :=
  if c = byte '\n' then { loc with lastLine := loc.lastLine + 1, lastColumn := 1 }
  else { loc with lastColumn := loc.lastColumn + 1 }

theorem Location.foldl_step (yytext : Bytes) (loc : Location) :
    yytext.foldl Location.step loc = ⟨loc.firstLine, loc.firstColumn,
      (yytext.foldl countByte (loc.lastLine, loc.lastColumn)).1,
      (yytext.foldl countByte (loc.lastLine, loc.lastColumn)).2⟩ := by
  induction yytext generalizing loc with
  | nil => rfl
  | cons c yytext ih =>
    rw [List.foldl_cons, ih, List.foldl_cons]
    unfold Location.step countByte
    split <;> rfl

/-- The match starts where the last one ended, and each of its bytes moves the end. -/
theorem Location.advance_eq (yylloc : Location) {yytext : Bytes} (hnul : 0 ∉ yytext) :
    yylloc.advance yytext = ⟨yylloc.lastLine, yylloc.lastColumn,
      (yytext.foldl countByte (yylloc.lastLine, yylloc.lastColumn)).1,
      (yytext.foldl countByte (yylloc.lastLine, yylloc.lastColumn)).2⟩ := by
  have hall : yytext.takeWhile (· ≠ 0) = yytext := by
    rw [List.takeWhile_eq_self_iff]
    intro c hc
    exact decide_eq_true fun h : c = 0 => hnul (h ▸ hc)
  unfold Location.advance
  rw [hall]
  exact Location.foldl_step yytext _

/-- The end of the last match is the place behind what has been matched. -/
structure Scanner.Located (sql : Bytes) (ls : List Lexeme) (scanner : Scanner) : Prop where
  split : sql = yytexts ls ++ scanner.input
  place : (scanner.yylloc.lastLine, scanner.yylloc.lastColumn) =
    counters (placeBehind (yytexts ls))

variable {ls : List Lexeme} {scanner : Scanner} {sql : Bytes}

theorem Scanner.Located.match {l : Lexeme} {next : Scanner} (hnul : 0 ∉ sql)
    (h : scanner.Located sql ls) (hmatch : scanner.Match strtof l next) :
    (next.yylloc.firstLine, next.yylloc.firstColumn) = counters (placeBehind (yytexts ls)) ∧
      l.yytext <+: scanner.input ∧ next.Located sql (ls ++ [l]) := by
  obtain ⟨hinput, hnext⟩ := hmatch
  rename_i c rest w action
  obtain ⟨behind, hbehind⟩ := (nextMatch_eq.mp hnext).start
  have hrest : rest.drop w.length = behind := by
    obtain rfl : w ++ behind = rest := List.cons.inj hbehind |>.2
    exact List.drop_left
  have hsplit : sql = yytexts ls ++ (c :: w ++ behind) := by rw [h.split, hinput, hbehind]
  have hmatched : 0 ∉ c :: w := by
    intro hmem
    rw [hsplit] at hnul
    exact hnul (List.mem_append_right _ (List.mem_append_left _ hmem))
  have htexts : yytexts (ls ++ [⟨c :: w, action⟩]) = yytexts ls ++ c :: w := by
    rw [yytexts_append, yytexts_cons, yytexts_nil, List.append_nil]
  rw [Scanner.yylloc_act, Location.advance_eq _ hmatched]
  refine ⟨h.place, ⟨behind, by rw [hinput, hbehind]⟩, ?_, ?_⟩
  · rw [Scanner.input_act, hrest, htexts, hsplit, List.append_assoc]
  · rw [Scanner.yylloc_act, Location.advance_eq _ hmatched, h.place, foldl_countByte, htexts,
      placeBehind, placeBehind, List.foldl_append]

theorem Scanner.Matches.located (hnul : 0 ∉ sql)
    (h : (Scanner.fresh sql).Matches strtof ls scanner) : scanner.Located sql ls := by
  induction h with
  | refl => exact ⟨rfl, rfl⟩
  | snoc _ hmatch ih => exact (ih.match hnul hmatch).2.2

/-- The location of a match is what `ErrorAtOffset` counts up to its first byte. -/
theorem location_eq_errorAtOffset (hnul : 0 ∉ sql) {l : Lexeme} {next : Scanner}
    (h : (Scanner.fresh sql).Matches strtof ls scanner) (hmatch : scanner.Match strtof l next)
    (message : Bytes) :
    l.yytext <+: sql.drop (yytexts ls).length ∧
      errorAtOffset sql (yytexts ls).length message =
        ⟨next.yylloc.firstLine, next.yylloc.firstColumn, message⟩ := by
  have hlocated := h.located hnul
  obtain ⟨hplace, hstarts, -⟩ := hlocated.match hnul hmatch
  obtain ⟨hline, hcolumn⟩ := Prod.mk.inj hplace
  rw [errorAtOffset_eq, hlocated.split, List.take_left, List.drop_left, hline, hcolumn]
  exact ⟨hstarts, rfl⟩

end Scanner

/-! ## Lines -/

/-- Lines, each with its line break. -/
def brokenLines (lines : List Bytes) : Bytes := lines.flatMap (· ++ [byte '\n'])

/-- A line as it is shown, without the carriage return that it may end with. -/
def withoutReturn (line : Bytes) : Bytes :=
  if line.getLast? = some (byte '\r') then line.dropLast else line

/-- A text is whole lines and the start of one more. -/
theorem exists_brokenLines (sql : Bytes) :
    ∃ lines rest, sql = brokenLines lines ++ rest ∧ (∀ line ∈ lines, byte '\n' ∉ line) ∧
      byte '\n' ∉ rest := by
  induction sql using List.reverseRecOn with
  | nil => exact ⟨[], [], rfl, by simp, by simp⟩
  | append_singleton sql c ih =>
    obtain ⟨lines, rest, rfl, hlines, hrest⟩ := ih
    by_cases hc : c = byte '\n'
    · refine ⟨lines ++ [rest], [], ?_, ?_, by simp⟩
      · simp [brokenLines, hc]
      · exact List.forall_mem_append.mpr ⟨hlines, by simpa using hrest⟩
    · refine ⟨lines, rest ++ [c], List.append_assoc _ _ _, hlines, ?_⟩
      rw [List.mem_append, List.mem_singleton, not_or]
      exact ⟨hrest, Ne.symm hc⟩

theorem foldl_nextPlace_brokenLines (h : ∀ line ∈ lines, byte '\n' ∉ line) (number : ℕ) :
    (brokenLines lines).foldl nextPlace (number, 1) = (number + lines.length, 1) := by
  induction lines generalizing number with
  | nil => rfl
  | cons line lines ih =>
    obtain ⟨hline, hlines⟩ := List.forall_mem_cons.mp h
    rw [brokenLines, List.flatMap_cons, ← brokenLines, List.foldl_append, List.foldl_append,
      foldl_nextPlace hline]
    show (brokenLines lines).foldl nextPlace (number + 1, 1) = _
    rw [ih hlines, List.length_cons, Nat.add_assoc, Nat.add_comm 1]

theorem findIdx?_eq_none {c : UInt8} {w : Bytes} : w.findIdx? (· == c) = none ↔ c ∉ w := by
  simp only [List.findIdx?_eq_none_iff, beq_eq_false_iff_ne, ← List.forall_mem_ne']

theorem findIdx?_newline (hline : byte '\n' ∉ line) (rest : Bytes) :
    (line ++ byte '\n' :: rest).findIdx? (· == byte '\n') = some line.length := by
  rw [List.findIdx?_append, findIdx?_eq_none.mpr hline, List.findIdx?_cons, beq_self_eq_true,
    if_pos rfl]
  simp

theorem skipLines_brokenLines (h : ∀ line ∈ lines, byte '\n' ∉ line) (rest : Bytes) :
    skipLines lines.length (brokenLines lines ++ rest) = some rest := by
  induction lines with
  | nil => rfl
  | cons line lines ih =>
    obtain ⟨hline, hlines⟩ := List.forall_mem_cons.mp h
    have hsplit : brokenLines (line :: lines) ++ rest =
        line ++ byte '\n' :: (brokenLines lines ++ rest) := by
      simp [brokenLines]
    rw [hsplit, List.length_cons, skipLines, findIdx?_newline hline]
    dsimp only
    rw [List.drop_length_add_append, List.drop_succ_cons, List.drop_zero, ih hlines]

/-- The size of a line, up to its line break or the end of the text. -/
theorem size_line (hline : byte '\n' ∉ line) (hback : back = [] ∨ back.head? = some (byte '\n')) :
    ((line ++ back).findIdx? (· == byte '\n')).getD (line ++ back).length = line.length := by
  rcases hback with rfl | hback
  · rw [List.append_nil, findIdx?_eq_none.mpr hline]
    rfl
  · obtain ⟨rest, rfl⟩ : ∃ rest, back = byte '\n' :: rest := List.head?_eq_some_iff.mp hback
    rw [findIdx?_newline hline]
    rfl

/-- A carriage return at the end of a line is cut off. -/
theorem take_withoutReturn (line back : Bytes) :
    (line ++ back).take
        (if 0 < line.length ∧ (line ++ back)[line.length - 1]? = some (byte '\r') then
          line.length - 1 else line.length) = withoutReturn line := by
  rcases List.eq_nil_or_concat line with rfl | ⟨start, last, rfl⟩
  · simp [withoutReturn]
  · rw [List.concat_eq_append]
    by_cases hlast : last = byte '\r'
    · simp [withoutReturn, hlast]
    · rw [if_neg (by simp [hlast]), List.take_left, withoutReturn, if_neg (by simpa using hlast)]

/-- A counter that has not overflowed. -/
theorem ofNat_spec {n : ℕ} (h : 1 + n < 2^31) :
    ¬Int32.ofNat (1 + n) < 1 ∧ max (Int32.ofNat (1 + n)) 1 = .ofNat (1 + n) ∧
      ((Int32.ofNat (1 + n)).toInt - 1).toNat = n := by
  have hint := Int32.toInt_ofNat_of_lt h
  have hlt : ¬Int32.ofNat (1 + n) < 1 := by
    rw [Int32.lt_iff_toInt_lt, hint, Int32.toInt_one]
    omega
  refine ⟨hlt, ?_, by omega⟩
  have hmax : max (Int32.ofNat (1 + n)) 1 =
    if Int32.ofNat (1 + n) ≤ 1 then 1 else Int32.ofNat (1 + n) := rfl
  rw [hmax]
  split
  · next hle => exact Int32.le_antisymm (Int32.not_lt.mp hlt) hle
  · rfl

/-- `FindLine` finds the line behind as many lines. -/
theorem findLine_brokenLines (h : ∀ line ∈ lines, byte '\n' ∉ line)
    (hint : 1 + lines.length < 2^31) (hline : byte '\n' ∉ line)
    (hback : back = [] ∨ back.head? = some (byte '\n')) :
    findLine (brokenLines lines ++ (line ++ back)) (.ofNat (1 + lines.length)) =
      some (withoutReturn line) := by
  obtain ⟨hone, -, hcount⟩ := ofNat_spec hint
  rw [findLine, if_neg hone, hcount, skipLines_brokenLines h]
  dsimp only
  rw [size_line hline hback, take_withoutReturn]

/-- The line that a byte is in. -/
structure IsLineOf (sql : Bytes) (offset : ℕ) (front line back : Bytes) : Prop where
  split : sql = front ++ line ++ back
  no_newline : byte '\n' ∉ line
  front_ends : front = [] ∨ front.getLast? = some (byte '\n')
  back_starts : back = [] ∨ back.head? = some (byte '\n')
  ge : front.length ≤ offset
  lt : offset < front.length + line.length

theorem brokenLines_ends (lines : List Bytes) :
    brokenLines lines = [] ∨ (brokenLines lines).getLast? = some (byte '\n') := by
  rcases List.eq_nil_or_concat lines with rfl | ⟨lines, line, rfl⟩
  · exact .inl rfl
  · exact .inr (by simp [brokenLines])

/-- Every byte but a line break is in a line, and the lines before it are broken. -/
theorem exists_isLineOf (hoffset : offset < sql.length) (hbyte : sql[offset]? ≠ some (byte '\n')) :
    ∃ lines line back, (∀ line ∈ lines, byte '\n' ∉ line) ∧
      IsLineOf sql offset (brokenLines lines) line back := by
  obtain ⟨lines, start, hsplit, hlines, hstart⟩ := exists_brokenLines (sql.take offset)
  have hlength : (brokenLines lines).length + start.length = offset := by
    rw [← List.length_append, ← hsplit, List.length_take_of_le hoffset.le]
  have hdrop : sql.drop offset = sql[offset] :: sql.drop (offset + 1) :=
    List.drop_eq_getElem_cons hoffset
  have hne : sql[offset] ≠ byte '\n' := by
    rw [List.getElem?_eq_getElem hoffset] at hbyte
    exact fun h => hbyte (congrArg some h)
  refine ⟨lines, start ++ (sql.drop offset).takeWhile (· ≠ byte '\n'),
    (sql.drop offset).dropWhile (· ≠ byte '\n'), hlines, ?_, ?_, brokenLines_ends lines, ?_, ?_, ?_⟩
  · rw [List.append_assoc, List.append_assoc, List.takeWhile_append_dropWhile, ← List.append_assoc,
      ← hsplit, List.take_append_drop]
  · rw [List.mem_append, not_or]
    refine ⟨hstart, fun hmem => ?_⟩
    simpa using List.mem_takeWhile_imp hmem
  · have hstops := List.head?_dropWhile_not (· ≠ byte '\n') (sql.drop offset)
    cases hback : (sql.drop offset).dropWhile (· ≠ byte '\n') with
    | nil => exact .inl rfl
    | cons c back =>
      rw [hback] at hstops
      exact .inr (by simpa using hstops)
  · omega
  · rw [List.length_append, hdrop, List.takeWhile_cons_of_pos (by simpa using hne),
      List.length_cons]
    omega

/-- The caret stands under the byte, behind one blank or tab for each byte before it. -/
theorem take_withoutReturn_caret {count : ℕ} (h : count < line.length) :
    (withoutReturn line).take (min count (withoutReturn line).length) = line.take count := by
  unfold withoutReturn
  split_ifs
  · rw [List.length_dropLast, Nat.min_eq_left (by omega), List.dropLast_eq_take, List.take_take,
      Nat.min_eq_left (by omega)]
  · rw [Nat.min_eq_left h.le]

/-- The place of a byte: as many lines and bytes before it. -/
theorem IsLineOf.placeBehind (h : IsLineOf sql offset (brokenLines lines) line back)
    (hlines : ∀ line ∈ lines, byte '\n' ∉ line) :
    placeBehind (sql.take offset) =
      (1 + lines.length, 1 + (offset - (brokenLines lines).length)) := by
  have hcount : offset - (brokenLines lines).length ≤ line.length := by
    have := h.lt
    omega
  have hfront : sql.take offset =
      brokenLines lines ++ line.take (offset - (brokenLines lines).length) := by
    rw [h.split, List.append_assoc, List.take_append, List.take_of_length_le h.ge,
      List.take_append_of_le_length hcount]
  have hno : byte '\n' ∉ line.take (offset - (brokenLines lines).length) :=
    fun hmem => h.no_newline (List.mem_of_mem_take hmem)
  rw [hfront, Parser.placeBehind, List.foldl_append, foldl_nextPlace_brokenLines hlines,
    foldl_nextPlace hno, List.length_take_of_le hcount]

/-- `FormatError` prints the line of the byte, and the caret under the byte, if its line and its
column are `int`s. -/
theorem formatError_errorAtOffset (hoffset : offset < sql.length)
    (hbyte : sql[offset]? ≠ some (byte '\n')) (hrow : (placeBehind (sql.take offset)).1 < 2^31)
    (hcolumn : (placeBehind (sql.take offset)).2 < 2^31) (message : Bytes) :
    ∃ front line back, IsLineOf sql offset front line back ∧
      formatError sql (errorAtOffset sql offset message) =
        errorHeader (errorAtOffset sql offset message).line
            (errorAtOffset sql offset message).column message ++
          withoutReturn line ++ text "\n" ++
          (line.take (offset - front.length)).map caretSpace ++ text "^\n" := by
  obtain ⟨lines, line, back, hlines, hline⟩ := exists_isLineOf hoffset hbyte
  refine ⟨brokenLines lines, line, back, hline, ?_⟩
  have hcount : offset - (brokenLines lines).length < line.length := by
    have := hline.lt
    have := hline.ge
    omega
  rw [hline.placeBehind hlines] at hrow hcolumn
  have hfind : findLine sql (.ofNat (1 + lines.length)) = some (withoutReturn line) := by
    rw [hline.split, List.append_assoc]
    exact findLine_brokenLines hlines hrow hline.no_newline hline.back_starts
  rw [errorAtOffset_eq, hline.placeBehind hlines, formatError]
  dsimp only
  rw [(ofNat_spec hrow).2.1, (ofNat_spec hcolumn).2.1, hfind]
  dsimp only
  rw [(ofNat_spec hcolumn).2.2, take_withoutReturn_caret hcount]

/-- The line and the column are at most one more than the number of bytes. -/
theorem placeBehind_le (w : Bytes) :
    (placeBehind w).1 ≤ w.length + 1 ∧ (placeBehind w).2 ≤ w.length + 1 := by
  induction w using List.reverseRecOn with
  | nil => decide
  | append_singleton w c ih =>
    rw [placeBehind, List.foldl_concat, ← placeBehind, nextPlace, List.length_append]
    split <;> simp <;> omega

/-- A diagnostic points at its byte: a match of the scanner is located where `ErrorAtOffset` counts
its first byte, and `FormatError` prints the line of a byte and a caret under the byte, if its line
and its column are `int`s. In a text of no more bytes than `Parse` accepts, they are. -/
theorem diagnostics_at_byte (strtof : Bytes → Option (BitVec 32)) (sql message : Bytes) :
    (0 ∉ sql → ∀ ls l scanner next, (Scanner.fresh sql).Matches strtof ls scanner →
      scanner.Match strtof l next →
      l.yytext <+: sql.drop (yytexts ls).length ∧
        errorAtOffset sql (yytexts ls).length message =
          ⟨next.yylloc.firstLine, next.yylloc.firstColumn, message⟩) ∧
    (∀ offset, offset < sql.length → sql[offset]? ≠ some (byte '\n') →
      (placeBehind (sql.take offset)).1 < 2^31 → (placeBehind (sql.take offset)).2 < 2^31 →
      ∃ front line back, IsLineOf sql offset front line back ∧
        formatError sql (errorAtOffset sql offset message) =
          errorHeader (errorAtOffset sql offset message).line
              (errorAtOffset sql offset message).column message ++
            withoutReturn line ++ text "\n" ++
            (line.take (offset - front.length)).map caretSpace ++ text "^\n") ∧
    (sql.length ≤ 2^31 - 1 → ∀ offset, offset < sql.length →
      (placeBehind (sql.take offset)).1 < 2^31 ∧ (placeBehind (sql.take offset)).2 < 2^31) := by
  refine ⟨?_, ?_, ?_⟩
  · intro hnul ls l scanner next hmatches hmatch
    exact location_eq_errorAtOffset hnul hmatches hmatch message
  · intro offset hoffset hbyte hrow hcolumn
    exact formatError_errorAtOffset hoffset hbyte hrow hcolumn message
  · intro hsize offset hoffset
    have hplace := placeBehind_le (sql.take offset)
    rw [List.length_take_of_le hoffset.le] at hplace
    omega

/-- A text whose second line starts with a tab: the caret is under the byte behind it. -/
theorem diagnostics_at_byte_secondLine :
    let sql := text "select\n\t?;"
    (∃ l next, (Scanner.fresh sql).Match (fun _ => none) l next ∧
      errorAtOffset sql 0 [] = ⟨next.yylloc.firstLine, next.yylloc.firstColumn, []⟩) ∧
    (∃ front line back, IsLineOf sql 8 front line back) ∧
    formatError sql (errorAtOffset sql 8 []) =
      text "Parser Error at line 2 column 2: syntax error\n\t?;\n\t^\n" := by
  intro sql
  obtain ⟨hmatch, hformat, hint⟩ := diagnostics_at_byte (fun _ => none) sql []
  refine ⟨⟨_, _, .intro rfl rfl, ?_⟩, ?_, by decide⟩
  · exact (hmatch (by decide) [] _ _ _ .refl (.intro rfl rfl)).2
  · obtain ⟨hrow, hcolumn⟩ := hint (by decide) 8 (by decide)
    obtain ⟨front, line, back, hline, -⟩ := hformat 8 (by decide) (by decide) hrow hcolumn
    exact ⟨front, line, back, hline⟩

/-- Where the column overflows, the caret comes to stand under the first byte of the line. -/
theorem formatError_of_overflow (hline : byte '\n' ∉ line)
    (hreturn : line.getLast? ≠ some (byte '\r')) (hlength : 2^31 - 1 ≤ line.length) :
    formatError line (errorAtOffset line (2^31 - 1) []) =
      text "Parser Error at line 1 column 1: syntax error\n" ++ line ++ text "\n" ++
        text "^\n" := by
  have hno : byte '\n' ∉ line.take (2^31 - 1) := fun hmem => hline (List.mem_of_mem_take hmem)
  have hplace : placeBehind (line.take (2^31 - 1)) = (1, 1 + (2^31 - 1)) := by
    rw [placeBehind, foldl_nextPlace hno, List.length_take_of_le hlength]
  have hfind : findLine line 1 = some line := by
    have hfound : findLine (brokenLines [] ++ (line ++ [])) 1 = some (withoutReturn line) :=
      findLine_brokenLines (by simp) (by decide) hline (.inl rfl)
    rw [List.append_nil, withoutReturn, if_neg hreturn] at hfound
    exact hfound
  have hrow : max (Int32.ofNat 1) 1 = 1 := by decide
  have hcolumn : max (Int32.ofNat (1 + (2^31 - 1))) 1 = 1 := by decide
  have hheader : errorHeader 1 1 [] = text "Parser Error at line 1 column 1: syntax error\n" := by
    decide
  have hcaret : ((1 : Int32).toInt - 1).toNat = 0 := by decide
  rw [errorAtOffset_eq, hplace, formatError]
  dsimp only
  rw [hrow, hcolumn, hfind, hheader]
  dsimp only
  rw [hcaret, Nat.zero_min, List.take_zero, List.map_nil, List.append_nil]

/-- In a text of one line with `2^31` bytes, the caret for the last byte is under the first one. -/
theorem caret_overflow :
    let sql := List.replicate (2^31) (byte 'x')
    IsLineOf sql (2^31 - 1) [] sql [] ∧
    formatError sql (errorAtOffset sql (2^31 - 1) []) =
      text "Parser Error at line 1 column 1: syntax error\n" ++ sql ++ text "\n" ++
        text "^\n" := by
  intro sql
  have hlength : sql.length = 2^31 := List.length_replicate
  have hline : byte '\n' ∉ sql := fun hmem => absurd (List.eq_of_mem_replicate hmem) (by decide)
  have hreturn : sql.getLast? ≠ some (byte '\r') := fun hlast =>
    absurd (List.eq_of_mem_replicate (List.mem_of_getLast? hlast)) (by decide)
  refine ⟨⟨?_, hline, .inl rfl, .inl rfl, Nat.zero_le _, ?_⟩, ?_⟩
  · rw [List.nil_append, List.append_nil]
  · rw [List.length_nil, hlength]
    decide
  · exact formatError_of_overflow hline hreturn (by rw [hlength]; decide)

end Rucbase.Parser
