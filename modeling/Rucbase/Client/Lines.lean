import Mathlib.Data.List.DropRight
import Rucbase.Client.Agreement
import Rucbase.Parser.Diagnostics
import Rucbase.Parser.Tokens

/-!
# Line by line and at once

`RunInteractive` (`rucbase_client/main.cpp`) reads one line after another. It puts each line behind
what is pending, sends the statements that `TakeCompleteStatements` finds there, and goes on with
the tail. `RunSqlText` calls `TakeCompleteStatements` once, on the whole text.

The two find the same statements, except that a tail without SQL is forgotten at the end of a line
and stands in front of the next statement otherwise (`Leads`). The proof looks at the loop of
`TakeCompleteStatements` without its positions (`Reading`). This loop can stop at the end of a line
and go on there (`Reading.run_append`), and it can start again at the last semicolon
(`Reading.run_current`). `Client/Tails` says when the tails have the same tokens.
-/

namespace Rucbase.Client

open Lib Rucbase.Parser Regex

/-! ## The interactive loop -/

/-- `Trim`. -/
def trim (input : Bytes) : Bytes :=
  List.rdropWhile (text " \t\r\n").contains (input.dropWhile (text " \t\r\n").contains)

/-- `IsExitCommand`. -/
def isExitCommand (command : Bytes) : Bool :=
  [text "exit", text "exit;", text "bye", text "bye;"].contains (trim command)

/-- What the user's lines have led to: the statements sent, what is pending, and the value that
`RunInteractive` has returned, if it has. -/
structure Interactive where
  sent : List Bytes
  pending : Bytes
  returned : Option ℕ
  deriving DecidableEq, Repr

section Interactive

-- Whether the connection can still be used behind the statements sent so far.
variable (reusable : List Bytes → Bool)

/-- The loop of `RunInteractive` over the statements of one line. -/
def sendStatements (sent : List Bytes) : List Bytes → List Bytes × Option ℕ
  | [] => (sent, none)
  | statement :: statements =>
    if isExitCommand statement then (sent, some 0)
    else if !reusable (sent ++ [statement]) then (sent ++ [statement], some 1)
    else sendStatements (sent ++ [statement]) statements

/-- `RunInteractive`, when it has read the lines. It returns 0 if no line follows. -/
def runInteractive (sent : List Bytes) (pending : Bytes) : List Bytes → Interactive
  | [] => ⟨sent, pending, none⟩
  | line :: lines =>
    let pending := pending ++ (line ++ [byte '\n'])
    if isExitCommand pending then ⟨sent, pending, some 0⟩
    else
      let (statements, pending) := takeCompleteStatements pending
      match sendStatements reusable sent statements with
      | (sent, some code) => ⟨sent, pending, some code⟩
      | (sent, none) => runInteractive sent pending lines

/-- What `RunInteractive` does with the text: the statements that it takes from the lines, and what
is pending behind them. -/
def feedLines (pending : Bytes) : List Bytes → List Bytes × Bytes
  | [] => ([], pending)
  | line :: lines =>
    let (statements, pending) := takeCompleteStatements (pending ++ (line ++ [byte '\n']))
    let (more, pending) := feedLines pending lines
    (statements ++ more, pending)

theorem sendStatements_spec (sent statements : List Bytes) :
    (sendStatements reusable sent statements).1 <+: sent ++ statements ∧
      ((sendStatements reusable sent statements).2 = none →
        (sendStatements reusable sent statements).1 = sent ++ statements) := by
  induction statements generalizing sent with
  | nil => simp [sendStatements]
  | cons statement statements ih =>
    have happend : sent ++ statement :: statements = sent ++ [statement] ++ statements := by simp
    rw [sendStatements]
    split
    · exact ⟨List.prefix_append _ _, by simp⟩
    split
    · rw [happend]
      exact ⟨List.prefix_append _ _, by simp⟩
    · rw [happend]
      exact ih _

/-- The client sends the statements that it takes from the lines, as far as it comes. -/
theorem runInteractive_feedLines (sent : List Bytes) (pending : Bytes) (lines : List Bytes) :
    (runInteractive reusable sent pending lines).sent <+: sent ++ (feedLines pending lines).1 ∧
      ((runInteractive reusable sent pending lines).returned = none →
        (runInteractive reusable sent pending lines).sent = sent ++ (feedLines pending lines).1 ∧
        (runInteractive reusable sent pending lines).pending = (feedLines pending lines).2) := by
  induction lines generalizing sent pending with
  | nil => simp [runInteractive, feedLines]
  | cons line lines ih =>
    simp only [runInteractive, feedLines]
    generalize takeCompleteStatements (pending ++ (line ++ [byte '\n'])) = taken
    have hsend := sendStatements_spec reusable sent taken.1
    split
    · exact ⟨List.prefix_append _ _, by simp⟩
    split
    case h_1 sent' code hsent =>
      rw [hsent] at hsend
      rw [← List.append_assoc]
      exact ⟨hsend.1.trans (List.prefix_append _ _), by simp⟩
    case h_2 sent' hsent =>
      rw [hsent] at hsend
      obtain rfl : sent' = sent ++ taken.1 := hsend.2 rfl
      rw [← List.append_assoc]
      exact ih _ _

end Interactive

/-! ## The loop without positions -/

/-- The variables of `TakeCompleteStatements`, with the text since the last semicolon in the place
of `statement_start`. -/
structure Reading where
  flags : Flags
  statements : List Bytes
  current : Bytes

namespace Reading

/-- At the start of a text. -/
def initial : Reading := ⟨sqlFlags false, [], []⟩

/-- The loop of `TakeCompleteStatements`. -/
def run (reading : Reading) : Bytes → Reading
  | [] => reading
  | ch :: rest =>
    match reading.flags.step ch (rest.headD 0) with
    | (flags, .next) => run ⟨flags, reading.statements, reading.current ++ [ch]⟩ rest
    | (flags, .skipNext) =>
      run ⟨flags, reading.statements, reading.current ++ ch :: rest.take 1⟩ rest.tail
    | (flags, .terminator) =>
      let statements :=
        if reading.flags.tailHasSql then reading.statements ++ [reading.current ++ [ch]]
        else reading.statements
      run ⟨flags, statements, []⟩ rest
  termination_by rest => rest.length
  decreasing_by all_goals simp; try omega

end Reading

/-! ## One round -/

namespace Flags

variable {flags flags' : Flags} {ch : UInt8} {rest : Bytes}

/-- The end of a line ends a line comment and nothing else, whatever follows. -/
theorem step_newLine (flags : Flags) (next : UInt8) :
    flags.step (byte '\n') next = ({ flags with inLineComment := false }, .next) := by
  obtain ⟨inString, inLineComment, inBlockComment, tailHasSql⟩ := flags
  have hspace : isSpace (byte '\n') = true := by decide
  have hquote : byte '\n' ≠ byte '\'' := by decide
  have hsemi : byte '\n' ≠ byte ';' := by decide
  have hdash : byte '\n' ≠ byte '-' := by decide
  have hslash : byte '\n' ≠ byte '/' := by decide
  have hstar : byte '\n' ≠ byte '*' := by decide
  unfold step
  cases inLineComment <;> cases inBlockComment <;> cases inString <;> simp [*]

/-- A string is something to send. -/
def Valid (flags : Flags) : Prop := flags.inString = true → flags.tailHasSql = true

/-- What a round can do. -/
structure StepSpec (flags : Flags) (next : UInt8) (result : Flags × Event) : Prop where
  skipNext : result.2 = .skipNext → next ∈ text "/'-*"
  terminator : result.2 = .terminator → result.1 = sqlFlags false
  valid : flags.Valid → result.1.Valid

theorem step_spec (flags : Flags) (ch next : UInt8) :
    StepSpec flags next (flags.step ch next) := by
  have hnext : byte '/' ∈ text "/'-*" ∧ byte '\'' ∈ text "/'-*" ∧ byte '-' ∈ text "/'-*" ∧
      byte '*' ∈ text "/'-*" := by decide
  obtain ⟨inString, inLineComment, inBlockComment, tailHasSql⟩ := flags
  -- One goal for each branch of the round.
  unfold step
  repeat' split
  all_goals constructor <;> simp_all [Valid, sqlFlags]

/-- The second byte of two that are read together is there, and is not the end of a line. -/
theorem step_skipNext (h : flags.step ch (rest.headD 0) = (flags', .skipNext)) :
    ∃ d rest', rest = d :: rest' ∧ d ≠ byte '\n' := by
  have hnext := (step_spec flags ch (rest.headD 0)).skipNext (by rw [h])
  cases rest with
  | nil => exact absurd hnext (by decide)
  | cons d rest' =>
    refine ⟨d, rest', rfl, ?_⟩
    rintro rfl
    rw [List.headD_cons] at hnext
    exact absurd hnext (by decide)

/-- Behind a semicolon that ends a piece the flags are as at the start. -/
theorem step_terminator {next : UInt8} (h : flags.step ch next = (flags', .terminator)) :
    flags' = sqlFlags false := by
  have hflags := (step_spec flags ch next).terminator (by rw [h])
  rwa [h] at hflags

theorem Valid.step {next : UInt8} {event : Event} (h : flags.Valid)
    (hstep : flags.step ch next = (flags', event)) : flags'.Valid := by
  have hvalid := (step_spec flags ch next).valid h
  rwa [hstep] at hvalid

/-- In complete lines, what a byte does is settled by these lines. -/
theorem step_append (flags : Flags) (more : Bytes) (hline : EndsLine (ch :: rest)) :
    flags.step ch ((rest ++ more).headD 0) = flags.step ch (rest.headD 0) := by
  match rest with
  | [] => rw [hline.eq_newLine, step_newLine, step_newLine]
  | d :: rest => rfl

end Flags

/-- The loop of the source has these values. -/
theorem Splitter.run_eq (input : Bytes) (reading : Reading) (rest : Bytes) :
    ∀ (splitter : Splitter) (index : ℕ) (done : Bytes),
      input = done ++ reading.current ++ rest → splitter.flags = reading.flags →
      splitter.statements = reading.statements → splitter.statementStart = done.length →
      index = (done ++ reading.current).length →
        (splitter.run input index rest).flags = (reading.run rest).flags ∧
        (splitter.run input index rest).statements = (reading.run rest).statements ∧
        input.drop (splitter.run input index rest).statementStart = (reading.run rest).current := by
  fun_induction Reading.run reading rest with
  | case1 reading =>
    intro splitter index done hinput hflags hstatements hstart hindex
    rw [Splitter.run, hinput, hstart]
    simp [hflags, hstatements]
  | case2 reading ch rest flags hstep ih =>
    intro splitter index done hinput hflags hstatements hstart hindex
    rw [← hflags] at hstep
    rw [Splitter.run]
    simp only [hstep]
    exact ih _ _ done (by simp [hinput]) rfl hstatements hstart (by simp [hindex]; omega)
  | case3 reading ch rest flags hstep ih =>
    intro splitter index done hinput hflags hstatements hstart hindex
    obtain ⟨d, rest, rfl, -⟩ := Flags.step_skipNext hstep
    rw [← hflags] at hstep
    rw [Splitter.run]
    simp only [hstep]
    exact ih _ _ done (by simp [hinput]) rfl hstatements hstart (by simp [hindex]; omega)
  | case4 reading ch rest flags hstep statements ih =>
    intro splitter index done hinput hflags hstatements hstart hindex
    have hsplit : input = (done ++ (reading.current ++ [ch])) ++ rest := by simp [hinput]
    have hlength : index - done.length + 1 = (reading.current ++ [ch]).length := by
      rw [hindex, List.length_append, List.length_append, List.length_singleton]
      omega
    have hpiece : slice input splitter.statementStart (index - splitter.statementStart + 1) =
        reading.current ++ [ch] := by
      rw [hstart, hlength, hsplit, slice_append_middle]
    rw [← hflags] at hstep
    rw [Splitter.run]
    simp only [hstep, hpiece]
    have hnext : index + 1 = (done ++ (reading.current ++ [ch])).length := by
      simp [hindex]
      omega
    exact ih _ _ (done ++ (reading.current ++ [ch])) (by simpa using hsplit) rfl
      (by simp [statements, hflags, hstatements]) hnext (by simpa using hnext)

/-- `TakeCompleteStatements` without positions. -/
theorem takeCompleteStatements_eq (input : Bytes) :
    takeCompleteStatements input =
      ((Reading.initial.run input).statements,
        if !(Reading.initial.run input).flags.tailHasSql &&
            !(Reading.initial.run input).flags.inBlockComment then []
        else (Reading.initial.run input).current) := by
  obtain ⟨hflags, hstatements, hcurrent⟩ :=
    Splitter.run_eq input .initial input .initial 0 [] rfl rfl rfl rfl rfl
  show (_, _) = _
  rw [← hflags, ← hstatements, ← hcurrent]
  rfl

namespace Reading

/-! ## Stopping and starting again -/

variable {s : Bytes}

/-- The loop can stop at the end of a line and go on there. -/
theorem run_append (reading : Reading) (more : Bytes) (hline : EndsLine s) :
    reading.run (s ++ more) = (reading.run s).run more := by
  fun_induction Reading.run reading s with
  | case1 reading => rfl
  | case2 reading ch rest flags hstep ih =>
    rw [← Flags.step_append _ more hline] at hstep
    rw [List.cons_append, Reading.run]
    simp only [hstep]
    exact ih (EndsLine.of_append [ch] hline)
  | case3 reading ch rest flags hstep ih =>
    -- Both bytes are in the line, so the loop does not jump over its end.
    obtain ⟨d, rest, rfl, -⟩ := Flags.step_skipNext hstep
    rw [← Flags.step_append _ more hline] at hstep
    rw [List.cons_append, Reading.run]
    simp only [hstep]
    exact ih (EndsLine.of_append [ch, d] hline)
  | case4 reading ch rest flags hstep statements ih =>
    rw [← Flags.step_append _ more hline] at hstep
    rw [List.cons_append, Reading.run]
    simp only [hstep]
    exact ih (EndsLine.of_append [ch] hline)

/-- A run from the last semicolon on comes to the same place. -/
theorem run_current_of_run (reading : Reading) (s : Bytes)
    (h : initial.run (reading.current ++ s) = run ⟨reading.flags, [], reading.current⟩ s) :
    initial.run (reading.run s).current =
      ⟨(reading.run s).flags, [], (reading.run s).current⟩ := by
  fun_induction Reading.run reading s with
  | case1 reading => simpa [run] using h
  | case2 reading ch rest flags hstep ih =>
    apply ih
    rw [run] at h
    simp only [hstep] at h
    simpa using h
  | case3 reading ch rest flags hstep ih =>
    obtain ⟨d, rest, rfl, -⟩ := Flags.step_skipNext hstep
    apply ih
    rw [run] at h
    simp only [hstep] at h
    simpa using h
  | case4 reading ch rest flags hstep statements ih =>
    -- The next piece starts here, with the flags of the start.
    apply ih
    obtain rfl := Flags.step_terminator hstep
    rfl

theorem run_current (s : Bytes) :
    initial.run (initial.run s).current =
      ⟨(initial.run s).flags, [], (initial.run s).current⟩ :=
  run_current_of_run initial s rfl

/-- The current piece is the end of what has been read. -/
theorem exists_append_current (reading : Reading) (s : Bytes) :
    ∃ front, reading.current ++ s = front ++ (reading.run s).current := by
  fun_induction Reading.run reading s with
  | case1 reading => exact ⟨[], by simp⟩
  | case2 reading ch rest flags hstep ih => simpa using ih
  | case3 reading ch rest flags hstep ih =>
    obtain ⟨d, rest, rfl, -⟩ := Flags.step_skipNext hstep
    simpa using ih
  | case4 reading ch rest flags hstep statements ih =>
    obtain ⟨front, hfront⟩ := ih
    refine ⟨reading.current ++ ch :: front, ?_⟩
    rw [List.append_assoc, List.cons_append, ← hfront]
    rfl

theorem endsLine_current (hline : EndsLine s) : EndsLine (initial.run s).current := by
  obtain ⟨front, hfront⟩ := exists_append_current initial s
  apply EndsLine.of_append front
  rw [← hfront]
  exact hline

/-- The statements found before do not matter to the loop. -/
theorem run_statements (before : List Bytes) (reading : Reading) (s : Bytes) :
    run ⟨reading.flags, before ++ reading.statements, reading.current⟩ s =
      ⟨(reading.run s).flags, before ++ (reading.run s).statements, (reading.run s).current⟩ := by
  fun_induction Reading.run reading s with
  | case1 reading => rw [run]
  | case2 reading ch rest flags hstep ih =>
    rw [run]
    simp only [hstep]
    exact ih
  | case3 reading ch rest flags hstep ih =>
    rw [run]
    simp only [hstep]
    exact ih
  | case4 reading ch rest flags hstep statements ih =>
    rw [run]
    simp only [hstep]
    rw [← ih]
    congr 2
    simp only [statements]
    split <;> simp

/-! ## A tail without SQL -/

theorem valid_run {reading : Reading} (s : Bytes) (h : reading.flags.Valid) :
    (reading.run s).flags.Valid := by
  fun_induction Reading.run reading s with
  | case1 reading => exact h
  | case2 reading ch rest flags hstep ih => exact ih (h.step hstep)
  | case3 reading ch rest flags hstep ih => exact ih (h.step hstep)
  | case4 reading ch rest flags hstep statements ih => exact ih (h.step hstep)

/-- No line comment is open at the end of a line. -/
theorem inLineComment_run {reading : Reading} (hline : EndsLine s)
    (h : s = [] → reading.flags.inLineComment = false) :
    (reading.run s).flags.inLineComment = false := by
  fun_induction Reading.run reading s with
  | case1 reading => exact h rfl
  | case2 reading ch rest flags hstep ih =>
    refine ih (hline.of_append [ch]) ?_
    rintro rfl
    rw [hline.eq_newLine, Flags.step_newLine] at hstep
    rw [← (Prod.mk.inj hstep).1]
  | case3 reading ch rest flags hstep ih =>
    obtain ⟨d, rest, rfl, hd⟩ := Flags.step_skipNext hstep
    refine ih (hline.of_append [ch, d]) ?_
    rintro rfl
    exact absurd (hline.of_append [ch]).eq_newLine hd
  | case4 reading ch rest flags hstep statements ih =>
    refine ih (hline.of_append [ch]) fun _ => ?_
    rw [Flags.step_terminator hstep]
    rfl

/-- The flags at the end of a line, if there is nothing to send and no comment open, are those of
the start. -/
theorem flags_run (hline : EndsLine s) (hsql : (initial.run s).flags.tailHasSql = false)
    (hcomment : (initial.run s).flags.inBlockComment = false) :
    (initial.run s).flags = sqlFlags false := by
  have hvalid : (initial.run s).flags.Valid :=
    valid_run s fun hstring => absurd hstring (by decide)
  have hcommentLine : (initial.run s).flags.inLineComment = false :=
    inLineComment_run hline fun _ => rfl
  generalize (initial.run s).flags = flags at *
  obtain ⟨inString, inLineComment, inBlockComment, tailHasSql⟩ := flags
  simp_all [Flags.Valid, sqlFlags]

end Reading

/-! ## Two runs side by side -/

/-- What the client forgets at the end of a line: it leads from the flags at the start back to
them. -/
structure Forgotten (front : Bytes) : Prop where
  endsLine : EndsLine front
  run : Reading.initial.run front = ⟨sqlFlags false, [], front⟩

theorem forgotten_nil : Forgotten [] := ⟨.inl rfl, by rw [Reading.run]; rfl⟩

/-- The second text is the first one without something forgotten. -/
def Behind (w s : Bytes) : Prop := ∃ front, Forgotten front ∧ w = front ++ s

theorem Behind.refl (s : Bytes) : Behind s s := ⟨[], forgotten_nil, rfl⟩

variable {s pending text : Bytes} {statements : List Bytes}

theorem Behind.append {w : Bytes} (h : Behind w s) (more : Bytes) :
    Behind (w ++ more) (s ++ more) := by
  obtain ⟨front, hfront, rfl⟩ := h
  exact ⟨front, hfront, List.append_assoc _ _ _⟩

/-- A run on a text in which something is forgotten in front of the pieces. -/
structure Trails (reading reading' : Reading) : Prop where
  flags : reading.flags = reading'.flags
  statements : List.Forall₂ Behind reading.statements reading'.statements
  current : Behind reading.current reading'.current

theorem Trails.run (reading : Reading) (s : Bytes) : ∀ reading' : Reading,
    Trails reading reading' → Trails (reading.run s) (reading'.run s) := by
  fun_induction Reading.run reading s with
  | case1 reading =>
    intro reading' h
    rw [Reading.run]
    exact h
  | case2 reading ch rest flags hstep ih =>
    intro reading' h
    rw [Reading.run, ← h.flags]
    simp only [hstep]
    exact ih _ ⟨rfl, h.statements, h.current.append _⟩
  | case3 reading ch rest flags hstep ih =>
    intro reading' h
    rw [Reading.run, ← h.flags]
    simp only [hstep]
    exact ih _ ⟨rfl, h.statements, h.current.append _⟩
  | case4 reading ch rest flags hstep statements ih =>
    intro reading' h
    rw [Reading.run, ← h.flags]
    simp only [hstep]
    refine ih _ ⟨rfl, ?_, .refl []⟩
    -- The piece that ends here is a statement of both runs or of none.
    simp only [statements]
    split
    · exact List.rel_append h.statements (.cons (h.current.append _) .nil)
    · exact h.statements

/-- The interactive loop when it has read the lines of `text`, beside a call on the whole of it. -/
structure InStep (text : Bytes) (statements : List Bytes) (pending : Bytes) : Prop where
  trails : Trails (Reading.initial.run text)
    ⟨(Reading.initial.run text).flags, statements, pending⟩
  /-- The next call goes over what is pending and comes to the same flags. -/
  again : Reading.initial.run pending = ⟨(Reading.initial.run text).flags, [], pending⟩
  endsLine : EndsLine pending
  cleared : (Reading.initial.run text).flags.tailHasSql = false →
    (Reading.initial.run text).flags.inBlockComment = false → pending = []

theorem inStep_nil : InStep [] [] [] where
  trails := by
    rw [Reading.run]
    exact ⟨rfl, .nil, .refl []⟩
  again := by
    rw [Reading.run]
    rfl
  endsLine := .inl rfl
  cleared _ _ := rfl

/-- One more line. -/
theorem InStep.line (h : InStep text statements pending) (htext : EndsLine text) {line : Bytes}
    (hline : EndsLine line) :
    InStep (text ++ line) (statements ++ (takeCompleteStatements (pending ++ line)).1)
      (takeCompleteStatements (pending ++ line)).2 := by
  have hpending : Reading.initial.run (pending ++ line) =
      Reading.run ⟨(Reading.initial.run text).flags, [], pending⟩ line := by
    rw [Reading.run_append _ _ h.endsLine, h.again]
  have htrails : Trails (Reading.initial.run (text ++ line))
      ⟨(Reading.initial.run (pending ++ line)).flags,
        statements ++ (Reading.initial.run (pending ++ line)).statements,
        (Reading.initial.run (pending ++ line)).current⟩ := by
    rw [Reading.run_append _ _ htext, hpending, ← Reading.run_statements, List.append_nil]
    exact Trails.run _ line _ h.trails
  have hflags : (Reading.initial.run (text ++ line)).flags =
      (Reading.initial.run (pending ++ line)).flags := htrails.flags
  have hwhole := htext.append hline
  rw [takeCompleteStatements_eq]
  simp only
  split
  case isTrue hclear =>
    rw [← hflags, Bool.and_eq_true, Bool.not_eq_true', Bool.not_eq_true'] at hclear
    -- What was pending is forgotten: it is in front of the next piece of the whole text.
    have hstart := Reading.flags_run hwhole hclear.1 hclear.2
    have hagain := Reading.run_current (text ++ line)
    rw [hstart] at hagain
    constructor
    · exact ⟨rfl, htrails.statements, _, ⟨Reading.endsLine_current hwhole, hagain⟩,
        (List.append_nil _).symm⟩
    · rw [hstart, Reading.run]
      rfl
    · exact .inl rfl
    · exact fun _ _ => rfl
  case isFalse hclear =>
    -- What was pending is kept from the last semicolon on, and the next call reads it again.
    constructor
    · rw [hflags]
      exact htrails
    · rw [hflags]
      exact Reading.run_current (pending ++ line)
    · exact Reading.endsLine_current (h.endsLine.append hline)
    · intro hsql hcomment
      rw [← hflags, hsql, hcomment] at hclear
      exact absurd rfl hclear

/-- All lines. -/
theorem InStep.feedLines (lines : List Bytes) (h : InStep text statements pending)
    (htext : EndsLine text) :
    InStep (text ++ brokenLines lines) (statements ++ (feedLines pending lines).1)
      (feedLines pending lines).2 := by
  induction lines generalizing text pending statements with
  | nil => simpa [brokenLines, Client.feedLines] using h
  | cons line lines ih =>
    have hline : EndsLine (line ++ [byte '\n']) := .inr (by simp)
    have hnext := ih (h.line htext hline) (htext.append hline)
    rw [List.append_assoc text, List.append_assoc statements] at hnext
    exact hnext

/-- What one call leaves, beside what is pending. -/
theorem InStep.tail (h : InStep text statements pending) :
    Behind (takeCompleteStatements text).2 pending := by
  rw [takeCompleteStatements_eq]
  simp only
  split
  case isTrue hclear =>
    rw [Bool.and_eq_true, Bool.not_eq_true', Bool.not_eq_true'] at hclear
    rw [h.cleared hclear.1 hclear.2]
    exact .refl []
  case isFalse => exact h.trails.current

/-! ## What is forgotten, for the lexer -/

/-- Behind the text, the flags agree with the start condition of the lexer. -/
theorem agrees_run (input : Bytes) (start : StartCondition) (s : Bytes) :
    ∀ (splitter : Splitter) (index : ℕ), Agrees start s splitter.flags →
      Agrees (startBehind start (lexemes start s)) [] (splitter.run input index s).flags := by
  induction start, s using lexemes_induction with
  | nil start =>
    intro splitter index hagrees
    rw [lexemes_nil, Splitter.run]
    exact hagrees
  | cons start w rest action hw hmunch ih =>
    intro splitter index hagrees
    rw [lexemes_append hmunch hw, startBehind_cons]
    cases hsemi : isSemicolon ⟨w, action⟩ with
    | true =>
      obtain ⟨rfl, rfl, rfl, b, hflags⟩ := semicolon_of_isMunch hagrees hmunch hsemi
      rw [List.singleton_append, run_semicolon input rest splitter index hflags]
      exact ih _ _ (.sql _ _)
    | false =>
      obtain ⟨flags, hpass, hagrees, -⟩ := PassesMatch.of_isMunch hw hagrees hmunch hsemi
      rw [hpass input splitter index rfl]
      exact ih _ _ hagrees

/-- The lexer matches white space and comments in complete lines as it does without what follows. -/
theorem lexemes_append_of_blank {start : StartCondition} (more : Bytes) (hline : EndsLine s)
    (h : ∀ l ∈ lexemes start s, Blank l) :
    lexemes start (s ++ more) =
      lexemes start s ++ lexemes (startBehind start (lexemes start s)) more := by
  induction start, s using lexemes_induction with
  | nil start => rw [lexemes_nil, startBehind_nil, List.nil_append, List.nil_append]
  | cons start w rest action hw hmunch ih =>
    rw [lexemes_append hmunch hw, List.forall_mem_cons] at h
    have hquote : start = .initial → w.head? ≠ some (byte '\'') := by
      rintro rfl hhead
      obtain ⟨w, rfl⟩ : ∃ v, w = byte '\'' :: v := by
        cases w with
        | nil => exact absurd rfl hw
        | cons c w => exact ⟨w, by rw [Option.some.inj hhead]⟩
      have hword := (InitialMatch.of_isMunch hmunch).word
      rcases h.1 with haction | haction | haction | hspace
      · obtain rfl : action = .skip := haction
        exact absurd hword.first (by decide)
      · obtain rfl : action = .beginComment := haction
        exact absurd hword.first (by decide)
      · obtain rfl : action = .endComment := haction
        exact hword
      · exact absurd (hspace _ List.mem_cons_self) (by decide)
    have hmore := isMunch_append more hmunch hw hline hquote
    rw [List.append_assoc] at hmore ⊢
    rw [lexemes_append hmore hw, lexemes_append hmunch hw, startBehind_cons, List.cons_append,
      ih (hline.of_append w) h.2]

/-- What is forgotten is white space and comments, and the lexer is in `INITIAL` behind it. -/
theorem Forgotten.blank {front : Bytes} (h : Forgotten front) :
    (∀ l ∈ lexemes .initial front, Blank l) ∧
      startBehind .initial (lexemes .initial front) = .initial := by
  obtain ⟨hflags, -, hcurrent⟩ :=
    Splitter.run_eq front .initial front .initial 0 [] rfl rfl rfl rfl rfl
  rw [h.run] at hflags hcurrent
  constructor
  · have hblank : ∀ l ∈ lexemes .initial (front.drop (split front).statementStart), Blank l :=
      blank_of_tailHasSql (congrArg Flags.tailHasSql hflags)
    rwa [split, hcurrent] at hblank
  · have hagrees := agrees_run front .initial front .initial 0 (.sql _ _)
    rw [hflags] at hagrees
    generalize startBehind .initial (lexemes .initial front) = start at hagrees
    cases hagrees with
    | sql => rfl

theorem Forgotten.lexemes_append {front : Bytes} (h : Forgotten front) (s : Bytes) :
    lexemes .initial (front ++ s) = lexemes .initial front ++ lexemes .initial s := by
  rw [lexemes_append_of_blank s h.endsLine h.blank.1, h.blank.2]

/-- The second text is the first one without white space and comments in front of it. -/
def Leads (w s : Bytes) : Prop :=
  ∃ front, w = front ++ s ∧ (∀ l ∈ lexemes .initial front, Blank l) ∧
    lexemes .initial w = lexemes .initial front ++ lexemes .initial s

theorem Behind.leads {w : Bytes} (h : Behind w s) : Leads w s := by
  obtain ⟨front, hfront, rfl⟩ := h
  exact ⟨front, rfl, hfront.blank.1, hfront.lexemes_append s⟩

end Rucbase.Client
