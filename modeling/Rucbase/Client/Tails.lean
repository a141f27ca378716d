import Rucbase.Client.Lines

/-!
# What the interactive loop forgets

What the loop of `RunInteractive` forgets at the end of a line is white space for `std::isspace`.
The lexer does not know all of that: a vertical tab or a form feed is a token for it, which is
`INVALID`. So the tail that is left line by line and the tail of the whole text differ in their
tokens exactly when such a byte is forgotten (`ForgetsToken`).

Where the loop has cleared what is pending, it goes on as at the start (`Idle.append_iff`). So the
text is cut at the last line behind which it has done so (`exists_idle`).
-/

namespace Rucbase.Client

open Lib Rucbase.Parser Regex

/-! ## Tokens -/

variable {l : Lexeme} {s : Bytes} {strtof : Bytes → Option (BitVec 32)} {lines : List Bytes}

/-- Every match of a text is the longest one at its place. -/
theorem isMunch_of_mem_lexemes {start : StartCondition} (h : l ∈ lexemes start s) :
    ∃ start' rest, l.yytext ≠ [] ∧ IsMunch (rules start') (l.yytext ++ rest) l.yytext l.action := by
  induction start, s using lexemes_induction with
  | nil start =>
    rw [lexemes_nil] at h
    exact absurd h List.not_mem_nil
  | cons start w rest action hw hmunch ih =>
    rw [lexemes_append hmunch hw] at h
    rcases List.mem_cons.mp h with rfl | h
    · exact ⟨start, rest, hw, hmunch⟩
    · exact ih h

theorem isSpace_iff {c : UInt8} : isSpace c = true ↔ c ∈ ([9, 10, 11, 12, 13, 32] : Bytes) := by
  have hall : ∀ n : Fin 256, isSpace (UInt8.ofFin n) = true ↔
      UInt8.ofFin n ∈ ([9, 10, 11, 12, 13, 32] : Bytes) := by decide +kernel
  exact hall c.toFin

/-- The lexer skips a byte of white space, or it does not expect it. -/
theorem action_of_isSpace {c : UInt8} (hspace : isSpace c = true) {action : Action}
    (h : action.First c = true) : action = .skip ∨ action = .unexpectedCharacter := by
  have hc := isSpace_iff.mp hspace
  cases action with
  | skip => exact .inl rfl
  | unexpectedCharacter => exact .inr rfl
  | keyword k =>
    have hletter : isAlpha c = true := h
    simp only [List.mem_cons, List.not_mem_nil, or_false] at hc
    rcases hc with rfl | rfl | rfl | rfl | rfl | rfl <;> exact absurd hletter (by decide)
  | _ =>
    revert h
    simp only [List.mem_cons, List.not_mem_nil, or_false] at hc
    rcases hc with rfl | rfl | rfl | rfl | rfl | rfl <;> decide

/-- White space that the lexer does not know: a vertical tab or a form feed. -/
def strangeSpaces : List Lexeme := [⟨[11], .unexpectedCharacter⟩, ⟨[12], .unexpectedCharacter⟩]

/-- White space and comments have no tokens, except for vertical tabs and form feeds. -/
theorem result_of_blank {start : StartCondition} (hmem : l ∈ lexemes start s) (hblank : Blank l)
    (hl : l ∉ strangeSpaces) : l.action.result strtof l.yytext = none := by
  obtain ⟨start, rest, hne, hmunch⟩ := isMunch_of_mem_lexemes hmem
  obtain ⟨w, action⟩ := l
  rcases hblank with haction | haction | haction | hspace
  · obtain rfl : action = .skip := haction
    rfl
  · obtain rfl : action = .beginComment := haction
    rfl
  · obtain rfl : action = .endComment := haction
    rfl
  cases start with
  | comment =>
    rcases commentMatch_cases hmunch with ⟨-, haction⟩ | ⟨c, -, haction, -⟩
    · obtain rfl : action = .endComment := haction
      rfl
    · obtain rfl : action = .skip := haction
      rfl
  | initial =>
    match w, hne with
    | c :: w, _ =>
    have hword : action.Word (c :: w) := (InitialMatch.of_isMunch hmunch).word
    rcases action_of_isSpace (hspace c List.mem_cons_self) hword.first with rfl | rfl
    · rfl
    -- The lexer skips the other bytes of white space.
    have hskip : ¬Action.skip.Word (c :: w) := not_word_of_unexpectedCharacter hmunch (by decide)
    obtain ⟨d, hd, hw⟩ := hword
    obtain ⟨rfl, rfl⟩ := List.cons.inj hw
    have hc := isSpace_iff.mp (hspace c List.mem_cons_self)
    simp only [List.mem_cons, List.not_mem_nil, or_false] at hc
    rcases hc with rfl | rfl | rfl | rfl | rfl | rfl
    · exact absurd (.inr (.inl ⟨by simp, by simp; decide⟩)) hskip
    · exact absurd rfl hd
    · exact absurd (by simp [strangeSpaces]) hl
    · exact absurd (by simp [strangeSpaces]) hl
    · exact absurd (.inr (.inr (.inl rfl))) hskip
    · exact absurd (.inr (.inl ⟨by simp, by simp; decide⟩)) hskip

/-- What is forgotten has its tokens in front of the others. -/
theorem Forgotten.scanAll {front : Bytes} (h : Forgotten front) (s : Bytes) :
    scanAll strtof (Scanner.fresh (front ++ s)) =
      tokensOf strtof (lexemes .initial front) ++ scanAll strtof (Scanner.fresh s) := by
  rw [scanAll_eq, scanAll_eq]
  show tokensOf strtof (lexemes .initial (front ++ s)) ++
    endTokens (startBehind .initial (lexemes .initial (front ++ s))) = _
  rw [h.lexemes_append, tokensOf_append, startBehind_append, h.blank.2, List.append_assoc]
  rfl

/-- What is forgotten has tokens only if it holds a vertical tab or a form feed. -/
theorem Forgotten.tokensOf_eq_nil_iff {front : Bytes} (h : Forgotten front) :
    tokensOf strtof (lexemes .initial front) = [] ↔
      ∀ l ∈ lexemes .initial front, l ∉ strangeSpaces := by
  rw [tokensOf, List.filterMap_eq_nil_iff]
  constructor
  · intro hnone l hl hstrange
    have hresult := hnone l hl
    simp only [strangeSpaces, List.mem_cons, List.not_mem_nil, or_false] at hstrange
    rcases hstrange with rfl | rfl
    · exact Option.some_ne_none _ hresult
    · exact Option.some_ne_none _ hresult
  · intro hspaces l hl
    rw [result_of_blank hl (h.blank.1 l hl) (hspaces l hl)]
    rfl

/-! ## Idle texts -/

/-- The matches behind the last semicolon of a text. -/
def lastPiece (s : Bytes) : List Lexeme := (cut [] (lexemes .initial s)).2

/-- There is nothing to send behind the last semicolon of a text, and no comment is open. -/
structure Idle (s : Bytes) : Prop where
  blank : ∀ l ∈ lastPiece s, Blank l
  start : startBehind .initial (lexemes .initial s) = .initial

theorem hasSql_eq_false_iff (hsemi : isSemicolon l = false) : hasSql l = false ↔ Blank l := by
  constructor
  · exact fun h => blank_of_hasSql h hsemi
  · intro hblank
    unfold hasSql
    split
    · rfl
    · rfl
    · rfl
    case h_4 hskip hbegin hend =>
      rcases hblank with h | h | h | hspace
      · exact absurd h hskip
      · exact absurd h hbegin
      · exact absurd h hend
      · simpa [hasText] using fun _ => hspace

/-- The last piece is scanned on its own as it is scanned in the text, and holds no semicolon. -/
theorem lastPiece_spec (s : Bytes) :
    lexemes .initial (yytexts (lastPiece s)) = lastPiece s ∧
      ∀ l ∈ lastPiece s, isSemicolon l = false :=
  (isPiece_cut .initial s [] rfl (by simp)).2

/-- The loop keeps the last piece. -/
theorem current_run (s : Bytes) : (Reading.initial.run s).current = yytexts (lastPiece s) := by
  obtain ⟨-, -, hcurrent⟩ := Splitter.run_eq s .initial s .initial 0 [] rfl rfl rfl rfl rfl
  rw [← hcurrent]
  exact drop_statementStart s

/-- The flags by which `TakeCompleteStatements` clears its tail say that the text is idle. -/
theorem idle_iff (s : Bytes) :
    Idle s ↔ (Reading.initial.run s).flags.tailHasSql = false ∧
      (Reading.initial.run s).flags.inBlockComment = false := by
  obtain ⟨hflags, -, -⟩ := Splitter.run_eq s .initial s .initial 0 [] rfl rfl rfl rfl rfl
  have hagrees := agrees_run s .initial s .initial 0 (.sql _ _)
  have hsql : (Splitter.run s .initial 0 s).flags.tailHasSql = anySql (lastPiece s) :=
    (found_split s).tailHasSql
  rw [hflags] at hagrees hsql
  have hblank : (∀ l ∈ lastPiece s, Blank l) ↔ anySql (lastPiece s) = false := by
    rw [anySql, List.any_eq_false]
    refine forall₂_congr fun l hl => ?_
    rw [Bool.not_eq_true, hasSql_eq_false_iff ((lastPiece_spec s).2 l hl)]
  have hstart : startBehind .initial (lexemes .initial s) = .initial ↔
      (Reading.initial.run s).flags.inBlockComment = false := by
    generalize startBehind .initial (lexemes .initial s) = start at hagrees
    generalize (Reading.initial.run s).flags = flags at hagrees
    cases hagrees with
    | sql | lineComment | string => exact ⟨fun _ => rfl, fun _ => rfl⟩
    | blockComment =>
      exact ⟨fun h => absurd h (by decide), fun h => absurd h.symm Bool.false_ne_true⟩
  rw [hsql, ← hblank, ← hstart]
  exact ⟨fun h => ⟨h.blank, h.start⟩, fun h => ⟨h.1, h.2⟩⟩

/-- What one call leaves. -/
theorem tail_eq (s : Bytes) :
    (Idle s → (takeCompleteStatements s).2 = []) ∧
      (¬Idle s → (takeCompleteStatements s).2 = (Reading.initial.run s).current) := by
  rw [takeCompleteStatements_eq, idle_iff]
  constructor
  · rintro ⟨hsql, hcomment⟩
    simp [hsql, hcomment]
  · intro h
    simp only
    rw [if_neg]
    simpa using h

/-- What is behind the last semicolon of an idle text is forgotten. -/
theorem Idle.forgotten (h : Idle s) (hline : EndsLine s) : Forgotten (yytexts (lastPiece s)) := by
  obtain ⟨hsql, hcomment⟩ := (idle_iff s).mp h
  have hagain := Reading.run_current s
  rw [Reading.flags_run hline hsql hcomment, current_run] at hagain
  refine ⟨?_, hagain⟩
  rw [← current_run]
  exact Reading.endsLine_current hline

/-- Behind complete lines, the loop goes on from the last piece. -/
theorem run_append_lastPiece (hline : EndsLine s) (more : Bytes) :
    (Reading.initial.run (s ++ more)).flags =
        (Reading.initial.run (yytexts (lastPiece s) ++ more)).flags ∧
      (Reading.initial.run (s ++ more)).current =
        (Reading.initial.run (yytexts (lastPiece s) ++ more)).current := by
  have hcurrent : Reading.run ⟨(Reading.initial.run s).flags, [], (Reading.initial.run s).current⟩
      more = Reading.initial.run (yytexts (lastPiece s) ++ more) := by
    rw [← Reading.run_current, ← Reading.run_append _ _ (Reading.endsLine_current hline),
      current_run]
  have hstatements := Reading.run_statements (Reading.initial.run s).statements
    ⟨(Reading.initial.run s).flags, [], (Reading.initial.run s).current⟩ more
  rw [hcurrent, List.append_nil] at hstatements
  rw [Reading.run_append _ _ hline]
  exact ⟨(congrArg Reading.flags hstatements :), (congrArg Reading.current hstatements :)⟩

/-- Behind an idle text the loop is as at the start. -/
theorem Idle.append_iff (h : Idle s) (hline : EndsLine s) (more : Bytes) :
    Idle (s ++ more) ↔ Idle more := by
  have hfront := h.forgotten hline
  have htrails : Trails (Reading.initial.run (yytexts (lastPiece s) ++ more))
      (Reading.initial.run more) := by
    rw [Reading.run_append _ _ hfront.endsLine, hfront.run]
    exact Trails.run _ more .initial ⟨rfl, .nil, _, hfront, (List.append_nil _).symm⟩
  rw [idle_iff, idle_iff, (run_append_lastPiece hline more).1, htrails.flags]

/-! ## Cutting behind an idle text -/

theorem cut_of_none {ls : List Lexeme} (h : ∀ l ∈ ls, isSemicolon l = false)
    (current more : List Lexeme) : cut current (ls ++ more) = cut (current ++ ls) more := by
  induction ls generalizing current with
  | nil => simp
  | cons l ls ih =>
    rw [List.forall_mem_cons] at h
    rw [List.cons_append, cut, if_neg (by simp [h.1]), ih h.2, List.append_assoc]
    rfl

/-- What stands before a semicolon does not matter to the last piece. -/
theorem cut_of_semicolon {ls : List Lexeme} (h : ∃ l ∈ ls, isSemicolon l = true)
    (current : List Lexeme) : (cut current ls).2 = (cut [] ls).2 := by
  induction ls generalizing current with
  | nil => simp at h
  | cons l ls ih =>
    rw [cut, cut]
    split
    · rfl
    case isFalse hsemi =>
      rw [List.exists_mem_cons_iff] at h
      have hmore := h.resolve_left hsemi
      rw [ih hmore, ih hmore ([] ++ [l])]

/-- A text without a semicolon is one piece. -/
theorem yytexts_lastPiece_of_none (h : ∀ l ∈ lexemes .initial s, isSemicolon l = false) :
    yytexts (lastPiece s) = s := by
  have hcut := cut_of_none h [] []
  rw [List.append_nil] at hcut
  rw [lastPiece, hcut, cut, List.nil_append, yytexts_lexemes]

/-- The last piece of a text that starts with an idle one. -/
theorem Idle.current_append (h : Idle s) (hline : EndsLine s) (more : Bytes) :
    (Reading.initial.run (s ++ more)).current =
      yytexts (cut (lastPiece s) (lexemes .initial more)).2 := by
  obtain ⟨hlexemes, hnone⟩ := lastPiece_spec s
  rw [(run_append_lastPiece hline more).2, current_run, lastPiece,
    (h.forgotten hline).lexemes_append, hlexemes, cut_of_none hnone, List.nil_append]

/-! ## Lines -/

theorem brokenLines_append (lines lines' : List Bytes) :
    brokenLines (lines ++ lines') = brokenLines lines ++ brokenLines lines' :=
  List.flatMap_append

theorem endsLine_brokenLines (lines : List Bytes) : EndsLine (brokenLines lines) := by
  induction lines with
  | nil => exact .inl rfl
  | cons line lines ih => exact EndsLine.append (.inr (by simp)) ih

theorem feedLines_append (pending : Bytes) (lines lines' : List Bytes) :
    (feedLines pending (lines ++ lines')).2 =
      (feedLines (feedLines pending lines).2 lines').2 := by
  induction lines generalizing pending with
  | nil => rfl
  | cons line lines ih => exact ih _

/-- Nothing is pending behind idle lines. -/
theorem Idle.pending (h : Idle (brokenLines lines)) : (feedLines [] lines).2 = [] := by
  have hstep := inStep_nil.feedLines lines (.inl rfl)
  obtain ⟨hsql, hcomment⟩ := (idle_iff _).mp h
  exact hstep.cleared hsql hcomment

/-- There is a last line behind which the loop has nothing pending, if only the start. -/
theorem exists_idle (lines : List Bytes) :
    ∃ before after, lines = before ++ after ∧ Idle (brokenLines before) ∧
      ∀ more, more <+: after → more ≠ [] → ¬Idle (brokenLines more) := by
  induction lines using List.reverseRecOn with
  | nil =>
    refine ⟨[], [], rfl, ?_, fun more hmore hne => absurd (List.prefix_nil.mp hmore) hne⟩
    rw [idle_iff, brokenLines, List.flatMap_nil, Reading.run]
    exact ⟨rfl, rfl⟩
  | append_singleton lines line ih =>
    by_cases hidle : Idle (brokenLines (lines ++ [line]))
    · exact ⟨lines ++ [line], [], (List.append_nil _).symm, hidle,
        fun more hmore hne => absurd (List.prefix_nil.mp hmore) hne⟩
    · obtain ⟨before, after, rfl, hbefore, hnever⟩ := ih
      refine ⟨before, after ++ [line], List.append_assoc .., hbefore, fun more hmore hne => ?_⟩
      rcases List.prefix_concat_iff.mp hmore with rfl | hmore
      · rwa [List.append_assoc, brokenLines_append,
          hbefore.append_iff (endsLine_brokenLines before)] at hidle
      · exact hnever more hmore hne

/-- While the loop always has something pending, it has what stands behind the last semicolon. -/
theorem pending_of_never_idle (h : ∀ more, more <+: lines → more ≠ [] → ¬Idle (brokenLines more)) :
    (feedLines [] lines).2 = yytexts (lastPiece (brokenLines lines)) := by
  induction lines using List.reverseRecOn with
  | nil => simp [feedLines, brokenLines, lastPiece, lexemes_nil, cut]
  | append_singleton lines line ih =>
    have hpending := ih fun more hmore => h more (hmore.trans (List.prefix_append _ _))
    have hnow := h _ (List.prefix_refl _) (by simp)
    obtain ⟨hflags, hcurrent⟩ :=
      run_append_lastPiece (endsLine_brokenLines lines) (brokenLines [line])
    rw [← brokenLines_append] at hflags hcurrent
    have hidle : ¬Idle (yytexts (lastPiece (brokenLines lines)) ++ brokenLines [line]) := by
      rwa [idle_iff, ← hflags, ← idle_iff]
    rw [feedLines_append, hpending, ← current_run (brokenLines (lines ++ [line])), hcurrent,
      ← (tail_eq _).2 hidle]
    simp [feedLines, brokenLines]

/-! ## The tails -/

/-- A token is forgotten: behind some of the lines the loop clears what is pending, with a vertical
tab or a form feed in it, and the other lines hold no semicolon but something to send. -/
def ForgetsToken (lines : List Bytes) : Prop :=
  ∃ before after, lines = before ++ after ∧ Idle (brokenLines before) ∧
    (∃ l ∈ lastPiece (brokenLines before), l ∈ strangeSpaces) ∧
    (∀ l ∈ lexemes .initial (brokenLines after), isSemicolon l = false) ∧
    ¬Idle (brokenLines after)

section Tails

variable {before after : List Bytes} (hbefore : Idle (brokenLines before))

include hbefore

/-- The tail of the whole text, cut at lines behind which nothing is pending. -/
theorem Idle.tail_append (hafter : ¬Idle (brokenLines after)) :
    (takeCompleteStatements (brokenLines (before ++ after))).2 =
      yytexts (cut (lastPiece (brokenLines before)) (lexemes .initial (brokenLines after))).2 := by
  have hline := endsLine_brokenLines before
  have hidle : ¬Idle (brokenLines (before ++ after)) := by
    rwa [brokenLines_append, hbefore.append_iff hline]
  rw [(tail_eq _).2 hidle, brokenLines_append, hbefore.current_append hline]

/-- Without a semicolon behind these lines, the tail starts with what has been forgotten. -/
theorem Idle.tail_of_none (hafter : ¬Idle (brokenLines after))
    (hnone : ∀ l ∈ lexemes .initial (brokenLines after), isSemicolon l = false) :
    (takeCompleteStatements (brokenLines (before ++ after))).2 =
      yytexts (lastPiece (brokenLines before)) ++ brokenLines after := by
  have hcut := cut_of_none hnone (lastPiece (brokenLines before)) []
  rw [List.append_nil] at hcut
  rw [hbefore.tail_append hafter, hcut, cut, yytexts_append, yytexts_lexemes]

theorem Idle.pending_append :
    (feedLines [] (before ++ after)).2 = (feedLines [] after).2 := by
  rw [feedLines_append, hbefore.pending]

end Tails

/-- A forgotten token is missing in the tail. -/
theorem ForgetsToken.scanAll_ne (h : ForgetsToken lines) :
    scanAll strtof (Scanner.fresh (takeCompleteStatements (brokenLines lines)).2) ≠
      scanAll strtof (Scanner.fresh (feedLines [] lines).2) := by
  obtain ⟨before, after, rfl, hbefore, ⟨l, hl, hstrange⟩, hnone, hafter⟩ := h
  have hfront := hbefore.forgotten (endsLine_brokenLines before)
  have hlexemes := (lastPiece_spec (brokenLines before)).1
  -- Line by line, what is left of the other lines is at most all of them.
  obtain ⟨front, hfront', htail⟩ : Behind (brokenLines after) (feedLines [] after).2 := by
    have hstep := (inStep_nil.feedLines after (.inl rfl)).tail
    rwa [List.nil_append, (tail_eq _).2 hafter, current_run, yytexts_lastPiece_of_none hnone]
      at hstep
  rw [hbefore.tail_of_none hafter hnone, hbefore.pending_append, hfront.scanAll, htail,
    hfront'.scanAll]
  intro heq
  have hlength := congrArg List.length heq
  rw [List.length_append, List.length_append] at hlength
  have hnil : tokensOf strtof (lexemes .initial (yytexts (lastPiece (brokenLines before)))) = [] :=
    List.eq_nil_of_length_eq_zero (by omega)
  exact hfront.tokensOf_eq_nil_iff.mp hnil l (by rwa [hlexemes]) hstrange

/-- If the tails differ in their tokens, a token has been forgotten. -/
theorem scanAll_eq_of_not_forgetsToken (h : ¬ForgetsToken lines) :
    scanAll strtof (Scanner.fresh (takeCompleteStatements (brokenLines lines)).2) =
      scanAll strtof (Scanner.fresh (feedLines [] lines).2) := by
  obtain ⟨before, after, rfl, hbefore, hnever⟩ := exists_idle lines
  rw [hbefore.pending_append]
  by_cases hempty : after = []
  · subst hempty
    rw [List.append_nil, (tail_eq _).1 hbefore]
    rfl
  have hafter := hnever after List.prefix_rfl hempty
  rw [pending_of_never_idle hnever]
  by_cases hsemi : ∃ l ∈ lexemes .initial (brokenLines after), isSemicolon l = true
  · -- Behind a semicolon, both have the same text.
    rw [hbefore.tail_append hafter, cut_of_semicolon hsemi]
    rfl
  have hnone : ∀ l ∈ lexemes .initial (brokenLines after), isSemicolon l = false := by
    simpa using hsemi
  have hfront := hbefore.forgotten (endsLine_brokenLines before)
  have hnil :
      tokensOf strtof (lexemes .initial (yytexts (lastPiece (brokenLines before)))) = [] := by
    rw [hfront.tokensOf_eq_nil_iff, (lastPiece_spec _).1]
    exact fun l hl hstrange => h ⟨before, after, rfl, hbefore, ⟨l, hl, hstrange⟩, hnone, hafter⟩
  rw [hbefore.tail_of_none hafter hnone, yytexts_lastPiece_of_none hnone, hfront.scanAll, hnil,
    List.nil_append]

/-- Reading line by line finds the statements of the whole text, in their order, without white space
and comments in front of some of them. The tails have the same tokens unless a token is forgotten:
the client takes a vertical tab or a form feed for white space, and the lexer does not expect it. -/
theorem feedLines_takeCompleteStatements (strtof : Bytes → Option (BitVec 32))
    (lines : List Bytes) :
    let whole := takeCompleteStatements (brokenLines lines)
    let fed := feedLines [] lines
    List.Forall₂ Leads whole.1 fed.1 ∧
      (scanAll strtof (Scanner.fresh whole.2) = scanAll strtof (Scanner.fresh fed.2) ↔
        ¬ForgetsToken lines) := by
  intro whole fed
  have hstep : InStep (brokenLines lines) fed.1 fed.2 := inStep_nil.feedLines lines (.inl rfl)
  constructor
  · simp only [whole, takeCompleteStatements_eq]
    exact hstep.trails.statements.imp fun _ _ => Behind.leads
  · exact ⟨fun heq hforgets => hforgets.scanAll_ne heq, scanAll_eq_of_not_forgetsToken⟩

/-- A comment in front of a statement, a form feed in front of another, and a tail with a vertical
tab that stays. -/
theorem feedLines_takeCompleteStatements_comment :
    let lines := [text "--", text "a;", [12], text "b;", text "c", [11]]
    feedLines [] lines = ([text "a;", text "b;"], text "c\n" ++ [11, 10]) ∧
      takeCompleteStatements (brokenLines lines) =
        ([text "--\na;", [10, 12, 10] ++ text "b;"], text "\nc\n" ++ [11, 10]) ∧
      Leads (text "--\na;") (text "a;") ∧ ¬ForgetsToken lines := by
  intro lines
  have hfed : feedLines [] lines = ([text "a;", text "b;"], text "c\n" ++ [11, 10]) := by
    decide +kernel
  have hwhole : takeCompleteStatements (brokenLines lines) =
      ([text "--\na;", [10, 12, 10] ++ text "b;"], text "\nc\n" ++ [11, 10]) := by decide +kernel
  obtain ⟨hleads, htokens⟩ := feedLines_takeCompleteStatements (fun _ => none) lines
  rw [hfed, hwhole] at hleads
  rw [hfed, hwhole] at htokens
  exact ⟨hfed, hwhole, (List.forall₂_cons.mp hleads).1, htokens.mp (by decide +kernel)⟩

/-- A line with a vertical tab, and the start of a statement. One call keeps both, and the lexer
does not expect the tab. Line by line, the tab is forgotten. -/
theorem feedLines_verticalTab :
    let lines := [[11], text "select"]
    takeCompleteStatements (brokenLines lines) = ([], brokenLines lines) ∧
      feedLines [] lines = ([], text "select\n") ∧
      scanAll (fun _ => none) (Scanner.fresh (brokenLines lines)) =
        [.invalid, .keyword .select] ∧
      scanAll (fun _ => none) (Scanner.fresh (text "select\n")) = [.keyword .select] := by
  decide +kernel

end Rucbase.Client
