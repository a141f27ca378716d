import Rucbase.Client.Passing

/-!
# The client and the lexer agree

Between two semicolons that are tokens, the matches of the lexer form a piece of the input (`cut`).
The loop of the client finds these pieces (`run_found`), because it passes over every other match
and stops at a semicolon. A piece is scanned on its own as it is scanned in the text
(`isPiece_cut`), so each statement that the client sends holds one semicolon, at its end.
-/

namespace Rucbase.Client

open Lib Rucbase.Parser Regex

/-! ## Pieces -/

/-- The positions of the semicolons among the matches of a text, from the position `index` on. -/
def semicolons (index : ℕ) : List Lexeme → List ℕ
  | [] => []
  | l :: ls =>
    if isSemicolon l then index :: semicolons (index + l.yytext.length) ls
    else semicolons (index + l.yytext.length) ls

/-- Cut a sequence of matches behind each semicolon; `current` is what stands before it since the
last one. -/
def cut (current : List Lexeme) : List Lexeme → List (List Lexeme) × List Lexeme
  | [] => ([], current)
  | l :: ls =>
    if isSemicolon l then ((current ++ [l]) :: (cut [] ls).1, (cut [] ls).2)
    else cut (current ++ [l]) ls

/-- Whether a sequence of matches holds more than white space, comments and semicolons. -/
def anySql (ls : List Lexeme) : Bool := ls.any hasSql

/-- Where the loop is in the text: behind the pieces `done` and the matches `current`. -/
structure At (input : Bytes) (splitter : Splitter) (index : ℕ) (done : Bytes)
    (current : List Lexeme) (start : StartCondition) (s : Bytes) : Prop where
  input_eq : input = done ++ yytexts current ++ s
  statementStart : splitter.statementStart = done.length
  index_eq : index = (done ++ yytexts current).length
  tailHasSql : splitter.flags.tailHasSql = anySql current
  agrees : Agrees start s splitter.flags

/-- What the loop has found when it comes to the end of the text. -/
structure Found (splitter : Splitter) (index : ℕ) (done : Bytes) (current ls : List Lexeme)
    (final : Splitter) : Prop where
  statements : final.statements =
    splitter.statements ++ ((cut current ls).1.filter anySql).map yytexts
  statementStart : final.statementStart = (done ++ (cut current ls).1.flatMap yytexts).length
  tailHasSql : final.flags.tailHasSql = anySql (cut current ls).2
  terminators : final.terminators = splitter.terminators ++ semicolons index ls

/-- A single character is not a match inside a comment. -/
theorem start_of_singleOp {start : StartCondition} {w rest : Bytes}
    (h : IsMunch (rules start) (w ++ rest) w .singleOp) : start = .initial := by
  cases start with
  | initial => rfl
  | comment =>
    rcases commentMatch_cases h with ⟨-, haction⟩ | ⟨c, -, haction, -⟩
    · exact absurd haction (by decide)
    · exact absurd haction (by decide)

/-- A semicolon is a match of `INITIAL`, and the flags are clear there. -/
theorem semicolon_of_isMunch {start : StartCondition} {w rest : Bytes} {action : Action}
    {flags : Flags} (hflags : Agrees start (w ++ rest) flags)
    (h : IsMunch (rules start) (w ++ rest) w action) (hsemi : isSemicolon ⟨w, action⟩ = true) :
    w = [byte ';'] ∧ action = .singleOp ∧ start = .initial ∧ ∃ b, flags = sqlFlags b := by
  obtain ⟨rfl, rfl⟩ := Lexeme.mk.inj (beq_iff_eq.mp hsemi)
  refine ⟨rfl, rfl, ?_⟩
  generalize hs : [byte ';'] ++ rest = s at hflags
  cases hflags with
  | sql s b => exact ⟨rfl, b, rfl⟩
  | lineComment s b hline => exact absurd (hline (byte ';') (by simp [← hs])) (by decide)
  | string b => exact absurd hs (List.cons_ne_nil _ _)
  | blockComment s b => exact absurd (start_of_singleOp h) (by decide)

theorem run_semicolon (input rest : Bytes) (splitter : Splitter) (index : ℕ) {b : Bool}
    (hflags : splitter.flags = sqlFlags b) :
    splitter.run input index (byte ';' :: rest) =
      Splitter.run input ⟨sqlFlags false,
        if b then splitter.statements ++
          [slice input splitter.statementStart (index - splitter.statementStart + 1)]
        else splitter.statements, index + 1, splitter.terminators ++ [index]⟩ (index + 1) rest := by
  have hstep : (sqlFlags b).step (byte ';') (rest.headD 0) = (sqlFlags false, .terminator) := by
    have hline : ¬(byte ';' = byte '-' ∧ rest.headD 0 = byte '-') := fun h => absurd h.1 (by decide)
    have hblock : ¬(byte ';' = byte '/' ∧ rest.headD 0 = byte '*') :=
      fun h => absurd h.1 (by decide)
    have hquote : byte ';' ≠ byte '\'' := by decide
    unfold Flags.step sqlFlags
    simp only [Bool.false_eq_true, if_false, if_neg hline, if_neg hblock, if_neg hquote, if_true]
  rw [Splitter.run, hflags]
  simp only [hstep]
  rfl

/-- A match that is not a semicolon belongs to the current piece. -/
theorem Found.cons {splitter final : Splitter} {flags : Flags} {index : ℕ} {done : Bytes}
    {current ls : List Lexeme} {l : Lexeme} (hsemi : isSemicolon l = false)
    (h : Found { splitter with flags := flags } (index + l.yytext.length) done (current ++ [l]) ls
      final) : Found splitter index done current (l :: ls) final := by
  have hcut : cut current (l :: ls) = cut (current ++ [l]) ls := by
    rw [cut, if_neg (by simp [hsemi])]
  have hpositions : semicolons index (l :: ls) = semicolons (index + l.yytext.length) ls := by
    rw [semicolons, if_neg (by simp [hsemi])]
  constructor
  · rw [hcut]
    exact h.statements
  · rw [hcut]
    exact h.statementStart
  · rw [hcut]
    exact h.tailHasSql
  · rw [hpositions]
    exact h.terminators

/-- A semicolon ends the current piece, which is a statement if it holds more than white space and
comments. -/
theorem Found.terminated {splitter final : Splitter} {flags : Flags} {index : ℕ} {done : Bytes}
    {current ls : List Lexeme}
    (h : Found ⟨flags,
      if anySql current then splitter.statements ++ [yytexts (current ++ [semicolon])]
      else splitter.statements, index + 1, splitter.terminators ++ [index]⟩ (index + 1)
      (done ++ yytexts (current ++ [semicolon])) [] ls final) :
    Found splitter index done current (semicolon :: ls) final := by
  have hcut : cut current (semicolon :: ls) =
      ((current ++ [semicolon]) :: (cut [] ls).1, (cut [] ls).2) := by
    rw [cut, if_pos isSemicolon_semicolon]
  have hkept : anySql (current ++ [semicolon]) = anySql current := by
    have hnone : hasSql semicolon = false := rfl
    simp [anySql, hnone]
  have hpositions : semicolons index (semicolon :: ls) = index :: semicolons (index + 1) ls := by
    rw [semicolons, if_pos isSemicolon_semicolon]
    rfl
  constructor
  · rw [h.statements, hcut, List.filter_cons, hkept]
    cases anySql current <;> simp
  · rw [h.statementStart, hcut, List.flatMap_cons, List.append_assoc]
  · rw [h.tailHasSql, hcut]
  · rw [h.terminators, hpositions, List.append_assoc]
    rfl

/-- The loop finds the pieces between the semicolons. -/
theorem run_found (input : Bytes) (start : StartCondition) (s : Bytes) :
    ∀ (splitter : Splitter) (index : ℕ) (done : Bytes) (current : List Lexeme),
      At input splitter index done current start s →
        Found splitter index done current (lexemes start s) (splitter.run input index s) := by
  induction start, s using lexemes_induction with
  | nil start =>
    intro splitter index done current hat
    rw [lexemes_nil, Splitter.run]
    exact ⟨by simp [cut], by simp [cut, hat.statementStart], hat.tailHasSql, by simp [semicolons]⟩
  | cons start w rest action hw hmunch ih =>
    intro splitter index done current hat
    rw [lexemes_append hmunch hw]
    cases hsemi : isSemicolon ⟨w, action⟩ with
    | true =>
      obtain ⟨rfl, rfl, rfl, b, hflags⟩ := semicolon_of_isMunch hat.agrees hmunch hsemi
      have hinput : input = done ++ yytexts (current ++ [semicolon]) ++ rest := by
        rw [hat.input_eq]
        simp [semicolon]
      have hindex : index + 1 = (done ++ yytexts (current ++ [semicolon])).length := by
        rw [hat.index_eq]
        simp [semicolon]
        omega
      have hpiece : slice input splitter.statementStart (index - splitter.statementStart + 1) =
          yytexts (current ++ [semicolon]) := by
        have hlength : index - done.length + 1 = (yytexts (current ++ [semicolon])).length := by
          rw [hat.index_eq]
          simp [semicolon]
        rw [hat.statementStart, hlength, hinput, slice_append_middle]
      have hb : b = anySql current := by
        rw [← hat.tailHasSql, hflags]
        rfl
      rw [List.singleton_append, run_semicolon input rest splitter index hflags, hpiece, hb]
      apply Found.terminated
      apply ih
      exact ⟨by simpa using hinput, hindex, by simpa using hindex, rfl, .sql _ _⟩
    | false =>
      obtain ⟨flags, hpass, hagrees, hsql⟩ := PassesMatch.of_isMunch hw hat.agrees hmunch hsemi
      rw [hpass input splitter index rfl]
      apply Found.cons hsemi
      apply ih
      refine ⟨?_, hat.statementStart, ?_, ?_, hagrees⟩
      · rw [hat.input_eq]
        simp
      · rw [hat.index_eq]
        simp
        omega
      · show flags.tailHasSql = _
        rw [hsql, hat.tailHasSql]
        simp [anySql]

/-! ## Cutting -/

theorem yytexts_cut (current ls : List Lexeme) :
    (cut current ls).1.flatMap yytexts ++ yytexts (cut current ls).2 = yytexts (current ++ ls) := by
  induction ls generalizing current with
  | nil => simp [cut]
  | cons l ls ih =>
    rw [cut]
    split
    · rw [List.flatMap_cons, List.append_assoc, ih]
      simp
    · rw [ih]
      simp

/-- The matches of a piece: it ends with a semicolon and holds no other one. -/
structure IsPiece (ls : List Lexeme) : Prop where
  lexemes : lexemes .initial (yytexts ls) = ls
  semicolon : ∃ before, ls = before ++ [semicolon] ∧ ∀ l ∈ before, isSemicolon l = false

/-- The pieces of a text are what they would be as texts of their own. -/
theorem isPiece_cut (start : StartCondition) (s : Bytes) : ∀ current : List Lexeme,
    lexemes .initial (yytexts current ++ s) = current ++ lexemes start s →
    (∀ l ∈ current, isSemicolon l = false) →
      (∀ piece ∈ (cut current (lexemes start s)).1, IsPiece piece) ∧
        lexemes .initial (yytexts (cut current (lexemes start s)).2) =
          (cut current (lexemes start s)).2 ∧
        ∀ l ∈ (cut current (lexemes start s)).2, isSemicolon l = false := by
  induction start, s using lexemes_induction with
  | nil start =>
    intro current hcurrent hnone
    rw [lexemes_nil, cut]
    refine ⟨by simp, lexemes_of_append hcurrent, hnone⟩
  | cons start w rest action hw hmunch ih =>
    intro current hcurrent hnone
    rw [lexemes_append hmunch hw] at hcurrent ⊢
    rw [cut]
    split
    case isTrue hsemi =>
      obtain ⟨rfl, rfl⟩ := Lexeme.mk.inj (beq_iff_eq.mp hsemi)
      obtain rfl := start_of_singleOp hmunch
      obtain ⟨hpieces, htail⟩ := ih [] rfl (by simp)
      refine ⟨List.forall_mem_cons.mpr ⟨⟨?_, current, rfl, hnone⟩, hpieces⟩, htail⟩
      rw [List.append_cons] at hcurrent
      exact lexemes_of_append hcurrent
    case isFalse hsemi =>
      apply ih
      · rw [yytexts_append, List.append_assoc, List.append_assoc]
        simpa using hcurrent
      · rw [List.forall_mem_append]
        exact ⟨hnone, by simpa using hsemi⟩

theorem semicolons_eq_nil {ls : List Lexeme} (h : ∀ l ∈ ls, isSemicolon l = false) (index : ℕ) :
    semicolons index ls = [] := by
  induction ls generalizing index with
  | nil => rfl
  | cons l ls ih =>
    rw [List.forall_mem_cons] at h
    rw [semicolons, if_neg (by simp [h.1]), ih h.2]

theorem semicolons_append (ls ls' : List Lexeme) (index : ℕ) :
    semicolons index (ls ++ ls') =
      semicolons index ls ++ semicolons (index + (yytexts ls).length) ls' := by
  induction ls generalizing index with
  | nil => simp [semicolons]
  | cons l ls ih =>
    rw [List.cons_append, semicolons, semicolons, ih]
    split <;> simp [Nat.add_assoc]

theorem IsPiece.semicolons {ls : List Lexeme} (h : IsPiece ls) :
    semicolons 0 (Parser.lexemes .initial (yytexts ls)) = [(yytexts ls).length - 1] := by
  obtain ⟨before, hls, hnone⟩ := h.semicolon
  have hlast : Client.semicolons (0 + (yytexts before).length) [Client.semicolon] =
      [(yytexts before).length] := by
    rw [Client.semicolons, if_pos isSemicolon_semicolon, Nat.zero_add]
    rfl
  rw [h.lexemes, hls, semicolons_append, semicolons_eq_nil hnone, hlast]
  simp [Client.semicolon]

/-! ## The agreement -/

/-- A part of the input of the client: a statement that it returns, or a piece that it drops. -/
structure Piece where
  text : Bytes
  isStatement : Bool

/-- A match that is white space or part of a comment. -/
def Blank (l : Lexeme) : Prop :=
  l.action = .skip ∨ l.action = .beginComment ∨ l.action = .endComment ∨
    ∀ c ∈ l.yytext, isSpace c = true

theorem blank_of_hasSql {l : Lexeme} (h : hasSql l = false) (hsemi : isSemicolon l = false) :
    Blank l := by
  unfold hasSql at h
  split at h
  case h_1 haction => exact .inl haction
  case h_2 haction => exact .inr (.inl haction)
  case h_3 haction => exact .inr (.inr (.inl haction))
  case h_4 =>
    rw [hsemi, Bool.not_false, Bool.true_and, hasText, List.any_eq_false] at h
    exact .inr (.inr (.inr fun c hc => by simpa using h c hc))

theorem found_split (input : Bytes) :
    Found .initial 0 [] [] (lexemes .initial input) (split input) :=
  run_found input .initial input .initial 0 [] [] ⟨rfl, rfl, rfl, rfl, .sql _ _⟩

/-- What stands behind the last semicolon. -/
theorem drop_statementStart (input : Bytes) :
    input.drop (split input).statementStart = yytexts (cut [] (lexemes .initial input)).2 := by
  have htext := yytexts_cut [] (lexemes .initial input)
  rw [List.nil_append, yytexts_lexemes] at htext
  rw [(found_split input).statementStart]
  generalize cut [] (lexemes .initial input) = pieces at *
  simp [← htext]

/-- Behind the last semicolon there are only white space and comments unless the client has seen
SQL there. -/
theorem blank_of_tailHasSql {input : Bytes} (h : (split input).flags.tailHasSql = false) :
    ∀ l ∈ lexemes .initial (input.drop (split input).statementStart), Blank l := by
  obtain ⟨-, htail, hnone⟩ := isPiece_cut .initial input [] rfl (by simp)
  rw [drop_statementStart, htail]
  rw [(found_split input).tailHasSql, anySql, List.any_eq_false] at h
  intro l hl
  exact blank_of_hasSql (by simpa using h l hl) (hnone l hl)

/-- The client and the lexer agree on where statements end: the client stops at the semicolons that
are tokens. What it returns and what it drops make up the input; a statement has one such semicolon,
at its end, and what is dropped is white space, comments and at most one semicolon. -/
theorem takeCompleteStatements_agrees (input : Bytes) :
    (split input).terminators = semicolons 0 (lexemes .initial input) ∧
    ∃ (pieces : List Piece) (dropped : Bytes),
      input = pieces.flatMap Piece.text ++ dropped ++ (takeCompleteStatements input).2 ∧
      (takeCompleteStatements input).1 = (pieces.filter Piece.isStatement).map Piece.text ∧
      (∀ piece ∈ pieces,
        semicolons 0 (lexemes .initial piece.text) = [piece.text.length - 1]) ∧
      (∀ piece ∈ pieces, piece.isStatement = false →
        ∀ l ∈ lexemes .initial piece.text, Blank l ∨ l = semicolon) ∧
      ∀ l ∈ lexemes .initial dropped, Blank l := by
  obtain ⟨hstatements, -, -, hterminators⟩ := found_split input
  obtain ⟨hpieces, -, -⟩ := isPiece_cut .initial input [] rfl (by simp)
  have htext := yytexts_cut [] (lexemes .initial input)
  rw [List.nil_append, yytexts_lexemes, ← drop_statementStart] at htext
  refine ⟨hterminators, ?_⟩
  generalize (cut [] (lexemes .initial input)).1 = pieces at *
  -- What is left over is dropped too if it is blank and no comment is open.
  obtain ⟨dropped, hinput, hblank⟩ : ∃ dropped,
      input.drop (split input).statementStart = dropped ++ (takeCompleteStatements input).2 ∧
        ∀ l ∈ lexemes .initial dropped, Blank l := by
    simp only [takeCompleteStatements]
    split
    case isTrue hcleared =>
      rw [Bool.and_eq_true, Bool.not_eq_true'] at hcleared
      exact ⟨_, (List.append_nil _).symm, blank_of_tailHasSql hcleared.1⟩
    case isFalse => exact ⟨[], by simp, by simp⟩
  refine ⟨pieces.map fun ls => ⟨yytexts ls, anySql ls⟩, dropped, ?_, ?_, ?_, ?_, hblank⟩
  · rw [List.append_assoc, ← hinput, List.flatMap_map]
    exact htext.symm
  · show (split input).statements = _
    rw [hstatements, List.filter_map, List.map_map]
    rfl
  · intro piece hpiece
    obtain ⟨ls, hls, rfl⟩ := List.mem_map.mp hpiece
    exact (hpieces ls hls).semicolons
  · intro piece hpiece hstatement
    obtain ⟨ls, hls, rfl⟩ := List.mem_map.mp hpiece
    rw [(hpieces ls hls).lexemes]
    intro l hl
    cases hsemi : isSemicolon l with
    | true => exact .inr (beq_iff_eq.mp hsemi)
    | false =>
      have hclear : anySql ls = false := hstatement
      rw [anySql, List.any_eq_false] at hclear
      exact .inl (blank_of_hasSql (by simpa using hclear l hl) hsemi)

end Rucbase.Client
