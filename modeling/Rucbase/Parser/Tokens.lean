import Rucbase.Parser.Scan

/-!
# The tokens of a text, from its matches

`scanAll` calls `yylex` until the text ends. What it returns depends on the text only, not on the
locations: the tokens of the matches (`tokensOf`), and one more if a comment is open at the end
(`scanAll_eq`).

A match goes over the end of a line only inside a string (`Action.Word.of_newLine`). So a match that
starts with no quote, in a text that ends with a line break, is a match there too when more lines
follow (`isMunch_append`).
-/

namespace Rucbase.Parser

open Lib Regex

/-! ## The tokens of the matches -/

/-- The start condition behind a sequence of matches. -/
def startBehind (start : StartCondition) (ls : List Lexeme) : StartCondition :=
  ls.foldl (fun start l => l.action.next start) start

/-- The tokens that the matches return. -/
def tokensOf (strtof : Bytes → Option (BitVec 32)) (ls : List Lexeme) : List Token :=
  ls.filterMap fun l => (l.action.result strtof l.yytext).map Prod.fst

/-- The token that the end of the text returns, if any. -/
def endTokens : StartCondition → List Token
  | .initial => []
  | .comment => [.invalid]

section Tokens

variable {strtof : Bytes → Option (BitVec 32)}

@[simp]
theorem startBehind_nil (start : StartCondition) : startBehind start [] = start := rfl

@[simp]
theorem startBehind_cons (start : StartCondition) (l : Lexeme) (ls : List Lexeme) :
    startBehind start (l :: ls) = startBehind (l.action.next start) ls := rfl

theorem startBehind_append (start : StartCondition) (ls ls' : List Lexeme) :
    startBehind start (ls ++ ls') = startBehind (startBehind start ls) ls' := List.foldl_append

theorem tokensOf_append (ls ls' : List Lexeme) :
    tokensOf strtof (ls ++ ls') = tokensOf strtof ls ++ tokensOf strtof ls' := List.filterMap_append

theorem scanAll_initial_nil {scanner : Scanner} (hstart : scanner.start = .initial)
    (h : scanner.input = []) : scanAll strtof scanner = [] := by
  have hyylex := yylex_nil strtof h
  rw [Scanner.atEnd, hstart] at hyylex
  exact scanAll_none hyylex

theorem scanAll_nil {scanner : Scanner} (h : scanner.input = []) :
    scanAll strtof scanner = endTokens scanner.start := by
  cases hstart : scanner.start with
  | initial => exact scanAll_initial_nil hstart h
  | comment =>
    -- The end of the text in a comment is an error, and the scanner goes back to `INITIAL`.
    have hyylex := yylex_nil strtof h
    rw [Scanner.atEnd, hstart] at hyylex
    rw [scanAll_some hyylex]
    exact congrArg (List.cons Token.invalid) (scanAll_initial_nil rfl h)

/-- The tokens of a text are those of its matches. -/
theorem scanAll_eq (scanner : Scanner) :
    scanAll strtof scanner = tokensOf strtof (lexemes scanner.start scanner.input) ++
      endTokens (startBehind scanner.start (lexemes scanner.start scanner.input)) := by
  generalize hstart : scanner.start = start
  generalize hinput : scanner.input = s
  induction start, s using lexemes_induction generalizing scanner with
  | nil start =>
    rw [scanAll_nil hinput, hstart, lexemes_nil]
    rfl
  | cons start w rest action hw hmunch ih =>
    have hyylex := @yylex_munch w strtof scanner rest action hw hinput (hstart.symm ▸ hmunch)
    have hrest := ih (scanner.act strtof w rest action) (by rw [Scanner.start_act, hstart])
      (Scanner.input_act ..)
    rw [lexemes_append hmunch hw, startBehind_cons]
    cases hresult : action.result strtof w with
    | none =>
      rw [hresult] at hyylex
      rw [scanAll_congr hyylex, hrest]
      simp [tokensOf, hresult]
    | some result =>
      rw [hresult] at hyylex
      rw [scanAll_some hyylex, hrest]
      simp [tokensOf, hresult]

end Tokens

/-! ## The end of a line -/

/-- A text of complete lines. -/
def EndsLine (s : Bytes) : Prop := s = [] ∨ s.getLast? = some (byte '\n')

theorem EndsLine.of_append (front : Bytes) {s : Bytes} (h : EndsLine (front ++ s)) :
    EndsLine s := by
  match s with
  | [] => exact .inl rfl
  | c :: s =>
    rcases h with h | h
    · exact absurd h (by simp)
    · exact .inr (by rwa [List.getLast?_append_of_ne_nil _ (List.cons_ne_nil c s)] at h)

theorem EndsLine.eq_newLine {c : UInt8} (h : EndsLine [c]) : c = byte '\n' := by
  rcases h with h | h
  · exact absurd h (List.cons_ne_nil c [])
  · exact Option.some.inj h

theorem EndsLine.append {s s' : Bytes} (h : EndsLine s) (h' : EndsLine s') :
    EndsLine (s ++ s') := by
  rcases h' with rfl | h'
  · rwa [List.append_nil]
  · exact .inr (by rw [List.getLast?_append, h', Option.some_or])

/-- Only strings go over the end of a line. -/
theorem Action.Word.of_newLine {action : Action} {u v : Bytes}
    (h : action.Word (u ++ byte '\n' :: v)) (hv : v ≠ []) :
    action = .valueString ∨ action = .unterminatedString := by
  have hmem : byte '\n' ∈ u ++ byte '\n' :: v := by simp
  have hlong : 2 ≤ (u ++ byte '\n' :: v).length := by
    have := List.length_pos_iff.mpr hv
    rw [List.length_append, List.length_cons]
    omega
  generalize hw : u ++ byte '\n' :: v = w at h hmem hlong
  by_cases haction : action ∈ wideActions
  · simp only [wideActions, List.mem_cons, List.not_mem_nil, or_false] at haction
    rcases haction with rfl | rfl | rfl | rfl
    · rcases h with ⟨body, hbody, rfl⟩ | ⟨-, hblanks⟩ | rfl | rfl | rfl
      · rcases List.mem_append.mp hmem with hdash | hbreak
        · exact absurd hdash (by decide)
        · exact absurd rfl (hbody _ hbreak)
      · rcases hblanks _ hmem with hblank | hblank
        · exact absurd hblank (by decide)
        · exact absurd hblank (by decide)
      · exact absurd hlong (by simp)
      · exact absurd hlong (by simp)
      · -- The line break is the last byte of a carriage return with a line break.
        rcases u with _ | ⟨c, _ | ⟨d, u⟩⟩
        · exact absurd (List.cons.inj hw).1 (by decide)
        · exact absurd (List.cons.inj (List.cons.inj hw).2).2 hv
        · have hend := (List.cons.inj (List.cons.inj hw).2).2
          exact absurd hend (by simp)
    · exact .inl rfl
    · exact .inr rfl
    · obtain ⟨c, -, rfl⟩ := h
      exact absurd hlong (by simp)
  · exact absurd (h.isWordByte haction hmem) (by decide)

/-- A match in `INITIAL` does not go over the end of a line if it starts with no quote, and one in a
comment never does. -/
theorem notMem_language_of_newLine {start : StartCondition} {rule : Regex UInt8 × Action}
    {u v : Bytes} (hrule : rule ∈ rules start) (hv : v ≠ [])
    (hquote : start = .initial → (u ++ [byte '\n']).head? ≠ some (byte '\'')) :
    u ++ byte '\n' :: v ∉ rule.1.language := by
  intro hmem
  cases start with
  | initial =>
    have hword : rule.2.Word (u ++ byte '\n' :: v) := mem_initialRules.mp ⟨rule.1, hrule, hmem⟩
    have hfirst : (u ++ byte '\n' :: v).head? = some (byte '\'') := by
      rcases hword.of_newLine hv with haction | haction
      all_goals
        rw [haction] at hword
        obtain ⟨body, -, hbody⟩ := hword
        rw [hbody, List.head?_cons]
    apply hquote rfl
    rw [← hfirst]
    cases u <;> rfl
  | comment =>
    have hlong : 2 ≤ (u ++ byte '\n' :: v).length := by
      have := List.length_pos_iff.mpr hv
      rw [List.length_append, List.length_cons]
      omega
    have hbreak : byte '\n' ∈ u ++ byte '\n' :: v := by simp
    generalize u ++ byte '\n' :: v = w at hmem hlong hbreak
    simp only [rules, commentRules, List.mem_cons, List.not_mem_nil, or_false] at hrule
    rcases hrule with rfl | rfl | rfl
    · obtain rfl := Lex.mem_quoted.mp hmem
      exact absurd hbreak (by decide)
    · obtain ⟨c, -, rfl⟩ := Lex.mem_allBut.mp hmem
      exact absurd hlong (by simp)
    · obtain rfl := Lex.mem_quoted.mp hmem
      exact absurd hlong (by simp)

/-- A match in complete lines stays one when more text follows. -/
theorem isMunch_append {start : StartCondition} {w rest : Bytes} {action : Action} (more : Bytes)
    (h : IsMunch (rules start) (w ++ rest) w action) (hw : w ≠ []) (hline : EndsLine (w ++ rest))
    (hquote : start = .initial → w.head? ≠ some (byte '\'')) :
    IsMunch (rules start) (w ++ rest ++ more) w action := by
  refine ⟨?_, ?_, h.mem⟩
  · exact (List.prefix_append w rest).trans (List.prefix_append _ more)
  intro rule hrule v hv hmem
  have hlines : w ++ rest <+: w ++ rest ++ more := List.prefix_append _ _
  rcases List.prefix_or_prefix_of_prefix hv hlines with hv | ⟨v', rfl⟩
  · exact h.le rule hrule v hv hmem
  -- A longer match would go over the line break at the end.
  by_cases hv' : v' = []
  · subst hv'
    rw [List.append_nil] at hmem ⊢
    exact h.le rule hrule _ (List.prefix_refl _) hmem
  · rcases hline with hnil | hlast
    · exact absurd (List.append_eq_nil_iff.mp hnil).1 hw
    obtain ⟨u, hu⟩ := List.getLast?_eq_some_iff.mp hlast
    have hhead : (u ++ [byte '\n']).head? = w.head? := by
      rw [← hu]
      match w, hw with
      | c :: w, _ => rfl
    rw [hu, List.append_assoc, List.singleton_append] at hmem
    refine absurd hmem (notMem_language_of_newLine hrule hv' ?_)
    rwa [hhead]

end Rucbase.Parser
