import Rucbase.Client.Splitter

/-!
# Passing over a match

The client goes over each match of the lexer as a whole. `Passes` says that its loop goes over a
word without ending a piece, and `Agrees` how the flags at the end of a match correspond to the
start condition there. `PassesMatch.of_isMunch` puts the two together: over a match that is not a
semicolon, the client passes and agrees with the lexer behind it.

Most words have no special byte in them (`Passes.ordinary`). For the others it matters that the
match is the longest one: a minus sign that is a match of its own has no other one behind it, a line
comment goes on to the end of the line, and a string literal is not followed by a quote.
-/

namespace Rucbase.Client

open Lib Rucbase.Parser Regex

/-! ## Passing over a word -/

/-- The loop goes over the word `w`, in front of `rest`, and only changes the flags. -/
def Passes (flags flags' : Flags) (w rest : Bytes) : Prop :=
  ∀ (input : Bytes) (splitter : Splitter) (index : ℕ), splitter.flags = flags →
    splitter.run input index (w ++ rest) =
      ({ splitter with flags := flags' } : Splitter).run input (index + w.length) rest

namespace Passes

variable {flags flags' flags'' : Flags} {ch : UInt8} {w rest : Bytes}

theorem nil : Passes flags flags [] rest := by
  rintro input splitter index rfl
  rfl

theorem next (hstep : flags.step ch ((w ++ rest).headD 0) = (flags', .next))
    (h : Passes flags' flags'' w rest) : Passes flags flags'' (ch :: w) rest := by
  rintro input splitter index rfl
  rw [List.cons_append, Splitter.run]
  simp only [hstep]
  rw [h input _ (index + 1) rfl, List.length_cons]
  congr 1
  omega

theorem skipNext {d : UInt8} (hstep : flags.step ch d = (flags', .skipNext))
    (h : Passes flags' flags'' w rest) : Passes flags flags'' (ch :: d :: w) rest := by
  rintro input splitter index rfl
  rw [List.cons_append, Splitter.run, List.cons_append]
  simp only [List.headD_cons, hstep, List.tail_cons]
  rw [h input _ (index + 2) rfl, List.length_cons, List.length_cons]
  congr 1
  omega

theorem append {v : Bytes} (h : Passes flags flags' w (v ++ rest))
    (h' : Passes flags' flags'' v rest) : Passes flags flags'' (w ++ v) rest := by
  intro input splitter index hflags
  rw [List.append_assoc, h input splitter index hflags, h' input _ _ rfl, List.length_append]
  congr 1
  omega

end Passes

/-! ## Words without a special byte -/

/-- The flags outside strings and comments. -/
def sqlFlags (hasSql : Bool) : Flags := ⟨false, false, false, hasSql⟩

/-- Outside strings and comments, the byte `ch` in front of `next` starts and ends nothing. -/
def Plain (ch next : UInt8) : Prop :=
  ch ≠ byte '\'' ∧ ch ≠ byte ';' ∧ ¬(ch = byte '-' ∧ next = byte '-') ∧
    ¬(ch = byte '/' ∧ next = byte '*')

/-- Whether a word holds more than white space. -/
def hasText (w : Bytes) : Bool := w.any fun c => !isSpace c

theorem step_plain {ch next : UInt8} (h : Plain ch next) (hasSql : Bool) :
    (sqlFlags hasSql).step ch next = (sqlFlags (hasSql || !isSpace ch), .next) := by
  obtain ⟨hquote, hsemicolon, hline, hblock⟩ := h
  unfold Flags.step sqlFlags
  simp only [Bool.false_eq_true, if_false, if_neg hquote, if_neg hsemicolon, if_neg hline,
    if_neg hblock]
  cases isSpace ch <;> simp

/-- The bytes that are special in no context. -/
def Ordinary (c : UInt8) : Prop :=
  c ≠ byte '\'' ∧ c ≠ byte ';' ∧ c ≠ byte '-' ∧ c ≠ byte '/'

variable {c : UInt8} {rest w : Bytes}

theorem Ordinary.plain (h : Ordinary c) (next : UInt8) : Plain c next :=
  ⟨h.1, h.2.1, fun hline => h.2.2.1 hline.1, fun hblock => h.2.2.2 hblock.1⟩

theorem Passes.plain {ch : UInt8} {hasSql : Bool} {flags : Flags}
    (hplain : Plain ch ((w ++ rest).headD 0))
    (h : Passes (sqlFlags (hasSql || !isSpace ch)) flags w rest) :
    Passes (sqlFlags hasSql) flags (ch :: w) rest :=
  .next (step_plain hplain hasSql) h

theorem Passes.ordinary (hasSql : Bool) (h : ∀ c ∈ w, Ordinary c) :
    Passes (sqlFlags hasSql) (sqlFlags (hasSql || hasText w)) w rest := by
  induction w generalizing hasSql with
  | nil => simpa [hasText] using Passes.nil
  | cons c w ih =>
    rw [List.forall_mem_cons] at h
    have hrest := ih (hasSql || !isSpace c) h.2
    rw [Bool.or_assoc] at hrest
    exact .plain (h.1.plain _) hrest

/-- A class of bytes without the special ones. -/
theorem ordinary_of {p : UInt8 → Bool}
    (hp : p (byte '\'') = false ∧ p (byte ';') = false ∧
    p (byte '-') = false ∧ p (byte '/') = false) (h : p c = true) : Ordinary c := by
  refine ⟨?_, ?_, ?_, ?_⟩
  · rintro rfl
    exact absurd h (by simp [hp.1])
  · rintro rfl
    exact absurd h (by simp [hp.2.1])
  · rintro rfl
    exact absurd h (by simp [hp.2.2.1])
  · rintro rfl
    exact absurd h (by simp [hp.2.2.2])

theorem ordinary_digit (h : isDigit c = true) : Ordinary c := ordinary_of (by decide) h

theorem ordinary_identChar (h : isIdentChar c = true) : Ordinary c :=
  ordinary_of (by decide) h

instance (c : UInt8) : Decidable (Ordinary c) :=
  inferInstanceAs (Decidable (c ≠ byte '\'' ∧ c ≠ byte ';' ∧ c ≠ byte '-' ∧ c ≠ byte '/'))

/-! ## Comments and strings -/

theorem Passes.lineComment (hasSql : Bool) (h : ∀ c ∈ w, c ≠ byte '\n') :
    Passes ⟨false, true, false, hasSql⟩ ⟨false, true, false, hasSql⟩ w rest := by
  induction w with
  | nil => exact .nil
  | cons c w ih =>
    rw [List.forall_mem_cons] at h
    exact .next (by simp [Flags.step, h.1]) (ih h.2)

theorem Passes.stringBody {body : Bytes} (hasSql : Bool) (h : pairedQuotes body = true) :
    Passes ⟨true, false, false, hasSql⟩ ⟨true, false, false, hasSql⟩ body rest := by
  induction body using pairedQuotes.induct with
  | case1 => exact .nil
  | case2 c =>
    -- The last byte of the body is no quote, since it has no second one.
    have hc : c ≠ byte '\'' := by simpa [pairedQuotes] using h
    exact .next (by simp [Flags.step, hc]) .nil
  | case3 d more ih =>
    -- The client goes over both quotes of a pair in one step.
    rw [pairedQuotes, if_pos rfl, Bool.and_eq_true, beq_iff_eq] at h
    obtain ⟨rfl, hmore⟩ := h
    exact .skipNext (by simp [Flags.step]) (ih hmore)
  | case4 c d more hc ih =>
    rw [pairedQuotes, if_neg hc] at h
    exact .next (by simp [Flags.step, hc]) (ih h)

theorem step_beginBlockComment (b : Bool) :
    (sqlFlags b).step (byte '/') (byte '*') = (⟨false, false, true, b⟩, .skipNext) := by
  cases b <;> decide

theorem step_beginLineComment (b : Bool) :
    (sqlFlags b).step (byte '-') (byte '-') = (⟨false, true, false, b⟩, .skipNext) := by
  cases b <;> decide

theorem step_beginString (b : Bool) (next : UInt8) :
    (sqlFlags b).step (byte '\'') next = (⟨true, false, false, true⟩, .next) := by
  have hline : ¬(byte '\'' = byte '-' ∧ next = byte '-') := fun h => absurd h.1 (by decide)
  have hblock : ¬(byte '\'' = byte '/' ∧ next = byte '*') := fun h => absurd h.1 (by decide)
  unfold Flags.step sqlFlags
  simp only [Bool.false_eq_true, if_false, if_neg hline, if_neg hblock, if_true]

theorem step_endString {next : UInt8} (h : next ≠ byte '\'') (b : Bool) :
    (⟨true, false, false, b⟩ : Flags).step (byte '\'') next = (sqlFlags b, .next) := by
  unfold Flags.step sqlFlags
  simp only [Bool.false_eq_true, if_false, if_true, if_neg h]

/-! ## Passing over a match -/

/-- How the flags correspond to the start condition, at a match in front of `rest`. Behind a line
comment the client waits for the end of the line, and an unterminated string ends the text. -/
inductive Agrees : StartCondition → Bytes → Flags → Prop where
  | sql (rest : Bytes) (hasSql : Bool) : Agrees .initial rest (sqlFlags hasSql)
  | lineComment (rest : Bytes) (hasSql : Bool) (h : ∀ c ∈ rest.head?, c = byte '\n') :
    Agrees .initial rest ⟨false, true, false, hasSql⟩
  | string (hasSql : Bool) : Agrees .initial [] ⟨true, false, false, hasSql⟩
  | blockComment (rest : Bytes) (hasSql : Bool) :
    Agrees .comment rest ⟨false, false, true, hasSql⟩

/-- The match of the token `;`. -/
def semicolon : Lexeme := ⟨[byte ';'], .singleOp⟩

/-- The match is the token `;`. -/
def isSemicolon (l : Lexeme) : Bool := l == semicolon

@[simp]
theorem isSemicolon_semicolon : isSemicolon semicolon = true := by decide

/-- The match is neither white space nor part of a comment nor the token `;`. -/
def hasSql (l : Lexeme) : Bool :=
  match l.action with
  | .skip => false
  | .beginComment => false
  | .endComment => false
  | _ => !isSemicolon l && hasText l.yytext

/-- The client passes over a match and agrees with the lexer behind it. -/
def PassesMatch (flags : Flags) (w rest : Bytes) (action : Action) (next : StartCondition) : Prop :=
  ∃ flags', Passes flags flags' w rest ∧ Agrees next rest flags' ∧
    flags'.tailHasSql = (flags.tailHasSql || hasSql ⟨w, action⟩)

section Initial

variable {w rest : Bytes} {action : Action}

variable {b : Bool} {body : Bytes}

/-- A word of ordinary bytes. -/
theorem PassesMatch.ordinary (h : ∀ c ∈ w, Ordinary c) (htext : hasSql ⟨w, action⟩ = hasText w) :
    PassesMatch (sqlFlags b) w rest action .initial :=
  ⟨_, .ordinary b h, .sql _ _, by rw [htext]; rfl⟩

/-- A fixed word, whose bytes are tested one by one. -/
theorem PassesMatch.fixed (h : w.all (fun c => decide (Ordinary c)) = true)
    (htext : hasSql ⟨w, action⟩ = hasText w) : PassesMatch (sqlFlags b) w rest action .initial :=
  .ordinary (by simpa using h) htext

theorem hasSql_of_not_semicolon (hsemi : isSemicolon ⟨w, action⟩ = false)
    (haction : action ≠ .skip ∧ action ≠ .beginComment ∧ action ≠ .endComment) :
    hasSql ⟨w, action⟩ = hasText w := by
  obtain ⟨hskip, hbegin, hend⟩ := haction
  unfold hasSql
  split <;> simp_all

theorem Passes.intLiteral {v : Bytes} (h : IsIntLiteral w) (hv : ∀ c ∈ v, Ordinary c) :
    Passes (sqlFlags b) (sqlFlags (b || hasText (w ++ v))) (w ++ v) rest := by
  obtain ⟨digits, hne, hdigits, rfl | rfl | rfl⟩ := h
  · -- Without a sign, and with a plus sign, all bytes are ordinary.
    apply Passes.ordinary
    rw [List.forall_mem_append]
    exact ⟨fun c hc => ordinary_digit (hdigits c hc), hv⟩
  · apply Passes.ordinary
    rw [List.forall_mem_append, List.forall_mem_cons]
    exact ⟨⟨by decide, fun c hc => ordinary_digit (hdigits c hc)⟩, hv⟩
  · -- The byte behind the minus sign is a digit.
    match digits, hne with
    | d :: digits, _ =>
      have hd : isDigit d = true := hdigits d List.mem_cons_self
      have hminus : d ≠ byte '-' := (ordinary_digit hd).2.2.1
      have hrest : ∀ c ∈ d :: digits ++ v, Ordinary c := by
        rw [List.forall_mem_append]
        exact ⟨fun c hc => ordinary_digit (hdigits c hc), hv⟩
      have hpass : Passes (sqlFlags (b || !isSpace (byte '-')))
          (sqlFlags (b || !isSpace (byte '-') || hasText (d :: digits ++ v))) (d :: digits ++ v)
          rest := .ordinary _ hrest
      rw [Bool.or_assoc] at hpass
      refine .plain ⟨by decide, by decide, fun h => hminus h.2, ?_⟩ hpass
      exact fun h => absurd h.1 (by decide)

/-- The byte behind the word makes no longer word with it. -/
def EndsWord (w rest : Bytes) : Prop :=
  ∀ c more, rest = c :: more → ∀ other : Action, ¬other.Word (w ++ [c])

theorem endsWord_of_match (h : InitialMatch (w ++ rest) w action) : EndsWord w rest := by
  rintro c more rfl other hother
  have hle := h.le ⟨more, by simp⟩ hother
  rw [List.length_append, List.length_singleton] at hle
  omega

/-- A line comment goes on to the end of the line. -/
theorem PassesMatch.lineComment (hbody : ∀ c ∈ body, c ≠ byte '\n')
    (hend : EndsWord (byte '-' :: byte '-' :: body) rest) :
    PassesMatch (sqlFlags b) (byte '-' :: byte '-' :: body) rest .skip .initial := by
  have hpass :
      Passes (sqlFlags b) ⟨false, true, false, b⟩ (byte '-' :: byte '-' :: body) rest :=
    .skipNext (step_beginLineComment b) (.lineComment b hbody)
  refine ⟨_, hpass, .lineComment _ _ ?_, by simp [hasSql, sqlFlags]⟩
  intro c hc
  obtain ⟨more, hrest⟩ := List.head?_eq_some_iff.mp hc
  -- Any other byte would make the comment longer.
  by_contra hline
  apply hend c more hrest .skip
  refine .inl ⟨body ++ [c], ?_, rfl⟩
  rw [List.forall_mem_append]
  exact ⟨hbody, by simpa using hline⟩

/-- Another quote behind the closing one would make it a doubled quote. -/
theorem PassesMatch.valueString (hbody : pairedQuotes body = true)
    (hend : EndsWord (byte '\'' :: (body ++ [byte '\''])) rest) :
    PassesMatch (sqlFlags b) (byte '\'' :: (body ++ [byte '\''])) rest .valueString .initial := by
  have hclosed : rest.headD 0 ≠ byte '\'' := by
    -- With another quote, this would be a longer string that is not closed.
    intro hquote
    cases hrest : rest with
    | nil =>
      rw [hrest] at hquote
      exact absurd hquote (by decide)
    | cons c more =>
      rw [hrest, List.headD_cons] at hquote
      apply hend c more hrest .unterminatedString
      refine ⟨body ++ [byte '\'', byte '\''], ?_, by simp [hquote]⟩
      rw [pairedQuotes_append hbody]
      decide
  have hclose : Passes ⟨true, false, false, true⟩ (sqlFlags true) [byte '\''] rest :=
    .next (step_endString hclosed true) .nil
  have hpass : Passes (sqlFlags b) (sqlFlags true) (byte '\'' :: (body ++ [byte '\''])) rest :=
    .next (step_beginString b _) ((Passes.stringBody true hbody).append hclose)
  refine ⟨_, hpass, .sql _ _, ?_⟩
  have htext : hasText (byte '\'' :: (body ++ [byte '\''])) = true := rfl
  rw [hasSql_of_not_semicolon (by simp [isSemicolon, semicolon]) (by simp), htext, Bool.or_true]
  rfl

/-- Nothing stands behind an unterminated string: another byte would go on with it or close it. -/
theorem PassesMatch.unterminatedString (hbody : pairedQuotes body = true)
    (hend : EndsWord (byte '\'' :: body) rest) :
    PassesMatch (sqlFlags b) (byte '\'' :: body) rest .unterminatedString .initial := by
  obtain rfl : rest = [] := by
    cases hrest : rest with
    | nil => rfl
    | cons c more =>
      -- A quote would close the string, and any other byte would belong to it.
      exfalso
      by_cases hc : c = byte '\''
      · exact hend c more hrest .valueString ⟨body, hbody, by rw [hc]; rfl⟩
      · apply hend c more hrest .unterminatedString
        refine ⟨body ++ [c], ?_, rfl⟩
        rw [pairedQuotes_append hbody]
        simpa [pairedQuotes] using hc
  have hpass : Passes (sqlFlags b) ⟨true, false, false, true⟩ (byte '\'' :: body) [] :=
    .next (step_beginString b _) (.stringBody true hbody)
  refine ⟨_, hpass, .string _, ?_⟩
  have htext : hasText (byte '\'' :: body) = true := rfl
  rw [hasSql_of_not_semicolon (by simp [isSemicolon, semicolon]) (by simp), htext, Bool.or_true]

/-- A byte that only the last rule matches starts nothing, with the byte behind it neither. -/
theorem PassesMatch.unexpectedCharacter {c : UInt8}
    (hother : ∀ other : Action, other ≠ .unexpectedCharacter → ¬other.Word [c])
    (hend : EndsWord [c] rest) :
    PassesMatch (sqlFlags b) [c] rest .unexpectedCharacter .initial := by
  have hnext : ∀ d, d ≠ 0 → rest.headD 0 = d → ∀ other : Action, ¬other.Word ([c] ++ [d]) := by
    intro d hd hhead
    cases hrest : rest with
    | nil =>
      rw [hrest] at hhead
      exact absurd hhead.symm hd
    | cons d' more =>
      rw [hrest, List.headD_cons] at hhead
      rw [← hhead]
      exact hend d' more hrest
  have hplain : Plain c (rest.headD 0) := by
    -- Each of the special bytes would be a word of another rule, alone or with the next byte.
    refine ⟨?_, ?_, ?_, ?_⟩
    · rintro rfl
      exact hother .unterminatedString (by simp) ⟨[], rfl, rfl⟩
    · rintro rfl
      exact hother .singleOp (by simp) ⟨_, by decide, rfl⟩
    · rintro ⟨rfl, hminus⟩
      exact hnext _ (by decide) hminus .skip (.inl ⟨[], by simp, rfl⟩)
    · rintro ⟨rfl, hstar⟩
      exact hnext _ (by decide) hstar .beginComment rfl
  have hpass : Passes (sqlFlags b) (sqlFlags (b || !isSpace c)) [c] rest := .plain hplain .nil
  refine ⟨_, hpass, .sql _ _, ?_⟩
  rw [hasSql_of_not_semicolon (by simp [isSemicolon, semicolon]) (by simp)]
  simp [hasText, sqlFlags]

/-- The client passes over a match of the start condition `INITIAL`. -/
theorem PassesMatch.of_initial (h : IsMunch initialRules (w ++ rest) w action)
    (hsemi : isSemicolon ⟨w, action⟩ = false) :
    PassesMatch (sqlFlags b) w rest action (action.next .initial) := by
  have hmatch := InitialMatch.of_isMunch h
  have hword := hmatch.word
  have hend := endsWord_of_match hmatch
  -- One case for each action: its words are known, and decide how the client goes over them.
  cases action with
  | beginComment =>
    obtain rfl := hword
    have hpass : Passes (sqlFlags b) ⟨false, false, true, b⟩ [byte '/', byte '*'] rest :=
      .skipNext (step_beginBlockComment b) .nil
    exact ⟨_, hpass, .blockComment _ _, by simp [hasSql, sqlFlags]⟩
  -- These two rules are not in `INITIAL`.
  | endComment => exact hword.elim
  | echo => exact hword.elim
  | skip =>
    rcases hword with ⟨body, hbody, rfl⟩ | ⟨hne, hwhite⟩ | hnewLine
    · exact .lineComment hbody hend
    · -- Blanks are ordinary bytes, and no SQL.
      have hordinary : ∀ c ∈ w, Ordinary c := by
        intro c hc
        rcases hwhite c hc with rfl | rfl <;> decide
      have hblank : hasText w = false := by
        rw [hasText, List.any_eq_false]
        intro c hc
        rcases hwhite c hc with rfl | rfl <;> decide
      exact .ordinary hordinary hblank.symm
    · rcases hnewLine with rfl | rfl | rfl <;> exact .fixed (by decide) (by decide)
  | keyword k =>
    apply PassesMatch.ordinary
    · intro c hc
      exact ordinary_identChar (isIdentChar_of_isAlpha (isAlpha_of_word_keyword hword hc))
    · exact hasSql_of_not_semicolon hsemi (by simp)
  | geq | leq =>
    obtain rfl := hword
    exact .fixed (by decide) (by decide)
  | neq =>
    rcases hword with rfl | rfl <;> exact .fixed (by decide) (by decide)
  | singleOp =>
    obtain ⟨c, hc, rfl⟩ := hword
    -- The semicolon is the only operator that is special: it ends a piece.
    have hne : c ≠ byte ';' := by
      rintro rfl
      exact absurd hsemi (by decide)
    have hops : ∀ c ∈ Lex.singleOps, c ≠ byte ';' → Ordinary c := by decide +kernel
    apply PassesMatch.ordinary
    · simpa using hops c hc hne
    · exact hasSql_of_not_semicolon hsemi (by simp)
  | identifier =>
    apply PassesMatch.ordinary
    · exact fun c hc => ordinary_identChar (hword.isIdentChar hc)
    · exact hasSql_of_not_semicolon hsemi (by simp)
  | valueInt =>
    -- A sign may stand in front, so not all bytes are ordinary.
    have hpass : Passes (sqlFlags b) (sqlFlags (b || hasText (w ++ []))) (w ++ []) rest :=
      .intLiteral hword (by simp)
    rw [List.append_nil] at hpass
    exact ⟨_, hpass, .sql _ _, by rw [hasSql_of_not_semicolon hsemi (by simp)]; rfl⟩
  | valueFloat =>
    obtain ⟨int, fraction, hint, hfraction, rfl⟩ := hword
    have hordinary : ∀ c ∈ byte '.' :: fraction, Ordinary c := by
      rw [List.forall_mem_cons]
      exact ⟨by decide, fun c hc => ordinary_digit (hfraction c hc)⟩
    exact ⟨_, .intLiteral hint hordinary, .sql _ _,
      by rw [hasSql_of_not_semicolon hsemi (by simp)]; rfl⟩
  | valueString =>
    obtain ⟨body, hbody, rfl⟩ := hword
    exact .valueString hbody hend
  | unterminatedString =>
    obtain ⟨body, hbody, rfl⟩ := hword
    exact .unterminatedString hbody hend
  | unexpectedCharacter =>
    obtain ⟨c, hc, rfl⟩ := hword
    exact .unexpectedCharacter (fun other => not_word_of_unexpectedCharacter h) hend

/-- The end of a line is a match of its own. -/
theorem word_newLine (h : action.Word (byte '\n' :: w)) : action = .skip ∧ w = [] := by
  obtain rfl : action = .skip := by
    have hfirst := h.first
    cases action with
    | skip => rfl
    | keyword k =>
      have hletter : isAlpha (byte '\n') = true := hfirst
      exact absurd hletter (by decide)
    | _ => exact absurd hfirst (by decide)
  refine ⟨rfl, ?_⟩
  rcases h with ⟨body, -, h⟩ | ⟨-, h⟩ | h | h | h
  · exact absurd (List.cons.inj h).1 (by decide)
  · exact absurd (h _ List.mem_cons_self) (by decide)
  · exact absurd (List.cons.inj h).1 (by decide)
  · exact (List.cons.inj h).2
  · exact absurd (List.cons.inj h).1 (by decide)

end Initial

/-- The matches inside a block comment. -/
theorem commentMatch_cases {action : Action} (h : IsMunch commentRules (w ++ rest) w action) :
    (w = [byte '*', byte '/'] ∧ action = .endComment) ∨
      ∃ c, w = [c] ∧ action = .skip ∧ ¬(c = byte '*' ∧ rest.headD 0 = byte '/') := by
  obtain ⟨before, r, after, hrules, hmem, -⟩ := h.mem
  have hrule : (r, action) ∈ commentRules := by simp [hrules]
  simp only [commentRules, List.mem_cons, Prod.mk.injEq, List.not_mem_nil, or_false] at hrule
  -- Otherwise the rule of the closing bytes would have a longer match.
  have hclosing : ∀ c, w = [c] → ¬(c = byte '*' ∧ rest.headD 0 = byte '/') := by
    rintro c rfl ⟨rfl, hslash⟩
    cases rest with
    | nil => exact absurd hslash (by decide)
    | cons d more =>
      obtain rfl : d = byte '/' := hslash
      have hle := h.le (Lex.quoted (text "*/"), .endComment) (by simp [commentRules])
        [byte '*', byte '/'] ⟨more, rfl⟩ (Lex.mem_quoted.mpr rfl)
      exact absurd hle (by decide)
  rcases hrule with ⟨rfl, rfl⟩ | ⟨rfl, rfl⟩ | ⟨rfl, rfl⟩
  · exact .inl ⟨Lex.mem_quoted.mp hmem, rfl⟩
  · obtain ⟨c, -, hw⟩ := Lex.mem_allBut.mp hmem
    exact .inr ⟨c, hw, rfl, hclosing c hw⟩
  · have hw := Lex.mem_quoted.mp hmem
    exact .inr ⟨_, hw, rfl, hclosing _ hw⟩

/-- The client passes over a match that is not a semicolon. -/
theorem PassesMatch.of_isMunch {start : StartCondition} {action : Action} {flags : Flags}
    (hw : w ≠ []) (hflags : Agrees start (w ++ rest) flags)
    (h : IsMunch (rules start) (w ++ rest) w action) (hsemi : isSemicolon ⟨w, action⟩ = false) :
    PassesMatch flags w rest action (action.next start) := by
  generalize hs : w ++ rest = s at hflags
  cases hflags with
  | sql s b => exact .of_initial h hsemi
  | lineComment s b hline =>
    -- The lexer is behind its line comment, and what comes is the end of the line.
    match w, hw with
    | c :: w, _ =>
      obtain rfl : c = byte '\n' := hline c (by simp [← hs])
      obtain ⟨rfl, rfl⟩ := word_newLine (InitialMatch.of_isMunch h).word
      have hpass : Passes ⟨false, true, false, b⟩ (sqlFlags b) [byte '\n'] rest :=
        .next (by simp [Flags.step, sqlFlags]) .nil
      exact ⟨_, hpass, .sql _ _, by simp [hasSql, sqlFlags]⟩
  -- Nothing comes behind an unterminated string.
  | string b => exact absurd (List.append_eq_nil_iff.mp hs).1 hw
  | blockComment s b =>
    -- The comment ends, or it goes on by one byte.
    rcases commentMatch_cases h with ⟨rfl, rfl⟩ | ⟨c, rfl, rfl, hopen⟩
    · have hpass : Passes ⟨false, false, true, b⟩ (sqlFlags b) [byte '*', byte '/'] rest :=
        .skipNext (by simp [Flags.step, sqlFlags]) .nil
      exact ⟨_, hpass, .sql _ _, by simp [hasSql, sqlFlags]⟩
    · have hpass : Passes ⟨false, false, true, b⟩ ⟨false, false, true, b⟩ [c] rest :=
        .next (by simpa [Flags.step] using hopen) .nil
      exact ⟨_, hpass, .blockComment _ _, by simp [hasSql]⟩

end Rucbase.Client
