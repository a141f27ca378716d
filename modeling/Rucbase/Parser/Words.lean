import Rucbase.Parser.Lexer

/-!
# The words of the rules

What each rule of the lexer matches, without regular expressions: `Action.Word` gives the words of
the rules of an action in the start condition `INITIAL` (`mem_initialRules`). A match of the scanner
there is a word of its action, and no word at the start of the input is longer (`InitialMatch`).

The matches of a text are those of its parts: what the scanner matches does not depend on the text
behind the match, unless a longer word is there (`lexemes_of_append`).
-/

namespace Rucbase.Parser

open Lib Regex

/-! ## Regular expressions -/

/-- A body of a string literal: every quote in it is doubled. -/
def pairedQuotes : Bytes → Bool
  | [] => true
  | [c] => c != byte '\''
  | c :: d :: rest =>
    if c = byte '\'' then d == byte '\'' && pairedQuotes rest else pairedQuotes (d :: rest)

/-- `value_int`. -/
def IsIntLiteral (w : Bytes) : Prop :=
  ∃ digits, digits ≠ [] ∧ (∀ c ∈ digits, isDigit c = true) ∧
    (w = digits ∨ w = byte '+' :: digits ∨ w = byte '-' :: digits)

namespace Lex

variable {w : Bytes} {c : UInt8}

/-- A quoted pattern matches itself. -/
theorem mem_quoted {pattern : Bytes} : w ∈ (quoted pattern).language ↔ w = pattern := by
  have hrel : (fun c d : UInt8 => (d == c) = true) = (· = ·) := by
    funext c d
    exact propext (beq_iff_eq.trans eq_comm)
  rw [quoted, mem_language_word, List.forall₂_map_left_iff, hrel, List.forall₂_eq_eq_eq, eq_comm]

/-- A keyword matches in upper and lower case. -/
theorem mem_caseless {pattern : Bytes} :
    w ∈ (caseless pattern).language ↔ w.map toLower = pattern.map toLower := by
  have hrel : (fun c d : UInt8 => (toLower d == toLower c) = true) =
      fun c d => toLower c = toLower d := by
    funext c d
    exact propext (beq_iff_eq.trans eq_comm)
  rw [caseless, mem_language_word, List.forall₂_map_left_iff, hrel, eq_comm,
    ← List.forall₂_eq_eq_eq, List.forall₂_map_left_iff, List.forall₂_map_right_iff]

/-- The complement of a byte matches one other byte. -/
theorem mem_allBut : w ∈ (allBut c).language ↔ ∃ d, d ≠ c ∧ w = [d] := by
  simp [allBut]

/-- The dot matches every byte but a newline. -/
theorem mem_dot : w ∈ dot.language ↔ ∃ d, d ≠ byte '\n' ∧ w = [d] := mem_allBut

/-- A line comment goes on to the end of its line. -/
theorem mem_lineComment :
    w ∈ (Regex.seq (quoted (text "--")) (.star dot)).language ↔
      ∃ body, (∀ c ∈ body, c ≠ byte '\n') ∧ w = text "--" ++ body := by
  rw [mem_language_seq]
  simp only [mem_quoted, dot, allBut, mem_language_star_chars, bne_iff_ne]
  constructor
  · rintro ⟨u, rfl, v, hv, rfl⟩
    exact ⟨v, hv, rfl⟩
  · rintro ⟨body, hbody, rfl⟩
    exact ⟨_, rfl, body, hbody, rfl⟩

/-- White space is made of blanks and tabulators. -/
theorem mem_whiteSpace :
    w ∈ whiteSpace.language ↔ w ≠ [] ∧ ∀ c ∈ w, c = byte ' ' ∨ c = byte '\t' := by
  rw [whiteSpace, mem_language_plus_chars]
  simp only [Bool.or_eq_true, beq_iff_eq]

/-- A line ends with a carriage return, a newline, or both. -/
theorem mem_newLine :
    w ∈ newLine.language ↔
      w = [byte '\r'] ∨ w = [byte '\n'] ∨ w = [byte '\r', byte '\n'] := by
  simp only [newLine, mem_language_alt, mem_quoted]

/-- An operator of one byte. -/
theorem mem_singleOp : w ∈ singleOp.language ↔ ∃ c ∈ singleOps, w = [c] := by
  simp only [singleOp, mem_language_chars, List.contains_iff_mem]

/-- The rule of identifiers matches the identifiers. -/
theorem mem_identifier : w ∈ identifier.language ↔ IsIdentifier w := by
  rw [identifier, mem_language_seq]
  simp only [mem_language_chars, mem_language_star_chars]
  constructor
  · rintro ⟨u, ⟨c, hc, rfl⟩, v, hv, rfl⟩
    exact ⟨hc, hv⟩
  · intro h
    cases w with
    | nil => exact h.elim
    | cons c v => exact ⟨[c], ⟨c, h.1, rfl⟩, v, h.2, rfl⟩

/-- The rule of integers matches digits behind an optional sign. -/
theorem mem_valueInt : w ∈ valueInt.language ↔ IsIntLiteral w := by
  rw [valueInt, mem_language_seq]
  simp only [mem_language_opt, sign, mem_language_chars, mem_language_plus_chars, Bool.or_eq_true,
    beq_iff_eq]
  constructor
  · rintro ⟨u, rfl | ⟨c, rfl | rfl, rfl⟩, digits, ⟨hne, hdigits⟩, rfl⟩
    · exact ⟨digits, hne, hdigits, .inl rfl⟩
    · exact ⟨digits, hne, hdigits, .inr (.inl rfl)⟩
    · exact ⟨digits, hne, hdigits, .inr (.inr rfl)⟩
  · rintro ⟨digits, hne, hdigits, rfl | rfl | rfl⟩
    · exact ⟨[], .inl rfl, w, ⟨hne, hdigits⟩, rfl⟩
    · exact ⟨[byte '+'], .inr ⟨_, .inl rfl, rfl⟩, digits, ⟨hne, hdigits⟩, rfl⟩
    · exact ⟨[byte '-'], .inr ⟨_, .inr rfl, rfl⟩, digits, ⟨hne, hdigits⟩, rfl⟩

/-- A number with a point is an integer, the point, and digits or nothing behind it. -/
theorem mem_valueFloat :
    w ∈ valueFloat.language ↔
      ∃ int fraction, IsIntLiteral int ∧ (∀ c ∈ fraction, isDigit c = true) ∧
        w = int ++ byte '.' :: fraction := by
  rw [valueFloat, mem_language_seq]
  simp only [mem_language_seq, mem_valueInt, mem_quoted, mem_language_opt, mem_language_plus_chars]
  constructor
  · rintro ⟨int, hint, v, ⟨u, rfl, fraction, hfraction, rfl⟩, rfl⟩
    refine ⟨int, fraction, hint, ?_, rfl⟩
    rcases hfraction with rfl | ⟨-, hdigits⟩
    · exact fun c hc => absurd hc List.not_mem_nil
    · exact hdigits
  · rintro ⟨int, fraction, hint, hfraction, rfl⟩
    refine ⟨int, hint, _, ⟨_, rfl, fraction, ?_, rfl⟩, rfl⟩
    rcases eq_or_ne fraction [] with hnil | hne
    · exact .inl hnil
    · exact .inr ⟨hne, hfraction⟩

/-- Between the quotes of a string, quotes come in pairs. -/
theorem mem_stringBody : w ∈ stringBody.language ↔ pairedQuotes w = true := by
  have hpair : ∀ {c u}, c :: u ∈ (Regex.alt (allBut (byte '\''))
      (quoted [byte '\'', byte '\''])).language ↔
        (c ≠ byte '\'' ∧ u = []) ∨ (c = byte '\'' ∧ u = [byte '\'']) := by
    intro c u
    rw [mem_language_alt, mem_allBut, mem_quoted]
    simp
  unfold stringBody
  induction w using pairedQuotes.induct with
  | case1 => simp [pairedQuotes, nil_mem_language_star]
  | case2 c =>
    rw [cons_mem_language_star]
    simp only [hpair, pairedQuotes, bne_iff_ne, List.append_eq_nil_iff]
    constructor
    · rintro ⟨u, v, ⟨hc, -⟩ | ⟨-, rfl⟩, -, hu, -⟩
      · exact hc
      · exact absurd hu (List.cons_ne_nil _ _)
    · intro hc
      exact ⟨[], [], .inl ⟨hc, rfl⟩, nil_mem_language_star, rfl, rfl⟩
  | case3 d rest ih =>
    rw [cons_mem_language_star]
    simp only [hpair, pairedQuotes, if_pos, Bool.and_eq_true, beq_iff_eq, ← ih]
    constructor
    · rintro ⟨u, v, ⟨hc, -⟩ | ⟨-, rfl⟩, hv, huv⟩
      · exact absurd rfl hc
      · obtain ⟨rfl, rfl⟩ := List.cons.inj huv
        exact ⟨rfl, hv⟩
    · rintro ⟨rfl, hrest⟩
      exact ⟨[byte '\''], rest, .inr ⟨trivial, rfl⟩, hrest, rfl⟩
  | case4 c d rest hc ih =>
    rw [cons_mem_language_star]
    simp only [hpair, pairedQuotes, if_neg hc, ← ih]
    constructor
    · rintro ⟨u, v, ⟨-, rfl⟩ | ⟨hc', -⟩, hv, huv⟩
      · exact huv ▸ hv
      · exact absurd hc' hc
    · intro hrest
      exact ⟨[], d :: rest, .inl ⟨hc, rfl⟩, hrest, rfl⟩

/-- A string is a body between two quotes. -/
theorem mem_valueString :
    w ∈ valueString.language ↔
      ∃ body, pairedQuotes body = true ∧ w = byte '\'' :: (body ++ [byte '\'']) := by
  rw [valueString, mem_language_seq]
  simp only [mem_language_seq, mem_quoted, mem_stringBody]
  constructor
  · rintro ⟨u, rfl, v, ⟨body, hbody, x, rfl, rfl⟩, rfl⟩
    exact ⟨body, hbody, rfl⟩
  · rintro ⟨body, hbody, rfl⟩
    exact ⟨_, rfl, _, ⟨body, hbody, _, rfl, rfl⟩, rfl⟩

/-- A string without its end is a quote and a body. -/
theorem mem_unterminatedString :
    w ∈ unterminatedString.language ↔
      ∃ body, pairedQuotes body = true ∧ w = byte '\'' :: body := by
  rw [unterminatedString, mem_language_seq]
  simp only [mem_quoted, mem_stringBody]
  constructor
  · rintro ⟨u, rfl, body, hbody, rfl⟩
    exact ⟨body, hbody, rfl⟩
  · rintro ⟨body, hbody, rfl⟩
    exact ⟨_, rfl, body, hbody, rfl⟩

end Lex

/-! ## Words -/

/-- The words of the rules of an action in `INITIAL`. -/
def Action.Word : Action → Bytes → Prop
  | beginComment, w => w = text "/*"
  | skip, w =>
    (∃ body, (∀ c ∈ body, c ≠ byte '\n') ∧ w = text "--" ++ body) ∨
      (w ≠ [] ∧ ∀ c ∈ w, c = byte ' ' ∨ c = byte '\t') ∨
      (w = [byte '\r'] ∨ w = [byte '\n'] ∨ w = [byte '\r', byte '\n'])
  | keyword k, w => w.map toLower = k.pattern.map toLower
  | geq, w => w = text ">="
  | leq, w => w = text "<="
  | neq, w => w = text "!=" ∨ w = text "<>"
  | singleOp, w => ∃ c ∈ Lex.singleOps, w = [c]
  | identifier, w => IsIdentifier w
  | valueInt, w => IsIntLiteral w
  | valueFloat, w =>
    ∃ int fraction, IsIntLiteral int ∧ (∀ c ∈ fraction, isDigit c = true) ∧
      w = int ++ byte '.' :: fraction
  | valueString, w => ∃ body, pairedQuotes body = true ∧ w = byte '\'' :: (body ++ [byte '\''])
  | unterminatedString, w => ∃ body, pairedQuotes body = true ∧ w = byte '\'' :: body
  | unexpectedCharacter, w => ∃ c, c ≠ byte '\n' ∧ w = [c]
  | endComment, _ => False
  | echo, _ => False

/-- The bytes with which the words of an action may start. -/
def Action.First : Action → UInt8 → Bool
  | beginComment, c => c == byte '/'
  | skip, c => (text "- \t\r\n").contains c
  | keyword _, c => isAlpha c
  | geq, c => c == byte '>'
  | leq, c => c == byte '<'
  | neq, c => c == byte '!' || c == byte '<'
  | singleOp, c => Lex.singleOps.contains c
  | identifier, c => isAlpha c
  | valueInt, c => c == byte '+' || c == byte '-' || isDigit c
  | valueFloat, c => c == byte '+' || c == byte '-' || isDigit c
  | valueString, c => c == byte '\''
  | unterminatedString, c => c == byte '\''
  | unexpectedCharacter, c => c != byte '\n'
  | endComment, _ => false
  | echo, _ => false

/-- The list of keywords is complete. -/
theorem mem_keywords (k : Keyword) : k ∈ keywords := by
  cases k <;> decide

variable {action : Action} {w : Bytes} {c : UInt8}

/-- The words of the rules, without regular expressions. -/
theorem mem_initialRules : (∃ r, (r, action) ∈ initialRules ∧ w ∈ r.language) ↔ action.Word w := by
  unfold initialRules
  simp only [List.mem_append, List.mem_cons, List.mem_map, Prod.mk.injEq, List.not_mem_nil,
    or_false]
  cases action <;>
    simp [Action.Word, mem_keywords, Lex.mem_quoted, Lex.mem_caseless, Lex.mem_lineComment,
      Lex.mem_whiteSpace, Lex.mem_newLine, Lex.mem_singleOp, Lex.mem_identifier, Lex.mem_valueInt,
      Lex.mem_valueFloat, Lex.mem_valueString, Lex.mem_unterminatedString, Lex.mem_dot,
      or_and_right, exists_or, -mem_language_seq]

/-! ## Matches -/

/-- No rule matches the empty text. -/
theorem nullable_rules {start : StartCondition} {rule : Regex UInt8 × Action}
    (h : rule ∈ rules start) : rule.1.nullable = false := by
  have hall : ∀ start, (rules start).all (fun rule => !rule.1.nullable) = true := by
    intro start
    cases start <;> decide
  simpa using List.all_eq_true.mp (hall start) rule h

/-- Some rule matches every byte. -/
theorem munch_rules (start : StartCondition) (c : UInt8) (rest : Bytes) :
    ∃ w action, munch (rules start) (c :: rest) = some (c :: w, action) := by
  have hone : [c] <+: c :: rest := List.cons_prefix_cons.mpr ⟨rfl, List.nil_prefix⟩
  cases hmunch : munch (rules start) (c :: rest) with
  | none =>
    -- A rule of each start condition matches the byte on its own.
    have hnone := munch_eq_none.mp hmunch
    cases start with
    | initial =>
      by_cases hc : c = byte '\n'
      · exact absurd (Lex.mem_newLine.mpr (.inr (.inl (by rw [hc]))))
          (hnone (Lex.newLine, .skip) (by simp [rules, initialRules]) [c] hone)
      · exact absurd (Lex.mem_dot.mpr ⟨c, hc, rfl⟩)
          (hnone (Lex.dot, .unexpectedCharacter) (by simp [rules, initialRules]) [c] hone)
    | comment =>
      by_cases hc : c = byte '*'
      · exact absurd (Lex.mem_quoted.mpr (by rw [hc]))
          (hnone (Lex.quoted [byte '*'], .skip) (by simp [rules, commentRules]) [c] hone)
      · exact absurd (Lex.mem_allBut.mpr ⟨c, hc, rfl⟩)
          (hnone (Lex.allBut (byte '*'), .skip) (by simp [rules, commentRules]) [c] hone)
  | some p =>
    obtain ⟨w, action⟩ := p
    have h := IsMunch.of_munch hmunch
    obtain ⟨before, r, after, hrules, hmem, -⟩ := h.mem
    match w, h.start with
    | [], _ =>
      have hrule : (r, action) ∈ rules start := by simp [hrules]
      have hnull := nullable_rules hrule
      exact absurd (nullable_iff.mpr hmem) (by simp [hnull])
    | d :: w, hstart =>
      obtain ⟨rfl, -⟩ := List.cons_prefix_cons.mp hstart
      exact ⟨w, action, rfl⟩

/-- The match of the scanner is the longest one, by the first rule that has it. -/
theorem nextMatch_eq {start : StartCondition} {rest : Bytes} :
    nextMatch start c rest = (w, action) ↔ IsMunch (rules start) (c :: rest) (c :: w) action := by
  obtain ⟨v, action', hmunch⟩ := munch_rules start c rest
  rw [← munch_eq_some, nextMatch, hmunch]
  simp

/-- A match in `INITIAL`: a word of the action, such that no word at the start of the input is
longer. -/
structure InitialMatch (s w : Bytes) (action : Action) : Prop where
  start : w <+: s
  word : action.Word w
  le : ∀ {other : Action} {v : Bytes}, v <+: s → other.Word v → v.length ≤ w.length

/-- The longest match of the rules is a match in `INITIAL`. -/
theorem InitialMatch.of_isMunch {s : Bytes} (h : IsMunch initialRules s w action) :
    InitialMatch s w action := by
  obtain ⟨before, r, after, hrules, hmem, -⟩ := h.mem
  refine ⟨h.start, mem_initialRules.mp ⟨r, by simp [hrules], hmem⟩, ?_⟩
  intro other v hv hword
  obtain ⟨r', hrule, hmem'⟩ := mem_initialRules.mpr hword
  exact h.le _ hrule v hv hmem'

/-- The last rule is taken only where no other one matches. -/
theorem not_word_of_unexpectedCharacter {s : Bytes}
    (h : IsMunch initialRules s w .unexpectedCharacter) {other : Action}
    (hother : other ≠ .unexpectedCharacter) : ¬other.Word w := by
  intro hword
  have hsplit : initialRules = initialRules.dropLast ++ [(Lex.dot, .unexpectedCharacter)] := rfl
  obtain ⟨r, hrule, hmem⟩ := mem_initialRules.mpr hword
  rw [hsplit] at h hrule
  rcases List.mem_append.mp hrule with hfront | hlast
  · obtain ⟨r', hrule', -⟩ := h.mem_front hfront hmem
    have hactions : ∀ action ∈ initialRules.dropLast.map Prod.snd,
        action ≠ Action.unexpectedCharacter := by decide
    exact hactions _ (List.mem_map_of_mem hrule') rfl
  · exact hother (Prod.mk.inj (List.mem_singleton.mp hlast)).2

/-- The case of a letter does not matter. -/
theorem isAlpha_toLower (c : UInt8) : isAlpha (toLower c) = isAlpha c := by
  have hall : ∀ n : Fin 256, isAlpha (toLower (UInt8.ofFin n)) = isAlpha (UInt8.ofFin n) := by
    decide +kernel
  exact hall c.toFin

/-- The words of a keyword are words of letters. -/
theorem isAlpha_of_word_keyword {k : Keyword} (h : (Action.keyword k).Word w) (hc : c ∈ w) :
    isAlpha c = true := by
  have hpattern : k.pattern.all isAlpha = true := by cases k <;> decide
  have hlower : toLower c ∈ k.pattern.map toLower := h ▸ List.mem_map_of_mem hc
  obtain ⟨d, hd, hcd⟩ := List.mem_map.mp hlower
  rw [← isAlpha_toLower, ← hcd, isAlpha_toLower]
  exact List.all_eq_true.mp hpattern d hd

/-- The bytes of an integer literal. -/
theorem IsIntLiteral.chars (h : IsIntLiteral w) (hc : c ∈ w) :
    c = byte '+' ∨ c = byte '-' ∨ isDigit c = true := by
  obtain ⟨digits, -, hdigits, rfl | rfl | rfl⟩ := h
  · exact .inr (.inr (hdigits c hc))
  · rcases List.mem_cons.mp hc with rfl | hc
    · exact .inl rfl
    · exact .inr (.inr (hdigits c hc))
  · rcases List.mem_cons.mp hc with rfl | hc
    · exact .inr (.inl rfl)
    · exact .inr (.inr (hdigits c hc))

/-- The bytes in the words of tokens other than strings. -/
def isWordByte (c : UInt8) : Bool := isIdentChar c || (text "+-./*<>=!;(),").contains c

/-- The rules that match other bytes too. -/
def wideActions : List Action := [.skip, .valueString, .unterminatedString, .unexpectedCharacter]

/-- Strings, comments, white space and unexpected characters apart, words have few bytes. -/
theorem Action.Word.isWordByte (h : action.Word w) (haction : action ∉ wideActions) (hc : c ∈ w) :
    isWordByte c = true := by
  have hident {c : UInt8} (h : isIdentChar c = true) : Parser.isWordByte c = true := by
    simp [Parser.isWordByte, h]
  have hall {w : Bytes} {c : UInt8} (h : w.all Parser.isWordByte = true) (hc : c ∈ w) :
      Parser.isWordByte c = true := List.all_eq_true.mp h c hc
  have hint {w : Bytes} (h : IsIntLiteral w) : ∀ c ∈ w, Parser.isWordByte c = true := by
    intro c hc
    rcases h.chars hc with rfl | rfl | hdigit
    · decide
    · decide
    · exact hident (isIdentChar_of_isDigit hdigit)
  cases action with
  | keyword k => exact hident (isIdentChar_of_isAlpha (isAlpha_of_word_keyword h hc))
  | identifier => exact hident (IsIdentifier.isIdentChar h hc)
  | singleOp =>
    obtain ⟨d, hd, rfl⟩ := h
    obtain rfl := List.mem_singleton.mp hc
    exact hall (by decide) hd
  | valueInt => exact hint h c hc
  | valueFloat =>
    obtain ⟨int, fraction, hnumber, hfraction, rfl⟩ := h
    rcases List.mem_append.mp hc with hc | hc
    · exact hint hnumber c hc
    · rcases List.mem_cons.mp hc with rfl | hc
      · decide
      · exact hident (isIdentChar_of_isDigit (hfraction c hc))
  | beginComment | geq | leq =>
    obtain rfl := h
    exact hall (by decide) hc
  | neq => rcases h with rfl | rfl <;> exact hall (by decide) hc
  | endComment => exact h.elim
  | echo => exact h.elim
  | _ => exact absurd (by decide) haction

/-- An integer starts with a sign or a digit. -/
theorem IsIntLiteral.first (h : IsIntLiteral (c :: w)) :
    (c == byte '+' || c == byte '-' || isDigit c) = true := by
  obtain ⟨digits, -, hdigits, rfl | h | h⟩ := h
  · simp [hdigits c List.mem_cons_self]
  · simp [(List.cons.inj h).1]
  · simp [(List.cons.inj h).1]

/-- A word starts with a byte that the words of its action may start with. -/
theorem Action.Word.first (h : action.Word (c :: w)) : action.First c = true := by
  -- A word that is known byte by byte has a known first byte.
  cases action with
  | beginComment | geq | leq =>
    obtain ⟨rfl, -⟩ := List.cons.inj h
    decide
  | endComment => exact h.elim
  | echo => exact h.elim
  | skip =>
    rcases h with ⟨body, -, h⟩ | ⟨-, h⟩ | h | h | h
    case inr.inl => rcases h c List.mem_cons_self with rfl | rfl <;> decide
    all_goals
      obtain ⟨rfl, -⟩ := List.cons.inj h
      decide
  | keyword k => exact isAlpha_of_word_keyword h List.mem_cons_self
  | neq =>
    rcases h with h | h
    all_goals
      obtain ⟨rfl, -⟩ := List.cons.inj h
      decide
  | singleOp =>
    obtain ⟨d, hd, h⟩ := h
    obtain ⟨rfl, -⟩ := List.cons.inj h
    exact List.contains_iff_mem.mpr hd
  | identifier => exact h.1
  | valueInt => exact IsIntLiteral.first h
  | valueFloat =>
    obtain ⟨int, fraction, hint, -, h⟩ := h
    match int, hint with
    | [], ⟨digits, hne, _, hdigits⟩ => exact absurd hdigits (by simp [hne.symm])
    | d :: int, hint =>
      obtain ⟨rfl, -⟩ := List.cons.inj h
      exact hint.first
  | valueString | unterminatedString =>
    obtain ⟨body, -, h⟩ := h
    obtain ⟨rfl, -⟩ := List.cons.inj h
    decide
  | unexpectedCharacter =>
    obtain ⟨d, hd, h⟩ := h
    obtain ⟨rfl, -⟩ := List.cons.inj h
    simpa [Action.First] using hd

/-- The quotes of a text behind a body are paired like those of the text alone. -/
theorem pairedQuotes_append {u v : Bytes} (h : pairedQuotes u = true) :
    pairedQuotes (u ++ v) = pairedQuotes v := by
  induction u using pairedQuotes.induct with
  | case1 => rfl
  | case2 c =>
    have hc : c ≠ byte '\'' := by simpa [pairedQuotes] using h
    cases v with
    | nil => simpa [pairedQuotes] using hc
    | cons d v => simp [pairedQuotes, hc]
  | case3 d rest ih =>
    rw [pairedQuotes, if_pos rfl, Bool.and_eq_true, beq_iff_eq] at h
    obtain ⟨rfl, hrest⟩ := h
    simp only [List.cons_append, pairedQuotes, if_true, BEq.rfl, Bool.true_and]
    exact ih hrest
  | case4 c d rest hc ih =>
    rw [pairedQuotes, if_neg hc] at h
    rw [List.cons_append, List.cons_append, pairedQuotes, if_neg hc, ← List.cons_append]
    exact ih h

/-! ## Lexemes -/

section Lexemes

variable {start : StartCondition} {s : Bytes}

/-- The text of a sequence of matches. -/
def yytexts (ls : List Lexeme) : Bytes := ls.flatMap Lexeme.yytext

/-- No matches have no text. -/
@[simp]
theorem yytexts_nil : yytexts [] = [] := rfl

/-- The text of the first match comes first. -/
@[simp]
theorem yytexts_cons (l : Lexeme) (ls : List Lexeme) :
    yytexts (l :: ls) = l.yytext ++ yytexts ls := rfl

/-- The texts of matches behind each other are behind each other. -/
@[simp]
theorem yytexts_append (ls ls' : List Lexeme) : yytexts (ls ++ ls') = yytexts ls ++ yytexts ls' :=
  List.flatMap_append

/-- The empty text has no matches. -/
@[simp]
theorem lexemes_nil : lexemes start [] = [] := by
  rw [lexemes]

/-- The first match of a text is followed by the matches of what is behind it. -/
theorem lexemes_append {w rest : Bytes} {action : Action}
    (h : IsMunch (rules start) (w ++ rest) w action) (hw : w ≠ []) :
    lexemes start (w ++ rest) = ⟨w, action⟩ :: lexemes (action.next start) rest := by
  match w, hw with
  | c :: w, _ =>
    rw [List.cons_append] at h ⊢
    rw [lexemes, nextMatch_eq.mpr h]
    simp only [List.drop_left]

/-- The cases of a text: it is empty, or it starts with a match. -/
theorem lexemes_cases (start : StartCondition) (s : Bytes) :
    s = [] ∨ ∃ w rest action, w ≠ [] ∧ s = w ++ rest ∧
      IsMunch (rules start) (w ++ rest) w action ∧
      lexemes start s = ⟨w, action⟩ :: lexemes (action.next start) rest := by
  match s with
  | [] => exact .inl rfl
  | c :: rest =>
    obtain ⟨w, action, hmunch⟩ := munch_rules start c rest
    have h := IsMunch.of_munch hmunch
    obtain ⟨rest', hrest⟩ := h.start
    rw [← hrest] at h ⊢
    exact .inr ⟨c :: w, rest', action, List.cons_ne_nil c w, rfl, h,
      lexemes_append h (List.cons_ne_nil c w)⟩

/-- Induction over the matches of a text. -/
theorem lexemes_induction {motive : StartCondition → Bytes → Prop}
    (nil : ∀ start, motive start [])
    (cons : ∀ start w rest action, w ≠ [] → IsMunch (rules start) (w ++ rest) w action →
      motive (action.next start) rest → motive start (w ++ rest)) : ∀ start s, motive start s := by
  intro start s
  generalize hn : s.length = n
  induction n using Nat.strong_induction_on generalizing start s with
  | _ n ih =>
    rcases lexemes_cases start s with rfl | ⟨w, rest, action, hw, rfl, hmunch, -⟩
    · exact nil start
    · have hlt : rest.length < n := by
        have := List.length_pos_iff.mpr hw
        rw [← hn, List.length_append]
        omega
      exact cons start w rest action hw hmunch (ih _ hlt (action.next start) rest rfl)

/-- The matches of a text make up the text. -/
theorem yytexts_lexemes (start : StartCondition) (s : Bytes) : yytexts (lexemes start s) = s := by
  induction start, s using lexemes_induction with
  | nil start => rw [lexemes_nil, yytexts_nil]
  | cons start w rest action hw hmunch ih => rw [lexemes_append hmunch hw, yytexts_cons, ih]

/-- The first matches of a text are the matches of what they make up. -/
theorem lexemes_of_append {ls ls' : List Lexeme} (h : lexemes start s = ls ++ ls') :
    lexemes start (yytexts ls) = ls := by
  induction ls generalizing start s with
  | nil => exact lexemes_nil
  | cons l ls ih =>
    rcases lexemes_cases start s with rfl | ⟨w, rest, action, hw, rfl, hmunch, hlex⟩
    · rw [lexemes_nil] at h
      exact absurd h (by simp)
    · rw [List.cons_append] at h
      obtain ⟨rfl, hrest⟩ := List.cons.inj (hlex.symm.trans h)
      have hsplit : w ++ yytexts ls <+: w ++ rest := by
        rw [List.prefix_append_right_inj, ← yytexts_lexemes (action.next start) rest, hrest,
          yytexts_append]
        exact List.prefix_append _ _
      rw [yytexts_cons, lexemes_append (hmunch.of_start (List.prefix_append _ _) hsplit) hw,
        ih hrest]

end Lexemes

end Rucbase.Parser
