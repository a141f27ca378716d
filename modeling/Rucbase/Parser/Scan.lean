import Mathlib.Data.Nat.Digits.Lemmas
import Rucbase.Parser.Parse

/-!
# Scanning what is spelt

How a token is written (`Token.Spells`), and that the scanner reads it back: a word with a blank or
the end of the text behind it is matched as a whole (`spells_munch`), by the rule of its token. So a
text of words with single blanks between them has exactly its tokens (`scanAll_spelt`).

Two rules may match the same word. A keyword is also an identifier, and its rule comes first; a
single character is also an unexpected one, for which the rule comes last. No other word of a token
is one of two rules, and longer matches would go on over the blank, which only comments, blanks and
strings do.
-/

namespace Rucbase.Parser

open Lib Regex

/-! ## Literals -/

/-- The decimal digits of a number. -/
def decimalNat (n : ℕ) : Bytes :=
  if n = 0 then [byte '0'] else (Nat.digits 10 n).reverse.map fun d => UInt8.ofNat (48 + d)

/-- An integer in decimal notation. -/
def decimal (v : ℤ) : Bytes :=
  if v < 0 then byte '-' :: decimalNat v.natAbs else decimalNat v.natAbs

/-- A text with its quotes doubled. -/
def doubleQuotes (s : Bytes) : Bytes :=
  s.flatMap fun c => if c = byte '\'' then [c, c] else [c]

theorem decimalNat_ne_nil (n : ℕ) : decimalNat n ≠ [] := by
  unfold decimalNat
  split
  · simp
  case isFalse h => simpa using Nat.digits_ne_nil_iff_ne_zero.mpr h

theorem isDigit_ofNat {d : ℕ} (h : d < 10) : isDigit (UInt8.ofNat (48 + d)) = true := by
  interval_cases d <;> rfl

theorem toNat_ofNat_digit {d : ℕ} (h : d < 10) : (UInt8.ofNat (48 + d)).toNat - 48 = d := by
  rw [UInt8.toNat_ofNat']
  omega

variable {c : UInt8} {s : Bytes} {other : Action}

theorem isDigit_of_mem_decimalNat {n : ℕ} (h : c ∈ decimalNat n) : isDigit c = true := by
  unfold decimalNat at h
  split at h
  · obtain rfl := List.mem_singleton.mp h
    rfl
  · obtain ⟨d, hd, rfl⟩ := List.mem_map.mp h
    exact isDigit_ofNat (Nat.digits_lt_base (by omega) (List.mem_reverse.mp hd))

theorem digitsValue_decimalNat (n : ℕ) : digitsValue (decimalNat n) = n := by
  unfold digitsValue decimalNat
  split
  case isTrue h => exact h.symm
  case isFalse h =>
    have hdigits : ∀ d ∈ Nat.digits 10 n, (UInt8.ofNat (48 + d)).toNat - 48 = d :=
      fun d hd => toNat_ofNat_digit (Nat.digits_lt_base (by omega) hd)
    -- The loop takes the most significant digit first, `Nat.ofDigits` the least significant one.
    rw [List.foldl_map, List.foldl_reverse]
    calc (Nat.digits 10 n).foldr (fun d m => m * 10 + ((UInt8.ofNat (48 + d)).toNat - 48)) 0
        = (Nat.digits 10 n).foldr (fun d m => d + 10 * m) 0 := by
          apply List.foldr_ext
          intro d hd m
          rw [hdigits d hd]
          omega
      _ = Nat.ofDigits 10 (Nat.digits 10 n) := (Nat.ofDigits_eq_foldr 10 _).symm
      _ = n := Nat.ofDigits_digits 10 n

theorem fromChars_decimal {v : ℤ} (hlow : -2^31 ≤ v) (hhigh : v < 2^31) :
    fromChars (decimal v) = some (BitVec.ofInt 32 v) := by
  have hdigits : (decimalNat v.natAbs).all isDigit = true :=
    List.all_eq_true.mpr fun c hc => isDigit_of_mem_decimalNat hc
  have hne := decimalNat_ne_nil v.natAbs
  have hvalue := digitsValue_decimalNat v.natAbs
  unfold decimal
  split
  case isTrue hneg =>
    have habs : -(v.natAbs : ℤ) = v := by omega
    -- The minus sign is read, and the digits are those of the absolute value.
    simp only [fromChars, if_true, hvalue, habs]
    rw [if_pos ⟨hne, hdigits, hlow, hhigh⟩]
  case isFalse hneg =>
    have habs : (v.natAbs : ℤ) = v := by omega
    obtain ⟨c, rest, hsplit⟩ := List.exists_cons_of_ne_nil hne
    rw [hsplit] at hdigits hvalue ⊢
    -- A digit is not a minus sign.
    have hc : c ≠ byte '-' := by
      rintro rfl
      exact absurd hdigits (by simp [isDigit, byte])
    simp only [fromChars, if_neg hc, hvalue, habs, Bool.false_eq_true, if_false]
    rw [if_pos ⟨List.cons_ne_nil _ _, hdigits, hlow, hhigh⟩]

/-- An integer in decimal notation is read back. -/
theorem parseIntegerLiteral_decimal (v : BitVec 32) :
    parseIntegerLiteral (decimal v.toInt) = some v := by
  have hfrom := fromChars_decimal (BitVec.le_toInt v) BitVec.toInt_lt
  rw [BitVec.ofInt_toInt] at hfrom
  match hsplit : decimal v.toInt with
  | [] =>
    rw [hsplit] at hfrom
    exact absurd hfrom (by simp [fromChars])
  | c :: rest =>
    -- The notation starts with a minus sign or a digit.
    have hc : c ≠ byte '+' := by
      rintro rfl
      unfold decimal at hsplit
      split at hsplit
      · exact absurd (List.cons.inj hsplit).1 (by decide)
      · have hdigit := isDigit_of_mem_decimalNat (hsplit ▸ List.mem_cons_self)
        exact absurd hdigit (by decide)
    rw [parseIntegerLiteral, if_neg hc, ← hsplit, hfrom]

theorem isIntLiteral_decimal (v : ℤ) : IsIntLiteral (decimal v) := by
  refine ⟨decimalNat v.natAbs, decimalNat_ne_nil _, fun c => isDigit_of_mem_decimalNat, ?_⟩
  unfold decimal
  split
  · exact .inr (.inr rfl)
  · exact .inl rfl

theorem doubleQuotes_cons (c : UInt8) (s : Bytes) :
    doubleQuotes (c :: s) = (if c = byte '\'' then [c, c] else [c]) ++ doubleQuotes s := rfl

theorem pairedQuotes_doubleQuotes (s : Bytes) : pairedQuotes (doubleQuotes s) = true := by
  induction s with
  | nil => rfl
  | cons c s ih =>
    rw [doubleQuotes_cons, pairedQuotes_append, ih]
    split
    case isTrue hc => simp [hc, pairedQuotes]
    case isFalse hc => simp [hc, pairedQuotes]

theorem mem_doubleQuotes (h : c ∈ doubleQuotes s) : c ∈ s := by
  obtain ⟨d, hd, hc⟩ := List.mem_flatMap.mp h
  have hcd : c = d := by
    split at hc <;> simpa using hc
  exact hcd ▸ hd

theorem decodeQuotes_cons (hc : c ≠ byte '\'') (s : Bytes) :
    decodeQuotes (c :: s) = c :: decodeQuotes s := by
  match s with
  | [] => simp [decodeQuotes]
  | d :: s => simp [decodeQuotes, hc]

theorem decodeQuotes_doubleQuotes (s : Bytes) : decodeQuotes (doubleQuotes s) = s := by
  induction s with
  | nil => rfl
  | cons c s ih =>
    rw [doubleQuotes_cons]
    split
    case isTrue hc => simp [hc, decodeQuotes, ih]
    case isFalse hc => rw [List.singleton_append, decodeQuotes_cons hc, ih]

/-- A text as a string literal. -/
def quote (s : Bytes) : Bytes := byte '\'' :: (doubleQuotes s ++ [byte '\''])

theorem decodeStringLiteral_quote (s : Bytes) : decodeStringLiteral (quote s) = s := by
  unfold decodeStringLiteral quote
  rw [if_neg (by simp), List.drop_one, List.tail_cons, List.dropLast_concat,
    decodeQuotes_doubleQuotes]

/-! ## Spelling -/

/-- The tokens that can be spelt, apart from floating-point literals: the identifiers are no
keywords, and no string has a NUL byte. -/
def Token.Spellable : Token → Prop
  | keyword _ => True
  | geq => True
  | leq => True
  | neq => True
  | op c => c ∈ Lex.singleOps
  | identifier s => IsIdentifier s ∧ ∀ k ∈ keywords, s.map toLower ≠ k.pattern.map toLower
  | valueInt _ => True
  | valueFloat _ => False
  | valueString s => 0 ∉ s
  | invalid => False

instance (t : Token) : Decidable t.Spellable := by
  cases t <;> unfold Token.Spellable <;> infer_instance

/-- The words that stand for a token. A keyword has its letters in either case. -/
def Token.Spells : Token → Bytes → Prop
  | keyword k, w => w.map toLower = k.pattern.map toLower
  | geq, w => w = text ">="
  | leq, w => w = text "<="
  | neq, w => w = text "!=" ∨ w = text "<>"
  | op c, w => w = [c]
  | identifier s, w => w = s
  | valueInt v, w => w = decimal v.toInt
  | valueFloat _, _ => False
  | valueString s, w => w = quote s
  | invalid, _ => False

instance (t : Token) (w : Bytes) : Decidable (t.Spells w) := by
  cases t <;> unfold Token.Spells <;> infer_instance

/-- The rule that returns a token. -/
def Token.action : Token → Action
  | keyword k => .keyword k
  | geq => .geq
  | leq => .leq
  | neq => .neq
  | op _ => .singleOp
  | identifier _ => .identifier
  | valueInt _ => .valueInt
  | valueFloat _ => .valueFloat
  | valueString _ => .valueString
  | invalid => .unexpectedCharacter

variable {t : Token} {w : Bytes}

theorem Token.Spells.word (h : t.Spells w) (ht : t.Spellable) : t.action.Word w := by
  cases t with
  | keyword k => exact h
  | geq | leq | neq => exact h
  | op c => exact ⟨c, ht, h⟩
  | identifier s => exact h ▸ ht.1
  | valueInt v => exact h ▸ isIntLiteral_decimal v.toInt
  | valueString s => exact ⟨doubleQuotes s, pairedQuotes_doubleQuotes s, h⟩
  | valueFloat v => exact ht.elim
  | invalid => exact ht.elim

theorem Token.Spellable.exists_spells (ht : t.Spellable) : ∃ w, t.Spells w := by
  cases t with
  | keyword k => exact ⟨k.pattern, rfl⟩
  | neq => exact ⟨_, .inl rfl⟩
  | valueFloat v => exact ht.elim
  | invalid => exact ht.elim
  | _ => exact ⟨_, rfl⟩

/-- No word has a NUL byte, so the parser takes the text. -/
theorem Token.Spells.notMem_zero (h : t.Spells w) (ht : t.Spellable) : 0 ∉ w := by
  intro hzero
  cases t with
  | valueString s =>
    obtain rfl : w = quote s := h
    have hcases : 0 = byte '\'' ∨ 0 ∈ doubleQuotes s := by simpa [quote, or_comm] using hzero
    rcases hcases with hquote | hmem
    · exact absurd hquote (by decide)
    · exact ht (mem_doubleQuotes hmem)
  | valueFloat v => exact ht.elim
  | invalid => exact ht.elim
  | _ =>
    have hbyte := (h.word ht).isWordByte (by simp [Token.action, wideActions]) hzero
    exact absurd hbyte (by decide)

/-- The rule of a token returns it. -/
theorem Token.Spells.result {strtof : Bytes → Option (BitVec 32)} (h : t.Spells w)
    (ht : t.Spellable) : t.action.result strtof w = some (t, none) := by
  cases t with
  | keyword k => rfl
  | geq | leq | neq => rfl
  | op c =>
    obtain rfl : w = [c] := h
    rfl
  | identifier s =>
    obtain rfl : w = s := h
    rfl
  | valueInt v =>
    obtain rfl : w = decimal v.toInt := h
    simp only [Token.action, Action.result, parseIntegerLiteral_decimal]
  | valueString s =>
    obtain rfl : w = quote s := h
    simp only [Token.action, Action.result, decodeStringLiteral_quote]
  | valueFloat v => exact ht.elim
  | invalid => exact ht.elim

/-! ## One word -/

/-- Only comments, blanks and strings go over a blank. -/
theorem Action.Word.of_blank {action : Action} (h : action.Word w) (hblank : byte ' ' ∈ w) :
    action = .skip ∨ action = .valueString ∨ action = .unterminatedString ∨ w = [byte ' '] := by
  by_cases haction : action ∈ wideActions
  · simp only [wideActions, List.mem_cons, List.not_mem_nil, or_false] at haction
    rcases haction with rfl | rfl | rfl | rfl
    · exact .inl rfl
    · exact .inr (.inl rfl)
    · exact .inr (.inr (.inl rfl))
    · obtain ⟨c, -, rfl⟩ := h
      obtain rfl := List.mem_singleton.mp hblank
      exact .inr (.inr (.inr rfl))
  · exact absurd (h.isWordByte haction hblank) (by decide)

/-- The groups of rules that start with the same bytes. -/
inductive Opening where
  | name
  | number
  | operator
  | quote
  | comment
  deriving DecidableEq

/-- The group of a rule, if it is one of `INITIAL` and not that for unexpected characters. -/
def Action.opening : Action → Option Opening
  | keyword _ | identifier => some .name
  | skip | valueInt | valueFloat => some .number
  | geq | leq | neq | singleOp => some .operator
  | valueString | unterminatedString => some .quote
  | beginComment => some .comment
  | unexpectedCharacter | endComment | echo => none

/-- The group of the rules that may start with a byte. -/
def openingOf (c : UInt8) : Opening :=
  if isAlpha c then .name
  else if isDigit c || (text "+- \t\r\n").contains c then .number
  else if c = byte '\'' then .quote
  else if c = byte '/' then .comment
  else .operator

theorem opening_of_first {action : Action} (h : action.First c = true) :
    action = .unexpectedCharacter ∨ action.opening = some (openingOf c) := by
  have hall : ∀ n : Fin 256,
      ∀ action ∈ [Action.skip, .identifier, .valueInt, .valueFloat, .geq, .leq, .neq, .singleOp,
        .valueString, .unterminatedString, .beginComment],
      action.First (UInt8.ofFin n) = true →
        action.opening = some (openingOf (UInt8.ofFin n)) := by
    decide +kernel
  cases action with
  | unexpectedCharacter => exact .inl rfl
  | endComment | echo => cases h
  | keyword k => exact .inr (hall c.toFin .identifier (by decide) h)
  | _ => exact .inr (hall c.toFin _ (by decide) h)

theorem Token.opening_action (ht : t.Spellable) (h : t.action.First c = true) :
    t.action.opening = some (openingOf c) := by
  refine (opening_of_first h).resolve_left ?_
  cases t with
  | valueFloat v => exact ht.elim
  | invalid => exact ht.elim
  | _ => simp [Token.action]

/-- The minus sign is the only byte with which both a token and something to skip may start. -/
theorem eq_valueInt_of_first (ht : t.Spellable) (h : t.action.First c = true)
    (hskip : Action.skip.First c = true) : c = byte '-' ∧ ∃ v, t = .valueInt v := by
  have hminus : ∀ n : Fin 256, Action.valueInt.First (UInt8.ofFin n) = true →
      Action.skip.First (UInt8.ofFin n) = true → UInt8.ofFin n = byte '-' := by decide +kernel
  have hopening := (opening_of_first hskip).resolve_left (by simp)
  rw [← Token.opening_action ht h] at hopening
  cases t with
  | valueInt v => exact ⟨hminus c.toFin h hskip, v, rfl⟩
  | valueFloat v => exact ht.elim
  | invalid => exact ht.elim
  | _ => simp [Action.opening, Token.action] at hopening

/-- The rules of the operators. -/
def operators : List Action := [.geq, .leq, .neq, .singleOp]

theorem Action.Word.ne_nil {action : Action} (h : action.Word w) : w ≠ [] := by
  rintro rfl
  obtain ⟨r, hrule, hmem⟩ := mem_initialRules.mpr h
  have hnull := @nullable_rules .initial _ hrule
  exact absurd (nullable_iff.mpr hmem) (by simp [hnull])

/-- No word is one of two operators. -/
theorem operator_unique {action : Action} (haction : action ∈ operators)
    (hother : other ∈ operators) (h : action.Word w) (h' : other.Word w) : action = other := by
  unfold operators at haction hother
  simp only [List.mem_cons, List.not_mem_nil, or_false] at haction hother
  rcases haction with rfl | rfl | rfl | rfl <;> rcases hother with rfl | rfl | rfl | rfl <;>
    simp only [Action.Word] at h h' <;> grind [text]

theorem operator_only {action : Action} (haction : action ∈ operators)
    (hopening : other.opening = some .operator) (h : action.Word w) (hother : other.Word w) :
    other = action := by
  refine operator_unique ?_ haction hother h
  cases other <;> simp_all [Action.opening, operators]

theorem keyword_unique {k k' : Keyword} (h : k.pattern.map toLower = k'.pattern.map toLower) :
    k = k' := by
  have hnodup : (keywords.map fun k => k.pattern.map toLower).Nodup := by decide
  exact List.inj_on_of_nodup_map hnodup (mem_keywords k) (mem_keywords k') h

/-- Two minus signs start a comment, but not an integer literal. -/
theorem not_word_skip_of_isIntLiteral (h : IsIntLiteral w) (more : Bytes) :
    ¬Action.skip.Word (w ++ more) := by
  obtain ⟨digits, hne, hdigits, hw⟩ := h
  match digits, hne with
  | d :: digits, _ =>
  have hd : isDigit d = true := hdigits d List.mem_cons_self
  intro hskip
  rcases hw with rfl | rfl | rfl
  · have hdigit : ∀ n : Fin 256, isDigit (UInt8.ofFin n) = true →
        Action.skip.First (UInt8.ofFin n) = false := by decide +kernel
    exact Bool.false_ne_true ((hdigit d.toFin hd).symm.trans (Action.Word.first hskip))
  · have hfirst := Action.Word.first hskip
    exact absurd hfirst (by decide)
  · rcases hskip with ⟨body, -, hsplit⟩ | ⟨-, hblank⟩ | hline
    · obtain ⟨rfl, -⟩ := List.cons.inj (List.cons.inj hsplit).2
      exact absurd hd (by decide)
    · exact absurd (hblank (byte '-') List.mem_cons_self) (by decide)
    · rcases hline with hline | hline | hline
      all_goals exact absurd (List.cons.inj hline).1 (by decide)

/-- Another rule that matches the word of a token comes later: that for identifiers behind those for
the keywords, and that for unexpected characters behind all others. -/
theorem Token.Spells.only (h : t.Spells w) (ht : t.Spellable) (hother : other.Word w) :
    other = t.action ∨ other = .unexpectedCharacter ∨
      (∃ k, t.action = .keyword k) ∧ other = .identifier := by
  have hword := h.word ht
  match w, hword.ne_nil with
  | c :: w, _ =>
  rcases opening_of_first hother.first with rfl | hopening
  · exact .inr (.inl rfl)
  rw [← Token.opening_action ht hword.first] at hopening
  cases t with
  | keyword k =>
    cases other with
    | keyword k' =>
      -- Two keywords never differ by letter case only.
      obtain rfl : k = k' := keyword_unique (h.symm.trans hother)
      exact .inl rfl
    | identifier => exact .inr (.inr ⟨⟨k, rfl⟩, rfl⟩)
    | _ => simp [Action.opening, Token.action] at hopening
  | identifier s =>
    obtain rfl : c :: w = s := h
    cases other with
    | keyword k => exact absurd hother (ht.2 k (mem_keywords k))
    | identifier => exact .inl rfl
    | _ => simp [Action.opening, Token.action] at hopening
  | valueInt v =>
    have hint : IsIntLiteral (c :: w) := hword
    cases other with
    | skip => exact absurd (by simpa using hother) (not_word_skip_of_isIntLiteral hint [])
    | valueInt => exact .inl rfl
    | valueFloat =>
      -- A dot is no part of an integer literal.
      obtain ⟨int, fraction, -, -, hsplit⟩ := hother
      rcases hint.chars (c := byte '.') (by simp [hsplit]) with hdot | hdot | hdot
      all_goals exact absurd hdot (by decide)
    | _ => simp [Action.opening, Token.action] at hopening
  | valueString s =>
    cases other with
    | valueString => exact .inl rfl
    | unterminatedString =>
      -- The closing quote is not doubled.
      obtain ⟨rfl, rfl⟩ := List.cons.inj h
      obtain ⟨body, hbody, hsplit⟩ := hother
      obtain ⟨-, rfl⟩ := List.cons.inj hsplit
      rw [pairedQuotes_append (pairedQuotes_doubleQuotes s)] at hbody
      exact absurd hbody (by decide)
    | _ => simp [Action.opening, Token.action] at hopening
  | geq | leq | neq => exact .inl (operator_only (by decide) hopening hword hother)
  | op d =>
    have hoperator : Action.singleOp ∈ operators := by decide
    exact .inl (operator_only hoperator hopening hword hother)
  | valueFloat v => exact ht.elim
  | invalid => exact ht.elim

/-- The quote that ends a string is not one of a pair, as a blank comes next. -/
theorem pairedQuotes_past_quote (s more : Bytes) :
    pairedQuotes (doubleQuotes s ++ byte '\'' :: byte ' ' :: more) = false := by
  rw [pairedQuotes_append (pairedQuotes_doubleQuotes s), pairedQuotes, if_pos rfl]
  rfl

theorem not_word_past_quote (s more : Bytes) :
    ¬Action.valueString.Word (quote s ++ byte ' ' :: more) ∧
      ¬Action.unterminatedString.Word (quote s ++ byte ' ' :: more) := by
  have hquote : quote s ++ byte ' ' :: more =
      byte '\'' :: (doubleQuotes s ++ byte '\'' :: byte ' ' :: more) := by simp [quote]
  rw [hquote]
  constructor
  · rintro ⟨body, hbody, hsplit⟩
    obtain ⟨-, hsplit⟩ := List.cons.inj hsplit
    -- The last byte is a quote, so it is not the blank.
    rcases List.eq_nil_or_concat more with rfl | ⟨init, d, rfl⟩
    · have hlast := congrArg List.getLast? hsplit
      simp only [List.getLast?_append, List.getLast?_cons_cons, List.getLast?_singleton,
        Option.some_or, Option.some.injEq] at hlast
      exact absurd hlast (by decide)
    · have hinit :
          doubleQuotes s ++ byte '\'' :: byte ' ' :: init ++ [d] = body ++ [byte '\''] := by
        simpa using hsplit
      obtain ⟨rfl, -⟩ := List.append_inj' hinit rfl
      rw [pairedQuotes_past_quote] at hbody
      exact absurd hbody (by simp)
  · rintro ⟨body, hbody, hsplit⟩
    obtain ⟨-, rfl⟩ := List.cons.inj hsplit
    rw [pairedQuotes_past_quote] at hbody
    exact absurd hbody (by simp)

theorem eq_valueString_of_first (ht : t.Spellable) (h : t.action.First (byte '\'') = true) :
    ∃ s, t = .valueString s := by
  have hopening := Token.opening_action ht h
  cases t with
  | valueString s => exact ⟨s, rfl⟩
  | invalid => exact ht.elim
  | _ => exact absurd hopening (by simp [Token.action, Action.opening, openingOf]; decide)

/-- No match goes from the word of a token over a blank. -/
theorem Token.Spells.not_word_blank (h : t.Spells w) (ht : t.Spellable) (action : Action)
    (more : Bytes) : ¬action.Word (w ++ byte ' ' :: more) := by
  intro hlong
  have hword := h.word ht
  match w, hword.ne_nil with
  | c :: w, _ =>
  have hfirst := hword.first
  rcases hlong.of_blank (by simp) with rfl | rfl | rfl | hblank
  · obtain ⟨-, v, rfl⟩ := eq_valueInt_of_first ht hfirst hlong.first
    exact not_word_skip_of_isIntLiteral hword _ hlong
  · obtain rfl : c = byte '\'' := by simpa [Action.First] using hlong.first
    obtain ⟨s, rfl⟩ := eq_valueString_of_first ht hfirst
    exact (not_word_past_quote s more).1 (h ▸ hlong)
  · obtain rfl : c = byte '\'' := by simpa [Action.First] using hlong.first
    obtain ⟨s, rfl⟩ := eq_valueString_of_first ht hfirst
    exact (not_word_past_quote s more).2 (h ▸ hlong)
  · exact absurd (List.cons.inj hblank).2 (by simp)

/-- The rule for identifiers is taken only where no keyword matches. -/
theorem not_word_keyword_of_identifier (h : IsMunch initialRules s w .identifier) (k : Keyword) :
    ¬(Action.keyword k).Word w := by
  intro hword
  unfold initialRules at h
  obtain ⟨r, hfront, -⟩ := h.mem_front
    (List.mem_append_right _ (List.mem_map.mpr ⟨k, mem_keywords k, rfl⟩))
    (Lex.mem_caseless.mpr hword)
  -- The rules of the comments, the blanks and the keywords are not that of the identifiers.
  simp at hfront

/-- A word is matched if no word there is longer and the other rules that match it come later. -/
theorem isMunch_of_word {action : Action} (hword : action.Word w) (hstart : w <+: s)
    (hle : ∀ other v, v <+: s → Action.Word other v → v.length ≤ w.length)
    (haction : action ≠ .unexpectedCharacter)
    (honly : ∀ other, Action.Word other w → other = action ∨ other = .unexpectedCharacter ∨
      (∃ k, action = .keyword k) ∧ other = .identifier) : IsMunch initialRules s w action := by
  match s, hstart, hword.ne_nil with
  | [], hstart, hne => exact absurd (List.prefix_nil.mp hstart) hne
  | c :: rest, hstart, hne =>
  -- Some rule matches here; its match is as long as the word, and its rule is the one that comes
  -- first.
  obtain ⟨v, other, hmunch⟩ := munch_rules .initial c rest
  have h : IsMunch initialRules (c :: rest) (c :: v) other := IsMunch.of_munch hmunch
  obtain ⟨hv, hother, hmax⟩ := InitialMatch.of_isMunch h
  have hlength := le_antisymm (hmax hstart hword) (hle other _ hv hother)
  obtain rfl := eq_of_starts hstart hv hlength
  rcases honly other hother with rfl | rfl | ⟨⟨k, rfl⟩, rfl⟩
  · exact h
  · exact absurd hword (not_word_of_unexpectedCharacter h haction)
  · exact absurd hword (not_word_keyword_of_identifier h k)

/-- What stands behind a word: the end of the text, or a blank. -/
def WordEnd (rest : Bytes) : Prop := ∀ c ∈ rest.head?, c = byte ' '

/-- The scanner matches the word of a token as a whole, by the rule of the token. -/
theorem Token.Spells.isMunch (h : t.Spells w) (ht : t.Spellable) {rest : Bytes}
    (hrest : WordEnd rest) : IsMunch initialRules (w ++ rest) w t.action := by
  refine isMunch_of_word (h.word ht) (List.prefix_append _ _) ?_ ?_ fun other => h.only ht
  · intro other v hv hother
    by_contra hlong
    -- A longer match goes over the blank.
    obtain ⟨more, rfl⟩ := List.prefix_of_prefix_length_le (List.prefix_append w rest) hv (by omega)
    rw [List.prefix_append_right_inj] at hv
    match more with
    | [] => exact hlong (by simp)
    | c :: more =>
      obtain rfl : c = byte ' ' := by
        obtain ⟨rest, rfl⟩ := hv
        exact hrest c rfl
      exact h.not_word_blank ht other more hother
  · cases t with
    | invalid => exact ht.elim
    | _ => simp [Token.action]

theorem Token.Spells.first_ne_blank (h : t.Spells (c :: w)) (ht : t.Spellable) :
    c ≠ byte ' ' ∧ c ≠ byte '\t' := by
  have hfirst := (h.word ht).first
  constructor
  all_goals
    rintro rfl
    have hminus := (eq_valueInt_of_first ht hfirst (by decide)).1
    exact absurd hminus (by decide)

/-- A blank in front of a word is matched on its own. -/
theorem isMunch_blank {rest : Bytes} (hc : c ≠ byte ' ' ∧ c ≠ byte '\t') :
    IsMunch initialRules (byte ' ' :: c :: rest) [byte ' '] .skip := by
  have honly : ∀ other v, Action.Word other (byte ' ' :: v) →
      other = .skip ∨ other = .unexpectedCharacter := by
    intro other v hother
    have hfirst := hother.first
    cases other with
    | skip => exact .inl rfl
    | unexpectedCharacter => exact .inr rfl
    | _ => exact absurd hfirst (by simp only [Action.First]; decide)
  refine isMunch_of_word (.inr (.inl (by simp))) ⟨c :: rest, rfl⟩ ?_ (by simp) ?_
  · intro other v hv hother
    by_contra hlong
    rcases v with - | ⟨d, - | ⟨e, v⟩⟩
    · exact hlong (by simp)
    · exact hlong (by simp)
    · obtain ⟨rfl, htail⟩ := List.cons_prefix_cons.mp hv
      obtain ⟨rfl, -⟩ := List.cons_prefix_cons.mp htail
      -- A longer run of blanks would have to go over the first byte of the word.
      rcases honly other _ hother with rfl | rfl
      · rcases hother with ⟨body, -, hsplit⟩ | ⟨-, hblanks⟩ | hline
        · exact absurd (List.cons.inj hsplit).1 (by decide)
        · rcases hblanks e (by simp) with he | he
          · exact hc.1 he
          · exact hc.2 he
        · rcases hline with hline | hline | hline
          all_goals exact absurd (List.cons.inj hline).1 (by decide)
      · obtain ⟨d, -, hsplit⟩ := hother
        exact absurd (List.cons.inj hsplit).2 (by simp)
  · intro other hother
    exact (honly other [] hother).imp_right .inl

/-! ## A whole text -/

section ScanAll

variable (strtof : Bytes → Option (BitVec 32))

/-- All tokens that the scanner still returns. -/
def scanAll (scanner : Scanner) : List Token :=
  match _h : yylex strtof scanner with
  | (none, _) => []
  | (some token, next) => token :: scanAll next
  termination_by scanner.measure
  decreasing_by exact measure_yylex strtof _h

/-- The text of the words, with single blanks between them. -/
def joinWords : List Bytes → Bytes
  | [] => []
  | w :: words => w ++ words.flatMap fun w => byte ' ' :: w

variable {strtof}

/-- A text of the tokens: their words, with single blanks between them. -/
def Renders (tokens : List Token) (sql : Bytes) : Prop :=
  ∃ words, List.Forall₂ Token.Spells tokens words ∧ sql = joinWords words

variable {next scanner : Scanner} {rest : Bytes} {tokens : List Token}

theorem scanAll_none (h : yylex strtof scanner = (none, next)) : scanAll strtof scanner = [] := by
  rw [scanAll]
  split
  · rfl
  · simp_all

theorem scanAll_some (h : yylex strtof scanner = (some t, next)) :
    scanAll strtof scanner = t :: scanAll strtof next := by
  rw [scanAll]
  split
  · simp_all
  case h_2 token next' h' =>
    obtain ⟨rfl, rfl⟩ : t = token ∧ next = next' := by simpa using h.symm.trans h'
    rfl

theorem yylex_munch {action : Action} (hw : w ≠ []) (hinput : scanner.input = w ++ rest)
    (h : IsMunch (rules scanner.start) (w ++ rest) w action) :
    yylex strtof scanner =
      match action.result strtof w with
      | some (token, _) => (some token, scanner.act strtof w rest action)
      | none => yylex strtof (scanner.act strtof w rest action) := by
  match w, hw with
  | c :: w, _ =>
    rw [List.cons_append] at hinput h
    have hcons := yylex_cons strtof hinput (nextMatch_eq.mpr h)
    rw [List.drop_left] at hcons
    exact hcons

/-- One call takes one word. -/
theorem scanAll_word (hstart : scanner.start = .initial) (hinput : scanner.input = w ++ rest)
    (h : t.Spells w) (ht : t.Spellable) (hrest : WordEnd rest) :
    ∃ next, next.start = .initial ∧ next.input = rest ∧
      scanAll strtof scanner = t :: scanAll strtof next := by
  have hmunch : IsMunch (rules scanner.start) (w ++ rest) w t.action := by
    rw [hstart]
    exact h.isMunch ht hrest
  refine ⟨scanner.act strtof w rest t.action, ?_, by simp, scanAll_some ?_⟩
  · rw [Scanner.start_act, hstart]
    cases t <;> rfl
  · rw [yylex_munch (h.word ht).ne_nil hinput hmunch, h.result ht]

/-- A blank in front of a word is skipped. -/
theorem yylex_blank (hstart : scanner.start = .initial)
    (hinput : scanner.input = byte ' ' :: (w ++ rest)) (h : t.Spells w) (ht : t.Spellable) :
    ∃ next, next.start = .initial ∧ next.input = w ++ rest ∧
      yylex strtof scanner = yylex strtof next := by
  match w, (h.word ht).ne_nil with
  | c :: w, _ =>
    have hmunch : IsMunch (rules scanner.start) ([byte ' '] ++ (c :: w ++ rest)) [byte ' ']
        .skip := by
      rw [hstart]
      exact isMunch_blank (h.first_ne_blank ht)
    refine ⟨scanner.act strtof [byte ' '] (c :: w ++ rest) .skip, ?_, by simp, ?_⟩
    · rw [Scanner.start_act, hstart]
      rfl
    · exact yylex_munch (w := [byte ' ']) (by simp) hinput hmunch

theorem scanAll_congr (h : yylex strtof scanner = yylex strtof next) :
    scanAll strtof scanner = scanAll strtof next := by
  rcases hnext : yylex strtof next with ⟨_ | token, last⟩
  · rw [scanAll_none hnext, scanAll_none (h.trans hnext)]
  · rw [scanAll_some hnext, scanAll_some (h.trans hnext)]

theorem wordEnd_flatMap (words : List Bytes) : WordEnd (words.flatMap fun w => byte ' ' :: w) := by
  cases words with
  | nil => simp [WordEnd]
  | cons w words => simp [WordEnd]

/-- Words with a blank in front of each of them. -/
theorem scanAll_words {words : List Bytes} (hstart : scanner.start = .initial)
    (hinput : scanner.input = words.flatMap fun w => byte ' ' :: w)
    (hspells : List.Forall₂ Token.Spells tokens words) (ht : ∀ t ∈ tokens, t.Spellable) :
    scanAll strtof scanner = tokens := by
  induction hspells generalizing scanner with
  | nil =>
    -- At the end of the text, outside of comments, there is no token.
    apply scanAll_none
    rw [yylex_nil strtof hinput, Scanner.atEnd, hstart]
  | cons hspell _ ih =>
    rw [List.forall_mem_cons] at ht
    -- The call skips the blank and then takes the word.
    obtain ⟨next, hstart, hinput, hblank⟩ := yylex_blank hstart hinput hspell ht.1
    obtain ⟨last, hstart, hinput, hscan⟩ :=
      scanAll_word hstart hinput hspell ht.1 (wordEnd_flatMap _)
    rw [scanAll_congr hblank, hscan, ih hstart hinput ht.2]

/-- The scanner returns exactly the tokens of a text. -/
theorem Renders.scanAll (h : Renders tokens scanner.input) (hstart : scanner.start = .initial)
    (ht : ∀ t ∈ tokens, t.Spellable) : scanAll strtof scanner = tokens := by
  obtain ⟨words, hspells, hinput⟩ := h
  cases hspells with
  | nil =>
    have hempty : scanner.input = ([] : List Bytes).flatMap fun w => byte ' ' :: w := hinput
    exact scanAll_words hstart hempty .nil ht
  | cons hspell hspells =>
    rw [List.forall_mem_cons] at ht
    obtain ⟨next, hstart, hinput, hscan⟩ :=
      scanAll_word hstart hinput hspell ht.1 (wordEnd_flatMap _)
    rw [hscan, scanAll_words hstart hinput hspells ht.2]

theorem Renders.notMem_zero {sql : Bytes} (h : Renders tokens sql)
    (ht : ∀ t ∈ tokens, t.Spellable) : 0 ∉ sql := by
  obtain ⟨words, hspells, rfl⟩ := h
  have hwords : ∀ w ∈ words, 0 ∉ w := by
    induction hspells with
    | nil => simp
    | cons hspell _ ih =>
      rw [List.forall_mem_cons] at ht ⊢
      exact ⟨hspell.notMem_zero ht.1, ih ht.2⟩
  cases words with
  | nil => simp [joinWords]
  | cons w words =>
    rw [List.forall_mem_cons] at hwords
    simp only [joinWords, List.mem_append, List.mem_flatMap, List.mem_cons, not_or, not_exists,
      not_and]
    exact ⟨hwords.1, fun w hw => ⟨by decide, hwords.2 w hw⟩⟩

theorem exists_renders (ht : ∀ t ∈ tokens, t.Spellable) : ∃ sql, Renders tokens sql := by
  have hwords : ∃ words, List.Forall₂ Token.Spells tokens words := by
    induction tokens with
    | nil => exact ⟨[], .nil⟩
    | cons t tokens ih =>
      rw [List.forall_mem_cons] at ht
      obtain ⟨w, hw⟩ := ht.1.exists_spells
      obtain ⟨words, hwords⟩ := ih ht.2
      exact ⟨w :: words, .cons hw hwords⟩
  obtain ⟨words, hwords⟩ := hwords
  exact ⟨joinWords words, words, hwords, rfl⟩

end ScanAll

end Rucbase.Parser
