import Mathlib.Computability.Language

/-!
# Regular expressions and longest matches

Regular expressions over classes of letters, with the language that each stands for, and the rule by
which a scanner generator picks what to match next: the longest word that one of its rules matches
at the start of the input, and among the rules that match it the first.

Matching goes by derivatives: `r.deriv c` stands for what may follow `c` in a word of `r`
(`mem_deriv`). `longest` is the longest match of one expression (`IsLongest.of_longest`) and
`munch` the choice among rules (`munch_eq_some`).
-/

namespace Rucbase.Lib

open scoped Computability

/-- A regular expression. -/
inductive Regex (α : Type) where
  | empty
  | eps
  | chars (p : α → Bool)
  | seq (r s : Regex α)
  | alt (r s : Regex α)
  | star (r : Regex α)

namespace Regex

variable {α β : Type}

/-- The words that an expression stands for. -/
def language : Regex α → Language α
  | empty => 0
  | eps => 1
  | chars p => {w | ∃ c, p c = true ∧ w = [c]}
  | seq r s => r.language * s.language
  | alt r s => r.language + s.language
  | star r => r.language∗

/-- A nonempty sequence of words. -/
def plus (r : Regex α) : Regex α := seq r (star r)

/-- A word or nothing. -/
def opt (r : Regex α) : Regex α := alt eps r

/-- A word of letters, each of which is spelt by a class. -/
def word (ps : List (α → Bool)) : Regex α := ps.foldr (fun p r => seq (chars p) r) eps

section Language

variable {r s : Regex α} {w : List α}

@[simp]
theorem notMem_language_empty : w ∉ (empty : Regex α).language := fun h => h

@[simp]
theorem mem_language_eps : w ∈ (eps : Regex α).language ↔ w = [] := Iff.rfl

@[simp]
theorem mem_language_chars {p : α → Bool} :
    w ∈ (chars p).language ↔ ∃ c, p c = true ∧ w = [c] := Iff.rfl

@[simp]
theorem mem_language_alt : w ∈ (alt r s).language ↔ w ∈ r.language ∨ w ∈ s.language := Iff.rfl

@[simp]
theorem mem_language_seq :
    w ∈ (seq r s).language ↔ ∃ u ∈ r.language, ∃ v ∈ s.language, u ++ v = w := Language.mem_mul

theorem nil_mem_language_star : [] ∈ (star r).language := Language.nil_mem_kstar r.language

/-- A word of a star is empty, or it starts with a nonempty word of the expression. -/
theorem cons_mem_language_star {c : α} :
    c :: w ∈ (star r).language ↔
      ∃ u v, c :: u ∈ r.language ∧ v ∈ (star r).language ∧ u ++ v = w := by
  constructor
  · intro h
    obtain ⟨words, hjoin, hwords⟩ := Language.mem_kstar_iff_exists_nonempty.mp h
    match words with
    | [] => exact absurd hjoin (List.cons_ne_nil c w)
    | first :: rest =>
      obtain ⟨hfirst, hne⟩ := hwords first List.mem_cons_self
      match first with
      | [] => exact absurd rfl hne
      | d :: u =>
        rw [List.flatten_cons, List.cons_append, List.cons.injEq] at hjoin
        obtain ⟨rfl, rfl⟩ := hjoin
        have hrest : ∀ v ∈ rest, v ∈ r.language :=
          fun v hv => (hwords v (List.mem_cons_of_mem _ hv)).1
        exact ⟨u, rest.flatten, hfirst, Language.join_mem_kstar hrest, rfl⟩
  · rintro ⟨u, v, hu, hv, rfl⟩
    obtain ⟨words, rfl, hwords⟩ := Language.mem_kstar.mp hv
    refine Language.mem_kstar.mpr ⟨(c :: u) :: words, rfl, ?_⟩
    intro x hx
    rcases List.mem_cons.mp hx with rfl | hx
    · exact hu
    · exact hwords x hx

/-- A star of letters is the words of these letters. -/
@[simp]
theorem mem_language_star_chars {p : α → Bool} :
    w ∈ (star (chars p)).language ↔ ∀ c ∈ w, p c = true := by
  induction w with
  | nil => simpa using nil_mem_language_star
  | cons c w ih =>
    rw [cons_mem_language_star, List.forall_mem_cons, ← ih]
    constructor
    · rintro ⟨u, v, ⟨d, hd, hu⟩, hv, rfl⟩
      obtain ⟨rfl, rfl⟩ := List.cons.inj hu
      exact ⟨hd, hv⟩
    · rintro ⟨hc, hw⟩
      exact ⟨[], w, ⟨c, hc, rfl⟩, hw, rfl⟩

@[simp]
theorem mem_language_opt : w ∈ (opt r).language ↔ w = [] ∨ w ∈ r.language := Iff.rfl

theorem mem_language_plus_chars {p : α → Bool} :
    w ∈ (plus (chars p)).language ↔ w ≠ [] ∧ ∀ c ∈ w, p c = true := by
  rw [plus, mem_language_seq]
  constructor
  · rintro ⟨u, ⟨c, hc, rfl⟩, v, hv, rfl⟩
    rw [mem_language_star_chars] at hv
    exact ⟨List.cons_ne_nil c v, List.forall_mem_cons.mpr ⟨hc, hv⟩⟩
  · rintro ⟨hne, hw⟩
    match w with
    | [] => exact absurd rfl hne
    | c :: v =>
      rw [List.forall_mem_cons] at hw
      exact ⟨[c], ⟨c, hw.1, rfl⟩, v, mem_language_star_chars.mpr hw.2, rfl⟩

theorem mem_language_word {ps : List (α → Bool)} :
    w ∈ (word ps).language ↔ List.Forall₂ (fun p c => p c = true) ps w := by
  induction ps generalizing w with
  | nil => exact List.forall₂_nil_left_iff.symm
  | cons p ps ih =>
    rw [word, List.foldr_cons, mem_language_seq]
    constructor
    · rintro ⟨u, ⟨c, hc, rfl⟩, v, hv, rfl⟩
      exact List.Forall₂.cons hc (ih.mp hv)
    · intro h
      obtain ⟨c, v, hc, hv, rfl⟩ := List.forall₂_cons_left_iff.mp h
      exact ⟨[c], ⟨c, hc, rfl⟩, v, ih.mpr hv, rfl⟩

end Language

/-! ## Derivatives -/

/-- Whether the empty word is one of an expression. -/
def nullable : Regex α → Bool
  | empty => false
  | eps => true
  | chars _ => false
  | seq r s => r.nullable && s.nullable
  | alt r s => r.nullable || s.nullable
  | star _ => true

/-- What may follow the letter `c`. -/
def deriv (c : α) : Regex α → Regex α
  | empty => empty
  | eps => empty
  | chars p => if p c then eps else empty
  | seq r s => if r.nullable then alt (seq (r.deriv c) s) (s.deriv c) else seq (r.deriv c) s
  | alt r s => alt (r.deriv c) (s.deriv c)
  | star r => seq (r.deriv c) (star r)

theorem nullable_iff {r : Regex α} : r.nullable = true ↔ [] ∈ r.language := by
  induction r with
  | empty | eps => simp [nullable]
  | chars p => simp [nullable]
  | seq r s ihr ihs => simp [nullable, ihr, ihs]
  | alt r s ihr ihs => simp [nullable, ihr, ihs]
  | star r => simp [nullable, nil_mem_language_star]

theorem cons_mem_language_seq {r s : Regex α} {c : α} {w : List α} :
    c :: w ∈ (seq r s).language ↔
      (∃ u v, c :: u ∈ r.language ∧ v ∈ s.language ∧ u ++ v = w) ∨
        ([] ∈ r.language ∧ c :: w ∈ s.language) := by
  rw [mem_language_seq]
  constructor
  · rintro ⟨u, hu, v, hv, huv⟩
    match u with
    | [] => exact .inr ⟨hu, by rwa [← huv]⟩
    | d :: u =>
      obtain ⟨rfl, rfl⟩ := List.cons.inj huv
      exact .inl ⟨u, v, hu, hv, rfl⟩
  · rintro (⟨u, v, hu, hv, rfl⟩ | ⟨hnil, hw⟩)
    · exact ⟨c :: u, hu, v, hv, rfl⟩
    · exact ⟨[], hnil, c :: w, hw, rfl⟩

theorem mem_deriv {r : Regex α} {c : α} {w : List α} :
    w ∈ (r.deriv c).language ↔ c :: w ∈ r.language := by
  induction r generalizing w with
  | empty | eps => simp [deriv]
  | chars p =>
    rw [deriv, mem_language_chars]
    split <;> simp_all
  | seq r s ihr ihs =>
    have hparts : w ∈ (seq (r.deriv c) s).language ↔
        ∃ u v, c :: u ∈ r.language ∧ v ∈ s.language ∧ u ++ v = w := by
      rw [mem_language_seq]
      constructor
      · rintro ⟨u, hu, v, hv, rfl⟩
        exact ⟨u, v, ihr.mp hu, hv, rfl⟩
      · rintro ⟨u, v, hu, hv, rfl⟩
        exact ⟨u, ihr.mpr hu, v, hv, rfl⟩
    rw [cons_mem_language_seq, ← hparts, ← nullable_iff, deriv]
    split
    case isTrue hnull => simp [hnull, ihs]
    case isFalse hnull => simp [hnull]
  | alt r s ihr ihs => simp [deriv, ihr, ihs]
  | star r ih =>
    rw [deriv, mem_language_seq, cons_mem_language_star]
    constructor
    · rintro ⟨u, hu, v, hv, rfl⟩
      exact ⟨u, v, ih.mp hu, hv, rfl⟩
    · rintro ⟨u, v, hu, hv, rfl⟩
      exact ⟨u, ih.mpr hu, v, hv, rfl⟩

/-! ## Longest matches -/

/-- The longest word of an expression at the start of the input. -/
def longest : Regex α → List α → Option (List α)
  | r, [] => if r.nullable then some [] else none
  | r, c :: s =>
    match longest (r.deriv c) s with
    | some w => some (c :: w)
    | none => if r.nullable then some [] else none

/-- The word `w` is the longest match of the expression. -/
structure IsLongest (r : Regex α) (s w : List α) : Prop where
  start : w <+: s
  mem : w ∈ r.language
  le : ∀ v, v <+: s → v ∈ r.language → v.length ≤ w.length

section Longest

variable {r : Regex α} {s w : List α}

theorem longest_eq_none : longest r s = none ↔ ∀ v, v <+: s → v ∉ r.language := by
  induction s generalizing r with
  | nil =>
    rw [longest]
    simp [← nullable_iff]
  | cons c s ih =>
    have htail : longest (r.deriv c) s = none ↔ ∀ v, v <+: s → c :: v ∉ r.language := by
      rw [ih]
      simp only [mem_deriv]
    rw [longest]
    simp only [List.prefix_cons_iff]
    cases hlongest : longest (r.deriv c) s with
    | none =>
      have hcons := htail.mp hlongest
      constructor
      · rintro hnull v (rfl | ⟨v, rfl, hv⟩)
        · rw [← nullable_iff]
          simpa using hnull
        · exact hcons v hv
      · intro h
        have hnil := h [] (.inl rfl)
        rw [← nullable_iff] at hnil
        simp [hnil]
    | some w =>
      have hsome : longest (r.deriv c) s ≠ none := by simp [hlongest]
      constructor
      · intro h
        exact absurd h (by simp)
      · intro h
        exact absurd (htail.mpr fun v hv => h _ (.inr ⟨v, rfl, hv⟩)) hsome

theorem IsLongest.of_longest (h : longest r s = some w) : IsLongest r s w := by
  induction s generalizing r w with
  | nil =>
    rw [longest] at h
    split at h
    case isTrue hnull =>
      obtain rfl := Option.some.inj h
      exact ⟨List.prefix_rfl, nullable_iff.mp hnull, fun v hv _ => by simp_all⟩
    case isFalse => exact absurd h (by simp)
  | cons c s ih =>
    rw [longest] at h
    cases hlongest : longest (r.deriv c) s with
    | some u =>
      rw [hlongest] at h
      obtain rfl : c :: u = w := Option.some.inj h
      obtain ⟨hstart, hmem, hle⟩ := ih hlongest
      refine ⟨List.cons_prefix_cons.mpr ⟨rfl, hstart⟩, mem_deriv.mp hmem, ?_⟩
      intro v hv hmem
      rcases List.prefix_cons_iff.mp hv with rfl | ⟨v, rfl, htail⟩
      · exact Nat.zero_le _
      · exact Nat.succ_le_succ (hle v htail (mem_deriv.mpr hmem))
    | none =>
      rw [hlongest] at h
      have hnone := longest_eq_none.mp hlongest
      split at h
      case h_1 heq => exact absurd heq (by simp)
      case h_2 =>
        split at h
        case isFalse => exact absurd h (by simp)
        case isTrue hnull =>
          obtain rfl := Option.some.inj h
          refine ⟨List.nil_prefix, nullable_iff.mp hnull, ?_⟩
          intro v hv hmem
          rcases List.prefix_cons_iff.mp hv with rfl | ⟨v, rfl, htail⟩
          · exact le_rfl
          · exact absurd (mem_deriv.mpr hmem) (hnone v htail)

theorem eq_of_starts {u v : List α} (hu : u <+: s) (hv : v <+: s) (h : u.length = v.length) :
    u = v :=
  (List.prefix_of_prefix_length_le hu hv h.le).eq_of_length h

end Longest

/-! ## Rules -/

/-- The first of the rules with the longest match, and its match. -/
def munch : List (Regex α × β) → List α → Option (List α × β)
  | [], _ => none
  | (r, b) :: rules, s =>
    match longest r s, munch rules s with
    | none, other => other
    | some w, none => some (w, b)
    | some w, some (v, b') => if v.length ≤ w.length then some (w, b) else some (v, b')

/-- The rule for `b` matches `w`, no rule matches more, and no earlier rule matches the same. -/
structure IsMunch (rules : List (Regex α × β)) (s w : List α) (b : β) : Prop where
  start : w <+: s
  le : ∀ rule ∈ rules, ∀ v, v <+: s → v ∈ rule.1.language → v.length ≤ w.length
  mem : ∃ before r after, rules = before ++ (r, b) :: after ∧ w ∈ r.language ∧
    ∀ rule ∈ before, w ∉ rule.1.language

section Munch

variable {rules : List (Regex α × β)} {s w : List α} {b : β}

theorem munch_eq_none :
    munch rules s = none ↔ ∀ rule ∈ rules, ∀ v, v <+: s → v ∉ rule.1.language := by
  induction rules with
  | nil => simp [munch]
  | cons rule rules ih =>
    rw [List.forall_mem_cons, ← ih, ← longest_eq_none, munch]
    cases hlongest : longest rule.1 s <;> cases hmunch : munch rules s <;> simp
    split <;> simp

/-- A rule that matches less, or nothing, may stand before the others. -/
theorem IsMunch.cons (h : IsMunch rules s w b) {rule : Regex α × β}
    (hrule : ∀ v, v <+: s → v ∈ rule.1.language → v.length < w.length) :
    IsMunch (rule :: rules) s w b := by
  obtain ⟨before, r, after, rfl, hmem, hbefore⟩ := h.mem
  refine ⟨h.start, ?_, rule :: before, r, after, rfl, hmem, ?_⟩
  · rw [List.forall_mem_cons]
    exact ⟨fun v hv hmem => (hrule v hv hmem).le, h.le⟩
  · rw [List.forall_mem_cons]
    exact ⟨fun hw => lt_irrefl _ (hrule w h.start hw), hbefore⟩

/-- A rule that matches as much as the others stands before them. -/
theorem IsMunch.here {r : Regex α} (h : IsLongest r s w)
    (hrules : ∀ rule ∈ rules, ∀ v, v <+: s → v ∈ rule.1.language → v.length ≤ w.length) :
    IsMunch ((r, b) :: rules) s w b := by
  refine ⟨h.start, ?_, [], r, rules, rfl, h.mem, by simp⟩
  rw [List.forall_mem_cons]
  exact ⟨h.le, hrules⟩

theorem IsMunch.of_munch (h : munch rules s = some (w, b)) : IsMunch rules s w b := by
  induction rules generalizing w b with
  | nil => exact absurd h (by simp [munch])
  | cons rule rules ih =>
    obtain ⟨r, b₀⟩ := rule
    rw [munch] at h
    cases hlongest : longest r s with
    | none =>
      simp only [hlongest] at h
      exact (ih h).cons fun v hv hmem => absurd hmem (longest_eq_none.mp hlongest v hv)
    | some u =>
      have hu := IsLongest.of_longest hlongest
      cases hmunch : munch rules s with
      | none =>
        simp only [hlongest, hmunch, Option.some.injEq, Prod.mk.injEq] at h
        obtain ⟨rfl, rfl⟩ := h
        exact .here hu fun rule hrule v hv hmem =>
          absurd hmem (munch_eq_none.mp hmunch rule hrule v hv)
      | some p =>
        obtain ⟨v, b'⟩ := p
        have hv := ih hmunch
        simp only [hlongest, hmunch] at h
        split at h
        case isTrue hle =>
          obtain ⟨rfl, rfl⟩ := Prod.mk.inj (Option.some.inj h)
          exact .here hu fun rule hrule x hx hmem => (hv.le rule hrule x hx hmem).trans hle
        case isFalse hlt =>
          obtain ⟨rfl, rfl⟩ := Prod.mk.inj (Option.some.inj h)
          exact hv.cons fun x hx hmem => (hu.le x hx hmem).trans_lt (not_le.mp hlt)

/-- A match does not depend on what stands behind it. -/
theorem IsMunch.of_start {s' : List α} (h : IsMunch rules s w b) (hw : w <+: s')
    (hs : s' <+: s) : IsMunch rules s' w b :=
  ⟨hw, fun rule hrule v hv hmem => h.le rule hrule v (hv.trans hs) hmem, h.mem⟩

/-- Where a rule of the front matches, one of the front is taken. -/
theorem IsMunch.mem_front {front back : List (Regex α × β)} (h : IsMunch (front ++ back) s w b)
    {rule : Regex α × β} (hrule : rule ∈ front) (hmem : w ∈ rule.1.language) :
    ∃ r, (r, b) ∈ front ∧ w ∈ r.language := by
  obtain ⟨before, r, after, hrules, hw, hbefore⟩ := h.mem
  rcases List.append_eq_append_iff.mp hrules with ⟨more, rfl, -⟩ | ⟨more, rfl, htail⟩
  · exact absurd hmem (hbefore rule (List.mem_append_left _ hrule))
  · match more with
    | [] => exact absurd hmem (hbefore rule (by simpa using hrule))
    | rule' :: more =>
      obtain ⟨rfl, -⟩ := List.cons.inj htail
      exact ⟨r, by simp, hw⟩

theorem IsMunch.unique {w' : List α} {b' : β} (h : IsMunch rules s w b)
    (h' : IsMunch rules s w' b') : w = w' ∧ b = b' := by
  obtain ⟨before, r, after, hrules, hmem, hbefore⟩ := h.mem
  obtain ⟨before', r', after', hrules', hmem', hbefore'⟩ := h'.mem
  have hr : (r, b) ∈ rules := by rw [hrules]; simp
  have hr' : (r', b') ∈ rules := by rw [hrules']; simp
  have hlength := le_antisymm (h'.le _ hr w h.start hmem) (h.le _ hr' w' h'.start hmem')
  obtain rfl := eq_of_starts h.start h'.start hlength
  refine ⟨rfl, ?_⟩
  -- Neither rule stands before the other one.
  rw [hrules] at hrules'
  rcases List.append_eq_append_iff.mp hrules' with ⟨more, rfl, htail⟩ | ⟨more, rfl, htail⟩
  · match more with
    | [] => exact (Prod.mk.inj (List.cons.inj htail).1).2
    | rule :: more =>
      obtain ⟨rfl, -⟩ := List.cons.inj htail
      exact absurd hmem (hbefore' (r, b) (by simp))
  · match more with
    | [] => exact (Prod.mk.inj (List.cons.inj htail).1).2.symm
    | rule :: more =>
      obtain ⟨rfl, -⟩ := List.cons.inj htail
      exact absurd hmem' (hbefore (r', b') (by simp))

/-- `munch` finds the match. -/
theorem munch_eq_some : munch rules s = some (w, b) ↔ IsMunch rules s w b := by
  refine ⟨IsMunch.of_munch, fun h => ?_⟩
  cases hmunch : munch rules s with
  | none =>
    obtain ⟨before, r, after, rfl, hmem, -⟩ := h.mem
    exact absurd hmem (munch_eq_none.mp hmunch (r, b) (by simp) w h.start)
  | some p =>
    obtain ⟨rfl, rfl⟩ := h.unique (IsMunch.of_munch (b := p.2) hmunch)
    rfl

end Munch

end Regex

end Rucbase.Lib
