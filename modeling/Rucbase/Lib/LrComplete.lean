import Mathlib.Data.List.Nodup
import Rucbase.Lib.Lr

/-!
# LR parsers follow derivations

A derivation makes tokens and values of symbols by the rules of a grammar. It needs a number of
places on the stack of a parser (`Derives`): while the parser reads what one symbol stands for, the
symbols before it in its rule are on the stack.

A parser with default reductions follows every derivation that its stack has room for
(`Derives.reads`), if in each of its states a token that may come behind a complete rule reduces by
this rule. That is a finite check of the states and of a table of the tokens that may come behind
each nonterminal (`Guided`). As the parser does one thing at a time, no two derivations make
different values of the same tokens (`Reads.unique`). In turn, what a parser has on its stack has
been derived, with no more places than there are (`Carries`).
-/

namespace Rucbase.Lib.Lr

variable {N T V C τ : Type}

/-! ## Derivations -/

/-- The tokens and the values that the rules make of some symbols, and how many places a stack needs
for them. The rules of these derivations leave the context as it is. -/
inductive Derives (p : Parser N T V C τ) : List (Symbol N T) → List τ → List V → ℕ → Prop where
  | nil : Derives p [] [] [] 0
  | token (token : τ) {symbols : List (Symbol N T)} {ts : List τ} {values : List V} {places : ℕ} :
    Derives p symbols ts values places →
    Derives p (.terminal (p.kind token) :: symbols) (token :: ts) (p.value token :: values)
      (places + 1)
  | rule {n : N} {alternative : Alternative N T V C} {symbols : List (Symbol N T)} {ts us : List τ}
    {values others : List V} {value : V} {places more : ℕ} :
    alternative ∈ p.alternatives n → Derives p alternative.rhs ts values places →
    (∀ context, alternative.action values context = (value, context)) →
    Derives p symbols us others more →
    Derives p (.nonterminal n :: symbols) (ts ++ us) (value :: others) (max places (more + 1))

section Derives

variable {p : Parser N T V C τ} {symbols more : List (Symbol N T)} {ts us : List τ}
  {values others : List V} {places rest : ℕ}

/-- The first symbols are on the stack while the others are read. -/
theorem Derives.append (h : Derives p symbols ts values places)
    (hmore : Derives p more us others rest) :
    Derives p (symbols ++ more) (ts ++ us) (values ++ others)
      (max places (symbols.length + rest)) := by
  induction h with
  | nil => simpa using hmore
  | @token token symbols ts values places _ ih =>
    have hplaces : max (places + 1) ((Symbol.terminal (p.kind token) :: symbols).length + rest) =
        max places (symbols.length + rest) + 1 := by
      rw [List.length_cons]
      omega
    rw [hplaces]
    exact .token token ih
  | @rule n alternative symbols ts vs values others value places more hrule hrhs haction _ _ ih =>
    have hplaces : max (max places (more + 1))
        ((Symbol.nonterminal (T := T) n :: symbols).length + rest) =
        max places (max more (symbols.length + rest) + 1) := by
      rw [List.length_cons]
      omega
    rw [hplaces, List.append_assoc]
    exact .rule hrule hrhs haction ih

/-- A nonterminal, by one of its rules. -/
theorem Derives.one {n : N} {alternative : Alternative N T V C} {value : V}
    (h : Derives p alternative.rhs ts values places) (hrule : alternative ∈ p.alternatives n)
    (haction : ∀ context, alternative.action values context = (value, context)) :
    Derives p [.nonterminal n] ts [value] (max places 1) := by
  simpa using Derives.rule hrule h haction .nil

end Derives

/-! ## What derivations mean -/

section Meaning

/-- Values for a list of symbols, with the tokens that they were made of. -/
inductive MeansAll (means : Symbol N T → List τ → V → Prop) :
    List (Symbol N T) → List τ → List V → Prop where
  | nil : MeansAll means [] [] []
  | cons {symbol : Symbol N T} {ts us : List τ} {value : V} {symbols : List (Symbol N T)}
    {values : List V} : means symbol ts value → MeansAll means symbols us values →
    MeansAll means (symbol :: symbols) (ts ++ us) (value :: values)

/-- Whatever tokens and values a list of symbols has, they have a property. -/
def ForEach (means : Symbol N T → List τ → V → Prop) :
    List (Symbol N T) → (List τ → List V → Prop) → Prop
  | [], P => P [] []
  | [symbol], P => ∀ ts value, means symbol ts value → P ts [value]
  | symbol :: symbols, P => ∀ ts value, means symbol ts value →
    ForEach means symbols fun us values => P (ts ++ us) (value :: values)

/-- A meaning of the symbols that the tokens have and the rules keep. -/
structure Sound (p : Parser N T V C τ) (means : Symbol N T → List τ → V → Prop) : Prop where
  token (token : τ) : means (.terminal (p.kind token)) [token] (p.value token)
  rule (n : N) (context : C) : ∀ alternative ∈ p.alternatives n,
    ForEach means alternative.rhs fun ts values =>
      means (.nonterminal n) ts (alternative.action values context).1

theorem ForEach.apply {means : Symbol N T → List τ → V → Prop} {symbols : List (Symbol N T)}
    {P : List τ → List V → Prop} (h : ForEach means symbols P) {ts : List τ} {values : List V}
    (hvalues : MeansAll means symbols ts values) : P ts values := by
  induction symbols generalizing P ts values with
  | nil =>
    cases hvalues with
    | nil => exact h
  | cons symbol symbols ih =>
    cases hvalues with
    | cons hvalue hrest =>
      cases symbols with
      | nil =>
        cases hrest with
        | nil =>
          rw [List.append_nil]
          exact h _ _ hvalue
      | cons next symbols => exact ih (h _ _ hvalue) hrest

/-- What holds for the tokens and is kept by the rules holds for what they derive. -/
theorem Derives.meansAll {p : Parser N T V C τ} {means : Symbol N T → List τ → V → Prop}
    (hsound : Sound p means) (context : C) {symbols : List (Symbol N T)} {ts : List τ}
    {values : List V} {places : ℕ} (h : Derives p symbols ts values places) :
    MeansAll means symbols ts values := by
  induction h with
  | nil => exact .nil
  | token token _ ih => exact .cons (hsound.token token) ih
  | rule hrule _ haction _ ihrhs ih =>
    have hmeans := (hsound.rule _ context _ hrule).apply ihrhs
    rw [haction] at hmeans
    exact .cons hmeans ih

end Meaning

/-! ## What a stack has been derived from -/

section Carries

/-- Each symbol on a stack has been derived, with the places above it. -/
inductive Carries (p : Parser N T V C τ) : List (Entry N T V C) → List τ → Prop where
  | nil : Carries p [] []
  | push {stack : List (Entry N T V C)} {state : List (Item N T V C)} {ts us : List τ}
    {symbol : Symbol N T} {value : V} {places : ℕ} :
    Carries p stack ts → Derives p [symbol] us [value] places →
    stack.length + places < p.depth → Carries p (⟨state, symbol, value⟩ :: stack) (ts ++ us)

variable {p : Parser N T V C τ} {stack : List (Entry N T V C)} {ts : List τ}

/-- The symbols on top of a stack, derived together. -/
theorem Carries.pop (h : Carries p stack ts) {symbols : List (Symbol N T)}
    (hsymbols : symbols <+: stack.map Entry.symbol) (hshort : stack.length < p.depth) :
    ∃ us vs places, ts = us ++ vs ∧ Carries p (stack.drop symbols.length) us ∧
      Derives p symbols.reverse vs ((stack.take symbols.length).reverse.map Entry.value) places ∧
      (stack.drop symbols.length).length + places < p.depth := by
  induction symbols generalizing stack ts with
  | nil => exact ⟨ts, [], 0, (List.append_nil ts).symm, h, .nil, hshort⟩
  | cons symbol symbols ih =>
    cases h with
    | nil => simp at hsymbols
    | @push stack state ts us top value places hstack hderives hplaces =>
      obtain ⟨rfl, hrest⟩ := List.cons_prefix_cons.mp hsymbols
      rw [List.length_cons] at hshort
      obtain ⟨before, vs, others, rfl, hbefore, hvalues, hless⟩ := ih hstack hrest (by omega)
      have hlength := hrest.length_le
      rw [List.length_map] at hlength
      refine ⟨before, vs ++ us, max others (symbols.length + places), List.append_assoc .., hbefore,
        by simpa using hvalues.append hderives, ?_⟩
      rw [List.length_drop] at hless
      rw [List.length_cons, List.drop_succ_cons, List.length_drop]
      omega

variable [DecidableEq N] [DecidableEq T]

theorem Carries.shift {c : Config N T V C} (h : Carries p c.stack ts) (token : τ)
    (hshort : (p.shift c token).stack.length < p.depth) :
    Carries p (p.shift c token).stack (ts ++ [token]) :=
  h.push (.token token .nil) hshort

/-- A reduction by a rule that leaves the context as it is. -/
theorem Carries.reduce {c : Config N T V C} {item : Item N T V C} (h : Carries p c.stack ts)
    (hreached : Reached p c.stack item) (hafter : item.after = [])
    (haction : ∀ values, ∃ value, ∀ context, item.action values context = (value, context))
    (hshort : c.stack.length < p.depth) (hroom : (p.reduce c item).stack.length < p.depth) :
    Carries p (p.reduce c item).stack ts := by
  obtain ⟨us, vs, places, rfl, hbelow, hderives, hplaces⟩ := h.pop hreached.symbols hshort
  have hrule := hreached.rule
  rw [hafter, List.append_nil] at hrule
  rw [p.reduce_stack] at hroom ⊢
  rw [List.length_cons] at hroom
  obtain ⟨value, hvalue⟩ := haction ((c.stack.take item.before.length).reverse.map Entry.value)
  rw [hvalue]
  exact hbelow.push (hderives.one hrule hvalue) (by omega)

end Carries

/-! ## Reading tokens -/

section Reads

variable [DecidableEq N] [DecidableEq T]

/-- How the parser comes from one stack to another when it reads tokens, with fewer than `limit`
entries on its stack. -/
inductive Reads (p : Parser N T V C τ) (limit : ℕ) :
    Config N T V C → List τ → Config N T V C → Prop where
  | refl (c : Config N T V C) : Reads p limit c [] c
  | reduce {c c' : Config N T V C} {token : τ} {ts : List τ} {item : Item N T V C} :
    p.next (p.top c.stack) (some (p.kind token)) = .reduce item →
    (p.reduce c item).stack.length < limit → Reads p limit (p.reduce c item) (token :: ts) c' →
    Reads p limit c (token :: ts) c'
  | shift {c c' : Config N T V C} {token : τ} {ts : List τ} :
    p.next (p.top c.stack) (some (p.kind token)) = .shift →
    (p.shift c token).stack.length < limit → Reads p limit (p.shift c token) ts c' →
    Reads p limit c (token :: ts) c'

variable {p : Parser N T V C τ} {limit : ℕ} {c c' : Config N T V C} {token : τ} {ts : List τ}

/-- The parser does one thing at a time. -/
theorem Reads.unique {other : Config N T V C} (h : Reads p limit c ts c')
    (hother : Reads p limit c ts other) : c' = other := by
  induction h with
  | refl c =>
    cases hother with
    | refl => rfl
  | reduce hnext _ _ ih =>
    cases hother with
    | reduce hnext' _ hrest =>
      obtain rfl := Step.reduce.inj (hnext.symm.trans hnext')
      exact ih hrest
    | shift hnext' => cases hnext.symm.trans hnext'
  | shift hnext _ _ ih =>
    cases hother with
    | reduce hnext' => cases hnext.symm.trans hnext'
    | shift _ _ hrest => exact ih hrest

/-- The reductions before the next token. -/
theorem Reads.settle (h : Reads p p.depth c (token :: ts) c') :
    ∃ fuel settled, p.settle fuel c (some (p.kind token)) = (settled, .shift) ∧
      (p.shift settled token).stack.length < p.depth ∧
      Reads p p.depth (p.shift settled token) ts c' := by
  generalize hall : token :: ts = all at h
  induction h with
  | refl => cases hall
  | @reduce c c' token' ts' item hnext hroom _ ih =>
    obtain ⟨fuel, settled, hsettle, hrest⟩ := ih hall
    obtain ⟨rfl, rfl⟩ := List.cons.inj hall
    refine ⟨fuel + 1, settled, ?_, hrest⟩
    rw [Parser.settle, hnext]
    simp only [if_neg (Nat.not_le.mpr hroom)]
    exact hsettle
  | @shift c c' token' ts' hnext hroom hrest =>
    obtain ⟨rfl, rfl⟩ := List.cons.inj hall
    refine ⟨1, c, ?_, hroom, hrest⟩
    rw [Parser.settle, hnext]

/-- A reduction that needs no token is made with any token. -/
theorem Parser.next_of_none {state : List (Item N T V C)} {item : Item N T V C}
    (h : p.next state none = .reduce item) (t : T) : p.next state (some t) = .reduce item := by
  unfold Parser.next at h ⊢
  dsimp only at h ⊢
  split at h
  · next hcomplete hscans =>
    rw [hcomplete, hscans]
    exact h
  · cases h
  · next heq _ => cases heq

/-- The reductions that need no token may be made at once. -/
theorem Reads.settle_none {fuel : ℕ} {settled : Config N T V C} {verdict : Verdict}
    (h : Reads p p.depth c (token :: ts) c') (hsettle : p.settle fuel c none = (settled, verdict))
    (hstuck : verdict ≠ .stuck) : verdict = .read ∧ Reads p p.depth settled (token :: ts) c' := by
  induction fuel generalizing c with
  | zero => exact absurd (Prod.mk.inj hsettle).2.symm hstuck
  | succ fuel ih =>
    unfold Parser.settle at hsettle
    rcases p.next_none (p.top c.stack) with hread | ⟨item, hreduce⟩
    · rw [hread] at hsettle
      obtain ⟨rfl, rfl⟩ := Prod.mk.inj hsettle
      exact ⟨rfl, h⟩
    · rw [hreduce] at hsettle
      have hnext := Parser.next_of_none hreduce (p.kind token)
      cases h with
      | reduce hnext' hroom hrest =>
        obtain rfl := Step.reduce.inj (hnext.symm.trans hnext')
        simp only [if_neg (Nat.not_le.mpr hroom)] at hsettle
        exact ih hrest hsettle
      | shift hnext' => cases hnext.symm.trans hnext'

/-- More fuel does not change where the reductions end. -/
theorem Parser.settle_unique {fuel more : ℕ} {lookahead : Option T} {settled other : Config N T V C}
    {verdict verdict' : Verdict} (h : p.settle fuel c lookahead = (settled, verdict))
    (hmore : p.settle more c lookahead = (other, verdict')) (hverdict : verdict ≠ .stuck)
    (hverdict' : verdict' ≠ .stuck) : settled = other ∧ verdict = verdict' := by
  induction fuel generalizing c more with
  | zero => exact absurd (Prod.mk.inj h).2.symm hverdict
  | succ fuel ih =>
    cases more with
    | zero => exact absurd (Prod.mk.inj hmore).2.symm hverdict'
    | succ more =>
      unfold Parser.settle at h hmore
      cases hnext : p.next (p.top c.stack) lookahead with
      | reduce item =>
        rw [hnext] at h hmore
        dsimp only at h hmore
        split_ifs at h hmore
        · exact Prod.mk.inj (h.symm.trans hmore)
        · exact ih h hmore
      | _ =>
        rw [hnext] at h hmore
        exact Prod.mk.inj (h.symm.trans hmore)

end Reads

/-! ## What may come next -/

namespace Parser

variable [DecidableEq N] [DecidableEq T] (p : Parser N T V C τ)

/-- Whether a nonterminal has an empty rule. -/
def nullable (n : N) : Bool := (p.alternatives n).any (·.rhs.isEmpty)

/-- The terminals with which the rules of a nonterminal begin, and those of the nonterminals that
come first in them. -/
def firsts (n : N) : List T :=
  (p.predicted p.size [n]).flatMap fun m =>
    (p.alternatives m).filterMap fun alternative =>
      match alternative.rhs.head? with
      | some (.terminal t) => some t
      | _ => none

/-- What comes first in a rule is not empty, and begins as its nonterminal may. -/
def begins (n : N) : List (Symbol N T) → Bool
  | [] => true
  | .terminal t :: _ => (p.firsts n).contains t
  | .nonterminal m :: _ => !p.nullable m && (p.firsts m).all ((p.firsts n).contains ·)

-- The terminals that may come behind each nonterminal.
variable (follow : N → List T)

/-- The terminals that may come where these symbols end a rule. -/
def behind (n : N) : List (Symbol N T) → List T
  | [] => follow n
  | .terminal t :: _ => [t]
  | .nonterminal m :: rest => p.firsts m ++ if p.nullable m then behind n rest else []

end Parser

section Behind

variable [DecidableEq N] [DecidableEq T] {p : Parser N T V C τ} {symbols : List (Symbol N T)}
  {ts : List τ} {values : List V} {places : ℕ}

omit [DecidableEq N] [DecidableEq T] in
theorem Parser.nullable_of_rule {n : N} {alternative : Alternative N T V C}
    (hrule : alternative ∈ p.alternatives n) (hempty : alternative.rhs = []) :
    p.nullable n = true :=
  List.any_eq_true.mpr ⟨alternative, hrule, List.isEmpty_iff.mpr hempty⟩

/-- What is derived from a rule of a nonterminal begins as the nonterminal may. -/
theorem Derives.first (hbegins : ∀ n, ∀ alternative ∈ p.alternatives n, p.begins n alternative.rhs)
    (h : Derives p symbols ts values places) {n : N} (hn : p.begins n symbols = true) :
    symbols = [] ∧ ts = [] ∨ ∃ t us, ts = t :: us ∧ p.kind t ∈ p.firsts n := by
  induction h generalizing n with
  | nil => exact .inl ⟨rfl, rfl⟩
  | token token => exact .inr ⟨token, _, rfl, List.contains_iff_mem.mp hn⟩
  | rule hrule hrhs haction _ ih =>
    obtain ⟨hnullable, hfirsts⟩ := Bool.and_eq_true_iff.mp hn
    rcases ih (hbegins _ _ hrule) with ⟨hempty, -⟩ | ⟨t, us, rfl, ht⟩
    · rw [Parser.nullable_of_rule hrule hempty] at hnullable
      cases hnullable
    · exact .inr ⟨t, _, rfl, List.contains_iff_mem.mp (List.all_eq_true.mp hfirsts _ ht)⟩

/-- The token behind what is derived from the first of some symbols. -/
theorem Derives.behind {follow : N → List T}
    (hbegins : ∀ n, ∀ alternative ∈ p.alternatives n, p.begins n alternative.rhs)
    (h : Derives p symbols ts values places) {n : N} {more : List (Symbol N T)} {token : τ}
    (htoken : p.kind token ∈ p.behind follow n more) (rest : List τ) :
    ∃ t us, ts ++ token :: rest = t :: us ∧ p.kind t ∈ p.behind follow n (symbols ++ more) := by
  induction h with
  | nil => exact ⟨token, rest, rfl, htoken⟩
  | token t => exact ⟨t, _, rfl, List.mem_singleton_self _⟩
  | rule hrule hrhs haction _ _ ih =>
    rw [List.cons_append, Parser.behind]
    rcases hrhs.first hbegins (hbegins _ _ hrule) with ⟨hempty, rfl⟩ | ⟨t, us, rfl, ht⟩
    · -- The nonterminal is nothing, so the next symbols begin here.
      obtain ⟨t, us, heq, ht⟩ := ih
      rw [if_pos (Parser.nullable_of_rule hrule hempty)]
      exact ⟨t, us, heq, List.mem_append_right _ ht⟩
    · exact ⟨t, _, rfl, List.mem_append_left _ ht⟩

end Behind

/-! ## The states -/

section States

variable [DecidableEq N] [DecidableEq T]

/-- The states that a parser can come to. -/
inductive Reachable (p : Parser N T V C τ) : List (Item N T V C) → Prop where
  | start : Reachable p (p.items p.accept)
  | goto {state : List (Item N T V C)} (symbol : Symbol N T) :
    Reachable p state → Reachable p (p.goto state symbol)

/-- An item without its action. -/
def Item.core (item : Item N T V C) : N × List (Symbol N T) × List (Symbol N T) :=
  (item.lhs, item.before, item.after)

namespace Parser

variable (p : Parser N T V C τ)

/-- The states that are reached from some states, as far as the fuel goes. -/
def explore : ℕ → List (List (Item N T V C)) → List (List (Item N T V C)) →
    List (List (Item N T V C))
  | 0, _, seen => seen
  | _, [], seen => seen
  | fuel + 1, state :: states, seen =>
    let symbols := (p.closure state).filterMap (·.after.head?)
    let new := (symbols.dedup.map (p.goto state)).filter fun next =>
      !seen.any fun known => known.map Item.core = next.map Item.core
    explore fuel (states ++ new) (seen ++ new)

-- The terminals that may come behind each nonterminal, and the states that have been found.
variable (follow : N → List T) (states : List (List (Item N T V C)))

/-- Whether a terminal reduces by a rule. -/
def reducesBy (state : List (Item N T V C)) (n : N) (rhs : List (Symbol N T)) (t : T) : Bool :=
  match p.next state (some t) with
  | .reduce item => item.core = (n, rhs.reverse, [])
  | _ => false

/-- The state behind each symbol that may come next is known. If a nonterminal may come next, its
rules are in the state, and a terminal that may come behind it reduces by them. -/
def guides (state : List (Item N T V C)) : Bool :=
  let predicted := p.predicted p.size (state.filterMap Item.predicts ∪ [])
  (p.closure state).all fun item =>
    match item.after with
    | [] => true
    | symbol :: rest =>
      (states.any fun known => known.map Item.core = (p.goto state symbol).map Item.core) &&
      match symbol with
      | .terminal _ => true
      | .nonterminal n =>
        let lookahead := p.behind follow item.lhs rest
        predicted.contains n && lookahead.all ((follow n).contains ·) &&
        (p.alternatives n).all fun alternative =>
          lookahead.all (p.reducesBy (alternative.rhs.foldl p.goto state) n alternative.rhs)

end Parser

variable {p : Parser N T V C τ} {state state' : List (Item N T V C)} {item item' : Item N T V C}

omit [DecidableEq N] [DecidableEq T] in
theorem Parser.rule_of_mem_items {n : N} (h : item ∈ p.items n) :
    ⟨item.before.reverse ++ item.after, item.action⟩ ∈ p.alternatives item.lhs := by
  obtain ⟨hlhs, hbefore, hrule⟩ := Parser.mem_items.mp h
  rwa [hlhs, hbefore]

/-- The items of the states are rules. -/
theorem Reachable.rule (h : Reachable p state) (hitem : item ∈ p.closure state) :
    ⟨item.before.reverse ++ item.after, item.action⟩ ∈ p.alternatives item.lhs := by
  induction h generalizing item with
  | start =>
    rcases Parser.mem_closure hitem with hmem | ⟨hmem, -⟩
    · exact Parser.rule_of_mem_items hmem
    · exact Parser.rule_of_mem_items hmem
  | goto symbol _ ih =>
    rcases Parser.mem_closure hitem with hmem | ⟨hmem, -⟩
    · obtain ⟨last, hlast, hadvance⟩ := List.mem_filterMap.mp hmem
      obtain ⟨hafter, hbefore, hlhs, haction⟩ := Item.advance_eq_some.mp hadvance
      rw [hbefore, hlhs, haction, List.reverse_cons, List.append_assoc, List.singleton_append,
        ← hafter]
      exact ih hlast
    · exact Parser.rule_of_mem_items hmem

theorem Parser.subset_explore (fuel : ℕ) (states seen : List (List (Item N T V C))) :
    seen ⊆ p.explore fuel states seen := by
  induction fuel generalizing states seen with
  | zero => exact List.Subset.refl _
  | succ fuel ih =>
    cases states with
    | nil => exact List.Subset.refl _
    | cons state states => exact List.Subset.trans (List.subset_append_left _ _) (ih _ _)

theorem Parser.reachable_explore (fuel : ℕ) (states seen : List (List (Item N T V C)))
    (hstates : ∀ state ∈ states, Reachable p state) (hseen : ∀ state ∈ seen, Reachable p state) :
    ∀ state ∈ p.explore fuel states seen, Reachable p state := by
  induction fuel generalizing states seen with
  | zero => exact hseen
  | succ fuel ih =>
    cases states with
    | nil => exact hseen
    | cons state states =>
      obtain ⟨hstate, hstates⟩ := List.forall_mem_cons.mp hstates
      have hnew : ∀ symbols : List (Symbol N T), ∀ isNew,
          ∀ next ∈ (symbols.map (p.goto state)).filter isNew, Reachable p next := by
        intro symbols isNew next hnext
        obtain ⟨symbol, -, rfl⟩ := List.mem_map.mp (List.mem_of_mem_filter hnext)
        exact .goto symbol hstate
      exact ih _ _ (List.forall_mem_append.mpr ⟨hstates, hnew _ _⟩)
        (List.forall_mem_append.mpr ⟨hseen, hnew _ _⟩)

/-- In each of its states, the parser finds out which rule it has to take. -/
structure Guided (p : Parser N T V C τ) (follow : N → List T)
    (states : List (List (Item N T V C))) : Prop where
  rules (n : N) : ((p.alternatives n).map Alternative.rhs).Nodup
  begins (n : N) : ∀ alternative ∈ p.alternatives n, p.begins n alternative.rhs = true
  start : p.items p.accept ∈ states
  reachable : ∀ state ∈ states, Reachable p state
  guides : ∀ state ∈ states, p.guides follow states state = true

namespace Guided

variable {follow : N → List T} {states : List (List (Item N T V C))}

/-- An item is known by its core. -/
theorem eq_of_core (h : Guided p follow states) (hstate : Reachable p state)
    (hstate' : Reachable p state') (hitem : item ∈ p.closure state)
    (hitem' : item' ∈ p.closure state') (hcore : item.core = item'.core) : item = item' := by
  have hrule := hstate.rule hitem
  have hrule' := hstate'.rule hitem'
  obtain ⟨lhs, action, before, after⟩ := item
  obtain ⟨lhs', action', before', after'⟩ := item'
  simp only [Item.core, Prod.mk.injEq] at hcore
  obtain ⟨rfl, rfl, rfl⟩ := hcore
  obtain rfl : action = action' :=
    (Alternative.mk.inj (List.inj_on_of_nodup_map (h.rules _) hrule hrule' rfl)).2
  rfl

/-- A state is known by the cores of its items. -/
theorem eq_of_cores (h : Guided p follow states) (hstate : Reachable p state)
    (hstate' : Reachable p state') (hcores : state.map Item.core = state'.map Item.core) :
    state = state' := by
  have heq : ∀ item ∈ state, ∀ item' ∈ state', item.core = item'.core → item = item' :=
    fun item hitem item' hitem' => h.eq_of_core hstate hstate' (List.mem_append_left _ hitem)
      (List.mem_append_left _ hitem')
  clear hstate hstate'
  induction state generalizing state' with
  | nil => exact (List.map_eq_nil_iff.mp hcores.symm).symm
  | cons item state ih =>
    cases state' with
    | nil => cases hcores
    | cons item' state' =>
      obtain ⟨hcore, hcores⟩ := List.cons.inj hcores
      rw [heq item List.mem_cons_self item' List.mem_cons_self hcore,
        ih hcores fun a ha b hb => heq a (List.mem_cons_of_mem _ ha) b (List.mem_cons_of_mem _ hb)]

section Item

variable (h : Guided p follow states) (hstate : state ∈ states) (hitem : item ∈ p.closure state)
  {rest : List (Symbol N T)}

include h hstate hitem

/-- The state behind a symbol that may come next, and the item in it. -/
theorem goto {symbol : Symbol N T} (hafter : item.after = symbol :: rest) :
    p.goto state symbol ∈ states ∧
      { item with before := symbol :: item.before, after := rest } ∈
        p.closure (p.goto state symbol) := by
  have hguides := List.all_eq_true.mp (h.guides state hstate) item hitem
  rw [hafter] at hguides
  obtain ⟨known, hknown, hcores⟩ := List.any_eq_true.mp (Bool.and_eq_true_iff.mp hguides).1
  have hreachable := h.reachable state hstate
  constructor
  · rwa [← h.eq_of_cores (h.reachable known hknown) (.goto symbol hreachable)
      (of_decide_eq_true hcores)]
  · refine List.mem_append_left _ (List.mem_filterMap.mpr ⟨item, hitem, ?_⟩)
    exact Item.advance_eq_some.mpr ⟨hafter, rfl, rfl, rfl⟩

/-- The states behind several symbols. -/
theorem foldl_goto {symbols : List (Symbol N T)} (hafter : item.after = symbols ++ rest) :
    symbols.foldl p.goto state ∈ states := by
  induction symbols generalizing state item with
  | nil => exact hstate
  | cons symbol symbols ih =>
    obtain ⟨hnext, hmem⟩ := h.goto hstate hitem hafter
    exact ih hnext hmem rfl

variable {n : N} (hafter : item.after = .nonterminal n :: rest)
  {alternative : Alternative N T V C} (hrule : alternative ∈ p.alternatives n)

include hafter hrule

/-- The rules of a nonterminal that may come next are in the state. -/
theorem predicts : ⟨n, alternative.action, [], alternative.rhs⟩ ∈ p.closure state := by
  have hguides := List.all_eq_true.mp (h.guides state hstate) item hitem
  rw [hafter] at hguides
  simp only [Bool.and_eq_true] at hguides
  refine List.mem_append_right _ (List.mem_flatMap.mpr ⟨n, ?_, ?_⟩)
  · exact List.contains_iff_mem.mp hguides.2.1.1
  · exact Parser.mem_items.mpr ⟨rfl, rfl, hrule⟩

/-- A token that may come behind a nonterminal reduces by its rules. -/
theorem reduces {t : T} (ht : t ∈ p.behind follow item.lhs rest) :
    t ∈ follow n ∧ p.next (alternative.rhs.foldl p.goto state) (some t) =
      .reduce ⟨n, alternative.action, alternative.rhs.reverse, []⟩ := by
  have hguides := List.all_eq_true.mp (h.guides state hstate) item hitem
  rw [hafter] at hguides
  simp only [Bool.and_eq_true, List.all_eq_true] at hguides
  obtain ⟨-, ⟨-, hfollow⟩, hreduces⟩ := hguides
  refine ⟨List.contains_iff_mem.mp (hfollow t ht), ?_⟩
  replace hreduces := hreduces alternative hrule t ht
  have hbegun := h.predicts hstate hitem hafter hrule
  have hend := h.foldl_goto hstate hbegun (List.append_nil _).symm
  unfold Parser.reducesBy at hreduces
  split at hreduces
  · next found hnext =>
    have hcore := of_decide_eq_true hreduces
    have hfound := (h.reachable _ hend).rule (Parser.next_eq_reduce hnext).1
    obtain ⟨lhs, action, before, after⟩ := found
    simp only [Item.core, Prod.mk.injEq] at hcore
    obtain ⟨rfl, rfl, rfl⟩ := hcore
    simp only [List.reverse_reverse, List.append_nil] at hfound
    obtain rfl : action = alternative.action :=
      congrArg Alternative.action (List.inj_on_of_nodup_map (h.rules _) hfound hrule rfl)
    exact hnext
  · cases hreduces

end Item

end Guided

end States

/-! ## Following a derivation -/

section Follow

variable [DecidableEq N] [DecidableEq T]

/-- Put symbols with their values on the stack. -/
def Parser.pushAll (p : Parser N T V C τ) (c : Config N T V C) :
    List (Symbol N T) → List V → Config N T V C
  | symbol :: symbols, value :: values => p.pushAll (p.push c symbol value) symbols values
  | _, _ => c

variable {p : Parser N T V C τ} {symbols : List (Symbol N T)} {ts : List τ} {values : List V}
  {places : ℕ}

omit [DecidableEq N] [DecidableEq T] in
theorem Derives.length_eq (h : Derives p symbols ts values places) :
    symbols.length = values.length := by
  induction h with
  | nil => rfl
  | token _ _ ih => exact congrArg Nat.succ ih
  | rule _ _ _ _ _ ih => exact congrArg Nat.succ ih

/-- What is on the stack when all symbols are. -/
theorem Parser.pushAll_spec (p : Parser N T V C τ) (hlength : symbols.length = values.length)
    (c : Config N T V C) :
    p.top (p.pushAll c symbols values).stack = symbols.foldl p.goto (p.top c.stack) ∧
      (p.pushAll c symbols values).context = c.context ∧
      ∃ entries, (p.pushAll c symbols values).stack = entries ++ c.stack ∧
        entries.length = symbols.length ∧ entries.reverse.map Entry.value = values := by
  induction symbols generalizing values c with
  | nil =>
    obtain rfl := List.eq_nil_of_length_eq_zero hlength.symm
    exact ⟨rfl, rfl, [], rfl, rfl, rfl⟩
  | cons symbol symbols ih =>
    cases values with
    | nil => cases hlength
    | cons value values =>
      obtain ⟨htop, hcontext, entries, hstack, hlength, hvalues⟩ :=
        ih (Nat.succ.inj hlength) (p.push c symbol value)
      refine ⟨htop, hcontext, entries ++ [⟨p.goto (p.top c.stack) symbol, symbol, value⟩], ?_,
        by simp [hlength], by simp [hvalues]⟩
      rw [List.append_assoc]
      exact hstack

/-- A rule with all its symbols on the stack. -/
theorem Parser.reduce_pushAll (p : Parser N T V C τ) {n : N} {alternative : Alternative N T V C}
    {value : V} (hlength : alternative.rhs.length = values.length)
    (haction : ∀ context, alternative.action values context = (value, context))
    (c : Config N T V C) :
    p.reduce (p.pushAll c alternative.rhs values)
      ⟨n, alternative.action, alternative.rhs.reverse, []⟩ = p.push c (.nonterminal n) value := by
  obtain ⟨-, hcontext, entries, hstack, hentries, hvalues⟩ := p.pushAll_spec hlength c
  have htake : (entries ++ c.stack).take alternative.rhs.length = entries :=
    List.take_left' hentries
  have hdrop : (entries ++ c.stack).drop alternative.rhs.length = c.stack :=
    List.drop_left' hentries
  unfold Parser.reduce
  simp only [List.length_reverse, hstack, hcontext, htake, hdrop, hvalues, haction]

/-- A token that comes next in a rule is shifted. -/
theorem Parser.next_of_terminal {state : List (Item N T V C)} {item : Item N T V C} {t : T}
    {rest : List (Symbol N T)} (hitem : item ∈ p.closure state)
    (hafter : item.after = .terminal t :: rest) : p.next state (some t) = .shift := by
  have hscans : (p.closure state).any Item.scans = true :=
    List.any_eq_true.mpr ⟨item, hitem, by rw [Item.scans, hafter]⟩
  have hhead : ((p.closure state).any fun item => item.after.head? = some (.terminal t)) = true :=
    List.any_eq_true.mpr ⟨item, hitem, by simp [hafter]⟩
  unfold Parser.next
  dsimp only
  split
  · next _ hnone => cases hscans.symm.trans hnone
  · next heq _ => cases heq
  · next heq _ =>
    obtain rfl := Option.some.inj heq
    rw [if_pos hhead]

/-- The parser follows a derivation: where an item is at these symbols, it comes to have them on its
stack, whatever it does with the token behind them. The induction is on the derivation. For a
nonterminal, the first hypothesis is about its rule and the second one about what comes behind it,
where the parser is after the reduction. -/
theorem Derives.reads {follow : N → List T} {states : List (List (Item N T V C))}
    (hguided : Guided p follow states) {limit : ℕ} (h : Derives p symbols ts values places)
    {c c' : Config N T V C} {item : Item N T V C} {more : List (Symbol N T)} {token : τ}
    {rest : List τ} (hstate : p.top c.stack ∈ states) (hitem : item ∈ p.closure (p.top c.stack))
    (hafter : item.after = symbols ++ more)
    (htoken : p.kind token ∈ p.behind follow item.lhs more)
    (hroom : c.stack.length + places < limit)
    (hreads : Reads p limit (p.pushAll c symbols values) (token :: rest) c') :
    Reads p limit c (ts ++ token :: rest) c' := by
  induction h generalizing c item more token rest with
  | nil => exact hreads
  | token t hrest ih =>
    obtain ⟨hnext, hmem⟩ := hguided.goto hstate hitem hafter
    have hlength : (p.shift c t).stack.length = c.stack.length + 1 := rfl
    refine .shift (Parser.next_of_terminal hitem hafter) (by omega) ?_
    exact ih hnext hmem rfl htoken (by omega) hreads
  | @rule n alternative symbols ts us values others value places places' hrule hrhs haction hrest
      ihrule ihrest =>
    obtain ⟨hnext, hmem⟩ := hguided.goto hstate hitem hafter
    -- The token behind the nonterminal.
    obtain ⟨t, vs, heq, ht⟩ := hrest.behind hguided.begins htoken rest
    obtain ⟨hfollow, hreduce⟩ := hguided.reduces hstate hitem hafter hrule ht
    have hbegun := hguided.predicts hstate hitem hafter hrule
    obtain ⟨htop, -, -⟩ := p.pushAll_spec hrhs.length_eq c
    have hpush := p.reduce_pushAll (n := n) hrhs.length_eq haction c
    have hlength : (p.push c (.nonterminal n) value).stack.length = c.stack.length + 1 := rfl
    rw [List.append_assoc, heq]
    refine ihrule hstate hbegun (List.append_nil _).symm hfollow (by omega) ?_
    rw [← htop] at hreduce
    refine .reduce hreduce (by rw [hpush]; omega) ?_
    rw [hpush, ← heq]
    exact ihrest hnext hmem rfl htoken (by omega) hreads

end Follow

end Rucbase.Lib.Lr
