import Mathlib.Algebra.BigOperators.Group.List.Basic
import Mathlib.Algebra.GroupWithZero.Nat
import Mathlib.Data.List.Basic

/-!
# LR parsers with default reductions

The parser that a generator of the yacc family makes of a grammar: a stack of states, which are sets
of items, and a loop that shifts the next token or reduces by a rule, with the semantic action of
the rule. A state in which one rule is complete and no token can be shifted reduces at once, before
the next token is read; where a token is needed, a token that cannot be shifted reduces by the
complete rule. Only between several complete rules the token decides.

A rule is reduced where its right-hand side is on top of the stack (`Stands.reached`). If every rule
makes the stack lighter (`Weights`), the reductions come to an end (`settle_ne_stuck`).
-/

namespace Rucbase.Lib.Lr

/-- A symbol of a grammar. -/
inductive Symbol (N T : Type) where
  | nonterminal (n : N)
  | terminal (t : T)
  deriving DecidableEq, Repr

/-- One of the right-hand sides of a nonterminal. Its action makes a value of the values of its
symbols, and may change the context. -/
structure Alternative (N T V C : Type) where
  rhs : List (Symbol N T)
  action : List V → C → V × C

/-- A rule, with the place up to which its right-hand side has been read. What comes before this
place has the last symbol first. -/
structure Item (N T V C : Type) where
  lhs : N
  action : List V → C → V × C
  before : List (Symbol N T)
  after : List (Symbol N T)

/-- What a parser is made of. -/
structure Parser (N T V C τ : Type) where
  alternatives : N → List (Alternative N T V C)
  /-- The left-hand side of the rule that ends with the end of the input. -/
  accept : N
  /-- How many nonterminals there are. -/
  size : ℕ
  /-- The kind of a token, and its value. -/
  kind : τ → T
  value : τ → V
  /-- By which of several complete rules a token reduces. -/
  resolve : List (Item N T V C) → T → Option (Item N T V C)
  resolve_mem : ∀ complete t item, resolve complete t = some item → item ∈ complete
  /-- With so many entries, the stack is full. -/
  depth : ℕ

/-- What the parser puts on its stack. -/
structure Entry (N T V C : Type) where
  state : List (Item N T V C)
  symbol : Symbol N T
  value : V

/-- The stack, with its top first, and the context. -/
structure Config (N T V C : Type) where
  stack : List (Entry N T V C)
  context : C

/-- What comes next in a state. -/
inductive Step (N T V C : Type) where
  | reduce (item : Item N T V C)
  | shift
  | error
  /-- A token is needed. -/
  | read

/-- How a series of reductions ends. -/
inductive Verdict where
  | shift
  | error
  | read
  /-- The stack is full. -/
  | full
  /-- There were more reductions than expected. -/
  | stuck
  deriving DecidableEq, Repr

variable {N T V C τ : Type}

namespace Item

/-- The nonterminal that comes next. -/
def predicts (item : Item N T V C) : Option N :=
  match item.after with
  | .nonterminal n :: _ => some n
  | _ => none

/-- Whether a terminal comes next. -/
def scans (item : Item N T V C) : Bool :=
  match item.after with
  | .terminal _ :: _ => true
  | _ => false

variable [DecidableEq N] [DecidableEq T]

/-- The item behind a symbol. -/
def advance (symbol : Symbol N T) (item : Item N T V C) : Option (Item N T V C) :=
  match item.after with
  | next :: rest =>
    if next = symbol then some { item with before := next :: item.before, after := rest } else none
  | [] => none

end Item

namespace Parser

variable [DecidableEq N] [DecidableEq T] (p : Parser N T V C τ)

/-- The rules of a nonterminal, at their beginning. -/
def items (n : N) : List (Item N T V C) :=
  (p.alternatives n).map fun alternative => ⟨n, alternative.action, [], alternative.rhs⟩

/-- The nonterminals with which the rules of some nonterminals start, and theirs in turn. -/
def predicted : ℕ → List N → List N
  | 0, seen => seen
  | fuel + 1, seen =>
    let first := seen.flatMap fun n => (p.items n).filterMap Item.predicts
    if first.all (seen.contains ·) then seen else predicted fuel (first ∪ seen)

/-- The items of a state, with the rules of the nonterminals that may come next. -/
def closure (state : List (Item N T V C)) : List (Item N T V C) :=
  state ++ (p.predicted p.size (state.filterMap Item.predicts ∪ [])).flatMap p.items

/-- The state behind a symbol. -/
def goto (state : List (Item N T V C)) (symbol : Symbol N T) : List (Item N T V C) :=
  (p.closure state).filterMap (Item.advance symbol)

/-- The state on top of a stack. -/
def top (stack : List (Entry N T V C)) : List (Item N T V C) :=
  match stack with
  | [] => p.items p.accept
  | entry :: _ => entry.state

/-- The rule by which a token reduces. If one rule is complete, that is any token. -/
def choose (complete : List (Item N T V C)) (t : T) : Option (Item N T V C) :=
  match complete with
  | [item] => some item
  | _ => p.resolve complete t

/-- What the parser does in a state, with the next token if it has been read. -/
def next (state : List (Item N T V C)) (lookahead : Option T) : Step N T V C :=
  let items := p.closure state
  let complete := items.filter (·.after.isEmpty)
  match complete, items.any Item.scans, lookahead with
  | [item], false, _ => .reduce item
  | _, _, none => .read
  | _, _, some t =>
    if items.any (fun item => item.after.head? = some (.terminal t)) then .shift
    else
      match p.choose complete t with
      | some item => .reduce item
      | none => .error

def push (c : Config N T V C) (symbol : Symbol N T) (value : V) : Config N T V C :=
  { c with stack := ⟨p.goto (p.top c.stack) symbol, symbol, value⟩ :: c.stack }

/-- Put a token on the stack. -/
def shift (c : Config N T V C) (token : τ) : Config N T V C :=
  p.push c (.terminal (p.kind token)) (p.value token)

/-- Replace the right-hand side of a rule by its left-hand side. -/
def reduce (c : Config N T V C) (item : Item N T V C) : Config N T V C :=
  let values := (c.stack.take item.before.length).reverse.map Entry.value
  let (value, context) := item.action values c.context
  p.push ⟨c.stack.drop item.before.length, context⟩ (.nonterminal item.lhs) value

/-- Reduce as long as the state and the token say so. -/
def settle : ℕ → Config N T V C → Option T → Config N T V C × Verdict
  | 0, c, _ => (c, .stuck)
  | fuel + 1, c, lookahead =>
    match p.next (p.top c.stack) lookahead with
    | .reduce item =>
      let c := p.reduce c item
      if p.depth ≤ c.stack.length then (c, .full) else settle fuel c lookahead
    | .shift => (c, .shift)
    | .error => (c, .error)
    | .read => (c, .read)

theorem reduce_stack (c : Config N T V C) (item : Item N T V C) :
    (p.reduce c item).stack =
      ⟨p.goto (p.top (c.stack.drop item.before.length)) (.nonterminal item.lhs),
        .nonterminal item.lhs,
        (item.action ((c.stack.take item.before.length).reverse.map Entry.value) c.context).1⟩ ::
      c.stack.drop item.before.length := rfl

theorem reduce_context (c : Config N T V C) (item : Item N T V C) :
    (p.reduce c item).context =
      (item.action ((c.stack.take item.before.length).reverse.map Entry.value) c.context).2 := rfl

end Parser

/-! ## Items -/

section Items

variable {p : Parser N T V C τ} {item : Item N T V C} {n : N}

theorem Item.predicts_eq_some :
    item.predicts = some n ↔ ∃ rest, item.after = .nonterminal n :: rest := by
  unfold predicts
  split <;> simp_all

theorem Parser.mem_items :
    item ∈ p.items n ↔
      item.lhs = n ∧ item.before = [] ∧ ⟨item.after, item.action⟩ ∈ p.alternatives n := by
  obtain ⟨lhs, action, before, after⟩ := item
  unfold Parser.items
  rw [List.mem_map]
  constructor
  · rintro ⟨alternative, hmem, heq⟩
    simp only [Item.mk.injEq] at heq
    obtain ⟨rfl, rfl, rfl, rfl⟩ := heq
    exact ⟨rfl, rfl, hmem⟩
  · rintro ⟨rfl, rfl, hmem⟩
    exact ⟨_, hmem, rfl⟩

variable [DecidableEq N]

theorem Parser.subset_predicted (fuel : ℕ) (seen : List N) : seen ⊆ p.predicted fuel seen := by
  induction fuel generalizing seen with
  | zero => exact List.Subset.refl _
  | succ fuel ih =>
    unfold predicted
    dsimp only
    split
    · exact List.Subset.refl _
    · exact fun n hn => ih _ (List.mem_union_iff.mpr (.inr hn))

/-- What is predicted is predicted by something. -/
theorem Parser.mem_predicted {fuel : ℕ} {seen : List N} (h : n ∈ p.predicted fuel seen) :
    n ∈ seen ∨ ∃ m ∈ p.predicted fuel seen, ∃ item ∈ p.items m, item.predicts = some n := by
  induction fuel generalizing seen with
  | zero => exact .inl h
  | succ fuel ih =>
    unfold predicted at h ⊢
    dsimp only at h ⊢
    split at h
    · exact .inl h
    · next hmore =>
      rw [if_neg hmore]
      rcases ih h with hseen | hlater
      · rcases List.mem_union_iff.mp hseen with hfirst | hseen
        · obtain ⟨m, hm, hn⟩ := List.mem_flatMap.mp hfirst
          obtain ⟨item, hitem, hpredicts⟩ := List.mem_filterMap.mp hn
          exact .inr ⟨m, subset_predicted _ _ (List.mem_union_iff.mpr (.inr hm)), item, hitem,
            hpredicts⟩
        · exact .inl hseen
      · exact .inr hlater

/-- An item of a state belongs to it, or it is the beginning of a rule for a nonterminal that may
come next. -/
theorem Parser.mem_closure {state : List (Item N T V C)} (h : item ∈ p.closure state) :
    item ∈ state ∨ item ∈ p.items item.lhs ∧
      ∃ other ∈ p.closure state, other.predicts = some item.lhs := by
  rcases List.mem_append.mp h with hstate | hmore
  · exact .inl hstate
  · obtain ⟨n, hn, hitem⟩ := List.mem_flatMap.mp hmore
    obtain rfl := (mem_items.mp hitem).1
    refine .inr ⟨hitem, ?_⟩
    rcases mem_predicted hn with hfirst | ⟨m, hm, other, hother, hpredicts⟩
    · have hstate : item.lhs ∈ state.filterMap Item.predicts := by simpa using hfirst
      obtain ⟨other, hother, hpredicts⟩ := List.mem_filterMap.mp hstate
      exact ⟨other, List.mem_append_left _ hother, hpredicts⟩
    · exact ⟨other, List.mem_append_right _ (List.mem_flatMap.mpr ⟨m, hm, hother⟩), hpredicts⟩

variable [DecidableEq T] {symbol : Symbol N T}

theorem Item.advance_eq_some {next : Item N T V C} :
    item.advance symbol = some next ↔
      item.after = symbol :: next.after ∧ next.before = symbol :: item.before ∧
        next.lhs = item.lhs ∧ next.action = item.action := by
  obtain ⟨lhs, action, before, after⟩ := item
  obtain ⟨lhs', action', before', after'⟩ := next
  cases after with
  | nil => simp [advance]
  | cons X rest =>
    simp only [advance, List.cons.injEq]
    constructor
    · intro h
      split_ifs at h with hX
      simp_all
    · rintro ⟨⟨rfl, rfl⟩, rfl, rfl, rfl⟩
      simp

omit [DecidableEq N] [DecidableEq T] in
theorem Parser.mem_of_choose {complete : List (Item N T V C)} {t : T}
    (h : p.choose complete t = some item) : item ∈ complete := by
  unfold choose at h
  split at h
  · obtain rfl := Option.some.inj h
    exact List.mem_singleton_self _
  · exact p.resolve_mem _ _ _ h

/-- The parser reduces by rules that are complete. -/
theorem Parser.next_eq_reduce {state : List (Item N T V C)} {lookahead : Option T}
    (h : p.next state lookahead = .reduce item) : item ∈ p.closure state ∧ item.after = [] := by
  have hmem : item ∈ (p.closure state).filter (·.after.isEmpty) := by
    unfold next at h
    dsimp only at h
    split at h
    · next hcomplete _ =>
      obtain rfl := Step.reduce.inj h
      rw [hcomplete]
      exact List.mem_singleton_self _
    · cases h
    · split_ifs at h
      split at h
      · next hchoose =>
        obtain rfl := Step.reduce.inj h
        exact mem_of_choose hchoose
      · cases h
  simpa using List.mem_filter.mp hmem

/-- A token is shifted if it comes next in a rule. -/
theorem Parser.next_eq_shift {state : List (Item N T V C)} {t : T}
    (h : p.next state (some t) = .shift) :
    ∃ item ∈ p.closure state, item.after.head? = some (.terminal t) := by
  unfold next at h
  dsimp only at h
  split at h
  · cases h
  · cases h
  · next heq _ =>
    obtain rfl := Option.some.inj heq
    split_ifs at h with hshift
    · simpa using hshift
    · split at h <;> cases h

/-- Without a token, the parser reduces or asks for one. -/
theorem Parser.next_none (p : Parser N T V C τ) (state : List (Item N T V C)) :
    p.next state none = .read ∨ ∃ item, p.next state none = .reduce item := by
  unfold next
  dsimp only
  split
  · exact .inr ⟨_, rfl⟩
  · exact .inl rfl
  · next heq _ => cases heq

/-- What the end of the reductions says about the stack. -/
def Parser.Settled (p : Parser N T V C τ) (c : Config N T V C) (lookahead : Option T) :
    Verdict → Prop
  | .shift => p.next (p.top c.stack) lookahead = .shift
  | .error => p.next (p.top c.stack) lookahead = .error
  | .read => p.next (p.top c.stack) lookahead = .read
  | .full => p.depth ≤ c.stack.length
  | .stuck => True

end Items

/-! ## The stack -/

section Stack

variable [DecidableEq N] [DecidableEq T]

/-- Each state of a stack is the one behind the symbol. -/
inductive Stands (p : Parser N T V C τ) : List (Entry N T V C) → Prop where
  | nil : Stands p []
  | push {stack : List (Entry N T V C)} {symbol : Symbol N T} {value : V} : Stands p stack →
    Stands p (⟨p.goto (p.top stack) symbol, symbol, value⟩ :: stack)

variable {p : Parser N T V C τ} {stack : List (Entry N T V C)} {c : Config N T V C}
  {item : Item N T V C} {lookahead : Option T}

/-- The rule of an item, at its beginning. -/
def Item.begun (item : Item N T V C) : Item N T V C :=
  { item with before := [], after := item.before.reverse ++ item.after }

/-- The symbols on top of a stack are those that an item has read, and below them its rule
begins. -/
structure Reached (p : Parser N T V C τ) (stack : List (Entry N T V C)) (item : Item N T V C) :
    Prop where
  symbols : item.before <+: stack.map Entry.symbol
  begun : item.begun ∈ p.closure (p.top (stack.drop item.before.length))
  rule : ⟨item.before.reverse ++ item.after, item.action⟩ ∈ p.alternatives item.lhs

omit [DecidableEq T] in
theorem Reached.of_items {n : N} (hitem : item ∈ p.closure (p.top stack))
    (hbegin : item ∈ p.items n) : Reached p stack item := by
  obtain ⟨lhs, action, before, after⟩ := item
  obtain ⟨rfl, rfl, hrule⟩ := Parser.mem_items.mp hbegin
  exact ⟨List.nil_prefix, hitem, hrule⟩

theorem Stands.reached (h : Stands p stack) (hitem : item ∈ p.closure (p.top stack)) :
    Reached p stack item := by
  induction h generalizing item with
  | nil =>
    rcases Parser.mem_closure hitem with hmem | ⟨hmem, -⟩
    · exact .of_items hitem hmem
    · exact .of_items hitem hmem
  | push hstack ih =>
    rcases Parser.mem_closure hitem with hmem | ⟨hmem, -⟩
    · -- The item has read the symbol, and before that it was in the state below.
      obtain ⟨last, hlast, hadvance⟩ := List.mem_filterMap.mp hmem
      obtain ⟨hafter, hbefore, hlhs, haction⟩ := Item.advance_eq_some.mp hadvance
      have hrhs : item.before.reverse ++ item.after = last.before.reverse ++ last.after := by
        rw [hbefore, hafter, List.reverse_cons, List.append_assoc, List.singleton_append]
      have hbegun : item.begun = last.begun := by
        unfold Item.begun
        rw [hrhs, hlhs, haction]
      obtain ⟨hsymbols, hbegins, hrule⟩ := ih hlast
      refine ⟨?_, ?_, ?_⟩
      · rw [hbefore]
        exact List.cons_prefix_cons.mpr ⟨rfl, hsymbols⟩
      · rw [hbegun, hbefore]
        exact hbegins
      · rw [hrhs, hlhs, haction]
        exact hrule
    · exact .of_items hitem hmem

theorem Stands.state_eq {entry : Entry N T V C} (h : Stands p (entry :: stack)) :
    entry.state = p.goto (p.top stack) entry.symbol := by
  cases h with
  | push => rfl

/-- In a state behind a symbol, every rule of the state has been begun. -/
theorem Stands.before_ne_nil {entry : Entry N T V C} (h : Stands p (entry :: stack))
    (hitem : item ∈ entry.state) : item.before ≠ [] := by
  rw [h.state_eq] at hitem
  obtain ⟨last, -, hadvance⟩ := List.mem_filterMap.mp hitem
  rw [(Item.advance_eq_some.mp hadvance).2.1]
  exact List.cons_ne_nil _ _

/-- A nonterminal that only the first rule starts with begins at the bottom of the stack. -/
theorem Stands.eq_nil_of_begins (h : Stands p stack)
    (hitem : item ∈ p.closure (p.top stack)) (hbefore : item.before = [])
    (hnever : ∀ m, ∀ alternative ∈ p.alternatives m, .nonterminal p.accept ∉ alternative.rhs)
    (honly : ∀ m, ∀ alternative ∈ p.alternatives m, ∀ before after,
      alternative.rhs = before ++ .nonterminal item.lhs :: after → m = p.accept ∧ before = []) :
    stack = [] := by
  cases hstack : stack with
  | nil => rfl
  | cons entry below =>
    exfalso
    subst hstack
    -- Something predicts the nonterminal, so it is the first rule, which nothing predicts.
    have hpredicted : ∀ {item : Item N T V C}, item ∈ p.closure entry.state → item.before = [] →
        ∃ other ∈ p.closure entry.state, other.predicts = some item.lhs := by
      intro item hitem hbefore
      rcases Parser.mem_closure hitem with hmem | ⟨-, hother⟩
      · exact absurd hbefore (h.before_ne_nil hmem)
      · exact hother
    obtain ⟨other, hother, hpredicts⟩ := hpredicted hitem hbefore
    obtain ⟨rest, hrest⟩ := Item.predicts_eq_some.mp hpredicts
    obtain ⟨haccept, hbegin⟩ := honly _ _ (h.reached hother).rule _ rest (by rw [hrest])
    obtain ⟨first, hfirst, hpredicts⟩ := hpredicted hother (List.reverse_eq_nil_iff.mp hbegin)
    obtain ⟨rest, hrest⟩ := Item.predicts_eq_some.mp hpredicts
    refine hnever _ _ (h.reached hfirst).rule ?_
    rw [hrest, haccept]
    simp

theorem Stands.drop (h : Stands p stack) (n : ℕ) : Stands p (stack.drop n) := by
  induction h generalizing n with
  | nil => rw [List.drop_nil]; exact .nil
  | push hstack ih =>
    cases n with
    | zero => exact .push hstack
    | succ n => exact ih n

theorem Stands.reduce (h : Stands p c.stack) (item : Item N T V C) :
    Stands p (p.reduce c item).stack :=
  .push (h.drop _)

/-- What every reduction keeps holds when the parser has settled. -/
theorem settle_spec {P : Config N T V C → Prop}
    (hreduce : ∀ c item, P c → c.stack.length < p.depth →
      p.next (p.top c.stack) lookahead = .reduce item → P (p.reduce c item))
    {fuel : ℕ} {c' : Config N T V C} {verdict : Verdict} (h : P c)
    (hshort : c.stack.length < p.depth) (hsettle : p.settle fuel c lookahead = (c', verdict)) :
    P c' ∧ p.Settled c' lookahead verdict ∧ (verdict ≠ .full → c'.stack.length < p.depth) := by
  induction fuel generalizing c with
  | zero =>
    obtain ⟨rfl, rfl⟩ := Prod.mk.inj hsettle
    exact ⟨h, trivial, fun _ => hshort⟩
  | succ fuel ih =>
    unfold Parser.settle at hsettle
    cases hnext : p.next (p.top c.stack) lookahead with
    | reduce item =>
      have hreduced := hreduce c item h hshort hnext
      rw [hnext] at hsettle
      dsimp only at hsettle
      split_ifs at hsettle with hfull
      · obtain ⟨rfl, rfl⟩ := Prod.mk.inj hsettle
        exact ⟨hreduced, hfull, fun hne => absurd rfl hne⟩
      · exact ih hreduced (Nat.not_le.mp hfull) hsettle
    | _ =>
      rw [hnext] at hsettle
      obtain ⟨rfl, rfl⟩ := Prod.mk.inj hsettle
      exact ⟨h, hnext, fun _ => hshort⟩

end Stack

/-! ## The end of the reductions -/

section Weights

/-- A rule makes a stack lighter, where the symbol on top counts more. -/
def isLighter (weight onTop : Symbol N T → ℕ) (n : N) (rhs : List (Symbol N T)) : Bool :=
  match rhs.getLast? with
  | some last =>
    weight (.nonterminal n) + onTop (.nonterminal n) < (rhs.map weight).sum + onTop last
  | none => true

variable [DecidableEq N] [DecidableEq T]

/-- Wherever a symbol comes in a list, it comes behind one of some kind. -/
def comesBehind (symbol : Symbol N T) (isKind : Symbol N T → Bool) :
    Option (Symbol N T) → List (Symbol N T) → Bool
  | _, [] => true
  | last, next :: rest =>
    (next != symbol || last.any isKind) && comesBehind symbol isKind (some next) rest

theorem exists_last_of_comesBehind {symbol : Symbol N T} {isKind : Symbol N T → Bool}
    {last : Option (Symbol N T)} {before after : List (Symbol N T)}
    (h : comesBehind symbol isKind last (before ++ symbol :: after) = true) :
    ∃ found, (last.toList ++ before).getLast? = some found ∧ isKind found = true := by
  induction before generalizing last with
  | nil =>
    cases last with
    | none => simp [comesBehind] at h
    | some found => exact ⟨found, rfl, by simp_all [comesBehind]⟩
  | cons next before ih =>
    obtain ⟨found, hfound, hkind⟩ := ih (Bool.and_eq_true_iff.mp h).2
    refine ⟨found, ?_, hkind⟩
    rw [Option.toList_some, List.singleton_append] at hfound
    rw [List.getLast?_append, hfound, Option.some_or]

/-- Weights of the symbols under which every reduction makes the stack lighter. An empty rule is not
used where a rule begins, and takes from the symbol before it. -/
structure Weights (p : Parser N T V C τ) where
  weight : Symbol N T → ℕ
  onTop : Symbol N T → ℕ
  heaviest : ℕ
  weight_le : ∀ symbol, weight symbol + onTop symbol ≤ heaviest
  rule : ∀ n, (p.alternatives n).all (fun alternative => isLighter weight onTop n alternative.rhs)
  accept : (p.alternatives p.accept).all (!·.rhs.isEmpty)
  empty : ∀ n, (p.alternatives n).any (·.rhs.isEmpty) →
    ∀ m, (p.alternatives m).all fun alternative =>
      comesBehind (.nonterminal n)
        (fun last => weight (.nonterminal n) + onTop (.nonterminal n) < onTop last) none
        alternative.rhs

namespace Weights

variable {p : Parser N T V C τ} (w : Weights p)

theorem lt_of_rule {n : N} {alternative : Alternative N T V C}
    (hrule : alternative ∈ p.alternatives n) {last : Symbol N T}
    (hlast : alternative.rhs.getLast? = some last) :
    w.weight (.nonterminal n) + w.onTop (.nonterminal n) <
      (alternative.rhs.map w.weight).sum + w.onTop last := by
  have hlighter := List.all_eq_true.mp (w.rule n) alternative hrule
  rw [isLighter, hlast] at hlighter
  exact of_decide_eq_true hlighter

theorem lt_of_empty {n m : N} {rule alternative : Alternative N T V C}
    (hrule : rule ∈ p.alternatives n) (hempty : rule.rhs = [])
    (halternative : alternative ∈ p.alternatives m) {before after : List (Symbol N T)}
    (hrhs : alternative.rhs = before ++ .nonterminal n :: after) :
    ∃ last, before.getLast? = some last ∧
      w.weight (.nonterminal n) + w.onTop (.nonterminal n) < w.onTop last := by
  have hany : (p.alternatives n).any (·.rhs.isEmpty) = true :=
    List.any_eq_true.mpr ⟨rule, hrule, by rw [hempty]; rfl⟩
  have hbehind := List.all_eq_true.mp (w.empty n hany m) alternative halternative
  rw [hrhs] at hbehind
  obtain ⟨last, hlast, hlt⟩ := exists_last_of_comesBehind hbehind
  exact ⟨last, hlast, of_decide_eq_true hlt⟩

/-- The weight of a stack. -/
def load : List (Symbol N T) → ℕ
  | [] => 0
  | top :: rest => w.onTop top + w.weight top + (rest.map w.weight).sum

theorem load_eq (symbols : List (Symbol N T)) :
    w.load symbols = (symbols.map w.weight).sum + (symbols.head?.map w.onTop).getD 0 := by
  cases symbols with
  | nil => rfl
  | cons top rest =>
    simp only [load, List.map_cons, List.sum_cons, List.head?_cons, Option.map_some,
      Option.getD_some]
    omega

theorem load_le (symbols : List (Symbol N T)) : w.load symbols ≤ w.heaviest * symbols.length := by
  have hsum : ∀ symbols : List (Symbol N T),
      (symbols.map w.weight).sum ≤ w.heaviest * symbols.length := by
    intro symbols
    induction symbols with
    | nil => simp
    | cons symbol rest ih =>
      have hle := w.weight_le symbol
      simp only [List.map_cons, List.sum_cons, List.length_cons, Nat.mul_succ]
      omega
  cases symbols with
  | nil => simp [load]
  | cons top rest =>
    have hle := w.weight_le top
    have hrest := hsum rest
    simp only [load, List.length_cons, Nat.mul_succ]
    omega

variable {c : Config N T V C} {item : Item N T V C} {lookahead : Option T}

/-- Where an empty rule is complete, its left-hand side comes next behind the symbol on top. -/
theorem empty_onTop (h : Stands p c.stack) (hitem : item ∈ p.closure (p.top c.stack))
    (hbefore : item.before = []) (hafter : item.after = []) :
    ∃ last, (c.stack.map Entry.symbol).head? = some last ∧
      w.weight (.nonterminal item.lhs) + w.onTop (.nonterminal item.lhs) < w.onTop last := by
  have hrule := (h.reached hitem).rule
  rw [hbefore, hafter] at hrule
  rcases Parser.mem_closure hitem with hmem | ⟨-, other, hother, hpredicts⟩
  · -- In a state behind a symbol, all rules have been begun.
    cases hstack : c.stack with
    | nil =>
      rw [hstack] at hmem
      obtain ⟨-, -, hmem⟩ := Parser.mem_items.mp hmem
      have hne := List.all_eq_true.mp w.accept _ hmem
      simp [hafter] at hne
    | cons entry stack =>
      rw [hstack] at h hmem
      exact absurd hbefore (h.before_ne_nil hmem)
  · obtain ⟨rest, hrest⟩ := Item.predicts_eq_some.mp hpredicts
    obtain ⟨hsymbols, -, hotherRule⟩ := h.reached hother
    obtain ⟨last, hlast, hlt⟩ := w.lt_of_empty hrule rfl hotherRule (by rw [hrest])
    rw [List.getLast?_reverse] at hlast
    obtain ⟨below, hbelow⟩ := hsymbols
    refine ⟨last, ?_, hlt⟩
    rw [← hbelow, List.head?_append, hlast, Option.some_or]

theorem load_reduce (h : Stands p c.stack)
    (hnext : p.next (p.top c.stack) lookahead = .reduce item) :
    w.load ((p.reduce c item).stack.map Entry.symbol) < w.load (c.stack.map Entry.symbol) := by
  obtain ⟨hitem, hafter⟩ := Parser.next_eq_reduce hnext
  obtain ⟨⟨below, hbelow⟩, -, hrule⟩ := h.reached hitem
  have hrest : (c.stack.drop item.before.length).map Entry.symbol = below := by
    rw [List.map_drop, ← hbelow, List.drop_left]
  have hnew : (p.reduce c item).stack.map Entry.symbol = .nonterminal item.lhs :: below := by
    rw [p.reduce_stack, List.map_cons, hrest]
  rw [hnew, load, w.load_eq]
  cases hbefore : item.before with
  | nil =>
    obtain ⟨last, hlast, hlt⟩ := w.empty_onTop h hitem hbefore hafter
    rw [hlast, ← hbelow, hbefore, Option.map_some, Option.getD_some, List.nil_append]
    omega
  | cons last before =>
    rw [hafter, hbefore, List.append_nil] at hrule
    have hlast : (last :: before).reverse.getLast? = some last := by simp
    have hlt := w.lt_of_rule hrule hlast
    rw [List.map_reverse, List.sum_reverse] at hlt
    rw [← hbelow, hbefore, List.map_append, List.sum_append, List.cons_append, List.head?_cons,
      Option.map_some, Option.getD_some]
    omega

/-- With as many steps as the stack weighs, the reductions come to an end. -/
theorem settle_ne_stuck (h : Stands p c.stack) {fuel : ℕ}
    (hfuel : w.load (c.stack.map Entry.symbol) < fuel) :
    (p.settle fuel c lookahead).2 ≠ .stuck := by
  induction fuel generalizing c with
  | zero => omega
  | succ fuel ih =>
    unfold Parser.settle
    cases hnext : p.next (p.top c.stack) lookahead with
    | reduce item =>
      have hlt := w.load_reduce h hnext
      dsimp only
      split
      · simp
      · exact ih (h.reduce item) (by omega)
    | _ => simp

end Weights

end Weights

end Rucbase.Lib.Lr
