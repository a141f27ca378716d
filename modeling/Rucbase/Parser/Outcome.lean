import Rucbase.Parser.Diagnostics
import Rucbase.Parser.YaccComplete
import Rucbase.Parser.YaccSound

/-!
# What a parse returns

`Parse` takes the statement and the error from one context. The action of the rule `start: stmt ';'`
puts the statement there. Behind the semicolon no other rule can go on, so the generated parser runs
this action before it reads the next token. If the next token is not the end of the input, the
parser fails with the statement in the context (`Follows`, `run_yyparse`).

So both are set if something comes behind a statement with its semicolon, and in no other case; at
least one of them always is (`parse_cases`). In turn the parser reads every statement that its stack
has room for, so there are both whenever something comes behind such a one (`HasMore.parse`).
-/

namespace Rucbase.Parser

open Lib Ast Lr Grammar

/-! ## Where symbols occur -/

/-- Whether a symbol is on the right-hand side of a rule. -/
def occurs (symbol : YySymbol) (n : Nonterminal) : Bool :=
  (alternatives n).any (·.rhs.contains symbol)

variable {n : Nonterminal}

theorem occurs_of_mem {symbol : YySymbol} {alternative : YyRule}
    (hrule : alternative ∈ alternatives n) (h : symbol ∈ alternative.rhs) :
    occurs symbol n = true :=
  List.any_eq_true.mpr ⟨alternative, hrule, List.contains_iff_mem.mpr h⟩

theorem occurs_accept (n : Nonterminal) : occurs (nt .accept) n = false := by
  cases n <;> rfl

theorem occurs_invalid (n : Nonterminal) : occurs (tk .invalid) n = false := by
  cases n <;> rfl

theorem eq_accept_of_occurs_start (h : occurs (nt .start) n = true) : n = .accept := by
  cases n with
  | accept => rfl
  | _ => cases h

theorem eq_accept_of_occurs_end (h : occurs (tk .end_) n = true) : n = .accept := by
  cases n with
  | accept => rfl
  | _ => cases h

/-- The state behind `start`. -/
def startState : List YyItem :=
  lrParser.goto (lrParser.items .accept) (nt .start)

theorem closure_startState :
    lrParser.closure startState =
      [⟨.accept, (rule [nt .start, tk .end_] fun _ yyval => yyval).action, [nt .start],
        [tk .end_]⟩] := by
  rfl

/-- Behind `start`, the parser needs a token. -/
theorem next_startState_none : lrParser.next startState none = .read := by
  unfold Parser.next
  rw [closure_startState]
  rfl

/-- It takes the end of the input only. -/
theorem next_startState_end : lrParser.next startState (some .end_) = .shift := by
  unfold Parser.next
  rw [closure_startState]
  rfl

theorem next_startState_of_ne {t : Terminal} (ht : t ≠ .end_) :
    lrParser.next startState (some t) = .error := by
  unfold Parser.next
  rw [closure_startState]
  simp [Item.scans, Parser.choose, lrParser, ht.symm]

/-- The state behind a statement and its semicolon. -/
def semicolonState : List YyItem :=
  lrParser.goto (lrParser.goto (lrParser.items .accept) (nt .stmt)) (ch ';')

/-- It has one item only, so the parser reduces without a token. -/
theorem next_semicolonState : lrParser.next semicolonState none =
    .reduce ⟨.start, fun values _ => (values.getD 0 {}, (values.getD 0 {}).statement),
      [ch ';', nt .stmt], []⟩ := by
  have hclosure : lrParser.closure semicolonState =
      [⟨.start, fun values _ => (values.getD 0 {}, (values.getD 0 {}).statement),
        [ch ';', nt .stmt], []⟩] := by
    rfl
  unfold Parser.next
  rw [hclosure]
  rfl

/-! ## The context -/

/-- The tokens of a statement with its semicolon, for which the stack of the parser has room. -/
def Fits (ts : List Token) : Prop :=
  ∃ values places, Derives lrParser [nt .stmt, ch ';'] ts values places ∧ places < lrParser.depth

/-- What the parser has done when it has read some tokens: it has the statement if these are the
tokens of a statement with its semicolon, and then there is nothing else on the stack. Before that,
it has derived what is on the stack. -/
structure Follows (c : YyConfig) (ts : List Token) : Prop where
  stands : Stands lrParser c.stack
  context : (c.context = .null ∧ nt .start ∉ c.stack.map Entry.symbol ∧
      (c.stack.length < lrParser.depth → Carries lrParser c.stack ts)) ∨
    (Start ts c.context ∧ c.stack.map Entry.symbol = [nt .start] ∧ Fits ts)

section

variable {c : YyConfig} {ts : List Token}

theorem follows_initial : Follows ⟨[], .null⟩ [] := ⟨.nil, .inl ⟨rfl, by simp, fun _ => .nil⟩⟩

theorem top_of_start (h : Stands lrParser c.stack)
    (hsymbols : c.stack.map Entry.symbol = [nt .start]) :
    lrParser.top c.stack = startState := by
  cases hstack : c.stack with
  | nil => simp [hstack] at hsymbols
  | cons entry rest =>
    rw [hstack] at h hsymbols
    obtain ⟨hentry, hrest⟩ := List.cons.inj hsymbols
    obtain rfl := List.map_eq_nil_iff.mp hrest
    change entry.state = startState
    rw [h.state_eq, hentry]
    rfl

variable {item : YyItem} {lookahead : Option Terminal}

/-- `start` begins at the bottom of the stack. -/
theorem eq_nil_of_start {stack : List (Entry Nonterminal Terminal SemanticValue Statement)}
    (h : Stands lrParser stack) (hitem : item ∈ lrParser.closure (lrParser.top stack))
    (hlhs : item.lhs = .start) (hbefore : item.before = []) : stack = [] := by
  refine h.eq_nil_of_begins hitem hbefore ?_ ?_
  · intro m alternative hrule hmem
    have hoccurs := occurs_of_mem hrule hmem
    rw [show lrParser.accept = .accept from rfl, occurs_accept] at hoccurs
    cases hoccurs
  · intro m alternative hrule before after hrhs
    rw [hlhs] at hrhs
    obtain rfl := eq_accept_of_occurs_start (occurs_of_mem hrule (by rw [hrhs]; simp))
    obtain rfl := List.mem_singleton.mp hrule
    refine ⟨rfl, ?_⟩
    -- The rule has `start` at its beginning and not behind it.
    cases before with
    | nil => rfl
    | cons symbol before =>
      have htail : [tk .end_] = before ++ nt .start :: after := (List.cons.inj hrhs).2
      have hmem : nt .start ∈ [tk .end_] := by rw [htail]; simp
      exact absurd hmem (by decide)

/-- The rule of `start` is reduced with nothing below it on the stack. -/
theorem Follows.reduce_start (h : Follows c ts) (hcarries : Carries lrParser c.stack ts)
    (hshort : c.stack.length < lrParser.depth)
    (hnext : lrParser.next (lrParser.top c.stack) lookahead = .reduce item)
    (hlhs : item.lhs = .start) :
    Start ts (lrParser.reduce c item).context ∧
      (lrParser.reduce c item).stack.map Entry.symbol = [nt .start] ∧ Fits ts := by
  obtain ⟨hitem, hafter⟩ := Parser.next_eq_reduce hnext
  obtain ⟨hsymbols, hbegun, hrule⟩ := h.stands.reached hitem
  rw [hafter, List.append_nil, hlhs] at hrule
  obtain ⟨hrhs, haction⟩ := Alternative.mk.inj (List.mem_singleton.mp hrule)
  have hnil := eq_nil_of_start (h.stands.drop _) hbegun hlhs rfl
  obtain ⟨us, vs, places, rfl, hbottom, hderives, hplaces⟩ := hcarries.pop hsymbols hshort
  rw [hnil] at hbottom hplaces
  rw [hrhs] at hderives
  rw [List.length_nil, Nat.zero_add] at hplaces
  rw [lrParser.reduce_stack, hnil, hlhs, lrParser.reduce_context, haction]
  cases hbottom with
  | nil =>
    have hmeans := (sound_lrParser.rule .start c.context _ hrule).apply
      (by rw [hrhs]; exact hderives.meansAll sound_lrParser .null)
    rw [haction] at hmeans
    exact ⟨hmeans, rfl, _, places, hderives, hplaces⟩

/-- A reduction, if the stack is not full before it. -/
theorem Follows.reduce (h : Follows c ts) (hshort : c.stack.length < lrParser.depth)
    (hnext : lrParser.next (lrParser.top c.stack) lookahead = .reduce item) :
    Follows (lrParser.reduce c item) ts := by
  refine ⟨h.stands.reduce item, ?_⟩
  rcases h.context with ⟨hnull, hstart, hcarries⟩ | ⟨-, hstart, -⟩
  · by_cases hlhs : item.lhs = .start
    · exact .inr (h.reduce_start (hcarries hshort) hshort hnext hlhs)
    · obtain ⟨hitem, hafter⟩ := Parser.next_eq_reduce hnext
      have hreached := h.stands.reached hitem
      have hrule := hreached.rule
      rw [hafter, List.append_nil] at hrule
      refine .inl ⟨?_, ?_, ?_⟩
      · have hcontext := congrArg Prod.snd (action_eq hlhs
          ((c.stack.take item.before.length).reverse.map Entry.value) _ hrule c.context)
        exact (lrParser.reduce_context c item).trans (hcontext.trans hnull)
      · rw [lrParser.reduce_stack]
        intro hmem
        rcases List.mem_cons.mp hmem with heq | hmem
        · exact hlhs (Lr.Symbol.nonterminal.inj heq).symm
        · rw [List.map_drop] at hmem
          exact hstart (List.mem_of_mem_drop hmem)
      · exact (hcarries hshort).reduce hreached hafter
          (fun values => ⟨_, action_eq hlhs values _ hrule⟩) hshort
  · -- Behind `start` there is no reduction.
    rw [top_of_start h.stands hstart] at hnext
    cases lookahead with
    | none =>
      rw [next_startState_none] at hnext
      cases hnext
    | some t =>
      by_cases ht : t = .end_
      · rw [ht, next_startState_end] at hnext
        cases hnext
      · rw [next_startState_of_ne ht] at hnext
        cases hnext

theorem Follows.settle (h : Follows c ts) (hshort : c.stack.length < lrParser.depth)
    {c' : YyConfig} {verdict : Verdict}
    (hsettle : lrParser.settle maxReductions c lookahead = (c', verdict)) :
    Follows c' ts ∧ lrParser.Settled c' lookahead verdict ∧
      (verdict ≠ .full → c'.stack.length < lrParser.depth) :=
  settle_spec (P := fun c => Follows c ts) (fun _ _ h hshort hnext => h.reduce hshort hnext) h
    hshort hsettle

theorem kind_ne_end (token : Token) : token.kind ≠ .end_ := by
  cases token <;> simp [Token.kind]

/-- A token that comes next in a rule is shifted. -/
theorem Follows.shift (h : Follows c ts) {token : Token}
    (hnext : lrParser.next (lrParser.top c.stack) (some token.kind) = .shift) :
    Follows (lrParser.shift c token) (ts ++ [token]) ∧ (lrParser.shift c token).context = .null ∧
      token ≠ .invalid := by
  obtain ⟨item, hitem, hhead⟩ := Parser.next_eq_shift hnext
  have hrule := (h.stands.reached hitem).rule
  obtain ⟨hnull, hstart, hcarries⟩ := h.context.resolve_right <| by
    -- Behind `start` only the end of the input is shifted.
    rintro ⟨-, hsymbols, -⟩
    rw [top_of_start h.stands hsymbols, next_startState_of_ne (kind_ne_end token)] at hnext
    cases hnext
  refine ⟨⟨.push h.stands, .inl ⟨hnull, ?_, fun hshort => ?_⟩⟩, hnull, ?_⟩
  · simpa [Parser.shift, Parser.push] using hstart
  · have hlength : (lrParser.shift c token).stack.length = c.stack.length + 1 := rfl
    exact (hcarries (by omega)).shift token hshort
  · rintro rfl
    have hmem : tk .invalid ∈ item.after := List.mem_of_mem_head? hhead
    have hoccurs := occurs_of_mem hrule (List.mem_append_right _ hmem)
    rw [occurs_invalid] at hoccurs
    cases hoccurs

/-- The end of the input is shifted behind `start`. -/
theorem Follows.start_of_end (h : Follows c ts)
    (hnext : lrParser.next (lrParser.top c.stack) (some .end_) = .shift) : Start ts c.context := by
  obtain ⟨item, hitem, hhead⟩ := Parser.next_eq_shift hnext
  obtain ⟨hsymbols, -, hrule⟩ := h.stands.reached hitem
  have hmem : tk .end_ ∈ item.after := List.mem_of_mem_head? hhead
  rw [eq_accept_of_occurs_end (occurs_of_mem hrule (List.mem_append_right _ hmem))] at hrule
  have hrhs : item.before.reverse ++ item.after = [nt .start, tk .end_] :=
    (Alternative.mk.inj (List.mem_singleton.mp hrule)).1
  refine (h.context.resolve_left ?_).1
  rintro ⟨-, hstart, -⟩
  -- The rule has read `start`, which is then on the stack.
  have hbefore : nt .start ∈ item.before.reverse := by
    cases hreverse : item.before.reverse with
    | nil =>
      rw [hreverse, List.nil_append] at hrhs
      rw [hrhs] at hhead
      cases hhead
    | cons symbol rest =>
      rw [hreverse] at hrhs
      rw [(List.cons.inj hrhs).1]
      exact List.mem_cons_self
  exact hstart (hsymbols.subset (List.mem_reverse.mp hbefore))

/-- With the statement in the context, the stack is short. -/
theorem Follows.null_of_full (h : Follows c ts) (hfull : lrParser.depth ≤ c.stack.length) :
    c.context = .null := by
  refine (h.context.resolve_right ?_).1
  rintro ⟨-, hsymbols, -⟩
  have hlength : c.stack.length = 1 := by simpa using congrArg List.length hsymbols
  rw [hlength] at hfull
  exact absurd hfull (by decide)

theorem Follows.settle_ne_stuck (h : Follows c ts) (hshort : c.stack.length < lrParser.depth)
    (lookahead : Option Terminal) : (lrParser.settle maxReductions c lookahead).2 ≠ .stuck := by
  refine weights.settle_ne_stuck h.stands ?_
  have hload := weights.load_le (c.stack.map Entry.symbol)
  have hdepth : c.stack.length < 199 := hshort
  rw [List.length_map] at hload
  have hheaviest : weights.heaviest = 24 := rfl
  rw [hheaviest] at hload
  unfold maxReductions yyinitdepth
  omega

end

/-! ## One token -/

section Step

variable (syntaxError : List YyItem → Option Token → Bytes) {c : YyConfig} {ts : List Token}

theorem failed_spec (verdict : Verdict) (token : Option Token) (yylloc : Location) :
    (failed syntaxError c verdict token yylloc).yyerror ≠ none ∧
      (failed syntaxError c verdict token yylloc).statement = c.context := by
  cases verdict <;> simp [failed]

/-- The parser goes on, or it stops with an error. -/
theorem step_yyparse (h : Follows c ts) (hshort : c.stack.length < lrParser.depth) (token : Token)
    (yylloc : Location) :
    (∃ next, (yyparse syntaxError).step c token yylloc = .inl next ∧
      Follows next (ts ++ [token]) ∧ next.stack.length < lrParser.depth ∧ token ≠ .invalid) ∨
    ∃ exit, (yyparse syntaxError).step c token yylloc = .inr exit ∧
      exit.yyerror ≠ none ∧ (exit.statement = .null ∨ Start ts exit.statement ∧ Fits ts) := by
  unfold yyparse
  dsimp only
  rcases hsettle : lrParser.settle maxReductions c (some token.kind) with ⟨c₁, verdict⟩
  obtain ⟨hfollows, hsettled, -⟩ := h.settle hshort hsettle
  cases verdict with
  | shift =>
    obtain ⟨hshift, hnull, hvalid⟩ := hfollows.shift hsettled
    dsimp only
    split_ifs with hfull
    · obtain ⟨hyyerror, hstatement⟩ :=
        failed_spec syntaxError (c := lrParser.shift c₁ token) .full (some token) yylloc
      exact .inr ⟨_, rfl, hyyerror, .inl (hstatement.trans hnull)⟩
    · rw [not_le] at hfull
      -- Without a token, the parser asks for one, unless its stack gets full.
      have hstuck := hshift.settle_ne_stuck hfull none
      rcases hsettle : lrParser.settle maxReductions (lrParser.shift c₁ token) none with
        ⟨c₂, verdict⟩
      rw [hsettle] at hstuck
      obtain ⟨hfollows, hsettled, hroom⟩ := hshift.settle hfull hsettle
      cases verdict with
      | read => exact .inl ⟨c₂, rfl, hfollows, hroom (by decide), hvalid⟩
      | full =>
        obtain ⟨hyyerror, hstatement⟩ := failed_spec syntaxError (c := c₂) .full (some token) yylloc
        exact .inr ⟨_, rfl, hyyerror, .inl (hstatement.trans (hfollows.null_of_full hsettled))⟩
      | stuck => exact absurd rfl hstuck
      | shift | error =>
        rcases lrParser.next_none (lrParser.top c₂.stack) with hnext | ⟨item, hnext⟩
        · cases hnext.symm.trans hsettled
        · cases hnext.symm.trans hsettled
  | error | read | full | stuck =>
    obtain ⟨hyyerror, hstatement⟩ := failed_spec syntaxError (c := c₁) _ (some token) yylloc
    refine .inr ⟨_, rfl, hyyerror, ?_⟩
    rw [hstatement]
    exact hfollows.context.imp And.left fun h => ⟨h.1, h.2.2⟩

/-- At the end of the input, the parser has a statement or an error. -/
theorem finish_yyparse (h : Follows c ts) (hshort : c.stack.length < lrParser.depth)
    (yylloc : Location) :
    let exit := (yyparse syntaxError).finish c yylloc
    exit.status = 0 ∧ exit.yyerror = none ∧ Start ts exit.statement ∨
      exit.yyerror ≠ none ∧ exit.statement = .null := by
  unfold yyparse
  dsimp only
  have hstuck := h.settle_ne_stuck hshort (some .end_)
  rcases hsettle : lrParser.settle maxReductions c (some .end_) with ⟨c₁, verdict⟩
  rw [hsettle] at hstuck
  obtain ⟨hfollows, hsettled, -⟩ := h.settle hshort hsettle
  cases verdict with
  | shift => exact .inl ⟨rfl, rfl, hfollows.start_of_end hsettled⟩
  | full =>
    obtain ⟨hyyerror, hstatement⟩ := failed_spec syntaxError (c := c₁) .full none yylloc
    exact .inr ⟨hyyerror, hstatement.trans (hfollows.null_of_full hsettled)⟩
  | stuck => exact absurd rfl hstuck
  | error | read =>
    obtain ⟨hyyerror, hstatement⟩ := failed_spec syntaxError (c := c₁) _ none yylloc
    refine .inr ⟨hyyerror, hstatement.trans (hfollows.context.resolve_right ?_).1⟩
    rintro ⟨-, hsymbols, -⟩
    rw [Parser.Settled, top_of_start hfollows.stands hsymbols, next_startState_end] at hsettled
    cases hsettled

end Step

/-! ## A whole text -/

section Run

variable {strtof : Bytes → Option (BitVec 32)}

/-- An action that records an error returns `INVALID`. -/
theorem eq_invalid_of_result {action : Action} {yytext message : Bytes} {token : Token}
    (h : action.result strtof yytext = some (token, some message)) : token = .invalid := by
  cases action with
  | valueInt | valueFloat =>
    dsimp only [Action.result] at h
    split at h <;> simp_all
  | _ => simp_all [Action.result]

variable {scanner : Scanner} {us : List Token}

theorem error_act {yytext rest : Bytes} {action : Action}
    (h : ∀ message, action.result strtof yytext ≠ some (.invalid, message)) :
    (scanner.act strtof yytext rest action).context.error = scanner.context.error := by
  unfold Scanner.act
  split
  · rfl
  · split
    · next token message hresult =>
      obtain rfl := eq_invalid_of_result hresult
      exact absurd hresult (h _)
    · rfl

/-- The scanner records an error only when it returns `INVALID`. -/
theorem error_yylex {next : Scanner} {token : Option Token}
    (h : yylex strtof scanner = (token, next)) (htoken : token ≠ some .invalid) :
    next.context.error = scanner.context.error := by
  fun_induction yylex strtof scanner with
  | case1 scanner =>
    unfold Scanner.atEnd at h
    split at h
    · obtain ⟨-, rfl⟩ := Prod.mk.inj h
      rfl
    · exact absurd (Prod.mk.inj h).1.symm htoken
  | case2 scanner c rest _ w action _ _ found message hresult =>
    obtain ⟨rfl, rfl⟩ := Prod.mk.inj h
    refine error_act fun message hmessage => ?_
    rw [hmessage] at hresult
    exact htoken (by rw [(Prod.mk.inj (Option.some.inj hresult)).1])
  | case3 scanner c rest _ w action _ _ hresult ih =>
    rw [ih h]
    exact error_act (by simp [hresult])

variable {syntaxError : List YyItem → Option Token → Bytes} {c : YyConfig} {ts : List Token}

/-- What the parse of a text comes to, if the parser has read some tokens: no statement and an
error; a statement and no error; or a statement, and an error behind it. -/
theorem run_yyparse (h : Follows c ts) (hshort : c.stack.length < lrParser.depth) {last : Scanner}
    (herror : scanner.context.error = none) {exit : Exit}
    (hrun : (yyparse syntaxError).run strtof c scanner = (exit, last)) :
    (exit.yyerror ≠ none ∧ exit.statement = .null) ∨
    (exit.status = 0 ∧ exit.yyerror = none ∧ last.context.error = none ∧
      Start (ts ++ scanAll strtof scanner) exit.statement) ∨
    (exit.yyerror ≠ none ∧ ∃ before more, more ≠ [] ∧
      ts ++ scanAll strtof scanner = before ++ more ∧ Start before exit.statement ∧
      Fits before) := by
  generalize hn : scanner.measure = n
  induction n using Nat.strong_induction_on generalizing c ts scanner with
  | _ n ih =>
    rcases hyylex : yylex strtof scanner with ⟨_ | token, next⟩
    · obtain ⟨rfl, rfl⟩ := Prod.mk.inj ((Yyparse.run_none hyylex).symm.trans hrun)
      have hnone := (error_yylex hyylex (by simp)).trans herror
      rw [scanAll_none hyylex, List.append_nil]
      rcases finish_yyparse syntaxError h hshort next.yylloc with
        ⟨hstatus, hyyerror, hstart⟩ | hfailed
      · exact .inr (.inl ⟨hstatus, hyyerror, hnone, hstart⟩)
      · exact .inl hfailed
    · replace hrun := (Yyparse.run_some hyylex).symm.trans hrun
      rw [scanAll_some hyylex]
      rcases step_yyparse syntaxError h hshort token next.yylloc with
        ⟨c', hstep, hfollows, hshort, hvalid⟩ | ⟨exit', hstep, hyyerror, hstatement⟩
      · rw [hstep] at hrun
        have hnone := (error_yylex hyylex (by simpa using hvalid)).trans herror
        have hrest := ih _ (hn ▸ measure_yylex strtof hyylex) hfollows hshort hnone hrun rfl
        rwa [List.append_assoc] at hrest
      · rw [hstep] at hrun
        obtain ⟨rfl, rfl⟩ := Prod.mk.inj hrun
        rcases hstatement with hnull | hstart
        · exact .inl ⟨hyyerror, hnull⟩
        · exact .inr (.inr ⟨hyyerror, ts, _, List.cons_ne_nil _ _, rfl, hstart⟩)

variable (syntaxError) in
/-- The parser goes on if it can read the token and those behind it. The last argument is about the
stack behind all of them. -/
theorem step_of_reads {last c' : YyConfig} (h : Follows c ts)
    (hshort : c.stack.length < lrParser.depth) {token : Token}
    (hreads : Reads lrParser lrParser.depth c (token :: us) c')
    (hlast : lrParser.settle maxReductions c' none = (last, .read)) (yylloc : Location) :
    ∃ shifted next, (yyparse syntaxError).step c token yylloc = .inl next ∧
      Reads lrParser lrParser.depth shifted us c' ∧
      lrParser.settle maxReductions shifted none = (next, .read) := by
  obtain ⟨fuel, settled, hsettle, hroom, hrest⟩ := hreads.settle
  have hstuck := h.settle_ne_stuck hshort (some token.kind)
  rcases hsome : lrParser.settle maxReductions c (some token.kind) with ⟨c₁, verdict⟩
  rw [hsome] at hstuck
  obtain ⟨rfl, rfl⟩ := Parser.settle_unique hsome hsettle hstuck (by decide)
  obtain ⟨hfollows, hsettled, -⟩ := h.settle hshort hsome
  obtain ⟨hshift, -, -⟩ := hfollows.shift hsettled
  obtain ⟨next, hnext⟩ : ∃ next,
      lrParser.settle maxReductions (lrParser.shift c₁ token) none = (next, .read) := by
    cases us with
    | nil =>
      cases hrest with
      | refl => exact ⟨last, hlast⟩
    | cons u us =>
      obtain ⟨hread, -⟩ := hrest.settle_none (Prod.mk.eta (p := lrParser.settle _ _ _)).symm
        (hshift.settle_ne_stuck hroom none)
      exact ⟨_, Prod.ext rfl hread⟩
  refine ⟨lrParser.shift c₁ token, next, ?_, hrest, hnext⟩
  simp only [yyparse, hsome, hnext, if_neg (Nat.not_le.mpr hroom)]

variable (syntaxError) in
/-- The parser comes to read the tokens behind those that it can read. The induction is on these
tokens. -/
theorem run_of_reads {first last c' : YyConfig} {more : List Token}
    (hreads : Reads lrParser lrParser.depth first us c')
    (hfirst : lrParser.settle maxReductions first none = (c, .read))
    (hlast : lrParser.settle maxReductions c' none = (last, .read)) (h : Follows c ts)
    (hshort : c.stack.length < lrParser.depth) (hscan : scanAll strtof scanner = us ++ more) :
    Follows last (ts ++ us) ∧ ∃ rest, scanAll strtof rest = more ∧
      (yyparse syntaxError).run strtof c scanner = (yyparse syntaxError).run strtof last rest := by
  induction us generalizing first c ts scanner with
  | nil =>
    cases hreads with
    | refl =>
      obtain ⟨rfl, -⟩ := Prod.mk.inj (hfirst.symm.trans hlast)
      exact ⟨by rwa [List.append_nil], scanner, hscan, rfl⟩
  | cons token us ih =>
    obtain ⟨-, hreads⟩ := hreads.settle_none hfirst (by decide)
    rcases hyylex : yylex strtof scanner with ⟨_ | found, next⟩
    · rw [scanAll_none hyylex] at hscan
      cases hscan
    · rw [scanAll_some hyylex] at hscan
      obtain ⟨rfl, hrest⟩ := List.cons.inj hscan
      obtain ⟨shifted, c₁, hstep, hreads, hnext⟩ :=
        step_of_reads syntaxError h hshort hreads hlast next.yylloc
      rcases step_yyparse syntaxError h hshort found next.yylloc with
        ⟨c₂, hstep', hfollows, hshort, -⟩ | ⟨exit, hstep', -⟩
      · obtain rfl := Sum.inl.inj (hstep.symm.trans hstep')
        obtain ⟨hfollows, rest, hmore, hrun⟩ := ih hreads hnext hfollows hshort hrest
        refine ⟨by rwa [List.append_assoc] at hfollows, rest, hmore, ?_⟩
        refine (Yyparse.run_some hyylex).trans ?_
        rw [hstep]
        exact hrun
      · cases hstep.symm.trans hstep'

/-- Behind the semicolon, the parser puts the statement into the context. -/
theorem settle_semicolon (v w : SemanticValue) :
    lrParser.settle maxReductions
      (lrParser.pushAll ⟨[], .null⟩ [nt .stmt, ch ';'] [v, w]) none =
      (⟨[⟨startState, nt .start, v⟩], v.statement⟩, .read) := by
  have hfuel : maxReductions = maxReductions - 2 + 1 + 1 := rfl
  rw [hfuel, Parser.settle]
  have htop : lrParser.top (lrParser.pushAll ⟨[], .null⟩ [nt .stmt, ch ';'] [v, w]).stack =
    semicolonState := rfl
  rw [htop, next_semicolonState]
  have hreduce : lrParser.reduce (lrParser.pushAll ⟨[], .null⟩ [nt .stmt, ch ';'] [v, w])
      ⟨.start, fun values _ => (values.getD 0 {}, (values.getD 0 {}).statement),
        [ch ';', nt .stmt], []⟩ = ⟨[⟨startState, nt .start, v⟩], v.statement⟩ := rfl
  dsimp only
  have hroom : 1 < lrParser.depth := by decide
  rw [hreduce, List.length_singleton, if_neg (Nat.not_le.mpr hroom), Parser.settle]
  have hstart : lrParser.top [⟨startState, nt .start, v⟩] = startState := rfl
  rw [hstart, next_startState_none]

theorem Grammar.Start.ne_null {statement : Statement} (h : Start ts statement) :
    statement ≠ .null := by
  cases h with
  | mk hstmt => cases hstmt <;> simp

/-- If something comes behind a statement that fits, the parser stops there. It has the statement,
and reports an error. -/
theorem run_of_fits {more : List Token} (h : Fits us) (hmore : more ≠ []) {last : Scanner}
    (hscan : scanAll strtof scanner = us ++ more) {exit : Exit}
    (hrun : (yyparse syntaxError).run strtof (yyparse syntaxError).initial scanner = (exit, last)) :
    exit.yyerror ≠ none ∧ exit.statement ≠ .null := by
  obtain ⟨values, places, hderives, hplaces⟩ := h
  obtain ⟨v, w, rfl⟩ : ∃ v w, values = [v, w] :=
    List.length_eq_two.mp hderives.length_eq.symm
  have hfirst : lrParser.settle maxReductions ⟨[], .null⟩ none = (⟨[], .null⟩, .read) := by rfl
  obtain ⟨hfollows, rest, hrest, hruns⟩ := run_of_reads syntaxError
    (reads_start hderives hplaces) hfirst (settle_semicolon v w) follows_initial (by decide) hscan
  replace hrun := hruns.symm.trans hrun
  have hstart : Start us v.statement := by
    refine (hfollows.context.resolve_left ?_).1
    rintro ⟨-, hsymbols, -⟩
    exact hsymbols List.mem_cons_self
  rcases hyylex : yylex strtof rest with ⟨_ | token, next⟩
  · exact absurd (hrest.symm.trans (scanAll_none hyylex)) hmore
  · replace hrun := (Yyparse.run_some hyylex).symm.trans hrun
    have hsettle : lrParser.settle maxReductions ⟨[⟨startState, nt .start, v⟩], v.statement⟩
        (some token.kind) = (⟨[⟨startState, nt .start, v⟩], v.statement⟩, .error) := by
      rw [show maxReductions = maxReductions - 1 + 1 from rfl, Parser.settle]
      have htop : lrParser.top [⟨startState, nt .start, v⟩] = startState := rfl
      rw [htop, next_startState_of_ne (kind_ne_end token)]
    simp only [yyparse, hsettle] at hrun
    obtain ⟨rfl, -⟩ := Prod.mk.inj hrun
    obtain ⟨hyyerror, hstatement⟩ := failed_spec syntaxError
      (c := ⟨[⟨startState, nt .start, v⟩], v.statement⟩) .error (some token) next.yylloc
    exact ⟨hyyerror, by rw [hstatement]; exact hstart.ne_null⟩

theorem isNull_eq_false {statement : Statement} :
    isNull statement = false ↔ statement ≠ .null := by
  cases statement <;> simp [isNull]

/-- Something comes behind a statement and its semicolon, in a text that `Parse` gives to the
generated parser. -/
def HasMore (strtof : Bytes → Option (BitVec 32)) (sql : Bytes) : Prop :=
  0 ∉ sql ∧ sql.length ≤ 2^31 - 1 ∧
    ∃ ts more, more ≠ [] ∧ scanAll strtof (Scanner.fresh sql) = ts ++ more ∧ Fits ts

/-- What `Parse` returns: no statement and an error; the statement of the text and no error; or
a statement and an error, if there is something behind the semicolon. -/
theorem parse_cases (sql : Bytes) {result : ParseResult}
    (hresult : result = (parse strtof (yyparse syntaxError) .initial sql).1) :
    (result.error ≠ none ∧ result.statement = .null) ∨
    (result.error = none ∧ Start (scanAll strtof (Scanner.fresh sql)) result.statement) ∨
    (result.error ≠ none ∧ result.statement ≠ .null ∧ HasMore strtof sql) := by
  unfold parse at hresult
  split at hresult
  · obtain rfl := hresult
    exact .inl ⟨by simp, rfl⟩
  · next hnul =>
    split at hresult
    · obtain rfl := hresult
      exact .inl ⟨by simp, rfl⟩
    · next hsize =>
      rcases hrun : (yyparse syntaxError).run strtof (yyparse syntaxError).initial
        ⟨.initial, sql, ⟨1, 1, 1, 1⟩, ⟨none, 1, 1⟩⟩ with ⟨exit, last⟩
      dsimp only at hresult
      rw [hrun] at hresult
      obtain rfl := hresult
      have hkeep (h : exit.yyerror ≠ none) : last.context.error.or exit.yyerror ≠ none :=
        fun hnone => h (Option.or_eq_none_iff.mp hnone).2
      rcases run_yyparse follows_initial (by decide) rfl hrun with
        ⟨hyyerror, hnull⟩ | ⟨hstatus, hyyerror, herror, hstart⟩ |
        ⟨hyyerror, before, more, hmore, htokens, hstart, hfits⟩
      · exact .inl ⟨by simp [hkeep hyyerror], hnull⟩
      · have hnull := isNull_eq_false.mpr hstart.ne_null
        exact .inr (.inl ⟨by simp [hstatus, hyyerror, herror, hnull], hstart⟩)
      · refine .inr (.inr ⟨by simp [hkeep hyyerror], hstart.ne_null, ?_, Nat.not_lt.mp hsize,
          before, more, hmore, htokens, hfits⟩)
        exact findIdx?_eq_none.mp hnul

/-- With something behind the semicolon, there are both. -/
theorem HasMore.parse {sql : Bytes} (h : HasMore strtof sql) {result : ParseResult}
    (hresult : result = (parse strtof (yyparse syntaxError) .initial sql).1) :
    result.error ≠ none ∧ result.statement ≠ .null := by
  obtain ⟨hnul, hsize, ts, more, hmore, hscan, hfits⟩ := h
  rcases hrun : (yyparse syntaxError).run strtof (yyparse syntaxError).initial
    ⟨.initial, sql, ⟨1, 1, 1, 1⟩, ⟨none, 1, 1⟩⟩ with ⟨exit, last⟩
  obtain ⟨hyyerror, hstatement⟩ := run_of_fits hfits hmore hscan hrun
  have herror : last.context.error.or exit.yyerror ≠ none :=
    fun hnone => hyyerror (Option.or_eq_none_iff.mp hnone).2
  unfold Parser.parse at hresult
  rw [findIdx?_eq_none.mpr hnul] at hresult
  dsimp only at hresult
  rw [if_neg (Nat.not_lt.mpr hsize), hrun] at hresult
  obtain rfl := hresult
  exact ⟨by simp [herror], hstatement⟩

end Run

/-- `Parse` returns a statement or an error, and both just if something comes behind a statement and
its semicolon. -/
theorem parse_statement_or_error
    (syntaxError : List (Item Nonterminal Terminal SemanticValue Statement) → Option Token → Bytes)
    (strtof : Bytes → Option (BitVec 32)) (sql : Bytes) :
    let result := (parse strtof (yyparse syntaxError) .initial sql).1
    (result.statement ≠ .null ∨ result.error ≠ none) ∧
    ((result.statement ≠ .null ↔ result.error = none) ↔ ¬HasMore strtof sql) := by
  intro result
  have hresult : result = (parse strtof (yyparse syntaxError) .initial sql).1 := rfl
  rcases parse_cases sql hresult with ⟨herror, hnull⟩ | ⟨herror, hstart⟩ | ⟨herror, hnull, hmore⟩
  · have hless : ¬HasMore strtof sql := fun h => (h.parse hresult).2 hnull
    simp [herror, hnull, hless]
  · have hless : ¬HasMore strtof sql := fun h => (h.parse hresult).1 herror
    simp [herror, hstart.ne_null, hless]
  · simp [herror, hnull, hmore]

/-- A text with nothing behind the semicolon, one with a token there, and this one with a NUL. -/
theorem parse_statement_or_error_begin :
    ¬HasMore (fun _ => none) (text "begin ;") ∧ HasMore (fun _ => none) (text "begin; x") ∧
    ¬HasMore (fun _ => none) (text "begin; x" ++ [0]) := by
  have hiff (sql : Bytes) :=
    (parse_statement_or_error (fun _ _ => text "syntax error") (fun _ => none) sql).2
  simp only [← isNull_eq_false] at hiff
  refine ⟨(hiff _).mp (by decide +kernel), not_not.mp fun hless => ?_,
    (hiff _).mp (by decide +kernel)⟩
  exact absurd ((hiff _).mpr hless) (by decide +kernel)

/-- Behind the semicolon come a further token, a byte that is none, and a string and a comment that
do not end: the statement is there, and so is the error. -/
theorem parse_statement_and_error :
    let result (sql : String) :=
      (parse (fun _ => none) (yyparse fun _ _ => text "syntax error") .initial (text sql)).1
    ((result "begin; x").statement ≠ .null ∧ (result "begin; x").error ≠ none) ∧
    ((result "begin; ?").statement ≠ .null ∧ (result "begin; ?").error ≠ none) ∧
    ((result "begin; 'x").statement ≠ .null ∧ (result "begin; 'x").error ≠ none) ∧
    (result "begin; /*").statement ≠ .null ∧ (result "begin; /*").error ≠ none := by
  intro result
  simp only [← isNull_eq_false]
  decide +kernel

end Rucbase.Parser
