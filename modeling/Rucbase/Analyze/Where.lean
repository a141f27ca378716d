import Rucbase.Analyze.Analyzer
import Rucbase.Optimizer.Meaning

/-!
# Flattening WHERE

`get_clause` (`src/analyze/analyzer.cpp`) turns the predicate of a WHERE into a list of conditions
that the executors read as a conjunction. It takes the trees of AND over comparisons of a column
with a literal or a column, and refuses every other tree with an exception, so that no part of a
predicate is dropped: `getClause_conjunctive`.
-/

namespace Rucbase

open Lib

/-! ## What a predicate says -/

namespace Ast

/-- What the expressions stand for that the analyzer knows no meaning of: their value as an operand,
and their truth as a predicate. -/
structure Interpretation where
  datum : Expr → Option Datum
  truth : Expr → Bool

/-- The comparison of two values. -/
def CompOp.holds : CompOp → Datum → Datum → Bool
  | .eq, a, b => a.equal b
  | .ne, a, b => !a.equal b
  | .lt, a, b => a.less b
  | .gt, a, b => b.less a
  | .le, a, b => a.less b || a.equal b
  | .ge, a, b => b.less a || a.equal b

namespace Expr

/-- The value of an operand on a row. -/
def datum (other : Interpretation) (row : Row TabCol Datum) : Expr → Option Datum
  | .intLit val => some (.int val)
  | .floatLit val => some (.float val)
  | .stringLit val => some (.string val)
  | .col reference => row ⟨reference.tabName, reference.colName⟩
  | e => other.datum e

/-- The truth of a predicate on a row; a comparison with a column that the row does not have is
false. -/
def holds (other : Interpretation) (row : Row TabCol Datum) : Expr → Bool
  | .logical .and lhs rhs => lhs.holds other row && rhs.holds other row
  | .logical .or lhs rhs => lhs.holds other row || rhs.holds other row
  | .unary .not operand => !operand.holds other row
  | .binary (some lhs) op rhs =>
    match row ⟨lhs.tabName, lhs.colName⟩, rhs.datum other row with
    | some a, some b => op.holds a b
    | _, _ => false
  | e => other.truth e

/-- The operands that the right side of a comparison may be: a literal or a column. -/
def isOperand : Expr → Bool
  | .intLit _ | .floatLit _ | .stringLit _ | .col _ => true
  | _ => false

/-- The trees of AND over comparisons of a column with a literal or a column. -/
inductive Conjunctive : Expr → Prop
  | comparison (lhs : Col) (op : CompOp) {rhs : Expr} (hrhs : rhs.isOperand = true) :
    Conjunctive (.binary (some lhs) op rhs)
  | and {lhs rhs : Expr} (hlhs : Conjunctive lhs) (hrhs : Conjunctive rhs) :
    Conjunctive (.logical .and lhs rhs)

/-- The leaves under the logical operators, from left to right. -/
def leaves : Expr → List Expr
  | .logical _ lhs rhs => lhs.leaves ++ rhs.leaves
  | e => [e]

end Expr

end Ast

namespace Analyzer

/-! ## The condition of a comparison -/

/-- The operator of a condition is the one that is written. -/
def SameOp : Ast.CompOp → CompOp → Prop
  | .eq, .eq | .ne, .ne | .lt, .lt | .gt, .gt | .le, .le | .ge, .ge => True
  | _, _ => False

/-- The right side of a condition is the operand that is written. -/
def SameOperand (cond : Condition) : Ast.Expr → Prop
  | .intLit val => cond.isRhsVal = true ∧ cond.rhsVal.type = .int ∧ cond.rhsVal.num = val
  | .floatLit val => cond.isRhsVal = true ∧ cond.rhsVal.type = .float ∧ cond.rhsVal.num = val
  | .stringLit val =>
    cond.isRhsVal = true ∧ cond.rhsVal.type = .string ∧ cond.rhsVal.strVal = val
  | .col reference =>
    cond.isRhsVal = false ∧ cond.rhsCol = ⟨reference.tabName, reference.colName⟩
  | _ => False

/-- A comparison and a condition with the same columns, operator and literal. -/
def SameComparison : Ast.Expr → Condition → Prop
  | .binary (some lhs) op rhs, cond =>
    cond.lhsCol = ⟨lhs.tabName, lhs.colName⟩ ∧ SameOp op cond.op ∧ SameOperand cond rhs
  | _, _ => False

/-- The exceptions that refuse a predicate. -/
def Refuses (e : Error) : Prop :=
  ∃ message, e = .notImplementedError message ∨ e = .internalError message

theorem sameOp_convertAstCompOp (op : Ast.CompOp) : SameOp op (convertAstCompOp op) := by
  cases op <;> exact trivial

theorem SameOp.holds_eq {op : Ast.CompOp} {op' : CompOp} (h : SameOp op op') (a b : Datum) :
    op'.holds a b = op.holds a b := by
  cases op <;> cases op' <;> first | rfl | exact h.elim

/-- The right side of a condition has the value of the operand that is written. -/
theorem SameOperand.datum_eq {cond : Condition} {rhs : Ast.Expr} (h : SameOperand cond rhs)
    (other : Ast.Interpretation) (row : Row TabCol Datum) :
    (if cond.isRhsVal then some cond.rhsVal.datum else row cond.rhsCol) =
      rhs.datum other row := by
  unfold SameOperand at h
  split at h
  case h_1 | h_2 | h_3 =>
    -- A literal has its type and its value.
    obtain ⟨hval, htype, hvalue⟩ := h
    simp [hval, Value.datum, htype, hvalue, Ast.Expr.datum]
  case h_4 =>
    obtain ⟨hval, hcol⟩ := h
    simp [hval, hcol, Ast.Expr.datum]
  case h_5 => exact h.elim

theorem SameComparison.holds_eq {leaf : Ast.Expr} {cond : Condition} (h : SameComparison leaf cond)
    (other : Ast.Interpretation) (row : Row TabCol Datum) :
    cond.holds row = leaf.holds other row := by
  unfold SameComparison at h
  split at h
  · obtain ⟨hlhs, hop, hrhs⟩ := h
    rw [Condition.holds, Ast.Expr.holds, hrhs.datum_eq other row, hlhs]
    cases row _ with
    | none => rfl
    | some a =>
      cases Ast.Expr.datum other row _ with
      | none => rfl
      | some b => exact hop.holds_eq a b
  · exact h.elim

/-- A comparison gives its condition, unless its right side is neither literal nor column. -/
theorem comparisonClause_spec (lhs : Ast.Col) (op : Ast.CompOp) (rhs : Ast.Expr) :
    match comparisonClause lhs op rhs with
    | .ok cond => rhs.isOperand = true ∧ SameComparison (.binary (some lhs) op rhs) cond
    | .error err => rhs.isOperand = false ∧ Refuses err := by
  have hop := sameOp_convertAstCompOp op
  cases rhs with
  | intLit val => exact ⟨rfl, rfl, hop, rfl, rfl, rfl⟩
  | floatLit val => exact ⟨rfl, rfl, hop, rfl, rfl, rfl⟩
  | stringLit val => exact ⟨rfl, rfl, hop, rfl, rfl, rfl⟩
  | col reference => exact ⟨rfl, rfl, hop, rfl, rfl⟩
  | null => exact ⟨rfl, _, .inr rfl⟩
  | _ => exact ⟨rfl, _, .inl rfl⟩

/-! ## The walk over the tree -/

/-- What the walk does with a part of the predicate, behind the conditions collected already: it
adds one condition for each leaf, or refuses a part that is not conjunctive. -/
def Flattens (e : Ast.Expr) (conds : List Condition) : Except Error (List Condition) → Prop
  | .ok conds' => e.Conjunctive ∧
    ∃ added, conds' = conds ++ added ∧ List.Forall₂ SameComparison e.leaves added
  | .error err => ¬e.Conjunctive ∧ Refuses err

theorem flattens_comparison (lhs : Ast.Col) (op : Ast.CompOp) (rhs : Ast.Expr)
    (conds : List Condition) :
    Flattens (.binary (some lhs) op rhs) conds
      (appendClause (.binary (some lhs) op rhs) conds) := by
  have hspec := comparisonClause_spec lhs op rhs
  rw [appendClause]
  cases hclause : comparisonClause lhs op rhs with
  | ok cond =>
    rw [hclause] at hspec
    exact ⟨.comparison lhs op hspec.1, [cond], rfl, .cons hspec.2 .nil⟩
  | error err =>
    rw [hclause] at hspec
    refine ⟨?_, hspec.2⟩
    intro hconj
    cases hconj with
    | comparison _ _ hrhs => simp [hspec.1] at hrhs

/-- At an AND the two sides are walked one after the other, and a refusal of one is a refusal of the
whole. -/
theorem flattens_and {lhs rhs : Ast.Expr} {conds : List Condition}
    (hleft : Flattens lhs conds (appendClause lhs conds))
    (hrhs : ∀ mid, Flattens rhs mid (appendClause rhs mid)) :
    Flattens (.logical .and lhs rhs) conds (appendClause (.logical .and lhs rhs) conds) := by
  have hstep : appendClause (.logical .and lhs rhs) conds =
      (appendClause lhs conds).bind (appendClause rhs) := by
    rw [appendClause]
    rfl
  have hsides : (Ast.Expr.logical .and lhs rhs).Conjunctive →
      lhs.Conjunctive ∧ rhs.Conjunctive := by
    intro hconj
    cases hconj with
    | and hl hr => exact ⟨hl, hr⟩
  rw [hstep]
  cases hl : appendClause lhs conds with
  | error err =>
    rw [hl] at hleft
    exact ⟨fun hconj => hleft.1 (hsides hconj).1, hleft.2⟩
  | ok mid =>
    rw [hl] at hleft
    obtain ⟨hconjl, added, rfl, hadded⟩ := hleft
    have hright := hrhs (conds ++ added)
    show Flattens _ _ (appendClause rhs (conds ++ added))
    cases hr : appendClause rhs (conds ++ added) with
    | error err =>
      rw [hr] at hright
      exact ⟨fun hconj => hright.1 (hsides hconj).2, hright.2⟩
    | ok last =>
      rw [hr] at hright
      obtain ⟨hconjr, added', rfl, hadded'⟩ := hright
      exact ⟨.and hconjl hconjr, added ++ added', List.append_assoc ..,
        List.rel_append hadded hadded'⟩

/-- Every part of a predicate is flattened or refused. -/
theorem flattens_appendClause (e : Ast.Expr) (conds : List Condition) :
    Flattens e conds (appendClause e conds) := by
  -- The induction is over the tree with any conditions collected before; the other nodes throw.
  induction e, conds using appendClause.induct with
  | case2 op lhs rhs conds ihl ihr =>
    cases op with
    | and => exact flattens_and ihl ihr
    | or => exact ⟨nofun, _, .inl rfl⟩
  | case5 lhs op rhs conds => exact flattens_comparison lhs op rhs conds
  | case1 | case4 => exact ⟨nofun, _, .inr rfl⟩
  | _ => exact ⟨nofun, _, .inl rfl⟩

/-- A conjunctive tree is true when its leaves are. -/
theorem all_leaves_holds {e : Ast.Expr} (h : e.Conjunctive) (other : Ast.Interpretation)
    (row : Row TabCol Datum) : e.leaves.all (·.holds other row) = e.holds other row := by
  induction h with
  | comparison lhs op hrhs => exact Bool.and_true _
  | and _ _ ihl ihr => rw [Ast.Expr.leaves, List.all_append, ihl, ihr, Ast.Expr.holds]

theorem all_holds_eq {leaves : List Ast.Expr} {conds : List Condition}
    (h : List.Forall₂ SameComparison leaves conds) (other : Ast.Interpretation)
    (row : Row TabCol Datum) : conds.all (·.holds row) = leaves.all (·.holds other row) := by
  induction h with
  | nil => rfl
  | cons hsame _ ih => rw [List.all_cons, List.all_cons, ih, hsame.holds_eq other row]

/-- `get_clause` takes no predicate and the conjunctive predicates, and no others. The conditions
are the leaves of the predicate from left to right, and their conjunction has its truth on every
row. -/
theorem getClause_conjunctive (predicate : Ast.Expr) :
    ((∃ conds, getClause predicate = .ok conds) ↔ predicate = .null ∨ predicate.Conjunctive) ∧
    (predicate = .null → getClause predicate = .ok []) ∧
    (∀ conds, predicate ≠ .null → getClause predicate = .ok conds →
      List.Forall₂ SameComparison predicate.leaves conds ∧
      ∀ (other : Ast.Interpretation) (row : Row TabCol Datum),
        conds.all (·.holds row) = predicate.holds other row) ∧
    (∀ e, getClause predicate = .error e → Refuses e) := by
  have hspec := flattens_appendClause predicate []
  have hnull : predicate.isNull = true ↔ predicate = .null := by
    cases predicate <;> simp [Ast.Expr.isNull]
  by_cases hroot : predicate = .null
  · subst hroot
    refine ⟨iff_of_true ⟨[], rfl⟩ (.inl rfl), fun _ => rfl, fun _ hne => absurd rfl hne, nofun⟩
  · have hclause : getClause predicate = appendClause predicate [] :=
      if_neg (mt hnull.mp hroot)
    rw [hclause]
    cases happend : appendClause predicate [] with
    | ok conds =>
      rw [happend] at hspec
      obtain ⟨hconj, added, rfl, hsame⟩ := hspec
      refine ⟨iff_of_true ⟨_, rfl⟩ (.inr hconj), fun hnull => absurd hnull hroot, ?_, nofun⟩
      intro conds _ hok
      obtain rfl := Except.ok.inj hok
      refine ⟨hsame, fun other row => ?_⟩
      rw [← all_leaves_holds hconj other row]
      exact all_holds_eq hsame other row
    | error err =>
      rw [happend] at hspec
      refine ⟨iff_of_false nofun ?_, fun hnull => absurd hnull hroot, fun _ _ => nofun, ?_⟩
      · rintro (hnull | hconj)
        · exact hroot hnull
        · exact hspec.1 hconj
      · intro e herr
        obtain rfl := Except.error.inj herr
        exact hspec.2

end Analyzer

end Rucbase
