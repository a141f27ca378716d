import Rucbase.Lib.Binary32
import Rucbase.Lib.Relation
import Rucbase.Optimizer.Planner
import Mathlib.Tactic.Abel

/-!
# What a plan denotes

A plan denotes a multiset of rows, each an assignment of values to columns, which are named by table
and column. A scan denotes the rows of its table that satisfy its conditions, a join the pairs of a
left and a right row that satisfy its conditions, and a sort, which only permutes, what its child
denotes.

`Plan.WellScoped` is the discipline that the executors rely on: a scan's conditions read its table,
and each condition of a join compares a column of the left side with a column of the right side. A
well-scoped tree that scans no table twice denotes the cross product of its tables, filtered by all
of its conditions (`WellScoped.denote_eq`), so that only the tables and the conditions of a tree
matter, and not its shape.
-/

namespace Rucbase

open Lib

/-! ## Values and conditions -/

/-- A value of a column: a number in its 32-bit word, or a string. -/
inductive Datum where
  | int (val : BitVec 32)
  | float (val : BitVec 32)
  | string (val : Bytes)
  deriving DecidableEq, Repr

namespace Datum

/-- Equality of values of one type; floats are compared as numbers. -/
def equal : Datum → Datum → Bool
  | .int a, .int b => a == b
  | .float a, .float b => Binary32.eq a b
  | .string a, .string b => a == b
  | _, _ => false

/-- The order of values of one type; strings are ordered by their bytes. -/
def less : Datum → Datum → Bool
  | .int a, .int b => a.slt b
  | .float a, .float b => Binary32.lt a b
  | .string a, .string b => decide (a < b)
  | _, _ => false

theorem equal_comm (a b : Datum) : a.equal b = b.equal a := by
  cases a <;> cases b <;> simp only [equal]
  case int.int a b => exact Bool.beq_comm
  case string.string a b => exact Bool.beq_comm
  case float.float a b =>
    simp only [Binary32.eq, Bool.and_comm (!Binary32.isNaN a), eq_comm (a := Binary32.rank a)]

end Datum

/-- The literal as a value of a column. -/
def Value.datum (v : Value) : Datum :=
  match v.type with
  | .int => .int v.num
  | .float => .float v.num
  | .string => .string v.strVal

/-- The comparison of two values. -/
def CompOp.holds : CompOp → Datum → Datum → Bool
  | .eq, a, b => a.equal b
  | .ne, a, b => !a.equal b
  | .lt, a, b => a.less b
  | .gt, a, b => b.less a
  | .le, a, b => a.less b || a.equal b
  | .ge, a, b => b.less a || a.equal b

/-- The reversed operator compares the values in the other order. -/
theorem CompOp.holds_reverse (op : CompOp) (a b : Datum) :
    (Planner.reverseComparison op).holds b a = op.holds a b := by
  cases op <;> simp only [Planner.reverseComparison, holds, Datum.equal_comm b a]

namespace Condition

/-- The condition on a row; a column that the row does not have satisfies nothing. -/
def holds (cond : Condition) (row : Row TabCol Datum) : Bool :=
  let rhs := if cond.isRhsVal then some cond.rhsVal.datum else row cond.rhsCol
  match row cond.lhsCol, rhs with
  | some a, some b => cond.op.holds a b
  | _, _ => false

/-- The tables whose columns the condition reads. -/
def tables (cond : Condition) : List Bytes :=
  if cond.isRhsVal then [cond.lhsCol.tabName] else [cond.lhsCol.tabName, cond.rhsCol.tabName]

/-- `cond'` is the condition as it was written, or with its operands swapped. -/
def Same (cond cond' : Condition) : Prop :=
  cond' = cond ∨ cond.isRhsVal = false ∧ cond' = Planner.swapOperands cond

theorem Same.refl (cond : Condition) : cond.Same cond := .inl rfl

/-- Swapping the operands and reversing the operator keeps the meaning. -/
theorem holds_swapOperands {cond : Condition} (hcol : cond.isRhsVal = false)
    (row : Row TabCol Datum) : (Planner.swapOperands cond).holds row = cond.holds row := by
  simp only [holds, Planner.swapOperands, hcol, Bool.false_eq_true, if_false]
  cases row cond.lhsCol with
  | none => cases row cond.rhsCol <;> rfl
  | some a =>
    cases row cond.rhsCol with
    | none => rfl
    | some b => exact CompOp.holds_reverse cond.op a b

theorem Same.holds_eq {cond cond' : Condition} (h : cond.Same cond') (row : Row TabCol Datum) :
    cond'.holds row = cond.holds row := by
  rcases h with rfl | ⟨hcol, rfl⟩
  · rfl
  · exact holds_swapOperands hcol row

/-- A condition reads the columns of its tables only. -/
theorem dependsOn_holds (cond : Condition) :
    DependsOn cond.holds {tc | tc.tabName ∈ cond.tables} := by
  intro row row' hagree
  unfold holds tables at *
  by_cases hval : cond.isRhsVal = true
  · have hlhs : row cond.lhsCol = row' cond.lhsCol := hagree _ (by simp [hval])
    simp only [hval, if_true, hlhs]
  · have hlhs : row cond.lhsCol = row' cond.lhsCol := hagree _ (by simp [hval])
    have hrhs : row cond.rhsCol = row' cond.rhsCol := hagree _ (by simp [hval])
    simp only [hval, hlhs, hrhs]

/-- The conjunction of conditions over some tables reads the columns of those tables only. -/
theorem dependsOn_all {conds : List Condition} {ts : List Bytes}
    (h : ∀ cond ∈ conds, ∀ t ∈ cond.tables, t ∈ ts) :
    DependsOn (fun row => conds.all (·.holds row)) {tc | tc.tabName ∈ ts} := by
  intro row row' hagree
  refine Bool.eq_iff_iff.mpr ?_
  simp only [List.all_eq_true]
  refine forall₂_congr fun cond hcond => ?_
  rw [cond.dependsOn_holds fun tc htc => hagree tc (h cond hcond _ htc)]

end Condition

/-! ## Plans -/

/-- What the tables hold: for each table name a multiset of rows, by column name. -/
abbrev Contents := Bytes → Multiset (Bytes → Option Datum)

/-- The rows of a table, with the columns named by table and column. -/
def tableRows (contents : Contents) (table : Bytes) : Multiset (Row TabCol Datum) :=
  (contents table).map fun row tc => if tc.tabName = table then row tc.colName else none

theorem supportedOn_tableRows (contents : Contents) (table : Bytes) :
    SupportedOn (tableRows contents table) {tc | tc.tabName = table} := by
  intro a ha tc htc
  obtain ⟨row, -, rfl⟩ := Multiset.mem_map.mp ha
  exact if_neg htc

namespace Plan

/-- The rows that a plan of a query denotes. -/
def denote (contents : Contents) : Plan → Multiset (Row TabCol Datum)
  | .scan plan =>
    (tableRows contents plan.tabName).filter fun row => plan.conds.all (·.holds row)
  | .join _ left right conds =>
    (product (left.denote contents) (right.denote contents)).filter fun row =>
      conds.all (·.holds row)
  | .sort _ subplan _ _ => subplan.denote contents
  | .projection _ subplan selCols =>
    (subplan.denote contents).map fun row tc => if tc ∈ selCols then row tc else none
  | .select subplan => subplan.denote contents
  | .insert .. | .delete .. | .update .. | .ddl .. | .other .. | .setKnob .. => 0

/-- The scans of a plan, from left to right. -/
def scans : Plan → List ScanPlan
  | .scan plan => [plan]
  | .join _ left right _ => left.scans ++ right.scans
  | .sort _ subplan _ _ | .projection _ subplan _ | .select subplan => subplan.scans
  | .delete subplan _ _ | .update subplan _ _ _ => subplan.scans
  | .insert .. | .ddl .. | .other .. | .setKnob .. => []

/-- The conditions of the joins of a plan. -/
def joinConds : Plan → List Condition
  | .join _ left right conds => conds ++ (left.joinConds ++ right.joinConds)
  | .sort _ subplan _ _ | .projection _ subplan _ | .select subplan => subplan.joinConds
  | .scan .. | .delete .. | .update .. | .insert .. | .ddl .. | .other .. | .setKnob .. => []

/-- The tables that a plan scans. -/
def tables (plan : Plan) : List Bytes := plan.scans.map ScanPlan.tabName

/-- All conditions of a plan, those of the scans first. -/
def conds (plan : Plan) : List Condition := plan.scans.flatMap ScanPlan.conds ++ plan.joinConds

/-- The columns that the joins and sorts of a plan and its projections read. -/
def columns : Plan → List TabCol
  | .join _ left right conds =>
    conds.flatMap (fun cond => [cond.lhsCol, cond.rhsCol]) ++ (left.columns ++ right.columns)
  | .sort _ subplan selCol _ => selCol :: subplan.columns
  | .projection _ subplan selCols => selCols ++ subplan.columns
  | .select subplan => subplan.columns
  | .scan .. | .delete .. | .update .. | .insert .. | .ddl .. | .other .. | .setKnob .. => []

/-- The first condition of every merge join compares two columns for equality. -/
def Keyed : Plan → Prop
  | .join tag left right conds =>
    (tag = .sortMerge → ∃ key, conds.head? = some key ∧ Planner.isMergeKey key = true) ∧
      left.Keyed ∧ right.Keyed
  | .sort _ subplan _ _ | .projection _ subplan _ | .select subplan => subplan.Keyed
  | .scan .. | .delete .. | .update .. | .insert .. | .ddl .. | .other .. | .setKnob .. => True

@[simp]
theorem tables_scan (scan : ScanPlan) : (Plan.scan scan).tables = [scan.tabName] := rfl

@[simp]
theorem tables_join (tag : PlanTag) (left right : Plan) (conds : List Condition) :
    (Plan.join tag left right conds).tables = left.tables ++ right.tables := by
  simp [tables, scans]

/-- The conditions of a join are its own and those of its sides. -/
theorem conds_join_perm (tag : PlanTag) (left right : Plan) (conds : List Condition) :
    (Plan.join tag left right conds).conds.Perm (conds ++ (left.conds ++ right.conds)) := by
  unfold Plan.conds
  rw [← Multiset.coe_eq_coe]
  simp only [scans, joinConds, List.flatMap_append, ← Multiset.coe_add]
  abel

end Plan

/-- A scan's conditions read its table only. -/
def ScanPlan.WellScoped (scan : ScanPlan) : Prop :=
  ∀ cond ∈ scan.conds, ∀ t ∈ cond.tables, t = scan.tabName

/-- The condition compares a column of one of the tables on the left with a column of one of the
tables on the right. -/
structure Condition.Joins (cond : Condition) (left right : List Bytes) : Prop where
  isCol : cond.isRhsVal = false
  lhs : cond.lhsCol.tabName ∈ left
  rhs : cond.rhsCol.tabName ∈ right

/-- A tree of scans, joins and sorts in which every condition and every sort column is in scope. -/
inductive Plan.WellScoped : Plan → Prop where
  | scan {scan : ScanPlan} (h : scan.WellScoped) : WellScoped (.scan scan)
  | join {tag : PlanTag} {left right : Plan} {conds : List Condition}
      (hconds : ∀ cond ∈ conds, cond.Joins left.tables right.tables)
      (hleft : WellScoped left) (hright : WellScoped right) :
      WellScoped (.join tag left right conds)
  | sort {tag : PlanTag} {subplan : Plan} {selCol : TabCol} {isDesc : Bool}
      (hcol : selCol.tabName ∈ subplan.tables) (hsub : WellScoped subplan) :
      WellScoped (.sort tag subplan selCol isDesc)

namespace Plan.WellScoped

/-- The conditions of a well-scoped tree read its tables only. -/
theorem conds_tables {plan : Plan} (h : plan.WellScoped) :
    ∀ cond ∈ plan.conds, ∀ t ∈ cond.tables, t ∈ plan.tables := by
  induction h with
  | @scan scan h =>
    intro cond hcond t ht
    have hmem : cond ∈ scan.conds := by simpa [Plan.conds, scans, joinConds] using hcond
    rw [tables_scan, List.mem_singleton]
    exact h cond hmem t ht
  | @join tag left right conds hconds _ _ ihl ihr =>
    intro cond hcond t ht
    rw [(conds_join_perm tag left right conds).mem_iff, List.mem_append, List.mem_append] at hcond
    rw [tables_join, List.mem_append]
    rcases hcond with hcond | hcond | hcond
    · -- One of the conditions of the join itself reads a column from each side.
      have hjoins := hconds cond hcond
      simp only [Condition.tables, hjoins.isCol, Bool.false_eq_true, if_false, List.mem_cons,
        List.not_mem_nil, or_false] at ht
      rcases ht with rfl | rfl
      · exact .inl hjoins.lhs
      · exact .inr hjoins.rhs
    · exact .inl (ihl cond hcond t ht)
    · exact .inr (ihr cond hcond t ht)
  | sort _ _ ih => exact ih

theorem isCol_of_mem {plan : Plan} (h : plan.WellScoped) {cond : Condition}
    (hcond : cond ∈ plan.joinConds) : cond.isRhsVal = false := by
  induction h with
  | scan h => simp [joinConds] at hcond
  | join hconds _ _ ihl ihr =>
    simp only [joinConds, List.mem_append] at hcond
    rcases hcond with hcond | hcond | hcond
    · exact (hconds cond hcond).isCol
    · exact ihl hcond
    · exact ihr hcond
  | sort _ _ ih => exact ih hcond

/-- A well-scoped tree that scans no table twice denotes the cross product of its tables, filtered
by all of its conditions. -/
theorem denote_eq {plan : Plan} (h : plan.WellScoped) (hnodup : plan.tables.Nodup)
    (contents : Contents) :
    plan.denote contents =
      (crossProduct (tableRows contents) plan.tables).filter fun row =>
        plan.conds.all (·.holds row) := by
  induction h with
  | @scan scan h =>
    rw [denote, tables_scan, crossProduct_singleton]
    simp [Plan.conds, scans, joinConds]
  | @join tag left right conds hconds hleft hright ihl ihr =>
    rw [tables_join, List.nodup_append'] at hnodup
    obtain ⟨hnodupl, hnodupr, hdisj⟩ := hnodup
    -- The two sides have no table, hence no column, in common.
    have hcols : Disjoint {tc : TabCol | tc.tabName ∈ left.tables}
        {tc | tc.tabName ∈ right.tables} :=
      Set.disjoint_left.mpr fun tc hl hr => hdisj hl hr
    rw [denote, ihl hnodupl, ihr hnodupr,
      filter_product_filter hcols (supportedOn_crossProduct (supportedOn_tableRows contents) _)
        (supportedOn_crossProduct (supportedOn_tableRows contents) _)
        (Condition.dependsOn_all hleft.conds_tables) (Condition.dependsOn_all hright.conds_tables),
      ← crossProduct_append, ← tables_join tag left right conds]
    refine Multiset.filter_congr fun row _ => ?_
    rw [(conds_join_perm tag left right conds).all_eq, List.all_append, List.all_append]
  | sort _ _ ih => exact ih hnodup

end Plan.WellScoped

/-- Multisets of conditions that are the same up to swapped operands have the same conjunction. -/
theorem Condition.all_eq_of_rel {conds conds' : List Condition}
    (h : Multiset.Rel Condition.Same conds conds') (row : Row TabCol Datum) :
    conds'.all (·.holds row) = conds.all (·.holds row) := by
  refine Bool.eq_iff_iff.mpr ?_
  simp only [List.all_eq_true]
  constructor
  · intro hall cond hcond
    obtain ⟨cond', hcond', hsame⟩ :=
      Multiset.exists_mem_of_rel_of_mem h (Multiset.mem_coe.mpr hcond)
    rw [← hsame.holds_eq row]
    exact hall cond' (Multiset.mem_coe.mp hcond')
  · intro hall cond' hcond'
    obtain ⟨cond, hcond, hsame⟩ :=
      Multiset.exists_mem_of_rel_of_mem (Multiset.rel_flip.mpr h) (Multiset.mem_coe.mpr hcond')
    have hsame : cond.Same cond' := hsame
    rw [hsame.holds_eq row]
    exact hall cond (Multiset.mem_coe.mp hcond)

end Rucbase
