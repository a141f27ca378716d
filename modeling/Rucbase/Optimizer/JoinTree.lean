import Rucbase.Optimizer.Meaning
import Mathlib.Data.List.ReduceOption

/-!
# The join tree

`build_join_tree` turns one scan plan for each FROM table and the conditions between different
tables into a tree. The loop over the conditions keeps three facts together (`Joining`): the scans
of the tree and of the pool are all scans, a table is marked as joined exactly when the tree scans
it, and the conditions of the tree are those taken so far, some with their operands swapped. The
recursive search of `attach_join_condition` finds the join where the two tables of a condition meet
(`attachJoinCondition_fst`, `attachJoinCondition_both`).

The run never throws and leaves no scan behind (`buildJoinTree_spec`). Nothing here asks the FROM
list to be free of repetitions: a repeated table is joined at the end, when no condition is left.
-/

namespace Rucbase

open Lib

/-- A tree of nested-loop joins and scans. -/
def Plan.IsJoinTree : Plan → Prop
  | .scan _ => True
  | .join tag left right _ => tag = .nestLoop ∧ left.IsJoinTree ∧ right.IsJoinTree
  | _ => False

namespace Planner

/-! ## The pool of scan plans -/

/-- The plan is a scan of the table that reads no other one. -/
def ScanOf (table : Bytes) (plan : Plan) : Prop :=
  ∃ scan, plan = .scan scan ∧ scan.tabName = table ∧ scan.WellScoped

namespace ScanPool

/-- The scan of this number is marked as joined. -/
def Taken (pool : ScanPool) (index : ℕ) : Prop := pool.joined[index]? = some true

/-- The scans that are still in the pool. -/
def scans (pool : ScanPool) : List ScanPlan := pool.scanPlans.reduceOption.flatMap Plan.scans

/-- The pool holds one place for each table: a scan of that table until it is marked as joined. -/
structure Fits (pool : ScanPool) (tables : List Bytes) : Prop where
  length_eq : pool.scanPlans.length = tables.length
  joined_eq : pool.joined = pool.scanPlans.map Option.isNone
  scanOf : ∀ (i : ℕ) (table : Bytes) (plan : Plan), tables[i]? = some table →
    pool.scanPlans[i]? = some (some plan) → ScanOf table plan

variable {i : ℕ}

theorem isJoined_spec {pool : ScanPool} {tables : List Bytes} (h : pool.Fits tables)
    (hi : i < tables.length) :
    ∃ joined, pool.isJoined i = .ok joined ∧ (joined = true ↔ pool.Taken i) := by
  have hlen : i < pool.joined.length := by rw [h.joined_eq, List.length_map, h.length_eq]; exact hi
  have hget : pool.joined[i]? = some pool.joined[i] := List.getElem?_eq_getElem hlen
  refine ⟨pool.joined[i], ?_, ?_⟩
  · rw [isJoined, hget]
    rfl
  · rw [Taken, hget, Option.some_inj]

/-- Setting a present entry to null removes it from the entries that are not null. -/
theorem reduceOption_set_none {α : Type} {xs : List (Option α)} {a : α}
    (h : xs[i]? = some (some a)) : xs.reduceOption.Perm (a :: (xs.set i none).reduceOption) := by
  induction xs generalizing i with
  | nil => simp at h
  | cons x xs ih =>
    cases i with
    | zero =>
      have hx : x = some a := by simpa using h
      rw [hx, List.set_cons_zero, List.reduceOption_cons_of_some, List.reduceOption_cons_of_none]
    | succ i =>
      have hrest := ih (by simpa using h)
      rw [List.set_cons_succ]
      cases x with
      | none => simpa only [List.reduceOption_cons_of_none] using hrest
      | some b =>
        simp only [List.reduceOption_cons_of_some]
        exact (hrest.cons b).trans (List.Perm.swap a b _)

/-- A scan that is not marked can be taken; it is then marked and no longer in the pool. -/
theorem takeScanPlan_spec {pool : ScanPool} {tables : List Bytes} (h : pool.Fits tables)
    {table : Bytes} (ht : tables[i]? = some table) (hfree : ¬ pool.Taken i) :
    ∃ scan pool', takeScanPlan i pool = .ok (.scan scan, pool') ∧ scan.tabName = table ∧
      scan.WellScoped ∧ pool'.Fits tables ∧ pool.scans.Perm (scan :: pool'.scans) ∧
      ∀ j, pool'.Taken j ↔ j = i ∨ pool.Taken j := by
  have hi : i < tables.length := (List.getElem?_eq_some_iff.mp ht).1
  have hlen : i < pool.scanPlans.length := h.length_eq ▸ hi
  have hjoined : i < pool.joined.length := by rw [h.joined_eq, List.length_map]; exact hlen
  obtain ⟨joined, hread, hmark⟩ := isJoined_spec h hi
  have hjoined_false : joined = false := by
    rw [← Bool.not_eq_true]
    exact fun hj => hfree (hmark.mp hj)
  -- The place is not null, since it is not marked.
  obtain ⟨plan, hplan⟩ : ∃ plan, pool.scanPlans[i]? = some (some plan) := by
    rw [List.getElem?_eq_getElem hlen]
    cases hx : pool.scanPlans[i] with
    | some plan => exact ⟨plan, rfl⟩
    | none =>
      refine absurd ?_ hfree
      rw [Taken, h.joined_eq, List.getElem?_map, List.getElem?_eq_getElem hlen, hx]
      rfl
  obtain ⟨scan, rfl, hname, hscoped⟩ := h.scanOf i table plan ht hplan
  refine ⟨scan, ⟨pool.joined.set i true, pool.scanPlans.set i none⟩, ?_, hname, hscoped, ?_, ?_, ?_⟩
  · have hbound : ¬ pool.scanPlans.length ≤ i := by omega
    simp [takeScanPlan, throwIf, hbound, hread, hjoined_false, hplan]
  · constructor
    · rw [List.length_set, h.length_eq]
    · simp only [h.joined_eq, List.map_set, Option.isNone_none]
    · intro j table' plan' ht' hplan'
      simp only [List.getElem?_set] at hplan'
      split_ifs at hplan'
      · simp at hplan'
      · exact h.scanOf j table' plan' ht' hplan'
  · have hperm := (reduceOption_set_none hplan).flatMap_right Plan.scans
    rw [List.flatMap_cons] at hperm
    exact hperm
  · intro j
    simp only [Taken, List.getElem?_set, hjoined, if_true]
    by_cases hij : i = j
    · simp [hij]
    · simp [hij, eq_comm (a := j)]

end ScanPool

/-! ## Attaching a condition -/

/-- What some tables cover of a condition. -/
def coverage (condition : Condition) (tables : List Bytes) : ConditionCoverage :=
  if condition.lhsCol.tabName ∈ tables then
    if condition.rhsCol.tabName ∈ tables then .both else .lhs
  else if condition.rhsCol.tabName ∈ tables then .rhs else .none

/-- `tree'` is `tree` with the condition attached to one of its joins. -/
structure Attached (condition : Condition) (tree tree' : Plan) : Prop where
  isJoinTree : tree'.IsJoinTree
  scans_eq : tree'.scans = tree.scans
  wellScoped : tree.WellScoped → tree'.WellScoped
  joinConds : ∃ condition', condition.Same condition' ∧
    tree'.joinConds.Perm (condition' :: tree.joinConds)

variable {condition condition' : Condition} {tree root : Plan} {conds conditions : List Condition}
  {tag : PlanTag} {all : List ScanPlan} {placed : Multiset Condition} {pool : ScanPool}
  {tables : List Bytes} {state : Plan × ScanPool}

/-- In a tree without repeated tables, the search reports what the tables of the tree cover. -/
theorem attachJoinCondition_fst (hne : condition.lhsCol.tabName ≠ condition.rhsCol.tabName)
    (htree : tree.IsJoinTree) (hnodup : tree.tables.Nodup) :
    (attachJoinCondition condition tree).1 = coverage condition tree.tables := by
  induction tree with
  | scan scan =>
    simp only [attachJoinCondition, coverage, Plan.tables_scan, List.mem_singleton]
    grind
  | join tag left right conds ihl ihr =>
    rw [Plan.tables_join] at hnodup ⊢
    obtain ⟨hnodupl, hnodupr, hdisj⟩ := List.nodup_append'.mp hnodup
    have hl := ihl htree.2.1 hnodupl
    have hr := ihr htree.2.2 hnodupr
    -- A table that the left side covers is not on the right.
    have hlhs : condition.lhsCol.tabName ∈ left.tables →
        condition.lhsCol.tabName ∉ right.tables := fun h => hdisj h
    have hrhs : condition.rhsCol.tabName ∈ left.tables →
        condition.rhsCol.tabName ∉ right.tables := fun h => hdisj h
    simp only [attachJoinCondition, hl, hr, coverage, List.mem_append]
    grind
  | _ => exact htree.elim

/-- A tree that does not cover both sides of the condition stays as it is. -/
theorem attachJoinCondition_snd (hne : condition.lhsCol.tabName ≠ condition.rhsCol.tabName)
    (htree : tree.IsJoinTree) (hnodup : tree.tables.Nodup)
    (hcov : coverage condition tree.tables ≠ .both) :
    (attachJoinCondition condition tree).2 = tree := by
  induction tree with
  | scan scan =>
    unfold attachJoinCondition
    split_ifs <;> rfl
  | join tag left right conds ihl ihr =>
    rw [Plan.tables_join] at hnodup hcov
    obtain ⟨hnodupl, hnodupr, -⟩ := List.nodup_append'.mp hnodup
    have hl := attachJoinCondition_fst hne htree.2.1 hnodupl
    have hr := attachJoinCondition_fst hne htree.2.2 hnodupr
    have hcovl : coverage condition left.tables ≠ .both := by
      simp only [coverage, List.mem_append] at hcov ⊢
      grind
    have hcovr : coverage condition right.tables ≠ .both := by
      simp only [coverage, List.mem_append] at hcov ⊢
      grind
    have hnone : coverage condition left.tables = .none ∨
        coverage condition right.tables = .none := by
      simp only [coverage, List.mem_append] at hcov ⊢
      grind
    simp only [attachJoinCondition, hl, hr, hcovl, hcovr, if_false, ihl htree.2.1 hnodupl hcovl,
      ihr htree.2.2 hnodupr hcovr]
    rcases hnone with hnone | hnone
    · rw [if_pos hnone]
    · rw [if_pos hnone]
      split_ifs <;> rfl
  | _ => exact htree.elim

/-- An attached condition on the left side of a join is attached to the join. -/
theorem Attached.left {left left' right : Plan} (h : Attached condition left left')
    (htree : (Plan.join tag left right conds).IsJoinTree) :
    Attached condition (.join tag left right conds) (.join tag left' right conds) := by
  have htables : left'.tables = left.tables := by rw [Plan.tables, h.scans_eq, ← Plan.tables]
  obtain ⟨condition', hsame, hperm⟩ := h.joinConds
  refine ⟨⟨htree.1, h.isJoinTree, htree.2.2⟩, ?_, fun hwell => ?_, condition', hsame, ?_⟩
  · rw [Plan.scans, Plan.scans, h.scans_eq]
  · cases hwell with
    | join hconds hl hr => exact .join (by rw [htables]; exact hconds) (h.wellScoped hl) hr
  · rw [Plan.joinConds, Plan.joinConds]
    refine ((hperm.append_right right.joinConds).append_left conds).trans ?_
    exact List.perm_middle

/-- An attached condition on the right side of a join is attached to the join. -/
theorem Attached.right {left right right' : Plan} (h : Attached condition right right')
    (htree : (Plan.join tag left right conds).IsJoinTree) :
    Attached condition (.join tag left right conds) (.join tag left right' conds) := by
  have htables : right'.tables = right.tables := by rw [Plan.tables, h.scans_eq, ← Plan.tables]
  obtain ⟨condition', hsame, hperm⟩ := h.joinConds
  refine ⟨⟨htree.1, htree.2.1, h.isJoinTree⟩, ?_, fun hwell => ?_, condition', hsame, ?_⟩
  · rw [Plan.scans, Plan.scans, h.scans_eq]
  · cases hwell with
    | join hconds hl hr => exact .join (by rw [htables]; exact hconds) hl (h.wellScoped hr)
  · rw [Plan.joinConds, Plan.joinConds, ← List.append_assoc, ← List.append_assoc conds]
    exact (hperm.append_left (conds ++ left.joinConds)).trans List.perm_middle

/-- A condition whose two sides meet at a join is attached there. -/
theorem Attached.here (hsame : condition.Same condition') {left right : Plan}
    (htree : (Plan.join tag left right conds).IsJoinTree)
    (hjoins : condition'.Joins left.tables right.tables) :
    Attached condition (.join tag left right conds)
      (.join tag left right (conds ++ [condition'])) := by
  refine ⟨htree, rfl, fun hwell => ?_, condition', hsame, ?_⟩
  · cases hwell with
    | join hconds hl hr =>
      refine .join (fun cond hcond => ?_) hl hr
      rcases List.mem_append.mp hcond with hcond | hcond
      · exact hconds cond hcond
      · rw [List.mem_singleton.mp hcond]
        exact hjoins
  · rw [Plan.joinConds, Plan.joinConds, List.append_assoc]
    exact List.perm_middle

/-- A condition between two tables of the tree is attached to one of its joins. -/
theorem attachJoinCondition_both (hcol : condition.isRhsVal = false)
    (hne : condition.lhsCol.tabName ≠ condition.rhsCol.tabName) (htree : tree.IsJoinTree)
    (hnodup : tree.tables.Nodup) (hcov : coverage condition tree.tables = .both) :
    Attached condition tree (attachJoinCondition condition tree).2 := by
  induction tree with
  | scan scan =>
    simp only [coverage, Plan.tables_scan, List.mem_singleton] at hcov
    grind
  | join tag left right conds ihl ihr =>
    rw [Plan.tables_join] at hnodup hcov
    obtain ⟨hnodupl, hnodupr, -⟩ := List.nodup_append'.mp hnodup
    have hl := attachJoinCondition_fst hne htree.2.1 hnodupl
    have hr := attachJoinCondition_fst hne htree.2.2 hnodupr
    by_cases hcovl : coverage condition left.tables = .both
    · simp only [attachJoinCondition, hl, hcovl, if_true]
      exact (ihl htree.2.1 hnodupl hcovl).left htree
    by_cases hcovr : coverage condition right.tables = .both
    · simp only [attachJoinCondition, hl, hr, hcovl, hcovr, if_true, if_false,
        attachJoinCondition_snd hne htree.2.1 hnodupl hcovl]
      exact (ihr htree.2.2 hnodupr hcovr).right htree
    -- Otherwise the two tables are on different sides of this join.
    have hsplit :
        (coverage condition left.tables = .lhs ∧ coverage condition right.tables = .rhs ∧
          condition.Joins left.tables right.tables) ∨
        (coverage condition left.tables = .rhs ∧ coverage condition right.tables = .lhs ∧
          (swapOperands condition).Joins left.tables right.tables) := by
      have hlhs : (coverage condition left.tables = .lhs ∧
            coverage condition right.tables = .rhs ∧
            condition.lhsCol.tabName ∈ left.tables ∧ condition.rhsCol.tabName ∈ right.tables) ∨
          (coverage condition left.tables = .rhs ∧ coverage condition right.tables = .lhs ∧
            condition.rhsCol.tabName ∈ left.tables ∧
            condition.lhsCol.tabName ∈ right.tables) := by
        simp only [coverage, List.mem_append] at hcov hcovl hcovr ⊢
        grind
      rcases hlhs with ⟨hl, hr, hlt, hrt⟩ | ⟨hl, hr, hlt, hrt⟩
      · exact .inl ⟨hl, hr, hcol, hlt, hrt⟩
      · exact .inr ⟨hl, hr, hcol, hlt, hrt⟩
    simp only [attachJoinCondition, hl, hr, hcovl, hcovr, if_false,
      attachJoinCondition_snd hne htree.2.1 hnodupl hcovl,
      attachJoinCondition_snd hne htree.2.2 hnodupr hcovr]
    rcases hsplit with ⟨hl, hr, hjoins⟩ | ⟨hl, hr, hjoins⟩
    · simp only [hl, hr, reduceCtorEq, if_false]
      exact Attached.here (.refl _) htree hjoins
    · simp only [hl, hr, reduceCtorEq, if_false, if_true]
      exact Attached.here (.inr ⟨hcol, rfl⟩) htree hjoins
  | _ => exact htree.elim

/-! ## The loops -/

/-- The conditions that are left for the joins: they compare columns of two different tables. -/
structure Spans (tables : List Bytes) (condition : Condition) : Prop where
  isCol : condition.isRhsVal = false
  lhs : condition.lhsCol.tabName ∈ tables
  rhs : condition.rhsCol.tabName ∈ tables
  ne : condition.lhsCol.tabName ≠ condition.rhsCol.tabName

/-- What holds of the tree and the pool throughout: together they hold all the scans, and the
conditions of the tree are the ones that were placed. -/
structure Built (tables : List Bytes) (all : List ScanPlan) (placed : Multiset Condition)
    (state : Plan × ScanPool) : Prop where
  fits : state.2.Fits tables
  scans : (state.1.scans ++ state.2.scans).Perm all
  wellScoped : state.1.WellScoped
  isJoinTree : state.1.IsJoinTree
  joinConds : Multiset.Rel Condition.Same placed state.1.joinConds

/-- What holds as well while conditions are placed: the first scan of a table is marked exactly when
the tree has it, and the tree has no table twice. -/
structure Joining (tables : List Bytes) (all : List ScanPlan) (placed : Multiset Condition)
    (state : Plan × ScanPool) : Prop extends Built tables all placed state where
  taken_iff : ∀ t ∈ tables, state.2.Taken (tables.idxOf t) ↔ t ∈ state.1.tables
  nodup : state.1.tables.Nodup

/-- Joining a tree that was built from the pool to the left of the root. -/
theorem Built.joinLeft {placed' : Multiset Condition} {pool' : ScanPool}
    (h : Built tables all placed (root, pool)) (left : Plan) (conds : List Condition)
    (hfits : pool'.Fits tables) (hscans : pool.scans.Perm (left.scans ++ pool'.scans))
    (hwell : left.WellScoped) (htree : left.IsJoinTree)
    (hjoins : ∀ cond ∈ conds, cond.Joins left.tables root.tables)
    (hconds : Multiset.Rel Condition.Same placed' (conds ++ left.joinConds : List Condition)) :
    Built tables all (placed' + placed) (.join .nestLoop left root conds, pool') := by
  refine ⟨hfits, ?_, .join hjoins hwell h.wellScoped, ⟨rfl, htree, h.isJoinTree⟩, ?_⟩
  · have hmove : (left.scans ++ root.scans ++ pool'.scans).Perm (root.scans ++ pool.scans) := by
      refine (List.perm_append_comm.append_right _).trans ?_
      rw [List.append_assoc]
      exact hscans.symm.append_left _
    exact hmove.trans h.scans
  · rw [Plan.joinConds, ← List.append_assoc, ← Multiset.coe_add]
    exact hconds.add h.joinConds

/-- One condition stands for itself or for itself with swapped operands. -/
theorem rel_singleton (h : condition.Same condition') :
    Multiset.Rel Condition.Same {condition} ([condition'] : List Condition) :=
  .cons h .zero

theorem tableIndex_eq {table : Bytes} (h : table ∈ tables) :
    tableIndex tables table = .ok (tables.idxOf table) := by
  rw [tableIndex, if_pos h]
  rfl

theorem getElem?_idxOf {table : Bytes} (h : table ∈ tables) :
    tables[tables.idxOf table]? = some table := by
  rw [List.getElem?_eq_getElem (List.idxOf_lt_length_iff.mpr h), List.getElem_idxOf]

theorem idxOf_eq_iff {t u : Bytes} (ht : t ∈ tables) : tables.idxOf t = tables.idxOf u ↔ t = u :=
  List.idxOf_inj ht

/-- Taking the scans of the two tables of a condition and joining them on it. -/
theorem takeComponent (hpool : pool.Fits tables) (hspans : Spans tables condition)
    (hlhs : ¬ pool.Taken (tables.idxOf condition.lhsCol.tabName))
    (hrhs : ¬ pool.Taken (tables.idxOf condition.rhsCol.tabName)) :
    ∃ left pool₁ right pool₂,
      takeScanPlan (tables.idxOf condition.lhsCol.tabName) pool = .ok (.scan left, pool₁) ∧
      takeScanPlan (tables.idxOf condition.rhsCol.tabName) pool₁ = .ok (.scan right, pool₂) ∧
      pool₂.Fits tables ∧ pool.scans.Perm (left :: right :: pool₂.scans) ∧
      left.tabName = condition.lhsCol.tabName ∧ right.tabName = condition.rhsCol.tabName ∧
      (Plan.join .nestLoop (.scan left) (.scan right) [condition]).WellScoped ∧
      ∀ t ∈ tables, pool₂.Taken (tables.idxOf t) ↔
        t = condition.lhsCol.tabName ∨ t = condition.rhsCol.tabName ∨
          pool.Taken (tables.idxOf t) := by
  obtain ⟨left, pool₁, htake₁, hname₁, hwell₁, hfits₁, hperm₁, htaken₁⟩ :=
    ScanPool.takeScanPlan_spec hpool (getElem?_idxOf hspans.lhs) hlhs
  have hfree : ¬ pool₁.Taken (tables.idxOf condition.rhsCol.tabName) := by
    rw [htaken₁, idxOf_eq_iff hspans.rhs]
    exact fun h => h.elim (fun h => hspans.ne h.symm) hrhs
  obtain ⟨right, pool₂, htake₂, hname₂, hwell₂, hfits₂, hperm₂, htaken₂⟩ :=
    ScanPool.takeScanPlan_spec hfits₁ (getElem?_idxOf hspans.rhs) hfree
  refine ⟨left, pool₁, right, pool₂, htake₁, htake₂, hfits₂, hperm₁.trans (hperm₂.cons left),
    hname₁, hname₂, .join (fun cond hcond => ?_) (.scan hwell₁) (.scan hwell₂), fun t ht => ?_⟩
  · rw [List.mem_singleton.mp hcond]
    refine ⟨hspans.isCol, ?_, ?_⟩
    · rw [Plan.tables_scan, hname₁]
      exact List.mem_singleton_self _
    · rw [Plan.tables_scan, hname₂]
      exact List.mem_singleton_self _
  · rw [htaken₂, htaken₁, idxOf_eq_iff ht, idxOf_eq_iff ht]
    exact or_left_comm

/-- Placing a condition between a new table and the tree: the new table is joined on the left. -/
theorem Joining.joinTable (h : Joining tables all placed (root, pool))
    (hsame : condition.Same condition') (hcol : condition'.isRhsVal = false)
    (hmem : condition'.lhsCol.tabName ∈ tables) (hnew : condition'.lhsCol.tabName ∉ root.tables)
    (hroot : condition'.rhsCol.tabName ∈ root.tables) :
    ∃ scan pool', takeScanPlan (tables.idxOf condition'.lhsCol.tabName) pool =
        .ok (.scan scan, pool') ∧
      Joining tables all (condition ::ₘ placed)
        (.join .nestLoop (.scan scan) root [condition'], pool') := by
  have hfree : ¬ pool.Taken (tables.idxOf condition'.lhsCol.tabName) :=
    fun htaken => hnew ((h.taken_iff _ hmem).mp htaken)
  obtain ⟨scan, pool', htake, hname, hwell, hfits, hperm, htaken⟩ :=
    ScanPool.takeScanPlan_spec h.fits (getElem?_idxOf hmem) hfree
  have hjoins : ∀ cond ∈ [condition'], cond.Joins (Plan.scan scan).tables root.tables := by
    intro cond hcond
    rw [List.mem_singleton.mp hcond]
    exact ⟨hcol, by rw [Plan.tables_scan, hname]; exact List.mem_singleton_self _, hroot⟩
  refine ⟨scan, pool', htake, ?_, fun t ht => ?_, ?_⟩
  · exact h.toBuilt.joinLeft (.scan scan) [condition'] hfits hperm (.scan hwell) trivial hjoins
      (rel_singleton hsame)
  · rw [htaken, idxOf_eq_iff ht, h.taken_iff t ht, Plan.tables_join, Plan.tables_scan, hname]
    exact List.mem_cons.symm
  · rw [Plan.tables_join, Plan.tables_scan, hname]
    exact List.nodup_cons.mpr ⟨hnew, h.nodup⟩

/-- Placing a condition between two tables of the tree. -/
theorem Joining.attach (h : Joining tables all placed (root, pool))
    (hspans : Spans tables condition) (hlhs : condition.lhsCol.tabName ∈ root.tables)
    (hrhs : condition.rhsCol.tabName ∈ root.tables) :
    (attachJoinCondition condition root).1 = .both ∧
      Joining tables all (condition ::ₘ placed) ((attachJoinCondition condition root).2, pool) := by
  have hcov : coverage condition root.tables = .both := by simp [coverage, hlhs, hrhs]
  have hattached := attachJoinCondition_both hspans.isCol hspans.ne h.isJoinTree h.nodup hcov
  obtain ⟨condition', hsame, hperm⟩ := hattached.joinConds
  have htables : (attachJoinCondition condition root).2.tables = root.tables := by
    rw [Plan.tables, hattached.scans_eq, ← Plan.tables]
  refine ⟨(attachJoinCondition_fst hspans.ne h.isJoinTree h.nodup).trans hcov, ⟨h.fits, ?_,
    hattached.wellScoped h.wellScoped, hattached.isJoinTree, ?_⟩, fun t ht => ?_, ?_⟩
  · exact hattached.scans_eq.symm ▸ h.scans
  · rw [Multiset.coe_eq_coe.mpr hperm, ← Multiset.cons_coe]
    exact .cons hsame h.joinConds
  · rw [htables]
    exact h.taken_iff t ht
  · rw [htables]
    exact h.nodup

/-- Placing one condition keeps the invariant. -/
theorem joinCondition_spec (h : Joining tables all placed state) (hspans : Spans tables condition) :
    ∃ state', joinCondition tables state condition = .ok state' ∧
      Joining tables all (condition ::ₘ placed) state' := by
  obtain ⟨root, pool⟩ := state
  obtain ⟨lhsJoined, hreadl, hlhs⟩ :=
    ScanPool.isJoined_spec h.fits (List.idxOf_lt_length_iff.mpr hspans.lhs)
  obtain ⟨rhsJoined, hreadr, hrhs⟩ :=
    ScanPool.isJoined_spec h.fits (List.idxOf_lt_length_iff.mpr hspans.rhs)
  have hlhs_iff := hlhs.trans (h.taken_iff _ hspans.lhs)
  have hrhs_iff := hrhs.trans (h.taken_iff _ hspans.rhs)
  simp only [joinCondition, tableIndex_eq hspans.lhs, tableIndex_eq hspans.rhs, hreadl, hreadr,
    ok_bind]
  -- The four cases of the source: both tables are new, one is (on either side), or none is.
  match lhsJoined, rhsJoined with
  | false, false =>
    have hl : condition.lhsCol.tabName ∉ root.tables := by simpa using hlhs_iff
    have hr : condition.rhsCol.tabName ∉ root.tables := by simpa using hrhs_iff
    obtain ⟨left, pool₁, right, pool₂, htakel, htaker, hfits, hperm, hnamel, hnamer, hwell,
      htaken⟩ := takeComponent h.fits hspans (by simpa using hlhs) (by simpa using hrhs)
    simp only [htakel, htaker, ok_bind, and_self, if_true]
    refine ⟨_, rfl, ?_, fun t ht => ?_, ?_⟩
    · exact h.toBuilt.joinLeft (.join .nestLoop (.scan left) (.scan right) [condition]) [] hfits
        hperm hwell ⟨rfl, trivial, trivial⟩ (by simp) (rel_singleton (.refl condition))
    · simp only [htaken t ht, h.taken_iff t ht, Plan.tables_join, Plan.tables_scan, hnamel,
        hnamer, List.mem_append, List.mem_singleton, or_assoc]
    · simp [hnamel, hnamer, hl, hr, hspans.ne, h.nodup]
  | false, true =>
    have hl : condition.lhsCol.tabName ∉ root.tables := by simpa using hlhs_iff
    obtain ⟨scan, pool', htake, hjoining⟩ :=
      h.joinTable (.refl condition) hspans.isCol hspans.lhs hl (hrhs_iff.mp rfl)
    exact ⟨_, by simp [htake], hjoining⟩
  | true, false =>
    -- The new table stands on the right of the condition, which is turned around.
    have hr : condition.rhsCol.tabName ∉ root.tables := by simpa using hrhs_iff
    obtain ⟨scan, pool', htake, hjoining⟩ :=
      h.joinTable (.inr ⟨hspans.isCol, rfl⟩) hspans.isCol hspans.rhs hr (hlhs_iff.mp rfl)
    have htake : takeScanPlan (tables.idxOf condition.rhsCol.tabName) pool = _ := htake
    exact ⟨_, by simp [htake], hjoining⟩
  | true, true =>
    obtain ⟨hboth, hjoining⟩ := h.attach hspans (hlhs_iff.mp rfl) (hrhs_iff.mp rfl)
    exact ⟨_, by simp [hboth], hjoining⟩

/-- Placing all conditions. -/
theorem joinConditions_spec (h : Joining tables all placed state)
    (hspans : ∀ c ∈ conditions, Spans tables c) :
    ∃ state', conditions.foldlM (joinCondition tables) state = .ok state' ∧
      Joining tables all (conditions + placed) state' := by
  induction conditions generalizing placed state with
  | nil => exact ⟨state, rfl, by simpa using h⟩
  | cons condition conditions ih =>
    obtain ⟨hspan, hspans⟩ := List.forall_mem_cons.mp hspans
    obtain ⟨state₁, hstep, h₁⟩ := joinCondition_spec h hspan
    obtain ⟨state₂, hrun, h₂⟩ := ih h₁ hspans
    refine ⟨state₂, ?_, ?_⟩
    · rw [List.foldlM_cons, hstep, ok_bind, hrun]
    · rw [← Multiset.cons_coe, Multiset.cons_add, ← Multiset.add_cons]
      exact h₂

/-- The start of the tree from a full pool, and the loop over the other conditions. -/
theorem placeConditions_spec (hne : tables ≠ []) (hfits : pool.Fits tables)
    (hfull : ∀ i, ¬ pool.Taken i) (hspans : ∀ c ∈ conditions, Spans tables c) :
    ∃ state state', startJoinTree tables pool conditions = .ok state ∧
      conditions.tail.foldlM (joinCondition tables) state = .ok state' ∧
      Built tables pool.scans conditions state' := by
  cases conditions with
  | nil =>
    obtain ⟨table, tables, rfl⟩ := List.exists_cons_of_ne_nil hne
    obtain ⟨scan, pool', htake, -, hwell, hfits', hperm, -⟩ :=
      ScanPool.takeScanPlan_spec hfits (i := 0) rfl (hfull 0)
    exact ⟨_, _, htake, rfl, hfits', hperm.symm, .scan hwell, trivial, .zero⟩
  | cons first rest =>
    obtain ⟨hspan, hspans⟩ := List.forall_mem_cons.mp hspans
    obtain ⟨left, pool₁, right, pool₂, htakel, htaker, hfits', hperm, hnamel, hnamer, hwell,
      htaken⟩ := takeComponent hfits hspan (hfull _) (hfull _)
    have hstart : startJoinTree tables pool (first :: rest) =
        .ok (.join .nestLoop (.scan left) (.scan right) [first], pool₂) := by
      simp [startJoinTree, tableIndex_eq hspan.lhs, tableIndex_eq hspan.rhs, htakel, htaker]
    have hjoining : Joining tables pool.scans {first}
        (.join .nestLoop (.scan left) (.scan right) [first], pool₂) := by
      refine ⟨⟨hfits', hperm.symm, hwell, ⟨rfl, trivial, trivial⟩, rel_singleton (.refl first)⟩,
        fun t ht => ?_, ?_⟩
      · simp only [htaken t ht, hfull, or_false, Plan.tables_join, Plan.tables_scan, hnamel, hnamer,
          List.mem_append, List.mem_singleton]
      · simpa [hnamel, hnamer] using hspan.ne
    obtain ⟨state', hrun, hjoining'⟩ := joinConditions_spec hjoining hspans
    refine ⟨_, state', hstart, hrun, ?_⟩
    rw [← Multiset.cons_coe, ← Multiset.singleton_add, Multiset.add_comm]
    exact hjoining'.toBuilt

/-- Joining the tables that no condition has brought in. -/
theorem joinLeftovers_spec (h : Built tables all placed state) {indices : List ℕ}
    (hlt : ∀ i ∈ indices, i < tables.length) :
    ∃ state', indices.foldlM joinLeftover state = .ok state' ∧ Built tables all placed state' ∧
      ∀ i, state'.2.Taken i ↔ i ∈ indices ∨ state.2.Taken i := by
  induction indices generalizing state with
  | nil => exact ⟨state, rfl, h, by simp⟩
  | cons i indices ih =>
    obtain ⟨root, pool⟩ := state
    obtain ⟨hi, hlt⟩ := List.forall_mem_cons.mp hlt
    obtain ⟨joined, hread, hjoined⟩ := ScanPool.isJoined_spec h.fits hi
    -- One round of the loop leaves the scan of this number marked.
    have hround : ∃ state₁, joinLeftover (root, pool) i = .ok state₁ ∧
        Built tables all placed state₁ ∧ ∀ j, state₁.2.Taken j ↔ j = i ∨ pool.Taken j := by
      cases joined with
      | true =>
        refine ⟨(root, pool), by simp [joinLeftover, hread], h, fun j => ?_⟩
        constructor
        · exact .inr
        · rintro (rfl | hj)
          · exact hjoined.mp rfl
          · exact hj
      | false =>
        obtain ⟨scan, pool', htake, -, hwell, hfits, hperm, htaken⟩ :=
          ScanPool.takeScanPlan_spec h.fits (List.getElem?_eq_getElem hi) (by simpa using hjoined)
        refine ⟨(.join .nestLoop (.scan scan) root [], pool'), by simp [joinLeftover, hread, htake],
          ?_, htaken⟩
        rw [← Multiset.zero_add placed]
        exact h.joinLeft (.scan scan) [] hfits hperm (.scan hwell) trivial (by simp) .zero
    obtain ⟨state₁, hstep, h₁, htaken₁⟩ := hround
    obtain ⟨state₂, hrun, h₂, htaken₂⟩ := ih h₁ hlt
    refine ⟨state₂, by rw [List.foldlM_cons, hstep, ok_bind, hrun], h₂, fun j => ?_⟩
    rw [htaken₂, htaken₁, List.mem_cons, or_left_comm, or_assoc]

/-- A pool whose scans are all marked is empty. -/
theorem ScanPool.Fits.scans_eq_nil (h : pool.Fits tables)
    (htaken : ∀ i < tables.length, pool.Taken i) : pool.scans = [] := by
  have hnone : ∀ plan ∈ pool.scanPlans, plan = none := by
    intro plan hplan
    obtain ⟨i, hi, rfl⟩ := List.getElem_of_mem hplan
    have hmark := htaken i (h.length_eq ▸ hi)
    rw [Taken, h.joined_eq, List.getElem?_map, List.getElem?_eq_getElem hi] at hmark
    simpa using hmark
  have hempty : pool.scanPlans.reduceOption = [] := by
    rw [List.reduceOption, List.filterMap_eq_nil_iff]
    exact hnone
  rw [scans, hempty, List.flatMap_nil]

/-- `build_join_tree` returns a well-scoped tree of all the scans, with all the conditions. -/
theorem buildJoinTree_spec (hne : tables ≠ []) {scanPlans : List Plan}
    (hscans : List.Forall₂ ScanOf tables scanPlans) (hspans : ∀ c ∈ conditions, Spans tables c) :
    ∃ root, buildJoinTree tables scanPlans conditions = .ok root ∧ root.WellScoped ∧
      root.IsJoinTree ∧ root.scans.Perm (scanPlans.flatMap Plan.scans) ∧
      Multiset.Rel Condition.Same conditions root.joinConds := by
  let pool : ScanPool := ⟨List.replicate tables.length false, scanPlans.map some⟩
  have hlen : scanPlans.length = tables.length := hscans.length_eq.symm
  have hfits : pool.Fits tables := by
    refine ⟨by simp [pool, hlen], ?_, ?_⟩
    · have hnull : Option.isNone ∘ (some : Plan → Option Plan) = fun _ => false := rfl
      simp [pool, ← hlen, hnull]
    · intro i table plan ht hplan
      obtain ⟨hi, rfl⟩ := List.getElem?_eq_some_iff.mp ht
      have hi' : i < scanPlans.length := hlen ▸ hi
      have hget : scanPlans[i] = plan := by simpa [pool, List.getElem?_eq_getElem hi'] using hplan
      rw [← hget]
      exact hscans.get hi hi'
  have hfull : ∀ i, ¬ pool.Taken i := by
    intro i
    simp [pool, ScanPool.Taken, List.getElem?_replicate]
  have hpool : pool.scans = scanPlans.flatMap Plan.scans := by
    simp [pool, ScanPool.scans, List.reduceOption]
  obtain ⟨state, state₁, hstart, hplace, h₁⟩ := placeConditions_spec hne hfits hfull hspans
  obtain ⟨state₂, hleft, h₂, htaken⟩ :=
    joinLeftovers_spec h₁ fun i (hi : i ∈ List.range tables.length) => List.mem_range.mp hi
  have hempty : state₂.2.scans = [] :=
    h₂.fits.scans_eq_nil fun i hi => (htaken i).mpr (.inl (List.mem_range.mpr hi))
  refine ⟨state₂.1, ?_, h₂.wellScoped, h₂.isJoinTree, ?_, h₂.joinConds⟩
  · refine bind_eq_ok.mpr ⟨state, hstart, ?_⟩
    refine bind_eq_ok.mpr ⟨state₁, hplace, ?_⟩
    exact bind_eq_ok.mpr ⟨state₂, hleft, rfl⟩
  · have hperm := h₂.scans
    rw [hempty, List.append_nil, hpool] at hperm
    exact hperm

end Planner

end Rucbase
