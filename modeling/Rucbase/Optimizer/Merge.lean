import Rucbase.Optimizer.Select

/-!
# The merge joins of a plan

`choose_join_algorithm` (`src/optimizer/planner.cpp`) rewrites a tree of nested-loop joins from the
leaves up, and reads the flag `enable_sortmerge` once at each join, after both sides. `Chosen`
follows it over the tree and says of each join how the rewritten one may look; it is the contract of
`MergeJoinExecutor` (`src/execution/executor_merge_join.h`), and `chooseJoinAlgorithm_chosen` says
that the rewriting keeps to it, whatever the reads return.
-/

namespace Rucbase

open Lib

/-- A condition that compares two columns for equality. -/
def Condition.IsColumnEquality (cond : Condition) : Prop := cond.isRhsVal = false ∧ cond.op = .eq

/-- The left column of a condition is on the left, and its right column, if it has one, on the
right. -/
def Condition.Oriented (cond : Condition) (left right : List Bytes) : Prop :=
  cond.lhsCol.tabName ∈ left ∧ (cond.isRhsVal = false → cond.rhsCol.tabName ∈ right)

/-- Every condition of a join is oriented. -/
def Plan.Oriented : Plan → Prop
  | .join _ left right conds =>
    (∀ cond ∈ conds, cond.Oriented left.tables right.tables) ∧ left.Oriented ∧ right.Oriented
  | _ => True

namespace Planner

/-- The merge joins: `conds` has `key` as its first equality of columns, and it has been moved to
the front; both sides are sorted by its columns, ascending. -/
structure Merges (left right : Plan) (conds : List Condition) (sortedLeft sortedRight : Plan)
    (conds' : List Condition) (key : Condition) : Prop where
  isKey : key.IsColumnEquality
  first : ∃ before after, conds = before ++ key :: after ∧
    (∀ cond ∈ before, ¬cond.IsColumnEquality) ∧ conds' = key :: (before ++ after)
  left_sorted : sortedLeft = .sort .sort left key.lhsCol false
  right_sorted : sortedRight = .sort .sort right key.rhsCol false
  lhs_mem : key.lhsCol.tabName ∈ left.tables
  rhs_mem : key.rhsCol.tabName ∈ right.tables

/-- `choose_join_algorithm` on a tree, from the `reads`-th read of the flag to the `reads'`-th. -/
inductive Chosen (flag : ℕ → Bool) : ℕ → Plan → Plan → ℕ → Prop
  | scan (reads : ℕ) (scan : ScanPlan) : Chosen flag reads (.scan scan) (.scan scan) reads
  | join {reads readsLeft readsRight : ℕ} {left right left' right' sideLeft sideRight : Plan}
      {tag : PlanTag} {conds conds' : List Condition}
      (hleft : Chosen flag reads left left' readsLeft)
      (hright : Chosen flag readsLeft right right' readsRight)
      (hconds : conds'.Perm conds)
      (htables : sideLeft.tables = left.tables ∧ sideRight.tables = right.tables)
      (htag : tag = .nestLoop ∧ sideLeft = left' ∧ sideRight = right' ∨
        tag = .sortMerge ∧ ∃ key, Merges left' right' conds sideLeft sideRight conds' key)
      (hstays : (tag = .nestLoop ∧ conds' = conds) ↔
        flag readsRight = false ∨ ∀ cond ∈ conds, ¬cond.IsColumnEquality) :
      Chosen flag reads (.join .nestLoop left right conds) (.join tag sideLeft sideRight conds')
        (readsRight + 1)

theorem isMergeKey_iff {cond : Condition} : isMergeKey cond = true ↔ cond.IsColumnEquality := by
  simp [isMergeKey, Condition.IsColumnEquality]

theorem isMergeKey_eq_false {cond : Condition} :
    isMergeKey cond = false ↔ ¬cond.IsColumnEquality := by
  rw [← isMergeKey_iff, Bool.not_eq_true]

/-- Choosing does not change the tables. -/
theorem Chosen.tables_eq {flag : ℕ → Bool} {reads reads' : ℕ} {plan plan' : Plan}
    (h : Chosen flag reads plan plan' reads') : plan'.tables = plan.tables := by
  cases h with
  | scan => rfl
  | join _ _ _ htables _ _ => rw [Plan.tables_join, Plan.tables_join, htables.1, htables.2]

section Join

variable {flag : ℕ → Bool} {reads readsLeft readsRight : ℕ} {left right left' right' : Plan}
variable {conds : List Condition}

/-- A join that stays as it is. -/
theorem Chosen.nestLoop (hleft : Chosen flag reads left left' readsLeft)
    (hright : Chosen flag readsLeft right right' readsRight)
    (h : flag readsRight = false ∨ ∀ cond ∈ conds, isMergeKey cond = false) :
    Chosen flag reads (.join .nestLoop left right conds) (.join .nestLoop left' right' conds)
      (readsRight + 1) := by
  have hstays : flag readsRight = false ∨ ∀ cond ∈ conds, ¬cond.IsColumnEquality :=
    h.imp_right fun hnone cond hcond => isMergeKey_eq_false.mp (hnone cond hcond)
  exact .join hleft hright (.refl _) ⟨hleft.tables_eq, hright.tables_eq⟩ (.inl ⟨rfl, rfl, rfl⟩)
    (iff_of_true ⟨rfl, rfl⟩ hstays)

/-- A join that becomes a merge join. -/
theorem Chosen.sortMerge (hleft : Chosen flag reads left left' readsLeft)
    (hright : Chosen flag readsLeft right right' readsRight)
    (hconds : ∀ cond ∈ conds, cond.Oriented left.tables right.tables)
    (hread : flag readsRight = true) {key : Condition} {conds' : List Condition}
    (hrotate : rotateMergeKey conds = some (key, conds')) :
    Chosen flag reads (.join .nestLoop left right conds)
      (.join .sortMerge (.sort .sort left' key.lhsCol false) (.sort .sort right' key.rhsCol false)
        conds') (readsRight + 1) := by
  obtain ⟨hmem, -, hperm⟩ := rotateMergeKey_spec hrotate
  obtain ⟨hkey, before, after, hsplit, hbefore, hconds'⟩ := rotateMergeKey_eq_some hrotate
  have hcol := isMergeKey_iff.mp hkey
  have horiented := hconds key hmem
  rw [← hleft.tables_eq, ← hright.tables_eq] at horiented
  have hmerges : Merges left' right' conds (.sort .sort left' key.lhsCol false)
      (.sort .sort right' key.rhsCol false) conds' key :=
    { isKey := hcol
      first := ⟨before, after, hsplit,
        fun cond hcond => isMergeKey_eq_false.mp (hbefore cond hcond), hconds'⟩
      left_sorted := rfl
      right_sorted := rfl
      lhs_mem := horiented.1
      rhs_mem := horiented.2 hcol.1 }
  refine .join hleft hright hperm ⟨hleft.tables_eq, hright.tables_eq⟩ (.inr ⟨rfl, key, hmerges⟩)
    (iff_of_false nofun ?_)
  rintro (hread' | hnone)
  · simp [hread] at hread'
  · exact hnone key hmem hcol

end Join

/-- Every join of the rewritten tree is a nested loop as before or a merge join as its executor
needs it, whatever the reads of the flag return. -/
theorem chooseJoinAlgorithm_chosen (flag : ℕ → Bool) {plan : Plan} (htree : plan.IsJoinTree)
    (horiented : plan.Oriented) (reads : ℕ) :
    Chosen flag reads plan (chooseJoinAlgorithm flag plan reads).1
      (chooseJoinAlgorithm flag plan reads).2 := by
  -- The induction is over the tree; the number of reads grows from left to right.
  induction plan generalizing reads with
  | scan scan => exact .scan reads scan
  | join tag left right conds ihl ihr =>
    obtain ⟨rfl, htreel, htreer⟩ := htree
    obtain ⟨hconds, horientedl, horientedr⟩ := horiented
    have hleft := ihl htreel horientedl reads
    have hright := ihr htreer horientedr (chooseJoinAlgorithm flag left reads).2
    rw [chooseJoinAlgorithm]
    dsimp only
    split_ifs with hread
    · exact .nestLoop hleft hright (.inl hread)
    · cases hrotate : rotateMergeKey conds with
      | none => exact .nestLoop hleft hright (.inr (rotateMergeKey_eq_none.mp hrotate))
      | some rotated =>
        exact .sortMerge hleft hright hconds (by simpa using hread) hrotate
  | _ => exact htree.elim

/-- `student` joined with `course` under `id < title` and `id = student_id`. -/
def studentCourse : Plan :=
  .join .nestLoop (.scan ⟨.seqScan, text "student", studentTable.cols, [], 12, [], []⟩)
    (.scan ⟨.seqScan, text "course", courseTable.cols, [], 12, [], []⟩)
    [⟨⟨text "student", text "id"⟩, .lt, false, ⟨text "course", text "title"⟩, ⟨.int, 0, [], none⟩⟩,
     ⟨⟨text "student", text "id"⟩, .eq, false, ⟨text "course", text "student_id"⟩,
      ⟨.int, 0, [], none⟩⟩]

/-- The join of `studentCourse` becomes a merge join. -/
theorem chooseJoinAlgorithm_chosen_course :
    studentCourse.IsJoinTree ∧ studentCourse.Oriented ∧
      ∃ left right conds,
        Chosen (fun _ => true) 0 studentCourse (.join .sortMerge left right conds) 1 :=
  have htree : studentCourse.IsJoinTree := ⟨rfl, trivial, trivial⟩
  have horiented : studentCourse.Oriented := by
    refine ⟨?_, trivial, trivial⟩
    unfold Condition.Oriented
    decide
  ⟨htree, horiented, _, _, _, chooseJoinAlgorithm_chosen (fun _ => true) htree horiented 0⟩

end Planner

end Rucbase
