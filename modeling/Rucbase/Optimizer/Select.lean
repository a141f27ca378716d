import Rucbase.Analyze.Sound
import Rucbase.Optimizer.JoinTree

/-!
# The plan of a SELECT denotes the query

`physical_optimization` gives each FROM table a scan with the conditions that read this table only,
builds the join tree with the others, replaces nested loops by merge joins where the flag asks for
it, and sorts the result. None of these steps changes the scans or loses a condition, so a query
without repeated tables is planned as the cross product of its tables filtered by its conditions
(`physicalOptimization_denotes`).
-/

namespace Rucbase

open Lib

namespace Planner

/-! ## Scans -/

/-- A condition is taken for a table exactly when it reads no other one. -/
theorem isTableCondition_iff {table : Bytes} {condition : Condition} :
    isTableCondition table condition = true ↔ ∀ t ∈ condition.tables, t = table := by
  unfold isTableCondition Condition.tables
  cases condition.isRhsVal <;> simp

variable {db : DbMeta} {tables : List Bytes} {query : AnalyzedQuery} {conds conds' : List Condition}
  {key : Condition} {tree : Plan}

/-- A table with a column can be scanned, with the conditions it is given. -/
theorem makeScanPlan_spec {table : Bytes} {tab : TabMeta} (htab : db.tabs[table]? = some tab)
    (hcols : tab.cols ≠ []) (conds : List Condition) :
    ∃ scan, makeScanPlan db table conds = .ok (.scan scan) ∧ scan.tabName = table ∧
      scan.conds = conds := by
  have hget : db.getTable table = .ok tab := Analyzer.getTable_eq_ok.mpr htab
  have hlast : tab.cols.getLast? = some (tab.cols.getLast hcols) :=
    List.getLast?_eq_some_getLast hcols
  obtain ⟨⟨useIndex, indexColumns⟩, hchoose⟩ :
      ∃ choice, chooseIndex db table conds = .ok choice :=
    ⟨_, by rw [chooseIndex, hget, ok_bind]; rfl⟩
  have hmake : ∀ tag, ∃ scan, ScanPlan.make db tag table conds indexColumns = .ok scan ∧
      scan.tabName = table ∧ scan.conds = conds := fun tag =>
    ⟨_, by simp only [ScanPlan.make, hget, hlast, ok_bind]; rfl, rfl, rfl⟩
  obtain ⟨scan, hscan, hname, hconds⟩ := hmake (if useIndex then .indexScan else .seqScan)
  refine ⟨scan, ?_, hname, hconds⟩
  simp only [makeScanPlan, hchoose, hscan, ok_bind]
  rfl

/-- The loop over the tables gives each table a scan. The conditions of the scans and those that
remain are all the conditions, and none of the latter reads a single table. -/
theorem makeScanPlans_spec (hexist : ∀ t ∈ tables, ∃ tab, db.tabs[t]? = some tab ∧ tab.cols ≠ [])
    (conds : List Condition) :
    ∃ scans remaining, makeScanPlans db tables conds = .ok (scans, remaining) ∧
      List.Forall₂ ScanOf tables scans ∧
      ((scans.flatMap Plan.scans).flatMap ScanPlan.conds ++ remaining).Perm conds ∧
      ∀ c ∈ remaining, ∀ t ∈ tables, isTableCondition t c = false := by
  induction tables generalizing conds with
  | nil => exact ⟨[], conds, rfl, .nil, .refl _, by simp⟩
  | cons table tables ih =>
    obtain ⟨⟨tab, htab, hcols⟩, hexist⟩ := List.forall_mem_cons.mp hexist
    obtain ⟨scan, hscan, hname, htaken⟩ :=
      makeScanPlan_spec htab hcols (conds.filter (isTableCondition table))
    obtain ⟨scans, remaining, hrest, hscans, hperm, hno⟩ :=
      ih hexist (conds.filter fun c => !isTableCondition table c)
    have hkept : ∀ c ∈ remaining, isTableCondition table c = false := by
      intro c hc
      have hmem := hperm.subset (List.mem_append_right _ hc)
      simpa using (List.mem_filter.mp hmem).2
    refine ⟨.scan scan :: scans, remaining, ?_, .cons ⟨scan, rfl, hname, ?_⟩ hscans, ?_, ?_⟩
    · simp only [makeScanPlans, takeTableConditions, List.partition_eq_filter_filter, hscan,
        ok_bind]
      have hrest' : makeScanPlans db tables (conds.filter (not ∘ isTableCondition table)) = _ :=
        hrest
      rw [hrest', ok_bind]
      rfl
    · intro cond hcond t ht
      rw [htaken] at hcond
      rw [hname]
      exact isTableCondition_iff.mp (List.mem_filter.mp hcond).2 t ht
    · rw [List.flatMap_cons, Plan.scans, List.singleton_append, List.flatMap_cons, htaken,
        List.append_assoc]
      exact (hperm.append_left _).trans (List.filter_append_perm _ conds)
    · intro c hc t ht
      rcases List.mem_cons.mp ht with rfl | ht
      · exact hkept c hc
      · exact hno c hc t ht

/-- The scans of the tables are over the tables. -/
theorem tables_of_scanOf {scans : List Plan} (h : List.Forall₂ ScanOf tables scans) :
    (scans.flatMap Plan.scans).map ScanPlan.tabName = tables := by
  induction h with
  | nil => rfl
  | cons hscan _ ih =>
    obtain ⟨scan, rfl, hname, -⟩ := hscan
    rw [List.flatMap_cons, List.map_append, ih, Plan.scans, List.map_singleton, hname,
      List.singleton_append]

/-- A condition over the tables that is taken for none of them compares two different tables. -/
theorem spans_of_not_taken {condition : Condition} (hscope : ∀ t ∈ condition.tables, t ∈ tables)
    (hno : ∀ t ∈ tables, isTableCondition t condition = false) : Spans tables condition := by
  have hlhs : condition.lhsCol.tabName ∈ tables := by
    refine hscope _ ?_
    unfold Condition.tables
    split <;> simp
  have hnot : ¬ ∀ t ∈ condition.tables, t = condition.lhsCol.tabName := by
    rw [← isTableCondition_iff, Bool.not_eq_true]
    exact hno _ hlhs
  have hcol : condition.isRhsVal = false := by
    rw [← Bool.not_eq_true]
    intro hval
    exact hnot (by simp [Condition.tables, hval])
  have hne : condition.lhsCol.tabName ≠ condition.rhsCol.tabName := by
    intro heq
    exact hnot (by simp [Condition.tables, hcol, heq])
  exact ⟨hcol, hlhs, hscope _ (by simp [Condition.tables, hcol]), hne⟩

/-- A plan of the FROM and WHERE clauses of a query: a well-scoped tree of the scans that were made
for the tables, each of them once, with the tables and the conditions of the query. -/
structure FromPlan (db : DbMeta) (query : AnalyzedQuery) (plan : Plan) : Prop where
  wellScoped : plan.WellScoped
  scans : ∃ scans remaining,
    makeScanPlans db query.boundTables query.boundConds = .ok (scans, remaining) ∧
      plan.scans.Perm (scans.flatMap Plan.scans)
  tables : plan.tables.Perm query.boundTables
  conds : Multiset.Rel Condition.Same query.boundConds plan.conds

/-- The FROM clause of a query whose tables exist and whose conditions read them is planned as a
tree of joins and scans. -/
theorem buildFromPlan_spec (hne : query.boundTables ≠ [])
    (hexist : ∀ t ∈ query.boundTables, ∃ tab, db.tabs[t]? = some tab ∧ tab.cols ≠ [])
    (hconds : ∀ c ∈ query.boundConds, ∀ t ∈ c.tables, t ∈ query.boundTables) :
    ∃ root, buildFromPlan db query = .ok root ∧ root.IsJoinTree ∧ FromPlan db query root := by
  obtain ⟨scans, remaining, hmake, hscans, hperm, hno⟩ := makeScanPlans_spec hexist query.boundConds
  have hspans : ∀ c ∈ remaining, Spans query.boundTables c := fun c hc =>
    spans_of_not_taken (hconds c (hperm.subset (List.mem_append_right _ hc))) (hno c hc)
  -- Whatever tree has these scans and the remaining conditions has the tables and the conditions.
  have hwhole : ∀ root : Plan, root.WellScoped → root.scans.Perm (scans.flatMap Plan.scans) →
      Multiset.Rel Condition.Same remaining root.joinConds → FromPlan db query root := by
    intro root hwell hroot hrel
    refine ⟨hwell, ⟨scans, remaining, hmake, hroot⟩, ?_, ?_⟩
    · rw [← tables_of_scanOf hscans]
      exact hroot.map _
    · rw [Plan.conds, ← Multiset.coe_eq_coe.mpr hperm, ← Multiset.coe_add, ← Multiset.coe_add,
        Multiset.coe_eq_coe.mpr (hroot.flatMap_right ScanPlan.conds)]
      exact (Multiset.rel_refl_of_refl_on fun c _ => .refl c).add hrel
  have hempty : ¬ query.boundTables.isEmpty := by simpa using hne
  unfold buildFromPlan
  simp only [throwIf, hempty, if_false, hmake, ok_bind, pure_bind, Bool.false_eq_true]
  split_ifs with hone
  · -- A single table: every condition reads it only, and none remains.
    obtain ⟨table, htable⟩ := List.length_eq_one_iff.mp hone
    rw [htable] at hscans
    obtain ⟨scan, rest, ⟨scan, rfl, -, hwell⟩, hrest, rfl⟩ := List.forall₂_cons_left_iff.mp hscans
    rw [List.forall₂_nil_left_iff.mp hrest] at hwhole ⊢
    have hnil : remaining = [] := by
      refine List.eq_nil_iff_forall_not_mem.mpr fun c hc => (hspans c hc).ne ?_
      have hl := (hspans c hc).lhs
      have hr := (hspans c hc).rhs
      rw [htable, List.mem_singleton] at hl hr
      rw [hl, hr]
    refine ⟨.scan scan, rfl, trivial, hwhole (.scan scan) (.scan hwell) (by simp [Plan.scans]) ?_⟩
    rw [hnil]
    exact .zero
  · obtain ⟨root, hbuild, hwell, htree, hroot, hrel⟩ := buildJoinTree_spec hne hscans hspans
    exact ⟨root, hbuild, htree, hwhole root hwell hroot hrel⟩

/-! ## The choice of the join algorithm -/

/-- The first condition that can be a merge key comes to the front, and the others stay in order. -/
theorem rotateMergeKey_eq_some (h : rotateMergeKey conds = some (key, conds')) :
    isMergeKey key = true ∧ ∃ before after, conds = before ++ key :: after ∧
      (∀ cond ∈ before, isMergeKey cond = false) ∧ conds' = key :: (before ++ after) := by
  unfold rotateMergeKey at h
  split at h
  · simp at h
  rename_i key' hfind
  simp only [Option.some.injEq, Prod.mk.injEq] at h
  obtain ⟨rfl, rfl⟩ := h
  obtain ⟨hkey, before, after, rfl, hbefore⟩ := List.find?_eq_some_iff_append.mp hfind
  have hnot : ∀ cond ∈ before, isMergeKey cond = false := by simpa using hbefore
  have hidx : (before ++ key' :: after).findIdx isMergeKey = before.length := by
    rw [List.findIdx_append, List.findIdx_eq_length.mpr hnot, if_neg (lt_irrefl _),
      List.findIdx_cons, hkey, cond_true, Nat.zero_add]
  refine ⟨hkey, before, after, rfl, hnot, ?_⟩
  rw [hidx, List.eraseIdx_append_of_length_le le_rfl, Nat.sub_self, List.eraseIdx_cons_zero]

theorem rotateMergeKey_eq_none :
    rotateMergeKey conds = none ↔ ∀ cond ∈ conds, isMergeKey cond = false := by
  unfold rotateMergeKey
  split
  · rename_i hfind
    simpa using hfind
  · rename_i key hfind
    have hkey : isMergeKey key = true := List.find?_some hfind
    refine iff_of_false nofun fun hnone => ?_
    rw [hnone key (List.mem_of_find?_eq_some hfind)] at hkey
    exact Bool.false_ne_true hkey

/-- Rotating the merge key to the front permutes the conditions. -/
theorem rotateMergeKey_spec (h : rotateMergeKey conds = some (key, conds')) :
    key ∈ conds ∧ isMergeKey key = true ∧ conds'.Perm conds := by
  obtain ⟨hkey, before, after, rfl, -, rfl⟩ := rotateMergeKey_eq_some h
  exact ⟨by simp, hkey, List.perm_middle.symm⟩

theorem rotateMergeKey_head (h : rotateMergeKey conds = some (key, conds')) :
    conds'.head? = some key := by
  obtain ⟨-, _, _, -, -, rfl⟩ := rotateMergeKey_eq_some h
  rfl

/-- Choosing the join algorithms keeps a tree well scoped, with the same scans from left to right
and the same conditions. -/
theorem chooseJoinAlgorithm_spec (flag : ℕ → Bool) (h : tree.WellScoped) (reads : ℕ) :
    (chooseJoinAlgorithm flag tree reads).1.WellScoped ∧
      (chooseJoinAlgorithm flag tree reads).1.scans = tree.scans ∧
      (chooseJoinAlgorithm flag tree reads).1.joinConds.Perm tree.joinConds := by
  induction h generalizing reads with
  | scan h => exact ⟨.scan h, rfl, .refl _⟩
  | sort hcol hsub _ => exact ⟨.sort hcol hsub, rfl, .refl _⟩
  | @join tag left right conds hconds hleft hright ihl ihr =>
    unfold chooseJoinAlgorithm
    obtain ⟨hwelll, hscansl, hcondsl⟩ := ihl reads
    generalize chooseJoinAlgorithm flag left reads = l at hwelll hscansl hcondsl ⊢
    obtain ⟨left', readsl⟩ := l
    obtain ⟨hwellr, hscansr, hcondsr⟩ := ihr readsl
    simp only at hwelll hscansl hcondsl hwellr hscansr hcondsr ⊢
    generalize chooseJoinAlgorithm flag right readsl = r at hwellr hscansr hcondsr ⊢
    obtain ⟨right', readsr⟩ := r
    simp only at hwellr hscansr hcondsr ⊢
    have htablesl : left'.tables = left.tables := by rw [Plan.tables, hscansl, ← Plan.tables]
    have htablesr : right'.tables = right.tables := by rw [Plan.tables, hscansr, ← Plan.tables]
    have hconds' : ∀ cond ∈ conds, cond.Joins left'.tables right'.tables := by
      rw [htablesl, htablesr]
      exact hconds
    have hnested : (Plan.join tag left' right' conds).WellScoped := .join hconds' hwelll hwellr
    split_ifs
    · exact ⟨hnested, by simp [Plan.scans, hscansl, hscansr],
        (hcondsl.append hcondsr).append_left conds⟩
    · split
      · exact ⟨hnested, by simp [Plan.scans, hscansl, hscansr],
          (hcondsl.append hcondsr).append_left conds⟩
      · -- The merge key is a condition of the join, so its columns are on the sides it sorts.
        rename_i key conds'' hrotate
        obtain ⟨hmem, -, hperm⟩ := rotateMergeKey_spec hrotate
        have hkey := hconds' key hmem
        refine ⟨.join (fun cond hcond => ?_) (.sort hkey.lhs hwelll) (.sort hkey.rhs hwellr),
          ?_, ?_⟩
        · exact hconds' cond (hperm.subset hcond)
        · simp [Plan.scans, hscansl, hscansr]
        · exact hperm.append (hcondsl.append hcondsr)

/-- In a tree of joins and scans, the columns are those of the join conditions. -/
theorem columns_of_isJoinTree (h : tree.IsJoinTree) {tc : TabCol} (htc : tc ∈ tree.columns) :
    ∃ cond ∈ tree.joinConds, tc = cond.lhsCol ∨ tc = cond.rhsCol := by
  induction tree with
  | scan scan => simp [Plan.columns] at htc
  | join tag left right conds ihl ihr =>
    rw [Plan.columns, List.mem_append, List.mem_append] at htc
    simp only [Plan.joinConds, List.mem_append]
    rcases htc with htc | htc | htc
    · obtain ⟨cond, hcond, htc⟩ := List.mem_flatMap.mp htc
      exact ⟨cond, .inl hcond, by simpa using htc⟩
    · obtain ⟨cond, hcond, htc⟩ := ihl h.2.1 htc
      exact ⟨cond, .inr (.inl hcond), htc⟩
    · obtain ⟨cond, hcond, htc⟩ := ihr h.2.2 htc
      exact ⟨cond, .inr (.inr hcond), htc⟩
  | _ => exact h.elim

/-- Choosing the join algorithms puts a key in front of every merge join, and sorts by columns of
the join conditions only. -/
theorem chooseJoinAlgorithm_columns (flag : ℕ → Bool) (h : tree.IsJoinTree) (reads : ℕ) :
    (chooseJoinAlgorithm flag tree reads).1.Keyed ∧
      (chooseJoinAlgorithm flag tree reads).1.columns ⊆ tree.columns := by
  induction tree generalizing reads with
  | scan scan => exact ⟨trivial, List.Subset.refl _⟩
  | join tag left right conds ihl ihr =>
    obtain ⟨rfl, hleft, hright⟩ := h
    unfold chooseJoinAlgorithm
    obtain ⟨hkeyl, hcolsl⟩ := ihl hleft reads
    generalize chooseJoinAlgorithm flag left reads = l at hkeyl hcolsl ⊢
    obtain ⟨left', readsl⟩ := l
    obtain ⟨hkeyr, hcolsr⟩ := ihr hright readsl
    simp only at hkeyl hcolsl hkeyr hcolsr ⊢
    generalize chooseJoinAlgorithm flag right readsl = r at hkeyr hcolsr ⊢
    obtain ⟨right', readsr⟩ := r
    simp only at hkeyr hcolsr ⊢
    have hsides : left'.columns ++ right'.columns ⊆ left.columns ++ right.columns :=
      List.append_subset.mpr ⟨List.subset_append_of_subset_left _ hcolsl,
        List.subset_append_of_subset_right _ hcolsr⟩
    have hnested : (Plan.join .nestLoop left' right' conds).Keyed ∧
        (Plan.join .nestLoop left' right' conds).columns ⊆
          (Plan.join .nestLoop left right conds).columns :=
      ⟨⟨by simp, hkeyl, hkeyr⟩, List.append_subset.mpr ⟨List.subset_append_left _ _,
        List.subset_append_of_subset_right _ hsides⟩⟩
    split_ifs
    · exact hnested
    · split
      · exact hnested
      · rename_i key conds' hrotate
        obtain ⟨hmem, hkey, hperm⟩ := rotateMergeKey_spec hrotate
        refine ⟨⟨fun _ => ⟨key, rotateMergeKey_head hrotate, hkey⟩, hkeyl, hkeyr⟩, ?_⟩
        have hcond : ∀ cond ∈ conds, ∀ tc, tc = cond.lhsCol ∨ tc = cond.rhsCol →
            tc ∈ (Plan.join .nestLoop left right conds).columns := by
          intro cond hcond tc htc
          exact List.mem_append_left _ (List.mem_flatMap.mpr ⟨cond, hcond, by simpa using htc⟩)
        intro tc htc
        simp only [Plan.columns, List.mem_append, List.mem_cons, List.mem_flatMap] at htc
        rcases htc with ⟨cond, hmem', htc⟩ | (rfl | htc) | (rfl | htc)
        · exact hcond cond (hperm.subset hmem') tc (by simpa using htc)
        · exact hcond key hmem _ (.inl rfl)
        · exact List.mem_append_right _ (List.mem_append_left _ (hcolsl htc))
        · exact hcond key hmem _ (.inr rfl)
        · exact List.mem_append_right _ (List.mem_append_right _ (hcolsr htc))
  | _ => exact h.elim

/-- The columns that the joins of a plan read are columns of the query's conditions. -/
theorem FromPlan.columns {root : Plan} (h : FromPlan db query root) (htree : root.IsJoinTree)
    {tc : TabCol} (htc : tc ∈ root.columns) :
    ∃ cond ∈ query.boundConds, cond.isRhsVal = false ∧ (tc = cond.lhsCol ∨ tc = cond.rhsCol) := by
  obtain ⟨cond', hcond', htc⟩ := columns_of_isJoinTree htree htc
  have hmem : cond' ∈ root.conds := List.mem_append_right _ hcond'
  obtain ⟨cond, hcond, hsame⟩ :=
    Multiset.exists_mem_of_rel_of_mem (Multiset.rel_flip.mpr h.conds) (Multiset.mem_coe.mpr hmem)
  have hcol' := h.wellScoped.isCol_of_mem hcond'
  refine ⟨cond, Multiset.mem_coe.mp hcond, ?_⟩
  rcases hsame with rfl | ⟨hcol, rfl⟩
  · exact ⟨hcol', htc⟩
  · exact ⟨hcol, htc.symm⟩

/-! ## SELECT -/

/-- A FROM clause that is accepted has a table. -/
theorem getTableNames_ne_nil {node : Ast.FromNode} (h : Analyzer.getTableNames node = .ok tables) :
    tables ≠ [] := by
  induction node using Analyzer.getTableNames.induct generalizing tables with
  | case1 => simp [Analyzer.getTableNames] at h
  | case2 tableName aliasName =>
    obtain ⟨_, -, h⟩ := bind_eq_ok.mp h
    rw [pure_eq_ok] at h
    simp [← h]
  | case3 subquery aliasName =>
    obtain ⟨_, -, h⟩ := bind_eq_ok.mp h
    simp at h
  | case4 type left right condition ihl _ =>
    rw [Analyzer.getTableNames] at h
    obtain ⟨_, -, h⟩ := bind_eq_ok.mp h
    obtain ⟨_, -, h⟩ := bind_eq_ok.mp h
    obtain ⟨leftNames, hleft, h⟩ := bind_eq_ok.mp h
    obtain ⟨rightNames, -, h⟩ := bind_eq_ok.mp h
    rw [pure_eq_ok] at h
    rw [← h]
    exact List.append_ne_nil_of_left_ne_nil (ihl hleft) _

/-- What the planner relies on in a SELECT that the analyzer has accepted: there is a table, the
tables exist and have columns, and the conditions and the sort column are over the tables. -/
structure Plannable (db : DbMeta) (query : AnalyzedQuery) : Prop where
  tables_ne : query.boundTables ≠ []
  tables_exist : ∀ t ∈ query.boundTables, ∃ tab, db.tabs[t]? = some tab ∧ tab.cols ≠ []
  conds : ∀ c ∈ query.boundConds, ∀ t ∈ c.tables, t ∈ query.boundTables
  orderCol : ∀ tc, query.boundOrderCol = some tc → tc.tabName ∈ query.boundTables

theorem analyzeSelect_plannable (hdb : db.Owned) {stmt : Ast.SelectStmt} {query₀ : AnalyzedQuery}
    (h : Analyzer.analyzeSelect db stmt query₀ = .ok query) : Plannable db query := by
  obtain ⟨tables, allCols, items, boundCols, orderCol, orderDesc, conds, boundConds, htables, hall,
    -, -, horder, hconds, hbound, rfl⟩ := Analyzer.analyzeSelect_eq_ok h
  have hcov := Analyzer.covers_getAllCols hdb hall
  constructor
  case tables_ne => exact getTableNames_ne_nil htables
  case tables_exist =>
    intro t ht
    obtain ⟨tab, htab⟩ := Analyzer.exists_of_getAllCols hall ht
    exact ⟨tab, htab, hdb.cols_ne t tab htab⟩
  case conds =>
    intro c hc t ht
    obtain ⟨col, ⟨hlhs, -⟩, hrhs⟩ := Analyzer.checkClause_sound hcov hconds hbound c hc
    unfold Condition.tables at ht
    split_ifs at ht hrhs with hval
    · rw [List.mem_singleton.mp ht]
      exact hlhs
    · obtain ⟨_, ⟨hrhs, -⟩, -⟩ := hrhs
      simp only [List.mem_cons, List.not_mem_nil, or_false] at ht
      rcases ht with rfl | rfl
      · exact hlhs
      · exact hrhs
  case orderCol =>
    rintro tc rfl
    obtain ⟨target, htarget⟩ := (Analyzer.analyzeOrderBy_binds (H := False) _ _).of_ok horder _ rfl
    obtain ⟨col, hscope, -⟩ := Analyzer.checkColumn_boundTo hcov htarget
    exact hscope

/-- `physical_optimization` returns a plan, in which every merge join has its key and every column
that a join or a sort reads is one of the query's. -/
theorem physicalOptimization_spec (h : Plannable db query) (flag : ℕ → Bool) :
    ∃ plan, physicalOptimization db flag query = .ok plan ∧ FromPlan db query plan ∧ plan.Keyed ∧
      ∀ tc ∈ plan.columns, query.boundOrderCol = some tc ∨
        ∃ cond ∈ query.boundConds, cond.isRhsVal = false ∧
          (tc = cond.lhsCol ∨ tc = cond.rhsCol) := by
  obtain ⟨root, hroot, htree, hfrom⟩ := buildFromPlan_spec h.tables_ne h.tables_exist h.conds
  obtain ⟨hwell', hscans, hperm⟩ := chooseJoinAlgorithm_spec flag hfrom.wellScoped 0
  obtain ⟨hkeyed, hcolumns⟩ := chooseJoinAlgorithm_columns flag htree 0
  generalize hchoose : (chooseJoinAlgorithm flag root 0).1 = root'
    at hwell' hscans hperm hkeyed hcolumns
  have hfrom' : FromPlan db query root' := by
    refine ⟨hwell', ?_, ?_, ?_⟩
    · rw [hscans]
      exact hfrom.scans
    · rw [Plan.tables, hscans]
      exact hfrom.tables
    · rw [Plan.conds, hscans, Multiset.coe_eq_coe.mpr (hperm.append_left _)]
      exact hfrom.conds
  have hcolumns' : ∀ tc ∈ root'.columns, ∃ cond ∈ query.boundConds,
      cond.isRhsVal = false ∧ (tc = cond.lhsCol ∨ tc = cond.rhsCol) := fun tc htc =>
    hfrom.columns htree (hcolumns htc)
  cases horder : query.boundOrderCol with
  | none =>
    refine ⟨root', ?_, hfrom', hkeyed, fun tc htc => .inr (hcolumns' tc htc)⟩
    simp only [physicalOptimization, hroot, ok_bind, hchoose, horder]
    rfl
  | some orderCol =>
    have hcol : orderCol.tabName ∈ root'.tables :=
      hfrom'.tables.mem_iff.mpr (h.orderCol orderCol horder)
    refine ⟨.sort .sort root' orderCol query.boundOrderDesc, ?_,
      ⟨.sort hcol hwell', hfrom'.scans, hfrom'.tables, hfrom'.conds⟩, hkeyed, fun tc htc => ?_⟩
    · simp only [physicalOptimization, hroot, ok_bind, hchoose, horder]
      rfl
    · rcases List.mem_cons.mp htc with rfl | htc
      · exact .inl rfl
      · exact .inr (hcolumns' tc htc)

/-- The plan of a SELECT denotes the cross product of its FROM tables, filtered by its conditions,
for all table contents and whatever the reads of the flag return. The plan scans each FROM table
once, and its conditions are those of the query, some with their operands swapped. -/
theorem physicalOptimization_denotes (db : DbMeta) (hdb : db.Owned) (stmt : Ast.SelectStmt)
    (query₀ query : AnalyzedQuery) (hquery : Analyzer.analyzeSelect db stmt query₀ = .ok query)
    (hnodup : query.boundTables.Nodup) (flag : ℕ → Bool) :
    ∃ plan, physicalOptimization db flag query = .ok plan ∧
      plan.tables.Perm query.boundTables ∧
      Multiset.Rel Condition.Same query.boundConds plan.conds ∧
      ∀ contents : Contents, plan.denote contents =
        (crossProduct (tableRows contents) query.boundTables).filter fun row =>
          ∀ cond ∈ query.boundConds, cond.holds row := by
  obtain ⟨plan, hplan, ⟨hwell, -, htables, hconds⟩, -⟩ :=
    physicalOptimization_spec (analyzeSelect_plannable hdb hquery) flag
  refine ⟨plan, hplan, htables, hconds, fun contents => ?_⟩
  rw [hwell.denote_eq (htables.nodup_iff.mpr hnodup),
    crossProduct_perm (supportedOn_tableRows contents) htables]
  refine Multiset.filter_congr fun row _ => ?_
  rw [Condition.all_eq_of_rel hconds row, List.all_eq_true]

/-- A table of the courses that students take. -/
def courseTable : TabMeta :=
  ⟨text "course", [⟨text "course", text "student_id", .int, 4, 0, false⟩,
    ⟨text "course", text "title", .string, 8, 4, false⟩], []⟩

/-- `select * from student, course where id = student_id and id > 3 order by title`. -/
def courseSelect : Ast.SelectStmt :=
  .mk [.star []] (.join .cross (.tableRef (text "student") []) (.tableRef (text "course") []) .null)
    (.logical .and
      (.binary (some ⟨[], text "id"⟩) .eq (.col ⟨[], text "student_id"⟩))
      (.binary (some ⟨[], text "id"⟩) .gt (.intLit 3)))
    [] .null [some (.mk (.col ⟨[], text "title"⟩) .asc)] none

/-- The plan of a join of two tables, with a merge join and a sort on top. -/
theorem physicalOptimization_denotes_course :
    ∃ query, Analyzer.analyzeSelect (studentDb.insert courseTable) courseSelect
        { boundStatement := .select courseSelect } = .ok query ∧
      query.boundTables = [text "student", text "course"] ∧ query.boundConds.length = 2 ∧
      ∃ plan, physicalOptimization (studentDb.insert courseTable) (fun _ => true) query = .ok plan ∧
        plan.tables.Perm query.boundTables ∧
        Multiset.Rel Condition.Same query.boundConds plan.conds ∧
        ∀ contents : Contents, plan.denote contents =
          (crossProduct (tableRows contents) query.boundTables).filter fun row =>
            ∀ cond ∈ query.boundConds, cond.holds row :=
  ⟨_, rfl, rfl, rfl, physicalOptimization_denotes _
    (studentDb_valid.insert (by decide)).owned courseSelect _ _ rfl (by decide) _⟩

end Planner

end Rucbase
