import Rucbase.Optimizer.IndexChoice
import Rucbase.Optimizer.Select
import Rucbase.Portal.Executors

/-!
# Every analyzed statement is planned, and its plan has executors

Planning a statement that the analyzer has accepted returns a plan, also when the FROM list repeats
a table (`planQuery_returns`). The plan of a SELECT is well scoped, and every column that a sort, a
merge join or the projection looks up is a column of a table that is scanned below it, so that the
constructors of all executors succeed (`planSelect_executable`).
-/

namespace Rucbase

open Lib

namespace Planner

/-! ## Scans that executors can read -/

/-- The scan reads a table of the catalog, through one of the table's indexes if it is an index
scan. -/
def Scannable (db : DbMeta) (scan : ScanPlan) : Prop :=
  ∃ tab, db.tabs[scan.tabName]? = some tab ∧
    (scan.tag = .seqScan ∨ ∃ index ∈ tab.indexes, index.colNames = scan.indexColNames)

variable {conds : List Condition} {db : DbMeta}

/-- The columns that are chosen are those of an index of the table. -/
theorem chooseIndex_spec {table : Bytes} {useIndex : Bool} {indexColumns : List Bytes}
    (h : chooseIndex db table conds = .ok (useIndex, indexColumns)) :
    ∃ tab, db.tabs[table]? = some tab ∧
      (useIndex = true → ∃ index ∈ tab.indexes, index.colNames = indexColumns) := by
  obtain ⟨tab, htab, -⟩ := bind_eq_ok.mp h
  obtain ⟨chosen, hrun, hkept⟩ := chooseIndex_kept htab conds
  obtain ⟨rfl, rfl⟩ : (!chosen.isEmpty) = useIndex ∧ chosen = indexColumns := by
    rw [hrun, Except.ok.injEq, Prod.mk.injEq] at h
    exact h
  refine ⟨tab, Analyzer.getTable_eq_ok.mp htab, fun huseIndex => ?_⟩
  rcases hkept with ⟨rfl, -⟩ | ⟨index, hlargest, rfl⟩
  · simp at huseIndex
  · exact ⟨index, hlargest.mem, rfl⟩

theorem makeScanPlan_scannable {table : Bytes} {plan : Plan}
    (h : makeScanPlan db table conds = .ok plan) :
    ∃ scan, plan = .scan scan ∧ Scannable db scan := by
  unfold makeScanPlan at h
  obtain ⟨⟨useIndex, indexColumns⟩, hchoose, h⟩ := bind_eq_ok.mp h
  obtain ⟨scan, hscan, h⟩ := bind_eq_ok.mp h
  obtain ⟨tab, htab, hindex⟩ := chooseIndex_spec hchoose
  rw [pure_eq_ok] at h
  refine ⟨scan, h.symm, tab, ?_⟩
  unfold ScanPlan.make at hscan
  obtain ⟨tab', -, hscan⟩ := bind_eq_ok.mp hscan
  split at hscan
  · simp at hscan
  · rw [pure_eq_ok] at hscan
    subst hscan
    refine ⟨htab, ?_⟩
    cases useIndex with
    | false => exact .inl rfl
    | true => exact .inr (hindex rfl)

theorem makeScanPlans_scannable {tables : List Bytes} {remaining : List Condition}
    {scans : List Plan} (h : makeScanPlans db tables conds = .ok (scans, remaining)) :
    ∀ scan ∈ scans.flatMap Plan.scans, Scannable db scan := by
  induction tables generalizing conds scans with
  | nil =>
    simp only [makeScanPlans, pure_eq_ok, Prod.mk.injEq] at h
    obtain ⟨rfl, -⟩ := h
    simp
  | cons table tables ih =>
    unfold makeScanPlans at h
    obtain ⟨plan, hplan, h⟩ := bind_eq_ok.mp h
    obtain ⟨⟨rest, remaining'⟩, hrest, h⟩ := bind_eq_ok.mp h
    simp only [pure_eq_ok, Prod.mk.injEq] at h
    obtain ⟨rfl, rfl⟩ := h
    obtain ⟨scan, rfl, hscan⟩ := makeScanPlan_scannable hplan
    rw [List.flatMap_cons, Plan.scans, List.singleton_append, List.forall_mem_cons]
    exact ⟨hscan, ih hrest⟩

/-! ## Every analyzed statement is planned -/

/-- The target of an analyzed INSERT, UPDATE or DELETE is a table with a name and a column. -/
theorem target_plannable (hdb : db.Valid) {tabName : Bytes} {table : TabMeta}
    (htab : db.getTable tabName = .ok table) (conds : List Condition) :
    table.name.isEmpty = false ∧ ∃ scan, makeScanPlan db table.name conds = .ok (.scan scan) := by
  rw [Analyzer.getTable_eq_ok] at htab
  have hvalid := hdb.tab_valid _ _ htab
  have hkey := hdb.key_eq _ _ htab
  rw [hkey] at htab
  obtain ⟨scan, hscan, -⟩ := makeScanPlan_spec htab hvalid.cols_ne conds
  exact ⟨by simpa using hvalid.name_ne, scan, hscan⟩

/-- `plan_select` returns a plan, of the scans that were made. -/
theorem planSelect_spec {query : AnalyzedQuery} (h : Plannable db query) (flag : ℕ → Bool) :
    ∃ root, planSelect db flag query =
        .ok (.select (.projection .projection root query.boundCols)) ∧
      FromPlan db query root ∧ root.Keyed ∧
      ∀ tc ∈ root.columns, query.boundOrderCol = some tc ∨
        ∃ cond ∈ query.boundConds, cond.isRhsVal = false ∧
          (tc = cond.lhsCol ∨ tc = cond.rhsCol) := by
  obtain ⟨root, hroot, hspec⟩ := physicalOptimization_spec h flag
  refine ⟨root, ?_, hspec⟩
  simp only [planSelect, logicalOptimization, hroot, ok_bind]
  rfl

/-- Planning a statement that the analyzer has accepted returns a plan. The plan of a SELECT holds
each of the scans that were made for its FROM list once. -/
theorem planQuery_returns (db : DbMeta) (hdb : db.Valid) (statement : Ast.Statement)
    (query : AnalyzedQuery) (hquery : Analyzer.analyze db statement = .ok query)
    (flag : ℕ → Bool) :
    ∃ plan, Optimizer.planQuery db flag query = .ok plan ∧
      ∀ stmt, statement = .select stmt → plan.tables.Perm query.boundTables ∧
        ∃ scans remaining,
          makeScanPlans db query.boundTables query.boundConds = .ok (scans, remaining) ∧
          plan.scans.Perm (scans.flatMap Plan.scans) := by
  cases statement with
  | null => simp [Analyzer.analyze] at hquery
  | select stmt =>
    have hplannable := analyzeSelect_plannable hdb.owned hquery
    have hstmt := (Analyzer.analyzeSelect_sound hdb hquery).statement_eq
    obtain ⟨root, hroot, hfrom, -⟩ := planSelect_spec hplannable flag
    refine ⟨.select (.projection .projection root query.boundCols), ?_,
      fun _ _ => ⟨hfrom.tables, hfrom.scans⟩⟩
    simp only [Optimizer.planQuery, doPlanner, hstmt]
    exact hroot
  | insert tabName values =>
    obtain ⟨table, htab, h⟩ := bind_eq_ok.mp hquery
    obtain ⟨_, -, h⟩ := bind_eq_ok.mp h
    obtain ⟨bound, -, h⟩ := bind_eq_ok.mp h
    rw [pure_eq_ok] at h
    obtain ⟨hname, -⟩ := target_plannable hdb htab []
    refine ⟨.insert query.boundTargetTable query.boundValues, ?_, by simp⟩
    simp [Optimizer.planQuery, doPlanner, ← h, throwIf, hname]
  | delete tabName whereExpr =>
    obtain ⟨table, htab, h⟩ := bind_eq_ok.mp hquery
    obtain ⟨conds, -, h⟩ := bind_eq_ok.mp h
    obtain ⟨boundConds, -, h⟩ := bind_eq_ok.mp h
    rw [pure_eq_ok] at h
    obtain ⟨hname, scan, hscan⟩ := target_plannable hdb htab boundConds
    refine ⟨.delete (.scan scan) query.boundTargetTable query.boundConds, ?_, by simp⟩
    simp [Optimizer.planQuery, doPlanner, ← h, throwIf, hname, hscan]
  | update tabName setClauses whereExpr =>
    obtain ⟨table, htab, h⟩ := bind_eq_ok.mp hquery
    obtain ⟨clauses, -, h⟩ := bind_eq_ok.mp h
    obtain ⟨conds, -, h⟩ := bind_eq_ok.mp h
    obtain ⟨boundConds, -, h⟩ := bind_eq_ok.mp h
    rw [pure_eq_ok] at h
    obtain ⟨hname, scan, hscan⟩ := target_plannable hdb htab boundConds
    refine ⟨.update (.scan scan) query.boundTargetTable query.boundConds query.boundSetClauses,
      ?_, by simp⟩
    simp [Optimizer.planQuery, doPlanner, ← h, throwIf, hname, hscan]
  | setKnob name value =>
    obtain ⟨_, -, h⟩ := bind_eq_ok.mp hquery
    rw [pure_eq_ok] at h
    exact ⟨_, by rw [← h]; rfl, by simp⟩
  | _ =>
    simp only [Analyzer.analyze, pure_eq_ok] at hquery
    exact ⟨_, by rw [← hquery]; rfl, by simp⟩

/-- `select student.id from student, student where student.id > 3`. -/
def selfSelect : Ast.SelectStmt :=
  .mk [.col ⟨text "student", text "id"⟩]
    (.join .cross (.tableRef (text "student") []) (.tableRef (text "student") []) .null)
    (.binary (some ⟨text "student", text "id"⟩) .gt (.intLit 3)) [] .null [] none

/-- A FROM list that names one table twice. -/
theorem planQuery_returns_self :
    ∃ query, Analyzer.analyze studentDb (.select selfSelect) = .ok query ∧
      query.boundTables = [text "student", text "student"] ∧
      ∃ plan, Optimizer.planQuery studentDb (fun _ => true) query = .ok plan ∧
        plan.tables.Perm query.boundTables := by
  refine ⟨_, rfl, rfl, ?_⟩
  obtain ⟨plan, hplan, hselect⟩ :=
    planQuery_returns studentDb studentDb_valid (.select selfSelect) _ rfl (fun _ => true)
  exact ⟨plan, hplan, (hselect selfSelect rfl).1⟩

/-! ## The executors of a SELECT -/

/-- The column is one of a table of the catalog. -/
def Known (db : DbMeta) (tc : TabCol) : Prop :=
  ∃ tab, db.tabs[tc.tabName]? = some tab ∧ ∃ col ∈ tab.cols, col.name = tc.colName

/-- The columns of the tables are among the exposed ones. -/
def Exposes (db : DbMeta) (cols : List ColMeta) (tables : List Bytes) : Prop :=
  ∀ t ∈ tables, ∀ tab, db.tabs[t]? = some tab → ∀ col ∈ tab.cols,
    ∃ exposed ∈ cols, exposed.tabName = t ∧ exposed.name = col.name

section Executors

variable {db : DbMeta} {fhs : List Bytes}

variable {tables : List Bytes}

/-- A known column of a table whose columns are exposed is found. -/
theorem Exposes.getCol {cols : List ColMeta} (h : Exposes db cols tables) {tc : TabCol}
    (hscope : tc.tabName ∈ tables) (hknown : Known db tc) :
    ∃ col, Executor.getCol cols tc = .ok col := by
  obtain ⟨tab, htab, col, hcol, hname⟩ := hknown
  obtain ⟨exposed, hmem, htabName, hexposed⟩ := h _ hscope tab htab col hcol
  have hfound : (cols.find? fun col =>
      col.tabName == tc.tabName && col.name == tc.colName).isSome := by
    rw [List.find?_isSome]
    exact ⟨exposed, hmem, by simp [htabName, hexposed, hname]⟩
  obtain ⟨found, hfind⟩ := Option.isSome_iff_exists.mp hfound
  exact ⟨found, by simp [Executor.getCol, hfind]⟩

theorem Exposes.joined {left right : Executor} {tables' : List Bytes}
    (hleft : Exposes db left.cols tables) (hright : Exposes db right.cols tables') :
    Exposes db (left.joined right).cols (tables ++ tables') := by
  intro t ht tab htab col hcol
  rw [Executor.joined]
  rcases List.mem_append.mp ht with ht | ht
  · obtain ⟨exposed, hmem, hexposed⟩ := hleft t ht tab htab col hcol
    exact ⟨exposed, List.mem_append_left _ hmem, hexposed⟩
  · -- The columns of the right side are moved, under the same names.
    obtain ⟨exposed, hmem, hexposed⟩ := hright t ht tab htab col hcol
    exact ⟨_, List.mem_append_right _ (List.mem_map_of_mem hmem), hexposed⟩

theorem ofTable_exposes (hdb : db.Owned) {tabName : Bytes} {tab : TabMeta}
    (htab : db.tabs[tabName]? = some tab) :
    ∃ executor, Executor.ofTable tab = .ok executor ∧ Exposes db executor.cols [tabName] := by
  have hne := hdb.cols_ne _ _ htab
  have hlast : tab.cols.getLast? = some (tab.cols.getLast hne) := List.getLast?_eq_some_getLast hne
  refine ⟨_, by rw [Executor.ofTable, hlast]; rfl, ?_⟩
  intro t ht tab' htab' col hcol
  rw [List.mem_singleton.mp ht] at htab' ⊢
  obtain rfl : tab' = tab := Option.some.inj (htab'.symm.trans htab)
  exact ⟨col, hcol, hdb.colTabName _ _ htab col hcol, rfl⟩

/-- The conditions of a well-scoped scan have a column of the table on the left. -/
theorem scan_convertible (hdb : db.Owned)
    (hfiles : ∀ (t : Bytes) (tab : TabMeta), db.tabs[t]? = some tab → t ∈ fhs) {scan : ScanPlan}
    (hwell : scan.WellScoped) (hscan : Scannable db scan) :
    ∃ executor, Portal.convertPlanExecutor db fhs (.scan scan) = .ok executor ∧
      Exposes db executor.cols [scan.tabName] := by
  obtain ⟨tab, htab, hindex⟩ := hscan
  obtain ⟨executor, hof, hexposes⟩ := ofTable_exposes hdb htab
  have hget : db.getTable scan.tabName = .ok tab := Analyzer.getTable_eq_ok.mpr htab
  have hfile := hfiles _ _ htab
  refine ⟨executor, ?_, hexposes⟩
  unfold Portal.convertPlanExecutor
  split_ifs with hseq
  · simp [Executor.seqScan, hget, throwIf, hfile, hof]
  · obtain ⟨index, hmem, hnames⟩ := hindex.resolve_left hseq
    have hfound : (tab.indexes.find? (TabMeta.matchesIndex · scan.indexColNames)).isSome := by
      rw [List.find?_isSome]
      exact ⟨index, hmem, by simp [TabMeta.matchesIndex, hnames]⟩
    obtain ⟨found, hfind⟩ := Option.isSome_iff_exists.mp hfound
    have hconds : (scan.conds.any fun cond => cond.lhsCol.tabName != scan.tabName &&
        !(!cond.isRhsVal && cond.rhsCol.tabName == scan.tabName)) = false := by
      rw [List.any_eq_false]
      intro cond hcond
      have hlhs : cond.lhsCol.tabName = scan.tabName := by
        apply hwell cond hcond
        unfold Condition.tables
        split <;> simp
      simp [hlhs]
    simp only [Executor.indexScan, hget, TabMeta.getIndexMeta, hfind, throwIf, hfile, hof, hconds,
      ok_bind, pure_bind, not_true, Bool.false_eq_true, if_false]
    rfl

/-- A plan whose columns are in scope and known has an executor. -/
theorem convertPlanExecutor_spec (hdb : db.Owned)
    (hfiles : ∀ (t : Bytes) (tab : TabMeta), db.tabs[t]? = some tab → t ∈ fhs) {plan : Plan}
    (hwell : plan.WellScoped) (hkeyed : plan.Keyed)
    (hscans : ∀ scan ∈ plan.scans, Scannable db scan) (hknown : ∀ tc ∈ plan.columns, Known db tc) :
    ∃ executor, Portal.convertPlanExecutor db fhs plan = .ok executor ∧
      Exposes db executor.cols plan.tables := by
  induction hwell with
  | scan h => exact scan_convertible hdb hfiles h (hscans _ (List.mem_singleton_self _))
  | @join tag left right conds hconds hl hr ihl ihr =>
    obtain ⟨hkey, hkeyl, hkeyr⟩ := hkeyed
    simp only [Plan.scans, Plan.columns, List.forall_mem_append] at hscans hknown
    obtain ⟨leftEx, hleft, hexl⟩ := ihl hkeyl hscans.1 hknown.2.1
    obtain ⟨rightEx, hright, hexr⟩ := ihr hkeyr hscans.2 hknown.2.2
    refine ⟨leftEx.joined rightEx, ?_, by rw [Plan.tables_join]; exact hexl.joined hexr⟩
    simp only [Portal.convertPlanExecutor, hleft, hright, ok_bind]
    split_ifs with hmerge
    · -- The merge key compares a column of the left side with one of the right side.
      obtain ⟨key, hhead, hmergeKey⟩ := hkey hmerge
      obtain ⟨rest, rfl⟩ : ∃ rest, conds = key :: rest := List.head?_eq_some_iff.mp hhead
      have hjoins := hconds key List.mem_cons_self
      have hcolumns : Known db key.lhsCol ∧ Known db key.rhsCol :=
        ⟨hknown.1 _ (by simp), hknown.1 _ (by simp)⟩
      obtain ⟨leftKey, hleftKey⟩ := hexl.getCol hjoins.lhs hcolumns.1
      obtain ⟨rightKey, hrightKey⟩ := hexr.getCol hjoins.rhs hcolumns.2
      have hop : key.isRhsVal = false ∧ key.op = .eq := by simpa [isMergeKey] using hmergeKey
      simp [Executor.mergeJoin, throwIf, hop, hleftKey, hrightKey]
    · rfl
  | @sort tag subplan selCol isDesc hcol hsub ih =>
    rw [Plan.columns, List.forall_mem_cons] at hknown
    obtain ⟨executor, hexecutor, hex⟩ := ih hkeyed hscans hknown.2
    obtain ⟨sortCol, hsortCol⟩ := hex.getCol hcol hknown.1
    refine ⟨executor, ?_, hex⟩
    simp [Portal.convertPlanExecutor, hexecutor, Executor.sort, hsortCol]

/-- The columns that the projection selects are found. -/
theorem selectCols_spec {cols : List ColMeta} (h : Exposes db cols tables) {selCols : List TabCol}
    (hcols : ∀ tc ∈ selCols, tc.tabName ∈ tables ∧ Known db tc) (offset : ℤ) :
    ∃ selected, Executor.selectCols cols selCols offset = .ok selected := by
  induction selCols generalizing offset with
  | nil => exact ⟨_, rfl⟩
  | cons selCol selCols ih =>
    obtain ⟨⟨hscope, hknown⟩, hcols⟩ := List.forall_mem_cons.mp hcols
    obtain ⟨col, hcol⟩ := h.getCol hscope hknown
    obtain ⟨⟨rest, endOffset⟩, hrest⟩ := ih hcols (offset + col.len)
    exact ⟨_, by simp only [Executor.selectCols, hcol, hrest, ok_bind]; rfl⟩

end Executors

/-- A column to which a reference is bound is known. -/
theorem known_of_boundTo {tables : List Bytes} {tc : TabCol} {col : ColMeta}
    (h : BoundTo db tables tc col) : Known db tc := by
  obtain ⟨-, tab, htab, hcol, hname⟩ := h
  exact ⟨tab, htab, col, hcol, hname⟩

/-- The columns of an analyzed SELECT are columns of its FROM tables. -/
theorem analyzeSelect_known (hdb : db.Owned) {stmt : Ast.SelectStmt}
    {query₀ query : AnalyzedQuery} (h : Analyzer.analyzeSelect db stmt query₀ = .ok query) :
    (∀ tc ∈ query.boundCols, tc.tabName ∈ query.boundTables ∧ Known db tc) ∧
      (∀ tc, query.boundOrderCol = some tc → Known db tc) ∧
      ∀ cond ∈ query.boundConds, cond.isRhsVal = false →
        Known db cond.lhsCol ∧ Known db cond.rhsCol := by
  obtain ⟨tables, allCols, items, boundCols, orderCol, orderDesc, conds, boundConds, -, hall,
    -, hcols, horder, hconds, hbound, rfl⟩ := Analyzer.analyzeSelect_eq_ok h
  have hcov := Analyzer.covers_getAllCols hdb hall
  refine ⟨?_, ?_, ?_⟩
  · intro tc htc
    obtain ⟨target, -, htarget⟩ := exists_of_mem_mapM hcols htc
    obtain ⟨col, hcol⟩ := Analyzer.checkColumn_boundTo hcov htarget
    exact ⟨hcol.1, known_of_boundTo hcol⟩
  · rintro tc rfl
    obtain ⟨target, htarget⟩ := (Analyzer.analyzeOrderBy_binds (H := False) _ _).of_ok horder _ rfl
    obtain ⟨col, hcol⟩ := Analyzer.checkColumn_boundTo hcov htarget
    exact known_of_boundTo hcol
  · intro cond hcond hval
    obtain ⟨col, hlhs, hrhs⟩ := Analyzer.checkClause_sound hcov hconds hbound cond hcond
    rw [hval] at hrhs
    obtain ⟨rhsCol, hrhs, -⟩ := hrhs
    exact ⟨known_of_boundTo hlhs, known_of_boundTo hrhs⟩

/-- The plan of an analyzed SELECT is well scoped: each condition of a join compares a column of a
table on its left with one of a table on its right, each condition of a scan reads its table only,
and the columns of sorts and of the projection are of tables that are scanned below. All of them are
found by the executors, whatever the flag says: with the record files open, every constructor
succeeds. -/
theorem planSelect_executable (db : DbMeta) (hdb : db.Owned) (stmt : Ast.SelectStmt)
    (query₀ query : AnalyzedQuery) (hquery : Analyzer.analyzeSelect db stmt query₀ = .ok query)
    (flag : ℕ → Bool) (fhs : List Bytes)
    (hfiles : ∀ (t : Bytes) (tab : TabMeta), db.tabs[t]? = some tab → t ∈ fhs) :
    ∃ root, planSelect db flag query =
        .ok (.select (.projection .projection root query.boundCols)) ∧
      root.WellScoped ∧ (∀ tc ∈ query.boundCols, tc.tabName ∈ root.tables) ∧
      ∃ executor,
        Portal.convertPlanExecutor db fhs (.projection .projection root query.boundCols) =
          .ok executor := by
  obtain ⟨hcols, horder, hconds⟩ := analyzeSelect_known hdb hquery
  obtain ⟨root, hroot, hfrom, hkeyed, hcolumns⟩ :=
    planSelect_spec (analyzeSelect_plannable hdb hquery) flag
  have hscope : ∀ tc ∈ query.boundCols, tc.tabName ∈ root.tables := fun tc htc =>
    hfrom.tables.mem_iff.mpr (hcols tc htc).1
  have hscans : ∀ scan ∈ root.scans, Scannable db scan := by
    obtain ⟨scans, remaining, hmake, hperm⟩ := hfrom.scans
    exact fun scan hscan => makeScanPlans_scannable hmake scan (hperm.subset hscan)
  have hknown : ∀ tc ∈ root.columns, Known db tc := by
    intro tc htc
    rcases hcolumns tc htc with hsort | ⟨cond, hcond, hval, rfl | rfl⟩
    · exact horder tc hsort
    · exact (hconds cond hcond hval).1
    · exact (hconds cond hcond hval).2
  obtain ⟨executor, hexecutor, hexposes⟩ :=
    convertPlanExecutor_spec hdb hfiles hfrom.wellScoped hkeyed hscans hknown
  obtain ⟨⟨cols, len⟩, hselect⟩ :=
    selectCols_spec hexposes (fun tc htc => ⟨hscope tc htc, (hcols tc htc).2⟩) 0
  refine ⟨root, hroot, hfrom.wellScoped, hscope, ⟨cols, len⟩, ?_⟩
  simp [Portal.convertPlanExecutor, hexecutor, Executor.projection, hselect]

/-- The join of two tables that are both open. -/
theorem planSelect_executable_course :
    ∃ query, Analyzer.analyzeSelect (studentDb.insert courseTable) courseSelect
        { boundStatement := .select courseSelect } = .ok query ∧
      query.boundCols.length = 4 ∧
      ∃ root, planSelect (studentDb.insert courseTable) (fun _ => true) query =
          .ok (.select (.projection .projection root query.boundCols)) ∧ root.WellScoped := by
  have hfiles : ∀ (t : Bytes) (tab : TabMeta),
      (studentDb.insert courseTable).tabs[t]? = some tab → t ∈ [text "student", text "course"] := by
    intro t tab htab
    rw [DbMeta.getElem?_insert, studentDb, DbMeta.getElem?_insert] at htab
    split_ifs at htab with hcourse hstudent
    · simp [← hcourse, courseTable]
    · simp [← hstudent, studentTable]
    · simp [DbMeta.empty] at htab
  refine ⟨_, rfl, rfl, ?_⟩
  obtain ⟨root, hroot, hwell, -⟩ := planSelect_executable _
    (studentDb_valid.insert (by decide)).owned courseSelect _ _ rfl (fun _ => true) _ hfiles
  exact ⟨root, hroot, hwell⟩

end Planner

end Rucbase
