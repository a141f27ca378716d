import Rucbase.Analyze.Analyzer

/-!
# Analysis is sound

What a query that `analyze` returns may be relied on for. Over a valid catalog, its tables exist,
its columns are columns of those tables, the two sides of every condition and assignment have one
type, and every literal carries its encoding for the column it meets (`analyze_sound`). The
assertions of `Value::init_raw` hold on every statement, accepted or not.

The proofs go function by function, in the order of the calls, and say of each of them what it
returns and that no assertion fails in it (`Binds`). A reference that `checkColumn` returns is a
visible column (`checkColumn_binds`), and the visible columns of a valid catalog are columns of the
tables in scope (`Covers`). `checkCond` and `analyzeSetClause` then look up the column a second
time, by table and name, and everything they check is about that one column.
-/

namespace Rucbase

open Lib

/-- `tc` is bound to `col`, a column of one of the tables in scope. -/
def BoundTo (db : DbMeta) (tables : List Bytes) (tc : TabCol) (col : ColMeta) : Prop :=
  tc.tabName ∈ tables ∧ ∃ tab, db.tabs[tc.tabName]? = some tab ∧ col ∈ tab.cols ∧
    col.name = tc.colName

/-- The value carries its own encoding for the column, in a buffer of the column's length. -/
def Value.EncodedFor (v : Value) (col : ColMeta) : Prop :=
  v.type = col.type ∧ v.raw = some (v.encoding col.len) ∧
    ((v.encoding col.len).length : ℤ) = col.len

/-- A condition compares a column in scope with a literal of its type, encoded for it, or with a
column in scope of its type. -/
def Condition.Sound (db : DbMeta) (tables : List Bytes) (cond : Condition) : Prop :=
  ∃ col, BoundTo db tables cond.lhsCol col ∧
    if cond.isRhsVal then cond.rhsVal.EncodedFor col
    else ∃ rhsCol, BoundTo db tables cond.rhsCol rhsCol ∧ rhsCol.type = col.type

/-- An assignment gives a column in scope a literal of its type, encoded for it. -/
def SetClause.Sound (db : DbMeta) (tables : List Bytes) (clause : SetClause) : Prop :=
  ∃ col, BoundTo db tables clause.lhs col ∧ clause.rhs.EncodedFor col

/-- The columns that a star stands for: those of the FROM tables it matches, in FROM order and each
table's in declaration order. -/
def starColumns (db : DbMeta) (tables : List Bytes) (tabName : Bytes) : List TabCol :=
  (tables.filter fun t => tabName = [] ∨ t = tabName).flatMap fun t =>
    ((db.tabs[t]?.map TabMeta.cols).getD []).map fun col => ⟨t, col.name⟩

/-- What an item of the select list is bound to: a column to itself, with the table filled in when
it is not written, and a star to the columns it stands for. -/
def ItemBinding (db : DbMeta) (tables : List Bytes) : Ast.Expr → List TabCol → Prop
  | .col column, cols => ∃ tc : TabCol, cols = [tc] ∧ tc.colName = column.colName ∧
      (column.tabName ≠ [] → tc.tabName = column.tabName)
  | .star tabName, cols => cols = starColumns db tables tabName
  | _, _ => False

/-- The tables of a query: those of FROM, and the target of an INSERT, UPDATE or DELETE. -/
def AnalyzedQuery.scope (query : AnalyzedQuery) : List Bytes :=
  query.boundTables ++ if query.boundTargetTable = [] then [] else [query.boundTargetTable]

/-- What holds of an analyzed query. -/
structure AnalyzedQuery.Sound (db : DbMeta) (statement : Ast.Statement) (query : AnalyzedQuery) :
    Prop where
  /-- The query is that of the statement. -/
  statement_eq : query.boundStatement = statement
  /-- Its tables exist. -/
  scope_exist : ∀ t ∈ query.scope, ∃ tab, db.tabs[t]? = some tab
  /-- The projected columns and the sort column are columns of its tables, -/
  cols : ∀ tc ∈ query.boundCols, ∃ col, BoundTo db query.scope tc col
  orderCol : ∀ tc, query.boundOrderCol = some tc → ∃ col, BoundTo db query.scope tc col
  /-- and so are those of the conditions and the assignments. -/
  conds : ∀ cond ∈ query.boundConds, cond.Sound db query.scope
  setClauses : ∀ clause ∈ query.boundSetClauses, clause.Sound db query.scope
  /-- The values of an INSERT are its literals, one for each column in order, encoded for it. -/
  values : ∀ tabName literals, statement = .insert tabName literals →
    ∃ tab, db.tabs[query.boundTargetTable]? = some tab ∧
      List.Forall₂ Value.EncodedFor query.boundValues tab.cols ∧
      List.Forall₂ (fun e (v : Value) => Analyzer.convertAstValue e = .ok { v with raw := none })
        literals query.boundValues
  /-- Other statements have no values. -/
  values_nil : (∀ tabName literals, statement ≠ .insert tabName literals) → query.boundValues = []
  /-- The projection is the select list with its stars replaced. -/
  selectItems : ∀ stmt, statement = .select stmt → ∃ bindings,
    List.Forall₂ (ItemBinding db query.boundTables) stmt.selectItems bindings ∧
      query.boundCols = bindings.flatten

namespace Analyzer

/-- A part of the analysis returns something with `P`. Where `H` holds, no assertion fails in it. -/
abbrev Binds {α : Type} (H : Prop) (x : Except Error α) (P : α → Prop) : Prop :=
  Ends x P fun e => H → e ≠ .assertionFailed

/-- A check that passes rules its condition out. -/
theorem binds_throwIf {H p : Prop} [Decidable p] {e : Error} (he : e ≠ .assertionFailed) :
    Binds H (throwIf p e) fun _ => ¬p :=
  ends_throwIf fun _ => he

/-! ## Lookups in the catalog -/

variable {H : Prop} {db : DbMeta} {tab table : TabMeta} {tabName colName : Bytes} {col : ColMeta}
  {allCols : List ColMeta} {target tc : TabCol} {tables : List Bytes} {e : Ast.Expr} {v : Value}
  {conds : List Condition} {query : AnalyzedQuery}

/-- `get_table` returns the table of the name. -/
theorem getTable_eq_ok : db.getTable tabName = .ok tab ↔ db.tabs[tabName]? = some tab := by
  unfold DbMeta.getTable
  split <;> simp_all

/-- `get_table` throws no assertion. -/
theorem getTable_binds (db : DbMeta) (tabName : Bytes) :
    Binds H (db.getTable tabName) fun tab => db.tabs[tabName]? = some tab := by
  unfold DbMeta.getTable
  split <;> simp_all

/-- `get_col` returns a column of the table with the name. -/
theorem getCol_binds (tab : TabMeta) (colName : Bytes) :
    Binds H (tab.getCol colName) fun col => col ∈ tab.cols ∧ col.name = colName := by
  unfold TabMeta.getCol
  split
  · rename_i col hfind
    exact ⟨List.mem_of_find?_eq_some hfind, by simpa using List.find?_some hfind⟩
  · simp

/-- Every visible column is a column of one of the tables in scope, the one it names. -/
def Covers (db : DbMeta) (tables : List Bytes) (allCols : List ColMeta) : Prop :=
  ∀ col ∈ allCols, col.tabName ∈ tables ∧ ∃ tab, db.tabs[col.tabName]? = some tab ∧ col ∈ tab.cols

/-- The columns of a table are those in the scope of its name. -/
theorem covers_table (hdb : db.Valid) (htab : db.tabs[tabName]? = some tab) :
    Covers db [tab.name] tab.cols := by
  intro col hcol
  have hname := (hdb.tab_valid _ _ htab).colTabName col hcol
  have hkey := hdb.key_eq _ _ htab
  rw [hname]
  exact ⟨List.mem_singleton_self _, tab, hkey ▸ htab, hcol⟩

/-- `get_all_cols` puts the columns of the tables one behind the other. -/
theorem getAllCols_eq_ok {tabNames : List Bytes} (h : getAllCols db tabNames = .ok allCols) :
    ∃ tabs, List.Forall₂ (fun t tab => db.tabs[t]? = some tab) tabNames tabs ∧
      allCols = tabs.flatMap TabMeta.cols := by
  obtain ⟨tabs, htabs, h⟩ := bind_eq_ok.mp h
  rw [pure_eq_ok] at h
  exact ⟨tabs, (mapM_eq_ok.mp htabs).imp fun t tab ht => getTable_eq_ok.mp ht, h.symm⟩

/-- The columns of the tables in a scope are those of the scope. -/
theorem covers_getAllCols (hdb : db.Owned) {tabNames : List Bytes}
    (h : getAllCols db tabNames = .ok allCols) : Covers db tabNames allCols := by
  obtain ⟨tabs, htabs, h⟩ := bind_eq_ok.mp h
  rw [pure_eq_ok] at h
  subst h
  intro col hcol
  obtain ⟨tab, hmem, hcol⟩ := List.mem_flatMap.mp hcol
  obtain ⟨t, ht, htab⟩ := exists_of_mem_mapM htabs hmem
  rw [getTable_eq_ok] at htab
  rw [hdb.colTabName t tab htab col hcol]
  exact ⟨ht, tab, htab, hcol⟩

/-! ## Column references -/

/-- The loop over the visible columns ends with the table it had or with that of a column of the
name. -/
theorem resolveUnqualified_binds (colName : Bytes) (cols : List ColMeta) (tabName : Bytes) :
    Binds H (resolveUnqualified colName cols tabName) fun r =>
      r = tabName ∨ ∃ col ∈ cols, col.name = colName ∧ col.tabName = r := by
  induction cols generalizing tabName with
  | nil => exact .inl rfl
  | cons col cols ih =>
    rw [resolveUnqualified]
    split_ifs with hname
    · refine (binds_throwIf (by simp)).bind fun _ _ _ => (ih col.tabName).imp fun r hr => .inr ?_
      rcases hr with rfl | ⟨col', hmem, hcol'⟩
      · exact ⟨col, List.mem_cons_self, hname, rfl⟩
      · exact ⟨col', List.mem_cons_of_mem _ hmem, hcol'⟩
    · refine (ih tabName).imp fun r hr => hr.imp_right ?_
      rintro ⟨col', hmem, hcol'⟩
      exact ⟨col', List.mem_cons_of_mem _ hmem, hcol'⟩

/-- A reference that `checkColumn` returns is a visible column, the one that was asked for. -/
theorem checkColumn_binds (allCols : List ColMeta) (target : TabCol) :
    Binds H (checkColumn allCols target) fun tc =>
      (∃ col ∈ allCols, col.tabName = tc.tabName ∧ col.name = tc.colName) ∧
        tc.colName = target.colName ∧ (target.tabName ≠ [] → tc.tabName = target.tabName) := by
  unfold checkColumn
  split_ifs with hempty hany
  · refine (resolveUnqualified_binds _ _ _).bind fun r _ hr => ?_
    refine (binds_throwIf (by simp)).bind fun _ _ hne => ?_
    rcases hr with h | ⟨col, hmem, hname, htab⟩
    · exact absurd h hne
    · exact ⟨⟨col, hmem, htab, hname⟩, rfl, fun h => absurd hempty h⟩
  · obtain ⟨col, hmem, hcol⟩ := List.any_eq_true.mp hany
    simp only [Bool.and_eq_true, beq_iff_eq] at hcol
    exact ⟨⟨col, hmem, hcol.1, hcol.2⟩, rfl, fun _ => rfl⟩
  · simp

/-- A column that passes its check is bound to a column of the scope. -/
theorem checkColumn_boundTo (hcov : Covers db tables allCols)
    (h : checkColumn allCols target = .ok tc) : ∃ col, BoundTo db tables tc col := by
  obtain ⟨⟨col, hmem, htab, hname⟩, -⟩ := (checkColumn_binds (H := False) _ _).of_ok h
  obtain ⟨hscope, tab, htabs, hcol⟩ := hcov col hmem
  rw [htab] at hscope htabs
  exact ⟨col, hscope, tab, htabs, hcol, hname⟩

/-- A column that a star stands for is bound to itself. -/
theorem checkColumn_visible (hmem : col ∈ allCols) (hne : col.tabName ≠ []) :
    checkColumn allCols ⟨col.tabName, col.name⟩ = .ok ⟨col.tabName, col.name⟩ := by
  have hany : (allCols.any fun candidate =>
      candidate.tabName == col.tabName && candidate.name == col.name) = true :=
    List.any_eq_true.mpr ⟨col, hmem, by simp⟩
  simp only [checkColumn, hne, if_false, hany, if_true]
  rfl

/-! ## Literals and conditions -/

/-- A literal has no buffer yet. -/
theorem convertAstValue_binds (e : Ast.Expr) : Binds H (convertAstValue e) (·.raw = none) := by
  unfold convertAstValue
  split <;> simp [Value.setInt, Value.setFloat, Value.setStr]

/-- Encoding a literal for a column of its type gives a value encoded for the column. -/
theorem initRaw_binds (hraw : v.raw = none) (htype : v.type = col.type)
    (hlen : H → col.type ≠ .string → col.len = 4) :
    Binds H (v.initRaw col.len) fun v' => v'.EncodedFor col ∧ { v' with raw := none } = v := by
  cases hrun : v.initRaw col.len with
  | error e =>
    rintro hH rfl
    exact Value.initRaw_ne_assertionFailed hraw (htype ▸ hlen hH) hrun
  | ok v' =>
    obtain ⟨rfl, hlength, -⟩ := Value.initRaw_spec hrun
    exact ⟨⟨htype, rfl, hlength⟩, by rw [← hraw]⟩

/-- The value of a comparison is not encoded yet. -/
theorem comparisonClause_binds (lhs : Ast.Col) (op : Ast.CompOp) (rhs : Ast.Expr) :
    Binds H (comparisonClause lhs op rhs) (·.rhsVal.raw = none) := by
  unfold comparisonClause
  split
  all_goals
    first
    | exact (convertAstValue_binds _).bind fun _ _ hraw => hraw
    | simp

/-- No literal that the flattening collects has a buffer yet. -/
theorem appendClause_binds (e : Ast.Expr) (conds : List Condition)
    (hconds : ∀ c ∈ conds, c.rhsVal.raw = none) :
    Binds H (appendClause e conds) fun r => ∀ c ∈ r, c.rhsVal.raw = none := by
  -- The recursion is into the two sides of an AND; a comparison adds one condition.
  induction e, conds using appendClause.induct with
  | case2 conds op lhs rhs ihl ihr =>
    rw [appendClause]
    refine (binds_throwIf (by simp)).bind fun _ _ _ => ?_
    exact (ihl hconds).bind fun mid _ hmid => ihr mid hmid
  | case5 conds lhs op rhs =>
    rw [appendClause]
    refine (comparisonClause_binds _ _ _).bind fun c _ hc => ?_
    exact List.forall_mem_append.mpr ⟨hconds, List.forall_mem_singleton.mpr hc⟩
  | _ => simp [appendClause]

/-- The values of a WHERE clause are not encoded yet. -/
theorem getClause_binds (e : Ast.Expr) :
    Binds H (getClause e) fun conds => ∀ c ∈ conds, c.rhsVal.raw = none := by
  unfold getClause
  split_ifs
  · simp
  · exact appendClause_binds _ _ (by simp)

/-- A reference that `checkColumn` returned, looked up again by table and name, is the column it is
bound to. -/
theorem lookup_boundTo (hcov : Covers db tables allCols) (h : checkColumn allCols target = .ok tc)
    (htab : db.tabs[tc.tabName]? = some tab) (hcol : col ∈ tab.cols ∧ col.name = tc.colName) :
    BoundTo db tables tc col := by
  obtain ⟨_, hscope, -⟩ := checkColumn_boundTo hcov h
  exact ⟨hscope, tab, htab, hcol⟩

/-- The columns of a table in scope have the lengths of their types. -/
theorem boundTo_len (h : BoundTo db tables tc col) (hdb : db.Valid) :
    col.type ≠ .string → col.len = 4 := by
  obtain ⟨-, tab, htab, hcol, -⟩ := h
  exact ((hdb.tab_valid _ _ htab).validLen col hcol).2

/-- A condition is checked and its value encoded for the column on its left. -/
theorem checkCond_binds (hcov : Covers db tables allCols) {cond : Condition}
    (hraw : cond.rhsVal.raw = none) :
    Binds db.Valid (checkCond db allCols cond) (Condition.Sound db tables) := by
  unfold checkCond
  refine (checkColumn_binds _ _).bind fun lhsCol hlhs _ => ?_
  cases cond.isRhsVal with
  | true =>
    simp only [if_true, pure_bind]
    refine (getTable_binds _ _).bind fun lhsTab _ hlhsTab => ?_
    refine (getCol_binds _ _).bind fun lhsMeta _ hlhsMeta => ?_
    refine (binds_throwIf (by simp)).bind fun _ _ htype => ?_
    have hbound := lookup_boundTo hcov hlhs hlhsTab hlhsMeta
    refine (initRaw_binds hraw (not_not.mp htype).symm (boundTo_len hbound)).bind fun _ _ hv => ?_
    exact ⟨lhsMeta, hbound, by simpa using hv.1⟩
  | false =>
    simp only [Bool.false_eq_true, if_false, pure_bind, bind_assoc]
    refine (checkColumn_binds _ _).bind fun rhsCol hrhs _ => ?_
    refine (getTable_binds _ _).bind fun lhsTab _ hlhsTab => ?_
    refine (getCol_binds _ _).bind fun lhsMeta _ hlhsMeta => ?_
    refine (getTable_binds _ _).bind fun rhsTab _ hrhsTab => ?_
    refine (getCol_binds _ _).bind fun rhsMeta _ hrhsMeta => ?_
    refine (binds_throwIf (by simp)).bind fun _ _ htype => ?_
    refine ⟨lhsMeta, lookup_boundTo hcov hlhs hlhsTab hlhsMeta, ?_⟩
    rw [if_neg Bool.false_ne_true]
    exact ⟨rhsMeta, lookup_boundTo hcov hrhs hrhsTab hrhsMeta, (not_not.mp htype).symm⟩

/-- The conditions of a clause are checked one by one. -/
theorem checkClause_binds (hcov : Covers db tables allCols)
    (hraw : ∀ c ∈ conds, c.rhsVal.raw = none) :
    Binds db.Valid (checkClause db allCols conds) fun conds' => ∀ c ∈ conds', c.Sound db tables :=
  Ends.mapM fun c hc => checkCond_binds hcov (hraw c hc)

/-- The conditions that come of a WHERE clause are sound. -/
theorem checkClause_sound (hcov : Covers db tables allCols) {conds' : List Condition}
    (hconds : getClause e = .ok conds) (h : checkClause db allCols conds = .ok conds') :
    ∀ c ∈ conds', c.Sound db tables :=
  (checkClause_binds hcov ((getClause_binds (H := False) e).of_ok hconds)).of_ok h

/-! ## UPDATE, DELETE and INSERT -/

/-- An assignment is bound to a column of the table, and its value encoded for it. -/
theorem analyzeSetClause_binds (hdb : db.Valid) (htab : db.tabs[tabName]? = some table)
    (astClause : Option Ast.SetClause) :
    Binds db.Valid (analyzeSetClause table astClause) (SetClause.Sound db [table.name]) := by
  have hcov := covers_table hdb htab
  have hkey := hdb.key_eq _ _ htab
  subst hkey
  unfold analyzeSetClause
  split
  case h_4 =>
    refine (checkColumn_binds _ _).bind fun target htarget _ => ?_
    refine (binds_throwIf (by simp)).bind fun _ _ _ => ?_
    refine (convertAstValue_binds _).bind fun value _ hraw => ?_
    refine (getCol_binds _ _).bind fun column _ hcolumn => ?_
    refine (binds_throwIf (by simp)).bind fun _ _ htype => ?_
    obtain ⟨_, hscope, -⟩ := checkColumn_boundTo hcov htarget
    have hbound : BoundTo db [table.name] target column :=
      ⟨hscope, table, List.mem_singleton.mp hscope ▸ htab, hcolumn⟩
    refine (initRaw_binds hraw (not_not.mp htype).symm (boundTo_len hbound)).bind fun _ _ hv => ?_
    exact ⟨column, hbound, hv.1⟩
  all_goals simp

/-- A value of an INSERT is converted and encoded for its column. -/
theorem analyzeInsertValue_binds (e : Ast.Expr) (hlen : H → col.type ≠ .string → col.len = 4) :
    Binds H (analyzeInsertValue e col) fun v =>
      v.EncodedFor col ∧ convertAstValue e = .ok { v with raw := none } := by
  unfold analyzeInsertValue
  refine (binds_throwIf (by simp)).bind fun _ _ _ => ?_
  refine (convertAstValue_binds e).bind fun value hvalue hraw => ?_
  refine (binds_throwIf (by simp)).bind fun _ _ htype => ?_
  refine (initRaw_binds hraw (not_not.mp htype) hlen).imp fun v hv => ⟨hv.1, ?_⟩
  rw [hv.2]
  exact hvalue

/-! ## SELECT -/

/-- The visible columns that a star matches are those of the FROM tables it matches. -/
theorem filter_allCols (hdb : db.Owned) {tabs : List TabMeta}
    (h : List.Forall₂ (fun t tab => db.tabs[t]? = some tab) tables tabs) (tabName : Bytes) :
    ((tabs.flatMap TabMeta.cols).filter fun col => tabName = [] ∨ col.tabName = tabName).map
      (fun col => (⟨col.tabName, col.name⟩ : TabCol)) = starColumns db tables tabName := by
  induction h with
  | nil => rfl
  | @cons t tab tables tabs htab _ ih =>
    have hown := hdb.colTabName t tab htab
    have hhead : (tab.cols.filter fun col => tabName = [] ∨ col.tabName = tabName) =
        if tabName = [] ∨ t = tabName then tab.cols else [] := by
      split_ifs with hmatch
      · exact List.filter_eq_self.mpr fun col hcol => by simpa [hown col hcol] using hmatch
      · exact List.filter_eq_nil_iff.mpr fun col hcol => by simpa [hown col hcol] using hmatch
    have hmap : tab.cols.map (fun col => (⟨col.tabName, col.name⟩ : TabCol)) =
        tab.cols.map fun col => ⟨t, col.name⟩ :=
      List.map_congr_left fun col hcol => by rw [hown col hcol]
    rw [List.flatMap_cons, List.filter_append, List.map_append, ih, hhead]
    by_cases hmatch : tabName = [] ∨ t = tabName
    · simp [starColumns, hmatch, htab, hmap]
    · simp [starColumns, hmatch]

/-- The binding of the columns that a select item stands for. -/
theorem expandItem_binding (hdb : db.Valid) (hall : getAllCols db tables = .ok allCols)
    {item : Ast.Expr} {expanded bound : List TabCol}
    (hexp : expandItem tables allCols item = .ok expanded)
    (hbound : expanded.mapM (checkColumn allCols) = .ok bound) :
    ItemBinding db tables item bound := by
  unfold expandItem at hexp
  split at hexp
  case h_2 column =>
    rw [pure_eq_ok] at hexp
    subst hexp
    rw [mapM_eq_ok] at hbound
    obtain ⟨tc, rest, htc, hrest, rfl⟩ := List.forall₂_cons_left_iff.mp hbound
    rw [List.forall₂_nil_left_iff.mp hrest]
    obtain ⟨-, hname, htab⟩ := (checkColumn_binds (H := False) _ _).of_ok htc
    exact ⟨tc, rfl, hname, htab⟩
  case h_3 tabName =>
    obtain ⟨_, -, hexp⟩ := bind_eq_ok.mp hexp
    rw [pure_eq_ok] at hexp
    obtain ⟨tabs, htabs, rfl⟩ := getAllCols_eq_ok hall
    -- Every column that a star stands for is visible under its own name, and so bound to itself.
    have hself : expanded.mapM (checkColumn (tabs.flatMap TabMeta.cols)) = .ok expanded := by
      refine mapM_eq_self fun tc htc => ?_
      rw [← hexp] at htc
      obtain ⟨col, hcol, rfl⟩ := List.mem_map.mp htc
      have hmem := List.mem_of_mem_filter hcol
      obtain ⟨-, tab, htab, -⟩ := covers_getAllCols hdb.owned hall col hmem
      refine checkColumn_visible hmem fun hempty => ?_
      exact (hdb.tab_valid _ _ htab).name_ne (by rw [← hdb.key_eq _ _ htab, hempty])
    rw [hself, Except.ok.injEq] at hbound
    rw [filter_allCols hdb.owned htabs] at hexp
    exact (hbound ▸ hexp.symm : bound = _)
  all_goals exact absurd hexp (throw_ne_ok _ _)

/-- Each item of a SELECT is bound to what it stands for. -/
theorem expandItems_binding (hdb : db.Valid) (hall : getAllCols db tables = .ok allCols)
    {selectItems : List Ast.Expr} {items bindings : List (List TabCol)}
    (hitems : List.Forall₂ (fun e r => expandItem tables allCols e = .ok r) selectItems items)
    (hbindings : List.Forall₂ (fun xs ys => xs.mapM (checkColumn allCols) = .ok ys) items
      bindings) : List.Forall₂ (ItemBinding db tables) selectItems bindings := by
  induction hitems generalizing bindings with
  | nil =>
    rw [List.forall₂_nil_left_iff.mp hbindings]
    exact .nil
  | cons hitem _ ih =>
    obtain ⟨b, bs, hb, hbs, rfl⟩ := List.forall₂_cons_left_iff.mp hbindings
    exact .cons (expandItem_binding hdb hall hitem hb) (ih hbs)

/-- Expanding an item throws no assertion. -/
theorem expandItem_binds (tables : List Bytes) (allCols : List ColMeta) (item : Ast.Expr) :
    Binds H (expandItem tables allCols item) fun _ => True := by
  unfold expandItem
  split
  case h_3 => exact (binds_throwIf (by simp)).bind fun _ _ _ => trivial
  all_goals simp

/-- A column to sort by is one that `checkColumn` returned. -/
theorem analyzeOrderBy_binds (allCols : List ColMeta) (items : List (Option Ast.OrderBy)) :
    Binds H (analyzeOrderBy allCols items) fun order => ∀ tc, order.1 = some tc →
      ∃ target, checkColumn allCols target = .ok tc := by
  unfold analyzeOrderBy
  split
  · simp
  · simp
  · split
    · simp
    · refine (checkColumn_binds _ _).bind fun tc htc _ => ?_
      rintro _ ⟨⟩
      exact ⟨_, htc⟩
    · simp

/-- Collecting the names of a FROM clause throws no assertion. -/
theorem getTableNames_binds (node : Ast.FromNode) :
    Binds H (getTableNames node) fun _ => True := by
  induction node using getTableNames.induct with
  | case1 => simp [getTableNames]
  | case2 tableName aliasName => exact (binds_throwIf (by simp)).bind fun _ _ _ => trivial
  | case3 subquery aliasName => exact (binds_throwIf (by simp)).bind fun _ _ _ => by simp
  | case4 type left right condition ihl ihr =>
    rw [getTableNames]
    refine (binds_throwIf (by simp)).bind fun _ _ _ => ?_
    refine (binds_throwIf (by simp)).bind fun _ _ _ => ?_
    exact ihl.bind fun _ _ _ => ihr.bind fun _ _ _ => trivial

/-- Collecting the columns of the tables throws no assertion. -/
theorem getAllCols_binds (db : DbMeta) (tables : List Bytes) :
    Binds H (getAllCols db tables) fun _ => True :=
  (Ends.mapM fun t _ => (getTable_binds db t).imp fun _ _ => trivial).bind fun _ _ _ => trivial

/-- What a SELECT that is accepted went through. -/
theorem analyzeSelect_eq_ok {stmt : Ast.SelectStmt} {query' : AnalyzedQuery}
    (h : analyzeSelect db stmt query = .ok query') :
    ∃ tables allCols items boundCols orderCol orderDesc conds boundConds,
      getTableNames stmt.fromNode = .ok tables ∧ getAllCols db tables = .ok allCols ∧
      stmt.selectItems.mapM (expandItem tables allCols) = .ok items ∧
      items.flatten.mapM (checkColumn allCols) = .ok boundCols ∧
      analyzeOrderBy allCols stmt.orderBy = .ok (orderCol, orderDesc) ∧
      getClause stmt.whereExpr = .ok conds ∧ checkClause db allCols conds = .ok boundConds ∧
      query' = { query with boundTables := tables, boundCols := boundCols,
                            boundOrderCol := orderCol, boundOrderDesc := orderDesc,
                            boundConds := boundConds } := by
  unfold analyzeSelect at h
  obtain ⟨_, -, h⟩ := bind_eq_ok.mp h
  obtain ⟨tables, htables, h⟩ := bind_eq_ok.mp h
  obtain ⟨allCols, hall, h⟩ := bind_eq_ok.mp h
  obtain ⟨_, -, h⟩ := bind_eq_ok.mp h
  obtain ⟨items, hitems, h⟩ := bind_eq_ok.mp h
  obtain ⟨boundCols, hcols, h⟩ := bind_eq_ok.mp h
  obtain ⟨_, -, h⟩ := bind_eq_ok.mp h
  obtain ⟨_, -, h⟩ := bind_eq_ok.mp h
  obtain ⟨⟨orderCol, orderDesc⟩, horder, h⟩ := bind_eq_ok.mp h
  obtain ⟨conds, hconds, h⟩ := bind_eq_ok.mp h
  obtain ⟨boundConds, hbound, h⟩ := bind_eq_ok.mp h
  rw [pure_eq_ok] at h
  exact ⟨tables, allCols, items, boundCols, orderCol, orderDesc, conds, boundConds, htables, hall,
    hitems, hcols, horder, hconds, hbound, h.symm⟩

/-- The FROM tables exist. -/
theorem exists_of_getAllCols (h : getAllCols db tables = .ok allCols) {t : Bytes}
    (ht : t ∈ tables) : ∃ tab, db.tabs[t]? = some tab := by
  obtain ⟨tabs, htabs, -⟩ := getAllCols_eq_ok h
  clear h
  induction htabs with
  | nil => simp at ht
  | cons htab _ ih =>
    rcases List.mem_cons.mp ht with rfl | ht
    · exact ⟨_, htab⟩
    · exact ih ht

/-- A SELECT is bound to the tables of its FROM clause. -/
theorem analyzeSelect_binds (hdb : db.Valid) (stmt : Ast.SelectStmt) :
    Binds db.Valid (analyzeSelect db stmt { boundStatement := .select stmt })
      (AnalyzedQuery.Sound db (.select stmt)) := by
  unfold analyzeSelect
  refine (binds_throwIf (by simp)).bind fun _ _ _ => ?_
  refine (getTableNames_binds _).bind fun tables _ _ => ?_
  refine (getAllCols_binds _ _).bind fun allCols hall _ => ?_
  refine (binds_throwIf (by simp)).bind fun _ _ _ => ?_
  refine (Ends.mapM fun _ _ => expandItem_binds _ _ _).bind fun items hitems _ => ?_
  refine (Ends.mapM fun tc _ => (checkColumn_binds allCols tc).imp fun _ _ => trivial).bind
    fun boundCols hcols _ => ?_
  refine (binds_throwIf (by simp)).bind fun _ _ _ => ?_
  refine (binds_throwIf (by simp)).bind fun _ _ _ => ?_
  refine (analyzeOrderBy_binds _ _).bind fun ⟨orderCol, orderDesc⟩ _ horder => ?_
  refine (getClause_binds _).bind fun conds _ hraw => ?_
  have hcov := covers_getAllCols hdb.owned hall
  refine (checkClause_binds hcov hraw).bind fun boundConds _ hbound => ?_
  constructor
  case statement_eq => rfl
  case scope_exist =>
    intro t ht
    exact exists_of_getAllCols hall (by simpa [AnalyzedQuery.scope] using ht)
  case cols =>
    intro tc htc
    obtain ⟨target, -, htarget⟩ := exists_of_mem_mapM hcols htc
    simpa [AnalyzedQuery.scope] using checkColumn_boundTo hcov htarget
  case orderCol =>
    intro tc htc
    obtain ⟨target, htarget⟩ := horder tc htc
    simpa [AnalyzedQuery.scope] using checkColumn_boundTo hcov htarget
  case conds =>
    intro cond hcond
    simpa [AnalyzedQuery.scope] using hbound cond hcond
  case setClauses => simp
  case values => simp
  case values_nil => simp
  case selectItems =>
    rintro _ ⟨⟩
    obtain ⟨bindings, hbindings, rfl⟩ := mapM_flatten_eq_ok hcols
    exact ⟨bindings, expandItems_binding hdb hall (mapM_eq_ok.mp hitems) hbindings, rfl⟩

/-- A SELECT that is analyzed is sound. -/
theorem analyzeSelect_sound (hdb : db.Valid) {stmt : Ast.SelectStmt}
    (h : analyzeSelect db stmt { boundStatement := .select stmt } = .ok query) :
    query.Sound db (.select stmt) :=
  (analyzeSelect_binds hdb stmt).of_ok h

/-! ## Statements -/

/-- A query on a target table is sound when its parts are, over this one table. -/
theorem target_sound (hdb : db.Valid) (htab : db.tabs[tabName]? = some table)
    {statement : Ast.Statement} {clauses : List SetClause} {values : List Value}
    (hselect : ∀ stmt, statement ≠ .select stmt)
    (hconds : ∀ cond ∈ conds, cond.Sound db [table.name])
    (hclauses : ∀ clause ∈ clauses, clause.Sound db [table.name])
    (hvalues : ∀ tabName literals, statement = .insert tabName literals →
      List.Forall₂ Value.EncodedFor values table.cols ∧
        List.Forall₂ (fun e (v : Value) => convertAstValue e = .ok { v with raw := none })
          literals values)
    (hnil : (∀ tabName literals, statement ≠ .insert tabName literals) → values = []) :
    AnalyzedQuery.Sound db statement { boundStatement := statement, boundTargetTable := table.name,
                                       boundConds := conds, boundSetClauses := clauses,
                                       boundValues := values } := by
  have hkey := hdb.key_eq _ _ htab
  subst hkey
  have hne := (hdb.tab_valid _ _ htab).name_ne
  constructor
  case scope_exist => simp [AnalyzedQuery.scope, hne, htab]
  case conds => simpa [AnalyzedQuery.scope, hne] using hconds
  case setClauses => simpa [AnalyzedQuery.scope, hne] using hclauses
  case values => exact fun tabName literals h => ⟨table, htab, hvalues tabName literals h⟩
  case values_nil => exact hnil
  case selectItems => exact fun stmt h => absurd h (hselect stmt)
  all_goals simp

/-- The values of an INSERT that is accepted, one for each literal and column. -/
theorem analyzeInsert_values {values : List Ast.Expr} {cols : List ColMeta} {bound : List Value}
    (hlen : values.length = cols.length)
    (h : (values.zip cols).mapM (fun vc => analyzeInsertValue vc.1 vc.2) = .ok bound) :
    List.Forall₂ Value.EncodedFor bound cols ∧
      List.Forall₂ (fun e (v : Value) => convertAstValue e = .ok { v with raw := none })
        values bound := by
  rw [mapM_eq_ok] at h
  induction values generalizing cols bound with
  | nil =>
    rw [List.length_nil] at hlen
    rw [List.length_eq_zero_iff.mp hlen.symm] at h ⊢
    rw [List.forall₂_nil_left_iff.mp h]
    exact ⟨.nil, .nil⟩
  | cons value values ih =>
    cases cols with
    | nil => simp at hlen
    | cons col cols =>
      rw [List.zip_cons_cons] at h
      obtain ⟨v, vs, hv, hvs, rfl⟩ := List.forall₂_cons_left_iff.mp h
      obtain ⟨h₁, h₂⟩ := ih (by simpa using hlen) hvs
      obtain ⟨henc, hconv⟩ := (analyzeInsertValue_binds (H := False) _ nofun).of_ok hv
      exact ⟨.cons henc h₁, .cons hconv h₂⟩

/-- A statement that needs no binding has nothing bound. -/
theorem unbound_sound (db : DbMeta) {statement : Ast.Statement} {name : Bytes} {value : Bool}
    (hinsert : ∀ tabName literals, statement ≠ .insert tabName literals)
    (hselect : ∀ stmt, statement ≠ .select stmt) :
    AnalyzedQuery.Sound db statement { boundStatement := statement, boundKnobName := name,
                                       boundKnobValue := value } where
  statement_eq := rfl
  scope_exist := by simp [AnalyzedQuery.scope]
  cols := by simp
  orderCol := by simp
  conds := by simp
  setClauses := by simp
  values tabName literals h := absurd h (hinsert tabName literals)
  values_nil _ := rfl
  selectItems stmt h := absurd h (hselect stmt)

/-- Every statement is analyzed to a sound query or refused, without an assertion. -/
theorem analyze_binds (hdb : db.Valid) (statement : Ast.Statement) :
    Binds db.Valid (analyze db statement) (AnalyzedQuery.Sound db statement) := by
  cases statement with
  | null => simp [analyze]
  | select stmt => exact analyzeSelect_binds hdb stmt
  | update tabName setClauses whereExpr =>
    refine (getTable_binds _ _).bind fun table _ htab => ?_
    refine (Ends.mapM fun _ _ => analyzeSetClause_binds hdb htab _).bind fun _ _ hclauses => ?_
    refine (getClause_binds _).bind fun conds _ hraw => ?_
    refine (checkClause_binds (covers_table hdb htab) hraw).bind fun _ _ hconds => ?_
    exact target_sound hdb htab (by simp) hconds hclauses (by simp) (by simp)
  | delete tabName whereExpr =>
    refine (getTable_binds _ _).bind fun table _ htab => ?_
    refine (getClause_binds _).bind fun conds _ hraw => ?_
    refine (checkClause_binds (covers_table hdb htab) hraw).bind fun _ _ hconds => ?_
    exact target_sound hdb htab (by simp) hconds (by simp) (by simp) (by simp)
  | insert tabName values =>
    refine (getTable_binds _ _).bind fun table _ htab => ?_
    refine (binds_throwIf (by simp)).bind fun _ _ hlen => ?_
    have hvalid := (hdb.tab_valid _ _ htab).validLen
    refine (Ends.mapM fun vc hvc => (analyzeInsertValue_binds vc.1 fun _ =>
      (hvalid vc.2 (List.of_mem_zip hvc).2).2).imp fun _ _ => trivial).bind fun bound hbound _ => ?_
    refine target_sound hdb htab (by simp) (by simp) (by simp) ?_ (by simp)
    rintro _ _ ⟨⟩
    exact analyzeInsert_values (not_not.mp hlen) hbound
  | setKnob name value =>
    refine (binds_throwIf (by simp)).bind fun _ _ _ => ?_
    exact unbound_sound db (by simp) (by simp)
  | _ => exact unbound_sound db (by simp) (by simp)

/-- Analysis is sound: over a valid catalog, whatever the statement, a query that `analyze` returns
is sound, and no assertion of `init_raw` fails on the way. -/
theorem analyze_sound (db : DbMeta) (hdb : db.Valid) (statement : Ast.Statement) :
    (∀ query, analyze db statement = .ok query → query.Sound db statement) ∧
      analyze db statement ≠ .error .assertionFailed :=
  ⟨fun _ h => (analyze_binds hdb statement).of_ok h,
    fun h => (analyze_binds hdb statement).of_error h hdb rfl⟩

/-- An INSERT into the small catalog, whose two literals are encoded for their columns. -/
theorem analyze_sound_insert :
    let statement : Ast.Statement := .insert (text "student") [.intLit 7, .stringLit (text "Ada")]
    ∃ query, analyze studentDb statement = .ok query ∧ query.Sound studentDb statement ∧
      query.boundValues.map Value.raw =
        [some [7, 0, 0, 0], some (text "Ada" ++ List.replicate 5 0)] :=
  ⟨_, rfl, (analyze_sound studentDb studentDb_valid _).1 _ rfl, rfl⟩

end Analyzer

end Rucbase
