import Mathlib.Data.List.Nodup
import Rucbase.Analyze.Sound

/-!
# Which column a reference is bound to

`check_column` compares a reference with the visible columns. A reference without a table is bound
when exactly one of them has its name, and is ambiguous when several have it. A reference with a
table is bound when some visible column has its table and its name; a FROM list that repeats a table
shows each of its columns twice, and such a reference is accepted all the same. In both cases only
the columns that match decide, so that the order of the FROM list does not matter
(`checkColumn_resolves`).
-/

namespace Rucbase

open Lib

namespace Analyzer

/-- A visible column matches a reference: by its name, and by its table when the reference names
one. -/
def Matches (target : TabCol) (col : ColMeta) : Prop :=
  col.name = target.colName ∧ (target.tabName ≠ [] → col.tabName = target.tabName)

instance (target : TabCol) : DecidablePred (Matches target) := fun col =>
  inferInstanceAs (Decidable (col.name = _ ∧ (_ → _)))

/-- The visible columns that match a reference. -/
def matching (target : TabCol) (allCols : List ColMeta) : List ColMeta :=
  allCols.filter (Matches target ·)

/-- The name of a reference in an error message. -/
def reportedName (target : TabCol) : Bytes :=
  if target.tabName = [] then target.colName else target.tabName ++ text "." ++ target.colName

/-- With a table found already, another column of the name is one too many. -/
theorem resolveUnqualified_found (colName : Bytes) (cols : List ColMeta) {tabName : Bytes}
    (hfound : tabName ≠ []) :
    resolveUnqualified colName cols tabName =
      if cols.filter (·.name = colName) = [] then .ok tabName
      else .error (.ambiguousColumnError colName) := by
  induction cols with
  | nil => rfl
  | cons col cols ih =>
    rw [resolveUnqualified]
    by_cases hname : col.name = colName
    · simp only [hname, if_true, throwIf, if_pos hfound]
      simp [hname]
      rfl
    · rw [if_neg hname, ih]
      simp [hname]

/-- The loop of an unqualified reference, in terms of the columns of its name. -/
theorem resolveUnqualified_eq {colName : Bytes} {cols : List ColMeta}
    (hne : ∀ col ∈ cols, col.tabName ≠ []) :
    resolveUnqualified colName cols [] =
      match cols.filter (·.name = colName) with
      | [] => .ok []
      | [col] => .ok col.tabName
      | _ :: _ :: _ => .error (.ambiguousColumnError colName) := by
  induction cols with
  | nil => rfl
  | cons col cols ih =>
    obtain ⟨hcol, hne⟩ := List.forall_mem_cons.mp hne
    rw [resolveUnqualified]
    by_cases hname : col.name = colName
    · -- The first column of the name: the rest of the loop looks for a second one.
      have hrest := resolveUnqualified_found colName cols hcol
      cases hfilter : cols.filter (·.name = colName) with
      | nil => simp [hname, hfilter, throwIf, hrest]
      | cons second more => simp [hname, hfilter, throwIf, hrest]
    · rw [if_neg hname, ih hne]
      simp [hname]

variable {allCols : List ColMeta} {db : DbMeta} {tables : List Bytes}

/-- `check_column` in terms of the columns that match. -/
theorem checkColumn_eq (hne : ∀ col ∈ allCols, col.tabName ≠ []) (target : TabCol) :
    checkColumn allCols target =
      match matching target allCols with
      | [] => .error (.columnNotFoundError (reportedName target))
      | [col] => .ok ⟨col.tabName, col.name⟩
      | _ :: _ :: _ =>
        if target.tabName = [] then .error (.ambiguousColumnError target.colName)
        else .ok target := by
  unfold checkColumn
  have hmem : ∀ col ∈ matching target allCols, col ∈ allCols ∧ Matches target col := by
    intro col hcol
    simpa [matching] using hcol
  split_ifs with hunqualified hany
  · have hmatching : matching target allCols = allCols.filter (·.name = target.colName) := by
      simp [matching, Matches, hunqualified]
    rw [resolveUnqualified_eq hne, ← hmatching]
    rcases hfound : matching target allCols with - | ⟨col, - | -⟩
    · simp only [ok_bind, throwIf, if_true, reportedName, hunqualified]
      rfl
    · obtain ⟨hcol, hname, -⟩ := hmem col (by simp [hfound])
      simp [throwIf, hne col hcol, hname]
    · rfl
  · obtain ⟨col, hcol, hmatch⟩ := List.any_eq_true.mp hany
    simp only [Bool.and_eq_true, beq_iff_eq] at hmatch
    have hmatches : col ∈ matching target allCols := by
      simp [matching, Matches, hcol, hmatch]
    rcases hfound : matching target allCols with - | ⟨only, - | -⟩
    · simp [hfound] at hmatches
    · obtain ⟨-, hname, htable⟩ := hmem only (by simp [hfound])
      simp [htable hunqualified, hname]
    · simp
  · -- No column has both the table and the name.
    have hnone : matching target allCols = [] := by
      rw [matching, List.filter_eq_nil_iff]
      intro col hcol hmatch
      obtain ⟨hname, htable⟩ : Matches target col := by simpa using hmatch
      apply hany
      rw [List.any_eq_true]
      exact ⟨col, hcol, by simp [hname, htable hunqualified]⟩
    rw [hnone]
    simp [reportedName, hunqualified]

/-- The outcome depends on which columns match, and not on their order. -/
theorem checkColumn_perm {allCols' : List ColMeta} (hne : ∀ col ∈ allCols, col.tabName ≠ [])
    (hperm : allCols'.Perm allCols) (target : TabCol) :
    checkColumn allCols' target = checkColumn allCols target := by
  have hne' : ∀ col ∈ allCols', col.tabName ≠ [] := fun col hcol => hne col (hperm.subset hcol)
  have hmatching : (matching target allCols').Perm (matching target allCols) := hperm.filter _
  have hlen := hmatching.length_eq
  rw [checkColumn_eq hne, checkColumn_eq hne']
  match hfound : matching target allCols, hfound' : matching target allCols' with
  | [], [] => rfl
  | [col], [col'] =>
    rw [hfound, hfound', List.singleton_perm_singleton] at hmatching
    rw [hmatching]
  | _ :: _ :: _, _ :: _ :: _ => rfl
  | [], _ :: _ => simp [hfound, hfound'] at hlen
  | [_], [] => simp [hfound, hfound'] at hlen
  | [_], _ :: _ :: _ => simp [hfound, hfound'] at hlen
  | _ :: _ :: _, [] => simp [hfound, hfound'] at hlen
  | _ :: _ :: _, [_] => simp [hfound, hfound'] at hlen

/-- The columns of a table of the catalog, none for a name that is not in it. -/
def colsOf (db : DbMeta) (tabName : Bytes) : List ColMeta :=
  (db.tabs[tabName]?.map TabMeta.cols).getD []

/-- The visible columns are a function of each table name. -/
theorem getAllCols_eq_flatMap (h : getAllCols db tables = .ok allCols) :
    allCols = tables.flatMap (colsOf db) := by
  obtain ⟨tabs, htabs, rfl⟩ := getAllCols_eq_ok h
  clear h
  induction htabs with
  | nil => rfl
  | cons htab _ ih =>
    rw [List.flatMap_cons, List.flatMap_cons, ih, colsOf, htab]
    rfl

/-- Reordering the FROM list reorders the visible columns. -/
theorem getAllCols_perm {tables' : List Bytes} (hperm : tables'.Perm tables)
    {allCols' : List ColMeta} (h : getAllCols db tables = .ok allCols)
    (h' : getAllCols db tables' = .ok allCols') : allCols'.Perm allCols := by
  rw [getAllCols_eq_flatMap h, getAllCols_eq_flatMap h']
  exact hperm.flatMap_right _

/-- The columns of a table have the table's name and different names of their own. -/
theorem colsOf_spec (hdb : db.Valid) (tabName : Bytes) :
    (∀ col ∈ colsOf db tabName, col.tabName = tabName) ∧
      ((colsOf db tabName).map ColMeta.name).Nodup := by
  unfold colsOf
  cases htab : db.tabs[tabName]? with
  | none => simp
  | some tab =>
    have hvalid := hdb.tab_valid _ _ htab
    exact ⟨fun col hcol => (hvalid.colTabName col hcol).trans (hdb.key_eq _ _ htab).symm,
      hvalid.colNames_nodup⟩

/-- Over a FROM list without repetitions no two visible columns have the same table and name. -/
theorem nodup_getAllCols (hdb : db.Valid) (h : getAllCols db tables = .ok allCols)
    (hnodup : tables.Nodup) :
    (allCols.map fun col => (⟨col.tabName, col.name⟩ : TabCol)).Nodup := by
  rw [getAllCols_eq_flatMap h, List.map_flatMap, List.nodup_flatMap]
  refine ⟨fun t _ => ?_, hnodup.imp fun {t t'} hne => ?_⟩
  · -- Within a table the names of the columns tell them apart.
    refine List.Nodup.of_map TabCol.colName ?_
    rw [List.map_map]
    exact (colsOf_spec hdb t).2
  · rintro tc hcol hcol'
    obtain ⟨col, hmem, rfl⟩ := List.mem_map.mp hcol
    obtain ⟨col', hmem', heq⟩ := List.mem_map.mp hcol'
    refine hne ?_
    rw [← (colsOf_spec hdb t).1 col hmem, ← (colsOf_spec hdb t').1 col' hmem']
    exact (congrArg TabCol.tabName heq).symm

/-- Every column that matches a reference with a table has the reference's table and name. -/
theorem ref_of_mem_matching {target : TabCol} (hqualified : target.tabName ≠ []) :
    ∀ col ∈ matching target allCols, (⟨col.tabName, col.name⟩ : TabCol) = target := by
  intro col hcol
  obtain ⟨hname, htable⟩ : Matches target col := by simpa using (List.mem_filter.mp hcol).2
  rw [hname, htable hqualified]

/-- A reference with a table matches at most one visible column, unless the FROM list repeats a
table. -/
theorem length_matching_le (hdb : db.Valid) (h : getAllCols db tables = .ok allCols)
    (hnodup : tables.Nodup) {target : TabCol} (hqualified : target.tabName ≠ []) :
    (matching target allCols).length ≤ 1 := by
  have hsub : (matching target allCols).Sublist allCols := List.filter_sublist
  have hdistinct := (nodup_getAllCols hdb h hnodup).sublist (hsub.map _)
  rw [List.map_congr_left (ref_of_mem_matching hqualified), List.map_const',
    List.nodup_replicate] at hdistinct
  exact hdistinct

/-- The visible columns of a valid catalog name their tables. -/
theorem tabName_ne_of_getAllCols (hdb : db.Valid) (h : getAllCols db tables = .ok allCols) :
    ∀ col ∈ allCols, col.tabName ≠ [] := by
  intro col hcol
  obtain ⟨-, tab, htab, hmem⟩ := covers_getAllCols hdb.owned h col hcol
  rw [(hdb.tab_valid _ _ htab).colTabName col hmem]
  exact (hdb.tab_valid _ _ htab).name_ne

/-- The binding of a reference over a FROM list of existing tables. A reference without a table is
bound when exactly one visible column matches, and is ambiguous when several do; a reference with a
table is bound when some visible column matches, and only a FROM list that repeats a table can make
several match; it is bound to the table and the name of a column that matches. A reference that
nothing matches is not found. The order of the FROM list does not matter. -/
theorem checkColumn_resolves (db : DbMeta) (hdb : db.Valid) (tables : List Bytes)
    (allCols : List ColMeta) (hall : getAllCols db tables = .ok allCols) (target : TabCol) :
    let found := matching target allCols
    (∀ tc, checkColumn allCols target = .ok tc ↔
      ∃ col, tc = ⟨col.tabName, col.name⟩ ∧
        (found = [col] ∨ target.tabName ≠ [] ∧ col ∈ found)) ∧
    ((∃ name, checkColumn allCols target = .error (.columnNotFoundError name)) ↔ found = []) ∧
    ((∃ name, checkColumn allCols target = .error (.ambiguousColumnError name)) ↔
      target.tabName = [] ∧ 1 < found.length) ∧
    (target.tabName ≠ [] → tables.Nodup → found.length ≤ 1) ∧
    ∀ tables' allCols', tables'.Perm tables → getAllCols db tables' = .ok allCols' →
      checkColumn allCols' target = checkColumn allCols target := by
  have hne := tabName_ne_of_getAllCols hdb hall
  have heq := checkColumn_eq hne target
  have hsame : target.tabName ≠ [] → ∀ col ∈ matching target allCols,
      (⟨col.tabName, col.name⟩ : TabCol) = target := ref_of_mem_matching
  have hrest : (target.tabName ≠ [] → tables.Nodup → (matching target allCols).length ≤ 1) ∧
      ∀ tables' allCols', tables'.Perm tables → getAllCols db tables' = .ok allCols' →
        checkColumn allCols' target = checkColumn allCols target :=
    ⟨fun hqualified hnodup => length_matching_le hdb hall hnodup hqualified,
      fun tables' allCols' hperm hall' =>
        checkColumn_perm hne (getAllCols_perm hperm hall hall') target⟩
  match hfound : matching target allCols with
  | [] =>
    rw [hfound] at heq hrest
    refine ⟨?_, ?_, ?_, hrest⟩ <;> simp [heq]
  | [only] =>
    rw [hfound] at heq hrest
    refine ⟨fun tc => ?_, by simp [heq], by simp [heq], hrest⟩
    rw [heq, Except.ok.injEq]
    constructor
    · rintro rfl
      exact ⟨only, rfl, .inl rfl⟩
    · rintro ⟨col, rfl, honly | ⟨-, honly⟩⟩
      · rw [List.cons.injEq] at honly
        rw [honly.1]
      · rw [List.mem_singleton.mp honly]
  | first :: second :: more =>
    rw [hfound] at heq hsame hrest
    by_cases hunqualified : target.tabName = []
    · simp only [hunqualified, if_true] at heq
      refine ⟨?_, ?_, ?_, hrest⟩ <;> simp [heq, hunqualified]
    · simp only [hunqualified, if_false] at heq
      refine ⟨fun tc => ?_, by simp [heq], by simp [heq, hunqualified], hrest⟩
      rw [heq, Except.ok.injEq]
      constructor
      · rintro rfl
        refine ⟨first, ?_, .inr ⟨hunqualified, List.mem_cons_self⟩⟩
        exact (hsame hunqualified first List.mem_cons_self).symm
      · rintro ⟨col, rfl, honly | ⟨-, hcol⟩⟩
        · simp at honly
        · exact (hsame hunqualified col hcol).symm

/-- The references `id` and `student.id` over `from student, student`. -/
theorem checkColumn_resolves_student :
    ∃ allCols, getAllCols studentDb [text "student", text "student"] = .ok allCols ∧
      checkColumn allCols ⟨text "student", text "id"⟩ = .ok ⟨text "student", text "id"⟩ ∧
      ∃ name, checkColumn allCols ⟨[], text "id"⟩ = .error (.ambiguousColumnError name) := by
  have hall : getAllCols studentDb [text "student", text "student"] =
      .ok (studentTable.cols ++ studentTable.cols) := rfl
  have hresolves := checkColumn_resolves studentDb studentDb_valid _ _ hall
  refine ⟨_, hall, ?_, ?_⟩
  · apply ((hresolves ⟨text "student", text "id"⟩).1 _).mpr
    exact ⟨⟨text "student", text "id", .int, 4, 0, false⟩, rfl, .inr (by decide)⟩
  · apply (hresolves ⟨[], text "id"⟩).2.2.1.mpr
    decide

/-- `student.id` over `from student, student` is accepted, although two visible columns match it. -/
theorem checkColumn_repeated :
    ∃ allCols, getAllCols studentDb [text "student", text "student"] = .ok allCols ∧
      (matching ⟨text "student", text "id"⟩ allCols).length = 2 ∧
      ¬ ((∃ tc, checkColumn allCols ⟨text "student", text "id"⟩ = .ok tc) ↔
        (matching ⟨text "student", text "id"⟩ allCols).length = 1) := by
  refine ⟨_, rfl, by decide, fun hiff => ?_⟩
  have hone := hiff.mp ⟨_, rfl⟩
  revert hone
  decide

end Analyzer

end Rucbase
