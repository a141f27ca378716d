import Rucbase.Optimizer.Query
import Rucbase.Parser.Accepted
import Rucbase.Server.Relational
import Rucbase.System.Frame

/-!
# The engine refines the database

Each request takes an engine that implements a database to one that implements the database behind
the request, and its outcome is the one that the database gives (`Engine.Implements.executeSql`). So
it is over whole runs, from any engine that implements a database, whatever the statements are,
whatever the storage decides and whatever fails. The engine is the one of the source, in which what
is left to the labs throws (`Labs.stubs`).

A statement goes through stages that only read (`refined_attempt`, `refined_start`) before its last
stage changes the engine, so that there is one lemma for each kind of statement, about that stage.
-/

namespace Rucbase

open Lib Server

/-! ## Results -/

namespace Exec

variable (libs : Libraries)

theorem build_snoc (ops : List QueryResultBuilder.Op) (op : QueryResultBuilder.Op) :
    QueryResultBuilder.build (ops ++ [op]) = op.run (QueryResultBuilder.build ops) := by
  rw [QueryResultBuilder.build, List.foldl_append]
  rfl

variable {s : Request}

theorem build_of_none {op : QueryResultBuilder.Op}
    (h : op.throws (QueryResultBuilder.build s.ops) = none) :
    build libs op s = (.ok (), { s with ops := s.ops ++ [op] }) := by
  rw [build, h]

theorem build_of_some {op : QueryResultBuilder.Op} {e : Error}
    (h : op.throws (QueryResultBuilder.build s.ops) = some e) :
    build libs op s = (.error (libs.thrown e), { s with ops := s.ops ++ [op] }) := by
  rw [build, h]

/-- A row that fits is the next one of the table. -/
theorem isTable_addRow {result : WireResultSet} {columns : List WireResultColumn}
    {rows : List (List WireResultCell)} (h : result.IsTable columns rows)
    {row : List WireResultCell} (hfits : (QueryResultBuilder.addRow result row).2 = none) :
    (QueryResultBuilder.addRow result row).1.IsTable columns (rows ++ [row]) := by
  unfold QueryResultBuilder.addRow at hfits ⊢
  simp only at hfits ⊢
  split at hfits
  · simp at hfits
  · next result' haccount =>
    unfold WireResultSet.tryAccount at haccount
    split_ifs at haccount
    obtain rfl := Option.some.inj haccount
    exact ⟨h.hasQueryResult, h.rawText, h.columns_eq, by rw [← h.rows_eq]⟩

/-- The loop over the rows leaves the engine, and a table with the rows when it returns. -/
theorem addRows_spec {columns : List WireResultColumn} {rows done : List (List WireResultCell)}
    (hs : (QueryResultBuilder.build s.ops).IsTable columns done) :
    (rows.forM (fun row => build libs (.addRow row)) s).2.engine = s.engine ∧
      ((rows.forM (fun row => build libs (.addRow row)) s).1 = .ok () →
        (QueryResultBuilder.build (rows.forM (fun row => build libs (.addRow row)) s).2.ops).IsTable
          columns (done ++ rows)) := by
  induction rows generalizing s done with
  | nil => exact ⟨rfl, fun _ => by rw [List.append_nil]; exact hs⟩
  | cons row rows ih =>
    have hcons : (row :: rows).forM (fun row => build libs (.addRow row)) s =
        (build libs (.addRow row) >>= fun _ =>
          rows.forM fun row => build libs (.addRow row)) s := rfl
    rw [hcons]
    cases hthrows : (QueryResultBuilder.Op.addRow row).throws (QueryResultBuilder.build s.ops) with
    | some e =>
      rw [Effect.bind_of_error (build_of_some libs hthrows)]
      exact ⟨rfl, fun h => by simp at h⟩
    | none =>
      rw [Effect.bind_of_ok (build_of_none libs hthrows)]
      have hnext : (QueryResultBuilder.build (s.ops ++ [.addRow row])).IsTable columns
          (done ++ [row]) := by
        rw [build_snoc]
        exact isTable_addRow hs hthrows
      have := ih (s := { s with ops := s.ops ++ [.addRow row] }) hnext
      simpa using this

/-- `set_columns` and `add_row` for each row leave the engine, and the table when they return. -/
theorem buildTable_spec (columns : List WireResultColumn) (rows : List (List WireResultCell))
    (engine : Engine) :
    (buildTable libs columns rows ⟨engine, []⟩).2.engine = engine ∧
      ((buildTable libs columns rows ⟨engine, []⟩).1 = .ok () →
        (QueryResultBuilder.build (buildTable libs columns rows ⟨engine, []⟩).2.ops).IsTable
          columns rows) := by
  unfold buildTable
  let s : Request := ⟨engine, []⟩
  cases hthrows : (QueryResultBuilder.Op.setColumns columns).throws
      (QueryResultBuilder.build s.ops) with
  | some e =>
    rw [Effect.bind_of_error (build_of_some libs hthrows)]
    exact ⟨rfl, fun h => by simp at h⟩
  | none =>
    rw [Effect.bind_of_ok (build_of_none libs hthrows)]
    have htable : (QueryResultBuilder.build [.setColumns columns]).IsTable columns [] := by
      show (QueryResultBuilder.setColumns columns).1.IsTable columns []
      unfold QueryResultBuilder.Op.throws at hthrows
      unfold QueryResultBuilder.setColumns at hthrows ⊢
      simp only at hthrows ⊢
      split at hthrows
      · simp at hthrows
      · next result haccount =>
        unfold WireResultSet.tryAccount at haccount
        split_ifs at haccount
        obtain rfl := Option.some.inj haccount
        exact ⟨rfl, rfl, rfl, rfl⟩
    exact addRows_spec libs (s := ⟨engine, [.setColumns columns]⟩) htable

end Exec

/-! ## Stages -/

/-- What is to hold behind a statement, of what it returns and of the engine that it leaves. -/
def Refined (rel : Relational) (statement : Ast.Statement) : Except Thrown Unit × Request → Prop
  | (.ok _, s) => ∃ rel', rel.Returned statement (QueryResultBuilder.build s.ops) rel' ∧
      s.engine.Implements rel'
  | (.error _, s) => s.engine.Implements rel

section Stages

variable {libs : Libraries} {labs : Labs} {rel : Relational} {statement : Ast.Statement}
  {engine : Engine}

variable {s s' : Request} {α : Type}

theorem refined_error (h : s.engine.Implements rel) (thrown : Thrown) :
    Refined rel statement (.error thrown, s) := h

/-- A statement that leaves the engine is refined when the result is the right one. -/
theorem refined_of_engine_eq {result : Except Thrown Unit × Request}
    (h : engine.Implements rel) (hengine : result.2.engine = engine)
    (hreturned : result.1 = .ok () →
      rel.Returned statement (QueryResultBuilder.build result.2.ops) rel) :
    Refined rel statement result := by
  obtain ⟨_ | _, s⟩ := result
  · exact refined_error (hengine ▸ h) _
  · exact ⟨rel, hreturned rfl, hengine ▸ h⟩

/-- A stage that only reads and throws leaves the database when it throws. -/
theorem refined_attempt {x : Except Error α} {f : α → Exec Unit} (hs : s.engine.Implements rel)
    (hf : ∀ a, x = .ok a → Refined rel statement (f a s)) :
    Refined rel statement ((Exec.attempt libs x >>= f) s) := by
  cases x with
  | error e =>
    have hrun : (Exec.attempt libs (.error e) : Exec α) s = (.error (libs.thrown e), s) := rfl
    rw [Effect.bind_of_error hrun]
    exact refined_error hs _
  | ok a =>
    have hrun : Exec.attempt libs (.ok a) s = (.ok a, s) := rfl
    rw [Effect.bind_of_ok hrun]
    exact hf a rfl

theorem attempt_eq_ok {x : Except Error α} {a : α} (h : Exec.attempt libs x s = (.ok a, s')) :
    x = .ok a := by
  cases x with
  | error e => simp [Exec.attempt, Except.mapError] at h
  | ok b =>
    rw [Exec.attempt, Effect.lift_apply] at h
    exact congrArg _ (Except.ok.inj (Prod.mk.inj h).1)

/-- What does not change the request. -/
abbrev ReadOnly {α : Type} (x : Exec α) : Prop := Effect.Within (fun s s' => s' = s) x

theorem ReadOnly.bind {β : Type} {x : Exec α} {f : α → Exec β} (hx : ReadOnly x)
    (hf : ∀ a, ReadOnly (f a)) : ReadOnly (x >>= f) :=
  Effect.Within.bind (R := fun s s' => s' = s) (fun h h' => h'.trans h) hx hf

theorem readOnly_attempt (x : Except Error α) : ReadOnly (Exec.attempt libs x) :=
  fun _ => rfl

theorem readOnly_pure (a : α) : ReadOnly (pure a : Exec α) := fun _ => rfl

theorem readOnly_openCursor (plan : Plan) : ReadOnly (Portal.openCursor libs labs engine plan) :=
  .bind (readOnly_attempt _) fun _ => readOnly_pure _

theorem readOnly_finish (iteration : Iteration) : ReadOnly iteration.finish := by
  intro s
  obtain ⟨tuples, _ | thrown⟩ := iteration <;> rfl

theorem readOnly_targetTable (tabName : Bytes) :
    ReadOnly (Portal.targetTable libs engine tabName) :=
  .bind (readOnly_attempt _) fun _ => .bind (readOnly_attempt _) fun _ => readOnly_pure _

/-- `start` builds executors and collects places, and changes nothing. -/
theorem readOnly_start (plan : Plan) : ReadOnly (Portal.start libs labs engine plan) := by
  unfold Portal.start
  split
  case h_1 | h_2 | h_3 => exact readOnly_pure _
  case h_4 => exact .bind (readOnly_openCursor _) fun _ => readOnly_pure _
  -- UPDATE and DELETE collect the places of their rows first.
  case h_5 | h_6 =>
    refine .bind (readOnly_openCursor _) fun _ => ?_
    refine .bind (.bind (readOnly_finish _) fun _ => readOnly_pure _) fun _ => ?_
    exact .bind (readOnly_targetTable _) fun _ => readOnly_pure _
  case h_7 => exact .bind (readOnly_attempt _) fun _ => readOnly_pure _
  all_goals exact readOnly_attempt _

/-- An exception of `start` leaves the database. -/
theorem refined_start {plan : Plan} {f : Portal.PortalStmt → Exec Unit}
    (hs : s.engine.Implements rel)
    (hf : ∀ stmt, Portal.start libs labs engine plan s = (.ok stmt, s) →
      Refined rel statement (f stmt s)) :
    Refined rel statement ((Portal.start libs labs engine plan >>= f) s) := by
  have hstart : ReadOnly (Portal.start libs labs engine plan) := readOnly_start plan
  have hsame := hstart s
  rcases hrun : Portal.start libs labs engine plan s with ⟨e | stmt, s'⟩
  all_goals
    rw [hrun] at hsame
    obtain rfl : s' = s := hsame
  · rw [Effect.bind_of_error hrun]
    exact refined_error hs _
  · rw [Effect.bind_of_ok hrun]
    exact hf stmt hrun

/-- The cursor of a plan that could be opened. -/
theorem openCursor_eq_ok {plan : Plan} {cursor : Cursor}
    (h : Portal.openCursor libs labs engine plan s = (.ok cursor, s')) :
    ∃ executor, labs.convert engine.system.db engine.openTables plan = .ok executor ∧
      cursor = ⟨executor, labs.iterate engine plan⟩ := by
  obtain ⟨executor, _, hconv, h⟩ := Effect.bind_eq_ok.mp h
  refine ⟨executor, attempt_eq_ok hconv, ?_⟩
  exact (Except.ok.inj (Prod.mk.inj h).1).symm

theorem finish_eq_ok {iteration : Iteration} {u : Unit} (h : iteration.finish s = (.ok u, s')) :
    iteration.thrown = none := by
  obtain ⟨tuples, _ | thrown⟩ := iteration
  · rfl
  · exact absurd (Prod.mk.inj h).1 (by simp)

/-- The places of an UPDATE or a DELETE: those of a scan that came to its end. -/
theorem collectRids_eq_ok {cursor : Cursor} {rids : List Rid}
    (h : Portal.collectRids cursor s = (.ok rids, s')) :
    cursor.iteration.thrown = none ∧ rids = cursor.iteration.tuples.map Prod.fst := by
  obtain ⟨_, _, hfinish, h⟩ := Effect.bind_eq_ok.mp h
  exact ⟨finish_eq_ok hfinish, (Except.ok.inj (Prod.mk.inj h).1).symm⟩

end Stages

/-! ## Changes to one table -/

section Frame

variable {rel : Relational} {engine engine' : Engine}

variable {key : Bytes} {tab : TabMeta}

theorem DbMeta.hasIndex_of_mem {db : DbMeta} (hdb : db.Valid) (htab : db.tabs[key]? = some tab)
    {index : IndexMeta} (hindex : index ∈ tab.indexes) : db.HasIndex tab.name index.colNames := by
  rw [← hdb.key_eq _ _ htab]
  exact ⟨tab, htab, index, hindex, rfl⟩

/-- The indexes of a table have different files. -/
theorem Engine.Implements.nodup_fileNames (h : engine.Implements rel)
    (htab : rel.db.tabs[key]? = some tab) : (tab.indexes.map (·.fileName tab.name)).Nodup := by
  have hnames := (h.valid.tab_valid _ _ htab).indexes_nodup
  have hmap : tab.indexes.map (·.fileName tab.name) =
      (tab.indexes.map IndexMeta.colNames).map (IndexManager.makeIndexName tab.name) := by
    rw [List.map_map]
    rfl
  rw [hmap]
  refine List.Nodup.map_on ?_ hnames
  intro columns hcolumns columns' hcolumns' heq
  obtain ⟨index, hindex, rfl⟩ := List.mem_map.mp hcolumns
  obtain ⟨index', hindex', rfl⟩ := List.mem_map.mp hcolumns'
  exact (h.separate _ _ _ _ (DbMeta.hasIndex_of_mem h.valid htab hindex)
    (DbMeta.hasIndex_of_mem h.valid htab hindex') heq).2

/-- The file of another table's index is none of the table's. -/
theorem Engine.Implements.fileName_notMem (h : engine.Implements rel) {other : TabMeta}
    (htab : rel.db.tabs[tab.name]? = some tab) (hkey : key ≠ tab.name)
    (hother : rel.db.tabs[key]? = some other) {index : IndexMeta} (hindex : index ∈ other.indexes) :
    index.fileName other.name ∉ tab.indexes.map (·.fileName tab.name) := by
  intro hmem
  obtain ⟨index', hindex', heq⟩ := List.mem_map.mp hmem
  refine hkey ?_
  rw [h.valid.key_eq _ _ hother]
  exact (h.separate _ _ _ _ (DbMeta.hasIndex_of_mem h.valid hother hindex)
    (DbMeta.hasIndex_of_mem h.valid htab hindex') heq.symm).1

/-- A change of one table, whose file holds new rows and is indexed again. -/
theorem Engine.Implements.setRows (h : engine.Implements rel)
    (htab : rel.db.tabs[tab.name]? = some tab) (hframe : engine.Frame tab engine')
    {rows : Multiset (Bytes → Option Datum)}
    (hholds : HoldsRows (engine'.records tab.name) tab rows)
    (hindexed : (engine'.storage tab.name).Indexed tab) :
    engine'.Implements (rel.setRows tab.name rows) where
  db_eq := hframe.db_eq.trans h.db_eq
  valid := h.valid
  separate := h.separate
  opened key other hother := by
    rw [hframe.recordSizes_eq]
    exact h.opened key other hother
  start_eq := hframe.start_eq.trans h.start_eq
  holds key other hother := by
    show HoldsRows _ _ (Function.update rel.contents tab.name rows key)
    by_cases hkey : key = tab.name
    · subst hkey
      obtain rfl : tab = other := Option.some.inj (htab.symm.trans hother)
      rw [Function.update_self]
      exact hholds
    · rw [Function.update_of_ne hkey, hframe.records_eq key hkey]
      exact h.holds key other hother
  indexed key other hother := by
    by_cases hkey : key = tab.name
    · subst hkey
      obtain rfl : tab = other := Option.some.inj (htab.symm.trans hother)
      exact hindexed
    · intro index hindex
      obtain ⟨places, henum, htree⟩ := h.indexed key other hother index hindex
      refine ⟨places, ?_, ?_⟩
      · show Enumerates (engine'.records key) places
        rw [hframe.records_eq key hkey]
        exact henum
      · show engine'.indexes _ = _
        rw [hframe.indexes_eq _ (h.fileName_notMem htab hkey hother hindex)]
        exact htree

end Frame

/-! ## INSERT -/

section Insert

variable {libs : Libraries} {world : World} {rel : Relational} {engine : Engine}

theorem InsertExecutor.make_eq_ok {db : DbMeta} {fhs : Bytes → Option ℤ} {tabName : Bytes}
    {values : List Value} {root : InsertExecutor} (h : make db fhs tabName values = .ok root) :
    db.tabs[tabName]? = some root.tab ∧ root.values = values ∧ root.tabName = tabName ∧
      fhs tabName = some root.recordSize := by
  obtain ⟨tab, htab, h⟩ := bind_eq_ok.mp h
  split at h
  · split at h
    · next recordSize hsize =>
      rw [pure_eq_ok] at h
      subst h
      exact ⟨Analyzer.getTable_eq_ok.mp htab, rfl, rfl, hsize⟩
    · simp at h
  · simp at h

theorem Engine.setStorage_storage (engine : Engine) (tabName : Bytes) :
    engine.setStorage tabName (engine.storage tabName) = engine := by
  simp [Engine.setStorage, Engine.storage]

/-- INSERT adds the row of its literals, or leaves the database. -/
theorem refined_insert (h : engine.Implements rel) {tabName : Bytes} {literals : List Ast.Expr}
    {query : AnalyzedQuery}
    (hquery : Analyzer.analyze rel.db (.insert tabName literals) = .ok query)
    (hnul : ∀ str, Ast.Expr.stringLit str ∈ literals → (0 : UInt8) ∉ str) {root : InsertExecutor}
    (hmake : InsertExecutor.make rel.db engine.recordSizes query.boundTargetTable
      query.boundValues = .ok root) :
    Refined rel (.insert tabName literals) (QlManager.insertNext libs world root ⟨engine, []⟩) := by
  obtain ⟨tab, htab, htarget, hrecord⟩ := record_of_analyzeInsert h.valid hquery hnul
  obtain ⟨hroot, hvalues, hname, hsize⟩ := InsertExecutor.make_eq_ok hmake
  rw [htarget] at hroot hname hsize
  obtain rfl : root.tab = tab := Option.some.inj (hroot.symm.trans htab)
  have hkey : tabName = root.tab.name := h.valid.key_eq _ _ htab
  rw [h.opened _ _ htab] at hsize
  have hrecord := hrecord root world.garbage rfl hvalues (Option.some.inj hsize).symm
  rw [hkey] at hname htab
  have hfree := world.free (engine.storage root.tabName)
  unfold QlManager.insertNext
  rcases hnext : root.next world.garbage (world.outcomes (engine.storage root.tabName))
      (engine.storage root.tabName) with ⟨e | rid, st'⟩
  · have hsame := InsertExecutor.next_error hfree (congrArg Prod.fst hnext)
    rw [hnext] at hsame
    obtain rfl : st' = engine.storage root.tabName := hsame
    simp only [hnext, Engine.setStorage_storage]
    exact refined_error h _
  · simp only [hnext]
    have hholds := h.holds _ _ htab
    have hindexed := h.indexed _ _ htab
    rw [hname] at hnext hfree
    obtain ⟨hholds', hindexed', hothers⟩ := holds_of_next hname (h.nodup_fileNames htab) hfree
      hrecord hholds hindexed hnext
    have hframe : engine.Frame root.tab (engine.setStorage root.tabName st') :=
      ⟨rfl, rfl, rfl, fun key hother => Function.update_of_ne (hname ▸ hother) .., hothers⟩
    have hrecords : (engine.setStorage root.tabName st').records root.tab.name = st'.records := by
      rw [← hname]
      exact Function.update_self ..
    refine ⟨_, ⟨rfl, root.tab, hkey ▸ htab, rfl⟩, ?_⟩
    rw [hkey]
    refine h.setRows htab hframe (hrecords ▸ hholds') ?_
    have hstorage : (engine.setStorage root.tabName st').storage root.tab.name = st' := by
      ext1
      · exact hrecords
      · rfl
    rw [hstorage]
    exact hindexed'

end Insert

/-! ## What the labs are to add -/

section Stubs

variable {libs : Libraries} {engine : Engine}

/-- SELECT does not come to its executor: the constructor of the projection throws. -/
theorem not_openCursor {tag : PlanTag} {subplan : Plan} {selCols : List TabCol} {s s' : Request}
    {cursor : Cursor} (hcursor : Portal.openCursor libs .stubs engine
      (.projection tag subplan selCols) s = (.ok cursor, s')) : False := by
  obtain ⟨_, hconvert, -⟩ := openCursor_eq_ok hcursor
  obtain ⟨_, -, hthrow⟩ := bind_eq_ok.mp hconvert
  exact throw_ne_ok _ _ hthrow

/-- UPDATE and DELETE do not come to their places. -/
theorem not_collectRids {plan : Plan} {s s' s'' : Request} {cursor : Cursor} {rids : List Rid}
    (hcursor : Portal.openCursor libs .stubs engine plan s = (.ok cursor, s'))
    (hrids : Portal.collectRids cursor s' = (.ok rids, s'')) : False := by
  obtain ⟨executor, -, rfl⟩ := openCursor_eq_ok hcursor
  exact nomatch (collectRids_eq_ok hrids).1

end Stubs

/-! ## CREATE TABLE -/

section CreateTable

variable {libs : Libraries} {world : World} {rel : Relational} {engine : Engine} {tabName : Bytes}
  {colDefs : List ColSchema}

/-- A CREATE TABLE that throws leaves the database. -/
theorem Engine.Implements.createTable_failed (h : engine.Implements rel) {e : Error}
    {system : System}
    (hrun : SmManager.createTable libs.json world.fault tabName colDefs engine.system =
      (.error e, system)) : Implements { engine with system := system } rel := by
  have hspares := SmManager.createTable_failed _ _ _ _ _ _ _ hrun
  -- A table of the catalog is another one, unless the statement is refused at once.
  have hfhs : ∀ (key : Bytes) (tab : TabMeta), rel.db.tabs[key]? = some tab →
      system.fhs key = engine.system.fhs key := by
    intro key tab htab
    by_cases hkey : key = tabName
    · subst hkey
      have hreject : ∃ e, SmManager.checkTable engine.system key colDefs = .error e := by
        cases hcheck : SmManager.checkTable engine.system key colDefs with
        | error e => exact ⟨e, rfl⟩
        | ok recordSize =>
          have hnone := (SmManager.checkTable_eq_ok.mp hcheck).1
          rw [h.db_eq, DbMeta.isTable, Std.ExtTreeMap.contains_eq_isSome_getElem?, htab] at hnone
          simp at hnone
      obtain ⟨e', hreject⟩ := hreject
      rw [SmManager.createTable_rejected hreject] at hrun
      rw [(Prod.mk.inj hrun).2]
    · exact hspares.2 key hkey
  refine ⟨hspares.1.trans h.db_eq, h.valid, h.separate, fun key tab htab => ?_, h.start_eq,
    h.holds, h.indexed⟩
  have hopened := h.opened key tab htab
  unfold recordSizes at hopened ⊢
  simp only
  rw [hfhs key tab htab]
  exact hopened

/-- The indexes of a catalog with a new table that has none. -/
theorem DbMeta.hasIndex_of_insert {db : DbMeta} {tab : TabMeta} (hnone : tab.indexes = [])
    {table : Bytes} {columns : List Bytes} (h : (db.insert tab).HasIndex table columns) :
    db.HasIndex table columns := by
  obtain ⟨other, hother, index, hindex, hcolumns⟩ := h
  rw [DbMeta.getElem?_insert] at hother
  split_ifs at hother
  · rw [← Option.some.inj hother, hnone] at hindex
    simp at hindex
  · exact ⟨other, hother, index, hindex, hcolumns⟩

/-- A CREATE TABLE that returns has added an empty table. -/
theorem Engine.Implements.createTable_returned (h : engine.Implements rel) (htab : tabName ≠ [])
    (hcols : ∀ col ∈ colDefs, col.name ≠ []) {system : System}
    (hrun : SmManager.createTable libs.json world.fault tabName colDefs engine.system =
      (.ok (), system)) :
    rel.db.tabs[tabName]? = none ∧
      Implements { engine with
        system := system
        records := Function.update engine.records tabName fun _ => none }
        (Relational.setRows ⟨rel.db.insert (TabSchema.rebuild ⟨tabName, colDefs, []⟩),
          rel.contents⟩ tabName 0) := by
  obtain ⟨⟨recordSize, hcheck⟩, hnext⟩ := DbMeta.createTable_ok hrun
  obtain ⟨handle, hfhs, hsize⟩ := SmManager.createTable_returned hrun
  have hvalid := DbMeta.createTable_valid (h.db_eq ▸ h.valid) htab hcols hrun
  have hnone : rel.db.tabs[tabName]? = none := by
    have hnot := (SmManager.checkTable_eq_ok.mp hcheck).1
    rw [h.db_eq, DbMeta.isTable, Std.ExtTreeMap.contains_eq_isSome_getElem?,
      Option.isSome_eq_false_iff, Option.isNone_iff_eq_none] at hnot
    exact hnot
  rw [SmManager.nextDb, SmManager.makeColumns_eq_layout, DbMeta.rebuild_nil, h.db_eq] at hnext
  rw [hnext] at hvalid
  let tab : TabMeta := TabSchema.rebuild ⟨tabName, colDefs, []⟩
  have hlens : tab.cols.map ColMeta.len = colDefs.map ColSchema.len := map_len_layout ..
  have hget : ∀ (key : Bytes) (other : TabMeta), (rel.db.insert tab).tabs[key]? = some other →
      key = tabName ∧ other = tab ∨ key ≠ tabName ∧ rel.db.tabs[key]? = some other := by
    intro key other hother
    rw [DbMeta.getElem?_insert] at hother
    split_ifs at hother with hkey
    · exact .inl ⟨hkey.symm, (Option.some.inj hother).symm⟩
    · exact .inr ⟨Ne.symm hkey, hother⟩
  refine ⟨hnone, hnext, hvalid, ?_, ?_, h.start_eq, ?_, ?_⟩
  · intro table table' columns columns' hindex hindex' heq
    exact h.separate _ _ _ _ (DbMeta.hasIndex_of_insert rfl hindex)
      (DbMeta.hasIndex_of_insert rfl hindex') heq
  · intro key other hother
    show (system.fhs key).map _ = _
    rw [hfhs]
    rcases hget key other hother with ⟨rfl, rfl⟩ | ⟨hkey, hother⟩
    · rw [Function.update_self, Option.map_some, hsize, hlens]
    · rw [Function.update_of_ne hkey]
      exact h.opened key other hother
  · intro key other hother
    show HoldsRows (Function.update engine.records tabName (fun _ => none) key) other
      (Function.update rel.contents tabName 0 key)
    rcases hget key other hother with ⟨rfl, rfl⟩ | ⟨hkey, hother⟩
    · rw [Function.update_self, Function.update_self]
      exact holds_empty tab
    · rw [Function.update_of_ne hkey, Function.update_of_ne hkey]
      exact h.holds key other hother
  · intro key other hother index hindex
    rcases hget key other hother with ⟨rfl, rfl⟩ | ⟨hkey, hother⟩
    · exact absurd hindex (by simp [tab, TabSchema.rebuild])
    · obtain ⟨places, henum, htree⟩ := h.indexed key other hother index hindex
      refine ⟨places, ?_, htree⟩
      show Enumerates (Function.update engine.records tabName (fun _ => none) key) places
      rw [Function.update_of_ne hkey]
      exact henum

/-- CREATE TABLE adds an empty table, or leaves the database. -/
theorem refined_createTable (h : engine.Implements rel) {fields : List Ast.ColDef}
    (htab : tabName ≠ []) (hfields : ∀ field ∈ fields, field.colName ≠ []) :
    Refined rel (.createTable tabName fields)
      (SmManager.createEmptyTable libs world tabName (fields.map fieldColumn) ⟨engine, []⟩) := by
  have hcols : ∀ col ∈ fields.map fieldColumn, col.name ≠ [] := by
    intro _ hcol
    obtain ⟨field, hfield, rfl⟩ := List.mem_map.mp hcol
    exact hfields field hfield
  unfold SmManager.createEmptyTable
  rcases hrun : SmManager.createTable libs.json world.fault tabName (fields.map fieldColumn)
      engine.system with ⟨e | u, system⟩
  · have hsystem : Exec.onSystem libs (SmManager.createTable libs.json world.fault tabName
        (fields.map fieldColumn)) ⟨engine, []⟩ =
        (.error (libs.thrown e), ⟨{ engine with system := system }, []⟩) := by
      simp only [Exec.onSystem, hrun, Except.mapError]
    rw [Effect.bind_of_error hsystem]
    exact refined_error (h.createTable_failed hrun) _
  · have hsystem : Exec.onSystem libs (SmManager.createTable libs.json world.fault tabName
        (fields.map fieldColumn)) ⟨engine, []⟩ =
        (.ok (), ⟨{ engine with system := system }, []⟩) := by
      simp only [Exec.onSystem, hrun, Except.mapError]
    rw [Effect.bind_of_ok hsystem]
    obtain ⟨hnone, himplements⟩ := h.createTable_returned htab hcols hrun
    exact ⟨_, ⟨rfl, hnone, rfl⟩, himplements⟩

end CreateTable

/-! ## All statements -/

namespace Planner

variable {db : DbMeta} {flag : ℕ → Bool} {tabName : Bytes} {query : AnalyzedQuery} {plan : Plan}

/-- The plan of an INSERT. -/
theorem planQuery_insert {values : List Ast.Expr}
    (hquery : Analyzer.analyze db (.insert tabName values) = .ok query)
    (hplan : Optimizer.planQuery db flag query = .ok plan) :
    plan = .insert query.boundTargetTable query.boundValues := by
  obtain ⟨table, -, hquery⟩ := bind_eq_ok.mp hquery
  obtain ⟨_, -, hquery⟩ := bind_eq_ok.mp hquery
  obtain ⟨bound, -, hquery⟩ := bind_eq_ok.mp hquery
  rw [pure_eq_ok] at hquery
  subst hquery
  obtain ⟨_, -, hplan⟩ := bind_eq_ok.mp hplan
  rw [pure_eq_ok] at hplan
  exact hplan.symm

end Planner

section Statements

variable {libs : Libraries} {labs : Labs} {world : World} {rel : Relational} {engine : Engine}

variable {statement : Ast.Statement}

/-- A result of CHAR columns leaves the database. -/
theorem refined_setStringResult (h : engine.Implements rel) {names : List Bytes}
    {rows : List (List Bytes)}
    (hreturned : ∀ result : WireResultSet, result.IsTexts names rows →
      rel.Returned statement result rel) :
    Refined rel statement (SmManager.setStringResult libs names rows ⟨engine, []⟩) := by
  obtain ⟨hengine, htable⟩ := Exec.buildTable_spec libs (names.map fun name => ⟨name, .string⟩)
    (rows.map fun values => values.map fun value => { type := .string, strVal := value }) engine
  exact refined_of_engine_eq h hengine fun hok => hreturned _ (htable hok)

/-- The tables are listed by their names. -/
theorem DbMeta.toList_names {db : DbMeta} (hdb : db.Valid) :
    (db.tabs.toList.map fun entry => [entry.2.name]) = db.tabs.keys.map fun name => [name] := by
  rw [← Std.ExtTreeMap.map_fst_toList_eq_keys, List.map_map]
  refine List.map_congr_left fun entry hentry => ?_
  have hget := Std.ExtTreeMap.mem_toList_iff_getElem?_eq_some.mp hentry
  rw [Function.comp_apply, hdb.key_eq _ _ hget]

/-- A call of the builder that leaves the text of HELP. -/
theorem refined_helpText (h : engine.Implements rel) {op : QueryResultBuilder.Op}
    (hop : op.run {} = (QueryResultBuilder.setRawText {} (text "Help") QlManager.helpInfo).1) :
    Refined rel .help (Exec.build libs op ⟨engine, []⟩) := by
  cases hthrows : op.throws (QueryResultBuilder.build []) with
  | none =>
    rw [Exec.build_of_none libs hthrows]
    exact ⟨rel, ⟨hop, rfl⟩, h⟩
  | some e =>
    rw [Exec.build_of_some libs hthrows]
    exact refined_error h _

/-- HELP leaves the database. -/
theorem refined_help (h : engine.Implements rel) (db : DbMeta) :
    Refined rel .help (QlManager.runCmdUtility libs db (.other .help []) ⟨engine, []⟩) := by
  rw [QlManager.runCmdUtility]
  refine refined_helpText h ?_
  rw [QueryResultBuilder.Op.run]

variable (libs labs) in
/-- The commands leave the database, and return what they read in the catalog. -/
theorem refined_utility (h : engine.Implements rel) {query : AnalyzedQuery} {plan : Plan}
    (hquery : Analyzer.analyze rel.db statement = .ok query)
    (hplan : Optimizer.planQuery rel.db (fun _ => engine.enableSortmerge) query = .ok plan)
    (hstatement : match statement with
      | .help | .showDatabase | .showTables | .descTable _ | .setKnob _ _ | .txnBegin | .txnCommit
      | .txnAbort | .txnRollback => True
      | _ => False) :
    Portal.start libs labs engine plan = pure (.utility plan) ∧
      Refined rel statement (QlManager.runCmdUtility libs rel.db plan ⟨engine, []⟩) := by
  cases statement with
  | help =>
    cases hquery
    cases hplan
    exact ⟨rfl, refined_help h rel.db⟩
  | showDatabase =>
    cases hquery
    cases hplan
    exact ⟨rfl, refined_setStringResult h fun _ hresult => ⟨hresult, rfl⟩⟩
  | showTables =>
    cases hquery
    cases hplan
    refine ⟨rfl, refined_setStringResult h fun _ hresult => ⟨?_, rfl⟩⟩
    rw [← DbMeta.toList_names h.valid]
    exact hresult
  | descTable tabName =>
    cases hquery
    cases hplan
    refine ⟨rfl, refined_attempt h fun tab htab => ?_⟩
    exact refined_setStringResult h fun _ hresult =>
      ⟨tab, Analyzer.getTable_eq_ok.mp htab, hresult, rfl⟩
  | setKnob name value =>
    obtain ⟨_, -, hquery⟩ := bind_eq_ok.mp hquery
    cases hquery
    cases hplan
    refine ⟨rfl, refined_attempt h fun _ _ => ?_⟩
    exact ⟨rel, ⟨rfl, rfl⟩, { h with }⟩
  | txnBegin | txnCommit | txnAbort | txnRollback =>
    cases hquery
    cases hplan
    exact ⟨rfl, refined_error h _⟩
  | _ => exact hstatement.elim

variable (libs world) in
/-- The stages behind the parser do to the engine and to the result what the statement says. -/
theorem refined_runStatement (h : engine.Implements rel) {sql : Bytes} (hnul : 0 ∉ sql)
    (hspelt : Parser.SpeltStatement sql statement) :
    Refined rel statement (engine.runStatement libs .stubs world statement ⟨engine, []⟩) := by
  refine refined_attempt h fun query hquery => refined_attempt h fun plan hplan =>
    refined_start h fun stmt hstart => ?_
  rw [h.db_eq] at hquery hplan
  cases statement with
  | null => simp [Analyzer.analyze] at hquery
  | help | showDatabase | showTables | descTable _ | setKnob _ _ | txnBegin | txnCommit | txnAbort
  | txnRollback =>
    obtain ⟨hutility, hrefined⟩ := refined_utility libs .stubs h hquery hplan trivial
    rw [hutility] at hstart
    cases hstart
    rw [← h.db_eq] at hrefined
    exact hrefined
  | createTable tabName fields =>
    cases hquery
    cases hplan
    cases hstart
    exact refined_createTable h hspelt.1 hspelt.2
  | dropTable _ | createIndex _ _ _ | dropIndex _ _ =>
    cases hquery
    cases hplan
    cases hstart
    exact refined_error h _
  | insert tabName literals =>
    obtain rfl := Planner.planQuery_insert hquery hplan
    obtain ⟨root, _, hmake, hstart⟩ := Effect.bind_eq_ok.mp hstart
    cases hstart
    have hmake := attempt_eq_ok hmake
    rw [h.db_eq] at hmake
    exact refined_insert h hquery (fun str hstr hmem => hnul (hspelt str hstr hmem)) hmake
  | select stmt =>
    obtain ⟨root, hroot, -⟩ := Planner.planSelect_spec
      (Planner.analyzeSelect_plannable h.valid.owned hquery) fun _ => engine.enableSortmerge
    have hstmt := (Analyzer.analyzeSelect_sound h.valid hquery).statement_eq
    simp only [Optimizer.planQuery, Planner.doPlanner, hstmt] at hplan
    obtain rfl := Except.ok.inj (hroot.symm.trans hplan)
    obtain ⟨cursor, _, hcursor, -⟩ := Effect.bind_eq_ok.mp hstart
    exact (not_openCursor hcursor).elim
  | delete tabName whereExpr =>
    obtain ⟨table, -, hquery⟩ := bind_eq_ok.mp hquery
    obtain ⟨conds, -, hquery⟩ := bind_eq_ok.mp hquery
    obtain ⟨boundConds, -, hquery⟩ := bind_eq_ok.mp hquery
    cases hquery
    obtain ⟨_, -, hplan⟩ := bind_eq_ok.mp hplan
    obtain ⟨scanPlan, -, hplan⟩ := bind_eq_ok.mp hplan
    cases hplan
    obtain ⟨cursor, _, hcursor, hstart⟩ := Effect.bind_eq_ok.mp hstart
    obtain ⟨rids, _, hrids, -⟩ := Effect.bind_eq_ok.mp hstart
    exact (not_collectRids hcursor hrids).elim
  | update tabName setClauses whereExpr =>
    obtain ⟨table, -, hquery⟩ := bind_eq_ok.mp hquery
    obtain ⟨clauses, -, hquery⟩ := bind_eq_ok.mp hquery
    obtain ⟨conds, -, hquery⟩ := bind_eq_ok.mp hquery
    obtain ⟨boundConds, -, hquery⟩ := bind_eq_ok.mp hquery
    cases hquery
    obtain ⟨_, -, hplan⟩ := bind_eq_ok.mp hplan
    obtain ⟨scanPlan, -, hplan⟩ := bind_eq_ok.mp hplan
    cases hplan
    obtain ⟨cursor, _, hcursor, hstart⟩ := Effect.bind_eq_ok.mp hstart
    obtain ⟨rids, _, hrids, -⟩ := Effect.bind_eq_ok.mp hstart
    exact (not_collectRids hcursor hrids).elim

end Statements

/-! ## Requests -/

section Requests

variable {rel : Relational} {engine : Engine}

/-- One request does to the engine and to its outcome what its text says. -/
theorem Engine.Implements.executeSql (h : engine.Implements rel)
    (libs : Libraries) (world : World) (sql : Bytes) :
    ∃ rel', rel.Step libs sql (engine.executeSql libs .stubs world sql).1 rel' ∧
      (engine.executeSql libs .stubs world sql).2.Implements rel' := by
  have hstart : { engine with start := (Parser.parse libs.strtof (Parser.yyparse libs.syntaxError)
      engine.start sql).2 } = engine := by
    rw [h.start_eq, Parser.start_parse, ← h.start_eq]
  unfold Engine.executeSql
  simp only [hstart]
  rw [h.start_eq]
  rcases hparse : (Parser.parse libs.strtof (Parser.yyparse libs.syntaxError) .initial sql).1 with
    ⟨statement, _ | error⟩
  · dsimp only
    split
    · exact ⟨rel, ⟨by rw [hparse], rfl⟩, h⟩
    · obtain ⟨hspelt, hnul⟩ := Parser.parse_spelt hparse
      have hrefined := refined_runStatement libs world h hnul hspelt
      rcases hrun : engine.runStatement libs .stubs world statement ⟨engine, []⟩ with ⟨_ | _, s⟩
      all_goals rw [hrun] at hrefined
      · exact ⟨rel, ⟨by rw [hparse], rfl⟩, hrefined⟩
      · obtain ⟨rel', hreturned, himplements⟩ := hrefined
        exact ⟨rel', ⟨by rw [hparse], by rw [hparse]; exact hreturned⟩, himplements⟩
  · exact ⟨rel, ⟨rfl, error, by rw [hparse], rfl⟩, h⟩

end Requests

end Rucbase
