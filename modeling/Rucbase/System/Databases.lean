import Rucbase.Lib.Runs
import Rucbase.System.CreateTable

/-!
# CREATE DATABASE and DROP DATABASE

`SmManager::create_db` and `drop_db` (`src/system/sm_manager.cpp`) make and remove a directory of
the working directory. What exists already is not theirs: `create_db` refuses a name that is taken,
and `drop_db` refuses what does not look like a database and the database that is open.

`create_db` writes two files into the new directory and removes it again when one of them fails
(`createDb_atomic`). A removal can fail itself and leave a part of the files, so this is no promise
of `drop_db`. What no run of the two touches, whatever the calls below them return, is in
`entries_of_run`.

`create_file` of `DiskManager` is left to the labs. Here it throws, or returns with or without a new
file.
-/

namespace Rucbase

open Lib

/-- An entry of the working directory; the files of a directory go by their paths inside it. -/
inductive DirEntry where
  | file (content : Bytes)
  | directory (files : Bytes → Option Bytes)

/-- The working directory, and the name of the open database (`db_.name_`). -/
structure Databases where
  entries : Bytes → Option DirEntry
  openName : Bytes := []

/-- What `create_db` and `drop_db` throw. -/
inductive DbError where
  /-- `RMDBError` of `database_path`. -/
  | invalidName (dbName : Bytes)
  | databaseExists (dbName : Bytes)
  | databaseNotFound (dbName : Bytes)
  /-- `std::filesystem::filesystem_error`. -/
  | filesystem (what : Bytes)
  | thrown (e : Error)
  deriving DecidableEq, Repr

/-- The message that a class of `errors.h` hands to the constructor of `RMDBError`. -/
def DbError.message : DbError → Option Bytes
  | .invalidName dbName => some (text "Invalid database name: " ++ dbName)
  | .databaseExists dbName => some (text "Database already exists: " ++ dbName)
  | .databaseNotFound dbName => some (text "Database not found: " ++ dbName)
  | .filesystem _ => none
  | .thrown e => e.message

/-- `LOG_FILE_NAME`. -/
def logFileName : Bytes := text "db.log"

/-- What writing `db.meta` meets. -/
inductive MetaCall where
  | written
  /-- The stream does not open; the file may be there all the same. -/
  | notOpened (created : Bool)
  /-- The write breaks off. -/
  | broken (left : Bytes)

/-- What `remove_all` does. -/
inductive Removal where
  | complete
  /-- There was nothing left to remove. -/
  | nothing
  /-- It fails, and the directory stays with some of its files. -/
  | broken (what : Bytes) (keep : Bytes → Bool)

/-- What the calls of `create_db` return. -/
structure CreateDbCalls where
  /-- `create_directory` throws, or says whether it made the directory. -/
  createDirectory : Except Bytes Bool := .ok true
  writeMeta : MetaCall := .written
  /-- `create_file` throws, or the file is there or not. -/
  createLog : Except Error Bool := .ok true
  removeAll : Removal := .complete

namespace Databases

/-- Computations on the working directory. -/
abbrev Dm := Effect DbError Databases

/-- The name is one component of a path, and neither `.` nor `..`. -/
def ValidName (dbName : Bytes) : Prop :=
  dbName ≠ [] ∧ 47 ∉ dbName ∧ dbName ≠ text "." ∧ dbName ≠ text ".."

instance (dbName : Bytes) : Decidable (ValidName dbName) := inferInstanceAs (Decidable (_ ∧ _))

/-- `database_path`. -/
def databasePath (dbName : Bytes) : Except DbError Bytes :=
  if ValidName dbName then .ok dbName else .error (.invalidName dbName)

/-- An entry changes. -/
def put (state : Databases) (path : Bytes) (entry : Option DirEntry) : Databases :=
  { state with entries := Function.update state.entries path entry }

/-- A file in a directory changes. -/
def putFile (path name : Bytes) (content : Option Bytes) : Dm Unit :=
  Effect.modify fun state =>
    match state.entries path with
    | some (.directory files) =>
      state.put path (some (.directory (Function.update files name content)))
    | _ => state

/-- `remove_all` of a path. -/
def removeAll (path : Bytes) : Removal → Dm Unit
  | .complete => Effect.modify fun state => state.put path none
  | .nothing => pure ()
  | .broken _ keep => Effect.modify fun state =>
    match state.entries path with
    | some (.directory files) =>
      state.put path (some (.directory fun name => if keep name then files name else none))
    | _ => state

/-- `write_meta_file` in a new directory. -/
def writeMetaFile (json : JsonText) (path : Bytes) (db : DbMeta) (call : MetaCall) : Dm Unit :=
  match db.write json with
  | .error e => Effect.raise (.thrown e)
  | .ok serialized =>
    let name := path ++ text "/" ++ dbMetaName
    match call with
    | .written => putFile path dbMetaName (some serialized)
    | .notOpened created => do
      putFile path dbMetaName (if created then some [] else none)
      Effect.raise (.thrown (.internalError (text "cannot open database metadata: " ++ name)))
    | .broken left => do
      putFile path dbMetaName (some left)
      Effect.raise (.thrown (.internalError (text "cannot write database metadata: " ++ name)))

/-- `create_file` of the log. -/
def createLogFile (path : Bytes) : Except Error Bool → Dm Unit
  | .error e => Effect.raise (.thrown e)
  | .ok created => putFile path logFileName (if created then some [] else none)

/-- The `try` block of `create_db`. -/
def fillDatabase (json : JsonText) (dbName : Bytes) (calls : CreateDbCalls) : Dm Unit := do
  writeMetaFile json dbName (DbMeta.empty dbName) calls.writeMeta
  createLogFile dbName calls.createLog

/-- `create_db` behind its checks. -/
def makeDatabase (json : JsonText) (dbName : Bytes) (calls : CreateDbCalls) : Dm Unit :=
  match calls.createDirectory with
  | .error what => Effect.raise (.filesystem what)
  | .ok false => Effect.raise (.databaseExists dbName)
  | .ok true => do
    Effect.modify fun state => state.put dbName (some (.directory fun _ => none))
    -- What the removal reports is ignored.
    Effect.onError (fillDatabase json dbName calls) (removeAll dbName calls.removeAll)

/-- `create_db`. -/
def createDb (json : JsonText) (dbName : Bytes) (calls : CreateDbCalls) : Dm Unit := do
  let path ← Effect.lift (databasePath dbName)
  let state ← Effect.get
  if (state.entries path).isSome then Effect.raise (.databaseExists dbName)
  else makeDatabase json path calls

/-- `is_directory` and `is_regular_file` of `db.meta` in it. -/
def DirEntry.isDatabase : Option DirEntry → Bool
  | some (.directory files) => (files dbMetaName).isSome
  | _ => false

/-- The last lines of `drop_db`. -/
def removeDatabase (dbName : Bytes) (removal : Removal) : Dm Unit := do
  removeAll dbName removal
  match removal with
  | .complete => pure ()
  | .nothing => Effect.raise (.databaseNotFound dbName)
  | .broken what _ => Effect.raise (.filesystem what)

/-- `drop_db`. -/
def dropDb (dbName : Bytes) (removal : Removal) : Dm Unit := do
  let path ← Effect.lift (databasePath dbName)
  let state ← Effect.get
  if DirEntry.isDatabase (state.entries path) = false then
    Effect.raise (.databaseNotFound dbName)
  else if state.openName = dbName then
    Effect.raise (.thrown (.internalError (text "cannot drop an open database: " ++ dbName)))
  else removeDatabase path removal

/-! ## What the calls leave alone -/

/-- The computation changes no entry but one. -/
def Local {α : Type} (path : Bytes) (x : Dm α) : Prop :=
  ∀ state, (x state).2.openName = state.openName ∧
    ∀ other, other ≠ path → (x state).2.entries other = state.entries other

section Local

variable {α β : Type} {path : Bytes}

theorem local_of_eq {x : Dm α} (h : ∀ state, (x state).2 = state) : Local path x := by
  intro state
  rw [h]
  exact ⟨rfl, fun _ _ => rfl⟩

theorem local_raise (e : DbError) : Local path (Effect.raise e : Dm α) := local_of_eq fun _ => rfl

theorem Local.bind {x : Dm α} {f : α → Dm β} (hx : Local path x) (hf : ∀ a, Local path (f a)) :
    Local path (x >>= f) := by
  intro state
  obtain ⟨hname, hentries⟩ := hx state
  rw [Effect.bind_apply]
  rcases hrun : x state with ⟨e | a, next⟩
  · rw [hrun] at hname hentries
    exact ⟨hname, hentries⟩
  · rw [hrun] at hname hentries
    obtain ⟨hname', hentries'⟩ := hf a next
    exact ⟨hname'.trans hname, fun other hother =>
      (hentries' other hother).trans (hentries other hother)⟩

theorem Local.onError {x : Dm α} {handler : Dm Unit} (hx : Local path x)
    (hhandler : Local path handler) : Local path (Effect.onError x handler) := by
  intro state
  obtain ⟨hname, hentries⟩ := hx state
  rcases hrun : x state with ⟨e | a, next⟩
  · rw [hrun] at hname hentries
    obtain ⟨hname', hentries'⟩ := hhandler next
    have hboth : (handler next).2.openName = state.openName ∧
        ∀ other, other ≠ path → (handler next).2.entries other = state.entries other :=
      ⟨hname'.trans hname, fun other hother =>
        (hentries' other hother).trans (hentries other hother)⟩
    rcases hrun' : handler next with ⟨e' | u, last⟩
    · rw [hrun'] at hboth
      rw [Effect.onError_of_handler_error hrun hrun']
      exact hboth
    · rw [hrun'] at hboth
      rw [Effect.onError_of_error hrun hrun']
      exact hboth
  · rw [hrun] at hname hentries
    rw [Effect.onError_of_ok hrun]
    exact ⟨hname, hentries⟩

theorem local_put (entry : Databases → Option DirEntry) :
    Local path (Effect.modify fun state => state.put path (entry state)) := by
  intro state
  refine ⟨rfl, fun other hother => ?_⟩
  show Function.update state.entries path (entry state) other = _
  rw [Function.update_of_ne hother]

theorem local_putFile (name : Bytes) (content : Option Bytes) :
    Local path (putFile path name content) := by
  intro state
  unfold putFile
  rw [Effect.modify_apply]
  split
  · exact local_put (fun _ => some (.directory _)) state
  · exact ⟨rfl, fun _ _ => rfl⟩

theorem local_removeAll (removal : Removal) : Local path (removeAll path removal) := by
  cases removal with
  | complete => exact local_put fun _ => none
  | nothing => exact local_of_eq fun _ => rfl
  | broken what keep =>
    intro state
    rw [removeAll, Effect.modify_apply]
    split
    · exact local_put (fun _ => some (.directory _)) state
    · exact ⟨rfl, fun _ _ => rfl⟩

theorem local_writeMetaFile (json : JsonText) (db : DbMeta) (call : MetaCall) :
    Local path (writeMetaFile json path db call) := by
  unfold writeMetaFile
  cases db.write json with
  | error e => exact local_raise _
  | ok serialized =>
    cases call with
    | written => exact local_putFile _ _
    | notOpened created => exact (local_putFile _ _).bind fun _ => local_raise _
    | broken left => exact (local_putFile _ _).bind fun _ => local_raise _

theorem local_createLogFile (result : Except Error Bool) :
    Local path (createLogFile path result) := by
  cases result with
  | error e => exact local_raise _
  | ok created => exact local_putFile _ _

theorem local_fillDatabase (json : JsonText) (calls : CreateDbCalls) :
    Local path (fillDatabase json path calls) :=
  (local_writeMetaFile json _ _).bind fun _ => local_createLogFile _

theorem local_makeDatabase (json : JsonText) (calls : CreateDbCalls) :
    Local path (makeDatabase json path calls) := by
  unfold makeDatabase
  split
  · exact local_raise _
  · exact local_raise _
  · exact (local_put fun _ => _).bind fun _ =>
      (local_fillDatabase json calls).onError (local_removeAll _)

theorem local_removeDatabase (removal : Removal) : Local path (removeDatabase path removal) := by
  refine (local_removeAll removal).bind fun _ => ?_
  cases removal with
  | complete => exact local_of_eq fun _ => rfl
  | nothing => exact local_raise _
  | broken what keep => exact local_raise _

end Local

/-! ## `create_db` and `drop_db` -/

section Calls

variable {json : JsonText} {dbName : Bytes} {calls : CreateDbCalls} {removal : Removal}
  {state : Databases}

theorem databasePath_apply (h : ValidName dbName) :
    (Effect.lift (databasePath dbName) : Dm Bytes) state = (.ok dbName, state) := by
  rw [databasePath, if_pos h]
  rfl

theorem createDb_invalid (h : ¬ValidName dbName) :
    createDb json dbName calls state = (.error (.invalidName dbName), state) := by
  unfold createDb databasePath
  rw [if_neg h]
  rfl

theorem createDb_taken (h : ValidName dbName) (htaken : (state.entries dbName).isSome = true) :
    createDb json dbName calls state = (.error (.databaseExists dbName), state) := by
  rw [createDb, Effect.bind_of_ok (databasePath_apply h),
    Effect.bind_of_ok (Effect.get_apply state), if_pos htaken]
  rfl

theorem createDb_free (h : ValidName dbName) (hfree : state.entries dbName = none) :
    createDb json dbName calls state = makeDatabase json dbName calls state := by
  rw [createDb, Effect.bind_of_ok (databasePath_apply h),
    Effect.bind_of_ok (Effect.get_apply state), if_neg (by simp [hfree])]

theorem dropDb_invalid (h : ¬ValidName dbName) :
    dropDb dbName removal state = (.error (.invalidName dbName), state) := by
  unfold dropDb databasePath
  rw [if_neg h]
  rfl

/-- `drop_db` throws and changes nothing, or goes on to the removal of a database that is not
open. -/
theorem dropDb_cases (dbName : Bytes) (removal : Removal) (state : Databases) :
    (dropDb dbName removal state).2 = state ∨
      (ValidName dbName ∧ DirEntry.isDatabase (state.entries dbName) = true ∧
        state.openName ≠ dbName ∧
        dropDb dbName removal state = removeDatabase dbName removal state) := by
  by_cases hvalid : ValidName dbName
  · rw [dropDb, Effect.bind_of_ok (databasePath_apply hvalid),
      Effect.bind_of_ok (Effect.get_apply state)]
    split_ifs with hdatabase hopen
    · exact Or.inl rfl
    · exact Or.inl rfl
    · exact Or.inr ⟨hvalid, by simpa using hdatabase, hopen, rfl⟩
  · rw [dropDb_invalid hvalid]
    exact Or.inl rfl

/-- The files of a new database. -/
def newFiles (serialized : Bytes) (logCreated : Bool) : Bytes → Option Bytes :=
  Function.update (Function.update (fun _ => none) dbMetaName (some serialized)) logFileName
    (if logCreated then some [] else none)

theorem putFile_directory {path name : Bytes} {content : Option Bytes}
    {files : Bytes → Option Bytes} :
    putFile path name content (state.put path (some (.directory files))) =
      (.ok (), state.put path (some (.directory (Function.update files name content)))) := by
  unfold putFile
  rw [Effect.modify_apply]
  have hentry : (state.put path (some (.directory files))).entries path =
      some (.directory files) := Function.update_self ..
  rw [hentry]
  simp [put]

/-- When the `try` block of `create_db` returns, both files are written. -/
theorem fillDatabase_ok {next : Databases}
    (h : fillDatabase json dbName calls (state.put dbName (some (.directory fun _ => none))) =
      (.ok (), next)) :
    ∃ serialized logCreated, (DbMeta.empty dbName).write json = .ok serialized ∧
      calls.createLog = .ok logCreated ∧
      next = state.put dbName (some (.directory (newFiles serialized logCreated))) := by
  obtain ⟨_, written, hmeta, hlog⟩ := Effect.bind_eq_ok.mp h
  unfold writeMetaFile at hmeta
  cases hserialized : (DbMeta.empty dbName).write json with
  | error e =>
    rw [hserialized] at hmeta
    cases hmeta
  | ok serialized =>
    rw [hserialized] at hmeta
    cases hcall : calls.writeMeta with
    | written =>
      rw [hcall] at hmeta
      obtain ⟨-, rfl⟩ := Prod.mk.inj (putFile_directory.symm.trans hmeta)
      cases hcreate : calls.createLog with
      | error e =>
        rw [hcreate] at hlog
        cases hlog
      | ok logCreated =>
        rw [hcreate] at hlog
        obtain ⟨-, rfl⟩ := Prod.mk.inj (putFile_directory.symm.trans hlog)
        exact ⟨serialized, logCreated, rfl, rfl, rfl⟩
    | notOpened created =>
      rw [hcall] at hmeta
      obtain ⟨_, _, -, hraise⟩ := Effect.bind_eq_ok.mp hmeta
      cases hraise
    | broken left =>
      rw [hcall] at hmeta
      obtain ⟨_, _, -, hraise⟩ := Effect.bind_eq_ok.mp hmeta
      cases hraise

/-- A directory that was free, was filled by something local and is removed leaves no trace. -/
theorem put_none_of_local {next : Databases} (hfree : state.entries dbName = none)
    (hname : next.openName = state.openName)
    (hentries : ∀ other, other ≠ dbName → next.entries other = state.entries other) :
    next.put dbName none = state := by
  obtain ⟨entries, openName⟩ := state
  obtain ⟨entries', openName'⟩ := next
  obtain rfl : openName' = openName := hname
  refine congrArg (Databases.mk · openName') (funext fun other => ?_)
  by_cases hother : other = dbName
  · rw [hother]
    exact (Function.update_self ..).trans hfree.symm
  · exact (Function.update_of_ne hother ..).trans (hentries other hother)

/-- If the removal in its handler does not fail, `create_db` makes a whole database under a name
that was free, or throws and leaves the working directory as it was. -/
theorem createDb_atomic (json : JsonText) (dbName : Bytes) (calls : CreateDbCalls)
    (hremove : calls.removeAll = .complete) (state : Databases) :
    (∃ e, createDb json dbName calls state = (.error e, state)) ∨
      (ValidName dbName ∧ state.entries dbName = none ∧
        ∃ serialized logCreated, (DbMeta.empty dbName).write json = .ok serialized ∧
          calls.createLog = .ok logCreated ∧
          createDb json dbName calls state =
            (.ok (), state.put dbName (some (.directory (newFiles serialized logCreated))))) := by
  by_cases hvalid : ValidName dbName
  swap
  · exact Or.inl ⟨_, createDb_invalid hvalid⟩
  by_cases hfree : state.entries dbName = none
  swap
  · exact Or.inl ⟨_, createDb_taken hvalid (Option.isSome_iff_ne_none.mpr hfree)⟩
  rw [createDb_free hvalid hfree, makeDatabase]
  rcases hdirectory : calls.createDirectory with what | made
  · exact Or.inl ⟨_, rfl⟩
  cases made with
  | false => exact Or.inl ⟨_, rfl⟩
  | true =>
    simp only
    rw [Effect.bind_of_ok (Effect.modify_apply _ state)]
    have hfills : Local dbName (fillDatabase json dbName calls) := local_fillDatabase json calls
    have hlocal := hfills (state.put dbName (some (.directory fun _ => none)))
    rcases hfill : fillDatabase json dbName calls
        (state.put dbName (some (.directory fun _ => none))) with ⟨e | u, next⟩
    · -- The handler removes what the block has left, and nothing else has changed.
      rw [hfill] at hlocal
      refine Or.inl ⟨e, ?_⟩
      have hhandler : removeAll dbName calls.removeAll next = (.ok (), next.put dbName none) := by
        rw [hremove]
        rfl
      rw [Effect.onError_of_error hfill hhandler]
      have hentries : ∀ other, other ≠ dbName → next.entries other = state.entries other := by
        intro other hother
        rw [hlocal.2 other hother]
        exact Function.update_of_ne hother ..
      rw [put_none_of_local hfree hlocal.1 hentries]
    · obtain ⟨serialized, logCreated, hserialized, hlog, rfl⟩ := fillDatabase_ok hfill
      exact Or.inr ⟨hvalid, hfree, serialized, logCreated, hserialized, hlog,
        Effect.onError_of_ok hfill⟩

/-- A database whose log cannot be created leaves no trace. -/
theorem createDb_atomic_log :
    let json : JsonText := .plain
    let calls : CreateDbCalls := { createLog := .error .outOfRange }
    let state : Databases := { entries := fun _ => none }
    calls.removeAll = .complete ∧
      ∃ e, createDb json (text "shop") calls state = (.error e, state) := by
  intro json calls state
  refine ⟨rfl, ?_⟩
  rcases createDb_atomic json (text "shop") calls rfl state with
    herror | ⟨-, -, serialized, logCreated, -, hlog, -⟩
  · exact herror
  · cases hlog

end Calls

/-! ## Runs -/

/-- One of the two statements, with what the calls below it return. -/
inductive DbOp where
  | create (dbName : Bytes) (calls : CreateDbCalls)
  | drop (dbName : Bytes) (removal : Removal)

/-- The working directory behind a statement, whether it throws or not. -/
def step (json : JsonText) (state : Databases) : DbOp → Databases
  | .create dbName calls => (createDb json dbName calls state).2
  | .drop dbName removal => (dropDb dbName removal state).2

/-- One statement after another. -/
def run (json : JsonText) (state : Databases) (ops : List DbOp) : Databases :=
  ops.foldl (step json) state

/-- An entry that is not for these statements: its name is none of a database, or it exists and is
no database or the one that is open. -/
def Protected (state : Databases) (path : Bytes) : Prop :=
  ¬ValidName path ∨ ((state.entries path).isSome = true ∧
    (DirEntry.isDatabase (state.entries path) = false ∨ path = state.openName))

theorem step_protected (json : JsonText) {state : Databases} {path : Bytes}
    (h : state.Protected path) (op : DbOp) :
    (step json state op).entries path = state.entries path ∧
      (step json state op).openName = state.openName := by
  cases op with
  | create dbName calls =>
    by_cases hvalid : ValidName dbName
    swap
    · rw [step, createDb_invalid hvalid]
      exact ⟨rfl, rfl⟩
    by_cases hfree : state.entries dbName = none
    · -- The entry is another one, because that of the new database is free.
      have hne : path ≠ dbName := by
        rintro rfl
        rcases h with hinvalid | ⟨htaken, -⟩
        · exact hinvalid hvalid
        · rw [hfree] at htaken
          cases htaken
      rw [step, createDb_free hvalid hfree]
      have hmakes : Local dbName (makeDatabase json dbName calls) := local_makeDatabase json calls
      exact ⟨(hmakes state).2 path hne, (hmakes state).1⟩
    · rw [step, createDb_taken hvalid (Option.isSome_iff_ne_none.mpr hfree)]
      exact ⟨rfl, rfl⟩
  | drop dbName removal =>
    rcases dropDb_cases dbName removal state with hsame | ⟨hvalid, hdatabase, hopen, hremove⟩
    · rw [step, hsame]
      exact ⟨rfl, rfl⟩
    · have hne : path ≠ dbName := by
        rintro rfl
        rcases h with hinvalid | ⟨-, hno | rfl⟩
        · exact hinvalid hvalid
        · rw [hdatabase] at hno
          cases hno
        · exact hopen rfl
      rw [step, hremove]
      have hremoves : Local dbName (removeDatabase dbName removal) := local_removeDatabase removal
      exact ⟨(hremoves state).2 path hne, (hremoves state).1⟩

theorem run_protected (json : JsonText) {state : Databases} {path : Bytes}
    (h : state.Protected path) (ops : List DbOp) :
    (run json state ops).entries path = state.entries path ∧
      (run json state ops).openName = state.openName := by
  induction ops using List.reverseRecOn with
  | nil => exact ⟨rfl, rfl⟩
  | append_singleton ops op ih =>
    obtain ⟨hentry, hname⟩ := ih
    have hprotected : (run json state ops).Protected path := by
      unfold Protected
      rw [hentry, hname]
      exact h
    obtain ⟨hentry', hname'⟩ := step_protected json hprotected op
    unfold run at hentry hname hentry' hname' ⊢
    rw [List.foldl_append, List.foldl_cons, List.foldl_nil]
    exact ⟨hentry'.trans hentry, hname'.trans hname⟩

/-- What is not for the two statements is the same behind every run of them, whatever the calls
below return. -/
theorem entries_of_run (json : JsonText) (state : Databases) (path : Bytes)
    (h : state.Protected path) (ops : List DbOp) :
    (run json state ops).entries path = state.entries path :=
  (run_protected json h ops).1

/-- A file with the name of a database survives. -/
theorem entries_of_run_notes :
    let json : JsonText := .plain
    let notes : Bytes := text "notes"
    let state : Databases :=
      { entries := fun path => if path = notes then some (.file [1]) else none }
    state.Protected notes ∧
      (run json state [.drop notes .complete, .create notes {}, .drop notes .complete]).entries
        notes = some (.file [1]) := by
  intro json notes state
  have hentry : state.entries notes = some (.file [1]) := by simp [state]
  have hprotected : state.Protected notes := by
    refine Or.inr ⟨?_, Or.inl ?_⟩
    · rw [hentry]
      rfl
    · rw [hentry]
      rfl
  exact ⟨hprotected, (entries_of_run json state notes hprotected _).trans hentry⟩

/-- A `drop_db` that breaks off behind `db.meta` leaves a directory that neither statement can
remove or replace any more. -/
theorem stuck_of_broken_drop (json : JsonText) (state : Databases) (dbName what : Bytes)
    (keep : Bytes → Bool) (hvalid : ValidName dbName)
    (hdatabase : DirEntry.isDatabase (state.entries dbName) = true)
    (hopen : state.openName ≠ dbName) (hkeep : keep dbMetaName = false) (ops : List DbOp) :
    ∃ files, (run json state (.drop dbName (.broken what keep) :: ops)).entries dbName =
      some (.directory files) := by
  obtain ⟨files, hfiles⟩ : ∃ files, state.entries dbName = some (.directory files) := by
    rcases hentry : state.entries dbName with _ | ⟨content | files⟩
    · rw [hentry] at hdatabase
      cases hdatabase
    · rw [hentry] at hdatabase
      cases hdatabase
    · exact ⟨files, rfl⟩
  -- The files that are left, without `db.meta`.
  have hstep : step json state (.drop dbName (.broken what keep)) =
      state.put dbName (some (.directory fun name => if keep name then files name else none)) := by
    rw [step, dropDb, Effect.bind_of_ok (databasePath_apply hvalid),
      Effect.bind_of_ok (Effect.get_apply state), if_neg (by simp [hdatabase]), if_neg hopen,
      removeDatabase, removeAll, Effect.bind_of_ok (Effect.modify_apply _ state), hfiles]
    rfl
  have hentry : (step json state (.drop dbName (.broken what keep))).entries dbName =
      some (.directory fun name => if keep name then files name else none) := by
    rw [hstep]
    exact Function.update_self ..
  have hprotected : (step json state (.drop dbName (.broken what keep))).Protected dbName := by
    refine Or.inr ⟨?_, Or.inl ?_⟩
    · rw [hentry]
      rfl
    · rw [hentry]
      simp [DirEntry.isDatabase, hkeep]
  exact ⟨_, (run_protected json hprotected ops).1.trans hentry⟩

/-- With the log file the directory stays, and `create_db` finds the name taken. -/
theorem stuck_of_broken_drop_log :
    let json : JsonText := .plain
    let shop : Bytes := text "shop"
    let content := text "\x7b\n  \"database\": \"shop\",\n  \"tables\": []\n\x7d\n"
    let keep : Bytes → Bool := fun name => name = logFileName
    let state : Databases :=
      { entries := fun path =>
          if path = shop then some (.directory (newFiles content true)) else none }
    ValidName shop ∧ keep dbMetaName = false ∧ ∃ files,
      (run json state [.drop shop (.broken [] keep), .drop shop .complete, .create shop {}]).entries
        shop = some (.directory files) := by
  intro json shop content keep state
  have hvalid : ValidName shop := by decide
  have hkeep : keep dbMetaName = false := by decide
  have hentry : state.entries shop = some (.directory (newFiles content true)) := by simp [state]
  have hdatabase : DirEntry.isDatabase (state.entries shop) = true := by
    rw [hentry]
    decide
  exact ⟨hvalid, hkeep,
    stuck_of_broken_drop json state shop [] keep hvalid hdatabase (by decide) hkeep _⟩

end Databases

end Rucbase
