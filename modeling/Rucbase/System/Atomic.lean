import Rucbase.System.CreateTable

/-!
# What a failed CREATE TABLE leaves behind

A run of `create_table` is followed from state to state. Each of its steps is described by what it
does under every fault: creating the file (`createFile_run`), opening it (`openFile_run`), writing
the catalog (`writeMetaFile_run`) and the handler (`rollback_closed`, `rollback_leaked`,
`rollback_withTable`). Put together they say what the whole statement leaves (`createTable_run`).

A failed statement leaves no trace, except when the failing call is one of those that the handler
does not cover: the calls of `RmManager::create_file` after the file exists, `read_page` in the
constructor of `RmFileHandle` (the file stays open, so it is not removed), a failing `write_page` in
the handler itself, and `db.meta`, whose old contents are gone (`createTable_noTrace_iff`).

A statement that succeeds turns a valid catalog into a valid one, which with the reader and the
writer of `db.meta` is what `catalog_restores` says.
-/

namespace Rucbase

open Lib

namespace SmManager

/-! ## The checks -/

/-- The loop that checks the columns accepts different names, valid lengths and no more than the
record may hold, and returns the size of the record. -/
theorem checkColumns_eq_ok {colDefs : List ColSchema} {colNames : List Bytes} {recordSize r : ℤ}
    (hnodup : colNames.Nodup) (hnonneg : 0 ≤ recordSize) (hle : recordSize ≤ rmMaxRecordSize) :
    checkColumns colDefs colNames recordSize = .ok r ↔
      (colNames ++ colDefs.map ColSchema.name).Nodup ∧ (∀ col ∈ colDefs, col.ValidLen) ∧
        recordSize + (colDefs.map ColSchema.len).sum ≤ rmMaxRecordSize ∧
        r = recordSize + (colDefs.map ColSchema.len).sum := by
  induction colDefs generalizing colNames recordSize with
  | nil =>
    rw [checkColumns, pure_eq_ok, eq_comm]
    simp [hnodup, hle]
  | cons col colDefs ih =>
    have hunfold : checkColumns (col :: colDefs) colNames recordSize = .ok r ↔
        col.name ∉ colNames ∧ col.ValidLen ∧ recordSize + col.len ≤ rmMaxRecordSize ∧
          checkColumns colDefs (colNames ++ [col.name]) (recordSize + col.len) = .ok r := by
      rw [checkColumns]
      simp only [bind_eq_ok, throwIf_eq_ok, exists_and_left, exists_const, not_lt]
      rw [DbMeta.not_badLen_iff]
      constructor
      · rintro ⟨hfresh, hvalid, -, hfits, h⟩
        exact ⟨hfresh, hvalid, hfits, h⟩
      · rintro ⟨hfresh, hvalid, hfits, h⟩
        exact ⟨hfresh, hvalid, by omega, hfits, h⟩
    rw [hunfold, List.map_cons, List.map_cons, List.sum_cons]
    constructor
    · rintro ⟨hfresh, hvalid, hfits, h⟩
      have hpos := hvalid.1
      have hnodup' : (colNames ++ [col.name]).Nodup := by
        simpa using List.Nodup.concat hfresh hnodup
      obtain ⟨hnames, hcols, hsum, rfl⟩ := (ih hnodup' (by omega) hfits).mp h
      exact ⟨by simpa using hnames, List.forall_mem_cons.mpr ⟨hvalid, hcols⟩, by omega, by omega⟩
    · rintro ⟨hnames, hcols, hsum, rfl⟩
      obtain ⟨hvalid, hcols⟩ := List.forall_mem_cons.mp hcols
      have hpos := hvalid.1
      have hrest := sum_len_nonneg fun c hc => (hcols c hc).1
      have hfresh : col.name ∉ colNames := fun hmem =>
        (List.nodup_append.mp hnames).2.2 _ hmem _ (List.mem_cons_self ..) rfl
      refine ⟨hfresh, hvalid, by omega, ?_⟩
      exact (ih (by simpa using List.Nodup.concat hfresh hnodup) (by omega) (by omega)).mpr
        ⟨by simpa using hnames, hcols, by omega, by omega⟩

theorem makeColumns_eq_layout (tabName : Bytes) (colDefs : List ColSchema) (offset : ℤ) :
    makeColumns tabName colDefs offset = layout tabName (fun _ => false) offset colDefs := by
  induction colDefs generalizing offset with
  | nil => rfl
  | cons col colDefs ih => rw [makeColumns, layout, ih]

end SmManager

/-! ## The record file -/

namespace System

/-- The system with a record file. -/
def withFile (s : System) (path : Bytes) (hdr : Option RmFileHdr) : System :=
  { s with files := Function.update s.files path (some (.record hdr)) }

/-- The system with a path open under a new descriptor. -/
def withOpen (s : System) (path : Bytes) : System :=
  { s with opened := (DiskManager.newFd s.opened, path) :: s.opened }

end System

theorem DiskManager.newFd_fresh (opened : List (ℕ × Bytes)) {entry : ℕ × Bytes}
    (h : entry ∈ opened) : entry.1 ≠ newFd opened := by
  have hle : ∀ fds : List ℕ, ∀ fd ∈ fds, fd ≤ fds.foldr max 0 := by
    intro fds
    induction fds with
    | nil => simp
    | cons first fds ih =>
      intro fd hfd
      rw [List.foldr_cons]
      rcases List.mem_cons.mp hfd with rfl | hfd
      · exact le_max_left ..
      · exact (ih fd hfd).trans (le_max_right ..)
  have := hle (opened.map Prod.fst) entry.1 (List.mem_map_of_mem h)
  rw [newFd]
  omega

namespace DiskManager

variable {s : System} {path : Bytes}

/-- Closing the last file that was opened. -/
theorem closeFile_withOpen (s : System) (path : Bytes) :
    closeFile (newFd s.opened) (s.withOpen path) = (.ok (), s) := by
  have hfilter : (s.opened.filter fun entry => entry.1 ≠ newFd s.opened) = s.opened := by
    refine List.filter_eq_self.mpr fun entry hentry => ?_
    simpa using newFd_fresh s.opened hentry
  simp only [closeFile, System.withOpen, List.any_cons, beq_self_eq_true, Bool.true_or, if_true,
    List.filter_cons, ne_eq, not_true, decide_false, Bool.false_eq_true, if_false]
  simp only [ne_eq] at hfilter
  rw [hfilter]

theorem createFile_free (hfree : s.files path = none) :
    createFile path s = (.ok (), s.withFile path none) := by
  simp [createFile, System.withFile, hfree]

theorem createFile_taken (htaken : s.files path ≠ none) :
    createFile path s = (.error (.fileExistsError path), s) := by
  simp [createFile, Option.isSome_iff_ne_none, htaken]

theorem openFile_withFile (hdr : Option RmFileHdr) (hclosed : isOpen s.opened path = false) :
    openFile path (s.withFile path hdr) =
      (.ok (newFd s.opened), (s.withFile path hdr).withOpen path) := by
  simp [openFile, System.withFile, System.withOpen, hclosed]

theorem writeHeader_withOpen (s : System) (path : Bytes) (old : Option RmFileHdr)
    (hdr : RmFileHdr) :
    writeHeader (newFd s.opened) hdr ((s.withFile path old).withOpen path) =
      (.ok (), (s.withFile path (some hdr)).withOpen path) := by
  simp [writeHeader, System.withFile, System.withOpen]

theorem readHeader_withOpen (s : System) (path : Bytes) (hdr : RmFileHdr) :
    readHeader (newFd s.opened) ((s.withFile path (some hdr)).withOpen path) =
      (.ok hdr, (s.withFile path (some hdr)).withOpen path) := by
  simp [readHeader, System.withFile, System.withOpen]

/-- Removing a file that did not exist before. -/
theorem destroyFile_withFile (hdr : Option RmFileHdr) (hfree : s.files path = none)
    (hclosed : isOpen s.opened path = false) :
    destroyFile path (s.withFile path hdr) = (.ok (), s) := by
  have hrestored : Function.update s.files path none = s.files := by
    rw [← hfree, Function.update_eq_self]
  simp [destroyFile, System.withFile, hclosed, hrestored]

/-- An open file is not removed. -/
theorem destroyFile_open (hdr : Option RmFileHdr) :
    destroyFile path ((s.withFile path hdr).withOpen path) =
      (.error (.fileNotClosedError path), (s.withFile path hdr).withOpen path) := by
  simp [destroyFile, System.withFile, System.withOpen, isOpen]

end DiskManager

namespace RmManager

variable {fault : Option Fault} {s : System} {path : Bytes}

/-- `create_file` on a name that is free: each failing call leaves what stands after the calls
before it. -/
theorem createFile_run {recordSize : ℤ} (hsize : 1 ≤ recordSize ∧ recordSize ≤ rmMaxRecordSize)
    (hfree : s.files path = none) (hclosed : DiskManager.isOpen s.opened path = false) :
    createFile fault path recordSize s =
      match fault with
      | some (.disk .createFile e) => (.error e, s)
      | some (.disk .createOpen e) => (.error e, s.withFile path none)
      | some (.disk .createWrite e) => (.error e, (s.withFile path none).withOpen path)
      | _ => (.ok (), s.withFile path (some (newHeader recordSize))) := by
  have hcheck : throwIf (recordSize < 1 ∨ rmMaxRecordSize < recordSize)
      (Error.invalidRecordSizeError recordSize) = .ok () := throwIf_eq_ok.mpr (by omega)
  have hcreate := DiskManager.createFile_free hfree
  have hopen := DiskManager.openFile_withFile none hclosed
  have hwrite := DiskManager.writeHeader_withOpen s path none (newHeader recordSize)
  have hclose := DiskManager.closeFile_withOpen (s.withFile path (some (newHeader recordSize))) path
  have hfd : (s.withFile path (some (newHeader recordSize))).opened = s.opened := rfl
  rw [hfd] at hclose
  rcases fault with _ | ⟨call, e⟩ | _ | left
  case some.disk => cases call <;> simp [createFile, Effect.bind_apply, hcheck,
    DiskManager.call, hcreate, hopen, hwrite, hclose]
  all_goals simp [createFile, Effect.bind_apply, hcheck, DiskManager.call, hcreate, hopen,
    hwrite, hclose]

/-- `open_file` on a file with a header. -/
theorem openFile_run (hdr : RmFileHdr) (hclosed : DiskManager.isOpen s.opened path = false) :
    openFile fault path (s.withFile path (some hdr)) =
      match fault with
      | some (.disk .openOpen e) => (.error e, s.withFile path (some hdr))
      | some (.disk .openRead e) => (.error e, (s.withFile path (some hdr)).withOpen path)
      | _ => (.ok ⟨DiskManager.newFd s.opened, hdr⟩,
          (s.withFile path (some hdr)).withOpen path) := by
  have hopen := DiskManager.openFile_withFile (some hdr) hclosed
  have hread := DiskManager.readHeader_withOpen s path hdr
  rcases fault with _ | ⟨call, e⟩ | _ | left
  case some.disk =>
    cases call <;> simp [openFile, Effect.bind_apply, DiskManager.call, hopen, hread]
  all_goals simp [openFile, Effect.bind_apply, DiskManager.call, hopen, hread]

/-- `close_file` on the last file that was opened. -/
theorem closeFile_run (s : System) (path : Bytes) (hdr : RmFileHdr) :
    closeFile fault ⟨DiskManager.newFd s.opened, hdr⟩ ((s.withFile path (some hdr)).withOpen path) =
      match fault with
      | some (.disk .closeWrite e) => (.error e, (s.withFile path (some hdr)).withOpen path)
      | _ => (.ok (), s.withFile path (some hdr)) := by
  have hwrite := DiskManager.writeHeader_withOpen s path (some hdr) hdr
  have hclose := DiskManager.closeFile_withOpen (s.withFile path (some hdr)) path
  have hfd : (s.withFile path (some hdr)).opened = s.opened := rfl
  rw [hfd] at hclose
  rcases fault with _ | ⟨call, e⟩ | _ | left
  case some.disk =>
    cases call <;> simp [closeFile, Effect.bind_apply, DiskManager.call, hwrite, hclose]
  all_goals simp [closeFile, Effect.bind_apply, DiskManager.call, hwrite, hclose]

end RmManager

/-! ## A run of `create_table` -/

namespace System

/-- The system with other contents of `db.meta`. -/
def withMeta (s : System) (content : Bytes) : System :=
  { s with files := Function.update s.files dbMetaName (some (.text content)) }

/-- The system with another handle, or none, for a table. -/
def withHandle (s : System) (tabName : Bytes) (handle : Option RmFileHandle) : System :=
  { s with fhs := Function.update s.fhs tabName handle }

/-- The system after a table's file is created and opened and its handle is kept. -/
def withTable (s : System) (tabName : Bytes) (hdr : RmFileHdr) : System :=
  ((s.withFile tabName (some hdr)).withOpen tabName).withHandle tabName
    (some ⟨DiskManager.newFd s.opened, hdr⟩)

end System

namespace SmManager

variable {json : JsonText} {fault : Option Fault} {s : System} {tabName : Bytes}

theorem writeMetaFile_run (db : DbMeta) :
    writeMetaFile json fault db s =
      match db.write json with
      | .error e => (.error e, s)
      | .ok serialized =>
        match fault with
        | some .metaOpen =>
          (.error (.internalError (text "cannot open database metadata: " ++ dbMetaName)),
            s.withMeta [])
        | some (.metaWrite left) =>
          (.error (.internalError (text "cannot write database metadata: " ++ dbMetaName)),
            s.withMeta left)
        | _ => (.ok (), s.withMeta serialized) := by
  rw [writeMetaFile, Effect.bind_apply]
  cases db.write json with
  | error e => rfl
  | ok serialized => rcases fault with _ | ⟨call, e⟩ | _ | left <;> rfl

/-- The handler, when the file was not opened. -/
theorem rollback_closed (hdr : Option RmFileHdr) (hhandle : s.fhs tabName = none)
    (hfree : s.files tabName = none) (hclosed : DiskManager.isOpen s.opened tabName = false) :
    rollback fault tabName (s.withFile tabName hdr) = (.ok (), s) := by
  have hhandle' : (s.withFile tabName hdr).fhs tabName = none := hhandle
  rw [rollback, Effect.bind_of_ok (Effect.get_apply _), hhandle']
  exact DiskManager.destroyFile_withFile hdr hfree hclosed

/-- The handler, when the file was opened and the handle was lost. -/
theorem rollback_leaked (hdr : Option RmFileHdr) (hhandle : s.fhs tabName = none) :
    rollback fault tabName ((s.withFile tabName hdr).withOpen tabName) =
      (.error (.fileNotClosedError tabName), (s.withFile tabName hdr).withOpen tabName) := by
  have hhandle' : ((s.withFile tabName hdr).withOpen tabName).fhs tabName = none := hhandle
  rw [rollback, Effect.bind_of_ok (Effect.get_apply _), hhandle']
  exact DiskManager.destroyFile_open hdr

/-- The handler, when the handle is there: the file is closed and removed, unless writing its header
back fails. -/
theorem rollback_withTable (hdr : RmFileHdr) (hhandle : s.fhs tabName = none)
    (hfree : s.files tabName = none) (hclosed : DiskManager.isOpen s.opened tabName = false) :
    rollback fault tabName (s.withTable tabName hdr) =
      match fault with
      | some (.disk .closeWrite e) => (.error e, s.withTable tabName hdr)
      | _ => (.ok (), s) := by
  -- The handle does not matter to the disk, so the calls run as they do without it.
  let handle : RmFileHandle := ⟨DiskManager.newFd s.opened, hdr⟩
  let t := s.withHandle tabName (some handle)
  have hget : (s.withTable tabName hdr).fhs tabName = some handle := Function.update_self ..
  have hclose : RmManager.closeFile fault handle (s.withTable tabName hdr) =
      match fault with
      | some (.disk .closeWrite e) => (.error e, s.withTable tabName hdr)
      | _ => (.ok (), t.withFile tabName (some hdr)) := RmManager.closeFile_run t tabName hdr
  have herase : (t.withFile tabName (some hdr)).withHandle tabName none =
      s.withFile tabName (some hdr) := by
    have hrestored : Function.update (Function.update s.fhs tabName (some handle)) tabName none =
        s.fhs := by
      rw [Function.update_idem, ← hhandle, Function.update_eq_self]
    ext1
    · rfl
    · exact hrestored
    · rfl
    · rfl
  have hdestroy := DiskManager.destroyFile_withFile (some hdr) hfree hclosed
  rw [← herase] at hdestroy
  rw [rollback, Effect.bind_of_ok (Effect.get_apply _), hget]
  rcases fault with _ | ⟨call, e⟩ | _ | left
  case some.disk =>
    cases call
    case closeWrite => exact Effect.bind_of_error hclose
    all_goals exact (Effect.bind_of_ok hclose).trans hdestroy
  all_goals exact (Effect.bind_of_ok hclose).trans hdestroy

/-- The catalog that `create_table` prepares. -/
def nextDb (s : System) (tabName : Bytes) (colDefs : List ColSchema) : DbMeta :=
  s.db.insert ⟨tabName, makeColumns tabName colDefs 0, []⟩

/-- The part in the `try`, once the file is created. -/
theorem adoptTable_run (hdr : RmFileHdr) (db : DbMeta)
    (hclosed : DiskManager.isOpen s.opened tabName = false) :
    adoptTable json fault tabName db (s.withFile tabName (some hdr)) =
      match fault with
      | some (.disk .openOpen e) => (.error e, s.withFile tabName (some hdr))
      | some (.disk .openRead e) => (.error e, (s.withFile tabName (some hdr)).withOpen tabName)
      | _ =>
        match writeMetaFile json fault db (s.withTable tabName hdr) with
        | (.ok _, s') => (.ok (), { s' with db := db })
        | (.error e, s') => (.error e, s') := by
  have hopen : RmManager.openFile fault tabName (s.withFile tabName (some hdr)) = _ :=
    RmManager.openFile_run hdr hclosed
  have hkept : ∀ handle, RmManager.openFile fault tabName (s.withFile tabName (some hdr)) =
      (.ok handle, (s.withFile tabName (some hdr)).withOpen tabName) →
      adoptTable json fault tabName db (s.withFile tabName (some hdr)) =
        match writeMetaFile json fault db
            (((s.withFile tabName (some hdr)).withOpen tabName).withHandle tabName
              (some handle)) with
        | (.ok _, s') => (.ok (), { s' with db := db })
        | (.error e, s') => (.error e, s') := by
    intro handle h
    have hkeep :
        (Effect.modify fun s => { s with fhs := Function.update s.fhs tabName (some handle) } :
          Sm Unit) ((s.withFile tabName (some hdr)).withOpen tabName) =
        (.ok (),
          ((s.withFile tabName (some hdr)).withOpen tabName).withHandle tabName (some handle)) :=
      rfl
    rw [adoptTable, Effect.bind_of_ok h, Effect.bind_of_ok hkeep, Effect.bind_apply]
    rcases writeMetaFile json fault db _ with ⟨_ | _, _⟩ <;> rfl
  rcases fault with _ | ⟨call, e⟩ | _ | left
  case some.disk =>
    cases call
    case openOpen => exact Effect.bind_of_error hopen
    case openRead => exact Effect.bind_of_error hopen
    all_goals exact hkept _ hopen
  all_goals exact hkept _ hopen

/-- Other contents of `db.meta` do not matter to a table of another name. -/
theorem withTable_withMeta (hdr : RmFileHdr) (content : Bytes) (hname : tabName ≠ dbMetaName) :
    (s.withTable tabName hdr).withMeta content = (s.withMeta content).withTable tabName hdr := by
  ext1
  · rfl
  · rfl
  · exact Function.update_comm hname ..
  · rfl

variable {colDefs : List ColSchema} {recordSize : ℤ}

/-- What `create_table` does with a definition that passes its checks, on a name that is free. -/
theorem createTable_run (hcheck : checkTable s tabName colDefs = .ok recordSize)
    (hsize : 1 ≤ recordSize ∧ recordSize ≤ rmMaxRecordSize) (hhandle : s.fhs tabName = none)
    (hfree : s.files tabName = none) (hclosed : DiskManager.isOpen s.opened tabName = false)
    (hname : tabName ≠ dbMetaName) :
    createTable json fault tabName colDefs s =
      let hdr := RmManager.newHeader recordSize
      match fault, (nextDb s tabName colDefs).write json with
      | some (.disk .createFile e), _ => (.error e, s)
      | some (.disk .createOpen e), _ => (.error e, s.withFile tabName none)
      | some (.disk .createWrite e), _ => (.error e, (s.withFile tabName none).withOpen tabName)
      | some (.disk .openOpen e), _ => (.error e, s)
      | some (.disk .openRead _), _ =>
        (.error (.fileNotClosedError tabName), (s.withFile tabName (some hdr)).withOpen tabName)
      | some (.disk .closeWrite e), .error _ => (.error e, s.withTable tabName hdr)
      | _, .error e => (.error e, s)
      | some .metaOpen, .ok _ =>
        (.error (.internalError (text "cannot open database metadata: " ++ dbMetaName)),
          s.withMeta [])
      | some (.metaWrite left), .ok _ =>
        (.error (.internalError (text "cannot write database metadata: " ++ dbMetaName)),
          s.withMeta left)
      | _, .ok serialized =>
        (.ok (), { (s.withTable tabName hdr).withMeta serialized with
                     db := nextDb s tabName colDefs }) := by
  -- The system with other contents of `db.meta` meets the hypotheses of the handler as well.
  have hrollback : ∀ content, rollback fault tabName
      ((s.withTable tabName (RmManager.newHeader recordSize)).withMeta content) =
        match fault with
        | some (.disk .closeWrite e) =>
          (.error e, (s.withMeta content).withTable tabName (RmManager.newHeader recordSize))
        | _ => (.ok (), s.withMeta content) := by
    intro content
    have hfree' : (s.withMeta content).files tabName = none :=
      (Function.update_of_ne hname ..).trans hfree
    have hhandle' : (s.withMeta content).fhs tabName = none := hhandle
    rw [withTable_withMeta _ _ hname]
    exact rollback_withTable _ hhandle' hfree' hclosed
  have hrollback' : rollback fault tabName
      (s.withTable tabName (RmManager.newHeader recordSize)) = _ :=
    rollback_withTable _ hhandle hfree hclosed
  have hstart : createTable json fault tabName colDefs s =
      (do
        RmManager.createFile fault tabName recordSize
        Effect.onError (adoptTable json fault tabName (nextDb s tabName colDefs))
          (rollback fault tabName) : Sm Unit) s := by
    rw [createTable, Effect.bind_of_ok (Effect.get_apply _)]
    exact Effect.bind_of_ok (by rw [Effect.lift_apply, hcheck])
  have hcreate : RmManager.createFile fault tabName recordSize s = _ :=
    RmManager.createFile_run hsize hfree hclosed
  have hadopt : adoptTable json fault tabName (nextDb s tabName colDefs)
      (s.withFile tabName (some (RmManager.newHeader recordSize))) = _ := adoptTable_run _ _ hclosed
  rw [writeMetaFile_run] at hadopt
  rw [hstart]
  rcases fault with _ | ⟨call, e⟩ | _ | left
  case some.disk =>
    cases call
    case createFile => exact Effect.bind_of_error hcreate
    case createOpen => exact Effect.bind_of_error hcreate
    case createWrite => exact Effect.bind_of_error hcreate
    case openOpen =>
      exact (Effect.bind_of_ok hcreate).trans
        (Effect.onError_of_error hadopt (rollback_closed _ hhandle hfree hclosed))
    case openRead =>
      exact (Effect.bind_of_ok hcreate).trans
        (Effect.onError_of_handler_error hadopt (rollback_leaked _ hhandle))
    case closeWrite =>
      rw [Effect.bind_of_ok hcreate]
      cases hwrite : (nextDb s tabName colDefs).write json with
      | error e' =>
        rw [hwrite] at hadopt
        exact Effect.onError_of_handler_error hadopt hrollback'
      | ok serialized =>
        rw [hwrite] at hadopt
        exact Effect.onError_of_ok hadopt
  all_goals
    rw [Effect.bind_of_ok hcreate]
    cases hwrite : (nextDb s tabName colDefs).write json with
    | error e' =>
      rw [hwrite] at hadopt
      exact Effect.onError_of_error hadopt hrollback'
    | ok serialized =>
      rw [hwrite] at hadopt
      first
        | exact Effect.onError_of_ok hadopt
        | exact Effect.onError_of_error hadopt (hrollback _)

/-! ## Accepted and rejected statements -/

/-- The checks of `create_table` accept a name that is new and a definition of columns whose names
differ and whose lengths are valid and fit, and return the size of the record. -/
theorem checkTable_eq_ok :
    checkTable s tabName colDefs = .ok recordSize ↔
      s.db.isTable tabName = false ∧ s.fhs tabName = none ∧ colDefs ≠ [] ∧
        (colDefs.map ColSchema.name).Nodup ∧ (∀ col ∈ colDefs, col.ValidLen) ∧
        (colDefs.map ColSchema.len).sum ≤ rmMaxRecordSize ∧
        recordSize = (colDefs.map ColSchema.len).sum := by
  have hcolumns : checkColumns colDefs [] 0 = .ok recordSize ↔ _ :=
    checkColumns_eq_ok List.nodup_nil (le_refl 0) (by decide)
  simp only [List.nil_append, zero_add] at hcolumns
  rw [checkTable]
  simp only [bind_eq_ok, throwIf_eq_ok, exists_and_left, exists_const, hcolumns, Bool.not_eq_true,
    Option.isSome_eq_false_iff, Option.isNone_iff_eq_none, List.isEmpty_iff, ne_eq]

/-- The record of an accepted definition has a size. -/
theorem one_le_recordSize (hne : colDefs ≠ []) (hvalid : ∀ col ∈ colDefs, col.ValidLen) :
    1 ≤ (colDefs.map ColSchema.len).sum := by
  cases colDefs with
  | nil => exact absurd rfl hne
  | cons col colDefs =>
    obtain ⟨hcol, hrest⟩ := List.forall_mem_cons.mp hvalid
    have hsum := sum_len_nonneg fun c hc => (hrest c hc).1
    have hpos := hcol.1
    rw [List.map_cons, List.sum_cons]
    omega

theorem createTable_rejected {e : Error} (hcheck : checkTable s tabName colDefs = .error e) :
    createTable json fault tabName colDefs s = (.error e, s) := by
  rw [createTable, Effect.bind_of_ok (Effect.get_apply _)]
  exact Effect.bind_of_error (by rw [Effect.lift_apply, hcheck])

/-- A file of the table's name stops the statement before it has done anything. -/
theorem createTable_taken (hcheck : checkTable s tabName colDefs = .ok recordSize)
    (htaken : s.files tabName ≠ none) :
    ∃ e, createTable json fault tabName colDefs s = (.error e, s) := by
  have hcreate : ∃ e, DiskManager.call fault .createFile (DiskManager.createFile tabName) s =
      (.error e, s) := by
    have htaken' := DiskManager.createFile_taken htaken
    rcases fault with _ | ⟨call, e⟩ | _ | left
    case some.disk =>
      cases call
      case createFile => exact ⟨e, rfl⟩
      all_goals exact ⟨_, htaken'⟩
    all_goals exact ⟨_, htaken'⟩
  obtain ⟨e, hcreate⟩ := hcreate
  obtain ⟨-, -, hne, -, hvalid, hmax, hsize⟩ := checkTable_eq_ok.mp hcheck
  have hpos := one_le_recordSize hne hvalid
  have hlift : throwIf (recordSize < 1 ∨ rmMaxRecordSize < recordSize)
      (Error.invalidRecordSizeError recordSize) = .ok () := throwIf_eq_ok.mpr (by omega)
  refine ⟨e, ?_⟩
  rw [createTable, Effect.bind_of_ok (Effect.get_apply _),
    Effect.bind_of_ok (by rw [Effect.lift_apply, hcheck])]
  refine Effect.bind_of_error ?_
  rw [RmManager.createFile, Effect.bind_of_ok (by rw [Effect.lift_apply, hlift])]
  exact Effect.bind_of_error hcreate

/-! ## Traces -/

end SmManager

/-- What holds between statements: only files that exist are open, and `db.meta` holds the
catalog. -/
structure System.Consistent (json : JsonText) (s : System) : Prop where
  open_exists : ∀ path, DiskManager.isOpen s.opened path = true → s.files path ≠ none
  meta_read : ∃ content, s.files dbMetaName = some (.text content) ∧
    DbMeta.read json content = .ok s.db

/-- `s'` has no trace of a statement about `tabName` that began in `s`. -/
structure System.NoTrace (json : JsonText) (s : System) (tabName : Bytes) (s' : System) : Prop where
  db_eq : s'.db = s.db
  fhs_eq : s'.fhs = s.fhs
  no_file : s.files tabName = none → s'.files tabName = none
  meta_read : ∃ content, s'.files dbMetaName = some (.text content) ∧
    DbMeta.read json content = .ok s.db

namespace SmManager

/-- The statement gets past its checks and creates its file, and the fault is one that the handler
does not undo. -/
def LeavesTrace (json : JsonText) (fault : Option Fault) (s : System) (tabName : Bytes)
    (colDefs : List ColSchema) : Prop :=
  (∃ recordSize, checkTable s tabName colDefs = .ok recordSize) ∧ s.files tabName = none ∧
    match fault with
    | some (.disk .createOpen _) => True
    | some (.disk .createWrite _) => True
    | some (.disk .openRead _) => True
    | some (.disk .closeWrite _) => ∃ e, (nextDb s tabName colDefs).write json = .error e
    | some .metaOpen => (∃ text, (nextDb s tabName colDefs).write json = .ok text) ∧
        DbMeta.read json [] ≠ .ok s.db
    | some (.metaWrite left) => (∃ text, (nextDb s tabName colDefs).write json = .ok text) ∧
        DbMeta.read json left ≠ .ok s.db
    | _ => False

section

variable {json : JsonText} {fault : Option Fault} {s : System} {tabName : Bytes}
  {colDefs : List ColSchema}

/-- The state before the statement has no trace of it. -/
theorem noTrace_self (hs : s.Consistent json) : s.NoTrace json tabName s :=
  ⟨rfl, rfl, id, hs.meta_read⟩

/-- A new file is a trace. -/
theorem not_noTrace_of_file {s' : System} (hfree : s.files tabName = none)
    (hfile : s'.files tabName ≠ none) : ¬ s.NoTrace json tabName s' :=
  fun h => hfile (h.no_file hfree)

/-- Other contents of `db.meta` are a trace unless they read as the catalog. -/
theorem noTrace_withMeta_iff (hname : tabName ≠ dbMetaName) (content : Bytes) :
    s.NoTrace json tabName (s.withMeta content) ↔ DbMeta.read json content = .ok s.db := by
  have hmeta : (s.withMeta content).files dbMetaName = some (.text content) := by
    simp [System.withMeta]
  constructor
  · intro h
    obtain ⟨content', hcontent, hread⟩ := h.meta_read
    rw [hmeta, Option.some.injEq, File.text.injEq] at hcontent
    rw [hcontent]
    exact hread
  · intro hread
    refine ⟨rfl, rfl, fun hfree => ?_, content, hmeta, hread⟩
    exact (Function.update_of_ne hname ..).trans hfree

/-- What a run that throws leaves is all that has to be looked at. -/
theorem forall_error_iff {e : Error} {s₁ : System} {P : System → Prop} :
    (∀ (e' : Error) (s' : System), ((.error e, s₁) : Except Error Unit × System) = (.error e', s') →
      P s') ↔ P s₁ := by
  constructor
  · exact fun h => h e s₁ rfl
  · rintro h e' s' heq
    exact (Prod.mk.inj heq).2 ▸ h

/-- The file of a table is there after each of the steps that make it. -/
theorem files_withFile_ne (s : System) (tabName : Bytes) (hdr : Option RmFileHdr) :
    (s.withFile tabName hdr).files tabName ≠ none := by
  simp [System.withFile]

/-- The faults of a statement that gets past its checks, on a name that is free. -/
theorem createTable_noTrace_iff_of_free (hs : s.Consistent json) {recordSize : ℤ}
    (hcheck : checkTable s tabName colDefs = .ok recordSize) (hfree : s.files tabName = none) :
    (∀ e s', createTable json fault tabName colDefs s = (.error e, s') →
      s.NoTrace json tabName s') ↔ ¬ LeavesTrace json fault s tabName colDefs := by
  obtain ⟨-, hhandle, hne, -, hvalid, hmax, hsize⟩ := checkTable_eq_ok.mp hcheck
  have hpos := one_le_recordSize hne hvalid
  have hclosed : DiskManager.isOpen s.opened tabName = false := by
    by_contra hopen
    exact hs.open_exists tabName (by simpa using hopen) hfree
  have hname : tabName ≠ dbMetaName := by
    rintro rfl
    obtain ⟨content, hcontent, -⟩ := hs.meta_read
    rw [hfree] at hcontent
    simp at hcontent
  have hrun : createTable json fault tabName colDefs s = _ :=
    createTable_run hcheck (by omega) hhandle hfree hclosed hname
  have hself : s.NoTrace json tabName s := noTrace_self hs
  have hfile : ∀ s' : System, s'.files tabName ≠ none → ¬ s.NoTrace json tabName s' :=
    fun _ hfile => not_noTrace_of_file hfree hfile
  have hok : ∃ r, checkTable s tabName colDefs = .ok r := ⟨recordSize, hcheck⟩
  rw [hrun]
  rcases fault with _ | ⟨call, e⟩ | _ | _
  case none =>
    cases hwrite : (nextDb s tabName colDefs).write json with
    | error e => exact iff_of_true (forall_error_iff.mpr hself) fun h => h.2.2
    | ok serialized => exact iff_of_true (fun e s' h => by simp at h) fun h => h.2.2
  case some.disk =>
    cases call
    case createFile | openOpen => exact iff_of_true (forall_error_iff.mpr hself) fun h => h.2.2
    case createOpen =>
      refine iff_of_false (fun h => ?_) (not_not.mpr ⟨hok, hfree, trivial⟩)
      exact hfile _ (files_withFile_ne s tabName _) (h _ _ rfl)
    case createWrite =>
      refine iff_of_false (fun h => ?_) (not_not.mpr ⟨hok, hfree, trivial⟩)
      exact hfile ((s.withFile tabName none).withOpen tabName) (files_withFile_ne s tabName _)
        (h _ _ rfl)
    case openRead =>
      refine iff_of_false (fun h => ?_) (not_not.mpr ⟨hok, hfree, trivial⟩)
      exact hfile ((s.withFile tabName (some _)).withOpen tabName) (files_withFile_ne s tabName _)
        (h _ _ rfl)
    case closeWrite =>
      cases hwrite : (nextDb s tabName colDefs).write json with
      | error e' =>
        refine iff_of_false (fun h => ?_) (not_not.mpr ⟨hok, hfree, e', hwrite⟩)
        exact hfile (s.withTable tabName _) (files_withFile_ne s tabName _) (h _ _ rfl)
      | ok serialized =>
        refine iff_of_true (fun e s' h => by simp at h) ?_
        rintro ⟨-, -, e', he⟩
        simp [hwrite] at he
  -- `db.meta` is empty, or has what was written of it.
  case some.metaOpen | some.metaWrite =>
    cases hwrite : (nextDb s tabName colDefs).write json with
    | error e =>
      refine iff_of_true (forall_error_iff.mpr hself) ?_
      rintro ⟨-, -, ⟨serialized, he⟩, -⟩
      simp [hwrite] at he
    | ok serialized =>
      refine forall_error_iff.trans ((noTrace_withMeta_iff hname _).trans ?_)
      simp [LeavesTrace, hok, hfree, hwrite]

/-- A CREATE TABLE that fails leaves no trace, at whatever point it fails, exactly when it is not at
one of the points that the handler does not undo. -/
theorem createTable_noTrace_iff (json : JsonText) (fault : Option Fault) (s : System)
    (hs : s.Consistent json) (tabName : Bytes) (colDefs : List ColSchema) :
    (∀ e s', createTable json fault tabName colDefs s = (.error e, s') →
      s.NoTrace json tabName s') ↔ ¬ LeavesTrace json fault s tabName colDefs := by
  cases hcheck : checkTable s tabName colDefs with
  | error e =>
    have hrun : createTable json fault tabName colDefs s = (.error e, s) :=
      createTable_rejected hcheck
    have hno : ¬ LeavesTrace json fault s tabName colDefs := by
      rintro ⟨⟨recordSize, hok⟩, -⟩
      rw [hcheck] at hok
      simp at hok
    refine iff_of_true (fun e' s' h => ?_) hno
    rw [hrun, Prod.mk.injEq] at h
    exact h.2 ▸ noTrace_self hs
  | ok recordSize =>
    by_cases hfree : s.files tabName = none
    · exact createTable_noTrace_iff_of_free hs hcheck hfree
    · obtain ⟨e, hrun⟩ : ∃ e, createTable json fault tabName colDefs s = (.error e, s) :=
        createTable_taken hcheck hfree
      refine iff_of_true (fun e' s' h => ?_) fun htrace => hfree htrace.2.1
      rw [hrun, Prod.mk.injEq] at h
      exact h.2 ▸ noTrace_self hs

end

/-! ## A concrete system -/

/-- The text that `operator<<` writes of an empty database. -/
def schoolMeta : Bytes :=
  (JsonText.plain.dump (DbMeta.empty (text "school")).writeRoot).getD [] ++ text "\n"

example : schoolMeta = text "\x7b\n  \"database\": \"school\",\n  \"tables\": []\n\x7d\n" := by
  decide +kernel

/-- An empty database with its `db.meta`. -/
def schoolSystem : System where
  db := DbMeta.empty (text "school")
  fhs := fun _ => none
  files := Function.update (fun _ => none) dbMetaName (some (.text schoolMeta))
  opened := []

set_option maxRecDepth 100000 in
theorem schoolSystem_consistent : schoolSystem.Consistent .plain := by
  have hparse : JsonText.plain.parse schoolMeta =
      some (DbMeta.empty (text "school")).writeRoot := rfl
  refine ⟨fun path hopen => by simp [schoolSystem, DiskManager.isOpen] at hopen, schoolMeta,
    by simp [schoolSystem], DbMeta.read_eq_ok.mpr ⟨_, hparse, ?_⟩⟩
  refine DbMeta.readRoot_writeRoot (DbMeta.valid_empty (by decide)) ?_
  intro key tab htab
  simp [DbMeta.empty] at htab

/-- When opening the new file fails, the file is removed again. -/
theorem createTable_noTrace_openOpen :
    schoolSystem.Consistent .plain ∧
      ∃ e s', createTable .plain (some (.disk .openOpen (.fileNotFoundError (text "t"))))
          (text "t") [⟨text "id", .int, 4⟩] schoolSystem = (.error e, s') ∧
        schoolSystem.NoTrace .plain (text "t") s' := by
  have hnone := (createTable_noTrace_iff JsonText.plain
    (some (.disk .openOpen (.fileNotFoundError (text "t")))) schoolSystem schoolSystem_consistent
    (text "t") [⟨text "id", .int, 4⟩]).mpr fun htrace => htrace.2.2
  exact ⟨schoolSystem_consistent, _, _, rfl, hnone _ _ rfl⟩

/-- When writing the header of the new file fails, the file is left behind, open. -/
theorem createTable_trace_createWrite :
    schoolSystem.Consistent .plain ∧
      ∃ e s', createTable .plain
          (some (.disk .createWrite (.internalError (text "DiskManager::write_page Error"))))
          (text "t") [⟨text "id", .int, 4⟩] schoolSystem = (.error e, s') ∧
        schoolSystem.files (text "t") = none ∧ s'.files (text "t") ≠ none ∧
        ¬ schoolSystem.NoTrace .plain (text "t") s' := by
  have hfree : schoolSystem.files (text "t") = none := by decide
  have hfile := files_withFile_ne schoolSystem (text "t") none
  refine ⟨schoolSystem_consistent, _, _, rfl, hfree, ?_, not_noTrace_of_file hfree ?_⟩
  · exact hfile
  · exact hfile

end SmManager

/-! ## The catalog restores -/

/-- The JSON library gives back the document from its text, with the newline behind it. -/
def JsonText.RoundTrips (json : JsonText) (document : Json) : Prop :=
  ∃ content, json.dump document = some content ∧
    json.parse (content ++ text "\n") = some document

namespace DbMeta

/-- A CREATE TABLE that returns has passed its checks and adopted the catalog that it prepared. -/
theorem createTable_ok {json : JsonText} {fault : Option Fault} {s s' : System} {tabName : Bytes}
    {colDefs : List ColSchema}
    (hrun : SmManager.createTable json fault tabName colDefs s = (.ok (), s')) :
    (∃ recordSize, SmManager.checkTable s tabName colDefs = .ok recordSize) ∧
      s'.db = SmManager.nextDb s tabName colDefs := by
  obtain ⟨_, _, hget, hrun⟩ := Effect.bind_eq_ok.mp hrun
  obtain ⟨rfl, rfl⟩ : s = _ ∧ s = _ := by simpa using hget
  obtain ⟨recordSize, _, hcheck, hrun⟩ := Effect.bind_eq_ok.mp hrun
  rw [Effect.lift_apply, Prod.mk.injEq] at hcheck
  obtain ⟨_, s₁, -, hrun⟩ := Effect.bind_eq_ok.mp hrun
  have hadopt := Effect.onError_eq_ok.mp hrun
  obtain ⟨_, s₂, -, hadopt⟩ := Effect.bind_eq_ok.mp hadopt
  obtain ⟨_, s₃, -, hadopt⟩ := Effect.bind_eq_ok.mp hadopt
  obtain ⟨_, s₄, -, hadopt⟩ := Effect.bind_eq_ok.mp hadopt
  rw [Effect.modify_apply, Prod.mk.injEq] at hadopt
  refine ⟨⟨recordSize, hcheck.1⟩, ?_⟩
  rw [← hadopt.2]
  rfl

/-- A table made by CREATE TABLE under a name, from columns with names, is valid. -/
theorem createTable_valid {json : JsonText} {fault : Option Fault} {s s' : System} {tabName : Bytes}
    {colDefs : List ColSchema} (hdb : s.db.Valid) (htab : tabName ≠ [])
    (hcols : ∀ col ∈ colDefs, col.name ≠ [])
    (hrun : SmManager.createTable json fault tabName colDefs s = (.ok (), s')) : s'.db.Valid := by
  obtain ⟨⟨recordSize, hcheck⟩, hnext⟩ := createTable_ok hrun
  obtain ⟨-, -, hne, hnodup, hvalid, hmax, -⟩ := SmManager.checkTable_eq_ok.mp hcheck
  have hschema : (⟨tabName, colDefs, []⟩ : TabSchema).Valid :=
    ⟨htab, hne, hcols, hnodup, hvalid, hmax, by simp, by simp, by simp, by simp⟩
  rw [hnext, SmManager.nextDb, SmManager.makeColumns_eq_layout, rebuild_nil]
  exact hdb.insert (TabSchema.rebuild_valid hschema)

/-- The persisted catalog restores. What `operator<<` writes of a valid catalog whose indexes name
their tables is read by `operator>>` as the same catalog; whatever `operator>>` reads is valid and
has its indexes named; and CREATE TABLE keeps a catalog valid. -/
theorem catalog_restores (json : JsonText) :
    (∀ db : DbMeta, db.Valid → db.IndexesNamed → json.RoundTrips db.writeRoot →
      ∃ content, db.write json = .ok content ∧ DbMeta.read json content = .ok db) ∧
    (∀ (input : Bytes) (db : DbMeta), DbMeta.read json input = .ok db →
      db.Valid ∧ db.IndexesNamed) ∧
    ∀ (fault : Option Fault) (tabName : Bytes) (colDefs : List ColSchema) (s s' : System),
      SmManager.createTable json fault tabName colDefs s = (.ok (), s') → tabName ≠ [] →
      (∀ col ∈ colDefs, col.name ≠ []) → s.db.Valid → s'.db.Valid := by
  refine ⟨fun db hdb hnamed hjson => ?_, fun input db hread => ?_,
    fun fault tabName colDefs s s' hrun htab hcols hdb => createTable_valid hdb htab hcols hrun⟩
  · obtain ⟨content, hdump, hparse⟩ := hjson
    refine ⟨content ++ text "\n", by simp [write, hdump], ?_⟩
    exact read_eq_ok.mpr ⟨_, hparse, readRoot_writeRoot hdb hnamed⟩
  · obtain ⟨root, -, hroot⟩ := read_eq_ok.mp hread
    exact readRoot_valid hroot

set_option maxRecDepth 100000 in
/-- The sample catalog is read back from what is written of it. -/
theorem catalog_restores_student :
    JsonText.plain.RoundTrips studentDb.writeRoot ∧
      ∃ content, studentDb.write .plain = .ok content ∧
        DbMeta.read .plain content = .ok studentDb := by
  have hjson : JsonText.plain.RoundTrips studentDb.writeRoot := ⟨_, rfl, rfl⟩
  refine ⟨hjson, (catalog_restores _).1 studentDb studentDb_valid ?_ hjson⟩
  refine IndexesNamed.insert (fun key tab htab => ?_) (by decide)
  simp [DbMeta.empty] at htab

/-- A table `t` whose index names another table. Nothing in the validity of a catalog forbids it. -/
def strayTable : TabMeta :=
  let id : ColMeta := ⟨text "t", text "id", .int, 4, 0, true⟩
  ⟨text "t", [id], [⟨text "u", 4, 1, false, [id]⟩]⟩

/-- A database with that table. -/
def strayDb : DbMeta := (DbMeta.empty (text "d")).insert strayTable

/-- The table name of an index is not written, and the reader fills in the table that it stands in:
a valid catalog with another name there is not read back, whatever the text layer does. -/
theorem strayDb_not_restored :
    strayDb.Valid ∧ ∀ (json : JsonText) (content : Bytes), strayDb.write json = .ok content →
      DbMeta.read json content ≠ .ok strayDb := by
  refine ⟨(valid_empty (by decide)).insert (by decide), fun json content _ hread => ?_⟩
  obtain ⟨root, -, hroot⟩ := read_eq_ok.mp hread
  have hnamed := (readRoot_valid hroot).2 (text "t") strayTable rfl
  exact absurd hnamed (by decide)

end DbMeta

end Rucbase
