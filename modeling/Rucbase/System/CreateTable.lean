import Rucbase.Catalog.JsonSpec
import Rucbase.Lib.Effect
import Mathlib.Logic.Function.Basic

/-!
# CREATE TABLE

`SmManager::create_table` (`src/system/sm_manager.cpp`) checks the definition, creates the record
file through `RmManager` (`src/record/rm_manager.h`), opens it, writes the new catalog to `db.meta`
and then adopts it. Opening and writing stand in a `try` whose handler closes and removes what the
statement has made; creating does not.

The calls of `DiskManager` follow their comments: a file is not created or opened twice, and an open
file is not removed. A call may also fail without effect, and `db.meta` may fail to open or to be
written after it was truncated; `Fault` says at which point a run fails.
-/

namespace Rucbase

open Lib

/-! ## The system -/

/-- `RmFileHdr`. -/
structure RmFileHdr where
  recordSize : ℤ
  numPages : ℤ
  numRecordsPerPage : ℤ
  firstFreePageNo : ℤ
  bitmapSize : ℤ
  deriving DecidableEq, Repr

/-- What a file holds: a record file has its header once it is written, and `db.meta` is a text. -/
inductive File where
  | record (hdr : Option RmFileHdr)
  | text (content : Bytes)
  deriving DecidableEq, Repr

/-- `RmFileHandle`. -/
structure RmFileHandle where
  fd : ℕ
  fileHdr : RmFileHdr
  deriving DecidableEq, Repr

/-- The state of `SmManager` and of the disk below it. -/
@[ext]
structure System where
  db : DbMeta
  fhs : Bytes → Option RmFileHandle
  files : Bytes → Option File
  /-- The open files: descriptors and paths. -/
  opened : List (ℕ × Bytes)

/-- `DB_META_NAME`. -/
def dbMetaName : Bytes := text "db.meta"

/-- The calls of `DiskManager` that can fail, by where they stand. -/
inductive DiskCall where
  /-- `create_file` in `RmManager::create_file`. -/
  | createFile
  /-- `open_file` in `RmManager::create_file`. -/
  | createOpen
  /-- `write_page` in `RmManager::create_file`. -/
  | createWrite
  /-- `open_file` in `RmManager::open_file`. -/
  | openOpen
  /-- `read_page` in the constructor of `RmFileHandle`. -/
  | openRead
  /-- `write_page` in `RmManager::close_file`. -/
  | closeWrite
  deriving DecidableEq, Repr

/-- A point of failure. -/
inductive Fault where
  /-- The call throws without effect. -/
  | disk (call : DiskCall) (e : Error)
  /-- `db.meta` is truncated and then not open for writing. -/
  | metaOpen
  /-- `db.meta` is truncated and only `left` is written. -/
  | metaWrite (left : Bytes)

/-- Computations of the system. -/
abbrev Sm := Effect Error System

/-! ## `DiskManager` -/

namespace DiskManager

variable (fault : Option Fault)

/-- A call that the fault may hit. -/
def call {α : Type} (site : DiskCall) (op : Sm α) : Sm α :=
  match fault with
  | some (.disk site' e) => if site' = site then .raise e else op
  | _ => op

/-- Whether a path is open. -/
def isOpen (opened : List (ℕ × Bytes)) (path : Bytes) : Bool := opened.any (·.2 == path)

/-- A descriptor that is not in use. -/
def newFd (opened : List (ℕ × Bytes)) : ℕ := (opened.map Prod.fst).foldr max 0 + 1

/-- `create_file`. -/
def createFile (path : Bytes) : Sm Unit := fun s =>
  if (s.files path).isSome then (.error (.fileExistsError path), s)
  else (.ok (), { s with files := Function.update s.files path (some (.record none)) })

/-- `open_file`. -/
def openFile (path : Bytes) : Sm ℕ := fun s =>
  if s.files path = none then (.error (.fileNotFoundError path), s)
  else if isOpen s.opened path then (.error (.fileNotClosedError path), s)
  else (.ok (newFd s.opened), { s with opened := (newFd s.opened, path) :: s.opened })

/-- `close_file`. -/
def closeFile (fd : ℕ) : Sm Unit := fun s =>
  if s.opened.any (·.1 == fd) then
    (.ok (), { s with opened := s.opened.filter fun entry => entry.1 ≠ fd })
  else (.error (.fileNotOpenError fd), s)

/-- `destroy_file`; it refuses a file that is open. -/
def destroyFile (path : Bytes) : Sm Unit := fun s =>
  if s.files path = none then (.error (.fileNotFoundError path), s)
  else if isOpen s.opened path then (.error (.fileNotClosedError path), s)
  else (.ok (), { s with files := Function.update s.files path none })

/-- `write_page` of a record file's header page. -/
def writeHeader (fd : ℕ) (hdr : RmFileHdr) : Sm Unit := fun s =>
  match s.opened.find? (·.1 == fd) with
  | some entry =>
    (.ok (), { s with files := Function.update s.files entry.2 (some (.record (some hdr))) })
  | none => (.error (.fileNotOpenError fd), s)

/-- `read_page` of a record file's header page. -/
def readHeader (fd : ℕ) : Sm RmFileHdr := fun s =>
  match s.opened.find? (·.1 == fd) with
  | some entry =>
    match s.files entry.2 with
    | some (.record (some hdr)) => (.ok hdr, s)
    | _ => (.error (.internalError (text "DiskManager::read_page Error")), s)
  | none => (.error (.fileNotOpenError fd), s)

end DiskManager

/-! ## `RmManager` -/

namespace RmManager

variable (fault : Option Fault)

/-- The loop that fits records of a size into a page, from a number of records down: the number
that fits, and the bytes of its bitmap. -/
def fitRecords (recordSize : ℤ) : ℕ → ℤ × ℤ
  | 0 => (0, 0)
  | n + 1 =>
    let numRecords : ℤ := n + 1
    let bitmapSize := (numRecords + 8 - 1) / 8
    if 4 + 8 + bitmapSize + numRecords * recordSize ≤ 4096 then (numRecords, bitmapSize)
    else fitRecords recordSize n

/-- The header of a new record file. -/
def newHeader (recordSize : ℤ) : RmFileHdr :=
  let fit := fitRecords recordSize ((4096 - 4 - 8) / recordSize).toNat
  ⟨recordSize, 1, fit.1, -1, fit.2⟩

/-- `create_file`. -/
def createFile (filename : Bytes) (recordSize : ℤ) : Sm Unit := do
  Effect.lift (throwIf (recordSize < 1 ∨ rmMaxRecordSize < recordSize)
    (.invalidRecordSizeError recordSize))
  DiskManager.call fault .createFile (DiskManager.createFile filename)
  let fd ← DiskManager.call fault .createOpen (DiskManager.openFile filename)
  DiskManager.call fault .createWrite (DiskManager.writeHeader fd (newHeader recordSize))
  DiskManager.closeFile fd

/-- `open_file`, with the constructor of `RmFileHandle`. -/
def openFile (filename : Bytes) : Sm RmFileHandle := do
  let fd ← DiskManager.call fault .openOpen (DiskManager.openFile filename)
  let hdr ← DiskManager.call fault .openRead (DiskManager.readHeader fd)
  pure ⟨fd, hdr⟩

/-- `close_file`; the buffer pool holds no page of a file that was just created. -/
def closeFile (handle : RmFileHandle) : Sm Unit := do
  DiskManager.call fault .closeWrite (DiskManager.writeHeader handle.fd handle.fileHdr)
  DiskManager.closeFile handle.fd

end RmManager

/-! ## `SmManager` -/

namespace SmManager

variable (json : JsonText) (fault : Option Fault)

/-- `write_meta_file`: the catalog is serialized before the file is truncated. -/
def writeMetaFile (db : DbMeta) : Sm Unit := do
  let serialized ← Effect.lift (db.write json)
  let write (content : Bytes) : Sm Unit := .modify fun s =>
    { s with files := Function.update s.files dbMetaName (some (.text content)) }
  match fault with
  | some .metaOpen => do
    -- The stream could not be opened for writing, which may have truncated the file.
    write []
    .raise (.internalError (text "cannot open database metadata: " ++ dbMetaName))
  | some (.metaWrite left) => do
    -- The write broke off and left some part in the file.
    write left
    .raise (.internalError (text "cannot write database metadata: " ++ dbMetaName))
  | _ => write serialized

/-- The loop of `create_table` that checks the columns, from names and a record size on. -/
def checkColumns : List ColSchema → List Bytes → ℤ → Except Error ℤ
  | [], _, recordSize => pure recordSize
  | col :: colDefs, colNames, recordSize => do
    throwIf (col.name ∈ colNames) (.columnExistsError col.name)
    throwIf (col.len ≤ 0 ∨ (col.type = .int ∧ col.len ≠ 4) ∨ (col.type = .float ∧ col.len ≠ 4))
      (.invalidColLengthError col.len)
    -- The length on its own is checked first, so the sum below cannot overflow.
    throwIf (rmMaxRecordSize < col.len) (.invalidRecordSizeError col.len)
    throwIf (rmMaxRecordSize < recordSize + col.len)
      (.invalidRecordSizeError (recordSize + col.len))
    checkColumns colDefs (colNames ++ [col.name]) (recordSize + col.len)

/-- The loop of `create_table` that lays out the columns. -/
def makeColumns (tabName : Bytes) : List ColSchema → ℤ → List ColMeta
  | [], _ => []
  | col :: colDefs, currOffset =>
    ⟨tabName, col.name, col.type, col.len, currOffset, false⟩ ::
      makeColumns tabName colDefs (currOffset + col.len)

/-- The checks of `create_table`, in order; the record size. -/
def checkTable (s : System) (tabName : Bytes) (colDefs : List ColSchema) : Except Error ℤ := do
  throwIf (s.db.isTable tabName) (.tableExistsError tabName)
  throwIf ((s.fhs tabName).isSome)
    (.internalError (text "Record handle already exists: " ++ tabName))
  throwIf colDefs.isEmpty (.invalidRecordSizeError 0)
  checkColumns colDefs [] 0

/-- The part of `create_table` in the `try`. -/
def adoptTable (tabName : Bytes) (nextDb : DbMeta) : Sm Unit := do
  let handle ← RmManager.openFile fault tabName
  Effect.modify fun s => { s with fhs := Function.update s.fhs tabName (some handle) }
  writeMetaFile json fault nextDb
  Effect.modify fun s => { s with db := nextDb }

/-- The handler of `create_table`. -/
def rollback (tabName : Bytes) : Sm Unit := do
  let s ← Effect.get
  match s.fhs tabName with
  | some handle => do
    -- If closing the file throws, the handle stays and the file is not destroyed.
    RmManager.closeFile fault handle
    Effect.modify fun s => { s with fhs := Function.update s.fhs tabName none }
    DiskManager.destroyFile tabName
  | none => DiskManager.destroyFile tabName

/-- `create_table`. -/
def createTable (tabName : Bytes) (colDefs : List ColSchema) : Sm Unit := do
  let s ← Effect.get
  let recordSize ← Effect.lift (checkTable s tabName colDefs)
  let nextDb := s.db.insert ⟨tabName, makeColumns tabName colDefs 0, []⟩
  -- The file is created outside the `try`: what this call leaves when it throws, stays.
  RmManager.createFile fault tabName recordSize
  Effect.onError (adoptTable json fault tabName nextDb) (rollback fault tabName)

end SmManager

end Rucbase
