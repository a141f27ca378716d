import Rucbase.System.Atomic

/-!
# What CREATE TABLE leaves alone

The calls of `DiskManager` and `RmManager` change the disk and nothing of `SmManager`
(`OnDisk`). `create_table` changes the handle of its own table and, as its last step, the catalog,
so one that throws leaves the catalog and the handles of all other tables (`createTable_failed`).
One that returns has added its table to both (`createTable_returned`).
-/

namespace Rucbase

open Lib

/-- Only the disk is different. -/
def OnDisk (s s' : System) : Prop := s'.db = s.db ∧ s'.fhs = s.fhs

/-- The catalog and the handles of all tables but one are the same. -/
def Spares (tabName : Bytes) (s s' : System) : Prop :=
  s'.db = s.db ∧ ∀ key ≠ tabName, s'.fhs key = s.fhs key

/-- Doing nothing leaves all but the disk. -/
theorem OnDisk.refl (s : System) : OnDisk s s := ⟨rfl, rfl⟩

/-- Two computations on the disk, one after the other, are one. -/
theorem OnDisk.trans {s s' s'' : System} (h : OnDisk s s') (h' : OnDisk s' s'') : OnDisk s s'' :=
  ⟨h'.1.trans h.1, h'.2.trans h.2⟩

/-- A computation on the disk spares the handles of all tables. -/
theorem OnDisk.spares {s s' : System} (h : OnDisk s s') (tabName : Bytes) :
    Spares tabName s s' :=
  ⟨h.1, fun key _ => congrFun h.2 key⟩

/-- Sparing the same tables twice spares them. -/
theorem Spares.trans {tabName : Bytes} {s s' s'' : System} (h : Spares tabName s s')
    (h' : Spares tabName s' s'') : Spares tabName s s'' :=
  ⟨h'.1.trans h.1, fun key hkey => (h'.2 key hkey).trans (h.2 key hkey)⟩

open Effect

section Disk

variable {α : Type} (fault : Option Fault)

/-- A computation on the disk. -/
abbrev DiskOnly (x : Sm α) : Prop := Within OnDisk x

/-- A computation on the disk may go on with what another one returns. -/
theorem DiskOnly.bind {β : Type} {x : Sm α} {f : α → Sm β} (hx : DiskOnly x)
    (hf : ∀ a, DiskOnly (f a)) : DiskOnly (x >>= f) :=
  Within.bind (R := OnDisk) OnDisk.trans hx hf

/-- A check does not touch the state. -/
theorem diskOnly_lift (x : Except Error α) : DiskOnly (Effect.lift x : Sm α) := OnDisk.refl

/-- Returning does not touch the state. -/
theorem diskOnly_pure (a : α) : DiskOnly (pure a : Sm α) := OnDisk.refl

namespace DiskManager

/-- A call that a fault may hit stays on the disk like the call alone. -/
theorem call_diskOnly (site : DiskCall) {op : Sm α} (h : DiskOnly op) :
    DiskOnly (call fault site op) := by
  unfold call
  split
  · split
    · exact OnDisk.refl
    · exact h
  · exact h

/-- A call that returns was not hit. -/
theorem call_eq_ok {fault : Option Fault} {site : DiskCall} {op : Sm α} {s s' : System} {a : α}
    (h : call fault site op s = (.ok a, s')) : op s = (.ok a, s') := by
  unfold call at h
  split at h
  · split at h
    · simp at h
    · exact h
  · exact h

/-- `create_file` adds a file. -/
theorem createFile_diskOnly (path : Bytes) : DiskOnly (createFile path) := by
  intro s
  unfold createFile
  split <;> exact ⟨rfl, rfl⟩

/-- `open_file` adds a descriptor. -/
theorem openFile_diskOnly (path : Bytes) : DiskOnly (openFile path) := by
  intro s
  unfold openFile
  split
  · exact OnDisk.refl s
  · split <;> exact ⟨rfl, rfl⟩

/-- `close_file` removes a descriptor. -/
theorem closeFile_diskOnly (fd : ℕ) : DiskOnly (closeFile fd) := by
  intro s
  unfold closeFile
  split <;> exact ⟨rfl, rfl⟩

/-- `destroy_file` removes a file. -/
theorem destroyFile_diskOnly (path : Bytes) : DiskOnly (destroyFile path) := by
  intro s
  unfold destroyFile
  split
  · exact OnDisk.refl s
  · split <;> exact ⟨rfl, rfl⟩

/-- Writing a header changes a file. -/
theorem writeHeader_diskOnly (fd : ℕ) (hdr : RmFileHdr) : DiskOnly (writeHeader fd hdr) := by
  intro s
  unfold writeHeader
  split <;> exact ⟨rfl, rfl⟩

/-- Reading a header changes nothing. -/
theorem readHeader_diskOnly (fd : ℕ) : DiskOnly (readHeader fd) := by
  intro s
  unfold readHeader
  split
  · split <;> exact OnDisk.refl s
  · exact OnDisk.refl s

end DiskManager

namespace RmManager

open DiskManager

/-- `RmManager::create_file` writes a file with a header. -/
theorem createFile_diskOnly (filename : Bytes) (recordSize : ℤ) :
    DiskOnly (createFile fault filename recordSize) := by
  unfold createFile
  refine .bind (diskOnly_lift _) fun _ => ?_
  refine .bind (call_diskOnly fault _ (DiskManager.createFile_diskOnly filename)) fun _ => ?_
  refine .bind (call_diskOnly fault _ (DiskManager.openFile_diskOnly filename)) fun fd => ?_
  refine .bind (call_diskOnly fault _ (writeHeader_diskOnly fd _)) fun _ => ?_
  exact DiskManager.closeFile_diskOnly fd

/-- `RmManager::open_file` makes a handle of what it reads. -/
theorem openFile_diskOnly (filename : Bytes) : DiskOnly (openFile fault filename) := by
  unfold openFile
  refine .bind (call_diskOnly fault _ (DiskManager.openFile_diskOnly filename)) fun fd => ?_
  exact .bind (call_diskOnly fault _ (readHeader_diskOnly fd)) fun _ => diskOnly_pure _

/-- `RmManager::close_file` writes the header back. -/
theorem closeFile_diskOnly (handle : RmFileHandle) : DiskOnly (closeFile fault handle) := by
  unfold closeFile
  refine .bind (call_diskOnly fault _ (writeHeader_diskOnly _ _)) fun _ => ?_
  exact DiskManager.closeFile_diskOnly _

/-- A record file that was created has the header of its record size, under a name that was
free. -/
theorem createFile_eq_ok {fault : Option Fault} {path : Bytes} {recordSize : ℤ} {s s' : System}
    (h : createFile fault path recordSize s = (.ok (), s')) :
    s' = s.withFile path (some (newHeader recordSize)) ∧ isOpen s.opened path = false := by
  obtain ⟨_, s₀, hsize, hrest⟩ := Effect.bind_eq_ok.mp h
  obtain ⟨hcheck, rfl⟩ := Prod.mk.inj hsize
  rw [throwIf_eq_ok, not_or, not_lt, not_lt] at hcheck
  obtain ⟨_, s₁, hcreate, hrest⟩ := Effect.bind_eq_ok.mp hrest
  have hfree : s.files path = none := by
    by_contra htaken
    have hcreate := call_eq_ok hcreate
    rw [createFile_taken htaken] at hcreate
    simp at hcreate
  have hcreate := call_eq_ok hcreate
  rw [createFile_free hfree] at hcreate
  obtain ⟨-, rfl⟩ := Prod.mk.inj hcreate
  obtain ⟨_, s₂, hopen, -⟩ := Effect.bind_eq_ok.mp hrest
  have hclosed : isOpen s.opened path = false := by
    by_contra hopened
    rw [Bool.not_eq_false] at hopened
    have hopen := call_eq_ok hopen
    simp [DiskManager.openFile, System.withFile, hopened] at hopen
  refine ⟨?_, hclosed⟩
  rw [createFile_run hcheck hfree hclosed] at h
  split at h
  case h_4 => exact (Prod.mk.inj h).2.symm
  all_goals simp at h

/-- The handle of a record file has the header that the file has. -/
theorem openFile_eq_ok {fault : Option Fault} {path : Bytes} {hdr : RmFileHdr} {s s' : System}
    {handle : RmFileHandle} (hclosed : isOpen s.opened path = false)
    (h : openFile fault path (s.withFile path (some hdr)) = (.ok handle, s')) :
    handle.fileHdr = hdr := by
  rw [openFile_run hdr hclosed] at h
  split at h
  case h_3 => rw [← Except.ok.inj (Prod.mk.inj h).1]
  all_goals simp at h

end RmManager

end Disk

namespace SmManager

variable (json : JsonText) (fault : Option Fault)

/-- The catalog is written to the disk, and only there. -/
theorem writeMetaFile_diskOnly (db : DbMeta) : DiskOnly (writeMetaFile json fault db) := by
  intro s
  rw [writeMetaFile_run]
  split
  · exact OnDisk.refl s
  · split <;> exact ⟨rfl, rfl⟩

/-- A handle is set for its own table. -/
theorem setHandle_spares (tabName : Bytes) (handle : Option RmFileHandle) :
    Within (Spares tabName) (Effect.modify fun s =>
      { s with fhs := Function.update s.fhs tabName handle } : Sm Unit) :=
  fun _ => ⟨rfl, fun _ hkey => Function.update_of_ne hkey ..⟩

/-- The rollback of a CREATE TABLE removes the handle and the file of this table. -/
theorem rollback_spares (tabName : Bytes) : Within (Spares tabName) (rollback fault tabName) := by
  have hdestroy : Within (Spares tabName) (DiskManager.destroyFile tabName) := fun s =>
    (DiskManager.destroyFile_diskOnly tabName s).spares tabName
  unfold rollback
  refine Within.bind (R := Spares tabName) Spares.trans (fun s => (OnDisk.refl s).spares tabName)
    fun s => ?_
  split
  · refine Within.bind (R := Spares tabName) Spares.trans
      (fun s => (RmManager.closeFile_diskOnly fault _ s).spares tabName) fun _ => ?_
    exact Within.bind (R := Spares tabName) Spares.trans (setHandle_spares tabName none)
      fun _ => hdestroy
  · exact hdestroy

/-- The catalog is adopted last, so it is the old one in every exception. -/
theorem adoptTable_failed (tabName : Bytes) (nextDb : DbMeta) :
    FailsWithin (Spares tabName) (adoptTable json fault tabName nextDb) := by
  unfold adoptTable
  refine .bind (R := Spares tabName) Spares.trans
    (fun s => (RmManager.openFile_diskOnly fault tabName s).spares tabName) fun handle => ?_
  refine .bind (R := Spares tabName) Spares.trans (setHandle_spares tabName (some handle))
    fun _ => ?_
  refine .bind (R := Spares tabName) Spares.trans
    (fun s => (writeMetaFile_diskOnly json fault nextDb s).spares tabName) fun _ => ?_
  intro s e s' h
  simp at h

/-- A CREATE TABLE that throws leaves the catalog and the handles of the other tables. -/
theorem createTable_failed (tabName : Bytes) (colDefs : List ColSchema) :
    FailsWithin (Spares tabName) (createTable json fault tabName colDefs) := by
  unfold createTable
  refine .bind (R := Spares tabName) Spares.trans (fun s => (OnDisk.refl s).spares tabName)
    fun s => ?_
  refine .bind (R := Spares tabName) Spares.trans (fun s => (OnDisk.refl s).spares tabName)
    fun recordSize => ?_
  refine .bind (R := Spares tabName) Spares.trans
    (fun s => (RmManager.createFile_diskOnly fault tabName recordSize s).spares tabName)
    fun _ => ?_
  exact .onError (R := Spares tabName) Spares.trans (adoptTable_failed json fault tabName _)
    (rollback_spares fault tabName)

variable {json fault}

/-- A CREATE TABLE that returns has added the handle of the new file to those there were. -/
theorem createTable_returned {tabName : Bytes} {colDefs : List ColSchema} {s s' : System}
    (hrun : createTable json fault tabName colDefs s = (.ok (), s')) :
    ∃ handle, s'.fhs = Function.update s.fhs tabName (some handle) ∧
      handle.fileHdr.recordSize = (colDefs.map ColSchema.len).sum := by
  obtain ⟨_, _, hget, hrun⟩ := Effect.bind_eq_ok.mp hrun
  obtain ⟨rfl, rfl⟩ : s = _ ∧ s = _ := by simpa using hget
  obtain ⟨recordSize, _, hcheck, hrun⟩ := Effect.bind_eq_ok.mp hrun
  obtain ⟨hchecked, rfl⟩ := Prod.mk.inj hcheck
  obtain ⟨-, -, -, -, -, -, hsize⟩ := checkTable_eq_ok.mp hchecked
  obtain ⟨_, s₁, hcreate, hrun⟩ := Effect.bind_eq_ok.mp hrun
  obtain ⟨rfl, hclosed⟩ := RmManager.createFile_eq_ok hcreate
  obtain ⟨handle, s₂, hopen, hadopt⟩ := Effect.bind_eq_ok.mp (Effect.onError_eq_ok.mp hrun)
  obtain ⟨_, s₃, hset, hadopt⟩ := Effect.bind_eq_ok.mp hadopt
  obtain ⟨-, rfl⟩ := Prod.mk.inj hset
  obtain ⟨_, s₄, hwrite, hadopt⟩ := Effect.bind_eq_ok.mp hadopt
  obtain ⟨-, rfl⟩ := Prod.mk.inj hadopt
  have hopened := (RmManager.openFile_diskOnly fault tabName
    (s.withFile tabName (some (RmManager.newHeader recordSize)))).2
  rw [hopen] at hopened
  refine ⟨handle, ?_, ?_⟩
  · have hmeta := (writeMetaFile_diskOnly json fault
      (s.db.insert ⟨tabName, makeColumns tabName colDefs 0, []⟩)
      { s₂ with fhs := Function.update s₂.fhs tabName (some handle) }).2
    rw [hwrite] at hmeta
    exact hmeta.trans (by rw [hopened]; rfl)
  · rw [RmManager.openFile_eq_ok hclosed hopen, ← hsize]
    rfl

end SmManager

end Rucbase
