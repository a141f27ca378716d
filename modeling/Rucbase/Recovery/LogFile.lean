import Rucbase.Common.Errors
import Rucbase.Lib.Effect

/-!
# The log file

`DiskManager::write_log` and `read_log` (`src/storage/disk_manager.cpp`) append to the log and read
a part of it. Each system call may fail, and `write` may take only a part of the bytes: the caller
then gets an exception, but the part stays in the file, and the next record is written behind it.

So the log only grows (`run_grown`), and a record that was written stays at its place and is read
back from there, whatever fails behind it (`readLog_of_written`).

`open_file` is left to the labs. What it returns or throws is part of each call. That the descriptor
is the one of the log is the business of whoever sets it.
-/

namespace Rucbase

open Lib

/-- What `write_log` and `read_log` throw. -/
inductive LogError where
  | thrown (e : Error)
  /-- `UnixError`, with the text of `errno`. -/
  | unixError (errno : Bytes)
  deriving DecidableEq, Repr

/-- The file of the log and `log_fd_`. -/
structure LogFile where
  content : Bytes := []
  logFd : ℤ := -1
  deriving DecidableEq, Repr

namespace LogFile

/-- Computations on the log. -/
abbrev Lm := Effect LogError LogFile

/-- What the calls of `write_log` return; `none` is success, and a text that of `errno`. -/
structure WriteCalls where
  openFile : Except Error ℤ := .ok 3
  seek : Option Bytes := none
  /-- `write` fails, or takes that many bytes. -/
  write : Except Bytes ℕ
  /-- The text of `errno` behind a `write` that has taken a part. -/
  errno : Bytes := []

/-- What the calls of `read_log` return. -/
structure ReadCalls where
  openFile : Except Error ℤ := .ok 3
  /-- `stat` finds the file. -/
  found : Bool := true
  seek : Option Bytes := none
  /-- `read` fails, or returns that many bytes. -/
  read : Except Bytes ℕ

/-- `log_fd_ = open_file(LOG_FILE_NAME)`. -/
def setLogFd (openFile : Except Error ℤ) : Lm Unit :=
  match openFile with
  | .error e => Effect.raise (.thrown e)
  | .ok fd => Effect.modify fun log => { log with logFd := fd }

/-- The first lines of both functions. -/
def openLog (openFile : Except Error ℤ) : Lm Unit := do
  let log ← Effect.get
  if log.logFd = -1 then setLogFd openFile else pure ()

/-- The check of the descriptor behind them. -/
def checkLog : Lm Unit := do
  let log ← Effect.get
  if log.logFd < 0 then Effect.raise (.thrown (.fileNotOpenError log.logFd)) else pure ()

/-- A failing system call. -/
def checkCall (result : Option Bytes) : Lm Unit :=
  match result with
  | some errno => Effect.raise (.unixError errno)
  | none => pure ()

/-- `write`, at the end of the file. -/
def appendBytes (data : Bytes) (calls : WriteCalls) : Lm Unit :=
  match calls.write with
  | .error errno => Effect.raise (.unixError errno)
  | .ok n => do
    Effect.modify fun log => { log with content := log.content ++ data.take n }
    if min n data.length ≠ data.length then Effect.raise (.unixError calls.errno) else pure ()

/-- `write_log`. -/
def writeLog (data : Bytes) (calls : WriteCalls) : Lm Unit := do
  openLog calls.openFile
  checkLog
  checkCall calls.seek
  appendBytes data calls

/-- `get_file_size` of the log. -/
def fileSize (found : Bool) : Lm ℤ := do
  let log ← Effect.get
  if found = false then pure (-1)
  else if 2^31 - 1 < log.content.length then
    Effect.raise (.thrown (.internalError
      (text "file is too large for the teaching storage manager: " ++ text "db.log")))
  else pure log.content.length

/-- `read` of `n > 0` bytes at an offset. -/
def readBytes (offset n : ℕ) (calls : ReadCalls) : Lm Bytes :=
  match calls.read with
  | .error errno => Effect.raise (.unixError errno)
  | .ok got => do
    let log ← Effect.get
    let bytes := ((log.content.drop offset).take n).take got
    if bytes.length ≠ n then
      Effect.raise (.thrown (.internalError (text "short read from database log")))
    else pure bytes

/-- `read_log` of what there is behind the offset. -/
def readSome (size offset : ℕ) (calls : ReadCalls) : Lm (Option Bytes) :=
  if size = 0 then pure (some [])
  else do
    checkCall calls.seek
    let bytes ← readBytes offset size calls
    pure (some bytes)

/-- `read_log`: what it reads, or `none` for its result -1. Size and offset are not negative. -/
def readLog (size offset : ℕ) (calls : ReadCalls) : Lm (Option Bytes) := do
  openLog calls.openFile
  checkLog
  let fileSize ← fileSize calls.found
  if fileSize < offset then pure none
  else readSome (min size (fileSize - offset).toNat) offset calls

/-! ## The log only grows -/

/-- The log has what it had before, and perhaps more behind it; an open log stays open. -/
structure Grown (log next : LogFile) : Prop where
  content : log.content <+: next.content
  logFd : 0 ≤ log.logFd → next.logFd = log.logFd

theorem Grown.refl (log : LogFile) : Grown log log := ⟨List.prefix_rfl, fun _ => rfl⟩

theorem Grown.trans {log next last : LogFile} (h : Grown log next) (h' : Grown next last) :
    Grown log last where
  content := h.content.trans h'.content
  logFd hfd := by
    have hnext := h.logFd hfd
    rw [h'.logFd (by omega), hnext]

/-- Whatever the computation returns or throws, the log has only grown. -/
def Grows {α : Type} (x : Lm α) : Prop := ∀ log, Grown log (x log).2

section Grows

variable {α β : Type} {log next : LogFile}

theorem grows_of_eq {x : Lm α} (h : ∀ log, (x log).2 = log) : Grows x :=
  Effect.within_of_eq Grown.refl h

theorem Grows.bind {x : Lm α} {f : α → Lm β} (hx : Grows x) (hf : ∀ a, Grows (f a)) :
    Grows (x >>= f) :=
  Effect.Within.bind (R := Grown) Grown.trans hx hf

theorem openLog_apply (openFile : Except Error ℤ) (h : 0 ≤ log.logFd) :
    openLog openFile log = (.ok (), log) := by
  rw [openLog, Effect.bind_of_ok (Effect.get_apply log), if_neg (by omega)]
  rfl

theorem openLog_grows (openFile : Except Error ℤ) : Grows (openLog openFile) := by
  intro log
  rw [openLog, Effect.bind_of_ok (Effect.get_apply log)]
  by_cases hclosed : log.logFd = -1
  · rw [if_pos hclosed]
    cases openFile with
    | error e => exact Grown.refl log
    | ok fd => exact ⟨List.prefix_rfl, fun hfd => absurd hclosed (by omega)⟩
  · rw [if_neg hclosed]
    exact Grown.refl log

theorem checkLog_apply (h : 0 ≤ log.logFd) : checkLog log = (.ok (), log) := by
  rw [checkLog, Effect.bind_of_ok (Effect.get_apply log), if_neg (by omega)]
  rfl

/-- Behind the check the log is open. -/
theorem checkLog_eq_ok (h : checkLog log = (.ok (), next)) : next = log ∧ 0 ≤ log.logFd := by
  rw [checkLog, Effect.bind_of_ok (Effect.get_apply log)] at h
  by_cases hneg : log.logFd < 0
  · rw [if_pos hneg] at h
    cases (Prod.mk.inj h).1
  · rw [if_neg hneg] at h
    exact ⟨(Prod.mk.inj h).2.symm, by omega⟩

theorem checkLog_grows : Grows checkLog := by
  refine grows_of_eq fun log => ?_
  rw [checkLog, Effect.bind_of_ok (Effect.get_apply log)]
  split_ifs <;> rfl

/-- A call that did not fail has changed nothing. -/
theorem checkCall_eq_ok {result : Option Bytes} (h : checkCall result log = (.ok (), next)) :
    next = log := by
  cases result with
  | none => exact (Prod.mk.inj h).2.symm
  | some errno => cases (Prod.mk.inj h).1

theorem checkCall_grows (result : Option Bytes) : Grows (checkCall result) := by
  refine grows_of_eq fun log => ?_
  cases result <;> rfl

theorem appendBytes_grows (data : Bytes) (calls : WriteCalls) : Grows (appendBytes data calls) := by
  intro log
  rw [appendBytes]
  rcases calls.write with errno | n
  · exact Grown.refl log
  · have hgrown : Grown log { log with content := log.content ++ data.take n } :=
      ⟨List.prefix_append .., fun _ => rfl⟩
    simp only
    rw [Effect.bind_of_ok (Effect.modify_apply _ log)]
    split_ifs
    · exact hgrown
    · exact hgrown

theorem writeLog_grows (data : Bytes) (calls : WriteCalls) : Grows (writeLog data calls) :=
  (openLog_grows _).bind fun _ => checkLog_grows.bind fun _ =>
    (checkCall_grows _).bind fun _ => appendBytes_grows data calls

theorem fileSize_state (found : Bool) (log : LogFile) : (fileSize found log).2 = log := by
  rw [fileSize, Effect.bind_of_ok (Effect.get_apply log)]
  split_ifs <;> rfl

theorem readBytes_state (offset n : ℕ) (calls : ReadCalls) (log : LogFile) :
    (readBytes offset n calls log).2 = log := by
  rw [readBytes]
  rcases calls.read with errno | got
  · rfl
  · simp only
    rw [Effect.bind_of_ok (Effect.get_apply log)]
    split_ifs <;> rfl

theorem readSome_grows (size offset : ℕ) (calls : ReadCalls) :
    Grows (readSome size offset calls) := by
  unfold readSome
  by_cases hzero : size = 0
  · rw [if_pos hzero]
    exact grows_of_eq fun _ => rfl
  · rw [if_neg hzero]
    exact (checkCall_grows _).bind fun _ =>
      (grows_of_eq (readBytes_state _ _ calls)).bind fun _ => grows_of_eq fun _ => rfl

theorem readLog_grows (size offset : ℕ) (calls : ReadCalls) :
    Grows (readLog size offset calls) := by
  refine (openLog_grows _).bind fun _ => checkLog_grows.bind fun _ =>
    (grows_of_eq (fileSize_state _)).bind fun fileSize => ?_
  by_cases hbehind : fileSize < offset
  · rw [if_pos hbehind]
    exact grows_of_eq fun _ => rfl
  · rw [if_neg hbehind]
    exact readSome_grows _ _ calls

/-- A `write_log` that returns has written all of it, at the end of an open log. -/
theorem writeLog_eq_ok {data : Bytes} {calls : WriteCalls}
    (h : writeLog data calls log = (.ok (), next)) :
    next.content = log.content ++ data ∧ 0 ≤ next.logFd := by
  obtain ⟨_, opened, hopen, hbehindOpen⟩ := Effect.bind_eq_ok.mp h
  obtain ⟨_, checkedLog, hcheck, hbehindCheck⟩ := Effect.bind_eq_ok.mp hbehindOpen
  obtain ⟨rfl, hfd⟩ := checkLog_eq_ok hcheck
  obtain ⟨_, sought, hseek, happend⟩ := Effect.bind_eq_ok.mp hbehindCheck
  -- Opening and seeking leave the content alone.
  have hcontent : checkedLog.content = log.content := by
    rw [openLog, Effect.bind_of_ok (Effect.get_apply log)] at hopen
    by_cases hclosed : log.logFd = -1
    · rw [if_pos hclosed] at hopen
      cases hfile : calls.openFile with
      | error e =>
        rw [hfile] at hopen
        cases (Prod.mk.inj hopen).1
      | ok fd =>
        rw [hfile] at hopen
        rw [← (Prod.mk.inj hopen).2]
    · rw [if_neg hclosed] at hopen
      rw [← (Prod.mk.inj hopen).2]
  rw [checkCall_eq_ok hseek, appendBytes] at happend
  rcases hwrite : calls.write with errno | n
  · rw [hwrite] at happend
    cases (Prod.mk.inj happend).1
  · rw [hwrite] at happend
    simp only at happend
    rw [Effect.bind_of_ok (Effect.modify_apply _ checkedLog)] at happend
    by_cases hpart : min n data.length ≠ data.length
    · rw [if_pos hpart] at happend
      cases (Prod.mk.inj happend).1
    · rw [if_neg hpart] at happend
      have hall : data.length ≤ n := by omega
      rw [← (Prod.mk.inj happend).2]
      exact ⟨by rw [hcontent, List.take_of_length_le hall], hfd⟩

end Grows

/-! ## Runs -/

/-- A call of one of the two functions. -/
inductive LogOp where
  | write (data : Bytes) (calls : WriteCalls)
  | read (size offset : ℕ) (calls : ReadCalls)

/-- The log behind a call, whether it throws or not. -/
def step (log : LogFile) : LogOp → LogFile
  | .write data calls => (writeLog data calls log).2
  | .read size offset calls => (readLog size offset calls log).2

/-- One call after another. -/
def run (log : LogFile) (ops : List LogOp) : LogFile := ops.foldl step log

theorem step_grown (log : LogFile) (op : LogOp) : Grown log (step log op) := by
  cases op with
  | write data calls => exact writeLog_grows data calls log
  | read size offset calls => exact readLog_grows size offset calls log

theorem run_grown (log : LogFile) (ops : List LogOp) : Grown log (run log ops) := by
  induction ops generalizing log with
  | nil => exact Grown.refl log
  | cons op ops ih => exact (step_grown log op).trans (ih (step log op))

section Reading

variable {log : LogFile} {size offset : ℕ} {calls : ReadCalls}

/-- `read_log` of a part of an open log whose size an `int` holds. -/
theorem readLog_open (hfd : 0 ≤ log.logFd) (hfound : calls.found = true)
    (hint : log.content.length ≤ 2^31 - 1) (hpart : offset + size ≤ log.content.length) :
    readLog size offset calls log = readSome size offset calls log := by
  have hfile : fileSize calls.found log = (.ok (log.content.length : ℤ), log) := by
    rw [fileSize, Effect.bind_of_ok (Effect.get_apply log), hfound, if_neg (by simp),
      if_neg (by omega)]
    rfl
  have hmin : min size ((log.content.length : ℤ) - offset).toNat = size := by omega
  rw [readLog, Effect.bind_of_ok (openLog_apply _ hfd), Effect.bind_of_ok (checkLog_apply hfd),
    Effect.bind_of_ok hfile, if_neg (by omega), hmin]

/-- What `read_log` returns is what is in the log, unless a call fails. -/
theorem readSome_apply (hpart : offset + size ≤ log.content.length) (hseek : calls.seek = none)
    {got : ℕ} (hread : calls.read = .ok got) (hgot : size ≤ got) :
    readSome size offset calls log =
      (.ok (some ((log.content.drop offset).take size)), log) := by
  unfold readSome
  by_cases hzero : size = 0
  · rw [if_pos hzero, hzero, List.take_zero]
    rfl
  · have hlen : ((log.content.drop offset).take size).length = size := by
      rw [List.length_take, List.length_drop]
      omega
    have hbytes : readBytes offset size calls log =
        (.ok ((log.content.drop offset).take size), log) := by
      rw [readBytes, hread]
      simp only
      rw [Effect.bind_of_ok (Effect.get_apply log), List.take_of_length_le (by omega),
        if_neg (by omega)]
      rfl
    have hcall : checkCall calls.seek log = (.ok (), log) := by
      rw [hseek]
      rfl
    rw [if_neg hzero, Effect.bind_of_ok hcall, Effect.bind_of_ok hbytes]
    rfl

/-- A `read_log` that returns bytes has read the part in full. -/
theorem readSome_eq_ok {result : Option Bytes} {next : LogFile}
    (h : readSome size offset calls log = (.ok result, next))
    (hpart : offset + size ≤ log.content.length) :
    result = some ((log.content.drop offset).take size) := by
  unfold readSome at h
  by_cases hzero : size = 0
  · rw [if_pos hzero] at h
    rw [hzero, List.take_zero]
    exact (Except.ok.inj (Prod.mk.inj h).1).symm
  · rw [if_neg hzero] at h
    obtain ⟨_, sought, hseek, hrest⟩ := Effect.bind_eq_ok.mp h
    obtain ⟨bytes, last, hread, hpure⟩ := Effect.bind_eq_ok.mp hrest
    obtain rfl : sought = log := checkCall_eq_ok hseek
    rw [← Except.ok.inj (Prod.mk.inj hpure).1]
    rw [readBytes] at hread
    rcases hcall : calls.read with errno | got
    · rw [hcall] at hread
      cases (Prod.mk.inj hread).1
    · rw [hcall] at hread
      simp only at hread
      rw [Effect.bind_of_ok (Effect.get_apply sought)] at hread
      split_ifs at hread with hshort
      · cases (Prod.mk.inj hread).1
      · -- All bytes were read, so the last `take` is the whole part.
        rw [← Except.ok.inj (Prod.mk.inj hread).1]
        have hlen : ((sought.content.drop offset).take size).length = size := by
          rw [List.length_take, List.length_drop]
          omega
        rw [List.length_take, hlen] at hshort
        rw [List.take_of_length_le (by omega)]

/-- `read_log` finds no part of the log when `stat` fails, and throws when the size of the log is no
`int`. -/
theorem readLog_not_open (hfd : 0 ≤ log.logFd)
    (h : calls.found = false ∨ 2^31 - 1 < log.content.length) :
    (calls.found = false ∧ readLog size offset calls log = (.ok none, log)) ∨
      ∃ e, readLog size offset calls log = (.error e, log) := by
  rw [readLog, Effect.bind_of_ok (openLog_apply _ hfd), Effect.bind_of_ok (checkLog_apply hfd)]
  by_cases hfound : calls.found = false
  · have hfile : fileSize calls.found log = (.ok (-1), log) := by
      rw [fileSize, Effect.bind_of_ok (Effect.get_apply log), if_pos hfound]
      rfl
    rw [Effect.bind_of_ok hfile, if_pos (by omega)]
    exact .inl ⟨hfound, rfl⟩
  · have hsize := h.resolve_left hfound
    have hfile : ∃ e, fileSize calls.found log = (.error e, log) := by
      rw [fileSize, Effect.bind_of_ok (Effect.get_apply log), if_neg hfound, if_pos hsize]
      exact ⟨_, rfl⟩
    obtain ⟨e, hfile⟩ := hfile
    rw [Effect.bind_of_error hfile]
    exact .inr ⟨e, rfl⟩

end Reading

/-- A record that `write_log` has written is what `read_log` reads at its place, behind any further
calls that may fail anywhere, for the log only grows from call to call. A `read_log` that returns
has read the record, or finds no file; and it does return the record when none of its own calls
fails and the size of the log is still an `int`. -/
theorem readLog_of_written (log after : LogFile) (data : Bytes) (writeCalls : WriteCalls)
    (hwrite : writeLog data writeCalls log = (.ok (), after)) (ops : List LogOp)
    (calls : ReadCalls) :
    log.content ++ data <+: (run after ops).content ∧
    (∀ front back, ops = front ++ back →
      (run after front).content <+: (run after ops).content) ∧
    (∀ result next, readLog data.length log.content.length calls (run after ops) =
      (.ok result, next) → result = if calls.found then some data else none) ∧
    (∀ got, calls.found = true → (run after ops).content.length ≤ 2^31 - 1 → calls.seek = none →
      calls.read = .ok got → data.length ≤ got →
      readLog data.length log.content.length calls (run after ops) =
        (.ok (some data), run after ops)) := by
  obtain ⟨hcontent, hfd⟩ := writeLog_eq_ok hwrite
  have hgrown := run_grown after ops
  have hwritten := hgrown.content
  rw [hcontent] at hwritten
  obtain ⟨rest, hrest⟩ := hwritten
  have hlater : 0 ≤ (run after ops).logFd := by
    rw [hgrown.logFd hfd]
    exact hfd
  have hpart : log.content.length + data.length ≤ (run after ops).content.length := by
    rw [← hrest, List.length_append, List.length_append]
    omega
  -- The record stands where the log ended when it was written.
  have hplace : ((run after ops).content.drop log.content.length).take data.length = data := by
    rw [← hrest, List.append_assoc, List.drop_left, List.take_left]
  refine ⟨⟨rest, hrest⟩, fun front back hops => ?_, fun result next hread => ?_,
    fun got hfound hint hseek hread hgot => ?_⟩
  · rw [hops, run, run, List.foldl_append]
    exact (run_grown _ back).content
  · by_cases hreadable : calls.found = true ∧ (run after ops).content.length ≤ 2^31 - 1
    · obtain ⟨hfound, hint⟩ := hreadable
      rw [readLog_open hlater hfound hint hpart] at hread
      rw [readSome_eq_ok hread hpart, hplace, if_pos hfound]
    · rw [not_and_or, Bool.not_eq_true, not_le] at hreadable
      rcases readLog_not_open hlater hreadable with ⟨hfound, hnone⟩ | ⟨e, herror⟩
      · rw [hnone] at hread
        rw [hfound]
        exact (Except.ok.inj (Prod.mk.inj hread).1).symm
      · rw [herror] at hread
        cases (Prod.mk.inj hread).1
  · rw [readLog_open hlater hfound hint hpart, readSome_apply hpart hseek hread hgot, hplace]

/-- The record in front of a torn one is read back. -/
theorem readLog_of_written_torn :
    let after : LogFile := ⟨[1, 2], 3⟩
    writeLog [1, 2] { write := .ok 2 } {} = (.ok (), after) ∧
      (run after [.write [3, 4] { write := .ok 1 }]).content = [1, 2, 3] ∧
      readLog 2 0 { read := .ok 2 } (run after [.write [3, 4] { write := .ok 1 }]) =
        (.ok (some [1, 2]), run after [.write [3, 4] { write := .ok 1 }]) := by
  intro after
  have hwrite : writeLog [1, 2] { write := .ok 2 } {} = (.ok (), after) := by decide
  have hcontent : (run after [.write [3, 4] { write := .ok 1 }]).content = [1, 2, 3] := by decide
  refine ⟨hwrite, hcontent, ?_⟩
  have hread := readLog_of_written {} after [1, 2] { write := .ok 2 } hwrite
    [.write [3, 4] { write := .ok 1 }] { read := .ok 2 }
  exact hread.2.2.2 2 rfl (by rw [hcontent]; decide) rfl rfl (by decide)

end LogFile

end Rucbase
