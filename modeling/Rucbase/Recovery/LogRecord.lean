import Rucbase.Catalog.Meta
import Rucbase.Lib.Blocks

/-!
# Log records

The records of the write-ahead log (`src/recovery/log_manager.h`) in memory and as bytes. An insert
record is the header, the record with its size in front, the place where it was inserted, and the
name of the table with its size in front. The size of the whole is added up when the record is
built, the offsets of the parts again when it is written, and a third time when it is read:
`insertLogRecord_roundTrip` says that they agree.

A load through a cast pointer reads the bytes at its address, at any alignment, and a copy of no
bytes does nothing. Access outside the buffer is undefined behaviour.
-/

namespace Rucbase

open Lib

/-- `n` is an `int`, an `lsn_t` or a `txn_id_t`. -/
def IsInt32 (n : ℤ) : Prop := -2^31 ≤ n ∧ n < 2^31

/-- `LogType`, an enumeration over `int`: each value of `int` is one of its values. -/
structure LogType where
  code : ℤ
  deriving DecidableEq, Repr

/-- `LogType::INSERT`. -/
def LogType.insert : LogType := ⟨1⟩

/-! ## The header -/

/-- `LogRecord`. -/
structure LogRecord where
  logType : LogType
  lsn : ℤ
  /-- A `uint32_t`. -/
  logTotLen : ℕ
  logTid : ℤ
  prevLsn : ℤ
  deriving DecidableEq, Repr

namespace LogRecord

/-- `OFFSET_LOG_TYPE`. -/
def offsetLogType : ℕ := 0

/-- `OFFSET_LSN`. -/
def offsetLsn : ℕ := 4

/-- `OFFSET_LOG_TOT_LEN`. -/
def offsetLogTotLen : ℕ := offsetLsn + 4

/-- `OFFSET_LOG_TID`. -/
def offsetLogTid : ℕ := offsetLogTotLen + 4

/-- `OFFSET_PREV_LSN`. -/
def offsetPrevLsn : ℕ := offsetLogTid + 4

/-- `OFFSET_LOG_DATA`. -/
def offsetLogData : ℕ := offsetPrevLsn + 4

/-- `LOG_HEADER_SIZE`. -/
def logHeaderSize : ℕ := offsetLogData

/-- `LogRecord::serialize`. -/
def serialize (record : LogRecord) (dest : Bytes) : Except Error Bytes := do
  let dest ← copyTo .undefinedBehaviour dest offsetLogType (int32Bytes record.logType.code)
  let dest ← copyTo .undefinedBehaviour dest offsetLsn (int32Bytes record.lsn)
  let dest ← copyTo .undefinedBehaviour dest offsetLogTotLen (leBytes 4 record.logTotLen)
  let dest ← copyTo .undefinedBehaviour dest offsetLogTid (int32Bytes record.logTid)
  copyTo .undefinedBehaviour dest offsetPrevLsn (int32Bytes record.prevLsn)

/-- `LogRecord::deserialize`. -/
def deserialize (src : Bytes) : Except Error LogRecord := do
  let logType ← load .undefinedBehaviour src offsetLogType 4
  let lsn ← load .undefinedBehaviour src offsetLsn 4
  let logTotLen ← load .undefinedBehaviour src offsetLogTotLen 4
  let logTid ← load .undefinedBehaviour src offsetLogTid 4
  let prevLsn ← load .undefinedBehaviour src offsetPrevLsn 4
  pure ⟨⟨int32Of logType⟩, int32Of lsn, leNat logTotLen, int32Of logTid, int32Of prevLsn⟩

end LogRecord

/-! ## The record -/

/-- `RmRecord::Deserialize`: the data of the record. -/
def RmRecord.deserialize (src : Bytes) : Except Error Bytes := do
  let decodedSize := int32Of (← load .undefinedBehaviour src 0 4)
  throwIf (decodedSize < 0 ∨ rmMaxRecordSize < decodedSize)
    (.invalidRecordSizeError decodedSize)
  load .undefinedBehaviour src 4 decodedSize.toNat

/-- `InsertLogRecord`. The sizes of the record and of the name are those of the byte strings. -/
structure InsertLogRecord extends LogRecord where
  insertValue : Bytes
  rid : Rid
  tableName : Bytes
  deriving DecidableEq, Repr

namespace InsertLogRecord

open LogRecord

/-- `log_tot_len_ += size`. -/
def addToTotLen (logTotLen size : ℕ) : ℕ := (logTotLen + size) % 2^32

/-- The constructor of an insert record. -/
def make (txnId : ℤ) (insertValue : Bytes) (rid : Rid) (tableName : Bytes) : InsertLogRecord :=
  let logTotLen := addToTotLen logHeaderSize 4
  let logTotLen := addToTotLen logTotLen insertValue.length
  let logTotLen := addToTotLen logTotLen 8
  let logTotLen := addToTotLen logTotLen (8 + tableName.length)
  { logType := .insert
    lsn := -1
    logTotLen := logTotLen
    logTid := txnId
    prevLsn := -1
    insertValue := insertValue
    rid := rid
    tableName := tableName }

/-- `InsertLogRecord::serialize`. -/
def serialize (record : InsertLogRecord) (dest : Bytes) : Except Error Bytes := do
  let dest ← record.toLogRecord.serialize dest
  let offset := offsetLogData
  let dest ← copyTo .undefinedBehaviour dest offset (int32Bytes record.insertValue.length)
  let offset := offset + 4
  let dest ← copyTo .undefinedBehaviour dest offset record.insertValue
  let offset := offset + record.insertValue.length
  let dest ← copyTo .undefinedBehaviour dest offset
    (int32Bytes record.rid.pageNo ++ int32Bytes record.rid.slotNo)
  let offset := offset + 8
  let dest ← copyTo .undefinedBehaviour dest offset (leBytes 8 record.tableName.length)
  let offset := offset + 8
  copyTo .undefinedBehaviour dest offset record.tableName

/-- `InsertLogRecord::deserialize`. -/
def deserialize (src : Bytes) : Except Error InsertLogRecord := do
  let header ← LogRecord.deserialize src
  let insertValue ← RmRecord.deserialize (src.drop offsetLogData)
  let offset := offsetLogData + insertValue.length + 4
  let rid ← load .undefinedBehaviour src offset 8
  let offset := offset + 8
  let tableNameSize := leNat (← load .undefinedBehaviour src offset 8)
  let offset := offset + 8
  let tableName ← load .undefinedBehaviour src offset tableNameSize
  pure { toLogRecord := header
         insertValue := insertValue
         rid := ⟨int32Of (rid.take 4), int32Of (rid.drop 4)⟩
         tableName := tableName }

end InsertLogRecord

/-! ## The bytes -/

/-- The bytes of a header. -/
def LogRecord.bytes (record : LogRecord) : Bytes :=
  int32Bytes record.logType.code ++ (int32Bytes record.lsn ++ (leBytes 4 record.logTotLen ++
    (int32Bytes record.logTid ++ int32Bytes record.prevLsn)))

/-- The bytes of an insert record. -/
def InsertLogRecord.bytes (record : InsertLogRecord) : Bytes :=
  record.toLogRecord.bytes ++ (int32Bytes record.insertValue.length ++ (record.insertValue ++
    ((int32Bytes record.rid.pageNo ++ int32Bytes record.rid.slotNo) ++
      (leBytes 8 record.tableName.length ++ record.tableName))))

/-- The numbers of the header have the widths of their types. -/
structure LogRecord.Fits (record : LogRecord) : Prop where
  logType : IsInt32 record.logType.code
  lsn : IsInt32 record.lsn
  logTotLen : record.logTotLen < 2^32
  logTid : IsInt32 record.logTid
  prevLsn : IsInt32 record.prevLsn

theorem IsInt32.int32Of {n : ℤ} (h : IsInt32 n) : int32Of (int32Bytes n) = n :=
  int32Of_int32Bytes h.1 h.2

@[simp]
theorem LogRecord.length_bytes (record : LogRecord) : record.bytes.length = 20 := by
  simp [LogRecord.bytes]

theorem InsertLogRecord.length_bytes (record : InsertLogRecord) :
    record.bytes.length = 20 + 4 + record.insertValue.length + 8 + 8 + record.tableName.length := by
  simp only [InsertLogRecord.bytes, List.length_append, LogRecord.length_bytes, length_int32Bytes,
    length_leBytes]
  omega

/-- The copies of a header tile its bytes. -/
theorem LogRecord.appends_serialize (record : LogRecord) :
    Appends record.serialize 0 record.bytes := by
  refine (appends_copyTo _ _ _).bind ?_
  refine (appends_copyTo _ _ _).bind ?_
  refine (appends_copyTo _ _ _).bind ?_
  exact (appends_copyTo _ _ _).bind (appends_copyTo _ _ _)

theorem LogRecord.deserialize_of_holds {record : LogRecord} (hfits : record.Fits) {src : Bytes}
    (h : Holds src 0 record.bytes) : LogRecord.deserialize src = .ok record := by
  have hlogType := h.left.load Error.undefinedBehaviour (length_int32Bytes _)
  have hlsn := h.right.left.load Error.undefinedBehaviour (length_int32Bytes _)
  have hlogTotLen := h.right.right.left.load Error.undefinedBehaviour (length_leBytes _ _)
  have hlogTid := h.right.right.right.left.load Error.undefinedBehaviour (length_int32Bytes _)
  have hprevLsn := h.right.right.right.right.load Error.undefinedBehaviour (length_int32Bytes _)
  simp only [length_int32Bytes, length_leBytes] at hlsn hlogTotLen hlogTid hprevLsn
  simp only [LogRecord.deserialize, offsetPrevLsn, offsetLogTid, offsetLogTotLen, offsetLsn,
    offsetLogType, hlogType, hlsn, hlogTotLen, hlogTid, hprevLsn, ok_bind]
  rw [hfits.logType.int32Of, hfits.lsn.int32Of, leNat_leBytes hfits.logTotLen, hfits.logTid.int32Of,
    hfits.prevLsn.int32Of]
  rfl

theorem RmRecord.deserialize_of_holds {data src : Bytes} (hdata : data.length ≤ 512)
    (h : Holds src 0 (int32Bytes data.length ++ data)) : RmRecord.deserialize src = .ok data := by
  have hsize := h.left.load Error.undefinedBehaviour (length_int32Bytes _)
  have hload := h.right.load Error.undefinedBehaviour rfl
  rw [length_int32Bytes] at hload
  have hint : IsInt32 (data.length : ℤ) := ⟨by omega, by omega⟩
  refine bind_eq_ok.mpr ⟨_, hsize, bind_eq_ok.mpr ⟨(), throwIf_eq_ok.mpr ?_, ?_⟩⟩
  · rw [hint.int32Of, rmMaxRecordSize]
    omega
  · rwa [hint.int32Of, Int.toNat_natCast]

/-- The copies of an insert record tile its bytes. -/
theorem InsertLogRecord.appends_serialize (record : InsertLogRecord) :
    Appends record.serialize 0 record.bytes := by
  refine record.toLogRecord.appends_serialize.bind ?_
  rw [LogRecord.length_bytes]
  refine (appends_copyTo _ _ _).bind ?_
  refine (appends_copyTo _ _ _).bind ?_
  refine (appends_copyTo _ _ _).bind ?_
  exact (appends_copyTo _ _ _).bind (appends_copyTo _ _ _)

theorem InsertLogRecord.deserialize_of_holds {record : InsertLogRecord}
    (hfits : record.toLogRecord.Fits) (hvalue : record.insertValue.length ≤ 512)
    (hpage : IsInt32 record.rid.pageNo) (hslot : IsInt32 record.rid.slotNo)
    (hname : record.tableName.length < 256 ^ 8) {src : Bytes} (h : Holds src 0 record.bytes) :
    InsertLogRecord.deserialize src = .ok record := by
  have hheader := LogRecord.deserialize_of_holds hfits h.left
  -- Behind the header: the record, the place and the name.
  have hdata := h.right
  rw [LogRecord.length_bytes, Nat.zero_add] at hdata
  have hrid := hdata.right.right
  rw [length_int32Bytes, Nat.add_right_comm] at hrid
  have hsize := hrid.right.left
  have htable := hrid.right.right
  rw [List.length_append, length_int32Bytes, length_int32Bytes] at hsize htable
  rw [length_leBytes] at htable
  rw [← List.append_assoc] at hdata
  have hvalue' : RmRecord.deserialize (src.drop 20) = .ok record.insertValue :=
    RmRecord.deserialize_of_holds hvalue hdata.left.drop
  refine bind_eq_ok.mpr ⟨_, hheader, bind_eq_ok.mpr ⟨_, hvalue', bind_eq_ok.mpr ⟨_,
    hrid.left.load Error.undefinedBehaviour rfl, bind_eq_ok.mpr ⟨_,
    hsize.load Error.undefinedBehaviour rfl, bind_eq_ok.mpr ⟨_,
    htable.load Error.undefinedBehaviour (leNat_leBytes hname).symm, ?_⟩⟩⟩⟩⟩
  rw [List.take_left' (length_int32Bytes _), List.drop_left' (length_int32Bytes _), hpage.int32Of,
    hslot.int32Of]
  rfl

/-! ## The round trip -/

namespace InsertLogRecord

/-- The size that the constructor adds up does not wrap around. -/
theorem make_logTotLen (txnId : ℤ) (insertValue : Bytes) (rid : Rid) (tableName : Bytes)
    (htotal : 20 + 4 + insertValue.length + 8 + 8 + tableName.length < 2^31) :
    (make txnId insertValue rid tableName).logTotLen =
      20 + 4 + insertValue.length + 8 + 8 + tableName.length := by
  simp only [make, addToTotLen, LogRecord.logHeaderSize, LogRecord.offsetLogData,
    LogRecord.offsetPrevLsn, LogRecord.offsetLogTid, LogRecord.offsetLogTotLen, LogRecord.offsetLsn]
  omega

/-- `serialize` writes the first `log_tot_len_` bytes of its buffer and no others, and
`deserialize` gets the record back from them, whatever is behind them. -/
theorem insertLogRecord_roundTrip (txnId : ℤ) (insertValue : Bytes) (rid : Rid) (tableName : Bytes)
    (lsn prevLsn : ℤ) (htxn : IsInt32 txnId) (hlsn : IsInt32 lsn) (hprev : IsInt32 prevLsn)
    (hpage : IsInt32 rid.pageNo) (hslot : IsInt32 rid.slotNo) (hvalue : insertValue.length ≤ 512)
    (htotal : 20 + 4 + insertValue.length + 8 + 8 + tableName.length < 2^31) :
    let record := { make txnId insertValue rid tableName with lsn := lsn, prevLsn := prevLsn }
    ∃ bytes : Bytes, bytes.length = record.logTotLen ∧
      (∀ dest, record.logTotLen ≤ dest.length →
        record.serialize dest = .ok (bytes ++ dest.drop record.logTotLen)) ∧
      ∀ rest, deserialize (bytes ++ rest) = .ok record := by
  intro record
  have htotLen := make_logTotLen txnId insertValue rid tableName htotal
  have hlength : record.bytes.length = record.logTotLen := record.length_bytes.trans htotLen.symm
  refine ⟨record.bytes, hlength, fun dest hdest => ?_, fun rest => ?_⟩
  · have hwrite := record.appends_serialize [] dest rfl (hlength.trans_le hdest)
    rwa [hlength] at hwrite
  · have hinsert : IsInt32 LogType.insert.code := ⟨by decide, by decide⟩
    have hfits : record.toLogRecord.Fits :=
      { logType := hinsert
        lsn := hlsn
        logTotLen := htotLen.trans_lt (by omega)
        logTid := htxn
        prevLsn := hprev }
    have hname : tableName.length < 256 ^ 8 := by omega
    exact deserialize_of_holds hfits hvalue hpage hslot hname ⟨[], rest, rfl, rfl⟩

theorem insertLogRecord_roundTrip_student :
    let record := { make 7 (text "Ada") ⟨1, 0⟩ (text "student") with lsn := 3, prevLsn := -1 }
    record.logTotLen = 50 ∧ ∃ bytes : Bytes, bytes.length = 50 ∧
      record.serialize (List.replicate 64 0) = .ok (bytes ++ List.replicate 14 0) ∧
      deserialize bytes = .ok record := by
  intro record
  obtain ⟨bytes, hlength, hwrite, hread⟩ := insertLogRecord_roundTrip 7 (text "Ada") ⟨1, 0⟩
    (text "student") 3 (-1) ⟨by decide, by decide⟩ ⟨by decide, by decide⟩ ⟨by decide, by decide⟩
    ⟨by decide, by decide⟩ ⟨by decide, by decide⟩ (by decide) (by decide)
  have hread' := hread []
  rw [List.append_nil] at hread'
  exact ⟨by decide, bytes, hlength, hwrite (List.replicate 64 0) (by decide), hread'⟩

end InsertLogRecord

end Rucbase
