import Rucbase.Common.Errors
import Rucbase.Lib.Except

/-!
# Values and conditions

`src/common/common.h`: column references, literal values with their pre-encoded buffer, and the
conditions and assignments that the analyzer hands to the planner. A number is kept as the 32-bit
word of the union of `int_val` and `float_val`, so a float is its bit pattern.

`Value.initRaw` is the encoder of literals. `initRaw_spec` says what it leaves behind when it
returns, and `initRaw_ne_assertionFailed` when its assertions hold.
-/

namespace Rucbase

open Lib

/-- `Rid`: the place of a record. -/
structure Rid where
  pageNo : ℤ
  slotNo : ℤ
  deriving DecidableEq, Repr

/-- A column reference; an empty `tabName` is an unqualified one. -/
structure TabCol where
  tabName : Bytes
  colName : Bytes
  deriving DecidableEq, Repr

/-- `Value`: a typed literal. -/
structure Value where
  type : ColType
  /-- The union of `int_val` and `float_val`. -/
  num : BitVec 32
  strVal : Bytes
  /-- The record buffer that `raw` points to, if any. -/
  raw : Option Bytes
  deriving DecidableEq, Repr

/-- An integer converted to a 32-bit `int`. -/
def toInt32 (n : ℤ) : ℤ := n.bmod (2^32)

namespace Value

/-- `set_int` on a fresh value. -/
def setInt (val : BitVec 32) : Value := ⟨.int, val, [], none⟩

/-- `set_float` on a fresh value. -/
def setFloat (val : BitVec 32) : Value := ⟨.float, val, [], none⟩

/-- `set_str` on a fresh value. -/
def setStr (val : Bytes) : Value := ⟨.string, 0, val, none⟩

/-- `init_raw`: encode the value in a fresh buffer of `len` bytes. The size of the string is
converted to `int` before it is compared with `len`, so a string of `2^31` bytes or more may pass
the check, and copying it would then run past the end of the buffer. -/
def initRaw (v : Value) (len : ℤ) : Except Error Value :=
  if v.raw.isSome then throw .assertionFailed
  else if len < 0 then throw (.invalidRecordSizeError len)
  else match v.type with
    | .int =>
      if len ≠ 4 then throw .assertionFailed
      else pure { v with raw := some (leBytes 4 v.num.toNat) }
    | .float =>
      if len ≠ 4 then throw .assertionFailed
      else pure { v with raw := some (leBytes 4 v.num.toNat) }
    | .string =>
      if len < toInt32 v.strVal.length then throw .stringOverflowError
      else if len < v.strVal.length then throw .undefinedBehaviour
      else pure { v with raw := some (memcpy (List.replicate len.toNat 0) 0 v.strVal) }

/-- The encoding of a value in a column of `len` bytes: the four bytes of a number, least
significant first, or the string padded with NULs. -/
def encoding (v : Value) (len : ℤ) : Bytes :=
  match v.type with
  | .int | .float => leBytes 4 v.num.toNat
  | .string => v.strVal ++ List.replicate (len.toNat - v.strVal.length) 0

/-- The encoding of a number, or of a string that fits, fills the column. -/
theorem length_encoding {v : Value} {len : ℤ} (hnum : v.type ≠ .string → len = 4)
    (hstr : v.type = .string → (v.strVal.length : ℤ) ≤ len) :
    ((v.encoding len).length : ℤ) = len := by
  cases hty : v.type with
  | int | float => simp [encoding, hty, hnum (by simp [hty])]
  | string =>
    have := hstr hty
    simp only [encoding, hty, List.length_append, List.length_replicate]
    omega

/-- Filling a buffer with NULs and copying a shorter string to its start pads the string. -/
theorem memcpy_replicate (str : Bytes) (n : ℕ) :
    memcpy (List.replicate n 0) 0 str = str ++ List.replicate (n - str.length) 0 := by
  simp [memcpy]

/-- What `initRaw` leaves behind when it returns: the value as it was, with its encoding, of
exactly `len` bytes, in the buffer. -/
theorem initRaw_spec {v v' : Value} {len : ℤ} (h : v.initRaw len = .ok v') :
    v' = { v with raw := some (v.encoding len) } ∧ ((v.encoding len).length : ℤ) = len ∧
      (v.type = .string → (v.strVal.length : ℤ) ≤ len) := by
  unfold initRaw at h
  cases hty : v.type with
  | int | float =>
    simp only [hty] at h
    split_ifs at h with hraw hneg hlen
    rw [pure_eq_ok] at h
    refine ⟨by simp [← h, encoding, hty], length_encoding (fun _ => by omega) ?_, ?_⟩ <;>
      simp [hty]
  | string =>
    simp only [hty] at h
    split_ifs at h with hraw hneg hover hpast
    rw [pure_eq_ok] at h
    have hfit : (v.strVal.length : ℤ) ≤ len := by omega
    refine ⟨?_, length_encoding (by simp [hty]) fun _ => hfit, fun _ => hfit⟩
    simp [← h, encoding, hty, memcpy_replicate]

/-- The assertions of `initRaw` hold on a value without a buffer whose column has the length of
its type. -/
theorem initRaw_ne_assertionFailed {v : Value} {len : ℤ} (hraw : v.raw = none)
    (hnum : v.type ≠ .string → len = 4) : v.initRaw len ≠ .error .assertionFailed := by
  unfold initRaw
  cases hty : v.type with
  | int | float => simp [hraw, hnum (by simp [hty])]
  | string =>
    simp only [hraw, Option.isSome_none, Bool.false_eq_true, if_false]
    split_ifs <;> simp

end Value

/-- `CompOp`. -/
inductive CompOp where
  | eq
  | ne
  | lt
  | gt
  | le
  | ge
  deriving DecidableEq, Repr

/-- `Condition`: `lhs_col op rhs_val` or `lhs_col op rhs_col`. -/
structure Condition where
  lhsCol : TabCol
  op : CompOp
  isRhsVal : Bool
  rhsCol : TabCol
  rhsVal : Value
  deriving DecidableEq, Repr

/-- `SetClause`: one assignment of an UPDATE. -/
structure SetClause where
  lhs : TabCol
  rhs : Value
  deriving DecidableEq, Repr

end Rucbase
