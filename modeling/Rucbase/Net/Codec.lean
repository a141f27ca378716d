import Rucbase.Common.Errors
import Rucbase.Lib.Except
import Rucbase.Net.Frame

/-!
# Payloads

The encoders and decoders of META, ROW and RESULT_END payloads (`src/net/wire.cpp`). A decoder keeps
an offset into the payload; here it keeps what lies behind the offset, and returns what it leaves.

The decoders accept exactly what the encoders spell: a META payload is the spelling of the columns
that it is decoded to (`decodeMeta_eq_ok`), and a ROW payload is the spelling of the cells that it
is decoded to, whose types are those of the columns (`decodeRow_eq_ok`). A decoded cell is
canonical: the fields that its type does not select are empty.
-/

namespace Rucbase.Wire

open Lib

/-- `kTypeInt32`. -/
def kTypeInt32 : UInt8 := 0x01

/-- `kTypeFloat32`. -/
def kTypeFloat32 : UInt8 := 0x02

/-- `kTypeChar`. -/
def kTypeChar : UInt8 := 0x03

/-- `ColumnDef`. -/
structure ColumnDef where
  name : Bytes
  sqlType : UInt8 := kTypeChar
  deriving DecidableEq, Repr

/-- `Cell`; a float is its bit pattern. -/
structure Cell where
  isNull : Bool := false
  sqlType : UInt8 := kTypeChar
  intVal : BitVec 32 := 0
  floatVal : BitVec 32 := 0
  strVal : Bytes := []
  deriving DecidableEq, Repr

/-- `IsKnownSqlType`. -/
def isKnownSqlType (sqlType : UInt8) : Bool :=
  sqlType == kTypeInt32 || sqlType == kTypeFloat32 || sqlType == kTypeChar

/-- `ColTypeToWire` on the enumerators of `ColType`. -/
def colTypeToWire : ColType → UInt8
  | .int => kTypeInt32
  | .float => kTypeFloat32
  | .string => kTypeChar

/-! ## Integers and strings -/

/-- `ReadU8`. -/
def readU8 : Bytes → Option (UInt8 × Bytes)
  | [] => none
  | b :: buf => some (b, buf)

/-- The big-endian integer of `k` bytes in front. -/
def readUInt (k : ℕ) (buf : Bytes) : Option (ℕ × Bytes) :=
  if buf.length < k then none else some (beNat (buf.take k), buf.drop k)

/-- `ReadU16`. -/
def readU16 : Bytes → Option (ℕ × Bytes) := readUInt 2

/-- `ReadU32`. -/
def readU32 : Bytes → Option (ℕ × Bytes) := readUInt 4

/-- `ReadU64`: two 32-bit halves. -/
def readU64 (buf : Bytes) : Option (ℕ × Bytes) :=
  match readU32 buf with
  | none => none
  | some (hi, buf) =>
    match readU32 buf with
    | none => none
    | some (lo, buf) => some (hi * 2^32 + lo, buf)

/-- `ReadBytes`. -/
def readBytes (n : ℕ) (buf : Bytes) : Option (Bytes × Bytes) :=
  if buf.length < n then none else some (buf.take n, buf.drop n)

/-- `EncodeResultEnd`: `AppendU64` of the row count, in two 32-bit halves. -/
def encodeResultEnd (rowCount : ℕ) : Bytes := beBytes 4 (rowCount / 2^32) ++ beBytes 4 rowCount

/-! ## META -/

/-- The spelling of a column. -/
def columnBytes (column : ColumnDef) : Bytes :=
  beBytes 2 column.name.length ++ column.name ++ [column.sqlType]

/-- The spelling of a list of columns. -/
def metaBytes (columns : List ColumnDef) : Bytes :=
  beBytes 2 columns.length ++ columns.flatMap columnBytes

/-- The first loop of `TryEncodeMeta`: check the columns and add up their sizes. -/
def metaSize : List ColumnDef → ℕ → Except Bytes ℕ
  | [], encodedSize => pure encodedSize
  | column :: columns, encodedSize => do
    let nameSize := column.name.length
    throwIf (nameSize = 0 ∨ 65535 < nameSize) (text "META column name is out of range")
    throwIf (isKnownSqlType column.sqlType = false) (text "META contains an unknown column type")
    let columnSize := 2 + nameSize + 1
    throwIf (kMaxPayloadBytes - encodedSize < columnSize) (text "META payload exceeds 1 MiB")
    metaSize columns (encodedSize + columnSize)

/-- The payload that `TryEncodeMeta` makes, or the diagnostic. -/
def encodedMeta (columns : List ColumnDef) : Except Bytes Bytes := do
  throwIf (columns.isEmpty ∨ 65535 < columns.length) (text "META column count is out of range")
  let _ ← metaSize columns 2
  pure (metaBytes columns)

/-- The loop over the columns of a META payload. A failure comes with its diagnostic and the columns
decoded before it. -/
def decodeColumns : ℕ → Bytes → List ColumnDef →
    Except (Bytes × List ColumnDef) (List ColumnDef × Bytes)
  | 0, buf, columns => pure (columns, buf)
  | n + 1, buf, columns =>
    match readU16 buf with
    | none => throw (text "invalid META column name", columns)
    | some (nameSize, buf) =>
      if nameSize = 0 then throw (text "invalid META column name", columns)
      else match readBytes nameSize buf with
        | none => throw (text "invalid META column name bytes", columns)
        | some (name, buf) =>
          match readU8 buf with
          | none => throw (text "unknown META column type", columns)
          | some (sqlType, buf) =>
            if isKnownSqlType sqlType then decodeColumns n buf (columns ++ [⟨name, sqlType⟩])
            else throw (text "unknown META column type", columns)

/-- The decoding of a META payload. -/
def decodeMeta (payload : Bytes) : Except (Bytes × List ColumnDef) (List ColumnDef) :=
  match readU16 payload with
  | none => throw (text "invalid META", [])
  | some (columnCount, buf) =>
    if columnCount = 0 then throw (text "invalid META", [])
    else do
      let (columns, buf) ← decodeColumns columnCount buf []
      throwIf (buf ≠ []) (text "trailing bytes in META", columns)
      pure columns

/-! ## ROW -/

/-- `AppendCell`. -/
def cellBytes (cell : Cell) : Bytes :=
  if cell.isNull then [0]
  else 1 ::
    if cell.sqlType = kTypeInt32 then beBytes 4 cell.intVal.toNat
    else if cell.sqlType = kTypeFloat32 then beBytes 4 cell.floatVal.toNat
    else if cell.sqlType = kTypeChar then beBytes 4 cell.strVal.length ++ cell.strVal
    else []

/-- The first loop of `TryEncodeRow`: check the cells and add up their sizes. -/
def rowSize : List Cell → ℕ → Except Bytes ℕ
  | [], encodedSize => pure encodedSize
  | cell :: cells, encodedSize => do
    throwIf (isKnownSqlType cell.sqlType = false) (text "ROW contains an unknown cell type")
    throwIf (cell.isNull = false ∧ cell.sqlType = kTypeChar ∧ 2^32 - 1 < cell.strVal.length)
      (text "ROW string cell is out of range")
    let cellSize :=
      if cell.isNull then 1
      else if cell.sqlType = kTypeChar then 1 + (4 + cell.strVal.length)
      else 1 + 4
    throwIf (kMaxPayloadBytes - encodedSize < cellSize) (text "ROW payload exceeds 1 MiB")
    rowSize cells (encodedSize + cellSize)

/-- The payload that `TryEncodeRow` makes, or the diagnostic. -/
def encodedRow (cells : List Cell) : Except Bytes Bytes := do
  throwIf cells.isEmpty (text "ROW has no cells")
  let _ ← rowSize cells 0
  pure (cells.flatMap cellBytes)

/-- What `DecodeCell` does with a value that is present. -/
def decodeValue (sqlType : UInt8) (buf : Bytes) : Option (Cell × Bytes) :=
  match readU32 buf with
  | none => none
  | some (bits, buf) =>
    if sqlType = kTypeInt32 then
      some ({ sqlType := sqlType, intVal := BitVec.ofNat 32 bits }, buf)
    else if sqlType = kTypeFloat32 then
      some ({ sqlType := sqlType, floatVal := BitVec.ofNat 32 bits }, buf)
    else match readBytes bits buf with
      | none => none
      | some (str, buf) => some ({ sqlType := sqlType, strVal := str }, buf)

/-- `DecodeCell`. -/
def decodeCell (sqlType : UInt8) (buf : Bytes) : Option (Cell × Bytes) :=
  if isKnownSqlType sqlType = false then none
  else match readU8 buf with
    | none => none
    | some (present, buf) =>
      if 1 < present then none
      else if present = 0 then some ({ isNull := true, sqlType := sqlType }, buf)
      else decodeValue sqlType buf

/-- The loop over the columns for a ROW payload. -/
def decodeCells : List ColumnDef → Bytes → Option (List Cell × Bytes)
  | [], buf => some ([], buf)
  | column :: columns, buf =>
    match decodeCell column.sqlType buf with
    | none => none
    | some (cell, buf) =>
      match decodeCells columns buf with
      | none => none
      | some (cells, buf) => some (cell :: cells, buf)

/-- The decoding of a ROW payload. -/
def decodeRow (columns : List ColumnDef) (payload : Bytes) : Except Bytes (List Cell) :=
  match decodeCells columns payload with
  | none => throw (text "invalid ROW cell")
  | some (cells, buf) =>
    if buf ≠ [] then throw (text "trailing bytes in ROW") else pure cells

/-- The decoding of a RESULT_END payload. -/
def decodeResultEnd (payload : Bytes) : Option ℕ :=
  match readU64 payload with
  | some (declaredRows, []) => some declaredRows
  | _ => none

/-! ## Output parameters -/

/-- `SetDiagnostic`; a null pointer stays one. -/
def setDiagnostic (diagnostic : Option Bytes) (message : Bytes) : Option Bytes :=
  diagnostic.map fun _ => message

/-- What an encoder returns, and what it leaves in the strings that it is given pointers to. -/
structure Encoding where
  ok : Bool
  payload : Option Bytes
  diagnostic : Option Bytes
  deriving DecidableEq, Repr

/-- The output of the encoders: a payload that is not null is cleared, and stays empty if a check
fails. -/
def encodeInto (nullOutput : Bytes) (encoded : Except Bytes Bytes)
    (payload diagnostic : Option Bytes) : Encoding :=
  match payload, encoded with
  | none, _ => ⟨false, none, setDiagnostic diagnostic nullOutput⟩
  | some _, .error message => ⟨false, some [], setDiagnostic diagnostic message⟩
  | some _, .ok bytes => ⟨true, some bytes, diagnostic⟩

/-- `TryEncodeMeta`. -/
def tryEncodeMeta (columns : List ColumnDef) : Option Bytes → Option Bytes → Encoding :=
  encodeInto (text "null META output") (encodedMeta columns)

/-- `TryEncodeRow`. -/
def tryEncodeRow (cells : List Cell) : Option Bytes → Option Bytes → Encoding :=
  encodeInto (text "null ROW output") (encodedRow cells)

end Rucbase.Wire
