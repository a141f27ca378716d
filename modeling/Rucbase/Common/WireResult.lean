import Rucbase.Common.Errors
import Rucbase.Lib.Except

/-!
# The result buffer of a statement

`src/common/wire_result.h`: the typed rows that an execution leaves for the server to send, and the
builder through which the engine fills them. The builder accounts for the memory of a result and
throws when it passes 16 MiB. A `set_columns` or `set_raw_text` that throws has already replaced the
result by an empty one, so every operation here returns the result that it leaves behind together
with the exception, if any.
-/

namespace Rucbase

open Lib

/-- `WireResultColumn`. -/
structure WireResultColumn where
  name : Bytes
  type : ColType
  deriving DecidableEq, Repr

/-- `WireResultCell`; a float is its bit pattern. -/
structure WireResultCell where
  type : ColType := .string
  intVal : BitVec 32 := 0
  floatVal : BitVec 32 := 0
  strVal : Bytes := []
  deriving DecidableEq, Repr

/-- `WireResultSet`. -/
structure WireResultSet where
  hasQueryResult : Bool := false
  rawText : Bool := false
  bufferedBytes : ℕ := 0
  columns : List WireResultColumn := []
  rows : List (List WireResultCell) := []
  deriving DecidableEq, Repr

namespace WireResultSet

/-- `kMaxBufferedBytes`. -/
def kMaxBufferedBytes : ℕ := 16 * 1024 * 1024

/-- `kMaxRawTextBytes`. -/
def kMaxRawTextBytes : ℕ := 1 * 1024 * 1024

/-- `try_account`: the result with `bytes` more accounted for, when they fit. -/
def tryAccount (result : WireResultSet) (bytes : ℕ) : Option WireResultSet :=
  if kMaxBufferedBytes < result.bufferedBytes ∨ kMaxBufferedBytes - result.bufferedBytes < bytes
  then none
  else some { result with bufferedBytes := result.bufferedBytes + bytes }

end WireResultSet

namespace QueryResultBuilder

/-- `sizeof(WireResultColumn)` on the platform's ABI: a string and an enumeration, padded. -/
def sizeofColumn : ℕ := 40

/-- `sizeof(WireResultCell)`: an enumeration, two words and a string, padded. -/
def sizeofCell : ℕ := 48

/-- `sizeof(std::vector<WireResultCell>)`: three pointers. -/
def sizeofRow : ℕ := 24

/-- `set_columns`. -/
def setColumns (columns : List WireResultColumn) : WireResultSet × Option Error :=
  let result : WireResultSet := { hasQueryResult := true }
  let bytes := columns.length * sizeofColumn + (columns.map (·.name.length)).sum
  match result.tryAccount bytes with
  | none =>
    (result, some (.internalError
      (text "query result schema exceeds the 16 MiB teaching wire buffer")))
  | some result => ({ result with columns := columns }, none)

/-- `set_raw_text` on a builder that holds `result`. -/
def setRawText (result : WireResultSet) (columnName txt : Bytes) : WireResultSet × Option Error :=
  if WireResultSet.kMaxRawTextBytes < txt.length then
    (result, some (.internalError (text "raw text result exceeds the 1 MiB wire frame limit")))
  else
    let result : WireResultSet := { hasQueryResult := true, rawText := true }
    match result.tryAccount (sizeofColumn + columnName.length + txt.length) with
    | none =>
      (result, some (.internalError (text "raw text result exceeds the teaching wire buffer")))
    | some result =>
      ({ result with columns := [⟨columnName, .string⟩], rows := [[{ strVal := txt }]] }, none)

/-- `add_row` on a builder that holds `result`. -/
def addRow (result : WireResultSet) (row : List WireResultCell) : WireResultSet × Option Error :=
  let bytes := 2 * sizeofRow + row.length * sizeofCell + (row.map (·.strVal.length)).sum
  match result.tryAccount bytes with
  | none =>
    (result, some (.internalError (text "query result exceeds the 16 MiB teaching wire buffer")))
  | some result => ({ result with rows := result.rows ++ [row] }, none)

/-- The operations of the builder. -/
inductive Op where
  | resetQuery
  | setColumns (columns : List WireResultColumn)
  | setRawText (columnName txt : Bytes)
  | addRow (row : List WireResultCell)

/-- One operation, whether it throws or not. -/
def Op.run (result : WireResultSet) : Op → WireResultSet
  | .resetQuery => {}
  | .setColumns columns => (QueryResultBuilder.setColumns columns).1
  | .setRawText columnName txt => (QueryResultBuilder.setRawText result columnName txt).1
  | .addRow row => (QueryResultBuilder.addRow result row).1

/-- The result that a sequence of operations leaves in a fresh builder. -/
def build (ops : List Op) : WireResultSet := ops.foldl Op.run {}

end QueryResultBuilder

end Rucbase
