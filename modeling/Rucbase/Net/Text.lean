import Rucbase.Net.Codec

/-!
# The text of a result

The fixed-width table that the client formats from a result stream (`src/net/wire.cpp`): the text of
a cell, the cells of a line, and the lines of the table.
-/

namespace Rucbase.Wire

open Lib

/-! ## The text of a cell -/

/-- The integer nearest to `num / den`, and the even one of two that are as near. -/
def roundHalfEven (num den : ℕ) : ℕ :=
  let q := num / den
  let r := num % den
  if den < 2 * r ∨ (2 * r = den ∧ q % 2 = 1) then q + 1 else q

/-- The millionths in the magnitude of a finite float with biased exponent `exponent` and fraction
`fraction`, rounded as `printf` rounds. -/
def millionths (exponent fraction : ℕ) : ℕ :=
  let mantissa := if exponent = 0 then fraction else fraction + 2^23
  let exponent := max exponent 1
  if 150 ≤ exponent then mantissa * 2^(exponent - 150) * 10^6
  else roundHalfEven (mantissa * 10^6) (2^(150 - exponent))

/-- `std::to_string` of a float: six digits behind the point. -/
def floatText (x : BitVec 32) : Bytes :=
  let sign := if x.msb then text "-" else []
  let exponent := x.toNat / 2^23 % 256
  let fraction := x.toNat % 2^23
  if exponent = 255 then sign ++ (if fraction = 0 then text "inf" else text "nan")
  else
    let value := millionths exponent fraction
    let digits := text (toString (value % 10^6))
    sign ++ text (toString (value / 10^6)) ++ text "." ++
      text (String.ofList (List.replicate (6 - digits.length) '0')) ++ digits

/-- `CellText`. -/
def cellText (cell : Cell) : Bytes :=
  if cell.isNull then text "NULL"
  else if cell.sqlType = kTypeInt32 then text (toString cell.intVal.toInt)
  else if cell.sqlType = kTypeFloat32 then floatText cell.floatVal
  else cell.strVal

/-! ## The table -/

/-- `kPrettyColWidth`. -/
def kPrettyColWidth : ℕ := 16

/-- The loop that moves the cut of a long value back to the start of a UTF-8 sequence. -/
def cutSize (value : Bytes) : ℕ → ℕ
  | 0 => 0
  | size + 1 =>
    match value[size + 1]? with
    | some byte => if byte &&& 0xc0 = 0x80 then cutSize value size else size + 1
    | none => size + 1

/-- `AppendTableCell`. -/
def tableCell (value : Bytes) : Bytes :=
  let value :=
    if kPrettyColWidth < value.length then
      value.take (cutSize value (kPrettyColWidth - 3)) ++ text "..."
    else value
  text "| " ++ List.replicate (kPrettyColWidth - value.length) 0x20 ++ value ++ text " "

/-- `AppendSeparator`. -/
def separator (numCols : ℕ) : Bytes :=
  (List.replicate numCols (0x2b :: List.replicate (kPrettyColWidth + 2) 0x2d)).flatten ++ text "+\n"

/-- `AppendTableHeader`. -/
def tableHeader (columns : List ColumnDef) : Bytes :=
  separator columns.length ++ columns.flatMap (fun column => tableCell column.name) ++ text "|\n" ++
    separator columns.length

/-- `AppendTableRow`. -/
def tableRow (row : List Cell) : Bytes :=
  row.flatMap (fun cell => tableCell (cellText cell)) ++ text "|\n"

end Rucbase.Wire
