import Rucbase.Common.WireResult
import Rucbase.Net.Codec

/-!
# What the server sends

`send_statement_result` and the functions below it (`src/server/server.cpp`). A result without
columns is COMMAND_OK; a result set is META, its rows and RESULT_END, once the checks before META
have passed, and ERROR if one of them fails.

The code allocates before each frame that it writes, so an exception may leave it between two
frames; `Faults` says which of these allocations throw.
-/

namespace Rucbase.Server

open Lib Wire

/-- How the sending code ends: it returns, or lets an exception through. -/
inductive Sent where
  | returned (ok : Bool)
  | threw (what : Bytes)
  deriving DecidableEq, Repr

/-- What the code in front of the `n`-th frame of a response throws, if it throws. -/
abbrev Faults := ℕ → Option Bytes

/-- Go on when the first part returned true. -/
def andThen (first : Sent × Sink) (next : Sink → Sent × Sink) : Sent × Sink :=
  match first with
  | (.returned true, sink) => next sink
  | first => first

/-- Prepare and write the `n`-th frame. -/
def sendFrame (faults : Faults) (n : ℕ) (tag flags : UInt8) (payload : Bytes) (sink : Sink) :
    Sent × Sink :=
  match faults n with
  | some what => (.threw what, sink)
  | none =>
    let (ok, sink) := writeFrame tag flags payload sink
    (.returned ok, sink)

/-- The diagnostic that `send_error` sends: ended by a newline, and cut to 64 KiB. -/
def errorPayload (diagnostic : Bytes) : Bytes :=
  let diagnostic :=
    if diagnostic ≠ [] ∧ diagnostic.getLast? ≠ some 0x0a then diagnostic ++ [0x0a] else diagnostic
  if kMaxDiagnosticBytes < diagnostic.length then diagnostic.take kMaxDiagnosticBytes
  else diagnostic

/-- `send_error`. -/
def sendError (faults : Faults) (n : ℕ) (diagnostic : Bytes) (sink : Sink) : Sent × Sink :=
  sendFrame faults n kTagError 0 (errorPayload diagnostic) sink

/-! ## Query results -/

/-- The columns of META. -/
def wireColumns (columns : List WireResultColumn) : List ColumnDef :=
  columns.map fun column => { name := column.name, sqlType := colTypeToWire column.type }

/-- The check of one row against the columns. -/
def checkRow (columns : List WireResultColumn) (row : List WireResultCell) : Except Bytes Unit := do
  throwIf (row.length ≠ columns.length) (text "query result row does not match its schema")
  throwIf (row.map WireResultCell.type ≠ columns.map WireResultColumn.type)
    (text "query result cell type does not match its schema")

/-- The part of `send_query_result` before META: its checks, and the payload of META. -/
def queryMeta (result : WireResultSet) : Except Bytes Bytes := do
  result.rows.forM (checkRow result.columns)
  encodedMeta (wireColumns result.columns)

/-- The cells of a ROW frame. -/
def rowCells (columns : List ColumnDef) (row : List WireResultCell) : List Cell :=
  List.zipWith
    (fun column cell =>
      { sqlType := column.sqlType, intVal := cell.intVal, floatVal := cell.floatVal,
        strVal := cell.strVal })
    columns row

/-- The loop over the rows; the next frame is the `n`-th. A row that cannot be encoded ends the
connection. -/
def sendRows (faults : Faults) (columns : List ColumnDef) :
    ℕ → List (List WireResultCell) → Sink → Sent × Sink
  | _, [], sink => (.returned true, sink)
  | n, row :: rows, sink =>
    match faults n, encodedRow (rowCells columns row) with
    -- What the code in front of the frame throws, it throws before it encodes the row.
    | some what, _ => (.threw what, sink)
    -- META has been sent, so the diagnostic cannot be sent any more.
    | none, .error _ => (.returned false, sink)
    | none, .ok payload =>
      andThen (sendFrame faults n kTagRow 0 payload sink) (sendRows faults columns (n + 1) rows)

/-- `send_query_result`. -/
def sendQueryResult (faults : Faults) (result : WireResultSet) (sink : Sink) : Sent × Sink :=
  match queryMeta result with
  -- Nothing has been sent yet, so the failure can be the response.
  | .error diagnostic => sendError faults 0 diagnostic sink
  | .ok payload =>
    andThen (sendFrame faults 0 kTagMeta 0 payload sink) fun sink =>
      andThen (sendRows faults (wireColumns result.columns) 1 result.rows sink) fun sink =>
        sendFrame faults (1 + result.rows.length) kTagResultEnd 0
          (encodeResultEnd result.rows.length) sink

/-! ## Raw text -/

/-- The payloads of META and of the one row of a raw text result. -/
def rawTextPayloads (result : WireResultSet) : Except Bytes (Bytes × Bytes) :=
  match result.columns, result.rows with
  | [column], [[cell]] => do
    let metaPayload ← encodedMeta [{ name := column.name, sqlType := kTypeChar }]
    let rowPayload ← encodedRow [{ sqlType := kTypeChar, strVal := cell.strVal }]
    pure (metaPayload, rowPayload)
  | _, _ => throw (text "raw text result must contain one CHAR cell")

/-- `send_raw_text_result`. -/
def sendRawTextResult (faults : Faults) (result : WireResultSet) (sink : Sink) : Sent × Sink :=
  match rawTextPayloads result with
  | .error diagnostic =>
    sendError faults 0
      (if diagnostic = [] then text "failed to encode raw text result" else diagnostic) sink
  | .ok (metaPayload, rowPayload) =>
    andThen (sendFrame faults 0 kTagMeta kFlagRawText metaPayload sink) fun sink =>
      andThen (sendFrame faults 1 kTagRow 0 rowPayload sink) fun sink =>
        sendFrame faults 2 kTagResultEnd 0 (encodeResultEnd 1) sink

/-- `send_statement_result`. -/
def sendStatementResult (faults : Faults) (result : WireResultSet) (sink : Sink) : Sent × Sink :=
  if result.hasQueryResult ∧ result.rawText then sendRawTextResult faults result sink
  else if result.hasQueryResult then sendQueryResult faults result sink
  else sendFrame faults 0 kTagCommandOk 0 [] sink

end Rucbase.Server
