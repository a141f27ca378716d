import Rucbase.Net.Text

/-!
# The client's side of a request

`ExecStreamResult` of `src/net/wire.cpp`: send a request, and read frames until one of them ends the
response. The loop is a state machine over frames; its variables are an `Exchange`, one frame is a
`step`, and `receive` is the loop over what `recv` returns.

The callbacks of the caller are functions of what they have been shown so far, so that a callback
may keep a state of its own. The calls that were made are recorded.
-/

namespace Rucbase.Wire

open Lib

/-- `ExecuteStatus`. -/
inductive ExecuteStatus where
  | commandOk
  | resultSet
  | sqlError
  | transactionAbort
  | invalidRequest
  | transportError
  | protocolError
  | consumerStopped
  deriving DecidableEq, Repr

/-- How a call of a callback ends: it returns true, returns false, throws a `std::exception` or
throws anything else. -/
inductive CallbackOutcome where
  | proceed
  | stop
  | throwsStd (what : Bytes)
  | throwsOther
  deriving DecidableEq, Repr

/-- A call of a callback. -/
inductive Call where
  | onMeta (columns : List ColumnDef)
  | onRow (row : List Cell)
  deriving DecidableEq, Repr

/-- `ExecuteOptions`. The first argument of `onRow` is the calls made before. -/
structure ExecuteOptions where
  formatText : Bool := true
  onMeta : Option (List ColumnDef → CallbackOutcome) := none
  onRow : Option (List Call → List Cell → CallbackOutcome) := none

/-- `ExecuteResult`. -/
structure ExecuteResult where
  status : ExecuteStatus := .invalidRequest
  columns : List ColumnDef := []
  rowCount : ℕ := 0
  text : Bytes := []
  diagnostic : Bytes := []
  deriving DecidableEq, Repr

namespace ExecuteResult

/-- `ok`. -/
def ok (result : ExecuteResult) : Bool :=
  result.status == .commandOk || result.status == .resultSet

/-- `connection_reusable`. -/
def connectionReusable (result : ExecuteResult) : Bool :=
  result.status == .commandOk || result.status == .resultSet ||
    result.status == .sqlError || result.status == .transactionAbort ||
    result.status == .invalidRequest || result.status == .consumerStopped

end ExecuteResult

/-- `ResponseState`. -/
inductive ResponseState where
  | awaitFirst
  | rows
  deriving DecidableEq, Repr

/-- The variables of the receiving loop, and the calls made. -/
structure Exchange where
  state : ResponseState := .awaitFirst
  observedRows : ℕ := 0
  consumerStopped : Bool := false
  consumerDiagnostic : Bytes := []
  rawTextResult : Bool := false
  result : ExecuteResult := {}
  calls : List Call := []
  deriving DecidableEq, Repr

/-- A frame ends the loop, or it goes on. -/
inductive Step where
  | finish (exchange : Exchange)
  | next (exchange : Exchange)
  deriving DecidableEq, Repr

namespace Exchange

/-- End with a status and a diagnostic. -/
def ended (st : Exchange) (status : ExecuteStatus) (diagnostic : Bytes) : Exchange :=
  { st with result := { st.result with status := status, diagnostic := diagnostic } }

/-- End with a protocol error. -/
def protocolError (st : Exchange) (diagnostic : Bytes) : Step :=
  .finish (st.ended .protocolError diagnostic)

/-- Append to the text of the result. -/
def appendText (st : Exchange) (txt : Bytes) : Exchange :=
  { st with result := { st.result with text := st.result.text ++ txt } }

/-- Note a call of the `who` consumer, and whether it stops the consumer. -/
def heed (st : Exchange) (who : Bytes) (call : Call) (outcome : CallbackOutcome) : Exchange :=
  let st := { st with calls := st.calls ++ [call] }
  match outcome with
  | .proceed => st
  | .stop =>
    { st with
      consumerStopped := true
      consumerDiagnostic := who ++ Lib.text " consumer requested stop" }
  | .throwsStd what =>
    { st with
      consumerStopped := true
      consumerDiagnostic := who ++ Lib.text " consumer failed: " ++ what }
  | .throwsOther =>
    { st with
      consumerStopped := true
      consumerDiagnostic := who ++ Lib.text " consumer failed" }

/-! ## The frames -/

/-- A COMMAND_OK frame. -/
def onCommandOkFrame (st : Exchange) (frame : Frame) : Step :=
  if frame.flags ≠ 0 ∨ st.state ≠ .awaitFirst ∨ frame.payload ≠ [] then
    st.protocolError (text "invalid COMMAND_OK")
  else .finish { st with result := { st.result with status := .commandOk } }

/-- An ERROR or TRANSACTION_ABORT frame. -/
def onFailureFrame (st : Exchange) (frame : Frame) : Step :=
  if frame.flags ≠ 0 then st.protocolError (text "invalid error response flags")
  else
    let status := if frame.tag = kTagError then ExecuteStatus.sqlError else .transactionAbort
    .finish { st with
      -- The text of the rows before the failure is thrown away.
      result := { st.result with status := status, text := [], diagnostic := frame.payload } }

/-- The call of `on_meta`. -/
def callOnMeta (options : ExecuteOptions) (columns : List ColumnDef) (st : Exchange) : Exchange :=
  match options.onMeta with
  | none => st
  | some onMeta => st.heed (text "metadata") (.onMeta columns) (onMeta columns)

/-- The columns of a META frame are known: call the consumer and begin the text. -/
def beginRows (options : ExecuteOptions) (columns : List ColumnDef) (st : Exchange) : Exchange :=
  let st := st.callOnMeta options columns
  if options.formatText ∧ st.consumerStopped = false ∧ st.rawTextResult = false then
    st.appendText (tableHeader columns)
  else st

/-- A META frame. -/
def onMetaFrame (options : ExecuteOptions) (st : Exchange) (frame : Frame) : Step :=
  if frame.flags &&& ~~~kFlagRawText ≠ 0 then st.protocolError (text "invalid META flags")
  else if st.state ≠ .awaitFirst then st.protocolError (text "duplicate META")
  else match decodeMeta frame.payload with
    | .error (diagnostic, columns) =>
      -- The columns decoded before the error stay in the result.
      { st with result := { st.result with columns := columns } }.protocolError diagnostic
    | .ok columns =>
      let rawText := frame.flags &&& kFlagRawText != 0
      let st := { st with
        state := .rows, rawTextResult := rawText
        result := { st.result with columns := columns } }
      -- that is, there is one column and its type is CHAR
      if rawText ∧ columns.map ColumnDef.sqlType ≠ [kTypeChar] then
        st.protocolError (text "raw text META must contain one CHAR column")
      else .next (st.beginRows options columns)

/-- The call of `on_row`, unless the consumer has stopped. -/
def callOnRow (options : ExecuteOptions) (row : List Cell) (st : Exchange) : Exchange :=
  if st.consumerStopped then st
  else match options.onRow with
    | none => st
    | some onRow => st.heed (text "row") (.onRow row) (onRow st.calls row)

/-- The text of a row: the string of its one cell, or a line of the table. -/
def rowText (rawText : Bool) (row : List Cell) : Bytes :=
  if rawText then
    match row with
    | [] => []
    | cell :: _ => if cell.isNull then [] else cell.strVal
  else tableRow row

/-- The cells of a ROW frame are known: count the row, call the consumer and go on with the text. -/
def addRow (options : ExecuteOptions) (st : Exchange) (row : List Cell) : Exchange :=
  -- The row counts even if the consumer has stopped.
  let st := { st with observedRows := (st.observedRows + 1) % 2^64 }
  let st := st.callOnRow options row
  if options.formatText ∧ st.consumerStopped = false then
    st.appendText (rowText st.rawTextResult row)
  else st

/-- A ROW frame. -/
def onRowFrame (options : ExecuteOptions) (st : Exchange) (frame : Frame) : Step :=
  if frame.flags ≠ 0 ∨ st.state ≠ .rows ∨ st.result.columns = [] then
    st.protocolError (text "ROW before META")
  else match decodeRow st.result.columns frame.payload with
    | .error diagnostic => st.protocolError diagnostic
    | .ok row => .next (st.addRow options row)

/-- The declared number of rows is right: end the text, and the exchange. -/
def endRows (options : ExecuteOptions) (st : Exchange) (declaredRows : ℕ) : Exchange :=
  let st := { st with result := { st.result with rowCount := declaredRows } }
  let st :=
    if options.formatText ∧ st.consumerStopped = false ∧ st.rawTextResult = false then
      st.appendText (separator st.result.columns.length ++
        text "Total record(s): " ++ text (toString declaredRows) ++ text "\n")
    else st
  -- A consumer that stopped is reported only now: the response has been read to its end.
  if st.consumerStopped then st.ended .consumerStopped st.consumerDiagnostic
  else { st with result := { st.result with status := .resultSet } }

/-- A RESULT_END frame. -/
def onResultEndFrame (options : ExecuteOptions) (st : Exchange) (frame : Frame) : Step :=
  if frame.flags ≠ 0 ∨ st.state ≠ .rows then st.protocolError (text "RESULT_END before META")
  else match decodeResultEnd frame.payload with
    | none => st.protocolError (text "invalid RESULT_END")
    | some declaredRows =>
      if declaredRows ≠ st.observedRows then
        st.protocolError (text "RESULT_END row count mismatch")
      else .finish (st.endRows options declaredRows)

/-- The body of the loop, for a frame that was read. -/
def step (options : ExecuteOptions) (st : Exchange) (frame : Frame) : Step :=
  if frame.tag = kTagCommandOk then st.onCommandOkFrame frame
  -- A failure may come at any place of a response.
  else if frame.tag = kTagError ∨ frame.tag = kTagTransactionAbort then st.onFailureFrame frame
  else if frame.tag = kTagMeta then st.onMetaFrame options frame
  else if frame.tag = kTagRow then st.onRowFrame options frame
  else if frame.tag = kTagResultEnd then st.onResultEndFrame options frame
  else st.protocolError (text "unknown response tag")

end Exchange

/-! ## The loop -/

/-- The receiving loop of `ExecStreamResult`, and what it leaves to read. -/
def receive (options : ExecuteOptions) (st : Exchange) (events : List RecvEvent) :
    Exchange × List RecvEvent :=
  match _h : readFrameInternal events with
  | (.transportError diagnostic, events) => (st.ended .transportError diagnostic, events)
  | (.protocolError diagnostic, events) => (st.ended .protocolError diagnostic, events)
  | (.ok frame, events') =>
    match st.step options frame with
    | .finish st => (st, events')
    | .next st => receive options st events'
  termination_by (available events).length
  decreasing_by exact available_lt_of_readFrameInternal _h

/-- The sending part of `ExecStreamResult`: a request is refused, or fails, or is sent. -/
def sendRequest (isOpen : Bool) (sql : Bytes) (sink : Sink) : Except ExecuteResult Unit × Sink :=
  if isOpen = false then
    (.error { status := .transportError, diagnostic := text "connection is not open" }, sink)
  else if sql = [] ∨ kMaxPayloadBytes < sql.length then
    (.error { status := .invalidRequest, diagnostic := text "invalid SQL payload size" }, sink)
  else
    match writeFrame kTagExecStream 0 sql sink with
    | (false, sink) =>
      (.error
        { status := .transportError
          diagnostic := text "failed to send EXEC_STREAM: " ++ sink.errno }, sink)
    | (true, sink) => (.ok (), sink)

/-- `ExecStreamResult`: how the exchange ended, and what is left of the two sides of the socket. -/
def execStreamResult (isOpen : Bool) (sql : Bytes) (options : ExecuteOptions) (sink : Sink)
    (events : List RecvEvent) : Exchange × Sink × List RecvEvent :=
  match sendRequest isOpen sql sink with
  | (.error result, sink) => ({ result := result }, sink, events)
  | (.ok _, sink) =>
    let (ended, events) := receive options {} events
    (ended, sink, events)

end Rucbase.Wire
