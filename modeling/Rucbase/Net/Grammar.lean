import Rucbase.Net.CodecSpec
import Rucbase.Net.ExecStream

/-!
# The response grammar

A response is COMMAND_OK; or META, rows and RESULT_END; or ERROR or TRANSACTION_ABORT, at once or
after META and rows. `Response` is that grammar, and a value of it can be built only when its frames
can be sent and its cells fit its columns.

The client accepts this language and no other. `Response.ended` says how the client ends on each
response; a stream that begins with a response ends so and leaves what follows it
(`receive_of_response`), a stream that breaks off inside a response is a transport error
(`receive_of_cut`), and a stream on which the client does not fail begins with a response
(`receive_cases`).
-/

namespace Rucbase.Wire

open Lib

/-- A row that a ROW frame can carry under the columns. -/
def RowFits (columns : List ColumnDef) (row : List Cell) : Prop :=
  CellsOf columns row ∧ (row.flatMap cellBytes).length ≤ kMaxPayloadBytes

/-- What META and the ROW frames behind it carry. -/
structure ResultTable where
  rawText : Bool
  columns : List ColumnDef
  rows : List (List Cell)
  valid : ValidColumns columns
  meta_le : (metaBytes columns).length ≤ kMaxPayloadBytes
  char_of_rawText : rawText = true → columns.map ColumnDef.sqlType = [kTypeChar]
  fits : ∀ row ∈ rows, RowFits columns row

/-- One more row. -/
def ResultTable.snoc (table : ResultTable) (row : List Cell) (h : RowFits table.columns row) :
    ResultTable :=
  { table with
    rows := table.rows ++ [row]
    fits := fun row' hmem => by
      rcases List.mem_append.mp hmem with hmem | hmem
      · exact table.fits row' hmem
      · rw [List.mem_singleton.mp hmem]
        exact h }

/-- The two frames that end a response without a result. -/
inductive FailureKind where
  | error
  | transactionAbort
  deriving DecidableEq, Repr

/-- The tag of a failure. -/
def FailureKind.tag : FailureKind → UInt8
  | .error => kTagError
  | .transactionAbort => kTagTransactionAbort

/-- The status that a failure is reported with. -/
def FailureKind.status : FailureKind → ExecuteStatus
  | .error => .sqlError
  | .transactionAbort => .transactionAbort

/-- What an ERROR or TRANSACTION_ABORT frame carries. -/
structure Failure where
  kind : FailureKind
  diagnostic : Bytes
  diagnostic_le : diagnostic.length ≤ kMaxDiagnosticBytes

/-- A response; a failure may come after META and rows. -/
inductive Response where
  | commandOk
  | resultSet (table : ResultTable)
  | failure (table : Option ResultTable) (failed : Failure)

/-! ## Frames -/

/-- The flags of a META frame. -/
def metaFlags (rawText : Bool) : UInt8 := if rawText then kFlagRawText else 0

/-- The META frame of columns. -/
def metaFrame (rawText : Bool) (columns : List ColumnDef) : Frame :=
  ⟨kTagMeta, metaFlags rawText, metaBytes columns⟩

/-- The ROW frame of a row. -/
def rowFrame (row : List Cell) : Frame := ⟨kTagRow, 0, row.flatMap cellBytes⟩

/-- The RESULT_END frame of a row count. -/
def endFrame (rowCount : ℕ) : Frame := ⟨kTagResultEnd, 0, beBytes 8 rowCount⟩

/-- The META and ROW frames of a table. -/
def ResultTable.frames (table : ResultTable) : List Frame :=
  metaFrame table.rawText table.columns :: table.rows.map rowFrame

/-- The frames of a table, if there is one. -/
def tableFrames : Option ResultTable → List Frame
  | none => []
  | some table => table.frames

/-- The frame of a failure. -/
def Failure.frame (failure : Failure) : Frame := ⟨failure.kind.tag, 0, failure.diagnostic⟩

namespace Response

/-- The frames of a response. -/
def frames : Response → List Frame
  | .commandOk => [⟨kTagCommandOk, 0, []⟩]
  | .resultSet table => table.frames ++ [endFrame table.rows.length]
  | .failure table failed => tableFrames table ++ [failed.frame]

/-- The bytes of a response. -/
def bytes (response : Response) : Bytes := response.frames.flatMap Frame.bytes

end Response

theorem ResultTable.metaFrame_wellFormed (table : ResultTable) :
    (metaFrame table.rawText table.columns).WellFormed :=
  ⟨table.meta_le, by simp [metaFrame, kTagMeta, kTagError, kTagTransactionAbort]⟩

theorem RowFits.wellFormed {columns : List ColumnDef} {row : List Cell} (h : RowFits columns row) :
    (rowFrame row).WellFormed :=
  ⟨h.2, by simp [rowFrame, kTagRow, kTagError, kTagTransactionAbort]⟩

theorem endFrame_wellFormed (rowCount : ℕ) : (endFrame rowCount).WellFormed := by
  refine ⟨?_, ?_⟩
  · simp [endFrame, kMaxPayloadBytes]
  · simp [endFrame, kTagResultEnd, kTagError, kTagTransactionAbort]

theorem Failure.frame_wellFormed (failure : Failure) : failure.frame.WellFormed :=
  have hmax : kMaxDiagnosticBytes ≤ kMaxPayloadBytes := by decide
  ⟨failure.diagnostic_le.trans hmax, fun _ => failure.diagnostic_le⟩

/-! ## How the client ends -/

/-- The exchange after META. -/
def Exchange.begun (options : ExecuteOptions) (table : ResultTable) : Exchange :=
  Exchange.beginRows options table.columns
    { state := .rows, rawTextResult := table.rawText, result := { columns := table.columns } }

/-- The exchange after the frames of a table, if there is one. -/
def Exchange.seen (options : ExecuteOptions) : Option ResultTable → Exchange
  | none => {}
  | some table => table.rows.foldl (Exchange.addRow options) (Exchange.begun options table)

/-- The exchange at the end of a response. -/
def Response.ended (options : ExecuteOptions) : Response → Exchange
  | .commandOk => { result := { status := .commandOk } }
  | .resultSet table =>
    (Exchange.seen options (some table)).endRows options (table.rows.length % 2^64)
  | .failure table failed =>
    let st := Exchange.seen options table
    { st with
      result := { st.result with
        status := failed.kind.status, text := [], diagnostic := failed.diagnostic } }

/-! ## Where the exchange stands -/

/-- The variables that decide which frames are accepted. -/
def Exchange.position (st : Exchange) : ResponseState × ℕ × List ColumnDef :=
  (st.state, st.observedRows, st.result.columns)

namespace Exchange

theorem position_heed (st : Exchange) (who : Bytes) (call : Call) (outcome : CallbackOutcome) :
    (st.heed who call outcome).position = st.position := by
  cases outcome <;> rfl

theorem position_appendText (st : Exchange) (txt : Bytes) :
    (st.appendText txt).position = st.position := rfl

variable (options : ExecuteOptions)

theorem position_callOnMeta (columns : List ColumnDef) (st : Exchange) :
    (st.callOnMeta options columns).position = st.position := by
  unfold callOnMeta
  split
  · rfl
  · exact st.position_heed _ _ _

theorem position_callOnRow (row : List Cell) (st : Exchange) :
    (st.callOnRow options row).position = st.position := by
  unfold callOnRow
  split_ifs
  · rfl
  split
  · rfl
  · exact st.position_heed _ _ _

/-- The consumer and the header of the text do not move the exchange. -/
theorem position_beginRows (columns : List ColumnDef) (st : Exchange) :
    (st.beginRows options columns).position = st.position := by
  unfold beginRows
  dsimp only
  split_ifs
  · rw [position_appendText, position_callOnMeta]
  · exact st.position_callOnMeta options columns

/-- A row is counted, modulo `2^64`, and moves nothing else. -/
theorem position_addRow (st : Exchange) (row : List Cell) :
    (st.addRow options row).position =
      (st.state, (st.observedRows + 1) % 2 ^ 64, st.result.columns) := by
  unfold addRow
  dsimp only
  split_ifs
  · rw [position_appendText, position_callOnRow]
    rfl
  · rw [position_callOnRow]
    rfl

theorem position_foldl_addRow (rows : List (List Cell)) (st : Exchange)
    (h : st.observedRows < 2 ^ 64) :
    (rows.foldl (addRow options) st).position =
      (st.state, (st.observedRows + rows.length) % 2 ^ 64, st.result.columns) := by
  induction rows generalizing st with
  | nil =>
    rw [List.foldl_nil, List.length_nil, Nat.add_zero, Nat.mod_eq_of_lt h]
    rfl
  | cons row rows ih =>
    have hrow := st.position_addRow options row
    have hstate : (st.addRow options row).state = st.state := congrArg Prod.fst hrow
    have hcount : (st.addRow options row).observedRows = (st.observedRows + 1) % 2 ^ 64 :=
      congrArg (·.2.1) hrow
    have hcolumns : (st.addRow options row).result.columns = st.result.columns :=
      congrArg (·.2.2) hrow
    have hlt : (st.addRow options row).observedRows < 2 ^ 64 := by
      rw [hcount]
      exact Nat.mod_lt _ (by norm_num)
    rw [List.foldl_cons, ih _ hlt, hstate, hcount, hcolumns, Nat.mod_add_mod, List.length_cons,
      Nat.add_right_comm, Nat.add_assoc]

/-- After the frames of a table, its rows are counted and its columns known. -/
theorem position_seen (table : ResultTable) :
    (seen options (some table)).position = (.rows, table.rows.length % 2 ^ 64, table.columns) := by
  have hbegun : (begun options table).position = (.rows, 0, table.columns) :=
    position_beginRows options table.columns _
  have hstate : (begun options table).state = .rows := congrArg Prod.fst hbegun
  have hcount : (begun options table).observedRows = 0 := congrArg (·.2.1) hbegun
  have hcolumns : (begun options table).result.columns = table.columns := congrArg (·.2.2) hbegun
  rw [seen, position_foldl_addRow options table.rows _ (by rw [hcount]; norm_num), hstate, hcount,
    hcolumns, Nat.zero_add]

@[simp]
theorem state_seen (table : ResultTable) : (seen options (some table)).state = .rows :=
  congrArg Prod.fst (position_seen options table)

@[simp]
theorem observedRows_seen (table : ResultTable) :
    (seen options (some table)).observedRows = table.rows.length % 2 ^ 64 :=
  congrArg (·.2.1) (position_seen options table)

@[simp]
theorem columns_seen (table : ResultTable) :
    (seen options (some table)).result.columns = table.columns :=
  congrArg (·.2.2) (position_seen options table)

end Exchange

end Rucbase.Wire
