import Rucbase.Net.RoundTrip
import Rucbase.Server.SendSpec

/-!
# Responses that the server does not finish

`send_query_result` (`src/server/server.cpp`) checks the shape of a result before META, so that
nothing incomplete is written, but not the sizes of its rows. A row whose encoding is longer than a
frame is found only when META has been sent, and the function returns without RESULT_END. With a
socket that takes everything this is the only way to leave a response unfinished
(`sendStatementResult_finishes_iff`): the builder accepts rows of up to 16 MiB.
-/

namespace Rucbase.Server

open Lib Wire

/-! ## Sending on a socket that takes everything -/

section Progress

variable {sink : Sink}

theorem wellFormed_of_le {tag flags : UInt8} {payload : Bytes}
    (htag : ¬(tag = kTagError ∨ tag = kTagTransactionAbort))
    (hle : payload.length ≤ kMaxPayloadBytes) : (Frame.mk tag flags payload).WellFormed :=
  ⟨hle, fun h => absurd h htag⟩

variable {n : ℕ}

/-- A well-formed frame is sent when the calls make progress. -/
theorem sendFrame_of_progress {frame : Frame} (hwf : frame.WellFormed)
    (h : ∀ event ∈ sink.schedule, event.Progress) :
    ∃ sink' : Sink,
      sendFrame (fun _ => none) n frame.tag frame.flags frame.payload sink =
        (.returned true, sink') ∧
      ∀ event ∈ sink'.schedule, event.Progress := by
  obtain ⟨sink', hwrite, -, hrest⟩ := writeFrame_of_progress hwf h
  refine ⟨sink', ?_, hrest⟩
  unfold sendFrame
  rw [hwrite]

theorem sendError_of_progress (n : ℕ) (diagnostic : Bytes)
    (h : ∀ event ∈ sink.schedule, event.Progress) :
    ∃ sink' : Sink, sendError (fun _ => none) n diagnostic sink = (.returned true, sink') := by
  obtain ⟨sink', hsend, -⟩ := sendFrame_of_progress (errorFailure diagnostic).frame_wellFormed h
  exact ⟨sink', hsend⟩

/-- The loop over the rows goes to its end if each row can be encoded. It stops, and returns false,
at a row that cannot. -/
theorem sendRows_of_progress {columns : List ColumnDef} (rows : List (List WireResultCell))
    (h : ∀ event ∈ sink.schedule, event.Progress) :
    ∃ (sent : Bool) (sink' : Sink),
      sendRows (fun _ => none) columns n rows sink = (.returned sent, sink') ∧
      (sent = true ↔ ∀ row ∈ rows, ∃ payload, encodedRow (rowCells columns row) = .ok payload) ∧
      (sent = true → ∀ event ∈ sink'.schedule, event.Progress) := by
  induction rows generalizing n sink with
  | nil => exact ⟨true, sink, rfl, by simp, fun _ => h⟩
  | cons row rows ih =>
    unfold sendRows
    cases hencode : encodedRow (rowCells columns row) with
    | error diagnostic => exact ⟨false, sink, rfl, by simp [hencode], by simp⟩
    | ok payload =>
      obtain ⟨-, -, -, hle⟩ := encodedRow_eq_ok.mp hencode
      have hwf : (Frame.mk kTagRow 0 payload).WellFormed := wellFormed_of_le (by decide) hle
      obtain ⟨sink₁, hsend, hprogress⟩ := sendFrame_of_progress (n := n) hwf h
      obtain ⟨sent, sink', hsends, hsent, hprogress'⟩ := ih (n := n + 1) hprogress
      refine ⟨sent, sink', ?_, by simpa [hencode] using hsent, hprogress'⟩
      dsimp only
      rw [hsend]
      exact hsends

end Progress

/-! ## Rows that are too long -/

/-- A row whose encoding is longer than a frame. -/
def TooLong (columns : List WireResultColumn) (row : List WireResultCell) : Prop :=
  kMaxPayloadBytes < rowEncodedSize (rowCells (wireColumns columns) row)

/-- A result set that passes the checks before META, and has a row that is too long. -/
def Unfinishable (result : WireResultSet) : Prop :=
  result.hasQueryResult = true ∧ result.rawText = false ∧
    (∃ payload, queryMeta result = .ok payload) ∧ ∃ row ∈ result.rows, TooLong result.columns row

theorem known_rowCells (columns : List WireResultColumn) (row : List WireResultCell) :
    ∀ cell ∈ rowCells (wireColumns columns) row, isKnownSqlType cell.sqlType = true := by
  induction columns generalizing row with
  | nil => simp [wireColumns, rowCells]
  | cons column columns ih =>
    cases row with
    | nil => simp [wireColumns, rowCells]
    | cons cell row =>
      refine List.forall_mem_cons.mpr ⟨?_, ih row⟩
      show isKnownSqlType (colTypeToWire column.type) = true
      cases column.type <;> rfl

variable {result : WireResultSet} {sink : Sink} {txt : Bytes}

/-- Of a result that passes the checks before META, a row can be encoded unless it is too long. -/
theorem encodable_iff {payload : Bytes} (hmeta : queryMeta result = .ok payload)
    {row : List WireResultCell} (hrow : row ∈ result.rows) :
    (∃ bytes, encodedRow (rowCells (wireColumns result.columns) row) = .ok bytes) ↔
      ¬TooLong result.columns row := by
  obtain ⟨_, hrows, hencode⟩ := bind_eq_ok.mp hmeta
  obtain ⟨hlen, -⟩ := checkRow_eq_ok (forM_eq_ok.mp hrows row hrow)
  obtain ⟨hvalid, -, -⟩ := encodedMeta_eq_ok.mp hencode
  -- The row has as many cells as there are columns, hence at least one.
  have hne : rowCells (wireColumns result.columns) row ≠ [] := by
    have hpos := List.length_pos_iff.mpr hvalid.ne
    rw [wireColumns, List.length_map] at hpos
    apply List.ne_nil_of_length_pos
    rw [rowCells, List.length_zipWith, wireColumns, List.length_map]
    omega
  have hknown := known_rowCells result.columns row
  rw [TooLong, not_lt, ← length_flatMap_cellBytes hknown]
  constructor
  · rintro ⟨bytes, h⟩
    obtain ⟨-, -, rfl, hle⟩ := encodedRow_eq_ok.mp h
    exact hle
  · intro hle
    exact ⟨_, encodedRow_eq_ok.mpr ⟨hne, hknown, rfl, hle⟩⟩

/-- On a socket that takes everything, a query result is sent to its end unless a row of it is too
long. -/
theorem sendQueryResult_of_progress (hquery : result.hasQueryResult = true)
    (hraw : result.rawText = false) (h : ∀ event ∈ sink.schedule, event.Progress) :
    (∃ sink', sendQueryResult (fun _ => none) result sink = (.returned true, sink')) ↔
      ¬Unfinishable result := by
  unfold sendQueryResult
  cases hmeta : queryMeta result with
  | error diagnostic =>
    have hfine : ¬Unfinishable result := by
      rintro ⟨-, -, ⟨payload, hok⟩, -⟩
      rw [hmeta] at hok
      simp at hok
    exact iff_of_true (sendError_of_progress 0 diagnostic h) hfine
  | ok payload =>
    obtain ⟨_, -, hencode⟩ := bind_eq_ok.mp hmeta
    obtain ⟨-, -, hle⟩ := encodedMeta_eq_ok.mp hencode
    have hwf : (Frame.mk kTagMeta 0 payload).WellFormed :=
      wellFormed_of_le (by decide) hle
    obtain ⟨sink₁, hsend, hprogress⟩ := sendFrame_of_progress (n := 0) hwf h
    have hstuck : Unfinishable result ↔
        ¬∀ row ∈ result.rows, ∃ payload,
          encodedRow (rowCells (wireColumns result.columns) row) = .ok payload := by
      rw [Unfinishable, not_forall₂]
      constructor
      · rintro ⟨-, -, -, row, hrow, hlong⟩
        exact ⟨row, hrow, fun hok => (encodable_iff hmeta hrow).mp hok hlong⟩
      · rintro ⟨row, hrow, hnot⟩
        refine ⟨hquery, hraw, ⟨payload, hmeta⟩, row, hrow, ?_⟩
        by_contra hshort
        exact hnot ((encodable_iff hmeta hrow).mpr hshort)
    obtain ⟨sent, sink₂, hrows, hsent, hprogress₂⟩ :=
      sendRows_of_progress (n := 1) result.rows hprogress
    rw [hstuck, not_not, ← hsent]
    dsimp only
    rw [hsend, andThen, hrows]
    cases sent with
    | false => simp [andThen]
    | true =>
      obtain ⟨sink₃, hend, -⟩ := sendFrame_of_progress (n := 1 + result.rows.length)
        (endFrame_wellFormed result.rows.length) (hprogress₂ rfl)
      refine iff_of_true ⟨sink₃, ?_⟩ rfl
      rw [andThen, encodeResultEnd_eq]
      exact hend

/-- A raw text result is sent to its end: its row is encoded before META is sent. -/
theorem sendRawTextResult_of_progress (result : WireResultSet)
    (h : ∀ event ∈ sink.schedule, event.Progress) :
    ∃ sink', sendRawTextResult (fun _ => none) result sink = (.returned true, sink') := by
  unfold sendRawTextResult
  cases hpayloads : rawTextPayloads result with
  | error diagnostic => exact sendError_of_progress 0 _ h
  | ok payloads =>
    obtain ⟨metaPayload, rowPayload⟩ := payloads
    obtain ⟨column, cell, -, -, hmeta, hrow⟩ := rawTextPayloads_eq_ok hpayloads
    obtain ⟨-, -, hmetaLe⟩ := encodedMeta_eq_ok.mp hmeta
    obtain ⟨-, -, -, hrowLe⟩ := encodedRow_eq_ok.mp hrow
    have hmetaWf : (Frame.mk kTagMeta kFlagRawText metaPayload).WellFormed :=
      wellFormed_of_le (by decide) hmetaLe
    have hrowWf : (Frame.mk kTagRow 0 rowPayload).WellFormed :=
      wellFormed_of_le (by decide) hrowLe
    obtain ⟨sink₁, hsend₁, hprogress₁⟩ := sendFrame_of_progress (n := 0) hmetaWf h
    obtain ⟨sink₂, hsend₂, hprogress₂⟩ := sendFrame_of_progress (n := 1) hrowWf hprogress₁
    obtain ⟨sink₃, hsend₃, -⟩ :=
      sendFrame_of_progress (n := 2) (endFrame_wellFormed 1) hprogress₂
    refine ⟨sink₃, ?_⟩
    dsimp only
    rw [hsend₁, andThen, hsend₂, andThen, encodeResultEnd_eq]
    exact hsend₃

/-! ## Whole responses -/

/-- A cell and what is sent of it: a raw text is sent as CHAR, whatever its type. -/
def SentAs (rawText : Bool) (cell : WireResultCell) (sent : Cell) : Prop :=
  if rawText then sent = { sqlType := kTypeChar, strVal := cell.strVal } else SameCell cell sent

/-- The responses that finish a result: COMMAND_OK, a table with all of its rows, or one ERROR
frame. -/
def Finishes (result : WireResultSet) : Response → Prop
  | .commandOk => result.hasQueryResult = false
  | .failure none failed => result.hasQueryResult = true ∧ failed.kind = .error
  | .failure (some _) _ => False
  | .resultSet table =>
    result.hasQueryResult = true ∧ table.rawText = result.rawText ∧
      table.columns.map ColumnDef.name = result.columns.map WireResultColumn.name ∧
      List.Forall₂ (List.Forall₂ (SentAs result.rawText)) result.rows table.rows

theorem finishes_of_answers (hraw : result.rawText = false) {response : Response}
    (h : Answers result response) : Finishes result response := by
  match response, h with
  | .commandOk, h => exact h
  | .failure none failed, ⟨hquery, _, _, hfailed⟩ => exact ⟨hquery, by rw [hfailed]; rfl⟩
  | .resultSet table, ⟨hquery, _, htext, hcolumns, hrows⟩ =>
    refine ⟨hquery, htext, ?_, ?_⟩
    · rw [hcolumns, wireColumns, List.map_map]
      rfl
    · rw [hraw]
      exact hrows

/-- Whatever `send_statement_result` is given, it has sent a whole response when it returns true. -/
theorem sendStatementResult_finished {sink' : Sink} {faults : Faults}
    (h : sendStatementResult faults result sink = (.returned true, sink')) :
    ∃ response, Finishes result response ∧ sink'.written = sink.written ++ response.bytes := by
  unfold sendStatementResult at h
  split_ifs at h with hraw hquery
  · have hspec : SendSpec sink.written (Finishes result)
        (sendRawTextResult faults result sink) := by
      refine sendRawTextResult_spec faults rfl (fun diagnostic _ => ⟨hraw.1, rfl⟩) ?_
      intro table column cell hcolumns hrows htext htcols htrows _
      refine ⟨hraw.1, htext.trans hraw.2.symm, by rw [htcols, hcolumns]; rfl, ?_⟩
      rw [htrows, hrows, hraw.2]
      exact .cons (.cons rfl .nil) .nil
    rw [h] at hspec
    exact hspec
  · have hfalse : result.rawText = false := by simpa [hquery] using hraw
    have hspec : SendSpec sink.written (Answers result) (sendQueryResult faults result sink) :=
      sendQueryResult_spec faults hquery hfalse rfl
    rw [h] at hspec
    obtain ⟨response, hanswers, hwritten⟩ := hspec
    exact ⟨response, finishes_of_answers hfalse hanswers, hwritten⟩
  · have hnone : result.hasQueryResult = false := by simpa using hquery
    have hspec : SendSpec sink.written (Finishes result)
        (sendFrame faults 0 kTagCommandOk 0 [] sink) :=
      sendSpec_last none .commandOk ⟨kTagCommandOk, 0, []⟩ rfl hnone
        (by simp)
    rw [h] at hspec
    exact hspec

/-- On a socket that takes everything, `send_statement_result` returns true with one whole response
written, unless a result set passes the checks before META with a row that is too long. -/
theorem sendStatementResult_finishes_iff (result : WireResultSet) (sink : Sink)
    (hprogress : ∀ event ∈ sink.schedule, event.Progress) :
    (∃ (sink' : Sink) (response : Response),
      sendStatementResult (fun _ => none) result sink = (.returned true, sink') ∧
        sink'.written = sink.written ++ response.bytes ∧ Finishes result response) ↔
      ¬Unfinishable result := by
  have hreturns : (∃ sink', sendStatementResult (fun _ => none) result sink =
      (.returned true, sink')) ↔ ¬Unfinishable result := by
    unfold sendStatementResult
    split_ifs with hraw hquery
    · refine iff_of_true (sendRawTextResult_of_progress result hprogress) ?_
      rintro ⟨-, hfalse, -⟩
      simp [hraw.2] at hfalse
    · exact sendQueryResult_of_progress hquery (by simpa [hquery] using hraw) hprogress
    · have hwf : (Frame.mk kTagCommandOk 0 []).WellFormed := by decide
      obtain ⟨sink', hsend, -⟩ := sendFrame_of_progress (n := 0) hwf hprogress
      exact iff_of_true ⟨sink', hsend⟩ fun hstuck => hquery hstuck.1
  rw [← hreturns]
  constructor
  · rintro ⟨sink', -, hsend, -⟩
    exact ⟨sink', hsend⟩
  · rintro ⟨sink', hsend⟩
    obtain ⟨response, hfinishes, hwritten⟩ := sendStatementResult_finished hsend
    exact ⟨sink', response, hsend, hwritten, hfinishes⟩

/-- A result of one CHAR column and one row. -/
def charOps (txt : Bytes) : List QueryResultBuilder.Op :=
  [.setColumns [⟨text "a", .string⟩], .addRow [{ strVal := txt }]]

/-- A short text is sent whole. -/
theorem sendStatementResult_finishes_char :
    ∃ (sink' : Sink) (response : Response),
      sendStatementResult (fun _ => none) (QueryResultBuilder.build (charOps (text "x")))
        ⟨[], [], []⟩ = (.returned true, sink') ∧
      sink'.written = [] ++ response.bytes ∧
      Finishes (QueryResultBuilder.build (charOps (text "x"))) response := by
  refine (sendStatementResult_finishes_iff _ ⟨[], [], []⟩ (by simp)).mpr ?_
  rintro ⟨-, -, -, row, hrow, hlong⟩
  obtain rfl : row = [{ strVal := text "x" }] := List.mem_singleton.mp hrow
  unfold TooLong at hlong
  exact absurd hlong (by decide)

/-- The builder takes a text of 1 MiB. -/
theorem build_charOps (hlen : txt.length = 1024 * 1024) :
    QueryResultBuilder.build (charOps txt) =
      { hasQueryResult := true, bufferedBytes := 137 + txt.length,
        columns := [⟨text "a", .string⟩], rows := [[{ strVal := txt }]] } := by
  show (QueryResultBuilder.addRow
    { hasQueryResult := true, bufferedBytes := 41, columns := [⟨text "a", .string⟩] }
    [{ strVal := txt }]).1 = _
  have hbytes : 2 * QueryResultBuilder.sizeofRow + 1 * QueryResultBuilder.sizeofCell +
      (txt.length + 0) = 96 + txt.length := by
    unfold QueryResultBuilder.sizeofRow QueryResultBuilder.sizeofCell
    omega
  have hfits : ¬(WireResultSet.kMaxBufferedBytes < 41 ∨
      WireResultSet.kMaxBufferedBytes - 41 < 96 + txt.length) := by
    unfold WireResultSet.kMaxBufferedBytes
    omega
  simp only [QueryResultBuilder.addRow, WireResultSet.tryAccount, List.length_singleton,
    List.map_cons, List.map_nil, List.sum_cons, List.sum_nil, hbytes, if_neg hfits,
    List.nil_append]
  rw [← Nat.add_assoc]

/-- A text of 1 MiB does not fit into a frame together with its presence byte and its length. -/
theorem encodedRow_long (hlen : txt.length = 1024 * 1024) :
    ∃ diagnostic, encodedRow [{ sqlType := kTypeChar, strVal := txt }] = .error diagnostic := by
  cases hencode : encodedRow [{ sqlType := kTypeChar, strVal := txt }] with
  | error diagnostic => exact ⟨diagnostic, rfl⟩
  | ok payload =>
    obtain ⟨-, hknown, rfl, hle⟩ := encodedRow_eq_ok.mp hencode
    have hsize : rowEncodedSize [{ sqlType := kTypeChar, strVal := txt }] =
        1 + (4 + txt.length) + 0 := rfl
    rw [length_flatMap_cellBytes hknown, hsize, hlen] at hle
    exact absurd hle (by decide)

/-- The loop stops at such a text. -/
theorem sendRows_long (hlen : txt.length = 1024 * 1024) (sink : Sink) :
    sendRows (fun _ => none) (wireColumns [⟨text "a", .string⟩]) 1 [[{ strVal := txt }]] sink =
      (.returned false, sink) := by
  obtain ⟨diagnostic, hencode⟩ := encodedRow_long hlen
  unfold sendRows
  have hcells : rowCells (wireColumns [⟨text "a", .string⟩]) [{ strVal := txt }] =
      [{ sqlType := kTypeChar, strVal := txt }] := rfl
  rw [hcells, hencode]

theorem sendStatementResult_charOps (hlen : txt.length = 1024 * 1024) :
    sendStatementResult (fun _ => none) (QueryResultBuilder.build (charOps txt)) ⟨[], [], []⟩ =
      (.returned false,
        ⟨[], (metaFrame false [{ name := text "a", sqlType := kTypeChar }]).bytes, []⟩) := by
  have hmeta : queryMeta (QueryResultBuilder.build (charOps txt)) =
      .ok (metaBytes [{ name := text "a", sqlType := kTypeChar }]) := by
    rw [build_charOps hlen]
    rfl
  unfold sendStatementResult sendQueryResult
  rw [hmeta, build_charOps hlen]
  simp only [sendRows_long hlen]
  rfl

/-- The builder takes a text of 1 MiB, and the server sends META for it and nothing else. -/
theorem sendStatementResult_unfinished :
    ∃ txt : Bytes,
      sendStatementResult (fun _ => none) (QueryResultBuilder.build (charOps txt)) ⟨[], [], []⟩ =
        (.returned false,
          ⟨[], (metaFrame false [{ name := text "a", sqlType := kTypeChar }]).bytes, []⟩) :=
  ⟨List.replicate (1024 * 1024) 0x78, sendStatementResult_charOps List.length_replicate⟩

end Rucbase.Server
