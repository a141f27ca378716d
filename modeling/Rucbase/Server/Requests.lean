import Rucbase.Server.SendSpec
import Rucbase.Server.Session

/-!
# The response to a request

Which responses the server may give to a request (`Serves`), and that it writes one of them: all of
it if the connection goes on, and a part of it if it ends the connection (`handleRequest_spec`). On
the other side, a request is sent as a whole frame, or the call reports why not
(`sendRequest_eq_ok`, `sendRequest_eq_error`).
-/

namespace Rucbase.Server

open Lib Wire

/-! ## One request -/

/-- The failure that a transaction abort is answered with. -/
def abortFailure : Failure := ⟨.transactionAbort, text "abort", by decide⟩

/-- The responses to the outcomes of a statement. An exception of the sending code comes after the
frames that were already written. -/
def Replies (outcome : Outcome) (response : Response) : Prop :=
  match outcome with
  | .parseError diagnostic =>
    response = .failure none (errorFailure diagnostic) ∨
      ∃ what, response = .failure none (errorFailure (internalError what))
  | .threw .transactionAbort => response = .failure none abortFailure
  | .threw (.rmdbError what) => response = .failure none (errorFailure what)
  | .threw (.stdException what) => response = .failure none (errorFailure (internalError what))
  | .threw .other => False
  | .result ops =>
    Answers (QueryResultBuilder.build ops) response ∨
      ∃ pos what, response = .failure pos (errorFailure (internalError what))

/-- The responses to a request. -/
def Serves (request : Frame) (outcome : Outcome) (response : Response) : Prop :=
  if request.flags ≠ 0 ∨ request.tag ≠ kTagExecStream then
    response = .failure none
      (errorFailure (text "unsupported request (only EXEC_STREAM is implemented)"))
  else if request.payload = [] then response = .failure none (errorFailure (text "empty SQL"))
  else Replies outcome response

section Request

variable {base : Bytes} {accept : Response → Prop} {sink : Sink}

/-- What a function that returns whether the connection goes on leaves behind `base`. -/
def ReplySpec (base : Bytes) (accept : Response → Prop) (out : Bool × Sink) : Prop :=
  SendSpec base accept (.returned out.1, out.2)

theorem writeFrame_spec (pos : Option ResultTable) (response : Response) (frame : Frame)
    (hframes : response.frames = tableFrames pos ++ [frame]) (haccept : accept response)
    (hsink : sink.written = base ++ tableBytes pos) :
    ReplySpec base accept (writeFrame frame.tag frame.flags frame.payload sink) := by
  have hsend : SendSpec base accept
      (sendFrame (fun _ => none) 0 frame.tag frame.flags frame.payload sink) :=
    sendSpec_last pos response frame hframes haccept hsink
  exact hsend

theorem writeError_spec (pos : Option ResultTable) (diagnostic : Bytes)
    (haccept : accept (.failure pos (errorFailure diagnostic)))
    (hsink : sink.written = base ++ tableBytes pos) :
    ReplySpec base accept (writeError diagnostic sink) :=
  writeFrame_spec pos (.failure pos (errorFailure diagnostic)) (errorFailure diagnostic).frame rfl
    haccept hsink

theorem handle_spec (pos : Option ResultTable) (thrown : Thrown)
    (habort : thrown = .transactionAbort → accept (.failure pos abortFailure))
    (hrmdb : ∀ what, thrown = .rmdbError what → accept (.failure pos (errorFailure what)))
    (hstd : ∀ what, thrown = .stdException what →
      accept (.failure pos (errorFailure (internalError what))))
    (hsink : sink.written = base ++ tableBytes pos) :
    ReplySpec base accept (handle thrown sink) := by
  have hframes : (Response.failure pos abortFailure).frames =
      tableFrames pos ++ [abortFailure.frame] := rfl
  cases thrown with
  | transactionAbort =>
    exact writeFrame_spec pos (.failure pos abortFailure) abortFailure.frame hframes (habort rfl)
      hsink
  | rmdbError what => exact writeError_spec pos what (hrmdb what rfl) hsink
  | stdException what => exact writeError_spec pos (internalError what) (hstd what rfl) hsink
  | other =>
    -- Nothing is written: what was written before is a strict part of a failure.
    refine ⟨.failure pos abortFailure, tableBytes pos, hsink, ?_, ?_⟩
    · rw [Response.bytes, hframes, List.flatMap_append]
      exact List.prefix_append _ _
    · intro heq
      rw [Response.bytes, hframes, List.flatMap_append, List.flatMap_singleton] at heq
      exact abortFailure.frame.bytes_ne_nil (List.self_eq_append_right.mp heq)

/-- What the sending code leaves behind is handled as `execute_sql` handles it. -/
theorem ReplySpec.of_sendSpec {out : Sent × Sink} (h : SendSpec base accept out)
    (hstd : ∀ pos what, accept (.failure pos (errorFailure (internalError what)))) :
    ReplySpec base accept
      (match (out.1.toExcept, out.2) with
        | (.ok ok, sink) => (ok, sink)
        | (.error thrown, sink) => handle thrown sink) := by
  match out with
  | (.returned ok, sink) => exact h
  | (.threw what, sink) =>
    obtain ⟨pos, hsink⟩ := h
    refine handle_spec pos (.stdException what) (by simp) (by simp) ?_ hsink
    exact fun what' _ => hstd pos what'

theorem SendSpec.mono {accept' : Response → Prop}
    (himp : ∀ response, accept response → accept' response) {out : Sent × Sink}
    (h : SendSpec base accept out) : SendSpec base accept' out := by
  match out with
  | (.returned true, sink) =>
    obtain ⟨response, haccept, hwritten⟩ := h
    exact ⟨response, himp response haccept, hwritten⟩
  | (.returned false, sink) => exact h
  | (.threw what, sink) => exact h

theorem executeSql_spec (faults : Faults) (outcome : Outcome) (hsink : sink.written = base) :
    ReplySpec base (Replies outcome) (executeSql faults outcome sink) := by
  have hbase : sink.written = base ++ tableBytes none := by simp [hsink]
  cases outcome with
  | parseError diagnostic =>
    cases hfault : faults 0 with
    | none =>
      have hrun : executeSql faults (.parseError diagnostic) sink = writeError diagnostic sink := by
        simp [executeSql, executeBody, sendError, sendFrame, hfault, Sent.toExcept, writeError]
      rw [hrun]
      exact writeError_spec none diagnostic (.inl rfl) hbase
    | some what =>
      have hrun : executeSql faults (.parseError diagnostic) sink =
          handle (.stdException what) sink := by
        simp [executeSql, executeBody, sendError, sendFrame, hfault, Sent.toExcept]
      rw [hrun]
      exact writeError_spec none (internalError what) (.inr ⟨what, rfl⟩) hbase
  | threw thrown =>
    refine handle_spec none thrown ?_ ?_ ?_ hbase
    · rintro rfl
      rfl
    · rintro what rfl
      rfl
    · rintro what rfl
      rfl
  | result ops =>
    refine ReplySpec.of_sendSpec (SendSpec.mono (fun _ => .inl)
      (sendStatementResult_spec faults (built_build ops) hsink)) ?_
    exact fun pos what => .inr ⟨pos, what, rfl⟩

/-- The server writes one response for a request, or a part of one and ends the connection. -/
theorem handleRequest_spec (faults : Faults) (outcome : Outcome) (request : Frame)
    (hsink : sink.written = base) :
    ReplySpec base (Serves request outcome) (handleRequest faults outcome request sink) := by
  have hbase : sink.written = base ++ tableBytes none := by simp [hsink]
  unfold handleRequest Serves
  split_ifs with hunsupported hempty
  · exact writeError_spec none _ rfl hbase
  · exact writeError_spec none _ rfl hbase
  · exact executeSql_spec faults outcome hsink

end Request

/-! ## Frames in a stream -/

/-- A stream begins with at most one well-formed frame. -/
theorem frame_eq_of_append_eq {frame frame' : Frame} (hwf : frame.WellFormed)
    (hwf' : frame'.WellFormed) {more more' : Bytes}
    (h : frame.bytes ++ more = frame'.bytes ++ more') : frame = frame' ∧ more = more' := by
  obtain ⟨head, tail, hbytes⟩ := List.exists_cons_of_ne_nil
    (List.append_ne_nil_of_left_ne_nil frame.bytes_ne_nil more)
  have havail : available [.chunk head tail] = frame.bytes ++ more := by
    rw [hbytes]
    simp [available]
  obtain ⟨rest, hread, hrest⟩ := readFrameInternal_of_bytes hwf havail
  obtain ⟨rest', hread', hrest'⟩ := readFrameInternal_of_bytes hwf' (havail.trans h)
  rw [hread] at hread'
  obtain ⟨hframe, hevents⟩ : frame = frame' ∧ rest = rest' := by simpa using hread'
  rw [← hrest, ← hrest', hevents]
  exact ⟨hframe, rfl⟩

/-- The frame of a request. -/
def requestFrame (sql : Bytes) : Frame := ⟨kTagExecStream, 0, sql⟩

/-- A request that is sent is a frame within the limits, and its bytes are what was written. -/
theorem sendRequest_eq_ok {isOpen : Bool} {sql : Bytes} {sink sink' : Sink}
    (h : sendRequest isOpen sql sink = (.ok (), sink')) :
    isOpen = true ∧ (requestFrame sql).WellFormed ∧
      sink'.written = sink.written ++ (requestFrame sql).bytes := by
  unfold sendRequest at h
  split_ifs at h with hopen hsize
  · simp at h
  · simp at h
  split at h
  · simp at h
  · rename_i hwrite
    obtain ⟨-, rfl⟩ : True ∧ _ = sink' := by simpa using h
    obtain ⟨hwf, hwritten⟩ := writeFrame_eq_true hwrite
    exact ⟨by simpa using hopen, hwf, hwritten⟩

/-- A request that is not sent: the connection is closed and nothing is written, or the request is
refused and nothing is written, or a strict part of it is written and the connection fails. -/
theorem sendRequest_eq_error {isOpen : Bool} {sql : Bytes} {sink sink' : Sink}
    {result : ExecuteResult} (h : sendRequest isOpen sql sink = (.error result, sink')) :
    (isOpen = false ∧ result.status = .transportError ∧ sink' = sink) ∨
      (isOpen = true ∧ result.status = .invalidRequest ∧ sink' = sink) ∨
      (isOpen = true ∧ result.status = .transportError ∧ (requestFrame sql).WellFormed ∧
        ∃ front, sink'.written = sink.written ++ front ∧ front <+: (requestFrame sql).bytes ∧
          front ≠ (requestFrame sql).bytes) := by
  unfold sendRequest at h
  split_ifs at h with hopen hsize
  · simp only [Prod.mk.injEq, Except.error.injEq] at h
    obtain ⟨rfl, rfl⟩ := h
    exact .inl ⟨hopen, rfl, rfl⟩
  · simp only [Prod.mk.injEq, Except.error.injEq] at h
    obtain ⟨rfl, rfl⟩ := h
    exact .inr (.inl ⟨by simpa using hopen, rfl, rfl⟩)
  split at h
  · rename_i hwrite
    simp only [Prod.mk.injEq, Except.error.injEq] at h
    obtain ⟨rfl, rfl⟩ := h
    rw [not_or, Nat.not_lt] at hsize
    have hwf : (requestFrame sql).WellFormed :=
      ⟨hsize.2, by simp [requestFrame, kTagExecStream, kTagError, kTagTransactionAbort]⟩
    exact .inr (.inr ⟨by simpa using hopen, rfl, hwf, writeFrame_eq_false hwrite⟩)
  · simp at h

end Rucbase.Server
