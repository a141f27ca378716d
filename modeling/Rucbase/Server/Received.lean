import Rucbase.Net.Consumer
import Rucbase.Server.SendSpec

/-!
# A result is received as it was sent

The client's side of a response whose callbacks never stop: they are shown the columns and every
row, and the exchange ends with the result set. Together with what the server sends this is the
round trip of a result, `sendStatementResult_received`.
-/

namespace Rucbase.Wire

open Lib

/-- The callbacks return true, whatever they are shown. -/
structure ExecuteOptions.NeverStops (options : ExecuteOptions) : Prop where
  onMeta : ∀ f, options.onMeta = some f → ∀ columns, f columns = .proceed
  onRow : ∀ f, options.onRow = some f → ∀ calls row, f calls row = .proceed

section NeverStops

variable {options : ExecuteOptions} (h : options.NeverStops)

include h

theorem answer_of_neverStops (before : List Call) (call : Call) :
    options.answer before call = .proceed := by
  cases call with
  | onMeta columns =>
    cases hmeta : options.onMeta with
    | none => simp [ExecuteOptions.answer, hmeta]
    | some f => simp [ExecuteOptions.answer, hmeta, h.onMeta f hmeta]
  | onRow row =>
    cases hrow : options.onRow with
    | none => simp [ExecuteOptions.answer, hrow]
    | some f => simp [ExecuteOptions.answer, hrow, h.onRow f hrow]

/-- The consumer has seen the columns and every row, and has not stopped. -/
theorem seen_of_neverStops (table : ResultTable) :
    (Exchange.seen options (some table)).consumerStopped = false ∧
      (Exchange.seen options (some table)).calls =
        options.allCalls table.columns table.rows := by
  have hwatched := Exchange.watched_seen options table
  generalize (Exchange.seen options (some table)).consumerStopped = stopped at hwatched ⊢
  generalize (Exchange.seen options (some table)).calls = calls at hwatched ⊢
  cases hwatched with
  | all hproceed => exact ⟨rfl, rfl⟩
  | stopped hstopped =>
    cases hstopped with
    | onMeta _ hstop => exact absurd (answer_of_neverStops h _ _) hstop
    | onRow _ _ _ _ _ _ hstop => exact absurd (answer_of_neverStops h _ _) hstop

/-- A result set ends with its status, its columns and its number of rows. -/
theorem ended_of_neverStops (table : ResultTable) :
    let ended := (Response.resultSet table).ended options
    ended.result.status = .resultSet ∧ ended.result.columns = table.columns ∧
      ended.result.rowCount = table.rows.length % 2 ^ 64 ∧
      ended.calls = options.allCalls table.columns table.rows := by
  obtain ⟨hstop, hcalls⟩ := seen_of_neverStops h table
  have hcolumns := Exchange.columns_seen options table
  unfold Response.ended Exchange.endRows
  dsimp only
  split_ifs <;> simp_all [Exchange.appendText]

end NeverStops

end Rucbase.Wire

namespace Rucbase.Server

open Lib Wire

/-- What the client reports of a result that the server sent. -/
def Received (options : ExecuteOptions) (result : WireResultSet) (ended : Exchange) : Prop :=
  (result.hasQueryResult = false → ended.result.status = .commandOk) ∧
  (∀ diagnostic, result.hasQueryResult = true → preMeta result = .error diagnostic →
    ended.result.status = .sqlError ∧ ended.result.diagnostic = errorPayload diagnostic) ∧
  (result.hasQueryResult = true → preMeta result = .ok () →
    ended.result.status = .resultSet ∧
    ended.result.columns =
      result.columns.map (fun column => ⟨column.name, colTypeToWire column.type⟩) ∧
    ended.result.rowCount = result.rows.length ∧
    ∃ rows, List.Forall₂ (List.Forall₂ SameCell) result.rows rows ∧
      ended.calls = options.allCalls ended.result.columns rows)

/-- The answer to a result is reported as that result. -/
theorem received_of_answers {options : ExecuteOptions} (hoptions : options.NeverStops)
    {result : WireResultSet} (hbuilt : Built result) {response : Response}
    (h : Answers result response) : Received options result (response.ended options) := by
  match response with
  | .commandOk =>
    have hnone : result.hasQueryResult = false := h
    refine ⟨fun _ => rfl, ?_, ?_⟩
    · intro diagnostic hquery
      simp [hnone] at hquery
    · intro hquery
      simp [hnone] at hquery
  | .failure none failed =>
    obtain ⟨hquery, diagnostic, hpre, rfl⟩ := h
    refine ⟨fun hnone => by simp [hquery] at hnone, ?_, fun _ hok => by simp [hpre] at hok⟩
    intro diagnostic' _ hpre'
    obtain rfl : diagnostic = diagnostic' := by simpa [hpre] using hpre'
    exact ⟨rfl, rfl⟩
  | .resultSet table =>
    obtain ⟨hquery, hpre, -, hcolumns, hrows⟩ := h
    refine ⟨fun hnone => by simp [hquery] at hnone, fun _ _ herror => by simp [hpre] at herror, ?_⟩
    intro _ _
    obtain ⟨hstatus, hcols, hcount, hcalls⟩ := ended_of_neverStops hoptions table
    have hlt : table.rows.length < 2 ^ 64 := by
      have hmax : WireResultSet.kMaxBufferedBytes < 2 ^ 64 := by decide
      rw [← hrows.length_eq]
      exact lt_of_le_of_lt (hbuilt.rows_le.trans hbuilt.buffered_le) hmax
    refine ⟨hstatus, hcols.trans hcolumns, ?_, table.rows, hrows, ?_⟩
    · rw [hcount, Nat.mod_eq_of_lt hlt, hrows.length_eq]
    · rw [hcalls, hcols]

/-- A result that the server has sent is received unchanged. After a request, whatever the pieces in
which the bytes arrive, the client consumes the bytes sent and reports the result; and if the stream
breaks off before the last of them, it reports a transport error. -/
theorem sendStatementResult_received (ops : List QueryResultBuilder.Op) (faults : Faults)
    {sink sink' : Sink}
    (h : sendStatementResult faults (QueryResultBuilder.build ops) sink = (.returned true, sink'))
    {options : ExecuteOptions} (hoptions : options.NeverStops) {sql : Bytes} {clientSink out : Sink}
    (hsent : sendRequest true sql clientSink = (.ok (), out)) :
    ∃ sent, sink'.written = sink.written ++ sent ∧
      (∀ (events : List RecvEvent) (more : Bytes), available events = sent ++ more →
        let (ended, _, rest) := execStreamResult true sql options clientSink events
        available rest = more ∧ Received options (QueryResultBuilder.build ops) ended) ∧
      ∀ events : List RecvEvent, available events <+: sent → available events ≠ sent →
        (execStreamResult true sql options clientSink events).1.result.status =
          .transportError := by
  have hbuilt := built_build ops
  have hspec := sendStatementResult_spec faults hbuilt (rfl : sink.written = sink.written)
  rw [h] at hspec
  obtain ⟨response, hanswers, hwritten⟩ := hspec
  refine ⟨response.bytes, hwritten, ?_, ?_⟩
  · intro events more havail
    obtain ⟨rest, hrun, hrest⟩ := receive_of_response options response havail
    rw [execStreamResult_of_sent hsent, hrun]
    exact ⟨hrest, received_of_answers hoptions hbuilt hanswers⟩
  · intro events hcut hne
    rw [execStreamResult_of_sent hsent]
    exact receive_of_cut options response hcut hne

/-- The builder's operations for a table of one INT column and one row. -/
def countOps : List QueryResultBuilder.Op :=
  [.setColumns [⟨text "n", .int⟩], .addRow [{ type := .int, intVal := 7 }]]

/-- The result of `countOps` is sent, and its one cell is received. -/
theorem sendStatementResult_received_count :
    ∃ sink', sendStatementResult (fun _ => none) (QueryResultBuilder.build countOps) ⟨[], [], []⟩ =
        (.returned true, sink') ∧
      ∃ sent, sink'.written = sent ∧
        ∀ events : List RecvEvent, available events = sent ++ [] →
          (execStreamResult true (text "SHOW TABLES;") {} ⟨[], [], []⟩ events).1.result.rowCount =
            1 := by
  have hsend :
      sendStatementResult (fun _ => none) (QueryResultBuilder.build countOps) ⟨[], [], []⟩ =
      (.returned true, (sendStatementResult (fun _ => none) (QueryResultBuilder.build countOps)
        ⟨[], [], []⟩).2) := by
    rfl
  have hsent : sendRequest true (text "SHOW TABLES;") ⟨[], [], []⟩ =
      (.ok (), (sendRequest true (text "SHOW TABLES;") ⟨[], [], []⟩).2) := by
    rfl
  have hoptions : ({} : ExecuteOptions).NeverStops := ⟨by simp, by simp⟩
  obtain ⟨sent, hwritten, hreceived, -⟩ :=
    sendStatementResult_received countOps (fun _ => none) hsend hoptions hsent
  refine ⟨_, hsend, sent, hwritten, fun events havail => ?_⟩
  obtain ⟨-, -, -, hresult⟩ := hreceived events [] havail
  exact (hresult rfl rfl).2.2.1

end Rucbase.Server
