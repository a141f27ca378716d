import Rucbase.Net.Accept

/-!
# What the callbacks see

The two callbacks of a request share one flag: when either of them returns false or throws, none is
called again, but the response is read and checked to its end. So the calls are those that a
consumer that never stops would get, up to and including the first that stops (`Watched`); this
holds after each frame of a table, for callbacks that answer by what they have been shown.
-/

namespace Rucbase.Wire

open Lib

/-- The calls that a consumer that never stops gets for a table. -/
def ExecuteOptions.allCalls (options : ExecuteOptions) (columns : List ColumnDef)
    (rows : List (List Cell)) : List Call :=
  (if options.onMeta.isSome then [.onMeta columns] else []) ++
    if options.onRow.isSome then rows.map .onRow else []

/-- How the consumer answers a call, when it has been called before as the list says. -/
def ExecuteOptions.answer (options : ExecuteOptions) (before : List Call) : Call → CallbackOutcome
  | .onMeta columns =>
    match options.onMeta with
    | none => .proceed
    | some onMeta => onMeta columns
  | .onRow row =>
    match options.onRow with
    | none => .proceed
    | some onRow => onRow before row

/-- No call returned false or threw. -/
def ExecuteOptions.AllProceed (options : ExecuteOptions) (calls : List Call) : Prop :=
  ∀ before call after, calls = before ++ call :: after → options.answer before call = .proceed

/-- The last call is the first that returned false or threw. -/
inductive StoppedAt (options : ExecuteOptions) (columns : List ColumnDef)
    (rows : List (List Cell)) (calls : List Call) : Prop where
  | onMeta (hcalls : calls = [.onMeta columns])
      (hstop : options.answer [] (.onMeta columns) ≠ .proceed)
  | onRow (before : List (List Cell)) (row : List Cell) (after : List (List Cell))
      (hrows : rows = before ++ row :: after)
      (hcalls : calls = options.allCalls columns before ++ [.onRow row])
      (hproceed : options.AllProceed (options.allCalls columns before))
      (hstop : options.answer (options.allCalls columns before) (.onRow row) ≠ .proceed)

/-- What the consumer has been shown of a table, and whether it has stopped. -/
inductive Watched (options : ExecuteOptions) (columns : List ColumnDef)
    (rows : List (List Cell)) : Bool → List Call → Prop where
  | all (hproceed : options.AllProceed (options.allCalls columns rows)) :
      Watched options columns rows false (options.allCalls columns rows)
  | stopped {calls : List Call} (h : StoppedAt options columns rows calls) :
      Watched options columns rows true calls

section Calls

variable {options : ExecuteOptions} {columns : List ColumnDef} {rows : List (List Cell)}
  {row : List Cell} {calls : List Call}

theorem allProceed_nil : options.AllProceed [] := by
  intro before call after h
  simp at h

theorem ExecuteOptions.AllProceed.snoc {call : Call} (h : options.AllProceed calls)
    (hcall : options.answer calls call = .proceed) : options.AllProceed (calls ++ [call]) := by
  intro before call' after hsplit
  rcases List.eq_nil_or_concat after with rfl | ⟨after, last, rfl⟩
  · obtain ⟨rfl, hlast⟩ := List.append_inj' hsplit rfl
    rw [List.cons.injEq] at hlast
    rwa [← hlast.1]
  · rw [List.concat_eq_append, ← List.cons_append, ← List.append_assoc] at hsplit
    exact h before call' after (List.append_inj' hsplit rfl).1

theorem allCalls_snoc_none (h : options.onRow = none) :
    options.allCalls columns (rows ++ [row]) = options.allCalls columns rows := by
  simp [ExecuteOptions.allCalls, h]

theorem allCalls_snoc_some {onRow : List Call → List Cell → CallbackOutcome}
    (h : options.onRow = some onRow) :
    options.allCalls columns (rows ++ [row]) = options.allCalls columns rows ++ [.onRow row] := by
  simp [ExecuteOptions.allCalls, h]

/-- The rows that the consumer was shown come first in the table. -/
theorem StoppedAt.shown (h : StoppedAt options columns rows calls) :
    ∃ shown, shown <+: rows ∧ calls = options.allCalls columns shown := by
  cases h with
  | onMeta hcalls hstop =>
    refine ⟨[], List.nil_prefix, ?_⟩
    cases hmeta : options.onMeta with
    | none => simp [ExecuteOptions.answer, hmeta] at hstop
    | some onMeta => simp [ExecuteOptions.allCalls, hmeta, hcalls]
  | onRow before row after hrows hcalls hproceed hstop =>
    refine ⟨before ++ [row], ⟨after, by simp [hrows]⟩, ?_⟩
    cases hrow : options.onRow with
    | none => simp [ExecuteOptions.answer, hrow] at hstop
    | some onRow => rw [hcalls, allCalls_snoc_some hrow]

theorem StoppedAt.snoc (h : StoppedAt options columns rows calls) (row : List Cell) :
    StoppedAt options columns (rows ++ [row]) calls := by
  cases h with
  | onMeta hcalls hstop => exact .onMeta hcalls hstop
  | onRow before last after hrows hcalls hproceed hstop =>
    exact .onRow before last (after ++ [row]) (by simp [hrows]) hcalls hproceed hstop

end Calls

/-! ## Frames -/

section Exchange

variable {options : ExecuteOptions} {columns : List ColumnDef} {rows : List (List Cell)}

namespace Exchange

theorem calls_heed (st : Exchange) (who : Bytes) (call : Call) (outcome : CallbackOutcome) :
    (st.heed who call outcome).calls = st.calls ++ [call] := by
  cases outcome <;> rfl

theorem consumerStopped_heed (st : Exchange) (who : Bytes) (call : Call)
    (outcome : CallbackOutcome) :
    (st.heed who call outcome).consumerStopped = (st.consumerStopped || outcome != .proceed) := by
  cases outcome <;> simp [heed]

/-- The text does not concern the consumer. -/
theorem watched_appendText {st : Exchange} {txt : Bytes}
    (h : Watched options columns rows st.consumerStopped st.calls) :
    Watched options columns rows (st.appendText txt).consumerStopped (st.appendText txt).calls := h

theorem watched_callOnMeta {st : Exchange} (hstop : st.consumerStopped = false)
    (hcalls : st.calls = []) :
    Watched options columns [] (st.callOnMeta options columns).consumerStopped
      (st.callOnMeta options columns).calls := by
  cases hmeta : options.onMeta with
  | none =>
    have hall : options.allCalls columns [] = [] := by simp [ExecuteOptions.allCalls, hmeta]
    rw [callOnMeta, hmeta, hstop, hcalls, ← hall]
    exact .all (hall ▸ allProceed_nil)
  | some onMeta =>
    have hall : options.allCalls columns [] = [.onMeta columns] := by
      simp [ExecuteOptions.allCalls, hmeta]
    have hanswer : options.answer [] (.onMeta columns) = onMeta columns := by
      simp [ExecuteOptions.answer, hmeta]
    rw [callOnMeta, hmeta]
    dsimp only
    rw [consumerStopped_heed, calls_heed, hstop, hcalls, List.nil_append, Bool.false_or,
      ← hanswer]
    by_cases hproceed : options.answer [] (.onMeta columns) = .proceed
    · rw [hproceed, ← hall]
      exact .all (hall ▸ ExecuteOptions.AllProceed.snoc allProceed_nil hproceed)
    · rw [bne_iff_ne.mpr hproceed]
      exact .stopped (.onMeta rfl hproceed)

theorem watched_callOnRow (st : Exchange) (row : List Cell)
    (h : Watched options columns rows st.consumerStopped st.calls) :
    Watched options columns (rows ++ [row]) (st.callOnRow options row).consumerStopped
      (st.callOnRow options row).calls := by
  unfold callOnRow
  generalize hstopped : st.consumerStopped = stopped at h
  generalize hcalls : st.calls = calls at h
  cases h with
  | stopped h =>
    rw [if_pos rfl, hstopped, hcalls]
    exact .stopped (h.snoc row)
  | all hproceed =>
    rw [if_neg Bool.false_ne_true]
    cases hrow : options.onRow with
    | none =>
      dsimp only
      rw [hstopped, hcalls, ← allCalls_snoc_none hrow]
      exact .all (by rwa [allCalls_snoc_none hrow])
    | some onRow =>
      have hanswer : options.answer (options.allCalls columns rows) (.onRow row) =
          onRow (options.allCalls columns rows) row := by
        simp [ExecuteOptions.answer, hrow]
      dsimp only
      rw [consumerStopped_heed, calls_heed, hstopped, hcalls, Bool.false_or, ← hanswer]
      by_cases hgoes : options.answer (options.allCalls columns rows) (.onRow row) = .proceed
      · have hall : options.AllProceed (options.allCalls columns (rows ++ [row])) := by
          rw [allCalls_snoc_some hrow]
          exact ExecuteOptions.AllProceed.snoc hproceed hgoes
        rw [hgoes, ← allCalls_snoc_some hrow]
        exact .all hall
      · rw [bne_iff_ne.mpr hgoes]
        exact .stopped (.onRow rows row [] rfl rfl hproceed hgoes)

theorem watched_begun (table : ResultTable) :
    Watched options table.columns [] (begun options table).consumerStopped
      (begun options table).calls := by
  unfold begun beginRows
  dsimp only
  split_ifs
  · exact watched_appendText (watched_callOnMeta rfl rfl)
  · exact watched_callOnMeta rfl rfl

theorem watched_addRow {st : Exchange} (row : List Cell)
    (h : Watched options columns rows st.consumerStopped st.calls) :
    Watched options columns (rows ++ [row]) (st.addRow options row).consumerStopped
      (st.addRow options row).calls := by
  have hrow := watched_callOnRow { st with observedRows := (st.observedRows + 1) % 2 ^ 64 } row h
  unfold addRow
  dsimp only
  split_ifs
  · exact watched_appendText hrow
  · exact hrow

/-- After the frames of a table, the consumer has seen its rows up to where it stopped. -/
theorem watched_seen (options : ExecuteOptions) (table : ResultTable) :
    Watched options table.columns table.rows (seen options (some table)).consumerStopped
      (seen options (some table)).calls := by
  obtain ⟨rawText, columns, rows, valid, meta_le, char, fits⟩ := table
  unfold seen
  dsimp only
  induction rows using List.reverseRecOn with
  | nil =>
    rw [List.foldl_nil]
    exact watched_begun ⟨rawText, columns, [], valid, meta_le, char, fits⟩
  | append_singleton rows row ih =>
    rw [List.foldl_append]
    exact watched_addRow row (ih fun r hr => fits r (by simp [hr]))

section Finish

variable {st st' : Exchange} {frame : Frame}

theorem calls_of_protocolError {diagnostic : Bytes}
    (h : st.protocolError diagnostic = .finish st') : st'.calls = st.calls := by
  obtain rfl := Step.finish.inj h
  rfl

theorem calls_of_onMetaFrame (h : st.onMetaFrame options frame = .finish st') :
    st'.calls = st.calls := by
  unfold onMetaFrame at h
  split_ifs at h
  · exact calls_of_protocolError h
  · exact calls_of_protocolError h
  split at h
  · exact (calls_of_protocolError h :)
  · -- With its columns known, META ends the loop before the callback or not at all.
    dsimp only at h
    split_ifs at h
    exact (calls_of_protocolError h :)

theorem calls_of_onRowFrame (h : st.onRowFrame options frame = .finish st') :
    st'.calls = st.calls := by
  unfold onRowFrame at h
  split_ifs at h
  · exact calls_of_protocolError h
  split at h
  · exact calls_of_protocolError h
  · exact nomatch h

theorem calls_endRows (st : Exchange) (declaredRows : ℕ) :
    (st.endRows options declaredRows).calls = st.calls := by
  unfold endRows
  dsimp only
  split_ifs <;> rfl

theorem calls_of_onResultEndFrame (h : st.onResultEndFrame options frame = .finish st') :
    st'.calls = st.calls := by
  unfold onResultEndFrame at h
  split_ifs at h
  · exact calls_of_protocolError h
  split at h
  · exact calls_of_protocolError h
  split_ifs at h
  · exact calls_of_protocolError h
  · obtain rfl := Step.finish.inj h
    exact st.calls_endRows _

/-- A frame that ends the loop calls no callback. -/
theorem calls_of_finish (h : st.step options frame = .finish st') : st'.calls = st.calls := by
  unfold step at h
  split_ifs at h
  · unfold onCommandOkFrame at h
    split_ifs at h
    · exact calls_of_protocolError h
    · obtain rfl := Step.finish.inj h
      rfl
  · unfold onFailureFrame at h
    dsimp only at h
    by_cases hflags : frame.flags ≠ 0
    · rw [if_pos hflags] at h
      exact calls_of_protocolError h
    · rw [if_neg hflags] at h
      obtain rfl := Step.finish.inj h
      rfl
  · exact calls_of_onMetaFrame h
  · exact calls_of_onRowFrame h
  · exact calls_of_onResultEndFrame h
  · exact calls_of_protocolError h

end Finish

end Exchange

/-! ## Streams -/

/-- The consumer has been shown rows of the table from its start, and nothing else. -/
def ShownOf (options : ExecuteOptions) : Option ResultTable → List Call → Prop
  | none, calls => calls = []
  | some table, calls =>
    ∃ shown, shown <+: table.rows ∧ calls = options.allCalls table.columns shown

theorem shownOf_seen (options : ExecuteOptions) (pos : Option ResultTable) :
    ShownOf options pos (Exchange.seen options pos).calls := by
  cases pos with
  | none => rfl
  | some table =>
    have hwatched := Exchange.watched_seen options table
    generalize (Exchange.seen options (some table)).consumerStopped = stopped at hwatched
    generalize (Exchange.seen options (some table)).calls = calls at hwatched ⊢
    cases hwatched with
    | all hproceed => exact ⟨table.rows, List.prefix_rfl, rfl⟩
    | stopped h => exact h.shown

/-- Whatever the stream is, what the consumer is shown is a table that the stream begins with. -/
theorem receive_shown (options : ExecuteOptions) (pos : Option ResultTable)
    (events : List RecvEvent) :
    ∃ (pos' : Option ResultTable) (frames : List Frame),
      tableFrames pos' = tableFrames pos ++ frames ∧
      frames.flatMap Frame.bytes <+: available events ∧
      ShownOf options pos' (receive options (Exchange.seen options pos) events).1.calls := by
  induction hn : (available events).length using Nat.strong_induction_on
    generalizing pos events with
  | _ n ih =>
    -- Where the loop ends, no callback is called any more.
    have hends : ∀ calls, calls = (Exchange.seen options pos).calls →
        ∃ (pos' : Option ResultTable) (frames : List Frame),
          tableFrames pos' = tableFrames pos ++ frames ∧
          frames.flatMap Frame.bytes <+: available events ∧ ShownOf options pos' calls := by
      rintro calls rfl
      exact ⟨pos, [], (List.append_nil _).symm, List.nil_prefix, shownOf_seen options pos⟩
    match hread : readFrameInternal events with
    | (.transportError diagnostic, events') =>
      rw [receive_eq, hread]
      exact hends _ rfl
    | (.protocolError diagnostic, events') =>
      rw [receive_eq, hread]
      exact hends _ rfl
    | (.ok frame, events') =>
      obtain ⟨hwf, havail⟩ := readFrameInternal_eq_ok hread
      have hlt := available_lt_of_readFrameInternal hread
      rw [receive_eq, hread]
      dsimp only
      rcases step_cases options pos hwf with
        ⟨table, hframes, hstep⟩ | ⟨response, -, hstep⟩ | ⟨ended, -, hstep⟩
      · rw [hstep]
        obtain ⟨pos', frames, hpos', hstarts, hshown⟩ :=
          ih _ (hn ▸ hlt) (some table) events' rfl
        refine ⟨pos', frame :: frames, ?_, ?_, hshown⟩
        · rw [hpos', tableFrames, hframes, List.append_assoc, List.singleton_append]
        · rw [havail, List.flatMap_cons]
          exact (List.prefix_append_right_inj _).mpr hstarts
      all_goals
        rw [hstep]
        exact hends _ (Exchange.calls_of_finish hstep)

theorem Exchange.rowCount_endRows (st : Exchange) (declaredRows : ℕ) :
    (st.endRows options declaredRows).result.rowCount = declaredRows := by
  unfold Exchange.endRows
  dsimp only
  split_ifs <;> rfl

/-- A consumer that stopped is reported at the end of the table. -/
theorem Exchange.status_endRows (st : Exchange) (declaredRows : ℕ) :
    (st.endRows options declaredRows).result.status =
      if st.consumerStopped then .consumerStopped else .resultSet := by
  unfold Exchange.endRows
  dsimp only
  cases hstopped : st.consumerStopped with
  | false => split_ifs <;> simp_all [Exchange.appendText]
  | true => simp [Exchange.ended]

/-- At the end of a result set, the status says whether the consumer has stopped. -/
theorem watched_ended (options : ExecuteOptions) (table : ResultTable) :
    let ended := (Response.resultSet table).ended options
    ended.result.status = .resultSet ∧
        ended.calls = options.allCalls table.columns table.rows ∧
        options.AllProceed ended.calls ∨
      ended.result.status = .consumerStopped ∧
        StoppedAt options table.columns table.rows ended.calls := by
  intro ended
  have hwatched := Exchange.watched_seen options table
  have hstatus : ended.result.status = _ := Exchange.status_endRows _ _
  have hcalls : ended.calls = _ := Exchange.calls_endRows _ _
  rw [hstatus, hcalls]
  generalize (Exchange.seen options (some table)).consumerStopped = stopped at hwatched ⊢
  generalize (Exchange.seen options (some table)).calls = calls at hwatched ⊢
  cases hwatched with
  | all hproceed => exact .inl ⟨rfl, rfl, hproceed⟩
  | stopped h => exact .inr ⟨rfl, h⟩

/-- A stream that begins neither with COMMAND_OK nor with a result set is not reported as one. -/
theorem receive_not_ok (options : ExecuteOptions) {events : List RecvEvent}
    (htable : ∀ table : ResultTable, ¬ (Response.resultSet table).bytes <+: available events)
    (hok : ¬ Response.commandOk.bytes <+: available events) :
    (receive options {} events).1.result.ok = false := by
  have hstatus := fun response : Response =>
    or_congr (response.reports_ended options).commandOk_iff
      (response.reports_ended options).resultSet_iff
  have hiff := status_receive_iff
    (Q := fun s => s = .commandOk ∨ s = .resultSet ∨ s = .consumerStopped) hstatus (by simp)
    (by simp) events
  have hnone : ¬ ∃ response : Response,
      (response = .commandOk ∨ ∃ table, response = .resultSet table) ∧
        response.bytes <+: available events := by
    rintro ⟨response, rfl | ⟨table, rfl⟩, hstarts⟩
    · exact hok hstarts
    · exact htable table hstarts
  rw [← hiff, not_or, not_or] at hnone
  simp [ExecuteResult.ok, hnone]

/-- A client that has sent a request shows the callbacks the columns and then the rows of the result
set in order, up to and including the first call that stops it, and reads on to the end. On a stream
that is not a result set, it reports a failure, and has shown only rows that were received. -/
theorem execStreamResult_callbacks {sql : Bytes} {sink sink' : Sink}
    (hsent : sendRequest true sql sink = (.ok (), sink')) (options : ExecuteOptions)
    (events : List RecvEvent) :
    let ended := (execStreamResult true sql options sink events).1
    (∀ table : ResultTable, (Response.resultSet table).bytes <+: available events →
      (ended.result.status = .resultSet ∧
            ended.calls = options.allCalls table.columns table.rows ∧
            options.AllProceed ended.calls ∨
          ended.result.status = .consumerStopped ∧
            StoppedAt options table.columns table.rows ended.calls) ∧
        (table.rows.length < 2 ^ 64 → ended.result.rowCount = table.rows.length)) ∧
      ((∀ table : ResultTable, ¬ (Response.resultSet table).bytes <+: available events) →
        ¬ Response.commandOk.bytes <+: available events →
        ended.result.ok = false ∧
        ∃ pos : Option ResultTable, (tableFrames pos).flatMap Frame.bytes <+: available events ∧
          ShownOf options pos ended.calls) := by
  rw [execStreamResult_of_sent hsent]
  dsimp only
  constructor
  · rintro table ⟨more, hmore⟩
    obtain ⟨rest, hrun, -⟩ := receive_of_response options (.resultSet table) hmore.symm
    rw [hrun]
    refine ⟨watched_ended options table, fun hcount => ?_⟩
    exact (Exchange.rowCount_endRows _ _).trans (Nat.mod_eq_of_lt hcount)
  · intro htable hok
    obtain ⟨pos, frames, hpos, hstarts, hshown⟩ := receive_shown options none events
    refine ⟨receive_not_ok options htable hok, pos, ?_, hshown⟩
    rwa [show tableFrames pos = frames from hpos]

/-- A table of two rows. -/
def numbersTable : ResultTable where
  rawText := false
  columns := [⟨text "n", kTypeInt32⟩]
  rows := [[⟨false, kTypeInt32, 1, 0, []⟩], [⟨false, kTypeInt32, 2, 0, []⟩]]
  valid := by
    refine ⟨by decide, by decide, fun column hcolumn => ?_⟩
    obtain rfl := List.mem_singleton.mp hcolumn
    exact ⟨by decide, by decide, by decide⟩
  meta_le := by decide
  char_of_rawText := by decide
  fits := by
    intro row hrow
    simp only [List.mem_cons, List.not_mem_nil, or_false] at hrow
    rcases hrow with rfl | rfl <;>
      exact ⟨.cons ⟨rfl, by decide, by decide, by decide, by decide, by decide⟩ .nil, by decide⟩

/-- A consumer that stops at once sees the first row, and both rows are counted. -/
theorem execStreamResult_callbacks_stop :
    let options : ExecuteOptions := { onRow := some fun _ _ => .stop }
    let ended := (execStreamResult true (text "SELECT n FROM t;") options ⟨[], [], []⟩
      (pushBack (Response.resultSet numbersTable).bytes [])).1
    ended.result.status = .consumerStopped ∧
      StoppedAt options numbersTable.columns numbersTable.rows ended.calls ∧
      ended.result.rowCount = 2 := by
  intro options ended
  have hsent : sendRequest true (text "SELECT n FROM t;") ⟨[], [], []⟩ =
      (.ok (), ⟨[], (Frame.mk kTagExecStream 0 (text "SELECT n FROM t;")).bytes, []⟩) := rfl
  obtain ⟨hended, hcount⟩ := (execStreamResult_callbacks hsent options
    (pushBack (Response.resultSet numbersTable).bytes [])).1 numbersTable ⟨[], by
      rw [available_pushBack]; rfl⟩
  rcases hended with ⟨-, hcalls, hproceed⟩ | ⟨hstatus, hstopped⟩
  · exact absurd (hproceed [] _ _ hcalls) (by decide)
  · exact ⟨hstatus, hstopped, hcount (by decide)⟩

end Exchange

end Rucbase.Wire
