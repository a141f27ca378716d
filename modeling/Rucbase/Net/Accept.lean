import Rucbase.Net.Grammar

/-!
# The client accepts the response grammar

One frame of a response moves the exchange as `Exchange.seen` and `Response.ended` say
(`step_meta`, `step_row`, `step_end`, `step_failure`, `step_commandOk`), and a frame that moves it
otherwise is a protocol error (`step_cases`). Whole streams follow from frames by induction on the
run.
-/

namespace Rucbase.Wire

open Lib

variable {options : ExecuteOptions}

/-! ## One frame of a response -/

section Dispatch

variable (options) (st : Exchange) {frame : Frame}

/-- COMMAND_OK has its own branch of the loop. -/
theorem step_of_commandOk (h : frame.tag = kTagCommandOk) :
    st.step options frame = st.onCommandOkFrame frame := by
  rw [Exchange.step, h]
  rfl

/-- META has its own branch of the loop. -/
theorem step_of_meta (h : frame.tag = kTagMeta) :
    st.step options frame = st.onMetaFrame options frame := by
  rw [Exchange.step, h]
  rfl

/-- ROW has its own branch of the loop. -/
theorem step_of_row (h : frame.tag = kTagRow) :
    st.step options frame = st.onRowFrame options frame := by
  rw [Exchange.step, h]
  rfl

/-- RESULT_END has its own branch of the loop. -/
theorem step_of_resultEnd (h : frame.tag = kTagResultEnd) :
    st.step options frame = st.onResultEndFrame options frame := by
  rw [Exchange.step, h]
  rfl

/-- ERROR and TRANSACTION_ABORT share a branch of the loop. -/
theorem step_of_failure (h : frame.tag = kTagError ∨ frame.tag = kTagTransactionAbort) :
    st.step options frame = st.onFailureFrame frame := by
  have hne : frame.tag ≠ kTagCommandOk := by
    rcases h with h | h <;> rw [h] <;> decide
  rw [Exchange.step, if_neg hne, if_pos h]

end Dispatch

/-- An empty COMMAND_OK is a whole response. -/
theorem step_commandOk :
    Exchange.step options {} ⟨kTagCommandOk, 0, []⟩ =
      .finish (Response.commandOk.ended options) := by
  rw [step_of_commandOk options _ rfl]
  rfl

/-- The flags of a table have no bit but that for raw text. -/
theorem metaFlags_and_not (rawText : Bool) : metaFlags rawText &&& ~~~kFlagRawText = 0 := by
  cases rawText <;> decide

/-- The flags of a table tell whether it is raw text. -/
theorem metaFlags_and (rawText : Bool) : (metaFlags rawText &&& kFlagRawText != 0) = rawText := by
  cases rawText <;> decide

/-- The check of the flags of a META frame leaves only the raw text bit open. -/
theorem eq_metaFlags {flags : UInt8} (h : flags &&& ~~~kFlagRawText = 0) :
    flags = metaFlags (flags &&& kFlagRawText != 0) := by
  have hbits : ∀ b : BitVec 8, b &&& ~~~1#8 = 0#8 → b = 0#8 ∨ b = 1#8 := by decide
  rw [← UInt8.toBitVec_inj] at h
  -- One bit is open, so there are two values.
  rcases hbits flags.toBitVec h with hzero | hone
  · obtain rfl : flags = 0 := UInt8.toBitVec_inj.mp hzero
    decide
  · obtain rfl : flags = kFlagRawText := UInt8.toBitVec_inj.mp hone
    decide

/-- META begins a table without rows. -/
theorem step_meta {table : ResultTable} (h : table.rows = []) :
    Exchange.step options {} (metaFrame table.rawText table.columns) =
      .next (Exchange.seen options (some table)) := by
  have hdecode : decodeMeta (metaBytes table.columns) = .ok table.columns :=
    decodeMeta_eq_ok.mpr ⟨table.valid, rfl⟩
  have hone : ¬ (table.rawText = true ∧ table.columns.map ColumnDef.sqlType ≠ [kTypeChar]) :=
    fun hboth => hboth.2 (table.char_of_rawText hboth.1)
  rw [step_of_meta options _ rfl]
  simp only [Exchange.onMetaFrame, metaFrame, metaFlags_and_not, metaFlags_and, hdecode, hone,
    if_false, ne_eq, not_true_eq_false, Exchange.seen, h, List.foldl_nil, Exchange.begun]

/-- A row that fits the columns is counted. -/
theorem step_row (table : ResultTable) {row : List Cell} (hrow : RowFits table.columns row) :
    (Exchange.seen options (some table)).step options (rowFrame row) =
      .next ((Exchange.seen options (some table)).addRow options row) := by
  have hdecode : decodeRow table.columns (rowFrame row).payload = .ok row :=
    decodeRow_eq_ok.mpr ⟨hrow.1, rfl⟩
  rw [step_of_row options _ rfl, Exchange.onRowFrame, if_neg (by simp [rowFrame, table.valid.ne]),
    Exchange.columns_seen, hdecode]

/-- RESULT_END with the number of rows ends a table. -/
theorem step_end (table : ResultTable) :
    (Exchange.seen options (some table)).step options (endFrame table.rows.length) =
      .finish ((Response.resultSet table).ended options) := by
  have hdecode : decodeResultEnd (endFrame table.rows.length).payload =
      some (table.rows.length % 2 ^ 64) := by
    rw [decodeResultEnd_eq_some]
    have hspell := beBytes_mod 8 table.rows.length
    rw [show (256 : ℕ) ^ 8 = 2 ^ 64 by norm_num] at hspell
    exact ⟨Nat.mod_lt _ (by norm_num), hspell.symm⟩
  rw [step_of_resultEnd options _ rfl, Exchange.onResultEndFrame, if_neg (by simp [endFrame]),
    hdecode]
  simp only [Exchange.observedRows_seen, ne_eq, not_true_eq_false, if_false]
  rfl

/-- ERROR and TRANSACTION_ABORT end a response wherever they come. -/
theorem step_failure (table : Option ResultTable) (failed : Failure) :
    (Exchange.seen options table).step options failed.frame =
      .finish ((Response.failure table failed).ended options) := by
  have htag : failed.frame.tag = kTagError ∨ failed.frame.tag = kTagTransactionAbort := by
    cases hkind : failed.kind <;> simp [Failure.frame, hkind, FailureKind.tag]
  rw [step_of_failure options _ htag, Exchange.onFailureFrame, if_neg (by simp [Failure.frame])]
  cases hkind : failed.kind with
  | error => simp [Failure.frame, hkind, FailureKind.tag, FailureKind.status, Response.ended]
  | transactionAbort =>
    have hne : kTagTransactionAbort ≠ kTagError := by decide
    simp [Failure.frame, hkind, FailureKind.tag, FailureKind.status, Response.ended, hne]

/-! ## Any frame -/

/-- One more row is one more call of `on_row`. -/
theorem Exchange.seen_snoc (options : ExecuteOptions) (table : ResultTable) (row : List Cell)
    (h : RowFits table.columns row) :
    Exchange.seen options (some (table.snoc row h)) =
      (Exchange.seen options (some table)).addRow options row := by
  show (table.rows ++ [row]).foldl (Exchange.addRow options) (Exchange.begun options table) = _
  rw [List.foldl_append]
  rfl

/-- One more row is one more frame. -/
theorem ResultTable.frames_snoc (table : ResultTable) (row : List Cell)
    (h : RowFits table.columns row) :
    (table.snoc row h).frames = table.frames ++ [rowFrame row] := by
  simp [ResultTable.frames, ResultTable.snoc]

/-- What a frame does to an exchange after the frames of `pos`: it adds to the table, or ends a
response, or ends the exchange with a protocol error. -/
def StepSpec (options : ExecuteOptions) (pos : Option ResultTable) (frame : Frame) : Prop :=
  (∃ table : ResultTable, table.frames = tableFrames pos ++ [frame] ∧
      (Exchange.seen options pos).step options frame = .next (Exchange.seen options (some table))) ∨
    (∃ response : Response, response.frames = tableFrames pos ++ [frame] ∧
      (Exchange.seen options pos).step options frame = .finish (response.ended options)) ∨
    ∃ ended : Exchange, ended.result.status = .protocolError ∧
      (Exchange.seen options pos).step options frame = .finish ended

variable {frame : Frame} {pos : Option ResultTable}

/-- A frame that is refused ends the exchange. -/
theorem stepSpec_of_protocolError {st : Exchange} {diagnostic : Bytes}
    (h : (Exchange.seen options pos).step options frame = st.protocolError diagnostic) :
    StepSpec options pos frame :=
  .inr (.inr ⟨_, rfl, h⟩)

/-- Rows are expected after META only. -/
theorem seen_state : (Exchange.seen options pos).state = .awaitFirst ↔ pos = none := by
  cases pos with
  | none => simp [Exchange.seen]
  | some table => simp

/-- While rows are expected, there is a table. -/
theorem seen_state_rows (h : (Exchange.seen options pos).state = .rows) :
    ∃ table, pos = some table := by
  cases pos with
  | none => simp [Exchange.seen] at h
  | some table => exact ⟨table, rfl⟩

/-- COMMAND_OK is a response when it comes first, without flags and payload. -/
theorem stepSpec_commandOk (pos : Option ResultTable) (htag : frame.tag = kTagCommandOk) :
    StepSpec options pos frame := by
  have hstep := step_of_commandOk options (Exchange.seen options pos) htag
  unfold Exchange.onCommandOkFrame at hstep
  split_ifs at hstep with hbad
  · exact stepSpec_of_protocolError hstep
  · -- No flags, no payload, and no frame before it: only one frame is left.
    simp only [not_or, not_not, ne_eq] at hbad
    obtain ⟨hflags, hstate, hpayload⟩ := hbad
    obtain rfl := seen_state.mp hstate
    obtain rfl : frame = ⟨kTagCommandOk, 0, []⟩ := by
      rw [← htag, ← hflags, ← hpayload]
    exact .inr (.inl ⟨.commandOk, rfl, step_commandOk⟩)

/-- A failure ends the response when it has no flags. -/
theorem stepSpec_failure (pos : Option ResultTable) (hwf : frame.WellFormed)
    (htag : frame.tag = kTagError ∨ frame.tag = kTagTransactionAbort) :
    StepSpec options pos frame := by
  -- The flags are the only thing that is checked: a failure may come in any state.
  by_cases hflags : frame.flags = 0
  · let failed : Failure :=
      ⟨if frame.tag = kTagError then .error else .transactionAbort, frame.payload, hwf.2 htag⟩
    have hframe : frame = failed.frame := by
      obtain ⟨tag, flags, payload⟩ := frame
      simp only at hflags htag
      rcases htag with rfl | rfl <;> rw [hflags] <;> rfl
    exact .inr (.inl ⟨.failure pos failed, by rw [hframe]; rfl, by rw [hframe, step_failure]⟩)
  · apply stepSpec_of_protocolError
    rw [step_of_failure options _ htag, Exchange.onFailureFrame, if_pos hflags]

/-- META begins a table when it comes first and its payload decodes. -/
theorem stepSpec_meta (pos : Option ResultTable) (hwf : frame.WellFormed)
    (htag : frame.tag = kTagMeta) : StepSpec options pos frame := by
  have hstep := step_of_meta options (Exchange.seen options pos) htag
  unfold Exchange.onMetaFrame at hstep
  -- Four checks may refuse the frame: its flags, its place, its payload, and raw text in columns.
  split_ifs at hstep with hflags hstate
  · exact stepSpec_of_protocolError hstep
  · exact stepSpec_of_protocolError hstep
  rw [ne_eq, not_not] at hflags hstate
  obtain rfl := seen_state.mp hstate
  split at hstep
  · exact stepSpec_of_protocolError hstep
  rename_i columns hdecode
  dsimp only at hstep
  split_ifs at hstep with hraw
  · exact stepSpec_of_protocolError hstep
  -- The payload decodes: it is the META payload of a table that has no rows yet.
  obtain ⟨hvalid, hpayload⟩ := decodeMeta_eq_ok.mp hdecode
  let table : ResultTable :=
    { rawText := frame.flags &&& kFlagRawText != 0, columns := columns, rows := []
      valid := hvalid, meta_le := hpayload ▸ hwf.1
      char_of_rawText := fun hr => by_contra fun hne => hraw ⟨hr, hne⟩
      fits := by simp }
  have hframe : frame = metaFrame table.rawText table.columns := by
    rw [metaFrame, ← eq_metaFlags hflags, ← htag, ← hpayload]
  refine .inl ⟨table, by rw [hframe]; rfl, ?_⟩
  rw [hframe]
  exact step_meta rfl

/-- ROW adds to the table when there is one and the payload decodes to a row of it. -/
theorem stepSpec_row (pos : Option ResultTable) (hwf : frame.WellFormed)
    (htag : frame.tag = kTagRow) : StepSpec options pos frame := by
  have hstep := step_of_row options (Exchange.seen options pos) htag
  unfold Exchange.onRowFrame at hstep
  split_ifs at hstep with hbad
  · exact stepSpec_of_protocolError hstep
  simp only [not_or, not_not, ne_eq] at hbad
  obtain ⟨hflags, hstate, -⟩ := hbad
  obtain ⟨table, rfl⟩ := seen_state_rows hstate
  rw [Exchange.columns_seen] at hstep
  split at hstep
  · exact stepSpec_of_protocolError hstep
  rename_i row hdecode
  -- The payload decodes by the columns of the table: the row is one more row of it.
  obtain ⟨hcells, hpayload⟩ := decodeRow_eq_ok.mp hdecode
  have hfits : RowFits table.columns row := ⟨hcells, hpayload ▸ hwf.1⟩
  have hframe : frame = rowFrame row := by
    rw [rowFrame, ← htag, ← hflags, ← hpayload]
  refine .inl ⟨table.snoc row hfits, ?_, ?_⟩
  · rw [ResultTable.frames_snoc, hframe]
    rfl
  · rw [hframe, step_row table hfits, Exchange.seen_snoc]

/-- RESULT_END ends the table when it has the number of its rows. -/
theorem stepSpec_resultEnd (pos : Option ResultTable) (htag : frame.tag = kTagResultEnd) :
    StepSpec options pos frame := by
  have hstep := step_of_resultEnd options (Exchange.seen options pos) htag
  unfold Exchange.onResultEndFrame at hstep
  split_ifs at hstep with hbad
  · exact stepSpec_of_protocolError hstep
  simp only [not_or, not_not, ne_eq] at hbad
  obtain ⟨hflags, hstate⟩ := hbad
  obtain ⟨table, rfl⟩ := seen_state_rows hstate
  split at hstep
  · exact stepSpec_of_protocolError hstep
  rename_i declared hdecode
  split_ifs at hstep with hcount
  · exact stepSpec_of_protocolError hstep
  rw [ne_eq, not_not, Exchange.observedRows_seen] at hcount
  obtain ⟨-, hpayload⟩ := decodeResultEnd_eq_some.mp hdecode
  -- The counts agree modulo `2^64`, and this is what the payload spells.
  have hframe : frame = endFrame table.rows.length := by
    have hspell := beBytes_mod 8 table.rows.length
    rw [show (256 : ℕ) ^ 8 = 2 ^ 64 by norm_num] at hspell
    rw [endFrame, ← htag, ← hflags, ← hspell, ← hcount, ← hpayload]
  exact .inr (.inl ⟨.resultSet table, by rw [hframe]; rfl, by rw [hframe, step_end]⟩)

/-- A well-formed frame adds to the table, ends a response or is a protocol error. -/
theorem step_cases (options : ExecuteOptions) (pos : Option ResultTable) (hwf : frame.WellFormed) :
    StepSpec options pos frame := by
  -- The tags are tested in the order of the loop; a frame with another tag is refused.
  by_cases hok : frame.tag = kTagCommandOk
  · exact stepSpec_commandOk pos hok
  by_cases hfail : frame.tag = kTagError ∨ frame.tag = kTagTransactionAbort
  · exact stepSpec_failure pos hwf hfail
  by_cases hmeta : frame.tag = kTagMeta
  · exact stepSpec_meta pos hwf hmeta
  by_cases hrow : frame.tag = kTagRow
  · exact stepSpec_row pos hwf hrow
  by_cases hend : frame.tag = kTagResultEnd
  · exact stepSpec_resultEnd pos hend
  apply stepSpec_of_protocolError
  rw [Exchange.step, if_neg hok, if_neg hfail, if_neg hmeta, if_neg hrow, if_neg hend]

/-! ## Streams -/

section Receive

variable {st st' : Exchange} {events events' : List RecvEvent}

/-- The loop reads one frame, and stops where the reading fails or the frame ends the exchange. -/
theorem receive_eq (options : ExecuteOptions) (st : Exchange) (events : List RecvEvent) :
    receive options st events =
      match readFrameInternal events with
      | (.transportError diagnostic, events) => (st.ended .transportError diagnostic, events)
      | (.protocolError diagnostic, events) => (st.ended .protocolError diagnostic, events)
      | (.ok frame, events) =>
        match st.step options frame with
        | .finish st => (st, events)
        | .next st => receive options st events := by
  rw [receive]
  split <;> rename_i heq <;> simp only [heq]
  all_goals rfl

/-- A stream that breaks off inside a frame is a transport error. -/
theorem receive_of_frame_cut {frame : Frame} (hwf : frame.WellFormed)
    (hcut : available events <+: frame.bytes) (hne : available events ≠ frame.bytes) :
    (receive options st events).1.result.status = .transportError := by
  obtain ⟨diagnostic, hread⟩ := readFrameInternal_of_cut hwf hcut hne
  have hread' : readFrameInternal events = (.transportError diagnostic, _) := Prod.ext hread rfl
  rw [receive_eq, hread']
  rfl

/-- The frames take the exchange to its end, and the last of them ends it. -/
inductive Consumes (options : ExecuteOptions) : Exchange → List Frame → Exchange → Prop where
  | last {st st' : Exchange} {frame : Frame} (hwf : frame.WellFormed)
      (hstep : st.step options frame = .finish st') : Consumes options st [frame] st'
  | more {st st₁ st' : Exchange} {frame : Frame} {frames : List Frame} (hwf : frame.WellFormed)
      (hstep : st.step options frame = .next st₁) (hrest : Consumes options st₁ frames st') :
      Consumes options st (frame :: frames) st'

/-- A stream that begins with frames that end the exchange is read up to their end. -/
theorem Consumes.receive {frames : List Frame} (h : Consumes options st frames st')
    {more : Bytes} (havail : available events = frames.flatMap Frame.bytes ++ more) :
    ∃ rest, receive options st events = (st', rest) ∧ available rest = more := by
  induction h generalizing events with
  | @last st st' frame hwf hstep =>
    rw [List.flatMap_singleton] at havail
    obtain ⟨rest, hread, hrest⟩ := readFrameInternal_of_bytes hwf havail
    exact ⟨rest, by simp [receive_eq options st, hread, hstep], hrest⟩
  | @more st st₁ st' frame frames hwf hstep _ ih =>
    rw [List.flatMap_cons, List.append_assoc] at havail
    obtain ⟨events₁, hread, havail₁⟩ := readFrameInternal_of_bytes hwf havail
    obtain ⟨rest, hrun, hrest⟩ := ih havail₁
    exact ⟨rest, by simp [receive_eq options st, hread, hstep, hrun], hrest⟩

/-- A stream that breaks off inside such frames is a transport error. -/
theorem Consumes.receive_cut {frames : List Frame} (h : Consumes options st frames st')
    (hcut : available events <+: frames.flatMap Frame.bytes)
    (hne : available events ≠ frames.flatMap Frame.bytes) :
    (Wire.receive options st events).1.result.status = .transportError := by
  induction h generalizing events with
  | last hwf hstep =>
    rw [List.flatMap_singleton] at hcut hne
    exact receive_of_frame_cut hwf hcut hne
  | @more st st₁ st' frame frames hwf hstep _ ih =>
    rw [List.flatMap_cons] at hcut hne
    by_cases hshort : available events <+: frame.bytes ∧ available events ≠ frame.bytes
    · exact receive_of_frame_cut hwf hshort.1 hshort.2
    · -- The first frame is whole, and the stream breaks off behind it.
      obtain ⟨more, hmore⟩ : frame.bytes <+: available events := by
        rcases List.prefix_or_prefix_of_prefix hcut (List.prefix_append frame.bytes _)
          with hle | hle
        · rw [not_and, not_not] at hshort
          exact (hshort hle).symm ▸ List.prefix_refl _
        · exact hle
      obtain ⟨events₁, hread, havail₁⟩ := readFrameInternal_of_bytes hwf hmore.symm
      rw [receive_eq, hread]
      dsimp only
      rw [hstep]
      rw [← hmore] at hcut hne
      apply ih
      · rw [havail₁]
        exact (List.prefix_append_right_inj _).mp hcut
      · rw [havail₁]
        exact fun heq => hne (by rw [heq])

end Receive

/-! ## Responses -/

/-- The frames of a table take a fresh exchange to where the table is seen. -/
theorem Consumes.of_seen {frames : List Frame} {ended : Exchange}
    (h : Consumes options (Exchange.seen options pos) frames ended) :
    Consumes options {} (tableFrames pos ++ frames) ended := by
  cases pos with
  | none => exact h
  | some table =>
    obtain ⟨rawText, columns, rows, valid, meta_le, char, fits⟩ := table
    -- The last row is peeled off the table and put in front of the frames.
    induction rows using List.reverseRecOn generalizing frames with
    | nil =>
      have hmeta :=
        ResultTable.metaFrame_wellFormed ⟨rawText, columns, [], valid, meta_le, char, fits⟩
      exact .more hmeta (step_meta rfl) h
    | append_singleton rows row ih =>
      have hrow : RowFits columns row := fits row (by simp)
      have hrows : ∀ row ∈ rows, RowFits columns row := fun r hr => fits r (by simp [hr])
      let table : ResultTable := ⟨rawText, columns, rows, valid, meta_le, char, hrows⟩
      have hsnoc : (⟨rawText, columns, rows ++ [row], valid, meta_le, char, fits⟩ : ResultTable) =
          table.snoc row hrow := rfl
      rw [hsnoc, Exchange.seen_snoc] at h
      have hrest := ih hrows (.more hrow.wellFormed (step_row table hrow) h)
      rw [hsnoc, tableFrames, ResultTable.frames_snoc, List.append_assoc]
      exact hrest

/-- The frames of a response take a fresh exchange to its end. -/
theorem Response.consumes (response : Response) :
    Consumes options {} response.frames (response.ended options) := by
  cases response with
  | commandOk => exact .last (by decide) step_commandOk
  | resultSet table =>
    have hlast : Consumes options (Exchange.seen options (some table))
        [endFrame table.rows.length] ((Response.resultSet table).ended options) :=
      .last (endFrame_wellFormed _) (step_end table)
    exact Consumes.of_seen hlast
  | failure table failed =>
    exact Consumes.of_seen (.last failed.frame_wellFormed (step_failure table failed))

/-- A stream that begins with a response ends the exchange as the response says, and what follows
the response stays to be read. -/
theorem receive_of_response (options : ExecuteOptions) (response : Response)
    {events : List RecvEvent} {more : Bytes} (h : available events = response.bytes ++ more) :
    ∃ rest, receive options {} events = (response.ended options, rest) ∧ available rest = more :=
  response.consumes.receive h

/-- A stream that breaks off inside a response is a transport error. -/
theorem receive_of_cut (options : ExecuteOptions) (response : Response) {events : List RecvEvent}
    (h : available events <+: response.bytes) (hne : available events ≠ response.bytes) :
    (receive options {} events).1.result.status = .transportError :=
  response.consumes.receive_cut h hne

/-- After the frames of `pos`, the exchange fails or reads the rest of a response. -/
theorem receive_cases (options : ExecuteOptions) (pos : Option ResultTable)
    (events : List RecvEvent) :
    (∃ (response : Response) (frames : List Frame) (rest : List RecvEvent),
        response.frames = tableFrames pos ++ frames ∧
        receive options (Exchange.seen options pos) events = (response.ended options, rest) ∧
        available events = frames.flatMap Frame.bytes ++ available rest) ∨
      (receive options (Exchange.seen options pos) events).1.result.status = .protocolError ∨
      (receive options (Exchange.seen options pos) events).1.result.status = .transportError := by
  induction hn : (available events).length using Nat.strong_induction_on
    generalizing pos events with
  | _ n ih =>
    match hread : readFrameInternal events with
    | (.transportError diagnostic, events') =>
      rw [receive_eq, hread]
      exact .inr (.inr rfl)
    | (.protocolError diagnostic, events') =>
      rw [receive_eq, hread]
      exact .inr (.inl rfl)
    | (.ok frame, events') =>
      obtain ⟨hwf, havail⟩ := readFrameInternal_eq_ok hread
      have hlt := available_lt_of_readFrameInternal hread
      rw [receive_eq, hread]
      dsimp only
      rcases step_cases options pos hwf with
        ⟨table, hframes, hstep⟩ | ⟨response, hframes, hstep⟩ | ⟨ended, hended, hstep⟩
      · -- The frame adds to the table: the rest of the stream is read after the longer table.
        rw [hstep]
        rcases ih _ (hn ▸ hlt) (some table) events' rfl with
          ⟨response, frames, rest, hresponse, hrun, hrest⟩ | hfail
        · refine .inl ⟨response, frame :: frames, rest, ?_, hrun, ?_⟩
          · rw [hresponse, tableFrames, hframes, List.append_assoc, List.singleton_append]
          · rw [havail, hrest, List.flatMap_cons, List.append_assoc]
        · exact .inr hfail
      · -- The frame ends a response, and the loop.
        rw [hstep]
        refine .inl ⟨response, [frame], events', hframes, rfl, ?_⟩
        rw [havail, List.flatMap_singleton]
      · rw [hstep]
        exact .inr (.inl hended)

/-! ## The statuses -/

/-- A result set ends with RESULT_END's status, unless the consumer stopped. -/
theorem status_endRows (st : Exchange) (declaredRows : ℕ) :
    (st.endRows options declaredRows).result.status = .resultSet ∨
      (st.endRows options declaredRows).result.status = .consumerStopped := by
  unfold Exchange.endRows
  dsimp only
  split_ifs <;> simp [Exchange.ended]

/-- A property of the status that failures do not have holds exactly on the streams that begin with
one of the responses it is reported for. -/
theorem status_receive_iff {P : Response → Prop} {Q : ExecuteStatus → Prop}
    (hQ : ∀ response, Q (Response.ended options response).result.status ↔ P response)
    (hprotocol : ¬ Q .protocolError) (htransport : ¬ Q .transportError)
    (events : List RecvEvent) :
    Q (receive options {} events).1.result.status ↔
      ∃ response, P response ∧ response.bytes <+: available events := by
  constructor
  · intro h
    rcases receive_cases options none events with
      ⟨response, frames, rest, hframes, hrun, havail⟩ | hfail | hfail
    · rw [show Exchange.seen options none = {} from rfl] at hrun
      rw [hrun] at h
      refine ⟨response, (hQ response).mp h, available rest, ?_⟩
      rw [Response.bytes, hframes]
      exact havail.symm
    · exact absurd (hfail ▸ h) hprotocol
    · exact absurd (hfail ▸ h) htransport
  · rintro ⟨response, hP, more, havail⟩
    obtain ⟨rest, hrun, -⟩ := receive_of_response options response havail.symm
    rw [hrun]
    exact (hQ response).mpr hP

/-- The statuses that a response may be reported with. -/
def Response.Reports : Response → ExecuteStatus → Prop
  | .commandOk, status => status = .commandOk
  | .resultSet _, status => status = .resultSet ∨ status = .consumerStopped
  | .failure _ failed, status => status = failed.kind.status

/-- A response is reported with one of its statuses. -/
theorem Response.reports_ended (options : ExecuteOptions) (response : Response) :
    response.Reports (response.ended options).result.status := by
  cases response with
  | commandOk => rfl
  | resultSet table => exact status_endRows _ _
  | failure table failed => rfl

section Reports

variable {response : Response} {status : ExecuteStatus}

/-- Only COMMAND_OK is reported as success. -/
theorem Response.Reports.commandOk_iff (h : response.Reports status) :
    status = .commandOk ↔ response = .commandOk := by
  cases response with
  | commandOk => exact iff_of_true h rfl
  | resultSet table => rcases h with rfl | rfl <;> simp
  | failure table failed =>
    obtain rfl : status = failed.kind.status := h
    cases failed.kind <;> simp [FailureKind.status]

/-- Only a table is reported as a result set, or as stopped by the consumer. -/
theorem Response.Reports.resultSet_iff (h : response.Reports status) :
    (status = .resultSet ∨ status = .consumerStopped) ↔ ∃ table, response = .resultSet table := by
  cases response with
  | commandOk =>
    obtain rfl : status = .commandOk := h
    simp
  | resultSet table => exact iff_of_true h ⟨table, rfl⟩
  | failure table failed =>
    obtain rfl : status = failed.kind.status := h
    cases failed.kind <;> simp [FailureKind.status]

/-- Only a failure is reported as an error or an abort, by its kind. -/
theorem Response.Reports.failure_iff (h : response.Reports status) (kind : FailureKind) :
    status = kind.status ↔
      ∃ table failed, failed.kind = kind ∧ response = .failure table failed := by
  cases response with
  | commandOk =>
    obtain rfl : status = .commandOk := h
    cases kind <;> simp [FailureKind.status]
  | resultSet table =>
    -- Neither kind of failure has a status of a table.
    rcases h with rfl | rfl <;> cases kind <;> simp [FailureKind.status]
  | failure table failed =>
    obtain rfl : status = failed.kind.status := h
    constructor
    · intro heq
      refine ⟨table, failed, ?_, rfl⟩
      cases hkind : failed.kind <;> cases kind <;> simp_all [FailureKind.status]
    · rintro ⟨table', failed', hkind, heq⟩
      obtain ⟨-, rfl⟩ : table = table' ∧ failed = failed' := by simpa using heq
      rw [hkind]

end Reports

/-! ## The language of the client -/

/-- A request that is sent leaves what the loop over the response does. -/
theorem execStreamResult_of_sent {sql : Bytes} {sink sink' : Sink}
    (hsent : sendRequest true sql sink = (.ok (), sink')) (events : List RecvEvent) :
    execStreamResult true sql options sink events =
      ((receive options {} events).1, sink', (receive options {} events).2) := by
  rw [execStreamResult, hsent]

/-- After a request is sent, the client reports success, a result set, an error or an abort exactly
on the streams that begin with a response of that kind, and fails on every other stream; and it
reads the response and nothing behind it. -/
theorem execStreamResult_accepts {sql : Bytes} {sink sink' : Sink}
    (hsent : sendRequest true sql sink = (.ok (), sink')) (options : ExecuteOptions)
    (events : List RecvEvent) :
    let (ended, _, rest) := execStreamResult true sql options sink events
    let status := ended.result.status
    (status = .commandOk ↔ Response.commandOk.bytes <+: available events) ∧
    (status = .resultSet ∨ status = .consumerStopped ↔
      ∃ table, (Response.resultSet table).bytes <+: available events) ∧
    (status = .sqlError ↔
      ∃ table failed, failed.kind = .error ∧
        (Response.failure table failed).bytes <+: available events) ∧
    (status = .transactionAbort ↔
      ∃ table failed, failed.kind = .transactionAbort ∧
        (Response.failure table failed).bytes <+: available events) ∧
    ((¬ ∃ response : Response, response.bytes <+: available events) →
      status = .protocolError ∨ status = .transportError) ∧
    ∀ response : Response, response.bytes <+: available events →
      available events = response.bytes ++ available rest := by
  rw [execStreamResult_of_sent hsent]
  have hreports := fun response : Response => response.reports_ended options
  -- One status after the other, then the streams that begin with no response.
  refine ⟨?_, ?_, ?_, ?_, ?_, ?_⟩
  · have h := status_receive_iff (Q := (· = .commandOk))
      (fun response => (hreports response).commandOk_iff) (by simp) (by simp) events
    simpa using h
  · have h := status_receive_iff (Q := fun s => s = .resultSet ∨ s = .consumerStopped)
      (fun response => (hreports response).resultSet_iff) (by simp) (by simp) events
    simpa using h
  · have h := status_receive_iff (Q := (· = .sqlError))
      (fun response => (hreports response).failure_iff .error) (by simp) (by simp) events
    simpa [and_assoc] using h
  · have h := status_receive_iff (Q := (· = .transactionAbort))
      (fun response => (hreports response).failure_iff .transactionAbort) (by simp) (by simp) events
    simpa [and_assoc] using h
  · intro hnone
    rcases receive_cases options none events with
      ⟨response, frames, rest, hframes, -, havail⟩ | hfail | hfail
    · refine absurd ⟨response, available rest, ?_⟩ hnone
      rw [Response.bytes, hframes]
      exact havail.symm
    · exact .inl hfail
    · exact .inr hfail
  · rintro response ⟨more, havail⟩
    obtain ⟨rest, hrun, hrest⟩ := receive_of_response options response havail.symm
    rw [hrun, ← havail, hrest]

/-- The request of a session that shows its tables is sent, and the theorem applies to every stream
that may follow it. -/
theorem execStreamResult_accepts_show :
    sendRequest true (text "SHOW TABLES;") ⟨[], [], []⟩ =
        (.ok (), ⟨[], (Frame.mk kTagExecStream 0 (text "SHOW TABLES;")).bytes, []⟩) ∧
      (execStreamResult true (text "SHOW TABLES;") {} ⟨[], [], []⟩
        [.chunk 0 [0, 0, 0, 0x10, 0], .interrupted, .chunk 0 [0]]).1.result.status =
      .commandOk := by
  have hsent : sendRequest true (text "SHOW TABLES;") ⟨[], [], []⟩ =
      (.ok (), ⟨[], (Frame.mk kTagExecStream 0 (text "SHOW TABLES;")).bytes, []⟩) := by
    rfl
  refine ⟨hsent, ?_⟩
  have h := execStreamResult_accepts hsent {}
    [.chunk 0 [0, 0, 0, 0x10, 0], .interrupted, .chunk 0 [0]]
  exact h.1.mpr ⟨[], rfl⟩

end Rucbase.Wire
