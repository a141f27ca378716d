import Rucbase.Net.Accept
import Rucbase.Server.Send

/-!
# The server sends responses

Whatever the sending code does, what it leaves in the stream is (`SendSpec`) a whole response when
it returns true, a strict part of one when it returns false, and the frames of a table, or nothing,
when an exception leaves it. The two rules `sendSpec_last` and `sendSpec_more` follow the frames of
a response in order.

With the client's side this gives the round trip: `sendStatementResult_received`.
-/

namespace Rucbase.Server

open Lib Wire

/-- The bytes of a table, if there is one. -/
def tableBytes (pos : Option ResultTable) : Bytes := (tableFrames pos).flatMap Frame.bytes

/-- What the sending code leaves behind `base`, and how it ends; a response that is sent whole is
one of those accepted. -/
def SendSpec (base : Bytes) (accept : Response → Prop) : Sent × Sink → Prop
  | (.returned true, sink) =>
    ∃ response, accept response ∧ sink.written = base ++ response.bytes
  | (.returned false, sink) =>
    ∃ (response : Response) (front : Bytes), sink.written = base ++ front ∧
      front <+: response.bytes ∧ front ≠ response.bytes
  | (.threw _, sink) => ∃ pos, sink.written = base ++ tableBytes pos

@[simp]
theorem tableBytes_none : tableBytes none = [] := rfl

section Rules

variable {base : Bytes} {accept : Response → Prop} {faults : Faults} {n : ℕ}
variable (pos : Option ResultTable) {sink : Sink}

/-- The frames of a table are a strict part of the result set that they begin. -/
theorem tableBytes_cut (table : ResultTable) :
    tableBytes (some table) <+: (Response.resultSet table).bytes ∧
      tableBytes (some table) ≠ (Response.resultSet table).bytes := by
  have hbytes : (Response.resultSet table).bytes =
      tableBytes (some table) ++ (endFrame table.rows.length).bytes := by
    simp [Response.bytes, Response.frames, tableBytes, tableFrames]
  rw [hbytes]
  refine ⟨List.prefix_append _ _, fun heq => ?_⟩
  exact (endFrame table.rows.length).bytes_ne_nil (List.self_eq_append_right.mp heq)

/-- The frame that ends a response. -/
theorem sendSpec_last (response : Response) (frame : Frame)
    (hframes : response.frames = tableFrames pos ++ [frame]) (haccept : accept response)
    (hsink : sink.written = base ++ tableBytes pos) :
    SendSpec base accept (sendFrame faults n frame.tag frame.flags frame.payload sink) := by
  have hbytes : response.bytes = tableBytes pos ++ frame.bytes := by
    rw [Response.bytes, hframes, List.flatMap_append, List.flatMap_singleton]
    rfl
  unfold sendFrame
  split
  · exact ⟨pos, hsink⟩
  dsimp only
  cases hwrite : writeFrame frame.tag frame.flags frame.payload sink with
  | mk ok sink' =>
    cases ok with
    | true =>
      obtain ⟨-, hwritten⟩ := writeFrame_eq_true hwrite
      exact ⟨response, haccept, by rw [hwritten, hsink, hbytes, List.append_assoc]⟩
    | false =>
      obtain ⟨front, hwritten, hcut, hne⟩ := writeFrame_eq_false hwrite
      refine ⟨response, tableBytes pos ++ front, ?_, ?_, ?_⟩
      · rw [hwritten, hsink, List.append_assoc]
      · rw [hbytes]
        exact (List.prefix_append_right_inj _).mpr hcut
      · rw [hbytes]
        exact fun heq => hne (List.append_cancel_left heq)

/-- A frame that adds to the table, and what is sent after it. -/
theorem sendSpec_more (table : ResultTable) (frame : Frame) {next : Sink → Sent × Sink}
    (hframes : table.frames = tableFrames pos ++ [frame])
    (hsink : sink.written = base ++ tableBytes pos)
    (hnext : ∀ sink' : Sink, sink'.written = base ++ tableBytes (some table) →
      SendSpec base accept (next sink')) :
    SendSpec base accept
      (andThen (sendFrame faults n frame.tag frame.flags frame.payload sink) next) := by
  have hbytes : tableBytes (some table) = tableBytes pos ++ frame.bytes := by
    rw [tableBytes, tableFrames, hframes, List.flatMap_append, List.flatMap_singleton]
    rfl
  obtain ⟨hcut, -⟩ := tableBytes_cut table
  unfold sendFrame
  split
  · exact ⟨pos, hsink⟩
  dsimp only
  cases hwrite : writeFrame frame.tag frame.flags frame.payload sink with
  | mk ok sink' =>
    cases ok with
    | true =>
      obtain ⟨-, hwritten⟩ := writeFrame_eq_true hwrite
      exact hnext sink' (by rw [hwritten, hsink, hbytes, List.append_assoc])
    | false =>
      obtain ⟨front, hwritten, hfront, hne⟩ := writeFrame_eq_false hwrite
      have hstrict : tableBytes pos ++ front <+: tableBytes (some table) := by
        rw [hbytes]
        exact (List.prefix_append_right_inj _).mpr hfront
      refine ⟨.resultSet table, tableBytes pos ++ front, ?_, hstrict.trans hcut, ?_⟩
      · rw [hwritten, hsink, List.append_assoc]
      · -- The whole response is longer than the table, which is longer than what was written.
        intro heq
        have hback : tableBytes (some table) <+: tableBytes pos ++ front := by
          rw [heq]
          exact hcut
        have hwhole := hstrict.eq_of_length (le_antisymm hstrict.length_le hback.length_le)
        rw [hbytes] at hwhole
        exact hne (List.append_cancel_left hwhole)

/-- A table that is left without its end. -/
theorem sendSpec_stop (table : ResultTable)
    (hsink : sink.written = base ++ tableBytes (some table)) :
    SendSpec base accept (.returned false, sink) := by
  obtain ⟨hcut, hne⟩ := tableBytes_cut table
  exact ⟨.resultSet table, tableBytes (some table), hsink, hcut, hne⟩

end Rules

/-! ## Errors -/

theorem length_errorPayload (diagnostic : Bytes) :
    (errorPayload diagnostic).length ≤ kMaxDiagnosticBytes := by
  unfold errorPayload
  dsimp only
  split_ifs with hlast hlong hlong
  · rw [List.length_take]
    exact min_le_left _ _
  · exact Nat.not_lt.mp hlong
  · rw [List.length_take]
    exact min_le_left _ _
  · exact Nat.not_lt.mp hlong

/-- The failure that `send_error` sends. -/
def errorFailure (diagnostic : Bytes) : Failure :=
  ⟨.error, errorPayload diagnostic, length_errorPayload diagnostic⟩

variable {accept : Response → Prop} {base : Bytes} {sink : Sink} {columns : List WireResultColumn}
  {row : List WireResultCell} {result : WireResultSet}

/-- An ERROR frame ends a response wherever it comes. -/
theorem sendError_spec (pos : Option ResultTable) (faults : Faults) (n : ℕ) (diagnostic : Bytes)
    (haccept : accept (.failure pos (errorFailure diagnostic)))
    (hsink : sink.written = base ++ tableBytes pos) :
    SendSpec base accept (sendError faults n diagnostic sink) :=
  sendSpec_last pos (.failure pos (errorFailure diagnostic)) (errorFailure diagnostic).frame rfl
    haccept hsink

/-! ## Rows -/

/-- A cell of a result and the cell that the client gets for it: the same type, and the same value
in the field that the type selects. -/
def SameCell (cell : WireResultCell) (sent : Cell) : Prop :=
  sent.isNull = false ∧ sent.sqlType = colTypeToWire cell.type ∧
    match cell.type with
    | .int => sent.intVal = cell.intVal
    | .float => sent.floatVal = cell.floatVal
    | .string => sent.strVal = cell.strVal

/-- The cells that the client gets for a row. -/
def sentRow (columns : List WireResultColumn) (row : List WireResultCell) : List Cell :=
  (rowCells (wireColumns columns) row).map Cell.canonical

theorem sameCell_canonical (cell : WireResultCell) :
    SameCell cell
      (Cell.canonical { sqlType := colTypeToWire cell.type, intVal := cell.intVal,
                        floatVal := cell.floatVal, strVal := cell.strVal }) := by
  obtain ⟨type, intVal, floatVal, strVal⟩ := cell
  have hfloatInt : kTypeFloat32 ≠ kTypeInt32 := by decide
  have hcharInt : kTypeChar ≠ kTypeInt32 := by decide
  have hcharFloat : kTypeChar ≠ kTypeFloat32 := by decide
  cases type with
  | int => simp [SameCell, Cell.canonical, colTypeToWire]
  | float => simp [SameCell, Cell.canonical, colTypeToWire, hfloatInt]
  | string => simp [SameCell, Cell.canonical, colTypeToWire, hcharInt, hcharFloat]

/-- A row that passed the check is sent cell by cell. -/
theorem sameCell_sentRow (h : row.map WireResultCell.type = columns.map WireResultColumn.type) :
    List.Forall₂ SameCell row (sentRow columns row) := by
  induction row generalizing columns with
  | nil => simp [sentRow, rowCells]
  | cons cell row ih =>
    obtain ⟨column, columns, rfl⟩ : ∃ column columns', columns = column :: columns' := by
      cases columns with
      | nil => simp at h
      | cons column columns => exact ⟨column, columns, rfl⟩
    rw [List.map_cons, List.map_cons, List.cons.injEq] at h
    refine .cons ?_ (ih h.2)
    have hcell := sameCell_canonical cell
    rw [h.1] at hcell
    exact hcell

theorem cellsOf_rowCells {columns : List ColumnDef} (hlen : row.length = columns.length)
    (h : ∀ cell ∈ rowCells columns row, cell.canonical.Canonical) :
    CellsOf columns ((rowCells columns row).map Cell.canonical) := by
  induction columns generalizing row with
  | nil => simp [CellsOf, rowCells]
  | cons column columns ih =>
    obtain ⟨cell, row, rfl⟩ := List.exists_cons_of_length_eq_add_one hlen
    obtain ⟨hcell, hcells⟩ := List.forall_mem_cons.mp h
    exact .cons ⟨Cell.sqlType_canonical _, hcell⟩ (ih (by simpa using hlen) hcells)

/-- A row that can be encoded fits the columns. -/
theorem rowFits_sentRow {payload : Bytes} (hlen : row.length = columns.length)
    (h : encodedRow (rowCells (wireColumns columns) row) = .ok payload) :
    RowFits (wireColumns columns) (sentRow columns row) ∧
      payload = (sentRow columns row).flatMap cellBytes := by
  obtain ⟨-, hknown, rfl, hle⟩ := encodedRow_eq_ok.mp h
  have hcells := canonical_of_row_fits hknown hle
  have hlen' : row.length = (wireColumns columns).length := by
    rw [wireColumns, List.length_map, hlen]
  rw [← flatMap_cellBytes_canonical] at hle ⊢
  exact ⟨⟨cellsOf_rowCells hlen' hcells, hle⟩, rfl⟩

theorem andThen_assoc (first : Sent × Sink) (next last : Sink → Sent × Sink) :
    andThen (andThen first next) last = andThen first fun sink => andThen (next sink) last := by
  match first with
  | (.returned true, sink) => rfl
  | (.returned false, sink) => rfl
  | (.threw what, sink) => rfl

/-- The loop over the rows adds them to the table, one after the other. -/
theorem sendRows_spec {faults : Faults} {rows : List (List WireResultCell)}
    (hlen : ∀ row ∈ rows, row.length = columns.length) {next : Sink → Sent × Sink} {n : ℕ}
    {table : ResultTable} (hcolumns : table.columns = wireColumns columns)
    (hsink : sink.written = base ++ tableBytes (some table))
    (hnext : ∀ (sink' : Sink) (table' : ResultTable), table'.rawText = table.rawText →
      table'.columns = table.columns → table'.rows = table.rows ++ rows.map (sentRow columns) →
      sink'.written = base ++ tableBytes (some table') → SendSpec base accept (next sink')) :
    SendSpec base accept (andThen (sendRows faults (wireColumns columns) n rows sink) next) := by
  induction rows generalizing n sink table with
  | nil => exact hnext sink table rfl rfl (by simp) hsink
  | cons row rows ih =>
    obtain ⟨hrow, hrows⟩ := List.forall_mem_cons.mp hlen
    unfold sendRows
    split
    · exact ⟨some table, hsink⟩
    · exact sendSpec_stop table hsink
    rename_i payload _ hencode
    obtain ⟨hfits, rfl⟩ := rowFits_sentRow hrow hencode
    rw [← hcolumns] at hfits
    rw [andThen_assoc]
    refine sendSpec_more (some table) (table.snoc _ hfits) (rowFrame (sentRow columns row))
      (table.frames_snoc _ hfits) hsink fun sink' hsink' => ?_
    have hsnoc : (table.snoc _ hfits).columns = wireColumns columns := hcolumns
    refine ih hrows hsnoc hsink' fun sink'' table' hraw hcols hrows' hsink'' => ?_
    refine hnext sink'' table' hraw hcols ?_ hsink''
    have hrows'' :
        table'.rows = (table.rows ++ [sentRow columns row]) ++ rows.map (sentRow columns) := hrows'
    rw [hrows'', List.map_cons, List.append_assoc, List.singleton_append]

/-! ## Results -/

/-- The checks before META. -/
def preMeta (result : WireResultSet) : Except Bytes Unit :=
  if result.rawText then (rawTextPayloads result).map fun _ => ()
  else (queryMeta result).map fun _ => ()

/-- The response that a result is answered with. -/
def Answers (result : WireResultSet) : Response → Prop
  | .commandOk => result.hasQueryResult = false
  | .failure none failed =>
    result.hasQueryResult = true ∧
      ∃ diagnostic, preMeta result = .error diagnostic ∧ failed = errorFailure diagnostic
  | .failure (some _) _ => False
  | .resultSet table =>
    result.hasQueryResult = true ∧ preMeta result = .ok () ∧ table.rawText = result.rawText ∧
      table.columns = wireColumns result.columns ∧
      List.Forall₂ (List.Forall₂ SameCell) result.rows table.rows

theorem checkRow_eq_ok (h : checkRow columns row = .ok ()) :
    row.length = columns.length ∧
      row.map WireResultCell.type = columns.map WireResultColumn.type := by
  obtain ⟨_, hlen, htypes⟩ := bind_eq_ok.mp h
  rw [throwIf_eq_ok, not_not] at hlen htypes
  exact ⟨hlen, htypes⟩

/-- A query result is answered as `Answers` says. -/
theorem sendQueryResult_spec (faults : Faults) (hquery : result.hasQueryResult = true)
    (hraw : result.rawText = false) (hsink : sink.written = base) :
    SendSpec base (Answers result) (sendQueryResult faults result sink) := by
  have hbase : sink.written = base ++ tableBytes none := by simp [hsink]
  unfold sendQueryResult
  split
  · rename_i diagnostic hmeta
    refine sendError_spec none faults 0 diagnostic ⟨hquery, diagnostic, ?_, rfl⟩ hbase
    rw [preMeta, if_neg (by simp [hraw]), hmeta]
    rfl
  · rename_i payload hmeta
    have hpre : preMeta result = .ok () := by
      rw [preMeta, if_neg (by simp [hraw]), hmeta]
      rfl
    obtain ⟨_, hrows, hencode⟩ := bind_eq_ok.mp hmeta
    obtain ⟨hvalid, rfl, hle⟩ := encodedMeta_eq_ok.mp hencode
    have hcheck := fun row hmem => checkRow_eq_ok (forM_eq_ok.mp hrows row hmem)
    let table : ResultTable :=
      ⟨false, wireColumns result.columns, [], hvalid, hle, by simp, by simp⟩
    refine sendSpec_more none table (metaFrame false (wireColumns result.columns)) rfl hbase
      fun sink' hsink' => ?_
    refine sendRows_spec (fun row hmem => (hcheck row hmem).1) rfl hsink'
      fun sink'' table' hraw' hcols hrows' hsink'' => ?_
    have hrows'' : table'.rows = result.rows.map (sentRow result.columns) := hrows'
    have hend : encodeResultEnd result.rows.length = beBytes 8 table'.rows.length := by
      rw [encodeResultEnd_eq, hrows'', List.length_map]
    rw [hend]
    refine sendSpec_last (some table') (.resultSet table') (endFrame table'.rows.length) rfl
      ⟨hquery, hpre, by rw [hraw', hraw], hcols, ?_⟩ hsink''
    rw [hrows'', List.forall₂_map_right_iff, List.forall₂_same]
    exact fun row hmem => sameCell_sentRow (hcheck row hmem).2

/-! ## Raw text -/

theorem metaSize_avoids (columns : List ColumnDef) (size : ℕ) :
    Avoids [] (metaSize columns size) := by
  induction columns generalizing size with
  | nil => trivial
  | cons column columns ih =>
    refine (ends_throwIf (by decide)).bind fun _ _ _ => ?_
    refine (ends_throwIf (by decide)).bind fun _ _ _ => ?_
    exact (ends_throwIf (by decide)).bind fun _ _ _ => ih _

theorem rowSize_avoids (cells : List Cell) (size : ℕ) : Avoids [] (rowSize cells size) := by
  induction cells generalizing size with
  | nil => trivial
  | cons cell cells ih =>
    refine (ends_throwIf (by decide)).bind fun _ _ _ => ?_
    refine (ends_throwIf (by decide)).bind fun _ _ _ => ?_
    exact (ends_throwIf (by decide)).bind fun _ _ _ => ih _

/-- Every diagnostic of the checks has a text. -/
theorem rawTextPayloads_avoids (result : WireResultSet) : Avoids [] (rawTextPayloads result) := by
  unfold rawTextPayloads
  split
  · refine Ends.bind (P := fun _ => True) ?_ fun _ _ _ =>
      Ends.bind (P := fun _ => True) ?_ fun _ _ _ => trivial
    · exact (ends_throwIf (by decide)).bind fun _ _ _ =>
        (metaSize_avoids _ _).bind fun _ _ _ => trivial
    · exact (ends_throwIf (by decide)).bind fun _ _ _ =>
        (rowSize_avoids _ _).bind fun _ _ _ => trivial
  · exact ends_throw.mpr (by decide)

/-- A raw text result is one CHAR cell. -/
theorem rawTextPayloads_eq_ok {metaPayload rowPayload : Bytes}
    (h : rawTextPayloads result = .ok (metaPayload, rowPayload)) :
    ∃ column cell, result.columns = [column] ∧ result.rows = [[cell]] ∧
      encodedMeta [{ name := column.name, sqlType := kTypeChar }] = .ok metaPayload ∧
      encodedRow [{ sqlType := kTypeChar, strVal := cell.strVal }] = .ok rowPayload := by
  unfold rawTextPayloads at h
  split at h
  · rename_i column cell hcolumns hrows
    obtain ⟨m, hmeta, h⟩ := bind_eq_ok.mp h
    obtain ⟨r, hrow, h⟩ := bind_eq_ok.mp h
    rw [pure_eq_ok, Prod.mk.injEq] at h
    obtain ⟨rfl, rfl⟩ := h
    exact ⟨column, cell, hcolumns, hrows, hmeta, hrow⟩
  · exact absurd h (throw_ne_ok _ _)

/-- A raw text result is sent as a table of one CHAR cell, or refused. -/
theorem sendRawTextResult_spec (faults : Faults) (hsink : sink.written = base)
    (herror : ∀ diagnostic, rawTextPayloads result = .error diagnostic →
      accept (.failure none (errorFailure diagnostic)))
    (hok : ∀ (table : ResultTable) (column : WireResultColumn) (cell : WireResultCell),
      result.columns = [column] → result.rows = [[cell]] → table.rawText = true →
      table.columns = [{ name := column.name, sqlType := kTypeChar }] →
      table.rows = [[{ sqlType := kTypeChar, strVal := cell.strVal }]] →
      (∃ payloads, rawTextPayloads result = .ok payloads) → accept (.resultSet table)) :
    SendSpec base accept (sendRawTextResult faults result sink) := by
  have hbase : sink.written = base ++ tableBytes none := by simp [hsink]
  unfold sendRawTextResult
  split
  · rename_i diagnostic hpayloads
    have hne : diagnostic ≠ [] := by
      rintro rfl
      exact (rawTextPayloads_avoids result).of_error hpayloads rfl
    rw [if_neg hne]
    exact sendError_spec none faults 0 diagnostic (herror diagnostic hpayloads) hbase
  · rename_i metaPayload rowPayload hpayloads
    obtain ⟨column, cell, hcolumns, hrows, hmeta, hrow⟩ := rawTextPayloads_eq_ok hpayloads
    obtain ⟨hvalid, rfl, hle⟩ := encodedMeta_eq_ok.mp hmeta
    obtain ⟨-, hknown, rfl, hrowle⟩ := encodedRow_eq_ok.mp hrow
    have hcells := canonical_of_row_fits hknown hrowle
    let columns : List ColumnDef := [{ name := column.name, sqlType := kTypeChar }]
    let row : List Cell := [{ sqlType := kTypeChar, strVal := cell.strVal }]
    let table : ResultTable := ⟨true, columns, [], hvalid, hle, fun _ => rfl, by simp⟩
    have hfits : RowFits columns row :=
      ⟨.cons ⟨rfl, hcells _ List.mem_cons_self⟩ .nil, hrowle⟩
    refine sendSpec_more none table (metaFrame true columns) rfl hbase fun sink' hsink' => ?_
    refine sendSpec_more (some table) (table.snoc row hfits) (rowFrame row)
      (table.frames_snoc row hfits) hsink' fun sink'' hsink'' => ?_
    refine sendSpec_last (some (table.snoc row hfits)) (.resultSet (table.snoc row hfits))
      (endFrame 1) rfl ?_ hsink''
    exact hok _ column cell hcolumns hrows rfl rfl rfl ⟨_, hpayloads⟩

/-! ## Results of the builder -/

/-- What the operations of the builder keep: a raw text result begins with its CHAR cell, and the
rows are accounted for. -/
structure Built (result : WireResultSet) : Prop where
  raw_text : result.rawText = true → result.columns = [] ∨
    ∃ name txt rows, result.columns = [⟨name, .string⟩] ∧ result.rows = [{ strVal := txt }] :: rows
  rows_le : result.rows.length ≤ result.bufferedBytes
  buffered_le : result.bufferedBytes ≤ WireResultSet.kMaxBufferedBytes

theorem tryAccount_eq_some {result' : WireResultSet} {bytes : ℕ}
    (h : result.tryAccount bytes = some result') :
    result' = { result with bufferedBytes := result.bufferedBytes + bytes } ∧
      result.bufferedBytes + bytes ≤ WireResultSet.kMaxBufferedBytes := by
  unfold WireResultSet.tryAccount at h
  split_ifs at h with hfull
  obtain rfl := Option.some.inj h
  exact ⟨rfl, by omega⟩

theorem built_run (h : Built result) (op : QueryResultBuilder.Op) : Built (op.run result) := by
  cases op with
  | resetQuery => exact ⟨by simp [QueryResultBuilder.Op.run], by simp [QueryResultBuilder.Op.run],
      by simp [QueryResultBuilder.Op.run]⟩
  | setColumns columns =>
    simp only [QueryResultBuilder.Op.run, QueryResultBuilder.setColumns]
    split
    · exact ⟨by simp, by simp, by simp⟩
    · rename_i result' haccount
      obtain ⟨rfl, hle⟩ := tryAccount_eq_some haccount
      exact ⟨by simp, by simp, hle⟩
  | setRawText columnName txt =>
    simp only [QueryResultBuilder.Op.run, QueryResultBuilder.setRawText]
    split_ifs with hlong
    · exact h
    split
    · exact ⟨by simp, by simp, by simp⟩
    · rename_i result' haccount
      obtain ⟨rfl, hle⟩ := tryAccount_eq_some haccount
      refine ⟨fun _ => .inr ⟨columnName, txt, [], rfl, rfl⟩, ?_, hle⟩
      simp only [List.length_singleton, QueryResultBuilder.sizeofColumn]
      omega
  | addRow row =>
    simp only [QueryResultBuilder.Op.run, QueryResultBuilder.addRow]
    split
    · exact h
    · rename_i result' haccount
      obtain ⟨rfl, hle⟩ := tryAccount_eq_some haccount
      refine ⟨fun hraw => ?_, ?_, hle⟩
      · rcases h.raw_text hraw with hnone | ⟨name, txt, rows, hcolumns, hrows⟩
        · exact .inl hnone
        · exact .inr ⟨name, txt, rows ++ [row], hcolumns, by simp [hrows]⟩
      · have hrows := h.rows_le
        simp only [List.length_append, List.length_singleton, QueryResultBuilder.sizeofRow]
        omega

/-- Every result of the builder is as `Built` says. -/
theorem built_build (ops : List QueryResultBuilder.Op) : Built (QueryResultBuilder.build ops) := by
  unfold QueryResultBuilder.build
  induction ops using List.reverseRecOn with
  | nil => exact ⟨by simp, by simp, by simp⟩
  | append_singleton ops op ih =>
    rw [List.foldl_append]
    exact built_run ih op

/-- A result of the builder is answered as `Answers` says. -/
theorem sendStatementResult_spec (faults : Faults) (hbuilt : Built result)
    (hsink : sink.written = base) :
    SendSpec base (Answers result) (sendStatementResult faults result sink) := by
  unfold sendStatementResult
  split_ifs with hraw hquery
  · refine sendRawTextResult_spec faults hsink ?_ ?_
    · intro diagnostic hpayloads
      refine ⟨hraw.1, diagnostic, ?_, rfl⟩
      rw [preMeta, if_pos hraw.2, hpayloads]
      rfl
    · intro table column cell hcolumns hrows htext htcols htrows ⟨payloads, hpayloads⟩
      -- The builder has put the one CHAR column and cell there.
      obtain ⟨name, txt, rfl, rfl⟩ : ∃ name txt, column = ⟨name, .string⟩ ∧
          cell = { strVal := txt } := by
        rcases hbuilt.raw_text hraw.2 with hnone | ⟨name, txt, rows, hcols, hfirst⟩
        · simp [hcolumns] at hnone
        · rw [hcolumns] at hcols
          rw [hrows] at hfirst
          simp only [List.cons.injEq, and_true] at hcols hfirst
          exact ⟨name, txt, hcols, hfirst.1⟩
      refine ⟨hraw.1, ?_, htext.trans hraw.2.symm, ?_, ?_⟩
      · rw [preMeta, if_pos hraw.2, hpayloads]
        rfl
      · rw [htcols, hcolumns]
        rfl
      · rw [htrows, hrows]
        exact .cons (.cons ⟨rfl, rfl, rfl⟩ .nil) .nil
  · exact sendQueryResult_spec faults hquery (by simpa [hquery] using hraw) hsink
  · have hnone : result.hasQueryResult = false := by simpa using hquery
    exact sendSpec_last none .commandOk ⟨kTagCommandOk, 0, []⟩ rfl hnone (by simp [hsink])

end Rucbase.Server
