import Rucbase.Net.Codec

/-!
# The decoders accept what the encoders spell

A reader is exact for a spelling when it reads a value exactly where the spelling of that value
begins, and leaves what follows it (`Exact`). The readers of integers, strings, columns and cells
are exact, one after the other, and so META and ROW payloads have one spelling each:
`decodeMeta_eq_ok` and `decodeRow_eq_ok` hold in both directions.
-/

namespace Rucbase.Wire

open Lib

/-- The reader takes a valid value off the front of a buffer exactly when the buffer begins with its
spelling. -/
def Exact {α : Type} (read : Bytes → Option (α × Bytes)) (spell : α → Bytes) (valid : α → Prop) :
    Prop :=
  ∀ buf a rest, read buf = some (a, rest) ↔ valid a ∧ buf = spell a ++ rest

/-! ## Integers and strings -/

theorem exact_readU8 : Exact readU8 (fun b => [b]) fun _ => True := by
  intro buf b rest
  cases buf with
  | nil => simp [readU8]
  | cons b' buf => simp [readU8]

theorem exact_readUInt (k : ℕ) : Exact (readUInt k) (beBytes k) (· < 256 ^ k) := by
  intro buf n rest
  unfold readUInt
  constructor
  · intro h
    split_ifs at h with hlen
    simp only [Option.some.injEq, Prod.mk.injEq] at h
    obtain ⟨rfl, rfl⟩ := h
    have htake : (buf.take k).length = k := by
      rw [List.length_take]
      omega
    have hlt := beNat_lt (buf.take k)
    have hspell := beBytes_beNat (buf.take k)
    rw [htake] at hlt hspell
    exact ⟨hlt, by rw [hspell, List.take_append_drop]⟩
  · rintro ⟨hlt, rfl⟩
    have hlen : ¬ (beBytes k n ++ rest).length < k := by
      rw [List.length_append, length_beBytes]
      omega
    rw [if_neg hlen, List.take_left' (length_beBytes k n), List.drop_left' (length_beBytes k n),
      beNat_beBytes hlt]

theorem exact_readBytes (n : ℕ) : Exact (readBytes n) id (·.length = n) := by
  intro buf bytes rest
  unfold readBytes
  constructor
  · intro h
    split_ifs at h with hlen
    simp only [Option.some.injEq, Prod.mk.injEq] at h
    obtain ⟨rfl, rfl⟩ := h
    have htake : (buf.take n).length = n := by
      rw [List.length_take]
      omega
    exact ⟨htake, (List.take_append_drop n buf).symm⟩
  · rintro ⟨hlen, rfl⟩
    have hnot : ¬ (id bytes ++ rest).length < n := by
      rw [List.length_append, id, hlen]
      omega
    rw [if_neg hnot, id, List.take_left' hlen, List.drop_left' hlen]

variable {n : ℕ} {payload : Bytes} {columns : List ColumnDef} {cell : Cell} {cells : List Cell}

theorem readUInt_beBytes {k : ℕ} (h : n < 256 ^ k) (rest : Bytes) :
    readUInt k (beBytes k n ++ rest) = some (n, rest) :=
  (exact_readUInt k _ _ _).mpr ⟨h, rfl⟩

theorem readBytes_append (bytes rest : Bytes) :
    readBytes bytes.length (bytes ++ rest) = some (bytes, rest) :=
  (exact_readBytes _ _ _ _).mpr ⟨rfl, rfl⟩

/-- The two halves of a row count are its eight bytes. -/
theorem encodeResultEnd_eq (rowCount : ℕ) : encodeResultEnd rowCount = beBytes 8 rowCount := by
  rw [encodeResultEnd, beBytes_add 4 4]
  norm_num

/-- Reading two halves of four bytes is reading eight bytes. -/
theorem readU64_eq (buf : Bytes) : readU64 buf = readUInt 8 buf := by
  unfold readU64 readU32 readUInt
  by_cases h4 : buf.length < 4
  · simp only [h4, if_true, show buf.length < 8 by omega]
  by_cases h8 : buf.length < 8
  · simp only [h4, if_false, h8, if_true, List.length_drop, show buf.length - 4 < 4 by omega]
  have htake : buf.take 8 = buf.take 4 ++ (buf.drop 4).take 4 :=
    List.take_add (i := 4) (j := 4)
  have hlow : ((buf.drop 4).take 4).length = 4 := by
    rw [List.length_take, List.length_drop]
    omega
  simp only [h4, h8, if_false, List.length_drop, show ¬ buf.length - 4 < 4 by omega,
    List.drop_drop, htake, beNat_append, hlow]
  norm_num

theorem exact_readU64 : Exact readU64 (beBytes 8) (· < 256 ^ 8) := by
  intro buf n rest
  rw [readU64_eq]
  exact exact_readUInt 8 buf n rest

/-- The RESULT_END payload of a row count is its eight bytes. -/
theorem decodeResultEnd_eq_some :
    decodeResultEnd payload = some n ↔ n < 2 ^ 64 ∧ payload = beBytes 8 n := by
  have hexact := exact_readU64 payload n []
  rw [List.append_nil, show (256 : ℕ) ^ 8 = 2 ^ 64 by norm_num] at hexact
  rw [← hexact]
  unfold decodeResultEnd
  split
  · rename_i declared hread
    simp [hread]
  · rename_i hread
    constructor
    · simp
    · exact fun h => absurd h (hread n)

/-! ## META -/

/-- A column that META can carry. -/
structure ColumnDef.Valid (column : ColumnDef) : Prop where
  name_ne : column.name ≠ []
  name_lt : column.name.length < 65536
  known : isKnownSqlType column.sqlType = true

/-- Columns that META can carry. -/
structure ValidColumns (columns : List ColumnDef) : Prop where
  ne : columns ≠ []
  lt : columns.length < 65536
  valid : ∀ column ∈ columns, column.Valid

/-- The loop over the columns reads the spellings of as many valid columns as it is told. -/
theorem decodeColumns_eq_ok {buf rest : Bytes} {columns' : List ColumnDef} :
    decodeColumns n buf columns = .ok (columns', rest) ↔
      ∃ decoded : List ColumnDef, columns' = columns ++ decoded ∧ decoded.length = n ∧
        (∀ column ∈ decoded, column.Valid) ∧ buf = decoded.flatMap columnBytes ++ rest := by
  induction n generalizing buf columns with
  | zero =>
    rw [decodeColumns, pure_eq_ok, Prod.mk.injEq]
    constructor
    · rintro ⟨rfl, rfl⟩
      exact ⟨[], by simp, rfl, by simp, by simp⟩
    · rintro ⟨decoded, rfl, hlen, -, rfl⟩
      simp [List.eq_nil_of_length_eq_zero hlen]
  | succ n ih =>
    unfold decodeColumns
    constructor
    · intro h
      -- Each read that succeeded spells its value; the rest is the loop's next round.
      split at h
      · simp at h
      rename_i nameSize buf₁ hsize
      split_ifs at h with hzero
      split at h
      · simp at h
      rename_i name buf₂ hname
      split at h
      · simp at h
      rename_i sqlType buf₃ htype
      split_ifs at h with hknown
      · obtain ⟨hlt, rfl⟩ := (exact_readUInt 2 _ _ _).mp hsize
        obtain ⟨hlen, rfl⟩ := (exact_readBytes _ _ _ _).mp hname
        obtain ⟨-, rfl⟩ := (exact_readU8 _ _ _).mp htype
        obtain ⟨decoded, rfl, hcount, hvalid, rfl⟩ := ih.mp h
        have hvalid' : (ColumnDef.mk name sqlType).Valid := by
          refine ⟨?_, ?_, hknown⟩
          · rintro rfl
            exact hzero hlen.symm
          · rw [hlen]
            exact hlt
        refine ⟨⟨name, sqlType⟩ :: decoded, by simp, by simp [hcount], ?_, ?_⟩
        · exact List.forall_mem_cons.mpr ⟨hvalid', hvalid⟩
        · simp [columnBytes, hlen]
    · rintro ⟨decoded, rfl, hlen, hvalid, rfl⟩
      obtain ⟨column, decoded, rfl⟩ := List.exists_cons_of_length_eq_add_one hlen
      obtain ⟨hcolumn, hvalid⟩ := List.forall_mem_cons.mp hvalid
      have hbuf : (column :: decoded).flatMap columnBytes ++ rest =
          beBytes 2 column.name.length ++ (column.name ++ ([column.sqlType] ++
            (decoded.flatMap columnBytes ++ rest))) := by
        simp [columnBytes]
      have hne : column.name.length ≠ 0 := by simpa using hcolumn.name_ne
      have hrest : decodeColumns n (decoded.flatMap columnBytes ++ rest) (columns ++ [column]) =
          .ok (columns ++ column :: decoded, rest) :=
        ih.mpr ⟨decoded, by simp, by simpa using hlen, hvalid, rfl⟩
      rw [hbuf]
      simp only [readU16, readUInt_beBytes (k := 2) hcolumn.name_lt, hne, if_false,
        readBytes_append, readU8, List.cons_append, List.nil_append, hcolumn.known, if_true]
      exact hrest

/-- A META payload is accepted exactly when it is the spelling of the columns it is decoded to. -/
theorem decodeMeta_eq_ok :
    decodeMeta payload = .ok columns ↔ ValidColumns columns ∧ payload = metaBytes columns := by
  unfold decodeMeta
  constructor
  · intro h
    split at h
    · simp at h
    rename_i count buf hcount
    split_ifs at h with hzero
    obtain ⟨⟨decoded, rest⟩, hdecode, h'⟩ := bind_eq_ok.mp h
    obtain ⟨_, htrail, hpure⟩ := bind_eq_ok.mp h'
    rw [throwIf_eq_ok, not_not] at htrail
    rw [pure_eq_ok] at hpure
    obtain ⟨hlt, rfl⟩ := (exact_readUInt 2 _ _ _).mp hcount
    obtain ⟨columns', hcolumns, hlen, hvalid, rfl⟩ := decodeColumns_eq_ok.mp hdecode
    rw [List.nil_append] at hcolumns
    subst htrail hcolumns hpure
    refine ⟨⟨?_, by rw [hlen]; exact hlt, hvalid⟩, by rw [metaBytes, hlen, List.append_nil]⟩
    rintro rfl
    exact hzero hlen.symm
  · rintro ⟨hvalid, rfl⟩
    have hzero : columns.length ≠ 0 := by simpa using hvalid.ne
    have hdecode : decodeColumns columns.length (columns.flatMap columnBytes) [] =
        .ok (columns, []) :=
      decodeColumns_eq_ok.mpr ⟨columns, rfl, rfl, hvalid.valid, by simp⟩
    simp only [readU16, metaBytes, readUInt_beBytes (k := 2) hvalid.lt, hzero, if_false, hdecode,
      ok_bind]
    rfl

theorem length_columnBytes (column : ColumnDef) :
    (columnBytes column).length = 2 + column.name.length + 1 := by
  simp [columnBytes]
  omega

/-- The first loop of `TryEncodeMeta` accepts valid columns whose spellings fit the limit, and adds
up the sizes of the spellings. -/
theorem metaSize_eq_ok {size size' : ℕ} (hle : size ≤ kMaxPayloadBytes) :
    metaSize columns size = .ok size' ↔
      (∀ column ∈ columns, column.Valid) ∧ size' ≤ kMaxPayloadBytes ∧
        size' = size + (columns.flatMap columnBytes).length := by
  induction columns generalizing size with
  | nil =>
    rw [metaSize, pure_eq_ok]
    constructor
    · rintro rfl
      exact ⟨by simp, hle, rfl⟩
    · rintro ⟨-, -, rfl⟩
      rfl
  | cons column columns ih =>
    have hlen := length_columnBytes column
    rw [metaSize, List.flatMap_cons, List.length_append, List.forall_mem_cons]
    simp only [bind_eq_ok, throwIf_eq_ok]
    constructor
    · rintro ⟨-, hname, -, hknown, -, hfits, h⟩
      obtain ⟨hvalid, hmax, rfl⟩ := (ih (by omega)).mp h
      refine ⟨⟨⟨?_, by omega, by simpa using hknown⟩, hvalid⟩, hmax, by omega⟩
      intro hnil
      exact hname (.inl (by rw [hnil]; rfl))
    · rintro ⟨⟨hcolumn, hvalid⟩, hmax, rfl⟩
      have hne := List.length_pos_iff.mpr hcolumn.name_ne
      have hlt := hcolumn.name_lt
      exact ⟨(), by omega, (), by simp [hcolumn.known], (), by omega,
        (ih (by omega)).mpr ⟨hvalid, hmax, by omega⟩⟩

/-- `TryEncodeMeta` succeeds on valid columns whose spelling fits a frame, and returns it. -/
theorem encodedMeta_eq_ok :
    encodedMeta columns = .ok payload ↔
      ValidColumns columns ∧ payload = metaBytes columns ∧ payload.length ≤ kMaxPayloadBytes := by
  have hlen : (metaBytes columns).length = 2 + (columns.flatMap columnBytes).length := by
    rw [metaBytes, List.length_append, length_beBytes]
  have hsize : ∀ size, metaSize columns 2 = .ok size ↔
      (∀ column ∈ columns, column.Valid) ∧ size ≤ kMaxPayloadBytes ∧
        size = 2 + (columns.flatMap columnBytes).length :=
    fun size => metaSize_eq_ok (by decide)
  unfold encodedMeta
  simp only [bind_eq_ok, throwIf_eq_ok, not_or, pure_eq_ok, hsize]
  constructor
  · rintro ⟨-, hcount, size, ⟨hvalid, hmax, rfl⟩, rfl⟩
    exact ⟨⟨by simpa using hcount.1, by omega, hvalid⟩, rfl, by omega⟩
  · rintro ⟨hvalid, rfl, hmax⟩
    have hlt := hvalid.lt
    exact ⟨(), ⟨by simpa using hvalid.ne, by omega⟩, _, ⟨hvalid.valid, by omega, rfl⟩, rfl⟩

/-! ## ROW -/

/-- A cell as a decoder leaves it: its type is known, and only the field that its type selects is
set, if it is not null. -/
structure Cell.Canonical (cell : Cell) : Prop where
  known : isKnownSqlType cell.sqlType = true
  intVal : cell.isNull = true ∨ cell.sqlType ≠ kTypeInt32 → cell.intVal = 0
  floatVal : cell.isNull = true ∨ cell.sqlType ≠ kTypeFloat32 → cell.floatVal = 0
  strVal : cell.isNull = true ∨ cell.sqlType ≠ kTypeChar → cell.strVal = []
  strVal_lt : cell.strVal.length < 2 ^ 32

theorem isKnownSqlType_iff {sqlType : UInt8} :
    isKnownSqlType sqlType = true ↔
      sqlType = kTypeInt32 ∨ sqlType = kTypeFloat32 ∨ sqlType = kTypeChar := by
  simp [isKnownSqlType, or_assoc]

theorem present_eq_one {present : UInt8} (hone : ¬ 1 < present) (hzero : present ≠ 0) :
    present = 1 := by
  rw [UInt8.lt_iff_toNat_lt] at hone
  rw [ne_eq, ← UInt8.toNat_inj] at hzero
  rw [← UInt8.toNat_inj]
  simp only [UInt8.reduceToNat] at hone hzero ⊢
  omega

/-- A present value is read exactly where, behind its present byte, the spelling of a canonical cell
that is not null goes on. -/
theorem decodeValue_eq_some {sqlType : UInt8} {buf : Bytes} {rest : Bytes}
    (hknown : isKnownSqlType sqlType = true) :
    decodeValue sqlType buf = some (cell, rest) ↔
      (cell.isNull = false ∧ cell.sqlType = sqlType ∧ cell.Canonical) ∧
        1 :: buf = cellBytes cell ++ rest := by
  have hfloatInt : kTypeFloat32 ≠ kTypeInt32 := by decide
  have hcharInt : kTypeChar ≠ kTypeInt32 := by decide
  have hcharFloat : kTypeChar ≠ kTypeFloat32 := by decide
  constructor
  · intro h
    unfold decodeValue at h
    split at h
    · simp at h
    rename_i bits buf' hbits
    obtain ⟨hlt, rfl⟩ := (exact_readUInt 4 _ _ _).mp hbits
    have hbv : bits < 2 ^ 32 := by simpa using hlt
    have hmod : bits % 4294967296 = bits := Nat.mod_eq_of_lt hbv
    split_ifs at h with hint hfloat
    · simp only [Option.some.injEq, Prod.mk.injEq] at h
      obtain ⟨rfl, rfl⟩ := h
      subst hint
      refine ⟨⟨rfl, rfl, hknown, by simp, by simp, by simp, by simp⟩, ?_⟩
      simp [cellBytes, hmod]
    · simp only [Option.some.injEq, Prod.mk.injEq] at h
      obtain ⟨rfl, rfl⟩ := h
      subst hfloat
      refine ⟨⟨rfl, rfl, hknown, by simp, by simp, by simp, by simp⟩, ?_⟩
      simp [cellBytes, hmod, hint]
    · split at h
      · simp at h
      rename_i str buf'' hstr
      obtain ⟨hlen, rfl⟩ := (exact_readBytes _ _ _ _).mp hstr
      simp only [Option.some.injEq, Prod.mk.injEq] at h
      obtain ⟨rfl, rfl⟩ := h
      have hchar : sqlType = kTypeChar :=
        ((isKnownSqlType_iff.mp hknown).resolve_left hint).resolve_left hfloat
      subst hchar
      refine ⟨⟨rfl, rfl, hknown, by simp, by simp, by simp, by simpa [hlen] using hbv⟩, ?_⟩
      simp [cellBytes, hint, hfloat, hlen]
  · rintro ⟨⟨hnull, rfl, hcell⟩, hbuf⟩
    obtain ⟨isNull, sqlType, intVal, floatVal, strVal⟩ := cell
    obtain ⟨-, hint, hfloat, hstr, hlt⟩ := hcell
    simp only at hknown hint hfloat hstr hlt hnull
    subst hnull
    -- only the field that the type selects may be set
    rcases isKnownSqlType_iff.mp hknown with rfl | rfl | rfl
    · obtain rfl := hfloat (.inr hfloatInt.symm)
      obtain rfl := hstr (.inr hcharInt.symm)
      obtain rfl : buf = beBytes 4 intVal.toNat ++ rest := by simpa [cellBytes] using hbuf
      have hread := readUInt_beBytes (k := 4) intVal.isLt rest
      simp [decodeValue, readU32, hread]
    · obtain rfl := hint (.inr hfloatInt)
      obtain rfl := hstr (.inr hcharFloat.symm)
      obtain rfl : buf = beBytes 4 floatVal.toNat ++ rest := by
        simpa [cellBytes, hfloatInt] using hbuf
      have hread := readUInt_beBytes (k := 4) floatVal.isLt rest
      simp [decodeValue, readU32, hread, hfloatInt]
    · obtain rfl := hint (.inr hcharInt)
      obtain rfl := hfloat (.inr hcharFloat)
      obtain rfl : buf = beBytes 4 strVal.length ++ (strVal ++ rest) := by
        simpa [cellBytes, hcharInt, hcharFloat] using hbuf
      have hread := readUInt_beBytes (k := 4) hlt (strVal ++ rest)
      simp [decodeValue, readU32, hread, readBytes_append, hcharInt, hcharFloat]

/-- A null cell is its type. -/
theorem Cell.Canonical.eq_null (h : cell.Canonical) (hnull : cell.isNull = true) :
    cell = { isNull := true, sqlType := cell.sqlType } := by
  obtain ⟨isNull, sqlType, intVal, floatVal, strVal⟩ := cell
  simp only at hnull
  subst hnull
  rw [show intVal = 0 from h.intVal (.inl rfl), show floatVal = 0 from h.floatVal (.inl rfl),
    show strVal = [] from h.strVal (.inl rfl)]

/-- A cell is read exactly where the spelling of a canonical cell of the type begins. -/
theorem exact_decodeCell (sqlType : UInt8) :
    Exact (decodeCell sqlType) cellBytes fun cell => cell.sqlType = sqlType ∧ cell.Canonical := by
  intro buf cell rest
  unfold decodeCell
  constructor
  · intro h
    split_ifs at h with hknown
    rw [Bool.not_eq_false] at hknown
    split at h
    · simp at h
    rename_i present buf' hpresent
    obtain ⟨-, rfl⟩ := (exact_readU8 _ _ _).mp hpresent
    split_ifs at h with hone hnull
    · simp only [Option.some.injEq, Prod.mk.injEq] at h
      obtain ⟨rfl, rfl⟩ := h
      subst hnull
      exact ⟨⟨rfl, hknown, by simp, by simp, by simp, by simp⟩, by simp [cellBytes]⟩
    · obtain rfl := present_eq_one hone hnull
      obtain ⟨⟨-, htype, hcell⟩, hbuf⟩ := (decodeValue_eq_some hknown).mp h
      exact ⟨⟨htype, hcell⟩, hbuf⟩
  · rintro ⟨⟨rfl, hcell⟩, rfl⟩
    rw [if_neg (by simp [hcell.known])]
    by_cases hnull : cell.isNull = true
    · rw [show cellBytes cell = [0] by simp [cellBytes, hnull]]
      simpa [readU8] using (hcell.eq_null hnull).symm
    · rw [Bool.not_eq_true] at hnull
      obtain ⟨buf, hbuf⟩ : ∃ buf, cellBytes cell ++ rest = 1 :: buf := by
        simp [cellBytes, hnull]
      rw [hbuf]
      exact (decodeValue_eq_some hcell.known).mpr ⟨⟨hnull, rfl, hcell⟩, hbuf.symm⟩

/-- Cells that fit the columns: canonical cells of the columns' types. -/
def CellsOf (columns : List ColumnDef) (cells : List Cell) : Prop :=
  List.Forall₂ (fun column cell => cell.sqlType = column.sqlType ∧ cell.Canonical) columns cells

/-- The loop over the columns reads the spellings of cells that fit them. -/
theorem exact_decodeCells (columns : List ColumnDef) :
    Exact (decodeCells columns) (·.flatMap cellBytes) (CellsOf columns) := by
  intro buf cells rest
  induction columns generalizing buf cells with
  | nil =>
    simp only [decodeCells, CellsOf, List.forall₂_nil_left_iff, Option.some.injEq, Prod.mk.injEq]
    constructor
    · rintro ⟨rfl, rfl⟩
      exact ⟨rfl, rfl⟩
    · rintro ⟨rfl, rfl⟩
      exact ⟨rfl, rfl⟩
  | cons column columns ih =>
    unfold decodeCells
    constructor
    · intro h
      split at h
      · simp at h
      rename_i cell buf' hcell
      split at h
      · simp at h
      rename_i cells' buf'' hcells
      simp only [Option.some.injEq, Prod.mk.injEq] at h
      obtain ⟨rfl, rfl⟩ := h
      obtain ⟨hfit, rfl⟩ := (exact_decodeCell _ _ _ _).mp hcell
      obtain ⟨hfits, rfl⟩ := (ih _ _).mp hcells
      exact ⟨.cons hfit hfits, by simp⟩
    · rintro ⟨hfits, rfl⟩
      obtain ⟨cell, cells', hfit, hfits', rfl⟩ := List.forall₂_cons_left_iff.mp hfits
      have hcell := (exact_decodeCell column.sqlType _ cell
        (cells'.flatMap cellBytes ++ rest)).mpr ⟨hfit, rfl⟩
      have hcells := (ih (cells'.flatMap cellBytes ++ rest) cells').mpr ⟨hfits', rfl⟩
      have hspell : (cell :: cells').flatMap cellBytes ++ rest =
          cellBytes cell ++ (cells'.flatMap cellBytes ++ rest) := by
        rw [List.flatMap_cons, List.append_assoc]
      simp only [hspell, hcell, hcells]

/-- A ROW payload is accepted exactly when it is the spelling of the cells it is decoded to, which
fit the columns. -/
theorem decodeRow_eq_ok :
    decodeRow columns payload = .ok cells ↔
      CellsOf columns cells ∧ payload = cells.flatMap cellBytes := by
  have hexact := exact_decodeCells columns payload cells []
  rw [List.append_nil] at hexact
  rw [← hexact]
  unfold decodeRow
  constructor
  · intro h
    split at h
    · exact absurd h (throw_ne_ok _ _)
    split_ifs at h with htrail
    rw [ne_eq, not_not] at htrail
    rw [pure_eq_ok] at h
    subst htrail h
    assumption
  · intro h
    rw [h]
    rfl

/-! ## What the encoders check -/

/-- A cell with only the field that its type selects. -/
def Cell.canonical (cell : Cell) : Cell :=
  if cell.isNull then { isNull := true, sqlType := cell.sqlType }
  else if cell.sqlType = kTypeInt32 then { sqlType := cell.sqlType, intVal := cell.intVal }
  else if cell.sqlType = kTypeFloat32 then { sqlType := cell.sqlType, floatVal := cell.floatVal }
  else { sqlType := cell.sqlType, strVal := cell.strVal }

@[simp]
theorem Cell.sqlType_canonical (cell : Cell) : cell.canonical.sqlType = cell.sqlType := by
  unfold canonical
  split_ifs <;> rfl

/-- The fields that a cell's type does not select are not sent. -/
theorem Cell.cellBytes_canonical (cell : Cell) : cellBytes cell.canonical = cellBytes cell := by
  unfold canonical
  split_ifs with hnull hint hfloat
  · simp [cellBytes, hnull]
  · simp [cellBytes, hnull, hint]
  · simp [cellBytes, hnull, if_neg hint, if_pos hfloat]
  · simp [cellBytes, hnull, hint, hfloat]

theorem Cell.canonical_canonical (cell : Cell) (h : isKnownSqlType cell.sqlType = true)
    (hlen : cell.isNull = false ∧ cell.sqlType = kTypeChar → cell.strVal.length < 2 ^ 32) :
    cell.canonical.Canonical := by
  have hknown := isKnownSqlType_iff.mp h
  unfold canonical
  split_ifs with hnull hint hfloat
  · exact ⟨h, by simp, by simp, by simp, by simp⟩
  · exact ⟨h, by simp [hint], by simp, by simp, by simp⟩
  · exact ⟨h, by simp, by simp [hfloat], by simp, by simp⟩
  · have hchar := (hknown.resolve_left hint).resolve_left hfloat
    exact ⟨h, by simp, by simp, by simp [hchar], hlen ⟨by simpa using hnull, hchar⟩⟩

/-- The size that `TryEncodeRow` adds up for a cell is that of its spelling. -/
theorem length_cellBytes (h : isKnownSqlType cell.sqlType = true) :
    (cellBytes cell).length =
      if cell.isNull then 1
      else if cell.sqlType = kTypeChar then 1 + (4 + cell.strVal.length)
      else 1 + 4 := by
  have hcharInt : kTypeChar ≠ kTypeInt32 := by decide
  have hcharFloat : kTypeChar ≠ kTypeFloat32 := by decide
  rcases isKnownSqlType_iff.mp h with htype | htype | htype
  · cases hnull : cell.isNull <;> simp [cellBytes, hnull, htype, hcharInt.symm]
  · cases hnull : cell.isNull <;> simp [cellBytes, hnull, htype, hcharFloat.symm]
    split_ifs <;> simp
  · cases hnull : cell.isNull <;> simp [cellBytes, hnull, htype, hcharInt, hcharFloat]
    omega

/-- The first loop of `TryEncodeRow` accepts cells of known types whose spellings fit the limit, and
adds up the sizes of the spellings. The check of a string's length never decides: a string that is
too long for it is too long for the limit. -/
theorem rowSize_eq_ok {size size' : ℕ} (hle : size ≤ kMaxPayloadBytes) :
    rowSize cells size = .ok size' ↔
      (∀ cell ∈ cells, isKnownSqlType cell.sqlType = true) ∧ size' ≤ kMaxPayloadBytes ∧
        size' = size + (cells.flatMap cellBytes).length := by
  induction cells generalizing size with
  | nil =>
    rw [rowSize, pure_eq_ok]
    constructor
    · rintro rfl
      exact ⟨by simp, hle, rfl⟩
    · rintro ⟨-, -, rfl⟩
      rfl
  | cons cell cells ih =>
    rw [rowSize, List.flatMap_cons, List.length_append, List.forall_mem_cons]
    simp only [bind_eq_ok, throwIf_eq_ok, Bool.not_eq_false]
    constructor
    · rintro ⟨-, hknown, -, -, -, hfits, h⟩
      rw [← length_cellBytes hknown] at hfits h
      obtain ⟨hcells, hmax, rfl⟩ := (ih (by omega)).mp h
      exact ⟨⟨hknown, hcells⟩, hmax, by omega⟩
    · rintro ⟨⟨hknown, hcells⟩, hmax, rfl⟩
      refine ⟨(), hknown, (), ?_, (), ?_, ?_⟩
      · rintro ⟨hnull, hchar, hlong⟩
        have hlen := length_cellBytes hknown
        rw [if_neg (by simp [hnull]), if_pos hchar] at hlen
        unfold kMaxPayloadBytes at hmax
        omega
      · rw [← length_cellBytes hknown]
        omega
      · rw [← length_cellBytes hknown]
        exact (ih (by omega)).mpr ⟨hcells, hmax, by omega⟩

/-- A cell whose spelling fits a frame has a string of a length of 32 bits. -/
theorem Cell.canonical_of_fits (h : isKnownSqlType cell.sqlType = true)
    (hfits : (cellBytes cell).length ≤ kMaxPayloadBytes) : cell.canonical.Canonical := by
  refine cell.canonical_canonical h ?_
  rintro ⟨hnull, hchar⟩
  rw [length_cellBytes h, if_neg (by simp [hnull]), if_pos hchar] at hfits
  unfold kMaxPayloadBytes at hfits
  omega

/-- `TryEncodeRow` succeeds on cells of known types whose spellings fit a frame, and returns the
spellings. -/
theorem encodedRow_eq_ok :
    encodedRow cells = .ok payload ↔
      cells ≠ [] ∧ (∀ cell ∈ cells, isKnownSqlType cell.sqlType = true) ∧
        payload = cells.flatMap cellBytes ∧ payload.length ≤ kMaxPayloadBytes := by
  have hsize : ∀ size, rowSize cells 0 = .ok size ↔
      (∀ cell ∈ cells, isKnownSqlType cell.sqlType = true) ∧ size ≤ kMaxPayloadBytes ∧
        size = 0 + (cells.flatMap cellBytes).length :=
    fun size => rowSize_eq_ok (Nat.zero_le _)
  unfold encodedRow
  simp only [bind_eq_ok, throwIf_eq_ok, pure_eq_ok, hsize]
  constructor
  · rintro ⟨-, hne, size, ⟨hknown, hmax, rfl⟩, rfl⟩
    exact ⟨by simpa using hne, hknown, rfl, by omega⟩
  · rintro ⟨hne, hknown, rfl, hmax⟩
    exact ⟨(), by simpa using hne, _, ⟨hknown, by omega, rfl⟩, rfl⟩

/-- The cells of a row that fits a frame, in canonical form, have the same spelling. -/
theorem flatMap_cellBytes_canonical (cells : List Cell) :
    (cells.map Cell.canonical).flatMap cellBytes = cells.flatMap cellBytes := by
  rw [List.flatMap_map]
  exact List.flatMap_congr fun cell _ => cell.cellBytes_canonical

theorem canonical_of_row_fits (hknown : ∀ cell ∈ cells, isKnownSqlType cell.sqlType = true)
    (hfits : (cells.flatMap cellBytes).length ≤ kMaxPayloadBytes) :
    ∀ cell ∈ cells, cell.canonical.Canonical := by
  intro cell hcell
  apply Cell.canonical_of_fits (hknown cell hcell)
  have hsub : (cellBytes cell).Sublist (cells.flatMap cellBytes) := by
    rw [List.flatMap_def]
    exact List.sublist_flatten_of_mem (List.mem_map_of_mem hcell)
  exact hsub.length_le.trans hfits

end Rucbase.Wire
