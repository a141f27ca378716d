import Rucbase.Index.Header
import Rucbase.Index.Key

/-!
# Headers read from a file

The header of an index in both directions: what is written is read back, and what is read was
written by the same code, whatever stands behind it on the page and with no read past its end
(`header_roundTrip`).

Reading does not look at the types of the columns, nor at their lengths beyond their sum. So it
accepts headers that `create_index` never writes and with which `compare_index_key`
(`src/index/b_plus_tree.cpp`) throws; `compareStoredKey_returns_iff` says which.
-/

namespace Rucbase

open Lib

namespace IndexFileHeader

/-! ## Round trips -/

/-- The integers of the header are of 32 bits. -/
def IsInt (header : IndexFileHeader) : Prop := ∀ n ∈ header.fields, -2^31 ≤ n ∧ n < 2^31

/-- The checks of `deserialize`. -/
structure PassesChecks (header : IndexFileHeader) : Prop where
  columnCount : 0 < header.columnCount ∧ header.columnCount ≤ maxSerializedColumns
  serializedSize : (serializedSizeOf header.columnCount.toNat : ℤ) = header.serializedSize
  len_pos : ∀ len ∈ header.columnLengths, 0 < len
  keyLength : header.columnLengths.sum = header.keyLength
  keyLength_bounds : 0 < header.keyLength ∧ header.keyLength ≤ indexMaxKeyLength
  treeOrder : 2 < header.treeOrder
  keysRegionSize :
    calculateKeysRegionSize header.treeOrder header.keyLength = .ok header.keysRegionSize
  layout : pageLayoutFits header.treeOrder header.keyLength = .ok true

/-- A header that `serialize` takes and that passes the checks is valid. -/
theorem valid_of_serialize {header : IndexFileHeader} {bytes : Bytes} (hint : header.IsInt)
    (hchecks : header.PassesChecks) (h : header.serialize = .ok bytes) :
    header.Valid ∧ bytes = header.fields.flatMap int32Bytes := by
  obtain ⟨_, hcounts, h⟩ := bind_eq_ok.mp h
  obtain ⟨_, -, h⟩ := bind_eq_ok.mp h
  rw [pure_eq_ok] at h
  rw [throwIf_eq_ok] at hcounts
  obtain ⟨hpos, hle⟩ := hchecks.columnCount
  have htypes : header.columnTypes.length = header.columnCount.toNat := by omega
  have hlengths : header.columnLengths.length = header.columnCount.toNat := by omega
  refine ⟨?_, h.symm⟩
  exact
    { columnCount := by omega
      columnTypes := htypes.trans hlengths.symm
      types := fun code hcode => hint code (by simp [fields, hcode])
      columnCount_pos := List.ne_nil_of_length_pos (by omega)
      columnCount_le := by omega
      serializedSize := by rw [hlengths, hchecks.serializedSize]
      len_pos := hchecks.len_pos
      keyLength := hchecks.keyLength.symm
      keyLength_le := hchecks.keyLength_bounds.2
      treeOrder := hchecks.treeOrder
      keysRegionSize := calculateKeysRegionSize_eq_ok hchecks.keysRegionSize
      pageHolds := pageHolds_of_pageLayoutFits hchecks.layout
      pages := fun page hpage => hint page (by
        simp only [List.mem_cons, List.not_mem_nil, or_false] at hpage
        rcases hpage with rfl | rfl | rfl | rfl | rfl <;> simp [fields]) }

/-! ## No read past the end -/

/-- Running on the source does not read past its end. -/
def ReadsWithin {α : Type} (src : Bytes) (m : StateT Bytes (Except Error) α) : Prop :=
  Avoids .undefinedBehaviour (m src)

section ReadsWithin

variable {α β : Type} {src : Bytes}

theorem readsWithin_bind {m : StateT Bytes (Except Error) α}
    {f : α → StateT Bytes (Except Error) β} (hm : ReadsWithin src m)
    (hf : ∀ a src', m src = .ok (a, src') → ReadsWithin src' (f a)) :
    ReadsWithin src (m >>= f) := by
  show Avoids .undefinedBehaviour (m src >>= fun p => f p.1 p.2)
  exact hm.bind fun p hp _ => hf p.1 p.2 hp

/-- Reading a word leaves the source without its first four bytes. -/
theorem readsWithin_readValue {f : ℤ → StateT Bytes (Except Error) β} (h : 4 ≤ src.length)
    (hf : ∀ n src', src'.length + 4 = src.length → ReadsWithin src' (f n)) :
    ReadsWithin src (readValue >>= f) := by
  refine readsWithin_bind ?_ fun n src' hread => hf n src' ?_
  · unfold ReadsWithin readValue
    rw [if_neg (by omega)]
    trivial
  · obtain ⟨-, rfl⟩ := readValue_eq_ok.mp hread
    rw [List.length_append, length_int32Bytes]
    omega

theorem readsWithin_readValues {count : ℕ} {f : List ℤ → StateT Bytes (Except Error) β}
    (h : 4 * count ≤ src.length)
    (hf : ∀ ns src', src'.length + 4 * count = src.length → ReadsWithin src' (f ns)) :
    ReadsWithin src (readValues count >>= f) := by
  refine readsWithin_bind ?_ fun ns src' hread => hf ns src' ?_
  · unfold ReadsWithin readValues
    rw [if_neg (by omega)]
    trivial
  · obtain ⟨rfl, -, rfl⟩ := readValues_eq_ok.mp hread
    rw [List.length_append, length_flatMap_int32Bytes]
    omega

theorem readsWithin_lift {x : Except Error α} {f : α → StateT Bytes (Except Error) β}
    (hx : Avoids .undefinedBehaviour x) (hf : ∀ a, ReadsWithin src (f a)) :
    ReadsWithin src ((liftM x : StateT Bytes (Except Error) α) >>= f) := by
  cases x with
  | error e => exact hx
  | ok a => exact hf a

theorem readsWithin_rejectIf {p : Prop} [Decidable p] {f : Unit → StateT Bytes (Except Error) β}
    (hf : ¬p → ReadsWithin src (f ())) : ReadsWithin src (rejectIf p >>= f) := by
  unfold rejectIf throwIf
  split_ifs with hp
  · exact fun h => nomatch h
  · exact hf hp

end ReadsWithin

theorem calculateKeysRegionSize_avoids (treeOrder keyLength : ℤ) :
    Avoids .undefinedBehaviour (calculateKeysRegionSize treeOrder keyLength) := by
  unfold calculateKeysRegionSize
  refine (ends_throwIf (by simp)).bind fun _ _ _ => ?_
  exact (ends_throwIf (by simp)).bind fun _ _ _ => trivial

theorem pageLayoutFits_avoids (treeOrder keyLength : ℤ) :
    Avoids .undefinedBehaviour (pageLayoutFits treeOrder keyLength) := by
  unfold pageLayoutFits
  split_ifs
  · trivial
  · exact (calculateKeysRegionSize_avoids treeOrder keyLength).bind fun _ _ _ => trivial

/-- The two checks of the length cover every read behind them. -/
theorem deserialize_readsWithin (src : Bytes) : deserialize src ≠ .error .undefinedBehaviour := by
  have hreads : ReadsWithin src (deserializeFrom src.length) := by
    unfold deserializeFrom
    refine readsWithin_rejectIf fun hfixed => ?_
    unfold fixedSerializedSize at hfixed
    refine readsWithin_readValue (by omega) fun serializedSize src₁ h₁ => ?_
    refine readsWithin_readValue (by omega) fun firstFreePage src₂ h₂ => ?_
    refine readsWithin_readValue (by omega) fun pageCount src₃ h₃ => ?_
    refine readsWithin_readValue (by omega) fun rootPage src₄ h₄ => ?_
    refine readsWithin_readValue (by omega) fun columnCount src₅ h₅ => ?_
    refine readsWithin_rejectIf fun hcounts => ?_
    -- The words of the columns and the six behind them are within the size that has been checked.
    have hsize : 44 + 8 * columnCount.toNat ≤ src.length := by
      unfold serializedSizeOf fixedSerializedSize at hcounts
      omega
    refine readsWithin_readValues (by omega) fun columnTypes src₆ h₆ => ?_
    refine readsWithin_readValues (by omega) fun columnLengths src₇ h₇ => ?_
    refine readsWithin_rejectIf fun _ => ?_
    refine readsWithin_readValue (by omega) fun keyLength src₈ h₈ => ?_
    refine readsWithin_readValue (by omega) fun treeOrder src₉ h₉ => ?_
    refine readsWithin_readValue (by omega) fun keysRegionSize src₁₀ h₁₀ => ?_
    refine readsWithin_readValue (by omega) fun firstLeaf src₁₁ h₁₁ => ?_
    refine readsWithin_readValue (by omega) fun lastLeaf src₁₂ h₁₂ => ?_
    refine readsWithin_readValue (by omega) fun uniqueFlag src₁₃ h₁₃ => ?_
    refine readsWithin_rejectIf fun _ => readsWithin_rejectIf fun _ => ?_
    refine readsWithin_lift (calculateKeysRegionSize_avoids treeOrder keyLength) fun _ => ?_
    refine readsWithin_rejectIf fun _ => ?_
    refine readsWithin_lift (pageLayoutFits_avoids treeOrder keyLength) fun _ => ?_
    exact readsWithin_rejectIf fun _ => trivial
  unfold deserialize StateT.run'
  cases hrun : deserializeFrom src.length src with
  | ok result => exact nofun
  | error e => exact fun h => hreads.of_error hrun (Except.error.inj h)

/-- A header is read back from what is written of it; what is read is written back as it stood
there; and nothing is read past the end of the source. -/
theorem header_roundTrip :
    (∀ (header : IndexFileHeader) (bytes rest : Bytes), header.IsInt → header.PassesChecks →
      header.serialize = .ok bytes → deserialize (bytes ++ rest) = .ok header) ∧
    (∀ (src : Bytes) (header : IndexFileHeader), deserialize src = .ok header →
      header.serialize = .ok (src.take header.serializedSize.toNat)) ∧
    ∀ src, deserialize src ≠ .error .undefinedBehaviour := by
  refine ⟨?_, ?_, deserialize_readsWithin⟩
  · intro header bytes rest hint hchecks hserialize
    obtain ⟨hvalid, rfl⟩ := valid_of_serialize hint hchecks hserialize
    exact deserialize_eq_ok.mpr ⟨hvalid, rest, rfl⟩
  · intro src header hdeserialize
    obtain ⟨hvalid, rest, rfl⟩ := deserialize_eq_ok.mp hdeserialize
    obtain ⟨hserialize, hlength⟩ := hvalid.serialize
    rw [hvalid.serializedSize, Int.toNat_natCast, ← hlength, List.take_left]
    exact hserialize

/-- The header of a new index on columns of these types and lengths, with nodes of three keys. -/
def ofColumns (columns : List (ColType × ℤ)) : IndexFileHeader where
  firstFreePage := indexNoPage
  pageCount := indexInitialPageCount
  rootPage := indexInitialRootPage
  columnCount := columns.length
  columnTypes := columns.map fun column => column.1.code
  columnLengths := columns.map Prod.snd
  keyLength := (columns.map Prod.snd).sum
  treeOrder := 3
  keysRegionSize := keysRegion 3 (columns.map Prod.snd).sum
  firstLeaf := indexInitialRootPage
  lastLeaf := indexInitialRootPage
  unique := true
  serializedSize := serializedSizeOf columns.length

theorem ofColumns_valid {columns : List (ColType × ℤ)} (hne : columns ≠ [])
    (hcount : columns.length ≤ maxSerializedColumns) (hpos : ∀ column ∈ columns, 0 < column.2)
    (hle : (columns.map Prod.snd).sum ≤ 512) : (ofColumns columns).Valid where
  columnCount := by simp [ofColumns]
  columnTypes := by simp [ofColumns]
  types := by
    intro code hcode
    obtain ⟨column, -, rfl⟩ := List.mem_map.mp hcode
    exact column.1.code_bounds
  columnCount_pos := by simpa [ofColumns] using hne
  columnCount_le := by simpa [ofColumns] using hcount
  serializedSize := by simp [ofColumns]
  len_pos := by
    intro len hlen
    obtain ⟨column, hcolumn, rfl⟩ := List.mem_map.mp hlen
    exact hpos column hcolumn
  keyLength := rfl
  keyLength_le := hle
  treeOrder := by
    show (2 : ℤ) < 3
    decide
  keysRegionSize := rfl
  pageHolds := by
    show 0 ≤ (3 : ℤ) ∧ 24 + keysRegion 3 (columns.map Prod.snd).sum + (3 + 1) * 8 ≤ 4096
    unfold keysRegion
    omega
  pages := by
    show ∀ page ∈ [indexNoPage, indexInitialPageCount, indexInitialRootPage, indexInitialRootPage,
      indexInitialRootPage], -2^31 ≤ page ∧ page < 2^31
    decide

/-- A header of one column of type INT and the given length. -/
def intHeader (len : ℤ) : IndexFileHeader := ofColumns [(.int, len)]

theorem intHeader_valid {len : ℤ} (hpos : 0 < len) (hle : len ≤ 512) : (intHeader len).Valid :=
  ofColumns_valid (List.cons_ne_nil _ _) (show 1 ≤ maxSerializedColumns by decide)
    (by simpa using hpos) (by simpa using hle)

/-- The header of an index on an integer, a text and a number. -/
def tripleHeader : IndexFileHeader := ofColumns [(.int, 4), (.string, 20), (.float, 4)]

theorem tripleHeader_valid : tripleHeader.Valid :=
  ofColumns_valid (List.cons_ne_nil _ _) (by decide) (by decide) (by decide)

/-- The header of an index on three columns is read back from a page that starts with it. -/
theorem header_roundTrip_triple :
    deserialize (tripleHeader.fields.flatMap int32Bytes ++ List.replicate 4028 0) =
        .ok tripleHeader ∧
      tripleHeader.serialize =
        .ok ((tripleHeader.fields.flatMap int32Bytes ++ List.replicate 4028 0).take 68) := by
  have hvalid := tripleHeader_valid
  have hchecks : tripleHeader.PassesChecks :=
    ⟨by decide, rfl, by decide, rfl, by decide, by decide, rfl, rfl⟩
  have hread := header_roundTrip.1 tripleHeader _ (List.replicate 4028 0)
    (fun n hn => hvalid.fields_bounds hn) hchecks hvalid.serialize.1
  exact ⟨hread, header_roundTrip.2.1 _ _ hread⟩

/-! ## The words of a source -/

/-- The word at an index of a source, as a signed integer. -/
def word (src : Bytes) (i : ℕ) : ℤ := int32Of ((src.drop (4 * i)).take 4)

/-- The words of a row of integers are the integers. -/
theorem word_flatMap {ns : List ℤ} (hbounds : ∀ n ∈ ns, -2^31 ≤ n ∧ n < 2^31) (rest : Bytes)
    {i : ℕ} {n : ℤ} (h : ns[i]? = some n) : word (ns.flatMap int32Bytes ++ rest) i = n := by
  induction ns generalizing i with
  | nil => simp at h
  | cons first ns ih =>
    obtain ⟨hfirst, hbounds⟩ := List.forall_mem_cons.mp hbounds
    rw [List.flatMap_cons, List.append_assoc, word]
    cases i with
    | zero =>
      obtain rfl : first = n := by simpa using h
      rw [Nat.mul_zero, List.drop_zero, List.take_left' (length_int32Bytes first),
        int32Of_int32Bytes hfirst.1 hfirst.2]
    | succ i =>
      rw [Nat.mul_succ, Nat.add_comm, ← List.drop_drop, List.drop_left' (length_int32Bytes first)]
      exact ih hbounds (by simpa using h)

/-- Where the columns stand in an accepted source: the fifth word is their number, the words behind
it are their types, and those behind the types their lengths. -/
theorem Valid.word_columns {header : IndexFileHeader} (h : Valid header) {src rest : Bytes}
    (hsrc : src = header.fields.flatMap int32Bytes ++ rest) :
    word src 4 = header.columnLengths.length ∧
      (∀ (i : ℕ) (code : ℤ), header.columnTypes[i]? = some code → word src (5 + i) = code) ∧
      ∀ (i : ℕ) (len : ℤ), header.columnLengths[i]? = some len →
        word src (5 + header.columnLengths.length + i) = len := by
  have hword : ∀ {i : ℕ} {n : ℤ}, header.fields[i]? = some n → word src i = n := fun hi =>
    hsrc ▸ word_flatMap (fun n hn => h.fields_bounds hn) rest hi
  refine ⟨hword ?_, fun i code hi => hword ?_, fun i len hi => hword ?_⟩
  · simp [fields, h.columnCount]
  · have hlt : i < header.columnTypes.length := (List.getElem?_eq_some_iff.mp hi).1
    rw [fields, List.append_assoc, List.append_assoc, List.getElem?_append_right (by simp),
      List.getElem?_append_left (by simpa using hlt)]
    simpa using hi
  · have hlt : i < header.columnLengths.length := (List.getElem?_eq_some_iff.mp hi).1
    have hindex : 5 + header.columnLengths.length + i - 5 - header.columnTypes.length = i := by
      rw [h.columnTypes]
      omega
    rw [fields, List.append_assoc, List.append_assoc, List.getElem?_append_right (by simp; omega),
      List.getElem?_append_right (by simp [h.columnTypes]; omega),
      List.getElem?_append_left (by simp [h.columnTypes]; omega)]
    simpa [hindex] using hi

end IndexFileHeader

/-! ## Comparing keys by a stored header -/

/-- `compare_index_key` on one column whose type is a word of a header. -/
def compareStoredColumn (left right : Bytes) (code columnLength : ℤ) : Except Error ℤ :=
  match ColType.ofCode? code with
  | some type => compareIndexKeyColumn left right type columnLength
  | none => do
    throwIf (columnLength ≤ 0) (.internalError (text "Invalid index comparison input"))
    throw (.internalError (text "Unexpected data type"))

/-- The loop of `compare_index_key` over the columns. -/
def compareStoredColumns : List (ℤ × ℤ) → Bytes → Bytes → Except Error ℤ
  | [], _, _ => pure 0
  | (code, columnLength) :: columns, left, right => do
    let result ← compareStoredColumn left right code columnLength
    if result ≠ 0 then pure result
    else
      compareStoredColumns columns (left.drop columnLength.toNat) (right.drop columnLength.toNat)

/-- `compare_index_key` by the types and lengths of a header. -/
def compareStoredKey (left right : Bytes) (columnTypes columnLengths : List ℤ) :
    Except Error ℤ := do
  throwIf (columnTypes.length ≠ columnLengths.length)
    (.internalError (text "Invalid composite index metadata"))
  compareStoredColumns (columnTypes.zip columnLengths) left right

/-- The columns that keys can be compared by: INT and FLOAT of four bytes, and STRING. -/
def ComparableColumn (column : ℤ × ℤ) : Prop :=
  ∃ type, ColType.ofCode? column.1 = some type ∧ (type ≠ .string → column.2 = 4)

/-- A column is comparable by its words. -/
theorem comparableColumn_iff {code len : ℤ} :
    ComparableColumn (code, len) ↔ code = 2 ∨ (code = 0 ∨ code = 1) ∧ len = 4 := by
  unfold ComparableColumn ColType.ofCode?
  constructor
  · rintro ⟨type, hcode, hlen⟩
    split_ifs at hcode with hint hfloat hstring
    · obtain rfl := Option.some.inj hcode
      exact .inr ⟨.inl hint, hlen (by decide)⟩
    · obtain rfl := Option.some.inj hcode
      exact .inr ⟨.inr hfloat, hlen (by decide)⟩
    · exact .inl hstring
  · rintro (rfl | ⟨rfl | rfl, rfl⟩)
    · exact ⟨.string, rfl, fun h => absurd rfl h⟩
    · exact ⟨.int, rfl, fun _ => rfl⟩
    · exact ⟨.float, rfl, fun _ => rfl⟩

/-- A source whose words give comparable columns: behind the fifth word, the number of the columns,
stand their types and then their lengths. Each type is that of STRING, or of INT or FLOAT with the
length 4. -/
def StoresComparable (src : Bytes) : Prop :=
  let count := (IndexFileHeader.word src 4).toNat
  ∀ i < count, IndexFileHeader.word src (5 + i) = 2 ∨
    (IndexFileHeader.word src (5 + i) = 0 ∨ IndexFileHeader.word src (5 + i) = 1) ∧
      IndexFileHeader.word src (5 + count + i) = 4

/-- The columns of an accepted header are comparable when the words of its source say so. -/
theorem IndexFileHeader.Valid.comparable_iff {header : IndexFileHeader} (h : Valid header)
    {src rest : Bytes} (hsrc : src = header.fields.flatMap int32Bytes ++ rest) :
    (∀ column ∈ header.columnTypes.zip header.columnLengths, ComparableColumn column) ↔
      StoresComparable src := by
  obtain ⟨hcount, htypes, hlengths⟩ := h.word_columns hsrc
  have hcolumn : ∀ (i : ℕ) (column : ℤ × ℤ),
      (header.columnTypes.zip header.columnLengths)[i]? = some column →
      (ComparableColumn column ↔ word src (5 + i) = 2 ∨ (word src (5 + i) = 0 ∨
        word src (5 + i) = 1) ∧ word src (5 + header.columnLengths.length + i) = 4) := by
    intro i column hi
    obtain ⟨htype, hlength⟩ := List.getElem?_zip_eq_some.mp hi
    rw [htypes i _ htype, hlengths i _ hlength]
    exact comparableColumn_iff
  have hzip : (header.columnTypes.zip header.columnLengths).length =
      header.columnLengths.length := by
    rw [List.length_zip, h.columnTypes, Nat.min_self]
  unfold StoresComparable
  simp only [hcount, Int.toNat_natCast]
  constructor
  · intro hcomparable i hi
    have hget := List.getElem?_eq_getElem (hzip.symm ▸ hi)
    exact (hcolumn i _ hget).mp (hcomparable _ (List.mem_of_getElem? hget))
  · intro hwords column hmem
    obtain ⟨i, hi, hget⟩ := List.getElem_of_mem hmem
    exact (hcolumn i _ (List.getElem?_eq_some_iff.mpr ⟨hi, hget⟩)).mpr (hwords i (hzip ▸ hi))

section Compare

variable {left right key : Bytes} {columnLength : ℤ}

/-- The comparison of two numbers. -/
theorem compareNumbers_returns_iff {e : Error} {value : ℤ} (hleft : columnLength ≤ left.length)
    (hright : columnLength ≤ right.length) :
    (∃ c, (do
      throwIf (columnLength ≠ 4) e
      throwIf (left.length < 4 ∨ right.length < 4) .undefinedBehaviour
      pure value : Except Error ℤ) = .ok c) ↔ columnLength = 4 := by
  constructor
  · rintro ⟨c, h⟩
    obtain ⟨_, hlen, -⟩ := bind_eq_ok.mp h
    exact not_not.mp (throwIf_eq_ok.mp hlen)
  · intro hfour
    have hreads : ¬(left.length < 4 ∨ right.length < 4) := by omega
    rw [throwIf_bind (not_not.mpr hfour), throwIf_bind hreads]
    exact ⟨value, rfl⟩

/-- Where the keys hold the column, the comparison throws on numbers that are not four bytes. -/
theorem compareIndexKeyColumn_returns_iff {type : ColType} (hpos : 0 < columnLength)
    (hleft : columnLength ≤ left.length) (hright : columnLength ≤ right.length) :
    (∃ c, compareIndexKeyColumn left right type columnLength = .ok c) ↔
      (type ≠ .string → columnLength = 4) := by
  unfold compareIndexKeyColumn
  rw [throwIf_bind (not_le.mpr hpos)]
  cases type with
  | int | float =>
    refine (compareNumbers_returns_iff hleft hright).trans ?_
    simp
  | string =>
    have hreads : ¬((left.length : ℤ) < columnLength ∨ (right.length : ℤ) < columnLength) := by
      omega
    rw [throwIf_bind hreads]
    exact iff_of_true ⟨_, rfl⟩ fun h => absurd rfl h

variable {c code : ℤ} {columns : List (ℤ × ℤ)}

/-- A column of a key is equal to itself. -/
theorem compareIndexKeyColumn_self {type : ColType}
    (h : compareIndexKeyColumn key key type columnLength = .ok c) : c = 0 := by
  obtain ⟨_, -, h⟩ := bind_eq_ok.mp h
  cases type with
  | int =>
    obtain ⟨_, -, h⟩ := bind_eq_ok.mp h
    obtain ⟨_, -, h⟩ := bind_eq_ok.mp h
    rw [pure_eq_ok] at h
    simpa using h.symm
  | float =>
    obtain ⟨_, -, h⟩ := bind_eq_ok.mp h
    obtain ⟨_, -, h⟩ := bind_eq_ok.mp h
    rw [pure_eq_ok] at h
    simpa [Binary32.lt] using h.symm
  | string =>
    obtain ⟨_, -, h⟩ := bind_eq_ok.mp h
    rw [pure_eq_ok, memcmp_self] at h
    exact h.symm

theorem compareStoredColumn_returns_iff (hpos : 0 < columnLength)
    (hleft : columnLength ≤ left.length) (hright : columnLength ≤ right.length) :
    (∃ c, compareStoredColumn left right code columnLength = .ok c) ↔
      ComparableColumn (code, columnLength) := by
  unfold compareStoredColumn ComparableColumn
  cases ColType.ofCode? code with
  | none =>
    refine iff_of_false ?_ fun ⟨_, h, _⟩ => nomatch h
    rintro ⟨c, h⟩
    obtain ⟨_, -, h⟩ := bind_eq_ok.mp h
    exact throw_ne_ok _ _ h
  | some type =>
    rw [compareIndexKeyColumn_returns_iff hpos hleft hright]
    simp

theorem compareStoredColumn_self (h : compareStoredColumn key key code columnLength = .ok c) :
    c = 0 := by
  unfold compareStoredColumn at h
  cases hcode : ColType.ofCode? code with
  | none =>
    rw [hcode] at h
    obtain ⟨_, -, h⟩ := bind_eq_ok.mp h
    exact absurd h (throw_ne_ok _ _)
  | some type =>
    rw [hcode] at h
    exact compareIndexKeyColumn_self h

/-- A key that holds the columns holds the first of them, and the others behind it. -/
theorem holds_cons (hlen : 0 < columnLength) (hpos : ∀ column ∈ columns, 0 < column.2)
    (hkey : (((code, columnLength) :: columns).map Prod.snd).sum ≤ key.length) :
    columnLength ≤ key.length ∧
      (columns.map Prod.snd).sum ≤ (key.drop columnLength.toNat).length := by
  have hnonneg : 0 ≤ (columns.map Prod.snd).sum := List.sum_nonneg fun n hn => by
    obtain ⟨column, hmem, rfl⟩ := List.mem_map.mp hn
    exact (hpos column hmem).le
  rw [List.map_cons, List.sum_cons] at hkey
  dsimp only at hkey
  rw [List.length_drop]
  omega

/-- Comparable columns are compared without an exception. -/
theorem compareStoredColumns_returns (hpos : ∀ column ∈ columns, 0 < column.2)
    (hcomparable : ∀ column ∈ columns, ComparableColumn column)
    (hleft : (columns.map Prod.snd).sum ≤ left.length)
    (hright : (columns.map Prod.snd).sum ≤ right.length) :
    ∃ c, compareStoredColumns columns left right = .ok c := by
  induction columns generalizing left right with
  | nil => exact ⟨0, rfl⟩
  | cons column columns ih =>
    obtain ⟨code, columnLength⟩ := column
    obtain ⟨hlen, hpos⟩ := List.forall_mem_cons.mp hpos
    obtain ⟨hcolumn, hcomparable⟩ := List.forall_mem_cons.mp hcomparable
    obtain ⟨hleft, hleftRest⟩ := holds_cons hlen hpos hleft
    obtain ⟨hright, hrightRest⟩ := holds_cons hlen hpos hright
    obtain ⟨result, hresult⟩ := (compareStoredColumn_returns_iff hlen hleft hright).mpr hcolumn
    rw [compareStoredColumns, hresult, ok_bind]
    split_ifs
    · exact ⟨result, rfl⟩
    · exact ih hpos hcomparable hleftRest hrightRest

/-- A key is compared with itself to the end, so a column that is not comparable is found. -/
theorem comparable_of_compareStoredColumns (hpos : ∀ column ∈ columns, 0 < column.2)
    (hlen : (columns.map Prod.snd).sum ≤ key.length)
    (h : compareStoredColumns columns key key = .ok c) :
    ∀ column ∈ columns, ComparableColumn column := by
  induction columns generalizing key with
  | nil => simp
  | cons column columns ih =>
    obtain ⟨code, columnLength⟩ := column
    obtain ⟨hfirst, hpos⟩ := List.forall_mem_cons.mp hpos
    obtain ⟨hholds, hrest⟩ := holds_cons hfirst hpos hlen
    rw [compareStoredColumns] at h
    obtain ⟨result, hresult, h⟩ := bind_eq_ok.mp h
    obtain rfl := compareStoredColumn_self hresult
    have hcolumn := (compareStoredColumn_returns_iff hfirst hholds hholds).mp ⟨_, hresult⟩
    exact List.forall_mem_cons.mpr ⟨hcolumn, ih hpos hrest h⟩

end Compare

/-- With a header that was accepted, every column is an INT or a FLOAT of four bytes or a STRING
exactly when the words of the source say so, and comparing keys of its length never throws exactly
then. -/
theorem compareStoredKey_returns_iff {src : Bytes} {header : IndexFileHeader}
    (h : IndexFileHeader.deserialize src = .ok header) :
    ((∀ column ∈ header.columnTypes.zip header.columnLengths, ComparableColumn column) ↔
      StoresComparable src) ∧
    ((∀ left right : Bytes, (left.length : ℤ) = header.keyLength →
      (right.length : ℤ) = header.keyLength →
      ∃ c, compareStoredKey left right header.columnTypes header.columnLengths = .ok c) ↔
      StoresComparable src) := by
  obtain ⟨hvalid, rest, hsrc⟩ := IndexFileHeader.deserialize_eq_ok.mp h
  have hstores := hvalid.comparable_iff hsrc
  have hlens : (header.columnTypes.zip header.columnLengths).map Prod.snd =
      header.columnLengths := List.map_snd_zip hvalid.columnTypes.ge
  have hpos : ∀ column ∈ header.columnTypes.zip header.columnLengths, 0 < column.2 :=
    fun column hcolumn => hvalid.len_pos _ (List.of_mem_zip hcolumn).2
  have hsum := hvalid.keyLength
  have hkey : ∀ left right : Bytes,
      compareStoredKey left right header.columnTypes header.columnLengths =
        compareStoredColumns (header.columnTypes.zip header.columnLengths) left right := by
    intro left right
    rw [compareStoredKey, throwIf_bind (not_not.mpr hvalid.columnTypes)]
  refine ⟨hstores, ?_⟩
  rw [← hstores]
  constructor
  · intro hreturns
    -- Any key will do: it is compared with itself.
    let key : Bytes := List.replicate header.keyLength.toNat 0
    have hlength : (key.length : ℤ) = header.keyLength := by
      rw [List.length_replicate, Int.toNat_of_nonneg hvalid.keyLength_pos.le]
    obtain ⟨c, hc⟩ := hreturns key key hlength hlength
    rw [hkey] at hc
    exact comparable_of_compareStoredColumns hpos (by rw [hlens]; omega) hc
  · intro hcomparable left right hleft hright
    rw [hkey]
    exact compareStoredColumns_returns hpos hcomparable (by rw [hlens]; omega)
      (by rw [hlens]; omega)

/-- Keys of three comparable columns are compared; the last column decides here. -/
theorem compareStoredKey_returns_triple :
    IndexFileHeader.deserialize (IndexFileHeader.tripleHeader.fields.flatMap int32Bytes) =
        .ok IndexFileHeader.tripleHeader ∧
      StoresComparable (IndexFileHeader.tripleHeader.fields.flatMap int32Bytes) ∧
      ∃ c, compareStoredKey (List.replicate 28 0) (List.replicate 27 0 ++ [64])
        IndexFileHeader.tripleHeader.columnTypes IndexFileHeader.tripleHeader.columnLengths =
          .ok c := by
  have hread := IndexFileHeader.deserialize_eq_ok.mpr
    ⟨IndexFileHeader.tripleHeader_valid, [], (List.append_nil _).symm⟩
  have hstores : StoresComparable (IndexFileHeader.tripleHeader.fields.flatMap int32Bytes) := by
    unfold StoresComparable
    decide +kernel
  exact ⟨hread, hstores, (compareStoredKey_returns_iff hread).2.mpr hstores _ _ rfl rfl⟩

/-- A header with an integer column of eight bytes is accepted, and its keys cannot be compared. -/
theorem compareStoredKey_throws_int :
    IndexFileHeader.deserialize ((IndexFileHeader.intHeader 8).fields.flatMap int32Bytes) =
        .ok (IndexFileHeader.intHeader 8) ∧
      compareStoredKey (List.replicate 8 0) (List.replicate 8 0)
        (IndexFileHeader.intHeader 8).columnTypes (IndexFileHeader.intHeader 8).columnLengths =
          .error (.internalError (text "Invalid integer index key length")) := by
  have hvalid := IndexFileHeader.intHeader_valid (show (0 : ℤ) < 8 by decide) (by decide)
  exact ⟨IndexFileHeader.deserialize_eq_ok.mpr ⟨hvalid, [], (List.append_nil _).symm⟩, rfl⟩

end Rucbase
