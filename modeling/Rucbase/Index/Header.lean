import Rucbase.Common.Value
import Mathlib.Algebra.Order.BigOperators.Group.List

/-!
# The file header of an index

`src/index/index_types.cpp` and `index_types.h`: the layout of the pages of a tree, and the header
that the first page of an index file holds. The header is written as a row of 32-bit integers, with
the types and the lengths of the columns in the middle, and everything that is read back is checked
against the layout again.

Reading is characterised by what it accepts: a source that starts with what is written of a header
that satisfies these checks (`deserialize_eq_ok`). Nothing behind it on the page matters.
-/

namespace Rucbase

open Lib

/-- `INDEX_NO_PAGE`. -/
def indexNoPage : ℤ := -1

/-- `INDEX_INITIAL_ROOT_PAGE`. -/
def indexInitialRootPage : ℤ := 2

/-- `INDEX_INITIAL_PAGE_COUNT`. -/
def indexInitialPageCount : ℤ := 3

/-- `INDEX_MAX_KEY_LENGTH`. -/
def indexMaxKeyLength : ℤ := 512

/-- `PAGE_SIZE`. -/
def pageSize : ℕ := 4096

/-- The value of an enumerator of `ColType`. -/
def ColType.code : ColType → ℤ
  | .int => 0
  | .float => 1
  | .string => 2

/-- The enumerator that a word stands for, if it stands for one. -/
def ColType.ofCode? (code : ℤ) : Option ColType :=
  if code = 0 then some .int
  else if code = 1 then some .float
  else if code = 2 then some .string
  else none

@[simp]
theorem ColType.ofCode?_code (type : ColType) : ofCode? type.code = some type := by
  cases type <;> rfl

theorem ColType.code_bounds (type : ColType) : -2^31 ≤ type.code ∧ type.code < 2^31 := by
  cases type <;> decide

/-- `IndexFileHeader`. -/
structure IndexFileHeader where
  firstFreePage : ℤ
  pageCount : ℤ
  rootPage : ℤ
  columnCount : ℤ
  /-- The words of `column_types_`. What stands in a file is copied into them unchecked, so they
  need not be values of enumerators. -/
  columnTypes : List ℤ
  columnLengths : List ℤ
  keyLength : ℤ
  treeOrder : ℤ
  keysRegionSize : ℤ
  firstLeaf : ℤ
  lastLeaf : ℤ
  unique : Bool
  serializedSize : ℤ
  deriving DecidableEq, Repr

namespace IndexFileHeader

/-- `fixed_serialized_size`: four page numbers and seven integers. -/
def fixedSerializedSize : ℕ := 4 * 4 + 4 * 7

/-- `max_serialized_columns`. -/
def maxSerializedColumns : ℕ := (pageSize - fixedSerializedSize) / (4 + 4)

/-- The function `serialized_size`. -/
def serializedSizeOf (columnCount : ℕ) : ℕ := fixedSerializedSize + (4 + 4) * columnCount

/-! ## The layout of a page -/

/-- `sizeof(IndexPageHeader)`. -/
def sizeofPageHeader : ℤ := 24

/-- `sizeof(Rid)`. -/
def sizeofRid : ℤ := 8

/-- `alignof(Rid)`. -/
def alignofRid : ℤ := 4

/-- `calculate_keys_region_size`. -/
def calculateKeysRegionSize (treeOrder keyLength : ℤ) : Except Error ℤ := do
  throwIf (treeOrder < 0 ∨ keyLength ≤ 0) (.internalError (text "Invalid index page layout"))
  let rawSize := (treeOrder + 1) * keyLength
  let alignedSize := (rawSize + alignofRid - 1) / alignofRid * alignofRid
  throwIf (2^31 - 1 < alignedSize) (.internalError (text "Invalid index page layout"))
  pure alignedSize

/-- `page_layout_fits`. -/
def pageLayoutFits (treeOrder keyLength : ℤ) : Except Error Bool :=
  if treeOrder < 0 ∨ keyLength ≤ 0 then pure false
  else do
    let slotCount := treeOrder + 1
    let keysRegionSize ← calculateKeysRegionSize treeOrder keyLength
    pure (decide (sizeofPageHeader + keysRegionSize + slotCount * sizeofRid ≤ pageSize))

/-- The bytes of an array of `treeOrder + 1` keys, rounded up to the alignment of the `Rid` array
behind it. -/
def keysRegion (treeOrder keyLength : ℤ) : ℤ := ((treeOrder + 1) * keyLength + 3) / 4 * 4

/-- A page has room for its header, `treeOrder + 1` keys and `treeOrder + 1` `Rid`s. -/
def PageHolds (keyLength treeOrder : ℤ) : Prop :=
  0 ≤ treeOrder ∧ 24 + keysRegion treeOrder keyLength + (treeOrder + 1) * 8 ≤ 4096

instance (keyLength treeOrder : ℤ) : Decidable (PageHolds keyLength treeOrder) :=
  inferInstanceAs (Decidable (_ ∧ _))

section Layout

variable {treeOrder keyLength : ℤ}

/-- The rounding of `calculate_keys_region_size`. -/
theorem aligned_eq_keysRegion (treeOrder keyLength : ℤ) :
    ((treeOrder + 1) * keyLength + alignofRid - 1) / alignofRid * alignofRid =
      keysRegion treeOrder keyLength := by
  unfold keysRegion alignofRid
  omega

theorem calculateKeysRegionSize_eq (horder : 0 ≤ treeOrder) (hkey : 0 < keyLength)
    (hsmall : (treeOrder + 1) * keyLength ≤ 4096) :
    calculateKeysRegionSize treeOrder keyLength = .ok (keysRegion treeOrder keyLength) := by
  have hargs : ¬(treeOrder < 0 ∨ keyLength ≤ 0) := by omega
  have hint : ¬2^31 - 1 < keysRegion treeOrder keyLength := by
    unfold keysRegion
    omega
  unfold calculateKeysRegionSize
  simp only [throwIf, hargs, if_false, aligned_eq_keysRegion, hint]
  rfl

theorem pageLayoutFits_eq (horder : 0 ≤ treeOrder) (hkey : 0 < keyLength)
    (hsmall : (treeOrder + 1) * keyLength ≤ 4096) :
    pageLayoutFits treeOrder keyLength = .ok (decide (PageHolds keyLength treeOrder)) := by
  have hargs : ¬(treeOrder < 0 ∨ keyLength ≤ 0) := by omega
  unfold pageLayoutFits
  rw [if_neg hargs, calculateKeysRegionSize_eq horder hkey hsmall, ok_bind]
  simp [PageHolds, horder, sizeofPageHeader, sizeofRid, pageSize]
  rfl

theorem calculateKeysRegionSize_eq_ok {size : ℤ}
    (h : calculateKeysRegionSize treeOrder keyLength = .ok size) :
    size = keysRegion treeOrder keyLength := by
  obtain ⟨_, -, h⟩ := bind_eq_ok.mp h
  obtain ⟨_, -, h⟩ := bind_eq_ok.mp h
  rw [pure_eq_ok] at h
  unfold alignofRid at h
  unfold keysRegion
  omega

theorem pageHolds_of_pageLayoutFits (h : pageLayoutFits treeOrder keyLength = .ok true) :
    PageHolds keyLength treeOrder := by
  unfold pageLayoutFits at h
  split_ifs at h with hargs
  · simp at h
  obtain ⟨size, hsize, h⟩ := bind_eq_ok.mp h
  rw [pure_eq_ok, decide_eq_true_eq, calculateKeysRegionSize_eq_ok hsize] at h
  unfold sizeofPageHeader sizeofRid pageSize at h
  exact ⟨by omega, h⟩

end Layout

/-! ## Writing and reading -/

/-- `update_serialized_size`. -/
def updateSerializedSize (header : IndexFileHeader) : Except Error IndexFileHeader := do
  throwIf (header.columnCount ≤ 0 ∨ (maxSerializedColumns : ℤ) < header.columnCount)
    (.internalError (text "Index file header exceeds one page"))
  pure { header with serializedSize := serializedSizeOf header.columnCount.toNat }

/-- The integers of a header, in the order in which they are written. -/
def fields (header : IndexFileHeader) : List ℤ :=
  [header.serializedSize, header.firstFreePage, header.pageCount, header.rootPage,
    header.columnCount] ++ header.columnTypes ++ header.columnLengths ++
  [header.keyLength, header.treeOrder, header.keysRegionSize, header.firstLeaf, header.lastLeaf,
    if header.unique then 1 else 0]

/-- What the checks of `serialize` and `deserialize` throw. -/
def invalidHeader : Error := .internalError (text "Invalid index file header")

/-- `serialize`: the bytes that it writes to its buffer. -/
def serialize (header : IndexFileHeader) : Except Error Bytes := do
  throwIf (header.columnCount ≤ 0 ∨ (maxSerializedColumns : ℤ) < header.columnCount ∨
      header.columnTypes.length ≠ header.columnCount.toNat ∨
      header.columnLengths.length ≠ header.columnCount.toNat ∨
      header.serializedSize ≠ serializedSizeOf header.columnCount.toNat)
    invalidHeader
  let bytes := header.fields.flatMap int32Bytes
  throwIf ((bytes.length : ℤ) ≠ header.serializedSize) invalidHeader
  pure bytes

/-- `read_value`, on what has not been read yet. Reading past the end of the source is undefined
behaviour. -/
def readValue : StateT Bytes (Except Error) ℤ := fun src =>
  if src.length < 4 then throw .undefinedBehaviour else pure (readInt src)

/-- `read_value` on the elements of a vector. -/
def readValues (count : ℕ) : StateT Bytes (Except Error) (List ℤ) := fun src =>
  if src.length < 4 * count then throw .undefinedBehaviour else pure (readInts count src)

/-- Throw if the header read so far is a wrong one. -/
def rejectIf (p : Prop) [Decidable p] : StateT Bytes (Except Error) Unit :=
  liftM (throwIf p invalidHeader)

/-- `deserialize` on a source of `srcLen` bytes. -/
def deserializeFrom (srcLen : ℕ) : StateT Bytes (Except Error) IndexFileHeader := do
  rejectIf (srcLen < fixedSerializedSize)
  let serializedSize ← readValue
  let firstFreePage ← readValue
  let pageCount ← readValue
  let rootPage ← readValue
  let columnCount ← readValue
  rejectIf (columnCount ≤ 0 ∨ (maxSerializedColumns : ℤ) < columnCount ∨
      (serializedSizeOf columnCount.toNat : ℤ) ≠ serializedSize ∨ (srcLen : ℤ) < serializedSize)
  let columnTypes ← readValues columnCount.toNat
  let columnLengths ← readValues columnCount.toNat
  rejectIf (∃ len ∈ columnLengths, len ≤ 0)
  let keyLength ← readValue
  let treeOrder ← readValue
  let keysRegionSize ← readValue
  let firstLeaf ← readValue
  let lastLeaf ← readValue
  let uniqueFlag ← readValue
  rejectIf (uniqueFlag ≠ 0 ∧ uniqueFlag ≠ 1)
  rejectIf (columnLengths.sum ≠ keyLength ∨ keyLength ≤ 0 ∨ indexMaxKeyLength < keyLength ∨
      treeOrder ≤ 2)
  let regionSize ← calculateKeysRegionSize treeOrder keyLength
  rejectIf (keysRegionSize ≠ regionSize)
  let fits ← pageLayoutFits treeOrder keyLength
  rejectIf (fits = false)
  pure { firstFreePage, pageCount, rootPage, columnCount, columnTypes, columnLengths, keyLength,
         treeOrder, keysRegionSize, firstLeaf, lastLeaf, unique := uniqueFlag == 1, serializedSize }

/-- `deserialize`. -/
def deserialize (src : Bytes) : Except Error IndexFileHeader :=
  (deserializeFrom src.length).run' src

section Reading

variable {α β : Type} {src src' : Bytes} {result : β × Bytes}

theorem readValue_eq_ok {n : ℤ} :
    readValue src = .ok (n, src') ↔ (-2^31 ≤ n ∧ n < 2^31) ∧ src = int32Bytes n ++ src' := by
  unfold readValue
  constructor
  · intro h
    split_ifs at h with hshort
    rw [pure_eq_ok] at h
    have hspec := readInt_spec (not_lt.mp hshort)
    rw [h] at hspec
    exact hspec
  · rintro ⟨⟨hlow, hhigh⟩, rfl⟩
    rw [if_neg (by simp), readInt_append hlow hhigh]
    rfl

theorem readValues_eq_ok {count : ℕ} {ns : List ℤ} :
    readValues count src = .ok (ns, src') ↔ ns.length = count ∧
      (∀ n ∈ ns, -2^31 ≤ n ∧ n < 2^31) ∧ src = ns.flatMap int32Bytes ++ src' := by
  unfold readValues
  constructor
  · intro h
    split_ifs at h with hshort
    rw [pure_eq_ok] at h
    have hspec := readInts_spec (not_lt.mp hshort)
    rw [h] at hspec
    exact hspec
  · rintro ⟨rfl, hbounds, rfl⟩
    rw [if_neg (by rw [List.length_append, length_flatMap_int32Bytes]; omega),
      readInts_append hbounds]
    rfl

theorem run_bind_eq_ok {m : StateT Bytes (Except Error) α}
    {f : α → StateT Bytes (Except Error) β} :
    (m >>= f) src = .ok result ↔ ∃ a src', m src = .ok (a, src') ∧ f a src' = .ok result := by
  show (m src >>= fun p => f p.1 p.2) = .ok result ↔ _
  rw [bind_eq_ok]
  exact Prod.exists

/-- Reading a word takes it from the front of the source. -/
theorem readValue_bind_eq_ok {f : ℤ → StateT Bytes (Except Error) β} :
    (readValue >>= f) src = .ok result ↔
      ∃ n src', (-2^31 ≤ n ∧ n < 2^31) ∧ src = int32Bytes n ++ src' ∧ f n src' = .ok result := by
  simp only [run_bind_eq_ok, readValue_eq_ok, and_assoc]

theorem readValues_bind_eq_ok {count : ℕ} {f : List ℤ → StateT Bytes (Except Error) β} :
    (readValues count >>= f) src = .ok result ↔
      ∃ ns src', ns.length = count ∧ (∀ n ∈ ns, -2^31 ≤ n ∧ n < 2^31) ∧
        src = ns.flatMap int32Bytes ++ src' ∧ f ns src' = .ok result := by
  simp only [run_bind_eq_ok, readValues_eq_ok, and_assoc]

/-- A computation that reads nothing leaves the source as it is. -/
theorem lift_bind_eq_ok {x : Except Error α} {f : α → StateT Bytes (Except Error) β} :
    ((liftM x : StateT Bytes (Except Error) α) >>= f) src = .ok result ↔
      ∃ a, x = .ok a ∧ f a src = .ok result := by
  cases x with
  | error e => exact iff_of_false nofun fun ⟨_, h, _⟩ => nomatch h
  | ok b =>
    show f b src = .ok result ↔ _
    simp

theorem rejectIf_bind_eq_ok {p : Prop} [Decidable p] {f : Unit → StateT Bytes (Except Error) β} :
    (rejectIf p >>= f) src = .ok result ↔ ¬p ∧ f () src = .ok result := by
  rw [rejectIf, lift_bind_eq_ok]
  simp only [throwIf_eq_ok, exists_and_left]
  refine and_congr_right fun _ => ⟨?_, fun h => ⟨(), h⟩⟩
  rintro ⟨_, h⟩
  exact h

end Reading

/-- What `deserialize` checks of a header, and that its other words are integers. -/
structure Valid (header : IndexFileHeader) : Prop where
  columnCount : header.columnCount = header.columnLengths.length
  columnTypes : header.columnTypes.length = header.columnLengths.length
  types : ∀ code ∈ header.columnTypes, -2^31 ≤ code ∧ code < 2^31
  columnCount_pos : header.columnLengths ≠ []
  columnCount_le : header.columnLengths.length ≤ maxSerializedColumns
  serializedSize : header.serializedSize = serializedSizeOf header.columnLengths.length
  len_pos : ∀ len ∈ header.columnLengths, 0 < len
  keyLength : header.keyLength = header.columnLengths.sum
  keyLength_le : header.keyLength ≤ indexMaxKeyLength
  treeOrder : 2 < header.treeOrder
  keysRegionSize : header.keysRegionSize = keysRegion header.treeOrder header.keyLength
  pageHolds : PageHolds header.keyLength header.treeOrder
  pages : ∀ page ∈ [header.firstFreePage, header.pageCount, header.rootPage, header.firstLeaf,
    header.lastLeaf], -2^31 ≤ page ∧ page < 2^31

section Valid

variable {header : IndexFileHeader}

theorem Valid.keyLength_pos (h : Valid header) : 0 < header.keyLength := by
  obtain ⟨len, hlen⟩ := List.exists_mem_of_ne_nil _ h.columnCount_pos
  have hpos := h.len_pos len hlen
  have hle := List.single_le_sum (fun l hl => (h.len_pos l hl).le) len hlen
  have hkey := h.keyLength
  omega

theorem Valid.keys_small (h : Valid header) :
    (header.treeOrder + 1) * header.keyLength ≤ 4096 := by
  have hholds := h.pageHolds
  unfold PageHolds keysRegion at hholds
  omega

theorem Valid.keys_nonneg (h : Valid header) : 0 ≤ (header.treeOrder + 1) * header.keyLength := by
  have horder := h.treeOrder
  exact Int.mul_nonneg (by omega) h.keyLength_pos.le

theorem Valid.len_lt (h : Valid header) {len : ℤ} (hlen : len ∈ header.columnLengths) :
    len < 2^31 := by
  have hle := List.single_le_sum (fun l hl => (h.len_pos l hl).le) len hlen
  have hkey := h.keyLength
  have hmax := h.keyLength_le
  unfold indexMaxKeyLength at hmax
  omega

/-- The fields of a valid header are 32-bit integers. -/
theorem Valid.fields_bounds (h : Valid header) {n : ℤ} (hn : n ∈ header.fields) :
    -2^31 ≤ n ∧ n < 2^31 := by
  have hholds := h.pageHolds
  have hkeys := h.keys_nonneg
  have hkey := h.keyLength_pos
  have hmax := h.keyLength_le
  have hcount := h.columnCount_le
  unfold PageHolds keysRegion at hholds
  unfold indexMaxKeyLength at hmax
  unfold maxSerializedColumns fixedSerializedSize pageSize at hcount
  simp only [fields, List.mem_append, List.mem_cons, List.not_mem_nil, or_false] at hn
  rcases hn with ((hn | hn) | hn) | hn
  · rcases hn with rfl | rfl | rfl | rfl | rfl
    · rw [h.serializedSize]
      unfold serializedSizeOf fixedSerializedSize
      omega
    · exact h.pages _ (by simp)
    · exact h.pages _ (by simp)
    · exact h.pages _ (by simp)
    · rw [h.columnCount]
      omega
  · exact h.types n hn
  · have := h.len_pos n hn
    exact ⟨by omega, h.len_lt hn⟩
  · rcases hn with rfl | rfl | rfl | rfl | rfl | rfl
    · omega
    · omega
    · rw [h.keysRegionSize]
      unfold keysRegion
      omega
    · exact h.pages _ (by simp)
    · exact h.pages _ (by simp)
    · split <;> omega

theorem Valid.serialize (h : Valid header) :
    header.serialize = .ok (header.fields.flatMap int32Bytes) ∧
      (header.fields.flatMap int32Bytes).length = serializedSizeOf header.columnLengths.length := by
  have hlen : (header.fields.flatMap int32Bytes).length =
      serializedSizeOf header.columnLengths.length := by
    rw [length_flatMap_int32Bytes]
    simp only [fields, List.length_append, List.length_cons, List.length_nil,
      h.columnTypes, serializedSizeOf, fixedSerializedSize]
    omega
  have hpos := List.length_pos_iff.mpr h.columnCount_pos
  have hcount := h.columnCount_le
  refine ⟨?_, hlen⟩
  unfold IndexFileHeader.serialize
  simp only [hlen, h.columnCount, h.columnTypes, h.serializedSize, Int.toNat_natCast, ne_eq,
    not_true_eq_false, or_false, throwIf, if_false]
  rw [if_neg (by omega)]
  rfl

/-- The words of a header, one behind the other. -/
theorem flatMap_fields (header : IndexFileHeader) (rest : Bytes) :
    header.fields.flatMap int32Bytes ++ rest =
      int32Bytes header.serializedSize ++ (int32Bytes header.firstFreePage ++
        (int32Bytes header.pageCount ++ (int32Bytes header.rootPage ++
        (int32Bytes header.columnCount ++ (header.columnTypes.flatMap int32Bytes ++
        (header.columnLengths.flatMap int32Bytes ++ (int32Bytes header.keyLength ++
        (int32Bytes header.treeOrder ++ (int32Bytes header.keysRegionSize ++
        (int32Bytes header.firstLeaf ++ (int32Bytes header.lastLeaf ++
        (int32Bytes (if header.unique then 1 else 0) ++ rest)))))))))))) := by
  simp only [fields, List.flatMap_append, List.flatMap_cons, List.flatMap_nil, List.append_nil,
    List.append_assoc]

end Valid

variable {header : IndexFileHeader} {src : Bytes} {srcLen : ℕ}

/-- What is read is a valid header, and stands at the start of the source. -/
theorem valid_of_deserializeFrom {rest : Bytes}
    (h : deserializeFrom srcLen src = .ok (header, rest)) :
    header.Valid ∧ serializedSizeOf header.columnLengths.length ≤ srcLen ∧
      src = header.fields.flatMap int32Bytes ++ rest := by
  unfold deserializeFrom at h
  simp only [rejectIf_bind_eq_ok, readValue_bind_eq_ok, readValues_bind_eq_ok, lift_bind_eq_ok] at h
  -- The words and checks in their order, as the function reads them.
  obtain ⟨-, serializedSize, src₁, -, hsrc, firstFreePage, src₂, hfree, hsrc₁, pageCount, src₃,
    hpages, hsrc₂, rootPage, src₄, hroot, hsrc₃, columnCount, src₅, -, hsrc₄, hcounts, h⟩ := h
  obtain ⟨columnTypes, src₆, htypes, htypesInt, hsrc₅, columnLengths, src₇, hlengths, -, hsrc₆,
    hpos, h⟩ := h
  obtain ⟨keyLength, src₈, -, hsrc₇, treeOrder, src₉, -, hsrc₈, keysRegionSize, src₁₀, -, hsrc₉,
    h⟩ := h
  obtain ⟨firstLeaf, src₁₁, hfirst, hsrc₁₀, lastLeaf, src₁₂, hlast, hsrc₁₁, uniqueFlag, src₁₃, -,
    hsrc₁₂, h⟩ := h
  obtain ⟨hflag, hkey, regionSize, hregion, hsame, fits, hfits, hholds, h⟩ := h
  obtain ⟨rfl, rfl⟩ := Prod.mk.inj (Except.ok.inj h)
  rw [not_not] at hsame
  rw [Bool.not_eq_false] at hholds
  subst hsame hholds
  rw [← hlengths] at hcounts
  have hcount : columnCount = columnLengths.length := by omega
  have hlenPos : 0 < columnLengths.length := by omega
  have hlenLe : columnLengths.length ≤ maxSerializedColumns := by omega
  have hsize : serializedSize = serializedSizeOf columnLengths.length := by omega
  have hsrcLen : serializedSizeOf columnLengths.length ≤ srcLen := by omega
  have hsum : keyLength = columnLengths.sum := by omega
  have hkeyLe : keyLength ≤ indexMaxKeyLength := by omega
  have horder : 2 < treeOrder := by omega
  have hflagEq : (if uniqueFlag == 1 then 1 else 0 : ℤ) = uniqueFlag := by
    by_cases hone : uniqueFlag = 1
    · simp [hone]
    · simp [hone]
      omega
  refine ⟨?_, hsrcLen, ?_⟩
  · exact
      { columnCount := hcount
        columnTypes := htypes.trans hlengths.symm
        types := htypesInt
        columnCount_pos := List.ne_nil_of_length_pos hlenPos
        columnCount_le := hlenLe
        serializedSize := hsize
        len_pos := fun len hlen => not_le.mp fun hle => hpos ⟨len, hlen, hle⟩
        keyLength := hsum
        keyLength_le := hkeyLe
        treeOrder := horder
        keysRegionSize := calculateKeysRegionSize_eq_ok hregion
        pageHolds := pageHolds_of_pageLayoutFits hfits
        pages := by
          simp only [List.forall_mem_cons]
          exact ⟨hfree, hpages, hroot, hfirst, hlast, by simp⟩ }
  · rw [flatMap_fields, hflagEq, hsrc, hsrc₁, hsrc₂, hsrc₃, hsrc₄, hsrc₅, hsrc₆, hsrc₇, hsrc₈,
      hsrc₉, hsrc₁₀, hsrc₁₁, hsrc₁₂]

/-- What is written of a valid header is read back, if it is not longer than the source. -/
theorem Valid.deserializeFrom (hvalid : header.Valid)
    (hle : serializedSizeOf header.columnLengths.length ≤ srcLen) (rest : Bytes) :
    IndexFileHeader.deserializeFrom srcLen (header.fields.flatMap int32Bytes ++ rest) =
      .ok (header, rest) := by
  unfold IndexFileHeader.deserializeFrom
  simp only [rejectIf_bind_eq_ok, readValue_bind_eq_ok, readValues_bind_eq_ok, lift_bind_eq_ok]
  have hbounds : ∀ n ∈ header.fields, -2^31 ≤ n ∧ n < 2^31 := fun n hn => hvalid.fields_bounds hn
  have hnat : header.columnLengths.length = header.columnCount.toNat := by
    rw [hvalid.columnCount, Int.toNat_natCast]
  have hfixed : ¬srcLen < fixedSerializedSize := by
    unfold serializedSizeOf at hle
    omega
  have hcounts : ¬(header.columnCount ≤ 0 ∨ (maxSerializedColumns : ℤ) < header.columnCount ∨
      (serializedSizeOf header.columnCount.toNat : ℤ) ≠ header.serializedSize ∨
      (srcLen : ℤ) < header.serializedSize) := by
    have hpos := List.length_pos_iff.mpr hvalid.columnCount_pos
    have hcount := hvalid.columnCount_le
    rw [hvalid.serializedSize, hvalid.columnCount, Int.toNat_natCast]
    omega
  have hlens : ¬∃ len ∈ header.columnLengths, len ≤ 0 := by
    rintro ⟨len, hmem, hneg⟩
    exact absurd hneg (not_le.mpr (hvalid.len_pos len hmem))
  have hflag : ¬((if header.unique then 1 else 0 : ℤ) ≠ 0 ∧
      (if header.unique then 1 else 0 : ℤ) ≠ 1) := by
    split <;> omega
  have horder := hvalid.treeOrder
  have hkey : ¬(header.columnLengths.sum ≠ header.keyLength ∨ header.keyLength ≤ 0 ∨
      indexMaxKeyLength < header.keyLength ∨ header.treeOrder ≤ 2) := by
    have hsum := hvalid.keyLength
    have hpos := hvalid.keyLength_pos
    have hmax := hvalid.keyLength_le
    omega
  have hregion := calculateKeysRegionSize_eq (by omega) hvalid.keyLength_pos hvalid.keys_small
  have hfits := pageLayoutFits_eq (by omega) hvalid.keyLength_pos hvalid.keys_small
  have hholds : ¬decide (PageHolds header.keyLength header.treeOrder) = false := by
    simpa using hvalid.pageHolds
  have hunique : ((if header.unique then 1 else 0 : ℤ) == 1) = header.unique := by
    cases header.unique <;> rfl
  refine ⟨hfixed, _, _, hbounds _ (by simp [fields]), flatMap_fields header rest,
    _, _, hbounds _ (by simp [fields]), rfl, _, _, hbounds _ (by simp [fields]), rfl,
    _, _, hbounds _ (by simp [fields]), rfl, _, _, hbounds _ (by simp [fields]), rfl, hcounts,
    _, _, hvalid.columnTypes.trans hnat, hvalid.types, rfl,
    _, _, hnat, fun n hn => hbounds n (by simp [fields, hn]), rfl, hlens,
    _, _, hbounds _ (by simp [fields]), rfl, _, _, hbounds _ (by simp [fields]), rfl,
    _, _, hbounds _ (by simp [fields]), rfl, _, _, hbounds _ (by simp [fields]), rfl,
    _, _, hbounds _ (by simp [fields]), rfl, _, _, hbounds _ (by simp [fields]), rfl, hflag, hkey,
    _, hregion, not_not.mpr hvalid.keysRegionSize, _, hfits, hholds, ?_⟩
  rw [hunique]
  rfl

/-- A header is read when it is valid and the source starts with what is written of it. -/
theorem deserializeFrom_eq_ok {rest : Bytes} :
    deserializeFrom srcLen src = .ok (header, rest) ↔
      header.Valid ∧ serializedSizeOf header.columnLengths.length ≤ srcLen ∧
        src = header.fields.flatMap int32Bytes ++ rest := by
  constructor
  · exact valid_of_deserializeFrom
  · rintro ⟨hvalid, hle, rfl⟩
    exact hvalid.deserializeFrom hle rest

/-- `deserialize` accepts the sources that start with what is written of a valid header. -/
theorem deserialize_eq_ok :
    deserialize src = .ok header ↔
      header.Valid ∧ ∃ rest, src = header.fields.flatMap int32Bytes ++ rest := by
  have hrun : deserialize src = .ok header ↔
      ∃ rest, deserializeFrom src.length src = .ok (header, rest) := by
    unfold deserialize StateT.run'
    cases deserializeFrom src.length src with
    | error e => exact iff_of_false nofun fun ⟨_, h⟩ => nomatch h
    | ok result =>
      obtain ⟨header', rest⟩ := result
      constructor
      · intro h
        obtain rfl := Except.ok.inj h
        exact ⟨rest, rfl⟩
      · rintro ⟨_, h⟩
        obtain ⟨rfl, -⟩ := Prod.mk.inj (Except.ok.inj h)
        rfl
  simp only [hrun, deserializeFrom_eq_ok]
  constructor
  · rintro ⟨rest, hvalid, -, hsrc⟩
    exact ⟨hvalid, rest, hsrc⟩
  · rintro ⟨hvalid, rest, rfl⟩
    refine ⟨rest, hvalid, ?_, rfl⟩
    rw [List.length_append, hvalid.serialize.2]
    omega

end IndexFileHeader

end Rucbase
