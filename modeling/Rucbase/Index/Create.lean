import Rucbase.Index.Header
import Rucbase.Index.Key
import Rucbase.Index.LeafScan
import Mathlib.Order.Bounds.Basic

/-!
# Creating and opening an index

`IndexManager::create_index` (`src/index/index_manager.cpp`) writes the three pages of an empty
index, and the constructor of `BPlusTree` (`src/index/b_plus_tree.cpp`) reads the first of them
back. `write_page` and `read_page` are left to the labs. Here they store and return the bytes of a
page, and a file is the list of its pages.

Everything that may be refused is refused before the file is created (`prepare_eq_ok`). The order of
the tree is an estimate that a loop corrects downwards. The estimate is not below any order that
fits on a page, so the loop stops at the largest one (`shrinkOrder_estimate`), and it always finds
one, because four keys of the greatest length fit. What is written is then a valid header, so
`IndexFileHeader.deserialize_eq_ok` reads it back (`createIndex_opens`).
-/

namespace Rucbase

open Lib

/-! ## Pages -/

/-- `IndexPageHeader`. -/
structure IndexPageHeader where
  nextFreePage : ℤ
  parentPage : ℤ
  keyCount : ℤ
  isLeaf : Bool
  previousLeafPage : ℤ
  nextLeafPage : ℤ
  deriving DecidableEq, Repr

namespace IndexPageHeader

/-- The header in memory; three bytes of padding stand behind `is_leaf`. -/
def bytes (header : IndexPageHeader) : Bytes :=
  int32Bytes header.nextFreePage ++ int32Bytes header.parentPage ++ int32Bytes header.keyCount ++
    [if header.isLeaf then 1 else 0, 0, 0, 0] ++ int32Bytes header.previousLeafPage ++
    int32Bytes header.nextLeafPage

/-- A buffer of zeros, of the size of a page, with the header at its start. -/
def page (header : IndexPageHeader) : Bytes := memcpy (List.replicate pageSize 0) 0 header.bytes

/-- The header at the start of a page. -/
def ofPage (page : Bytes) : IndexPageHeader where
  nextFreePage := int32Of (slice page 0 4)
  parentPage := int32Of (slice page 4 4)
  keyCount := int32Of (slice page 8 4)
  isLeaf := (page.drop 12).head?.getD 0 != 0
  previousLeafPage := int32Of (slice page 16 4)
  nextLeafPage := int32Of (slice page 20 4)

end IndexPageHeader

/-- The `Rid` at an offset of a page. -/
def ridAt (page : Bytes) (offset : ℕ) : Rid :=
  ⟨int32Of (slice page offset 4), int32Of (slice page (offset + 4) 4)⟩

/-- The node on a page, as the constructor of `BPlusTreeNode` lays it out: the header, the keys, and
behind the region of the keys the `Rid`s. -/
def IndexFileHeader.nodeOfPage (header : IndexFileHeader) (page : Bytes) : IndexNode :=
  let pageHeader := IndexPageHeader.ofPage page
  { isLeaf := pageHeader.isLeaf
    previousLeafPage := pageHeader.previousLeafPage
    nextLeafPage := pageHeader.nextLeafPage
    rids := (List.range pageHeader.keyCount.toNat).map fun i =>
      ridAt page (sizeofPageHeader.toNat + header.keysRegionSize.toNat + sizeofRid.toNat * i) }

/-- `write_page`: overwrite the front of a page, in a file that grows by pages of zeros. -/
def writePage (file : List Bytes) (pageNo : ℕ) (data : Bytes) : List Bytes :=
  (file ++ List.replicate (pageNo + 1 - file.length) (List.replicate pageSize 0)).modify pageNo
    (memcpy · 0 data)

/-- `read_page` of a whole page. -/
def readPage (file : List Bytes) (pageNo : ℤ) : Except Error Bytes :=
  match if pageNo < 0 then none else file[pageNo.toNat]? with
  | some page => pure page
  | none => throw (.internalError (text "DiskManager::read_page Error"))

/-! ## Creating -/

/-- The files of a directory, by their names. -/
abbrev Files := Bytes → Option (List Bytes)

namespace IndexManager

open IndexFileHeader

/-- `valid_length` in `create_index`. -/
def validLength (column : ColMeta) : Bool :=
  match column.type with
  | .int => decide (0 < column.len) && column.len == 4
  | .float => decide (0 < column.len) && column.len == 4
  | .string => decide (0 < column.len)

/-- The loop of `create_index` over the columns, with the running `checked_key_length`. -/
def checkedKeyLength : List ColMeta → ℤ → Except Error ℤ
  | [], checked => pure checked
  | column :: columns, checked => do
    throwIf (validLength column = false) (.invalidColLengthError column.len)
    let checked := checked + column.len
    throwIf (indexMaxKeyLength < checked) (.invalidColLengthError (toInt32 checked))
    checkedKeyLength columns checked

/-- The loop of `create_index` that takes `tree_order` down until a page has room for it. -/
def shrinkOrder (keyLength : ℤ) : ℕ → Except Error ℕ
  | 0 => pure 0
  | order + 1 =>
    if order + 1 ≤ 2 then pure (order + 1)
    else do
      let fits ← pageLayoutFits (order + 1 : ℕ) keyLength
      if fits then pure (order + 1) else shrinkOrder keyLength order

/-- The first `tree_order` that `create_index` tries. -/
def estimate (keyLength : ℤ) : ℤ := (pageSize - sizeofPageHeader) / (keyLength + sizeofRid) - 1

/-- `create_index`, as far as the header. -/
def makeHeader (index : IndexMeta) : Except Error IndexFileHeader := do
  throwIf (index.cols = [] ∨ maxSerializedColumns < index.cols.length)
    (.internalError (text "Invalid number of index columns"))
  let keyLength ← checkedKeyLength index.cols 0
  let treeOrder ← shrinkOrder keyLength (estimate keyLength).toNat
  throwIf (treeOrder ≤ 2) (.invalidColLengthError keyLength)
  let fits ← pageLayoutFits treeOrder keyLength
  throwIf (fits = false) (.invalidColLengthError keyLength)
  let keysRegionSize ← calculateKeysRegionSize treeOrder keyLength
  updateSerializedSize
    { firstFreePage := indexNoPage
      pageCount := indexInitialPageCount
      rootPage := indexInitialRootPage
      columnCount := index.cols.length
      columnTypes := index.columnTypes.map ColType.code
      columnLengths := index.columnLengths
      keyLength := keyLength
      treeOrder := treeOrder
      keysRegionSize := keysRegionSize
      firstLeaf := indexInitialRootPage
      lastLeaf := indexInitialRootPage
      unique := index.unique
      serializedSize := 0 }

/-- `create_index` before it creates the file: the bytes of the header. -/
def prepare (index : IndexMeta) : Except Error Bytes := do
  let header ← makeHeader index
  header.serialize

/-- The header of the sentinel page. -/
def sentinel : IndexPageHeader :=
  ⟨indexNoPage, indexNoPage, 0, true, indexInitialRootPage, indexInitialRootPage⟩

/-- The header of the initial root page. -/
def root : IndexPageHeader :=
  ⟨indexNoPage, indexNoPage, 0, true, indexLeafHeaderPage, indexLeafHeaderPage⟩

/-- The file that `create_index` writes. -/
def newFile (headerData : Bytes) : List Bytes :=
  let file := writePage [] 0 headerData
  let file := writePage file 1 sentinel.page
  writePage file 2 root.page

/-- `create_index`. -/
def createIndex (files : Files) (index : IndexMeta) : Except Error Unit × Files :=
  match prepare index with
  | .error e => (.error e, files)
  | .ok headerData =>
    let indexName := index.fileName index.tabName
    if (files indexName).isSome then (.error (.fileExistsError indexName), files)
    else (.ok (), Function.update files indexName (some (newFile headerData)))

end IndexManager

/-! ## Opening -/

namespace BPlusTree

/-- The constructor of `BPlusTree`: the file header, and the number of the page that the file is
told to allocate next. -/
def openFile (file : List Bytes) : Except Error (IndexFileHeader × ℤ) := do
  let buf ← readPage file 0
  let header ← IndexFileHeader.deserialize buf
  let physicalPages : ℤ := file.length
  throwIf (2^31 - 1 < physicalPages) (.internalError (text "BPlusTree: index file is too large"))
  pure (header, max header.pageCount physicalPages)

/-- The tree of a file. -/
def ofFile (header : IndexFileHeader) (file : List Bytes) : BPlusTree where
  fetchNode pageNo := (readPage file pageNo).toOption.map header.nodeOfPage
  firstLeaf := header.firstLeaf
  lastLeaf := header.lastLeaf

end BPlusTree

/-! ## What is refused -/

namespace IndexManager

open IndexFileHeader

/-- The indexes that cannot be created. -/
def Refused (index : IndexMeta) : Prop :=
  index.cols = [] ∨ maxSerializedColumns < index.cols.length ∨
    (∃ column ∈ index.cols, column.len ≤ 0 ∨ (column.type ≠ .string ∧ column.len ≠ 4)) ∨
    512 < index.columnLengths.sum

theorem validLength_eq_true {column : ColMeta} : validLength column = true ↔
    ¬(column.len ≤ 0 ∨ (column.type ≠ .string ∧ column.len ≠ 4)) := by
  unfold validLength
  cases column.type <;> simp

theorem len_pos_of_validLength {column : ColMeta} (h : validLength column = true) :
    0 < column.len := by
  rw [validLength_eq_true] at h
  omega

theorem checkedKeyLength_eq_ok {columns : List ColMeta} {checked keyLength : ℤ}
    (hchecked : checked ≤ 512) :
    checkedKeyLength columns checked = .ok keyLength ↔
      (∀ column ∈ columns, validLength column = true) ∧
        checked + (columns.map ColMeta.len).sum ≤ 512 ∧
        keyLength = checked + (columns.map ColMeta.len).sum := by
  induction columns generalizing checked with
  | nil =>
    rw [checkedKeyLength, pure_eq_ok, List.map_nil, List.sum_nil, add_zero]
    constructor
    · rintro rfl
      exact ⟨fun column hcolumn => absurd hcolumn List.not_mem_nil, hchecked, rfl⟩
    · rintro ⟨-, -, rfl⟩
      rfl
  | cons column columns ih =>
    have hrest : (∀ c ∈ columns, validLength c = true) → 0 ≤ (columns.map ColMeta.len).sum := by
      intro hvalid
      apply List.sum_nonneg
      intro len hlen
      obtain ⟨c, hc, rfl⟩ := List.mem_map.mp hlen
      exact (len_pos_of_validLength (hvalid c hc)).le
    rw [checkedKeyLength]
    simp only [bind_eq_ok, throwIf_eq_ok, List.forall_mem_cons, List.map_cons, List.sum_cons]
    constructor
    · rintro ⟨-, hvalid, -, hmax, h⟩
      obtain ⟨hvalids, hsum, rfl⟩ := (ih (not_lt.mp hmax)).mp h
      exact ⟨⟨by simpa using hvalid, hvalids⟩, by omega, by omega⟩
    · rintro ⟨⟨hvalid, hvalids⟩, hsum, rfl⟩
      have := hrest hvalids
      have hmax : checked + column.len ≤ 512 := by omega
      exact ⟨(), by simp [hvalid], (), not_lt.mpr hmax,
        (ih hmax).mpr ⟨hvalids, by omega, by omega⟩⟩

/-! ## The order of the tree -/

theorem shrinkOrder_spec {keyLength : ℤ} (hkey : 0 < keyLength) {start : ℕ}
    (hsmall : ((start : ℤ) + 1) * keyLength ≤ 4096) :
    ∃ order : ℕ, shrinkOrder keyLength start = .ok order ∧
      (2 < order → PageHolds keyLength order) ∧
      ∀ other : ℕ, order < other → other ≤ start → ¬PageHolds keyLength other := by
  induction start with
  | zero => exact ⟨0, rfl, by omega, by omega⟩
  | succ start ih =>
    rw [shrinkOrder]
    by_cases htwo : start + 1 ≤ 2
    · exact ⟨start + 1, by rw [if_pos htwo]; rfl, by omega, by omega⟩
    · rw [if_neg htwo, pageLayoutFits_eq (by omega) hkey hsmall, ok_bind]
      by_cases hholds : PageHolds keyLength (start + 1 : ℕ)
      · rw [decide_eq_true hholds, if_pos rfl]
        exact ⟨start + 1, rfl, fun _ => hholds, by omega⟩
      · have hbelow : ((start : ℤ) + 1) * keyLength ≤ 4096 := by
          have hone : (((start + 1 : ℕ) : ℤ) + 1) * keyLength =
              ((start : ℤ) + 1) * keyLength + keyLength := by push_cast; ring
          omega
        obtain ⟨order, hshrink, hfits, hlargest⟩ := ih hbelow
        rw [decide_eq_false hholds, if_neg Bool.false_ne_true]
        refine ⟨order, hshrink, hfits, ?_⟩
        intro other hlt hle
        rcases Nat.lt_or_ge start other with hnew | hold
        · obtain rfl : other = start + 1 := by omega
          exact hholds
        · exact hlargest other hlt hold

section Estimate

variable {keyLength : ℤ}

/-- No order that fits on a page is above the estimate. -/
theorem le_estimate (hkey : 0 < keyLength) {order : ℤ} (h : PageHolds keyLength order) :
    order ≤ estimate keyLength := by
  obtain ⟨-, hroom⟩ := h
  unfold keysRegion at hroom
  have hslots : (order + 1) * (keyLength + 8) ≤ 4072 := by
    rw [mul_add]
    omega
  have hquot : order + 1 ≤ 4072 / (keyLength + 8) :=
    (Int.le_ediv_iff_mul_le (by omega)).mpr hslots
  show order ≤ 4072 / (keyLength + 8) - 1
  omega

theorem pageHolds_three (hmax : keyLength ≤ 512) : PageHolds keyLength 3 := by
  unfold PageHolds keysRegion
  omega

theorem estimate_small (hkey : 0 < keyLength) (hmax : keyLength ≤ 512) :
    3 ≤ estimate keyLength ∧ (estimate keyLength + 1) * keyLength ≤ 4096 := by
  have hthree := le_estimate hkey (pageHolds_three hmax)
  have hmul : 4072 / (keyLength + 8) * (keyLength + 8) ≤ 4072 := Int.ediv_mul_le _ (by omega)
  have hquot : estimate keyLength + 1 = 4072 / (keyLength + 8) := by
    show 4072 / (keyLength + 8) - 1 + 1 = _
    omega
  rw [← hquot, mul_add] at hmul
  exact ⟨hthree, by omega⟩

/-- From the estimate on, the loop comes to the largest order that fits on a page. -/
theorem shrinkOrder_estimate (hkey : 0 < keyLength) (hmax : keyLength ≤ 512) :
    ∃ order : ℕ, shrinkOrder keyLength (estimate keyLength).toNat = .ok order ∧ 2 < order ∧
      IsGreatest {order : ℤ | PageHolds keyLength order} order := by
  obtain ⟨hthree, hsmall⟩ := estimate_small hkey hmax
  have hstart : ((estimate keyLength).toNat : ℤ) = estimate keyLength := by omega
  obtain ⟨order, hshrink, hfits, hlargest⟩ := shrinkOrder_spec hkey (by rwa [hstart])
  -- The loop does not pass the order three, which fits.
  have htwo : 2 < order := by
    by_contra hle
    exact hlargest 3 (by omega) (by omega) (pageHolds_three hmax)
  refine ⟨order, hshrink, htwo, hfits htwo, ?_⟩
  intro other hother
  have hle := le_estimate hkey hother
  have hpos := hother.1
  by_contra hlt
  have hcast : ((other.toNat : ℕ) : ℤ) = other := by omega
  exact hlargest other.toNat (by omega) (by omega) (by rwa [hcast])

end Estimate

/-! ## The header -/

/-- The header of a new index. -/
structure NewHeader (index : IndexMeta) (header : IndexFileHeader) : Prop where
  columnTypes : header.columnTypes = index.columnTypes.map ColType.code
  columnLengths : header.columnLengths = index.columnLengths
  unique : header.unique = index.unique
  keyLength : header.keyLength = index.columnLengths.sum
  /-- No larger order fits on a page. -/
  treeOrder : IsGreatest {order : ℤ | PageHolds header.keyLength order} header.treeOrder
  rootPage : header.rootPage = 2
  firstLeaf : header.firstLeaf = 2
  lastLeaf : header.lastLeaf = 2
  pageCount : header.pageCount = 3

section Header

variable {index : IndexMeta}

theorem columnLengths_of_not_refused (h : ¬Refused index) :
    (∀ len ∈ index.columnLengths, 0 < len) ∧ 0 < index.columnLengths.sum ∧
      checkedKeyLength index.cols 0 = .ok index.columnLengths.sum := by
  unfold Refused at h
  push Not at h
  obtain ⟨hne, -, hvalid, hmax⟩ := h
  have hvalid : ∀ column ∈ index.cols, validLength column = true := by
    intro column hcolumn
    have := hvalid column hcolumn
    rw [validLength_eq_true]
    push Not
    exact this
  have hpos : ∀ len ∈ index.columnLengths, 0 < len := by
    intro len hlen
    obtain ⟨column, hcolumn, rfl⟩ := List.mem_map.mp hlen
    exact len_pos_of_validLength (hvalid column hcolumn)
  refine ⟨hpos, ?_, ?_⟩
  · obtain ⟨column, hcolumn⟩ := List.exists_mem_of_ne_nil _ hne
    have hmem : column.len ∈ index.columnLengths := List.mem_map_of_mem hcolumn
    have hle := List.single_le_sum (fun len hlen => (hpos len hlen).le) _ hmem
    have := hpos _ hmem
    omega
  · rw [checkedKeyLength_eq_ok (by omega)]
    exact ⟨hvalid, by rw [zero_add]; exact hmax, (zero_add _).symm⟩

/-- An index that is not refused has a header. -/
theorem makeHeader_of_not_refused (h : ¬Refused index) :
    ∃ header, makeHeader index = .ok header ∧ header.Valid ∧ NewHeader index header := by
  obtain ⟨hlens, hpos, hkey⟩ := columnLengths_of_not_refused h
  unfold Refused at h
  push Not at h
  obtain ⟨hne, hcount, -, hmax⟩ := h
  obtain ⟨order, hshrink, htwo, hgreatest⟩ := shrinkOrder_estimate hpos hmax
  have hholds : PageHolds index.columnLengths.sum order := hgreatest.1
  have hsmall : ((order : ℤ) + 1) * index.columnLengths.sum ≤ 4096 := by
    have hroom := hholds.2
    unfold keysRegion at hroom
    omega
  have hlength : index.columnLengths.length = index.cols.length := List.length_map _
  have hcols : 0 < index.cols.length := List.length_pos_iff.mpr hne
  refine ⟨⟨indexNoPage, indexInitialPageCount, indexInitialRootPage, index.cols.length,
    index.columnTypes.map ColType.code, index.columnLengths, index.columnLengths.sum, order,
    keysRegion order index.columnLengths.sum, indexInitialRootPage, indexInitialRootPage,
    index.unique, serializedSizeOf index.cols.length⟩, ?_, ?_, ?_⟩
  · -- Each check passes, and the loop has found its order.
    have hnumber : ¬(index.cols = [] ∨ maxSerializedColumns < index.cols.length) := by
      rintro (hnil | hmany)
      · exact hne hnil
      · omega
    have hsize : ¬((index.cols.length : ℤ) ≤ 0 ∨
        (maxSerializedColumns : ℤ) < index.cols.length) := by omega
    unfold makeHeader updateSerializedSize
    rw [throwIf_bind hnumber, hkey, ok_bind, hshrink, ok_bind, throwIf_bind (not_le.mpr htwo),
      pageLayoutFits_eq (by omega) hpos hsmall, ok_bind, throwIf_bind (by simpa using hholds),
      calculateKeysRegionSize_eq (by omega) hpos hsmall, ok_bind, throwIf_bind hsize]
    rfl
  · exact
      { columnCount := by rw [hlength]
        columnTypes := by rw [hlength, List.length_map]; exact List.length_map _
        types := by
          intro code hcode
          obtain ⟨type, -, rfl⟩ := List.mem_map.mp hcode
          exact type.code_bounds
        columnCount_pos := by rwa [ne_eq, IndexMeta.columnLengths, List.map_eq_nil_iff]
        columnCount_le := by rw [hlength]; exact hcount
        serializedSize := by rw [hlength]
        len_pos := hlens
        keyLength := rfl
        keyLength_le := hmax
        treeOrder := Int.ofNat_lt.mpr htwo
        keysRegionSize := rfl
        pageHolds := hholds
        pages := by simp [indexNoPage, indexInitialPageCount, indexInitialRootPage] }
  · exact ⟨rfl, rfl, rfl, rfl, hgreatest, rfl, rfl, rfl, rfl⟩

/-- An index that has a header was not refused. -/
theorem not_refused_of_makeHeader {header : IndexFileHeader} (h : makeHeader index = .ok header) :
    ¬Refused index := by
  unfold makeHeader at h
  obtain ⟨u, hnumber, h⟩ := bind_eq_ok.mp h
  obtain ⟨keyLength, hkey, -⟩ := bind_eq_ok.mp h
  obtain ⟨hvalid, hsum, -⟩ := (checkedKeyLength_eq_ok (by omega)).mp hkey
  rw [throwIf_eq_ok] at hnumber
  rintro (hnil | hmany | ⟨column, hcolumn, hwrong⟩ | hlong)
  · exact hnumber (.inl hnil)
  · exact hnumber (.inr hmany)
  · exact validLength_eq_true.mp (hvalid column hcolumn) hwrong
  · rw [zero_add] at hsum
    exact not_lt.mpr hsum hlong

/-- `create_index` throws before it creates a file exactly for the indexes that are refused. -/
theorem prepare_eq_error : (∃ e, prepare index = .error e) ↔ Refused index := by
  constructor
  · rintro ⟨e, herror⟩
    by_contra h
    obtain ⟨header, hheader, hvalid, -⟩ := makeHeader_of_not_refused h
    rw [prepare, hheader, ok_bind, hvalid.serialize.1] at herror
    exact absurd herror (by simp)
  · intro h
    cases hprepare : prepare index with
    | error e => exact ⟨e, rfl⟩
    | ok headerData =>
      obtain ⟨header, hheader, -⟩ := bind_eq_ok.mp hprepare
      exact absurd h (not_refused_of_makeHeader hheader)

end Header

/-! ## The pages -/

theorem length_bytes (header : IndexPageHeader) : header.bytes.length = 24 := by
  simp [IndexPageHeader.bytes]

theorem memcpy_zeros (data : Bytes) :
    memcpy (List.replicate pageSize 0) 0 data =
      data ++ List.replicate (pageSize - data.length) 0 := by
  simp [memcpy]

theorem length_page (header : IndexPageHeader) : header.page.length = pageSize := by
  rw [IndexPageHeader.page, memcpy_zeros, List.length_append, length_bytes, List.length_replicate]
  decide

theorem newFile_eq (headerData : Bytes) :
    newFile headerData =
      [headerData ++ List.replicate (pageSize - headerData.length) 0, sentinel.page,
        root.page] := by
  have hpage : ∀ header : IndexPageHeader,
      memcpy (List.replicate pageSize 0) 0 header.page = header.page := by
    intro header
    rw [memcpy_zeros, length_page, Nat.sub_self, List.replicate_zero, List.append_nil]
  rw [← memcpy_zeros, ← hpage sentinel, ← hpage root]
  rfl

/-- The tree of a new file: an empty root on page 2, alone in the chain of leaves. -/
structure EmptyTree (header : IndexFileHeader) (file : List Bytes) : Prop where
  root : ∃ page, readPage file header.rootPage = .ok page ∧
    IndexPageHeader.ofPage page = ⟨indexNoPage, indexNoPage, 0, true, 1, 1⟩
  chain : LeafChain (BPlusTree.ofFile header file) [⟨2, ⟨true, 1, 1, []⟩⟩]

section Pages

variable {header : IndexFileHeader}

theorem ofPage_sentinel : IndexPageHeader.ofPage sentinel.page = sentinel := by decide +kernel

theorem ofPage_root : IndexPageHeader.ofPage root.page = root := by decide +kernel

theorem nodeOfPage_root : header.nodeOfPage root.page = ⟨true, 1, 1, []⟩ := by
  rw [IndexFileHeader.nodeOfPage, ofPage_root]
  rfl

theorem nodeOfPage_sentinel : header.nodeOfPage sentinel.page = ⟨true, 2, 2, []⟩ := by
  rw [IndexFileHeader.nodeOfPage, ofPage_sentinel]
  rfl

theorem emptyTree_newFile {index : IndexMeta} (h : NewHeader index header) (headerData : Bytes) :
    EmptyTree header (newFile headerData) := by
  have hroot : readPage (newFile headerData) 2 = .ok root.page := by
    rw [newFile_eq]
    rfl
  have hsentinel : readPage (newFile headerData) 1 = .ok sentinel.page := by
    rw [newFile_eq]
    rfl
  have hrootNode : (BPlusTree.ofFile header (newFile headerData)).fetchNode 2 =
      some ⟨true, 1, 1, []⟩ := by
    show ((readPage (newFile headerData) 2).toOption.map header.nodeOfPage) = _
    rw [hroot, ← @nodeOfPage_root header]
    rfl
  have hsentinelNode : (BPlusTree.ofFile header (newFile headerData)).fetchNode 1 =
      some ⟨true, 2, 2, []⟩ := by
    show ((readPage (newFile headerData) 1).toOption.map header.nodeOfPage) = _
    rw [hsentinel, ← @nodeOfPage_sentinel header]
    rfl
  constructor
  · rw [h.rootPage]
    exact ⟨root.page, hroot, ofPage_root⟩
  · exact
      { firstLeaf := congrArg some h.firstLeaf.symm
        lastLeaf := congrArg some h.lastLeaf.symm
        sentinel := ⟨_, hsentinelNode, h.firstLeaf.symm, h.lastLeaf.symm⟩
        links := ⟨hrootNode, rfl, rfl, rfl, trivial⟩
        nodup := by decide
        rids_ne := fun hne => absurd rfl hne }

/-- Opening a new file reads its header back. -/
theorem openFile_newFile {index : IndexMeta} (hvalid : header.Valid) (h : NewHeader index header) :
    BPlusTree.openFile (newFile (header.fields.flatMap int32Bytes)) = .ok (header, 3) := by
  have hread : readPage (newFile (header.fields.flatMap int32Bytes)) 0 =
      .ok (header.fields.flatMap int32Bytes ++
        List.replicate (pageSize - (header.fields.flatMap int32Bytes).length) 0) := by
    rw [newFile_eq]
    rfl
  have hpages : (newFile (header.fields.flatMap int32Bytes)).length = 3 := by
    rw [newFile_eq]
    rfl
  rw [BPlusTree.openFile, hread, ok_bind, deserialize_eq_ok.mpr ⟨hvalid, _, rfl⟩, ok_bind, hpages,
    throwIf_bind (by decide), h.pageCount]
  rfl

end Pages

/-- What `create_index` writes is what opening the index reads. -/
theorem createIndex_opens (files : Files) (index : IndexMeta) :
    ((∃ e, prepare index = .error e) ↔ Refused index) ∧
    (Refused index → ∃ e, createIndex files index = (.error e, files)) ∧
    (¬Refused index → files (index.fileName index.tabName) = none →
      ∃ file header,
        createIndex files index =
          (.ok (), Function.update files (index.fileName index.tabName) (some file)) ∧
        BPlusTree.openFile file = .ok (header, 3) ∧ NewHeader index header ∧
        EmptyTree header file) := by
  refine ⟨prepare_eq_error, ?_, ?_⟩
  · intro h
    obtain ⟨e, he⟩ := prepare_eq_error.mpr h
    exact ⟨e, by rw [createIndex, he]⟩
  · intro h hfree
    obtain ⟨header, hheader, hvalid, hnew⟩ := makeHeader_of_not_refused h
    obtain ⟨hserialize, hlength⟩ := hvalid.serialize
    have hprepare : prepare index = .ok (header.fields.flatMap int32Bytes) := by
      rw [prepare, hheader, ok_bind, hserialize]
    refine ⟨newFile (header.fields.flatMap int32Bytes), header, ?_,
      openFile_newFile hvalid hnew, hnew, emptyTree_newFile hnew _⟩
    rw [createIndex, hprepare]
    simp [hfree]

/-- The index of twelve-byte keys is opened with an order of 202. -/
theorem createIndex_opens_enrolment :
    ¬Refused enrolment ∧
      ∃ file header, createIndex (fun _ => none) enrolment =
          (.ok (), Function.update (fun _ => none) (text "enrolment_student_course.idx")
            (some file)) ∧
        BPlusTree.openFile file = .ok (header, 3) ∧ header.keyLength = 12 ∧
        header.treeOrder = 202 := by
  have hrefused : ¬Refused enrolment := by
    unfold Refused
    decide
  obtain ⟨-, -, hopens⟩ := createIndex_opens (fun _ => none) enrolment
  obtain ⟨file, header, hcreate, hopen, hnew, -⟩ := hopens hrefused rfl
  have hkey : header.keyLength = 12 := hnew.keyLength
  have horder : header.treeOrder = 202 := by
    have hgreatest := hnew.treeOrder
    rw [hkey] at hgreatest
    apply hgreatest.unique
    refine ⟨by decide, ?_⟩
    intro order horder
    have hroom := horder.2
    unfold keysRegion at hroom
    omega
  exact ⟨hrefused, file, header, hcreate, hopen, hkey, horder⟩

end IndexManager

end Rucbase
