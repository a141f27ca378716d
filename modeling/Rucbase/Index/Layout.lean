import Rucbase.Index.Create
import Rucbase.Index.StoredHeader
import Rucbase.Lib.Machine
import Rucbase.Lib.Slots

/-!
# The layout of index pages

A page of an index is the page header, an array of keys and an array of `Rid`s. The arrays have one
slot more than the tree has keys in a node, for the key that makes a node split. Where they start is
computed by the constructor of `BPlusTreeNode` (`src/index/b_plus_tree.cpp`) from the fields of the
file header, and these come from the file: what keeps them apart are the checks of `deserialize`
(`src/index/index_types.cpp`).

The checks multiply fields that may be any integers of 32 bits. `Machine` is their arithmetic in the
types of the source, where every intermediate result has to fit; it agrees with the exact arithmetic
of `Index/Header` on all arguments (`machine_calculateKeysRegionSize`, `machine_pageLayoutFits`). A
header that passes gives the two arrays disjoint slots inside the page (`Valid.safeLayout`).
-/

namespace Rucbase

open Lib

namespace IndexFileHeader

/-- What `calculate_keys_region_size` throws. -/
def invalidLayout : Error := .internalError (text "Invalid index page layout")

/-! ## Machine arithmetic -/

namespace Machine

/-- `calculate_keys_region_size`, in `int64_t` up to the conversion of the result. -/
def calculateKeysRegionSize (treeOrder keyLength : IntType.int.Val) :
    Except (Fault Error) IntType.int.Val := do
  throwIf (treeOrder.val < 0 ∨ keyLength.val ≤ 0) (.thrown invalidLayout)
  let slotCount ← IntType.int64.fit .overflow (treeOrder.val + 1)
  let rawSize ← IntType.int64.fit .overflow (slotCount.val * keyLength.val)
  -- `(raw_size + alignment - 1) / alignment * alignment`, from left to right.
  let sum ← IntType.int64.fit .overflow (rawSize.val + alignofRid)
  let sum ← IntType.int64.fit .overflow (sum.val - 1)
  let quotient ← IntType.int64.fit .overflow (sum.val.tdiv alignofRid)
  let alignedSize ← IntType.int64.fit .overflow (quotient.val * alignofRid)
  throwIf (IntType.int.max < alignedSize.val) (.thrown invalidLayout)
  IntType.int.fit .overflow alignedSize.val

/-- `page_layout_fits`. The sum is one of `size_t`, to which its signed operands are converted. In
that type arithmetic wraps around, which is an overflow here as well. -/
def pageLayoutFits (treeOrder keyLength : IntType.int.Val) : Except (Fault Error) Bool :=
  if treeOrder.val < 0 ∨ keyLength.val ≤ 0 then pure false
  else do
    let slotCount ← IntType.int64.fit .overflow (treeOrder.val + 1)
    let keysRegionSize ← calculateKeysRegionSize treeOrder keyLength
    let keysRegionSize ← IntType.size.fit .overflow keysRegionSize.val
    let front ← IntType.size.fit .overflow (sizeofPageHeader + keysRegionSize.val)
    let slotCount ← IntType.size.fit .overflow slotCount.val
    let rids ← IntType.size.fit .overflow (slotCount.val * sizeofRid)
    let total ← IntType.size.fit .overflow (front.val + rids.val)
    pure (decide (total.val ≤ pageSize))

end Machine

section Machine

variable (treeOrder keyLength : IntType.int.Val)

/-- The product of two integers of 32 bits, one of them increased, is far from 64 bits. -/
theorem keys_bounds (horder : 0 ≤ treeOrder.val) (hkey : 0 < keyLength.val) :
    0 ≤ (treeOrder.val + 1) * keyLength.val ∧ (treeOrder.val + 1) * keyLength.val < 2^62 := by
  have hmaxOrder : treeOrder.val + 1 ≤ 2^31 := by
    have hmax : treeOrder.val ≤ 2^31 - 1 := treeOrder.holds.2
    omega
  have hmaxKey : keyLength.val ≤ 2^31 - 1 := keyLength.holds.2
  constructor
  · exact Int.mul_nonneg (by omega) hkey.le
  · calc (treeOrder.val + 1) * keyLength.val
        ≤ 2^31 * (2^31 - 1) := Int.mul_le_mul hmaxOrder hmaxKey hkey.le (by decide)
      _ < 2^62 := by decide

/-- `calculate_keys_region_size` on all arguments. -/
theorem calculateKeysRegionSize_cases (treeOrder keyLength : ℤ) :
    calculateKeysRegionSize treeOrder keyLength =
      if treeOrder < 0 ∨ keyLength ≤ 0 ∨ 2^31 - 1 < keysRegion treeOrder keyLength then
        .error invalidLayout
      else .ok (keysRegion treeOrder keyLength) := by
  unfold calculateKeysRegionSize
  simp only [aligned_eq_keysRegion]
  by_cases hargs : treeOrder < 0 ∨ keyLength ≤ 0
  · rw [if_pos (by omega), throwIf, if_pos hargs]
    rfl
  rw [throwIf_bind hargs]
  by_cases hlarge : 2^31 - 1 < keysRegion treeOrder keyLength
  · rw [if_pos (by omega), throwIf, if_pos hlarge]
    rfl
  · rw [if_neg (by omega), throwIf_bind hlarge]
    rfl

/-- No step of `calculate_keys_region_size` overflows: it computes what exact arithmetic does. -/
theorem machine_calculateKeysRegionSize :
    (Machine.calculateKeysRegionSize treeOrder keyLength).map IntType.Val.val =
      (calculateKeysRegionSize treeOrder.val keyLength.val).mapError .thrown := by
  rw [calculateKeysRegionSize_cases]
  unfold Machine.calculateKeysRegionSize keysRegion alignofRid
  by_cases hargs : treeOrder.val < 0 ∨ keyLength.val ≤ 0
  · rw [if_pos (by omega), throwIf, if_pos hargs]
    rfl
  have hmaxOrder : treeOrder.val ≤ 2^31 - 1 := treeOrder.holds.2
  obtain ⟨hnonneg, hsmall⟩ := keys_bounds treeOrder keyLength (by omega) (by omega)
  rw [throwIf_bind hargs, IntType.fit_bind _ (IntType.holds_int64 (by omega) (by omega)),
    IntType.fit_bind _ (IntType.holds_int64 hnonneg (by omega))]
  dsimp only
  generalize (treeOrder.val + 1) * keyLength.val = rawSize at hnonneg hsmall ⊢
  -- The sum is not negative, so the division of the language is the one of the integers.
  have hdiv : (rawSize + 4 - 1).tdiv 4 = (rawSize + 3) / 4 := by
    rw [Int.tdiv_eq_ediv_of_nonneg (by omega)]
    omega
  have hsum : IntType.int64.Holds (rawSize + 4) := IntType.holds_int64 (by omega) (by omega)
  have hpadded : IntType.int64.Holds (rawSize + 4 - 1) := IntType.holds_int64 (by omega) (by omega)
  have hunits : IntType.int64.Holds ((rawSize + 3) / 4) := IntType.holds_int64 (by omega) (by omega)
  have haligned : IntType.int64.Holds ((rawSize + 3) / 4 * 4) :=
    IntType.holds_int64 (by omega) (by omega)
  rw [IntType.fit_bind _ hsum, IntType.fit_bind _ hpadded]
  dsimp only
  rw [hdiv, IntType.fit_bind _ hunits, IntType.fit_bind _ haligned]
  dsimp only
  by_cases hlarge : IntType.int.max < (rawSize + 3) / 4 * 4
  · have hthrows : treeOrder.val < 0 ∨ keyLength.val ≤ 0 ∨ 2^31 - 1 < (rawSize + 3) / 4 * 4 :=
      .inr (.inr hlarge)
    rw [if_pos hthrows, throwIf, if_pos hlarge]
    rfl
  · have hint : IntType.int.Holds ((rawSize + 3) / 4 * 4) :=
      ⟨show (-2^31 : ℤ) ≤ _ by omega, not_lt.mp hlarge⟩
    have hreturns :
        ¬(treeOrder.val < 0 ∨ keyLength.val ≤ 0 ∨ 2^31 - 1 < (rawSize + 3) / 4 * 4) :=
      fun h => hargs (h.imp_right fun h => h.resolve_right hlarge)
    rw [if_neg hreturns, throwIf_bind hlarge, IntType.fit_eq_ok hint]
    rfl

/-- No step of `page_layout_fits` overflows either. -/
theorem machine_pageLayoutFits :
    Machine.pageLayoutFits treeOrder keyLength =
      (pageLayoutFits treeOrder.val keyLength.val).mapError .thrown := by
  have hexact := machine_calculateKeysRegionSize treeOrder keyLength
  unfold Machine.pageLayoutFits pageLayoutFits
  by_cases hargs : treeOrder.val < 0 ∨ keyLength.val ≤ 0
  · rw [if_pos hargs, if_pos hargs]
    rfl
  have hmaxOrder : treeOrder.val ≤ 2^31 - 1 := treeOrder.holds.2
  have hnonneg := (keys_bounds treeOrder keyLength (by omega) (by omega)).1
  rw [if_neg hargs, if_neg hargs, IntType.fit_bind _ (IntType.holds_int64 (by omega) (by omega))]
  rw [calculateKeysRegionSize_cases] at hexact ⊢
  cases hregion : Machine.calculateKeysRegionSize treeOrder keyLength with
  | error fault =>
    -- The exception of the inner call is passed on.
    rw [hregion] at hexact
    split_ifs at hexact ⊢ with hthrows
    · cases hexact
      rfl
    · cases hexact
  | ok size =>
    rw [hregion] at hexact
    split_ifs at hexact ⊢ with hthrows
    · cases hexact
    have hsize : size.val = keysRegion treeOrder.val keyLength.val := Except.ok.inj hexact
    have hlow : 0 ≤ keysRegion treeOrder.val keyLength.val := by
      unfold keysRegion
      omega
    have hhigh : keysRegion treeOrder.val keyLength.val ≤ 2^31 - 1 := by
      rw [not_or, not_or] at hthrows
      exact not_lt.mp hthrows.2.2
    rw [ok_bind]
    simp only [hsize]
    unfold sizeofPageHeader sizeofRid
    have hregionSize : IntType.size.Holds (keysRegion treeOrder.val keyLength.val) :=
      IntType.holds_size hlow (by omega)
    have hfront : IntType.size.Holds (24 + keysRegion treeOrder.val keyLength.val) :=
      IntType.holds_size (by omega) (by omega)
    have hslots : IntType.size.Holds (treeOrder.val + 1) :=
      IntType.holds_size (by omega) (by omega)
    have hrids : IntType.size.Holds ((treeOrder.val + 1) * 8) :=
      IntType.holds_size (by omega) (by omega)
    have htotal : IntType.size.Holds
        (24 + keysRegion treeOrder.val keyLength.val + (treeOrder.val + 1) * 8) :=
      IntType.holds_size (by omega) (by omega)
    rw [IntType.fit_bind _ hregionSize, IntType.fit_bind _ hfront, IntType.fit_bind _ hslots,
      IntType.fit_bind _ hrids, IntType.fit_bind _ htotal]
    rfl

/-- `page_layout_fits` on all arguments. -/
theorem pageLayoutFits_cases (treeOrder keyLength : ℤ) :
    pageLayoutFits treeOrder keyLength =
      if treeOrder < 0 ∨ keyLength ≤ 0 then .ok false
      else if 2^31 - 1 < keysRegion treeOrder keyLength then .error invalidLayout
      else .ok (decide (PageHolds keyLength treeOrder)) := by
  unfold pageLayoutFits
  rw [calculateKeysRegionSize_cases]
  by_cases hargs : treeOrder < 0 ∨ keyLength ≤ 0
  · rw [if_pos hargs, if_pos hargs]
    rfl
  rw [if_neg hargs, if_neg hargs]
  by_cases hlarge : 2^31 - 1 < keysRegion treeOrder keyLength
  · rw [if_pos (by omega), if_pos hlarge]
    rfl
  · have hnonneg : 0 ≤ treeOrder := by omega
    rw [if_neg (by omega), if_neg hlarge, ok_bind]
    simp only [PageHolds, hnonneg, true_and, sizeofPageHeader, sizeofRid, pageSize]
    rfl

end Machine

end IndexFileHeader

/-! ## The slots of a node -/

/-- The pointers of a `BPlusTreeNode`, as offsets from the start of its page. -/
structure NodeView where
  fileHeader : IndexFileHeader
  keys : ℤ
  rids : ℤ

namespace NodeView

open IndexFileHeader

/-- The constructor of `BPlusTreeNode`. -/
def make (fileHeader : IndexFileHeader) : NodeView :=
  let keys := sizeofPageHeader
  { fileHeader, keys, rids := keys + fileHeader.keysRegionSize }

/-- `get_key`. -/
def getKey (view : NodeView) (keyIdx : ℤ) : ℤ := view.keys + keyIdx * view.fileHeader.keyLength

/-- `get_rid`. -/
def getRid (view : NodeView) (ridIdx : ℤ) : ℤ := view.rids + ridIdx * sizeofRid

end NodeView

namespace IndexFileHeader

/-- The two arrays of a node. -/
inductive NodeArray where
  | keys
  | rids
  deriving DecidableEq, Repr

/-- A slot of a node: one of an array, with an index from 0 to `tree_order_`. -/
structure Slot (header : IndexFileHeader) where
  array : NodeArray
  index : ℤ
  nonneg : 0 ≤ index
  le_treeOrder : index ≤ header.treeOrder
  deriving DecidableEq

namespace Slot

variable {header : IndexFileHeader}

/-- What `get_key` or `get_rid` returns for the slot. -/
def address (slot : Slot header) : ℤ :=
  match slot.array with
  | .keys => (NodeView.make header).getKey slot.index
  | .rids => (NodeView.make header).getRid slot.index

/-- The size of a key or of a `Rid`. -/
def size (slot : Slot header) : ℤ :=
  match slot.array with
  | .keys => header.keyLength
  | .rids => sizeofRid

/-- The addresses of the slot. -/
def addresses (slot : Slot header) : Set ℤ := Set.Ico slot.address (slot.address + slot.size)

end Slot

/-- The slots of a node can be used as if each of them were memory of its own. -/
structure SafeLayout (header : IndexFileHeader) : Prop where
  /-- Every slot lies inside the page. -/
  inside (p : Slot header) : p.addresses ⊆ Set.Ico 0 (pageSize : ℤ)
  /-- No slot meets the page header. -/
  pageHeader (p : Slot header) : Disjoint p.addresses (Set.Ico 0 sizeofPageHeader)
  /-- Different slots do not meet. -/
  disjoint {p q : Slot header} : p ≠ q → Disjoint p.addresses q.addresses
  /-- Every `Rid` is aligned, on a page that is. -/
  aligned (p : Slot header) : p.array = .rids → alignofRid ∣ p.address

section SafeLayout

variable {header : IndexFileHeader}

/-- The part of the page that an array has for its slots. -/
def NodeArray.extent (header : IndexFileHeader) : NodeArray → Set ℤ
  | .keys => Set.Ico (NodeView.make header).keys (NodeView.make header).rids
  | .rids => Set.Ico (NodeView.make header).rids (pageSize : ℤ)

theorem Valid.addresses_subset (h : Valid header) (p : Slot header) :
    p.addresses ⊆ p.array.extent header := by
  obtain ⟨array, index, hnonneg, hle⟩ := p
  have hregion := h.keysRegionSize
  have hfits := h.pageHolds.2
  -- `get_key` and `get_rid` give the cells of two arrays, so the last slot decides for all.
  cases array with
  | keys =>
    refine (cell_subset h.keyLength_pos.le hnonneg (Int.lt_add_one_of_le hle)).trans ?_
    refine Set.Ico_subset_Ico_right (Int.add_le_add_left ?_ _)
    rw [hregion]
    unfold keysRegion
    omega
  | rids =>
    refine (cell_subset (by decide) hnonneg (Int.lt_add_one_of_le hle)).trans ?_
    refine Set.Ico_subset_Ico_right ?_
    unfold NodeView.make sizeofPageHeader sizeofRid pageSize
    dsimp only
    omega

theorem Valid.extent_subset (h : Valid header) (array : NodeArray) :
    array.extent header ⊆ Set.Ico sizeofPageHeader (pageSize : ℤ) := by
  have hregion := h.keysRegionSize
  have hfits := h.pageHolds.2
  have horder := h.treeOrder
  have hkeys := h.keys_nonneg
  unfold keysRegion at hregion hfits
  cases array with
  | keys =>
    refine Set.Ico_subset_Ico_right ?_
    unfold NodeView.make sizeofPageHeader pageSize
    dsimp only
    omega
  | rids =>
    refine Set.Ico_subset_Ico_left ?_
    unfold NodeView.make sizeofPageHeader
    dsimp only
    omega

theorem disjoint_extent {array array' : NodeArray} (hne : array ≠ array') :
    Disjoint (array.extent header) (array'.extent header) := by
  match array, array' with
  | .keys, .keys | .rids, .rids => exact absurd rfl hne
  | .keys, .rids => exact Set.Ico_disjoint_Ico_same
  | .rids, .keys => exact Set.Ico_disjoint_Ico_same.symm

/-- The checks of `deserialize` are enough for the layout. -/
theorem Valid.safeLayout (h : Valid header) : SafeLayout header where
  inside p := by
    refine (h.addresses_subset p).trans ((h.extent_subset p.array).trans ?_)
    exact Set.Ico_subset_Ico_left (by decide)
  pageHeader p := by
    refine Disjoint.mono_left ((h.addresses_subset p).trans (h.extent_subset p.array)) ?_
    exact Set.Ico_disjoint_Ico_same.symm
  disjoint := by
    rintro ⟨array, i, hi, hi'⟩ ⟨array', j, hj, hj'⟩ hne
    -- Slots of one array are cells of it; the arrays themselves have no address in common.
    by_cases harrays : array = array'
    · subst harrays
      have hindices : i ≠ j := by
        rintro rfl
        exact hne rfl
      cases array <;> exact disjoint_cell hindices
    · exact (disjoint_extent harrays).mono (h.addresses_subset _) (h.addresses_subset _)
  aligned := by
    rintro ⟨_, j, _, _⟩ rfl
    show alignofRid ∣ sizeofPageHeader + header.keysRegionSize + j * sizeofRid
    rw [h.keysRegionSize]
    unfold keysRegion alignofRid sizeofPageHeader sizeofRid
    omega

/-- A slot takes some bytes. -/
theorem Valid.size_pos (h : Valid header) (p : Slot header) : 0 < p.size := by
  obtain ⟨array, -, -, -⟩ := p
  cases array with
  | keys => exact h.keyLength_pos
  | rids => exact (by decide : (0 : ℤ) < sizeofRid)

/-- A slot lies behind the page header and inside the page. -/
theorem Valid.address_bounds (h : Valid header) (p : Slot header) :
    sizeofPageHeader ≤ p.address ∧ p.address + p.size ≤ pageSize :=
  (Set.Ico_subset_Ico_iff (Int.lt_add_of_pos_right _ (h.size_pos p))).mp
    ((h.addresses_subset p).trans (h.extent_subset p.array))

/-- Headers that are accepted give their pages a safe layout, and the computations behind their
acceptance are exact: on all arguments they return the size of the region and whether the page has
room, or throw where the size is no `int`. -/
theorem safeLayout_of_deserialize :
    (∀ src header, deserialize src = .ok header → SafeLayout header) ∧
      ∀ treeOrder keyLength : IntType.int.Val,
        (Machine.calculateKeysRegionSize treeOrder keyLength).map IntType.Val.val =
            (if treeOrder.val < 0 ∨ keyLength.val ≤ 0 ∨
                2^31 - 1 < keysRegion treeOrder.val keyLength.val then
              .error (.thrown invalidLayout)
            else .ok (keysRegion treeOrder.val keyLength.val)) ∧
          Machine.pageLayoutFits treeOrder keyLength =
            if treeOrder.val < 0 ∨ keyLength.val ≤ 0 then .ok false
            else if 2^31 - 1 < keysRegion treeOrder.val keyLength.val then
              .error (.thrown invalidLayout)
            else .ok (decide (PageHolds keyLength.val treeOrder.val)) := by
  refine ⟨fun src header hread => ?_, fun treeOrder keyLength => ⟨?_, ?_⟩⟩
  · obtain ⟨hvalid, -⟩ := deserialize_eq_ok.mp hread
    exact hvalid.safeLayout
  · rw [machine_calculateKeysRegionSize, calculateKeysRegionSize_cases]
    split_ifs <;> rfl
  · rw [machine_pageLayoutFits, pageLayoutFits_cases]
    split_ifs <;> rfl

/-- The pages of an index on three columns. -/
theorem safeLayout_of_deserialize_triple :
    deserialize (tripleHeader.fields.flatMap int32Bytes) = .ok tripleHeader ∧
      SafeLayout tripleHeader := by
  have hread := deserialize_eq_ok.mpr ⟨tripleHeader_valid, [], (List.append_nil _).symm⟩
  exact ⟨hread, safeLayout_of_deserialize.1 _ _ hread⟩

end SafeLayout

end IndexFileHeader

end Rucbase
