import Rucbase.Lib.Slots
import Rucbase.Record.Bitmap
import Rucbase.System.CreateTable

/-!
# Record pages

A page of a record file is its LSN, the page header, the bitmap and the slots of the records. How
many slots there are is found by `RmManager::create_file` (`src/record/rm_manager.h`), and
`RmPageHandle` (`src/record/rm_file_handle.h`) computes the addresses.

The loop of `create_file` ends with the largest number of records that a page has room for
(`newHeader_isGreatest`), and its bitmap has a bit for each of them (`layout_of_createFile`).
Operations on the bits and on the slots therefore do not interfere: a page is a set of slots in use
and a record for each slot, under any sequence of operations (`viewOf_run`), and `first_bit` finds
a free slot (`firstBit_free`).
-/

namespace Rucbase

open Lib

/-! ## The number of records -/

namespace RmManager

/-- A page has room for its LSN and header, a bitmap and the slots of `n` records. -/
def Room (recordSize n : ℤ) : Prop := 4 + 8 + (n + 8 - 1) / 8 + n * recordSize ≤ 4096

theorem fitRecords_spec (recordSize : ℤ) (start : ℕ) :
    (fitRecords recordSize start).2 = ((fitRecords recordSize start).1 + 8 - 1) / 8 ∧
      IsGreatest {n : ℤ | 0 ≤ n ∧ n ≤ start ∧ Room recordSize n}
        (fitRecords recordSize start).1 := by
  induction start with
  | zero =>
    have hroom : Room recordSize 0 := by
      unfold Room
      omega
    exact ⟨rfl, ⟨le_refl 0, le_refl 0, hroom⟩, fun n hn => hn.2.1⟩
  | succ start ih =>
    -- The number that is tried fits, or it is none of those to choose from.
    unfold fitRecords
    dsimp only
    split_ifs with hroom
    · refine ⟨rfl, ⟨by omega, by omega, hroom⟩, fun n hn => ?_⟩
      have hle : n ≤ ((start + 1 : ℕ) : ℤ) := hn.2.1
      omega
    · obtain ⟨hbitmap, ⟨hnonneg, hle, hfits⟩, hgreatest⟩ := ih
      refine ⟨hbitmap, ⟨hnonneg, by omega, hfits⟩, fun n ⟨hn, hstart, hother⟩ => ?_⟩
      have hne : n ≠ start + 1 := fun heq => hroom (heq ▸ hother)
      exact hgreatest ⟨hn, by omega, hother⟩

end RmManager

/-! ## The layout of a page -/

/-- What the header of a record file has to satisfy for its pages. -/
structure RmFileHdr.Layout (hdr : RmFileHdr) : Prop where
  recordSize : 0 < hdr.recordSize
  numRecords : 0 < hdr.numRecordsPerPage
  bitmap : hdr.numRecordsPerPage ≤ 8 * hdr.bitmapSize
  page : 4 + 8 + hdr.bitmapSize + hdr.numRecordsPerPage * hdr.recordSize ≤ 4096

namespace RmManager

section NewHeader

variable {recordSize : ℤ}

/-- No number of records that fits on a page is above the one that the loop starts from. -/
theorem newHeader_isGreatest (hpos : 1 ≤ recordSize) :
    IsGreatest {n : ℤ | 0 ≤ n ∧ Room recordSize n} (newHeader recordSize).numRecordsPerPage := by
  obtain ⟨-, ⟨hnonneg, -, hroom⟩, hgreatest⟩ :=
    fitRecords_spec recordSize ((4096 - 4 - 8) / recordSize).toNat
  refine ⟨⟨hnonneg, hroom⟩, fun n ⟨hn, hother⟩ => hgreatest ⟨hn, ?_, hother⟩⟩
  -- The loop starts from what a page without a bitmap would hold.
  have hbytes : n * recordSize ≤ 4096 - 4 - 8 := by
    unfold Room at hother
    omega
  have hstart : n ≤ (4096 - 4 - 8) / recordSize := (Int.le_ediv_iff_mul_le (by omega)).mpr hbytes
  omega

theorem newHeader_layout (hpos : 1 ≤ recordSize) (hmax : recordSize ≤ rmMaxRecordSize) :
    (newHeader recordSize).Layout := by
  obtain ⟨⟨hnonneg, hroom⟩, hgreatest⟩ := newHeader_isGreatest hpos
  have hbitmap : (newHeader recordSize).bitmapSize =
      ((newHeader recordSize).numRecordsPerPage + 8 - 1) / 8 := (fitRecords_spec _ _).1
  have hone : 1 ≤ (newHeader recordSize).numRecordsPerPage := by
    refine hgreatest ⟨by decide, ?_⟩
    unfold rmMaxRecordSize at hmax
    unfold Room
    omega
  refine ⟨Int.lt_of_lt_of_le (by decide) hpos, hone, by omega, ?_⟩
  rw [hbitmap]
  exact hroom

/-- `create_file` writes no other headers. -/
theorem layout_of_createFile {fault : Option Fault} {filename : Bytes} {s s' : System}
    (h : createFile fault filename recordSize s = (.ok (), s')) :
    (newHeader recordSize).Layout := by
  obtain ⟨_, _, hcheck, -⟩ := Effect.bind_eq_ok.mp h
  have hsize : ¬(recordSize < 1 ∨ rmMaxRecordSize < recordSize) :=
    throwIf_eq_ok.mp (congrArg Prod.fst hcheck)
  rw [not_or, not_lt, not_lt] at hsize
  exact newHeader_layout hsize.1 hsize.2

end NewHeader

end RmManager

/-- `RmPageHandle`, with the addresses as offsets from the start of the page. -/
structure RmPageHandle where
  fileHdr : RmFileHdr
  pageHdr : ℤ
  bitmap : ℤ
  slots : ℤ

namespace RmPageHandle

/-- The constructor of `RmPageHandle`. -/
def make (fileHdr : RmFileHdr) : RmPageHandle :=
  let pageHdr := 4
  let bitmap := 4 + 8
  { fileHdr, pageHdr, bitmap, slots := bitmap + fileHdr.bitmapSize }

/-- `get_slot`. -/
def getSlot (handle : RmPageHandle) (slotNo : ℤ) : ℤ :=
  handle.slots + slotNo * handle.fileHdr.recordSize

/-- The bytes that the pointer to the bitmap gives access to: all up to the end of the page. -/
def bitmapOf (handle : RmPageHandle) (page : Bytes) : Bytes := page.drop handle.bitmap.toNat

/-- A call of `set` or `reset` on the bitmap of the page. -/
def changeBit (handle : RmPageHandle) (page : Bytes) (change : Bitmap.Change) :
    Except Error Bytes := do
  let bm ← change.apply (handle.bitmapOf page)
  pure (page.take handle.bitmap.toNat ++ bm)

/-- The bytes of a record. -/
def record (handle : RmPageHandle) (page : Bytes) (slotNo : ℤ) : Bytes :=
  slice page (handle.getSlot slotNo).toNat handle.fileHdr.recordSize.toNat

end RmPageHandle

/-- `is_record` on the page that it fetched. -/
def RmFileHandle.isRecord (fileHdr : RmFileHdr) (page : Bytes) (slotNo : Bitmap.Pos) :
    Except Error Bool :=
  Bitmap.isSet ((RmPageHandle.make fileHdr).bitmapOf page) slotNo

namespace RmFileHdr

/-- The number of a slot of the pages of a file. -/
structure SlotNo (hdr : RmFileHdr) where
  pos : Bitmap.Pos
  nonneg : 0 ≤ pos.val
  lt : pos.val < hdr.numRecordsPerPage
  deriving DecidableEq

/-- The addresses of a slot. -/
def SlotNo.addresses {hdr : RmFileHdr} (slot : SlotNo hdr) : Set ℤ :=
  Set.Ico ((RmPageHandle.make hdr).getSlot slot.pos.val)
    ((RmPageHandle.make hdr).getSlot slot.pos.val + hdr.recordSize)

section Layout

variable {hdr : RmFileHdr} {page : Bytes}

theorem SlotNo.pos_injective : Function.Injective (SlotNo.pos : SlotNo hdr → Bitmap.Pos) := by
  rintro ⟨p, _, _⟩ ⟨q, _, _⟩ rfl
  rfl

/-- The slots lie behind the bitmap and inside the page. -/
theorem Layout.addresses_subset (h : hdr.Layout) (slot : SlotNo hdr) :
    slot.addresses ⊆ Set.Ico (12 + hdr.bitmapSize) 4096 := by
  refine (cell_subset h.recordSize.le slot.nonneg slot.lt).trans ?_
  exact Set.Ico_subset_Ico_right h.page

theorem Layout.slot_bounds (h : hdr.Layout) (slot : SlotNo hdr) :
    12 + hdr.bitmapSize ≤ (RmPageHandle.make hdr).getSlot slot.pos.val ∧
      (RmPageHandle.make hdr).getSlot slot.pos.val + hdr.recordSize ≤ 4096 :=
  (Set.Ico_subset_Ico_iff (Int.lt_add_of_pos_right _ h.recordSize)).mp (h.addresses_subset slot)

/-- Different slots do not meet. -/
theorem Layout.slots_apart (h : hdr.Layout) {p q : SlotNo hdr} (hne : q ≠ p) :
    (RmPageHandle.make hdr).getSlot q.pos.val + hdr.recordSize ≤
        (RmPageHandle.make hdr).getSlot p.pos.val ∨
      (RmPageHandle.make hdr).getSlot p.pos.val + hdr.recordSize ≤
        (RmPageHandle.make hdr).getSlot q.pos.val := by
  have hpos : q.pos.val ≠ p.pos.val := fun heq =>
    hne (SlotNo.pos_injective (IntType.Val.val_injective heq))
  have hdisjoint : Disjoint q.addresses p.addresses := disjoint_cell hpos
  have hsize := h.recordSize
  have hbounds := Set.Ico_disjoint_Ico.mp hdisjoint
  omega

/-- The bit of a slot is one of the bitmap. -/
theorem Layout.bucket_lt (h : hdr.Layout) (slot : SlotNo hdr) :
    (Bitmap.bucketOf slot.pos : ℤ) < hdr.bitmapSize := by
  have hcovers := h.bitmap
  have hnonneg := slot.nonneg
  have hlt := slot.lt
  unfold Bitmap.bucketOf
  omega

theorem length_bitmapOf (hpage : page.length = 4096) :
    ((RmPageHandle.make hdr).bitmapOf page).length = 4096 - 12 := by
  rw [RmPageHandle.bitmapOf, List.length_drop, hpage]
  rfl

theorem Layout.inside (h : hdr.Layout) (hpage : page.length = 4096) (slot : SlotNo hdr) :
    Bitmap.Inside ((RmPageHandle.make hdr).bitmapOf page) slot.pos := by
  have hbucket := h.bucket_lt slot
  have hslots := h.page
  have hrecords := Int.mul_nonneg h.numRecords.le h.recordSize.le
  have hnonneg := slot.nonneg
  unfold Bitmap.bucketOf at hbucket
  refine ⟨hnonneg, ?_⟩
  rw [length_bitmapOf hpage]
  omega

/-- A bit of the bitmap is changed: the rest of the page, and with it every record, stays. -/
theorem Layout.changes (h : hdr.Layout) (hpage : page.length = 4096) (slot : SlotNo hdr)
    {bm' : Bytes} {b : Bool}
    (hchanges : Bitmap.Changes ((RmPageHandle.make hdr).bitmapOf page) bm' slot.pos b) :
    (page.take 12 ++ bm').length = 4096 ∧
      (RmPageHandle.make hdr).bitmapOf (page.take 12 ++ bm') = bm' ∧
      ∀ q : SlotNo hdr, (RmPageHandle.make hdr).record (page.take 12 ++ bm') q.pos.val =
        (RmPageHandle.make hdr).record page q.pos.val := by
  have htake : (page.take 12).length = 12 := by
    rw [List.length_take]
    omega
  have hlength : bm'.length = 4096 - 12 := hchanges.length.trans (length_bitmapOf hpage)
  refine ⟨?_, List.drop_left' htake, fun q => ?_⟩
  · rw [List.length_append, htake, hlength]
  · have hbucket := h.bucket_lt slot
    have hslot := (h.slot_bounds q).1
    apply List.ext_getElem?
    intro k
    unfold RmPageHandle.record
    rw [getElem?_slice, getElem?_slice]
    generalize (RmPageHandle.make hdr).getSlot q.pos.val = start at hslot ⊢
    -- The byte stands behind the bitmap, so it is not the one that was changed.
    have hother : start.toNat + k - 12 ≠ Bitmap.bucketOf slot.pos := by omega
    have hindex : (RmPageHandle.make hdr).bitmap.toNat + (start.toNat + k - 12) =
        start.toNat + k := by
      show 12 + (start.toNat + k - 12) = start.toNat + k
      omega
    rw [List.getElem?_append_right (by omega), htake, hchanges.bytes hother,
      RmPageHandle.bitmapOf, List.getElem?_drop, hindex]

/-- A record is written: it is read back, and no other record and no bit changes. -/
theorem Layout.write (h : hdr.Layout) (hpage : page.length = 4096) (slot : SlotNo hdr)
    {data : Bytes} (hdata : data.length = hdr.recordSize) :
    let page' := memcpy page ((RmPageHandle.make hdr).getSlot slot.pos.val).toNat data
    page'.length = 4096 ∧
      (∀ q : SlotNo hdr, RmFileHandle.isRecord hdr page' q.pos =
        RmFileHandle.isRecord hdr page q.pos) ∧
      ∀ q : SlotNo hdr, (RmPageHandle.make hdr).record page' q.pos.val =
        if q = slot then data else (RmPageHandle.make hdr).record page q.pos.val := by
  intro page'
  obtain ⟨hlow, hhigh⟩ := h.slot_bounds slot
  have hbitmap := h.bitmap
  have hrecords := h.numRecords
  have hfits : ((RmPageHandle.make hdr).getSlot slot.pos.val).toNat + data.length ≤
      page.length := by omega
  refine ⟨(length_memcpy hfits).trans hpage, fun q => ?_, fun q => ?_⟩
  · have hbucket := h.bucket_lt q
    refine Bitmap.isSet_congr (h.inside hpage q) ?_
    unfold RmPageHandle.bitmapOf
    rw [List.getElem?_drop, List.getElem?_drop, getElem?_memcpy hfits, if_neg]
    show ¬(_ ≤ 12 + Bitmap.bucketOf q.pos ∧ 12 + Bitmap.bucketOf q.pos < _)
    omega
  · by_cases hq : q = slot
    · subst hq
      have hsize : hdr.recordSize.toNat = data.length := by omega
      rw [if_pos rfl]
      show slice page' _ hdr.recordSize.toNat = data
      rw [hsize]
      exact slice_memcpy hfits
    · have hapart := h.slots_apart hq
      have hslot := (h.slot_bounds q).1
      rw [if_neg hq]
      refine slice_memcpy_of_disjoint hfits ?_
      show _ + hdr.recordSize.toNat ≤ _ ∨ _
      omega

end Layout

/-! ## A page as a set of slots in use and a record for each slot -/

/-- What a page holds, apart from its header. -/
structure PageView (hdr : RmFileHdr) where
  used : Set (SlotNo hdr)
  record : SlotNo hdr → Bytes

/-- The page for those who use it through `is_record` and `get_slot`. -/
def viewOf (hdr : RmFileHdr) (page : Bytes) : PageView hdr where
  used := {q | RmFileHandle.isRecord hdr page q.pos = .ok true}
  record q := (RmPageHandle.make hdr).record page q.pos.val

/-- An operation on a slot of a page: `set` or `reset` of its bit, or a copy into it. -/
inductive PageOp (hdr : RmFileHdr) where
  | mark (slot : SlotNo hdr)
  | clear (slot : SlotNo hdr)
  | write (slot : SlotNo hdr) (data : Bytes) (hdata : data.length = hdr.recordSize)

namespace PageOp

variable {hdr : RmFileHdr} {page : Bytes}

/-- What the operation does to the page. -/
def apply (page : Bytes) : PageOp hdr → Except Error Bytes
  | mark slot => (RmPageHandle.make hdr).changeBit page (.set slot.pos)
  | clear slot => (RmPageHandle.make hdr).changeBit page (.reset slot.pos)
  | write slot data _ =>
    pure (memcpy page ((RmPageHandle.make hdr).getSlot slot.pos.val).toNat data)

/-- What the operation means. -/
def meaning (view : PageView hdr) : PageOp hdr → PageView hdr
  | mark slot => { view with used := insert slot view.used }
  | clear slot => { view with used := view.used \ {slot} }
  | write slot data _ => { view with record := Function.update view.record slot data }

theorem preimage_insert (slot : SlotNo hdr) (s : Set Bitmap.Pos) :
    Set.preimage SlotNo.pos (insert slot.pos s) =
      insert slot (Set.preimage (SlotNo.pos : SlotNo hdr → Bitmap.Pos) s) := by
  ext q
  exact or_congr_left SlotNo.pos_injective.eq_iff

theorem preimage_sdiff (slot : SlotNo hdr) (s : Set Bitmap.Pos) :
    Set.preimage SlotNo.pos (s \ {slot.pos}) =
      Set.preimage (SlotNo.pos : SlotNo hdr → Bitmap.Pos) s \ {slot} := by
  ext q
  exact and_congr_right fun _ => not_congr SlotNo.pos_injective.eq_iff

/-- A call on the bitmap changes the slots in use and nothing else. -/
theorem changeBit_spec (h : hdr.Layout) (hpage : page.length = 4096) (slot : SlotNo hdr)
    (change : Bitmap.Change) {bm' : Bytes} {b : Bool}
    (happly : change.apply ((RmPageHandle.make hdr).bitmapOf page) = .ok bm')
    (hchanges : Bitmap.Changes ((RmPageHandle.make hdr).bitmapOf page) bm' slot.pos b) :
    ∃ page', (RmPageHandle.make hdr).changeBit page change = .ok page' ∧ page'.length = 4096 ∧
      viewOf hdr page' =
        { viewOf hdr page with used := Set.preimage SlotNo.pos (Bitmap.members bm') } := by
  obtain ⟨hlength, hbitmap, hrecords⟩ := h.changes hpage slot hchanges
  refine ⟨page.take 12 ++ bm', bind_eq_ok.mpr ⟨bm', happly, rfl⟩, hlength, ?_⟩
  unfold viewOf RmFileHandle.isRecord
  simp only [hbitmap, hrecords]
  rfl

/-- Every operation succeeds on a page, and does to it what it means. -/
theorem apply_spec (h : hdr.Layout) (op : PageOp hdr) (hpage : page.length = 4096) :
    ∃ page', op.apply page = .ok page' ∧ page'.length = 4096 ∧
      viewOf hdr page' = op.meaning (viewOf hdr page) := by
  cases op with
  | mark slot =>
    obtain ⟨bm', hset, hchanges⟩ := Bitmap.set_changes (h.inside hpage slot)
    obtain ⟨page', happly, hlength, hview⟩ :=
      changeBit_spec h hpage slot (.set slot.pos) hset hchanges
    refine ⟨page', happly, hlength, hview.trans ?_⟩
    rw [hchanges.members_insert, preimage_insert]
    rfl
  | clear slot =>
    obtain ⟨bm', hreset, hchanges⟩ := Bitmap.reset_changes (h.inside hpage slot)
    obtain ⟨page', happly, hlength, hview⟩ :=
      changeBit_spec h hpage slot (.reset slot.pos) hreset hchanges
    refine ⟨page', happly, hlength, hview.trans ?_⟩
    rw [hchanges.members_diff, preimage_sdiff]
    rfl
  | write slot data hdata =>
    obtain ⟨hlength, hbits, hrecords⟩ := h.write hpage slot hdata
    refine ⟨_, rfl, hlength, ?_⟩
    unfold viewOf meaning
    simp only [hbits, hrecords]
    congr 1
    funext q
    rw [Function.update_apply]

/-- Any sequence of operations does to a page what it means. -/
theorem viewOf_run (h : hdr.Layout) (ops : List (PageOp hdr)) (hpage : page.length = 4096) :
    ∃ page', ops.foldlM apply page = .ok page' ∧ page'.length = 4096 ∧
      viewOf hdr page' = ops.foldl meaning (viewOf hdr page) :=
  foldlM_refines (I := fun page : Bytes => page.length = 4096)
    (fun op _ _ hpage => op.apply_spec h hpage) hpage

/-- A record of eight bytes is written to the first slot of an empty page and marked. -/
theorem viewOf_run_first :
    let hdr : RmFileHdr := ⟨8, 1, 502, -1, 63⟩
    let slot : SlotNo hdr := ⟨⟨0, by decide⟩, by decide, by decide⟩
    let data : Bytes := [1, 2, 3, 4, 5, 6, 7, 8]
    hdr.Layout ∧ ∃ page',
      [.write slot data rfl, .mark slot].foldlM apply (List.replicate 4096 0) = .ok page' ∧
        slot ∈ (viewOf hdr page').used ∧ (viewOf hdr page').record slot = data := by
  intro hdr slot data
  have hlayout : hdr.Layout := ⟨by decide, by decide, by decide, by decide⟩
  obtain ⟨page', hrun, -, hview⟩ :=
    viewOf_run hlayout [.write slot data rfl, .mark slot] List.length_replicate
  refine ⟨hlayout, page', hrun, ?_, ?_⟩
  · rw [hview]
    exact Set.mem_insert ..
  · rw [hview]
    show Function.update (viewOf hdr (List.replicate 4096 0)).record slot data slot = data
    rw [Function.update_self]

end PageOp

section Search

variable {hdr : RmFileHdr} {page : Bytes} {maxN : Bitmap.Pos}

theorem Layout.covers (h : hdr.Layout) (hpage : page.length = 4096)
    (hmax : maxN.val = hdr.numRecordsPerPage) :
    maxN.val ≤ 8 * ((RmPageHandle.make hdr).bitmapOf page).length := by
  have hbits := h.bitmap
  have hslots := h.page
  have hrecords := Int.mul_nonneg h.numRecords.le h.recordSize.le
  rw [length_bitmapOf hpage]
  omega

/-- `first_bit` of the bit 0 is the first slot that is not in use, or the number of slots if all of
them are. -/
theorem Layout.firstBit_free (h : hdr.Layout) (hpage : page.length = 4096)
    (hmax : maxN.val = hdr.numRecordsPerPage) :
    ∃ pos, Bitmap.firstBit false ((RmPageHandle.make hdr).bitmapOf page) maxN = .ok pos ∧
      ((∃ slot ∉ (viewOf hdr page).used, slot.pos = pos ∧
          ∀ q ∉ (viewOf hdr page).used, slot.pos ≤ q.pos) ∨
        (viewOf hdr page).used = Set.univ ∧ pos = maxN) := by
  -- A slot is free when its bit is read as 0; nothing else can be read there.
  have hfree (q : SlotNo hdr) : q ∉ (viewOf hdr page).used ↔
      Bitmap.isSet ((RmPageHandle.make hdr).bitmapOf page) q.pos = .ok false := by
    obtain ⟨b, hb⟩ := (h.inside hpage q).exists_isSet
    show ¬Bitmap.isSet _ q.pos = .ok true ↔ _
    rw [hb]
    cases b <;> decide
  have hbetween (q : SlotNo hdr) : q.pos ∈ Set.Ioo Bitmap.beforeFirst maxN :=
    ⟨Int.lt_of_lt_of_le (by decide) q.nonneg, show q.pos.val < maxN.val from hmax ▸ q.lt⟩
  obtain ⟨pos, hpos, hnext⟩ := Bitmap.firstBit_isNext false (h.covers hpage hmax)
  refine ⟨pos, hpos, ?_⟩
  rcases hnext with ⟨⟨hset, -, hlt⟩, hleast⟩ | ⟨hnone, hend⟩
  · have hval : pos.val < maxN.val := hlt
    let slot : SlotNo hdr := ⟨pos, (Bitmap.inside_of_isSet hset).1, hmax ▸ hval⟩
    exact .inl ⟨slot, (hfree slot).mpr hset, rfl,
      fun q hq => hleast ⟨(hfree q).mp hq, hbetween q⟩⟩
  · refine .inr ⟨Set.eq_univ_of_forall fun q => ?_, hend⟩
    by_contra hq
    have hmem := Set.eq_empty_iff_forall_notMem.mp hnone q.pos
    exact hmem ⟨(hfree q).mp hq, hbetween q⟩

/-- On a page whose first three slots are in use the search ends at the fourth. -/
theorem Layout.firstBit_free_fourth :
    let hdr : RmFileHdr := ⟨8, 1, 502, -1, 63⟩
    let maxN : Bitmap.Pos := ⟨502, by decide⟩
    let page : Bytes := List.replicate 12 0 ++ 0xe0 :: List.replicate 4083 0
    let fourth : SlotNo hdr := ⟨⟨3, by decide⟩, by decide, by decide⟩
    hdr.Layout ∧
      Bitmap.firstBit false ((RmPageHandle.make hdr).bitmapOf page) maxN = .ok fourth.pos ∧
      fourth ∉ (viewOf hdr page).used ∧
      ∀ q ∉ (viewOf hdr page).used, fourth.pos ≤ q.pos := by
  intro hdr maxN page fourth
  have hlayout : hdr.Layout := ⟨by decide, by decide, by decide, by decide⟩
  have hrun : Bitmap.firstBit false ((RmPageHandle.make hdr).bitmapOf page) maxN =
      .ok fourth.pos := by decide +kernel
  have hpage : page.length = 4096 := by decide +kernel
  have hmax : maxN.val = hdr.numRecordsPerPage := rfl
  obtain ⟨pos, hpos, hfirst⟩ := Layout.firstBit_free hlayout hpage hmax
  obtain rfl : fourth.pos = pos := Except.ok.inj (hrun.symm.trans hpos)
  rcases hfirst with ⟨slot, hslot, hfourth, hleast⟩ | ⟨-, hend⟩
  · obtain rfl := SlotNo.pos_injective hfourth
    exact ⟨hlayout, hrun, hslot, hleast⟩
  · exact absurd hend (by decide)

end Search

end RmFileHdr

end Rucbase
