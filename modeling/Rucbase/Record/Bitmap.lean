import Rucbase.Common.Errors
import Rucbase.Lib.Bytes
import Rucbase.Lib.Machine
import Rucbase.Lib.Runs
import Rucbase.Lib.Successor

/-!
# The bitmap of a record page

`Bitmap` (`src/record/bitmap.h`) keeps one bit for each slot of a page, the most significant bit of
a byte first. An access that the language leaves undefined, outside of the buffer or by a shift that
is too far, is `undefinedBehaviour` here; `isSet_outside` shows that a read outside of the buffer is
always one of them.

`set` and `reset` change one position and nothing else (`set_changes`, `reset_changes`), so a
bitmap is a set of positions under any sequence of them (`members_run`). `next_bit` is the search
of `Lib/Successor` for the next position in this set or outside of it (`nextBit_isNext`), as long as
the position behind `curr` is an `int`, and a scan by `next_bit` is a walk (`scan_walk`).
-/

namespace Rucbase.Bitmap

open Lib

/-! ## The operations -/

/-- `int`. -/
abbrev Pos := IntType.int.Val

/-- `BITMAP_WIDTH`. -/
def bitmapWidth : ℤ := 8

/-- `BITMAP_HIGHEST_BIT`. -/
def bitmapHighestBit : ℕ := 0x80

/-- `get_bucket`. -/
def getBucket (pos : Pos) : ℤ := pos.val.tdiv bitmapWidth

/-- `get_bit`. The remainder has the sign of the position and is converted to `unsigned`; a shift
by the width of this type or more is undefined. -/
def getBit (pos : Pos) : Except Error UInt8 := do
  let shift := (pos.val.tmod bitmapWidth % 2^32).toNat
  throwIf (32 ≤ shift) .undefinedBehaviour
  pure (UInt8.ofNat (bitmapHighestBit >>> shift))

/-- The byte at an index of the buffer. -/
def byteAt (bm : Bytes) (bucket : ℤ) : Except Error UInt8 :=
  match if bucket < 0 then none else bm[bucket.toNat]? with
  | some byte => pure byte
  | none => throw .undefinedBehaviour

/-- `init`. A negative size is converted to a `size_t` that no buffer has. -/
def init (bm : Bytes) (size : Pos) : Except Error Bytes := do
  throwIf (size.val < 0 ∨ bm.length < size.val) .undefinedBehaviour
  pure (memcpy bm 0 (List.replicate size.val.toNat 0))

/-- `set`. -/
def set (bm : Bytes) (pos : Pos) : Except Error Bytes := do
  let byte ← byteAt bm (getBucket pos)
  let bit ← getBit pos
  pure (bm.set (getBucket pos).toNat (byte ||| bit))

/-- `reset`. -/
def reset (bm : Bytes) (pos : Pos) : Except Error Bytes := do
  let byte ← byteAt bm (getBucket pos)
  let bit ← getBit pos
  pure (bm.set (getBucket pos).toNat (byte &&& ~~~bit))

/-- `is_set`. -/
def isSet (bm : Bytes) (pos : Pos) : Except Error Bool := do
  let byte ← byteAt bm (getBucket pos)
  let bit ← getBit pos
  pure (byte &&& bit != 0)

/-- The loop of `next_bit`. Its counter stays below `max_n`, so `i++` does not overflow. -/
def nextBitFrom (bit : Bool) (bm : Bytes) (maxN i : Pos) : Except Error Pos :=
  if h : i < maxN then do
    let found ← isSet bm i
    if found = bit then pure i else nextBitFrom bit bm maxN (i.succ maxN h)
  else pure maxN
termination_by (maxN.val - i.val).toNat
decreasing_by
  have hlt : i.val < maxN.val := h
  show (maxN.val - (i.val + 1)).toNat < (maxN.val - i.val).toNat
  omega

/-- `next_bit`. The overflow of `curr + 1` is undefined. -/
def nextBit (bit : Bool) (bm : Bytes) (maxN curr : Pos) : Except Error Pos := do
  let i ← IntType.int.fit .undefinedBehaviour (curr.val + 1)
  nextBitFrom bit bm maxN i

/-- The position before the first one. -/
def beforeFirst : Pos := ⟨-1, by decide⟩

/-- `first_bit`. -/
def firstBit (bit : Bool) (bm : Bytes) (maxN : Pos) : Except Error Pos :=
  nextBit bit bm maxN beforeFirst

/-- The loop goes upwards until it returns. -/
theorem nextBitFrom_bounds {bit : Bool} {bm : Bytes} {maxN i r : Pos}
    (h : nextBitFrom bit bm maxN i = .ok r) (hne : r ≠ maxN) : i ≤ r ∧ r < maxN := by
  fun_induction nextBitFrom bit bm maxN i with
  | case1 i hlt ih =>
    obtain ⟨found, -, h⟩ := bind_eq_ok.mp h
    split_ifs at h with hfound
    · obtain rfl := (pure_eq_ok _ _).mp h
      exact ⟨le_refl i, hlt⟩
    · obtain ⟨hle, hr⟩ := ih h
      exact ⟨Int.le_of_lt hle, hr⟩
  | case2 => exact absurd ((pure_eq_ok _ _).mp h).symm hne

theorem nextBit_bounds {bit : Bool} {bm : Bytes} {maxN curr r : Pos}
    (h : nextBit bit bm maxN curr = .ok r) (hne : r ≠ maxN) : curr < r ∧ r < maxN := by
  unfold nextBit IntType.fit at h
  split_ifs at h with hint
  · exact nextBitFrom_bounds h hne
  · cases h

/-- The positions that `next_bit` finds from `curr` on, until it returns `max_n`. -/
def scan (bm : Bytes) (maxN curr : Pos) : Except Error (List Pos) :=
  match _h : nextBit true bm maxN curr with
  | .error e => .error e
  | .ok i =>
    if _hne : i = maxN then pure []
    else do
      let rest ← scan bm maxN i
      pure (i :: rest)
termination_by (maxN.val - curr.val).toNat
decreasing_by
  have hbounds : curr.val < i.val ∧ i.val < maxN.val := nextBit_bounds _h _hne
  omega

/-! ## Positions -/

/-- The position is one of the buffer. -/
def Inside (bm : Bytes) (pos : Pos) : Prop := 0 ≤ pos.val ∧ pos.val < 8 * bm.length

instance (bm : Bytes) (pos : Pos) : Decidable (Inside bm pos) :=
  inferInstanceAs (Decidable (_ ∧ _))

/-- The bit of a byte at an index from its most significant one. -/
def mask (index : Fin 8) : UInt8 := UInt8.ofNat (bitmapHighestBit >>> index.val)

/-- The index of the byte of a position. -/
def bucketOf (pos : Pos) : ℕ := pos.val.toNat / 8

/-- The index of a position in its byte. -/
def indexOf (pos : Pos) : Fin 8 := ⟨pos.val.toNat % 8, Nat.mod_lt _ (by decide)⟩

section Positions

variable {bm : Bytes} {pos q : Pos} {byte : UInt8}

theorem mask_ne_zero (i : Fin 8) : mask i ≠ 0 := by
  revert i
  decide

theorem mask_and_mask {i j : Fin 8} (hne : i ≠ j) : mask i &&& mask j = 0 := by
  revert i j
  decide

theorem not_mask_and_mask {i j : Fin 8} (hne : i ≠ j) : ~~~mask i &&& mask j = mask j := by
  revert i j
  decide

theorem not_mask_and_self (i : Fin 8) : ~~~mask i &&& mask i = 0 := by
  revert i
  decide

theorem or_and (a b c : UInt8) : (a ||| b) &&& c = a &&& c ||| b &&& c := by
  apply UInt8.toBitVec_inj.mp
  ext i
  simp [Bool.and_or_distrib_right]

theorem and_or_self (a b : UInt8) : a &&& b ||| b = b := by
  apply UInt8.toBitVec_inj.mp
  ext i
  simp

theorem getBucket_eq (hpos : 0 ≤ pos.val) : getBucket pos = bucketOf pos := by
  unfold getBucket bucketOf bitmapWidth
  rw [Int.tdiv_eq_ediv_of_nonneg hpos]
  omega

theorem getBit_eq (hpos : 0 ≤ pos.val) : getBit pos = .ok (mask (indexOf pos)) := by
  have hshift : (pos.val.tmod 8 % 2^32).toNat = pos.val.toNat % 8 := by
    rw [Int.tmod_eq_emod_of_nonneg hpos]
    omega
  unfold getBit bitmapWidth
  rw [hshift, throwIf_bind (by omega)]
  rfl

theorem byteAt_eq (h : bm[bucketOf pos]? = some byte) : byteAt bm (bucketOf pos) = .ok byte := by
  unfold byteAt
  rw [if_neg (by omega), Int.toNat_natCast, h]
  rfl

theorem Inside.exists_byte (h : Inside bm pos) : ∃ byte, bm[bucketOf pos]? = some byte := by
  have hlt : bucketOf pos < bm.length := by
    obtain ⟨hpos, hlt⟩ := h
    unfold bucketOf
    omega
  exact ⟨_, List.getElem?_eq_getElem hlt⟩

/-- The access to a byte and the bit of it that all operations start with. -/
theorem access_eq {α : Type} (hpos : 0 ≤ pos.val) (h : bm[bucketOf pos]? = some byte)
    (f : UInt8 → UInt8 → Except Error α) :
    (do
      let byte ← byteAt bm (getBucket pos)
      let bit ← getBit pos
      f byte bit) = f byte (mask (indexOf pos)) := by
  rw [getBucket_eq hpos, byteAt_eq h, ok_bind, getBit_eq hpos, ok_bind]

theorem isSet_eq (hpos : 0 ≤ pos.val) (h : bm[bucketOf pos]? = some byte) :
    isSet bm pos = .ok (byte &&& mask (indexOf pos) != 0) :=
  access_eq hpos h _

theorem set_eq (hpos : 0 ≤ pos.val) (h : bm[bucketOf pos]? = some byte) :
    set bm pos = .ok (bm.set (bucketOf pos) (byte ||| mask (indexOf pos))) := by
  unfold set
  rw [access_eq hpos h, getBucket_eq hpos]
  rfl

theorem reset_eq (hpos : 0 ≤ pos.val) (h : bm[bucketOf pos]? = some byte) :
    reset bm pos = .ok (bm.set (bucketOf pos) (byte &&& ~~~mask (indexOf pos))) := by
  unfold reset
  rw [access_eq hpos h, getBucket_eq hpos]
  rfl

/-- A negative position has a shift that is too far, or a negative bucket before that. -/
theorem negative_pos (hneg : pos.val < 0) (hbucket : ¬getBucket pos < 0) :
    getBit pos = .error .undefinedBehaviour := by
  obtain ⟨n, hn⟩ : ∃ n : ℕ, pos.val = -n := ⟨pos.val.natAbs, by omega⟩
  unfold getBucket bitmapWidth at hbucket
  rw [hn, Int.neg_tdiv, Int.tdiv_eq_ediv_of_nonneg (by omega)] at hbucket
  have hfar : 32 ≤ (pos.val.tmod 8 % 2^32).toNat := by
    rw [hn, Int.neg_tmod, Int.tmod_eq_emod_of_nonneg (by omega)]
    omega
  unfold getBit bitmapWidth
  dsimp only
  rw [throwIf, if_pos hfar]
  rfl

/-- To read a position outside of the buffer is undefined. -/
theorem isSet_outside (h : ¬Inside bm pos) : isSet bm pos = .error .undefinedBehaviour := by
  unfold isSet byteAt
  by_cases hbucket : getBucket pos < 0
  · rw [if_pos hbucket]
    rfl
  rw [if_neg hbucket]
  by_cases hneg : pos.val < 0
  · rw [negative_pos hneg hbucket]
    cases bm[(getBucket pos).toNat]? <;> rfl
  · have hnone : bm[bucketOf pos]? = none := by
      unfold Inside at h
      unfold bucketOf
      exact List.getElem?_eq_none (by omega)
    rw [getBucket_eq (by omega), Int.toNat_natCast, hnone]
    rfl

/-- Only the byte of the position is read. -/
theorem isSet_congr {bm' : Bytes} (h : Inside bm pos)
    (heq : bm'[bucketOf pos]? = bm[bucketOf pos]?) : isSet bm' pos = isSet bm pos := by
  obtain ⟨byte, hbyte⟩ := h.exists_byte
  rw [isSet_eq h.1 hbyte, isSet_eq h.1 (heq.trans hbyte)]

theorem inside_of_isSet {b : Bool} (h : isSet bm pos = .ok b) : Inside bm pos := by
  by_contra houtside
  rw [isSet_outside houtside] at h
  cases h

end Positions

/-! ## Changing one position -/

/-- `bm'` is `bm` with the bit `b` at `pos`: no other position and no other byte differs. -/
structure Changes (bm bm' : Bytes) (pos : Pos) (b : Bool) : Prop where
  length : bm'.length = bm.length
  same : isSet bm' pos = .ok b
  other {q : Pos} : q ≠ pos → isSet bm' q = isSet bm q
  bytes {k : ℕ} : k ≠ bucketOf pos → bm'[k]? = bm[k]?

section Changes

variable {bm bm' : Bytes} {pos q : Pos} {byte byte' : UInt8} {b : Bool}

theorem indexOf_ne (hpos : 0 ≤ pos.val) (hq : 0 ≤ q.val) (hne : q ≠ pos)
    (hbucket : bucketOf q = bucketOf pos) : indexOf q ≠ indexOf pos := by
  intro hindex
  have hmod : q.val.toNat % 8 = pos.val.toNat % 8 := congrArg Fin.val hindex
  unfold bucketOf at hbucket
  exact hne (IntType.Val.val_injective (by omega))

/-- A byte that differs from the one in its place at one bit. -/
theorem changes_set_byte (h : Inside bm pos) (hbyte : bm[bucketOf pos]? = some byte)
    (hsame : (byte' &&& mask (indexOf pos) != 0) = b)
    (hother : ∀ i, i ≠ indexOf pos → byte' &&& mask i = byte &&& mask i) :
    Changes bm (bm.set (bucketOf pos) byte') pos b := by
  have hlt : bucketOf pos < bm.length := (List.getElem?_eq_some_iff.mp hbyte).1
  refine ⟨List.length_set, ?_, ?_, fun hk => List.getElem?_set_ne hk.symm⟩
  · rw [isSet_eq h.1 (List.getElem?_set_self hlt), hsame]
  · intro q hne
    by_cases hq : Inside bm q
    · by_cases hbucket : bucketOf q = bucketOf pos
      · -- The same byte, at another bit.
        have hnew : (bm.set (bucketOf pos) byte')[bucketOf q]? = some byte' := by
          rw [hbucket]
          exact List.getElem?_set_self hlt
        rw [← hbucket] at hbyte
        rw [isSet_eq hq.1 hnew, isSet_eq hq.1 hbyte, hother _ (indexOf_ne h.1 hq.1 hne hbucket)]
      · exact isSet_congr hq (List.getElem?_set_ne (Ne.symm hbucket))
    · have hq' : ¬Inside (bm.set (bucketOf pos) byte') q := by
        unfold Inside
        rwa [List.length_set]
      rw [isSet_outside hq', isSet_outside hq]

/-- `set` makes a position one of the set. -/
theorem set_changes (h : Inside bm pos) :
    ∃ bm', set bm pos = .ok bm' ∧ Changes bm bm' pos true := by
  obtain ⟨byte, hbyte⟩ := h.exists_byte
  refine ⟨_, set_eq h.1 hbyte, changes_set_byte h hbyte ?_ fun i hne => ?_⟩
  · rw [or_and, UInt8.and_self, and_or_self, bne_iff_ne]
    exact mask_ne_zero _
  · rw [or_and, mask_and_mask hne.symm, UInt8.or_zero]

/-- `reset` takes a position out of the set. -/
theorem reset_changes (h : Inside bm pos) :
    ∃ bm', reset bm pos = .ok bm' ∧ Changes bm bm' pos false := by
  obtain ⟨byte, hbyte⟩ := h.exists_byte
  refine ⟨_, reset_eq h.1 hbyte, changes_set_byte h hbyte ?_ fun i hne => ?_⟩
  · rw [UInt8.and_assoc, not_mask_and_self, UInt8.and_zero]
    rfl
  · rw [UInt8.and_assoc, not_mask_and_mask hne.symm]

end Changes

/-! ## Sets of positions -/

/-- The set that a bitmap stands for. -/
def members (bm : Bytes) : Set Pos := {pos | isSet bm pos = .ok true}

/-- A call of `set` or `reset`. -/
inductive Change where
  | set (pos : Pos)
  | reset (pos : Pos)

namespace Change

/-- What the call does to the bitmap. -/
def apply (bm : Bytes) : Change → Except Error Bytes
  | .set pos => Bitmap.set bm pos
  | .reset pos => Bitmap.reset bm pos

end Change

section Members

variable {bm bm' : Bytes} {pos : Pos}

theorem Changes.members_insert (h : Changes bm bm' pos true) :
    members bm' = insert pos (members bm) := by
  ext q
  by_cases hq : q = pos
  · subst hq
    exact iff_of_true h.same (.inl rfl)
  · rw [Set.mem_insert_iff, or_iff_right hq]
    show isSet bm' q = .ok true ↔ isSet bm q = .ok true
    rw [h.other hq]

theorem Changes.members_diff (h : Changes bm bm' pos false) :
    members bm' = members bm \ {pos} := by
  ext q
  by_cases hq : q = pos
  · subst hq
    have hsame : isSet bm' q ≠ .ok true := by
      rw [h.same]
      decide
    exact iff_of_false hsame fun hmem => hmem.2 rfl
  · rw [Set.mem_sdiff, Set.mem_singleton_iff, and_iff_left hq]
    show isSet bm' q = .ok true ↔ isSet bm q = .ok true
    rw [h.other hq]

/-- `init` of a whole buffer makes it the empty set. -/
theorem members_init {size : Pos} (hsize : size.val = bm.length) :
    ∃ bm', init bm size = .ok bm' ∧ bm'.length = bm.length ∧ members bm' = ∅ := by
  have hwhole : memcpy bm 0 (List.replicate size.val.toNat 0) = List.replicate bm.length 0 := by
    rw [hsize, Int.toNat_natCast]
    simp [memcpy]
  refine ⟨List.replicate bm.length 0, ?_, List.length_replicate, ?_⟩
  · unfold init
    rw [throwIf_bind (by omega), hwhole]
    rfl
  · refine Set.eq_empty_of_forall_notMem fun q hq => ?_
    have hinside := inside_of_isSet hq
    obtain ⟨byte, hbyte⟩ := hinside.exists_byte
    have hzero : byte = 0 := List.eq_of_mem_replicate (List.mem_of_getElem? hbyte)
    have hset : isSet (List.replicate bm.length 0) q = .ok true := hq
    rw [isSet_eq hinside.1 hbyte, hzero, UInt8.zero_and] at hset
    cases hset

end Members

/-! ## Searching -/

section Search

variable {bit : Bool} {bm : Bytes} {maxN i curr : Pos}

theorem Inside.exists_isSet (h : Inside bm i) : ∃ b, isSet bm i = .ok b := by
  obtain ⟨byte, hbyte⟩ := h.exists_byte
  exact ⟨_, isSet_eq h.1 hbyte⟩

theorem nextBitFrom_isNext (hmax : maxN.val ≤ 8 * bm.length) (hi : 0 ≤ i.val) :
    ∀ c, c ⋖ i → ∃ r, nextBitFrom bit bm maxN i = .ok r ∧
      IsNext {q | isSet bm q = .ok bit} c maxN r := by
  -- Along the loop `c` is the last position that was looked at, and `i` comes right behind it.
  fun_induction nextBitFrom bit bm maxN i with
  | case1 i hlt ih =>
    intro c hcov
    have hval : i.val < maxN.val := hlt
    have hinside : Inside bm i := ⟨hi, by omega⟩
    obtain ⟨found, hfound⟩ := hinside.exists_isSet
    rw [hfound, ok_bind]
    by_cases heq : found = bit
    · rw [if_pos heq]
      exact ⟨i, rfl, .here hcov hlt (heq ▸ hfound)⟩
    · have hskip : i ∉ {q | isSet bm q = .ok bit} := fun hmem =>
        heq (Except.ok.inj (hfound.symm.trans hmem))
      have hsucc : i ⋖ i.succ maxN hlt := IntType.Val.covBy_of_val rfl
      obtain ⟨r, hr, hnext⟩ := ih (Int.le_add_one hi) i hsucc
      rw [if_neg heq]
      exact ⟨r, hr, hnext.skip hcov hskip⟩
  | case2 i hge =>
    intro c hcov
    exact ⟨maxN, rfl, .finished hcov (not_lt.mp hge)⟩

/-- `next_bit` finds the next position with the bit. -/
theorem nextBit_isNext (bit : Bool) (hmax : maxN.val ≤ 8 * bm.length) (hcurr : -1 ≤ curr.val)
    (hlt : curr.val < 2^31 - 1) :
    ∃ i, nextBit bit bm maxN curr = .ok i ∧ IsNext {q | isSet bm q = .ok bit} curr maxN i := by
  have hint : IntType.int.Holds (curr.val + 1) := by
    constructor
    · show (-2^31 : ℤ) ≤ curr.val + 1
      omega
    · show curr.val + 1 ≤ 2^31 - 1
      omega
  unfold nextBit
  rw [IntType.fit_bind _ hint]
  exact nextBitFrom_isNext hmax (show 0 ≤ curr.val + 1 by omega) curr (IntType.Val.covBy_of_val rfl)

theorem firstBit_isNext (bit : Bool) (hmax : maxN.val ≤ 8 * bm.length) :
    ∃ i, firstBit bit bm maxN = .ok i ∧ IsNext {q | isSet bm q = .ok bit} beforeFirst maxN i :=
  nextBit_isNext bit hmax (by decide) (by decide)

/-- A scan is a walk through the set. -/
theorem scan_walk (hmax : maxN.val ≤ 8 * bm.length) (hcurr : -1 ≤ curr.val)
    (hlt : curr.val < 2^31 - 1) :
    ∃ slots, scan bm maxN curr = .ok slots ∧ Walk (members bm) maxN curr slots := by
  have hnext {curr i : Pos} (hcurr : -1 ≤ curr.val) (hlt : curr.val < 2^31 - 1)
      (hfound : nextBit true bm maxN curr = .ok i) : IsNext (members bm) curr maxN i := by
    obtain ⟨i', hi', hnext⟩ := nextBit_isNext true hmax hcurr hlt
    obtain rfl : i' = i := Except.ok.inj (hi'.symm.trans hfound)
    exact hnext
  fun_induction scan bm maxN curr with
  | case1 curr e hfailed =>
    obtain ⟨i, hi, -⟩ := nextBit_isNext true hmax hcurr hlt
    cases hi.symm.trans hfailed
  | case2 curr hfound => exact ⟨[], rfl, .nil (hnext hcurr hlt hfound)⟩
  | case3 curr i hfound hne ih =>
    -- The position that was found is below an `int`, so the next search does not overflow.
    have hbounds : curr.val < i.val ∧ i.val < maxN.val := nextBit_bounds hfound hne
    have hint : maxN.val ≤ 2^31 - 1 := maxN.holds.2
    obtain ⟨rest, hrest, hwalk⟩ := ih (by omega) (by omega)
    refine ⟨i :: rest, ?_, .cons (hnext hcurr hlt hfound) hne hwalk⟩
    rw [hrest, ok_bind]
    rfl

/-- A scan from the start meets the set below `max_n`, in increasing order. -/
theorem scan_members (hmax : maxN.val ≤ 8 * bm.length) :
    ∃ slots, scan bm maxN beforeFirst = .ok slots ∧ slots.Pairwise (· < ·) ∧
      ∀ q, q ∈ slots ↔ isSet bm q = .ok true ∧ q < maxN := by
  have hscan : ∃ slots, scan bm maxN beforeFirst = .ok slots ∧
      Walk (members bm) maxN beforeFirst slots := scan_walk hmax (by decide) (by decide)
  obtain ⟨slots, hslots, hwalk⟩ := hscan
  refine ⟨slots, hslots, hwalk.pairwise, fun q => ?_⟩
  rw [hwalk.mem_iff]
  constructor
  · rintro ⟨hset, -, hlt⟩
    exact ⟨hset, hlt⟩
  · rintro ⟨hset, hlt⟩
    have hnonneg : beforeFirst < q := Int.lt_of_lt_of_le (by decide) (inside_of_isSet hset).1
    exact ⟨hset, hnonneg, hlt⟩

/-- A bitmap is a set of positions: `set` and `reset` change one position, `next_bit` searches the
set or its complement, and a scan with it meets the whole set in increasing order. -/
theorem bitmap_implements_set :
    (∀ (bm : Bytes) (pos : Pos), Inside bm pos →
      (∃ bm', set bm pos = .ok bm' ∧ Changes bm bm' pos true) ∧
        ∃ bm', reset bm pos = .ok bm' ∧ Changes bm bm' pos false) ∧
    (∀ (bit : Bool) (bm : Bytes) (maxN curr : Pos), maxN.val ≤ 8 * bm.length →
      -1 ≤ curr.val → curr.val < 2^31 - 1 →
        ∃ i, nextBit bit bm maxN curr = .ok i ∧
          IsNext {q | isSet bm q = .ok bit} curr maxN i) ∧
    ∀ (bm : Bytes) (maxN : Pos), maxN.val ≤ 8 * bm.length →
      ∃ slots, scan bm maxN beforeFirst = .ok slots ∧ slots.Pairwise (· < ·) ∧
        ∀ q, q ∈ slots ↔ isSet bm q = .ok true ∧ q < maxN := by
  exact ⟨fun bm pos h => ⟨set_changes h, reset_changes h⟩,
    fun bit bm maxN curr hmax hcurr hlt => nextBit_isNext bit hmax hcurr hlt,
    fun bm maxN hmax => scan_members hmax⟩

/-- A byte with its first and its last bit set. -/
theorem bitmap_implements_set_byte :
    let bm : Bytes := [0x81]
    let pos : Pos := ⟨3, by decide⟩
    let maxN : Pos := ⟨8, by decide⟩
    ((∃ bm', set bm pos = .ok bm' ∧ Changes bm bm' pos true) ∧
        ∃ bm', reset bm pos = .ok bm' ∧ Changes bm bm' pos false) ∧
      (∃ i, nextBit true bm maxN pos = .ok i ∧
        IsNext {q | isSet bm q = .ok true} pos maxN i) ∧
      ∃ slots, scan bm maxN beforeFirst = .ok slots ∧ slots.Pairwise (· < ·) ∧
        ∀ q, q ∈ slots ↔ isSet bm q = .ok true ∧ q < maxN := by
  intro bm pos maxN
  refine ⟨bitmap_implements_set.1 bm pos (by decide),
    bitmap_implements_set.2.1 true bm maxN pos (by decide) (by decide) (by decide),
    bitmap_implements_set.2.2 bm maxN (by decide)⟩

/-- Behind the greatest `int` there is no position to start from. -/
theorem nextBit_overflow (bit : Bool) (bm : Bytes) (maxN : Pos) (hcurr : curr.val = 2^31 - 1) :
    nextBit bit bm maxN curr = .error .undefinedBehaviour := by
  have hint : ¬IntType.int.Holds (curr.val + 1) := by
    rw [hcurr]
    decide
  unfold nextBit
  rw [IntType.fit_eq_error hint]
  rfl

/-- This position is one of a buffer of `2^28` bytes. -/
theorem nextBit_overflow_inside :
    let bm : Bytes := List.replicate (2^28) 0
    let last : Pos := ⟨2^31 - 1, by decide⟩
    Inside bm last ∧ last.val ≤ 8 * bm.length ∧
      nextBit true bm last last = .error .undefinedBehaviour := by
  intro bm last
  have hlength : bm.length = 2^28 := List.length_replicate
  refine ⟨?_, ?_, nextBit_overflow true bm last rfl⟩
  · unfold Inside
    rw [hlength]
    decide
  · rw [hlength]
    decide

end Search

end Rucbase.Bitmap
