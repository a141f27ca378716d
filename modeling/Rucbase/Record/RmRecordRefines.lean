import Rucbase.Lib.Runs
import Rucbase.Record.RmRecord

/-!
# Records behave as values

The members of `RmRecord` on the heap refine the operations on values: each of them does to the
objects what `valueStep` does to their values, or throws what it refuses and changes nothing
(`refines_apply`). A member that needs memory makes the new buffer first and only then gives up the
old one, so the proofs go from the state with the new buffer in hand (`Holding`) to the one where an
object has taken it (`Holding.push`, `Holding.replace`).
-/

namespace Rucbase

open Lib

namespace Records

/-! ## The members refine values -/

/-- A buffer with a value is in hand, and the objects are as they were. -/
structure Holding (state : Records) (data : Option ℕ) (value : Bytes) (state' : Records) :
    Prop where
  inv : state'.Inv data.toList
  objects : state'.objects = state.objects
  values : state'.values = state.values
  valid : Valid state'.bytes ⟨data, value.length, data.isSome⟩
  value : valueOf state'.bytes ⟨data, value.length, data.isSome⟩ = value

/-- The computation brings a copy into the hand, or throws and changes nothing. -/
def Copies (state : Records) (x : Member (Option ℕ)) : Except Refusal Bytes → Prop
  | .error refusal => x state = (.error refusal.error, state)
  | .ok value => ∃ data state', x state = (.ok data, state') ∧ Holding state data value state'

/-- The member does to the objects what is meant for their values, or throws and changes
nothing. -/
def Refines (state : Records) (x : Member Unit) : Except Refusal Values → Prop
  | .error refusal => x state = (.error refusal.error, state)
  | .ok values => ∃ state', x state = (.ok (), state') ∧ state'.Inv [] ∧ state'.values = values

section Members

variable {state state' : Records} {hand : List ℕ} {this other address n : ℕ}
  {record : RmRecord} {data : Option ℕ} {value src : Bytes} {allocation : Allocation}

theorem holding_none (hinv : state.Inv []) : Holding state none [] state where
  inv := hinv
  objects := rfl
  values := rfl
  valid := valid_empty
  value := rfl

theorem holding_allocate (hinv : state.Inv []) (hfree : state.blocks.table address = none)
    (hvalue : value ≠ []) :
    Holding state (some address) value (state.allocate address value) := by
  obtain ⟨hinv', hvalues⟩ := hinv.allocate value hfree
  have hbytes : (state.allocate address value).bytes address = value := Function.update_self ..
  refine ⟨hinv', rfl, hvalues, ⟨?_, rfl, ?_⟩, hbytes⟩
  · exact congrArg (fun bs : Bytes => (bs.length : ℤ)) hbytes.symm
  · intro other hother
    cases hother
    rw [hbytes]
    exact hvalue

theorem object_apply (h : state.objects[this]? = some (some record)) :
    object this state = (.ok record, state) := by
  unfold object
  rw [Effect.bind_of_ok (Effect.get_apply state), h]
  rfl

theorem loadBlock_apply (hlive : state.live address = true)
    (hlen : (state.bytes address).length = n) :
    loadBlock (some address) n state = (.ok (state.bytes address), state) := by
  unfold loadBlock
  rw [Effect.bind_of_ok (Effect.get_apply state)]
  simp only
  rw [if_pos ⟨hlive, hlen.ge⟩, Effect.pure_apply, List.take_of_length_le hlen.le]

theorem storeBlock_apply (hlive : state.live address = true)
    (hlen : (state.bytes address).length = n) (hsrc : n ≤ src.length) :
    storeBlock (some address) src n state = (.ok (), state.write address (src.take n)) := by
  have hcopy : memcpy (state.bytes address) 0 (src.take n) = src.take n := by
    unfold memcpy
    rw [List.take_zero, List.nil_append, List.length_take, zero_add, min_eq_left hsrc,
      List.drop_of_length_le hlen.le, List.append_nil]
  unfold storeBlock
  rw [Effect.bind_of_ok (Effect.get_apply state)]
  simp only
  rw [if_pos ⟨hlive, hlen.ge, hsrc⟩, Effect.modify_apply, hcopy]

theorem live_allocate : (state.allocate address value).live address = true := by
  simp [live, allocate, Handles.acquire]

/-- A new buffer that is filled as a whole. -/
theorem storeBlock_allocate {garbage : ℕ → UInt8} (hsrc : n ≤ src.length) :
    storeBlock (some address) src n (state.allocate address ((List.range n).map garbage)) =
      (.ok (), state.allocate address (src.take n)) := by
  have hlen : ((state.allocate address ((List.range n).map garbage)).bytes address).length = n := by
    simp [allocate]
  rw [storeBlock_apply live_allocate hlen hsrc]
  simp [write, allocate]

theorem newBlock_apply {garbage : ℕ → UInt8} :
    newBlock n (some (address, garbage)) state =
      (.ok address, state.allocate address ((List.range n).map garbage)) := rfl

theorem newCopy_copies (hinv : state.Inv []) (hfresh : state.fresh allocation = true)
    (hn : 0 < n) (hsrc : n ≤ src.length) :
    Copies state (newCopy allocation src n) (copyOf (src.take n) allocation) := by
  have hne : src.take n ≠ [] := by
    intro hnil
    have hlen := congrArg List.length hnil
    rw [List.length_take, min_eq_left hsrc, List.length_nil] at hlen
    omega
  unfold copyOf
  cases allocation with
  | none =>
    rw [if_pos ⟨hne, rfl⟩]
    rfl
  | some block =>
    obtain ⟨address, garbage⟩ := block
    rw [if_neg (by simp)]
    have hfree : state.blocks.table address = none := of_decide_eq_true hfresh
    refine ⟨some address, _, ?_, holding_allocate hinv hfree hne⟩
    unfold newCopy
    rw [Effect.bind_of_ok newBlock_apply, Effect.bind_of_ok (storeBlock_allocate hsrc)]
    rfl

/-- Of an object that is alive `copy_data` makes a copy; it never finds an invalid source. -/
theorem copyData_copies (hinv : state.Inv []) (hfresh : state.fresh allocation = true)
    (h : state.objects[other]? = some (some record)) :
    Copies state (copyData other allocation) (copyOf (valueOf state.bytes record) allocation) := by
  have hvalid := hinv.valid_at h
  have hsize := hvalid.size
  unfold copyData
  cases hdata : record.data with
  | none =>
    have hnil : valueOf state.bytes record = [] := hvalid.data_eq_none.mp hdata
    rw [hnil] at hsize ⊢
    have hzero : record.size = 0 := hsize
    refine ⟨none, state, ?_, holding_none hinv⟩
    rw [Effect.bind_of_ok (object_apply h), if_neg (by omega), if_pos hzero]
    rfl
  | some source =>
    have hvalue : valueOf state.bytes record = state.bytes source := by simp [valueOf, hdata]
    have hne : state.bytes source ≠ [] := hvalid.nonempty source hdata
    have hpos : 0 < (state.bytes source).length := List.length_pos_iff.mpr hne
    rw [hvalue] at hsize ⊢
    have hnat : record.size.toNat = (state.bytes source).length := by omega
    unfold copyOf
    cases allocation with
    | none =>
      rw [if_pos ⟨hne, rfl⟩]
      show _ = _
      rw [Effect.bind_of_ok (object_apply h), if_neg (by simp [hdata]; omega), if_neg (by omega)]
      rfl
    | some block =>
      obtain ⟨address, garbage⟩ := block
      have hfree : state.blocks.table address = none := of_decide_eq_true hfresh
      rw [if_neg (by simp)]
      refine ⟨some address, _, ?_, holding_allocate hinv hfree hne⟩
      -- The new block is another one than that of the source, whose content it leaves alone.
      have hother : source ≠ address := by
        rintro rfl
        have hlive := hinv.live h hdata
        simp [live, hfree] at hlive
      have hlive : (state.allocate address ((List.range record.size.toNat).map garbage)).live source
          = true := by
        have hbefore := hinv.live h hdata
        simp only [live, allocate, Handles.acquire, Function.update_of_ne hother]
        exact hbefore
      have hbytes : (state.allocate address ((List.range record.size.toNat).map garbage)).bytes
          source = state.bytes source := by
        simp only [allocate, Function.update_of_ne hother]
      have hload := loadBlock_apply hlive (n := record.size.toNat) (by rw [hbytes, hnat])
      rw [Effect.bind_of_ok (object_apply h), if_neg (by simp [hdata]; omega), if_neg (by omega),
        Effect.bind_of_ok newBlock_apply, hdata, Effect.bind_of_ok hload, hbytes,
        Effect.bind_of_ok (storeBlock_allocate hnat.le), List.take_of_length_le hnat.ge]
      rfl

/-- `release` frees the buffer of an object and nothing else. -/
theorem release_apply (hinv : state.Inv hand) (h : state.objects[this]? = some (some record)) :
    ∃ state', release this state = (.ok (), state') ∧ state'.Inv hand ∧
      state'.bytes = state.bytes ∧ state'.objects = state.objects.set this (some {}) := by
  have hallocated := (hinv.valid_at h).allocated
  have hclear := hinv.clear h (some {}) rfl (by rintro _ ⟨⟩; exact valid_empty)
  unfold release
  cases hdata : record.data with
  | none =>
    rw [hdata] at hallocated hclear
    refine ⟨_, ?_, hclear, rfl, rfl⟩
    rw [Effect.bind_of_ok (object_apply h), hallocated]
    rfl
  | some address =>
    have hlive := hinv.live h hdata
    rw [hdata] at hallocated hclear
    refine ⟨{ state with
        blocks := state.blocks.release address
        objects := state.objects.set this (some {}) }, ?_,
      ⟨hclear.owned.release, hclear.valid⟩, rfl, rfl⟩
    have hdelete : deleteBlock (some address) state =
        (.ok (), { state with blocks := state.blocks.release address }) := by
      rw [deleteBlock, Effect.bind_of_ok (Effect.get_apply state), if_pos hlive]
      rfl
    rw [Effect.bind_of_ok (object_apply h), hallocated, Option.isSome_some, if_pos rfl, hdata,
      Effect.bind_of_ok hdelete]
    rfl

theorem values_set (object : Option RmRecord) :
    ({ state with objects := state.objects.set this object } : Records).values =
      state.values.set this (object.map (valueOf state.bytes)) :=
  List.map_set

theorem values_push :
    ({ state with objects := state.objects ++ [some record] } : Records).values =
      state.values ++ [some (valueOf state.bytes record)] :=
  List.map_append

/-- An object that was released is empty. -/
theorem values_of_release {released : Records} (hbytes : released.bytes = state.bytes)
    (hobjects : released.objects = state.objects.set this (some {})) :
    released.values = state.values.set this (some []) := by
  unfold values
  rw [hobjects, hbytes, List.map_set]
  rfl

theorem eq_of_copyOf {copied : Bytes} (h : copyOf value allocation = .ok copied) :
    value = copied := by
  unfold copyOf at h
  split_ifs at h
  exact Except.ok.inj h

/-- A member that makes a copy first throws with it, or goes on with the copy in hand. -/
theorem Refines.of_copies {x : Member (Option ℕ)} {f : Option ℕ → Member Unit}
    {g : Bytes → Values} (hx : Copies state x (copyOf value allocation))
    (hf : ∀ data state', Holding state data value state' →
      ∃ state'', f data state' = (.ok (), state'') ∧ state''.Inv [] ∧ state''.values = g value) :
    Refines state (x >>= f) (copyOf value allocation >>= fun copied => pure (g copied)) := by
  cases hcopy : copyOf value allocation with
  | error refusal =>
    rw [hcopy] at hx
    exact Effect.bind_of_error hx
  | ok copied =>
    rw [hcopy] at hx
    obtain rfl := eq_of_copyOf hcopy
    obtain ⟨data, state', hrun, hholding⟩ := hx
    obtain ⟨state'', hrun', hinv, hvalues⟩ := hf data state' hholding
    exact ⟨state'', (Effect.bind_of_ok hrun).trans hrun', hinv, hvalues⟩

/-- A new object takes what is in hand. -/
theorem Holding.push (h : Holding state data value state') :
    ∃ state'', push ⟨data, value.length, data.isSome⟩ state' = (.ok (), state'') ∧
      state''.Inv [] ∧ state''.values = state.values ++ [some value] := by
  refine ⟨_, rfl, h.inv.push h.valid rfl, ?_⟩
  rw [values_push, h.value, h.values]

/-- An object frees its buffer and takes what is in hand. -/
theorem Holding.replace (h : Holding state data value state')
    (hthis : state.objects[this]? = some (some record)) :
    ∃ released state'', release this state' = (.ok (), released) ∧
      released.objects = state.objects.set this (some {}) ∧
      assign this (some ⟨data, value.length, data.isSome⟩) released = (.ok (), state'') ∧
      state''.Inv [] ∧ state''.values = state.values.set this (some value) := by
  rw [← h.objects] at hthis
  obtain ⟨released, hrelease, hinv, hbytes, hobjects⟩ := release_apply h.inv hthis
  have hlt := (List.getElem?_eq_some_iff.mp hthis).1
  have hcleared : released.objects[this]? = some (some {}) := by
    rw [hobjects, List.getElem?_set_self hlt]
  have hvalid := h.valid
  rw [← hbytes] at hvalid
  refine ⟨released, _, hrelease, by rw [hobjects, h.objects], rfl,
    hinv.fill hcleared rfl hvalid rfl, ?_⟩
  have hvalue := h.value
  rw [← hbytes] at hvalue
  rw [values_set, Option.map_some, hvalue, values_of_release hbytes hobjects, List.set_set,
    h.values]

theorem copyConstruct_refines (hinv : state.Inv []) (hfresh : state.fresh allocation = true)
    (h : state.objects[other]? = some (some record)) :
    Refines state (copyConstruct other allocation)
      (valueStep state.values (.copyConstruct other allocation)) := by
  rw [valueStep, copyConstruct, valueAt_values h]
  refine Refines.of_copies (copyData_copies hinv hfresh h) fun data state' hholding => ?_
  -- The size of the copy is read from the source once more.
  have hother : state'.objects[other]? = some (some record) := by rw [hholding.objects, h]
  rw [Effect.bind_of_ok (object_apply hother), (hinv.valid_at h).size]
  exact hholding.push

theorem copyAssign_refines (hinv : state.Inv []) (hfresh : state.fresh allocation = true)
    {old : RmRecord} (hthis : state.objects[this]? = some (some old))
    (h : state.objects[other]? = some (some record)) :
    Refines state (copyAssign this other allocation)
      (valueStep state.values (.copyAssign this other allocation)) := by
  rw [valueStep, copyAssign]
  by_cases hself : this = other
  · rw [if_pos hself, if_pos hself]
    exact ⟨state, rfl, hinv, rfl⟩
  · rw [if_neg hself, if_neg hself, valueAt_values h]
    refine Refines.of_copies (copyData_copies hinv hfresh h) fun data state' hholding => ?_
    obtain ⟨released, state'', hrelease, hobjects, hassign, hinv', hvalues⟩ :=
      hholding.replace hthis
    have hother : released.objects[other]? = some (some record) := by
      rw [hobjects, List.getElem?_set_ne hself, h]
    refine ⟨state'', ?_, hinv', hvalues⟩
    rw [Effect.bind_of_ok hrelease, Effect.bind_of_ok (object_apply hother),
      (hinv.valid_at h).size]
    exact hassign

theorem moveConstruct_refines (hinv : state.Inv [])
    (h : state.objects[other]? = some (some record)) :
    Refines state (moveConstruct other) (valueStep state.values (.moveConstruct other)) := by
  rw [valueStep, moveConstruct, valueAt_values h]
  have hlt := (List.getElem?_eq_some_iff.mp h).1
  have htaken := hinv.clear h (some {}) rfl (by rintro _ ⟨⟩; exact valid_empty)
  rw [List.append_nil] at htaken
  refine ⟨_, ?_, htaken.push (hinv.valid_at h) rfl, ?_⟩
  · rw [Effect.bind_of_ok (object_apply h)]
    -- The source is cleared behind the construction; the order does not matter.
    show (Except.ok (), ({ state with
      objects := (state.objects ++ [some record]).set other (some {}) } : Records)) = _
    rw [List.set_append_left _ _ hlt]
  · rw [values_push, values_set]
    rfl

theorem moveAssign_refines (hinv : state.Inv []) {old : RmRecord}
    (hthis : state.objects[this]? = some (some old))
    (h : state.objects[other]? = some (some record)) :
    Refines state (moveAssign this other) (valueStep state.values (.moveAssign this other)) := by
  rw [valueStep, moveAssign]
  by_cases hself : this = other
  · rw [if_pos hself, if_pos hself]
    exact ⟨state, rfl, hinv, rfl⟩
  · rw [if_neg hself, if_neg hself, valueAt_values h]
    obtain ⟨released, hrelease, hinv', hbytes, hobjects⟩ := release_apply hinv hthis
    have hlt := (List.getElem?_eq_some_iff.mp hthis).1
    have hother : released.objects[other]? = some (some record) := by
      rw [hobjects, List.getElem?_set_ne hself, h]
    have htaken := hinv'.clear hother (some {}) rfl (by rintro _ ⟨⟩; exact valid_empty)
    rw [List.append_nil] at htaken
    have hcleared : (released.objects.set other (some {}))[this]? = some (some {}) := by
      rw [List.getElem?_set_ne (Ne.symm hself), hobjects, List.getElem?_set_self hlt]
    refine ⟨_, ?_, htaken.fill hcleared rfl (hinv'.valid_at hother) rfl, ?_⟩
    · rw [Effect.bind_of_ok hrelease, Effect.bind_of_ok (object_apply hother)]
      show (Except.ok (), ({ released with
        objects := (released.objects.set this (some record)).set other (some {}) } : Records)) = _
      rw [List.set_comm _ _ hself]
    · rw [values_set]
      show (({ released with
        objects := released.objects.set other (some {}) } : Records).values).set
          this (some (valueOf released.bytes record)) = _
      rw [values_set, values_of_release hbytes hobjects, hbytes, List.set_comm _ _ (Ne.symm hself),
        List.set_set]
      rfl

theorem destroy_refines (hinv : state.Inv []) (h : state.objects[this]? = some (some record)) :
    Refines state (destroy this) (valueStep state.values (.destroy this)) := by
  obtain ⟨released, hrelease, hinv', hbytes, hobjects⟩ := release_apply hinv h
  have hlt := (List.getElem?_eq_some_iff.mp h).1
  have hcleared : released.objects[this]? = some (some {}) := by
    rw [hobjects, List.getElem?_set_self hlt]
  refine ⟨_, ?_, hinv'.clear hcleared none rfl nofun, ?_⟩
  · unfold destroy
    rw [Effect.bind_of_ok hrelease]
    rfl
  · rw [values_set, values_of_release hbytes hobjects, List.set_set]
    rfl

variable {size : ℤ} {source : Option Bytes}

theorem refines_invalidSize (hsize : size < 0) {next : Unit → Except Refusal Values} :
    Refines state (Effect.raise (.thrown (.invalidRecordSizeError size)))
      (throwIf (size < 0) (Refusal.invalidSize size) >>= next) := by
  rw [throwIf, if_pos hsize]
  rfl

/-- A new record of size 0 has no buffer. -/
theorem refines_pushEmpty (hinv : state.Inv []) (allocation : Allocation) :
    Refines state (push ⟨none, 0, false⟩)
      (copyOf [] allocation >>= fun value => pure (state.values ++ [some value])) := by
  obtain ⟨state', hpush, hinv', hvalues⟩ := (holding_none hinv).push
  exact ⟨state', hpush, hinv', hvalues⟩

theorem constructSize_refines (hinv : state.Inv []) (hfresh : state.fresh allocation = true) :
    Refines state (constructSize size allocation)
      (valueStep state.values (.constructSize size allocation)) := by
  rw [valueStep, constructSize]
  by_cases hneg : size < 0
  · rw [if_pos hneg]
    exact refines_invalidSize hneg
  · rw [if_neg hneg, throwIf_bind hneg]
    by_cases hpos : 0 < size
    · rw [if_pos hpos]
      have hlen : (garbageOf size.toNat allocation).length = size.toNat := by
        cases allocation <;> simp [garbageOf]
      have hne : garbageOf size.toNat allocation ≠ [] := by
        intro hnil
        rw [hnil, List.length_nil] at hlen
        omega
      cases allocation with
      | none =>
        rw [copyOf, if_pos ⟨hne, rfl⟩]
        rfl
      | some block =>
        obtain ⟨address, garbage⟩ := block
        have hfree : state.blocks.table address = none := of_decide_eq_true hfresh
        obtain ⟨state', hpush, hinv', hvalues⟩ := (holding_allocate hinv hfree hne).push
        rw [copyOf, if_neg (by simp)]
        refine ⟨state', ?_, hinv', hvalues⟩
        rw [hlen, Int.toNat_of_nonneg hpos.le] at hpush
        rw [Effect.bind_of_ok newBlock_apply]
        exact hpush
    · obtain rfl : size = 0 := by omega
      have hnil : garbageOf (0 : ℤ).toNat allocation = [] := by
        cases allocation <;> rfl
      rw [if_neg hpos, hnil]
      exact refines_pushEmpty hinv allocation

theorem constructData_refines (hinv : state.Inv []) (hcovers : covers size source = true)
    (hfresh : state.fresh allocation = true) :
    Refines state (constructData size source allocation)
      (valueStep state.values (.constructData size source allocation)) := by
  rw [valueStep]
  unfold constructData
  by_cases hneg : size < 0
  · rw [if_pos hneg]
    exact refines_invalidSize hneg
  · rw [if_neg hneg, throwIf_bind hneg]
    by_cases hpos : 0 < size
    · rw [if_pos hpos]
      cases source with
      | none =>
        rw [sourceOf, if_pos (by omega)]
        rfl
      | some src =>
        have hsrc : size ≤ src.length := of_decide_eq_true hcovers
        have hn : size.toNat ≤ src.length := by omega
        have hlen : ((src.take size.toNat).length : ℤ) = size := by
          rw [List.length_take]
          omega
        refine Refines.of_copies (newCopy_copies hinv hfresh (by omega) hn) ?_
        intro data state' hholding
        -- The value is not empty, so there is a buffer.
        have hsome : data.isSome = true := by
          by_contra hnone
          have hdata : data = none := by simpa using hnone
          have hnil := hholding.valid.data_eq_none.mp hdata
          rw [hholding.value] at hnil
          rw [hnil] at hlen
          simp at hlen
          omega
        have hpush := hholding.push
        rwa [hlen, hsome] at hpush
    · obtain rfl : size = 0 := by omega
      have hnil : sourceOf (0 : ℤ).toNat source = .ok [] := by
        cases source with
        | none => rfl
        | some src => simp [sourceOf]
      rw [if_neg hpos, hnil]
      exact refines_pushEmpty hinv allocation

/-- An object changes the content of its buffer. -/
theorem Inv.write_own (hinv : state.Inv []) (h : state.objects[this]? = some (some record))
    (hdata : record.data = some address) (hlen : value.length = (state.bytes address).length) :
    (state.write address value).Inv [] ∧
      (state.write address value).values = state.values.set this (some value) := by
  have hlt := (List.getElem?_eq_some_iff.mp h).1
  have hunique : ∀ (i : ℕ) (other : RmRecord), state.objects[i]? = some (some other) →
      other.data = some address → i = this := by
    intro i other hi hother
    have hnodup : (held dataOf state.objects).Nodup := hinv.owned.nodup_owned
    exact index_eq_of_held hnodup hi h hother hdata
  have hself : valueOf (Function.update state.bytes address value) record = value := by
    simp [valueOf, hdata]
  refine ⟨⟨hinv.owned, fun other hmem => ?_⟩, ?_⟩
  · obtain ⟨i, hi⟩ := List.mem_iff_getElem?.mp hmem
    have hvalid := hinv.valid other hmem
    by_cases hother : other.data = some address
    · -- Then it is this object, and the new content is as long as the old one.
      obtain rfl := hunique i other hi hother
      obtain rfl : other = record := Option.some.inj (Option.some.inj (hi.symm.trans h))
      refine ⟨?_, hvalid.allocated, ?_⟩
      · have hsize := hvalid.size
        have hbefore : valueOf state.bytes other = state.bytes address := by
          simp [valueOf, hdata]
        show other.size = (valueOf (Function.update state.bytes address value) other).length
        rw [hself, hsize, hbefore, hlen]
      · intro address' haddress
        obtain rfl : address = address' := by simpa [hdata] using haddress
        have hne := hvalid.nonempty address hdata
        show Function.update state.bytes address value address ≠ []
        rw [Function.update_self]
        intro hnil
        rw [hnil, List.length_nil] at hlen
        exact hne (List.length_eq_zero_iff.mp hlen.symm)
    · exact hvalid.update hother
  · refine List.ext_getElem? fun i => ?_
    unfold values
    rw [List.getElem?_map]
    by_cases hi : i = this
    · subst hi
      rw [List.getElem?_set_self (by simpa using hlt)]
      show state.objects[i]?.map (Option.map (valueOf (Function.update state.bytes address value)))
        = _
      rw [h, Option.map_some, Option.map_some, hself]
    · rw [List.getElem?_set_ne (Ne.symm hi), List.getElem?_map]
      show state.objects[i]?.map (Option.map (valueOf (Function.update state.bytes address value)))
        = _
      cases hobject : state.objects[i]? with
      | none => rfl
      | some object =>
        cases object with
        | none => rfl
        | some other =>
          have hother : other.data ≠ some address :=
            fun hother => hi (hunique i other hobject hother)
          rw [Option.map_some, Option.map_some, Option.map_some, Option.map_some,
            valueOf_update hother]

theorem setData_refines (hinv : state.Inv []) (h : state.objects[this]? = some (some record))
    (hcovers : covers record.size source = true) :
    Refines state (setData this source) (valueStep state.values (.setData this source)) := by
  have hvalid := hinv.valid_at h
  have hsize := hvalid.size
  rw [valueStep, setData, valueAt_values h]
  by_cases hpos : 0 < record.size
  · have hn : 0 < (valueOf state.bytes record).length := by omega
    cases source with
    | none =>
      rw [sourceOf, if_pos hn]
      show _ = _
      rw [Effect.bind_of_ok (object_apply h), if_pos hpos]
      rfl
    | some src =>
      have hsrc : record.size ≤ src.length := of_decide_eq_true hcovers
      obtain ⟨address, hdata⟩ : ∃ address, record.data = some address := by
        refine Option.ne_none_iff_exists'.mp fun hnone => ?_
        rw [hvalid.data_eq_none.mp hnone] at hn
        simp at hn
      have hvalue : valueOf state.bytes record = state.bytes address := by simp [valueOf, hdata]
      rw [hvalue] at hsize ⊢
      have hnat : (state.bytes address).length = record.size.toNat := by omega
      have hlen :
          (src.take (state.bytes address).length).length = (state.bytes address).length := by
        rw [List.length_take]
        omega
      obtain ⟨hinv', hvalues⟩ := hinv.write_own h hdata hlen
      refine ⟨_, ?_, hinv', hvalues⟩
      rw [Effect.bind_of_ok (object_apply h), if_pos hpos, hdata]
      show storeBlock (some address) src record.size.toNat state = _
      rw [storeBlock_apply (hinv.live h hdata) hnat (by omega), hnat]
  · have hnil : valueOf state.bytes record = [] := by
      refine List.length_eq_zero_iff.mp ?_
      omega
    have hsource : sourceOf (valueOf state.bytes record).length source = .ok [] := by
      rw [hnil]
      cases source with
      | none => rfl
      | some src => simp [sourceOf]
    rw [hsource]
    refine ⟨state, ?_, hinv, ?_⟩
    · rw [Effect.bind_of_ok (object_apply h), if_neg hpos]
      rfl
    · -- The value stays the empty one.
      have hvalue : state.values[this]? = some (some []) := by
        unfold values
        rw [List.getElem?_map, h, Option.map_some, Option.map_some, hnil]
      obtain ⟨hlt, heq⟩ := List.getElem?_eq_some_iff.mp hvalue
      rw [← heq]
      exact (List.set_getElem_self hlt).symm

theorem deserializeSized_refines (hinv : state.Inv [])
    (h : state.objects[this]? = some (some record))
    (hcovers : SizeOk size → 4 + size ≤ src.length) (hfresh : state.fresh allocation = true) :
    Refines state (deserializeSized this src size allocation)
      (decodeValue state.values this src size allocation) := by
  unfold deserializeSized decodeValue
  have hiff : (size < 0 ∨ rmMaxRecordSize < size) ↔ ¬SizeOk size := by
    unfold SizeOk
    omega
  by_cases hok : SizeOk size
  · have hlong := hcovers hok
    have hlow : 0 ≤ size := hok.1
    have hlen : (((src.drop 4).take size.toNat).length : ℤ) = size := by
      rw [List.length_take, List.length_drop]
      omega
    rw [if_neg (fun hout => hiff.mp hout hok), throwIf_bind (not_not.mpr hok)]
    refine Refines.of_copies ?_ fun data state' hholding => ?_
    · unfold decodedCopy
      by_cases hzero : size = 0
      · rw [if_pos hzero, hzero]
        exact ⟨none, state, rfl, holding_none hinv⟩
      · rw [if_neg hzero]
        refine newCopy_copies hinv hfresh (by omega) ?_
        rw [List.length_drop]
        omega
    · obtain ⟨released, state'', hrelease, -, hassign, hinv', hvalues⟩ := hholding.replace h
      rw [hlen] at hassign
      refine ⟨state'', ?_, hinv', hvalues⟩
      rw [Effect.bind_of_ok hrelease]
      exact hassign
  · rw [if_pos (hiff.mpr hok), throwIf, if_pos hok]
    rfl

theorem deserialize_refines (hinv : state.Inv []) (h : state.objects[this]? = some (some record))
    (hcovers : coversSerialized source = true) (hfresh : state.fresh allocation = true) :
    Refines state (deserialize this source allocation)
      (valueStep state.values (.deserialize this source allocation)) := by
  cases source with
  | none => rfl
  | some src =>
    rw [coversSerialized, decide_eq_true_eq] at hcovers
    rw [valueStep, deserialize, if_neg (not_lt.mpr hcovers.1)]
    generalize decodedSize src = size at hcovers ⊢
    exact deserializeSized_refines hinv h hcovers.2 hfresh

/-- Every operation refines its meaning for values. -/
theorem refines_apply {op : Op} (hinv : state.Inv []) (hlegal : state.legal op = true) :
    Refines state (apply op) (valueStep state.values op) := by
  cases op with
  | construct => exact ⟨_, rfl, (holding_none hinv).inv.push valid_empty rfl, values_push⟩
  | constructSize size allocation => exact constructSize_refines hinv hlegal
  | constructData size source allocation =>
    obtain ⟨hcovers, hfresh⟩ := Bool.and_eq_true_iff.mp hlegal
    exact constructData_refines hinv hcovers hfresh
  | copyConstruct other allocation =>
    obtain ⟨hother, hfresh⟩ := Bool.and_eq_true_iff.mp hlegal
    obtain ⟨record, hrecord⟩ := getElem?_of_alive hother
    exact copyConstruct_refines hinv hfresh hrecord
  | copyAssign this other allocation =>
    obtain ⟨hobjects, hfresh⟩ := Bool.and_eq_true_iff.mp hlegal
    obtain ⟨hthis, hother⟩ := Bool.and_eq_true_iff.mp hobjects
    obtain ⟨old, hold⟩ := getElem?_of_alive hthis
    obtain ⟨record, hrecord⟩ := getElem?_of_alive hother
    exact copyAssign_refines hinv hfresh hold hrecord
  | moveConstruct other =>
    obtain ⟨record, hrecord⟩ := getElem?_of_alive hlegal
    exact moveConstruct_refines hinv hrecord
  | moveAssign this other =>
    obtain ⟨hthis, hother⟩ := Bool.and_eq_true_iff.mp hlegal
    obtain ⟨old, hold⟩ := getElem?_of_alive hthis
    obtain ⟨record, hrecord⟩ := getElem?_of_alive hother
    exact moveAssign_refines hinv hold hrecord
  | setData this source =>
    cases hobject : state.objects[this]?.join with
    | none => simp [legal, hobject] at hlegal
    | some record =>
      rw [legal, hobject] at hlegal
      exact setData_refines hinv (Option.join_eq_some_iff.mp hobject) hlegal
  | deserialize this source allocation =>
    obtain ⟨hboth, hfresh⟩ := Bool.and_eq_true_iff.mp hlegal
    obtain ⟨hthis, hcovers⟩ := Bool.and_eq_true_iff.mp hboth
    obtain ⟨record, hrecord⟩ := getElem?_of_alive hthis
    exact deserialize_refines hinv hrecord hcovers hfresh
  | destroy this =>
    obtain ⟨record, hrecord⟩ := getElem?_of_alive hlegal
    exact destroy_refines hinv hrecord

end Members

/-! ## Runs -/

/-- An operation on values that is refused changes none of them. -/
def applyValues (values : Values) (op : Op) : Values :=
  match valueStep values op with
  | .ok values' => values'
  | .error _ => values

section Runs

variable {state state' : Records}

theorem Inv.step {op : Op} (hinv : state.Inv []) (h : state.step op = some state') :
    state'.Inv [] ∧ state'.values = applyValues state.values op := by
  obtain ⟨hlegal, hnext⟩ := Option.ite_none_right_eq_some.mp h
  obtain rfl := Option.some.inj hnext
  have hrefines := refines_apply hinv hlegal
  unfold applyValues
  cases hmeaning : valueStep state.values op with
  | error refusal =>
    rw [hmeaning] at hrefines
    rw [show apply op state = _ from hrefines]
    exact ⟨hinv, rfl⟩
  | ok values =>
    rw [hmeaning] at hrefines
    obtain ⟨next, hrun, hinv', hvalues⟩ := hrefines
    rw [hrun]
    exact ⟨hinv', hvalues⟩

/-- No refusal is undefined behaviour, or the complaint of `copy_data`. -/
theorem Refusal.error_ne (refusal : Refusal) :
    refusal.error ≠ .thrown .undefinedBehaviour ∧
      refusal.error ≠ .thrown (.internalError (text "RmRecord: invalid source record")) := by
  cases refusal with
  | invalidSize size => exact ⟨nofun, nofun⟩
  | nullSource | nullSerialized => exact ⟨nofun, by decide⟩
  | badAlloc => exact ⟨nofun, nofun⟩

/-- The exceptions are the refusals of the values, and they leave everything as it was. -/
theorem Inv.apply_error {op : Op} {e : RecordError} {after : Records} (hinv : state.Inv [])
    (hlegal : state.legal op = true) (h : apply op state = (.error e, after)) :
    after = state ∧ ∃ refusal, valueStep state.values op = .error refusal ∧ e = refusal.error := by
  have hrefines := refines_apply hinv hlegal
  cases hmeaning : valueStep state.values op with
  | error refusal =>
    rw [hmeaning] at hrefines
    obtain ⟨herror, hstate⟩ := Prod.mk.inj (h.symm.trans hrefines)
    exact ⟨hstate, refusal, rfl, Except.error.inj herror⟩
  | ok values =>
    rw [hmeaning] at hrefines
    obtain ⟨next, hrun, -⟩ := hrefines
    cases (Prod.mk.inj (h.symm.trans hrun)).1

/-- In every run the objects are the values that the operations mean. What an operation throws next
is what its refusal on the values throws, neither undefined behaviour nor an invalid source, and
changes nothing; each block in use is the buffer of one object; no block is freed twice; and without
objects all are freed. -/
theorem records_of_run (table : ℕ → Option Entry)
    (hforeign : ∀ address serial, table address ≠ some (.own serial)) (ops : List Op)
    (hrun : run { blocks := { table := table } } ops = some state) :
    state.values = ops.foldl applyValues [] ∧
    (∀ op e after, state.legal op = true → apply op state = (.error e, after) →
      after = state ∧ (∃ refusal, valueStep state.values op = .error refusal ∧ e = refusal.error) ∧
        e ≠ .thrown .undefinedBehaviour ∧
        e ≠ .thrown (.internalError (text "RmRecord: invalid source record"))) ∧
    (∀ address serial, state.blocks.table address = some (.own serial) →
      ∃! this : ℕ, state.objects[this]?.bind dataOf = some address) ∧
    state.blocks.released.Nodup ∧
    ((∀ this, state.alive this = false) →
      ∀ serial < state.blocks.acquired, some (.own serial) ∈ state.blocks.released) := by
  have hstart : Inv { blocks := { table := table } } [] :=
    ⟨Handles.owned_nil table hforeign, by simp⟩
  obtain ⟨hinv, hvalues⟩ := foldlM_simulates (fun hinv h => Inv.step hinv h) hrun hstart
  have howned : state.blocks.Owned (held dataOf state.objects) := hinv.owned
  refine ⟨hvalues, ?_, ?_, howned.nodup_released, ?_⟩
  · intro op e after hlegal happly
    obtain ⟨hafter, refusal, hmeaning, rfl⟩ := hinv.apply_error hlegal happly
    exact ⟨hafter, ⟨refusal, hmeaning, rfl⟩, refusal.error_ne⟩
  · intro address serial hown
    exact existsUnique_of_held howned.nodup_owned (howned.complete address serial hown)
  · intro hdead serial hserial
    have hempty : held dataOf state.objects = [] := by
      refine List.eq_nil_iff_forall_not_mem.mpr fun address haddress => ?_
      obtain ⟨this, hthis⟩ := mem_held_iff.mp haddress
      obtain ⟨object, hobject, hdata⟩ := Option.bind_eq_some_iff.mp hthis
      obtain ⟨record, rfl, -⟩ := Option.bind_eq_some_iff.mp hdata
      have halive : state.alive this = true := by simp [alive, hobject]
      simp [hdead this] at halive
    rw [hempty] at howned
    exact howned.mem_released hserial

/-- A copy outlives its source, whose address the allocator gives to a third record; an assignment
without memory is refused. -/
theorem records_of_run_reuse :
    let garbage : ℕ → UInt8 := fun _ => 255
    let ops : List Op :=
      [.constructData 2 (some [7, 8]) (some (16, garbage)), .copyConstruct 0 (some (32, garbage)),
        .destroy 0, .constructSize 1 (some (16, garbage)), .copyAssign 2 1 none,
        .deserialize 1 (some [1, 0, 0, 0, 5]) (some (48, garbage)), .moveAssign 2 1]
    ∃ state, run { blocks := { table := fun _ => none } } ops = some state ∧
      state.values = [none, some [], some [5]] ∧ state.blocks.released.Nodup ∧
      state.blocks.released.length = 3 := by
  intro garbage ops
  have heval : (run { blocks := { table := fun _ => none } } ops).map
      (fun state => (state.values, state.blocks.released.length)) =
        some ([none, some [], some [5]], 3) := by decide +kernel
  obtain ⟨state, hrun, hstate⟩ := Option.map_eq_some_iff.mp heval
  obtain ⟨hvalues, hreleased⟩ := Prod.mk.inj hstate
  have hresult := records_of_run (fun _ => none) (fun _ _ => nofun) ops hrun
  exact ⟨state, hrun, hvalues, hresult.2.2.2.1, hreleased⟩

end Runs

end Records

end Rucbase
