import Rucbase.Lib.Effect
import Rucbase.Lib.Handles
import Rucbase.Lib.Places
import Rucbase.Recovery.LogRecord

/-!
# Records as objects with a buffer

`RmRecord` (`src/record/rm_defs.h`) is a buffer on the heap with its size. It is copied, moved,
assigned, filled and decoded, and its destructor frees the buffer. The allocator gives out the
address of a freed buffer again, so an object that kept a pointer to it would read or free what
another object has.

The model below is the code on a heap: the objects hold addresses, and a load, a store or a
`delete[]` that is not inside a block in use is undefined behaviour. What the class is for is said
by `valueStep`: an object is a byte string, and assignment and copy are those of values. The
invariant `Inv` says that each block in use is the buffer of one object, or in the hand of the
member at work.

The fields are public in the source; here only the members of the class change them.
-/

namespace Rucbase

open Lib

/-- What a member of `RmRecord` throws: one of the exceptions of `errors.h`, or `std::bad_alloc`. -/
inductive RecordError where
  | thrown (e : Error)
  | badAlloc
  deriving DecidableEq, Repr

/-- `RmRecord`. -/
structure RmRecord where
  data : Option ℕ := none
  size : ℤ := 0
  allocated : Bool := false
  deriving DecidableEq, Repr

/-- The objects in the order of their construction, where a destroyed one leaves an empty place, and
the heap: its blocks and what they contain. -/
structure Records where
  blocks : Handles ℕ
  bytes : ℕ → Bytes := fun _ => []
  objects : List (Option RmRecord) := []

/-- What `new char[n]` does: it throws, or returns an address and finds some bytes there. -/
abbrev Allocation := Option (ℕ × (ℕ → UInt8))

namespace Records

/-- A member of the class at work. -/
abbrev Member := Effect RecordError Records

/-- The run leaves the rules of the language. -/
def undefined {α : Type} : Member α := Effect.raise (.thrown .undefinedBehaviour)

/-! ## The heap -/

/-- The address is that of a block in use. -/
def live (state : Records) (address : ℕ) : Bool :=
  match state.blocks.table address with
  | some (.own _) => true
  | _ => false

/-- A block comes into use. -/
def allocate (state : Records) (address : ℕ) (content : Bytes) : Records :=
  { state with
    blocks := state.blocks.acquire address
    bytes := Function.update state.bytes address content }

/-- A block gets another content. -/
def write (state : Records) (address : ℕ) (content : Bytes) : Records :=
  { state with bytes := Function.update state.bytes address content }

/-- `new char[n]`. -/
def newBlock (n : ℕ) : Allocation → Member ℕ
  | none => Effect.raise .badAlloc
  | some (address, garbage) => do
    Effect.modify fun state => state.allocate address ((List.range n).map garbage)
    pure address

/-- `memcpy` out of a block. -/
def loadBlock (data : Option ℕ) (n : ℕ) : Member Bytes := do
  let state ← Effect.get
  match data with
  | none => undefined
  | some address =>
    if state.live address ∧ n ≤ (state.bytes address).length then
      pure ((state.bytes address).take n)
    else undefined

/-- `memcpy` of `n` bytes to the beginning of a block. -/
def storeBlock (data : Option ℕ) (src : Bytes) (n : ℕ) : Member Unit := do
  let state ← Effect.get
  match data with
  | none => undefined
  | some address =>
    if state.live address ∧ n ≤ (state.bytes address).length ∧ n ≤ src.length then
      Effect.modify fun state =>
        state.write address (memcpy (state.bytes address) 0 (src.take n))
    else undefined

/-- `delete[]`, which does nothing to a null pointer. -/
def deleteBlock : Option ℕ → Member Unit
  | none => pure ()
  | some address => do
    let state ← Effect.get
    if state.live address then
      Effect.modify fun state => { state with blocks := state.blocks.release address }
    else undefined

/-! ## The members -/

/-- An object that is alive. -/
def object (this : ℕ) : Member RmRecord := do
  let state ← Effect.get
  match state.objects[this]?.join with
  | some record => pure record
  | none => undefined

/-- The fields of an object get other values, or the object is gone. -/
def assign (this : ℕ) (record : Option RmRecord) : Member Unit :=
  Effect.modify fun state => { state with objects := state.objects.set this record }

/-- A new object. -/
def push (record : RmRecord) : Member Unit :=
  Effect.modify fun state => { state with objects := state.objects ++ [some record] }

/-- `release`. -/
def release (this : ℕ) : Member Unit := do
  let record ← object this
  if record.allocated then deleteBlock record.data else pure ()
  assign this (some {})

/-- A buffer of `n > 0` bytes with a copy of the source. -/
def newCopy (allocation : Allocation) (src : Bytes) (n : ℕ) : Member (Option ℕ) := do
  let address ← newBlock n allocation
  storeBlock (some address) src n
  pure (some address)

/-- `copy_data`. -/
def copyData (other : ℕ) (allocation : Allocation) : Member (Option ℕ) := do
  let record ← object other
  if record.size < 0 ∨ (0 < record.size ∧ record.data = none) then
    Effect.raise (.thrown (.internalError (text "RmRecord: invalid source record")))
  else if record.size = 0 then pure none
  else do
    let address ← newBlock record.size.toNat allocation
    let src ← loadBlock record.data record.size.toNat
    storeBlock (some address) src record.size.toNat
    pure (some address)

/-- `RmRecord(const RmRecord&)`. -/
def copyConstruct (other : ℕ) (allocation : Allocation) : Member Unit := do
  let data ← copyData other allocation
  let record ← object other
  push ⟨data, record.size, data.isSome⟩

/-- `operator=(const RmRecord&)`. -/
def copyAssign (this other : ℕ) (allocation : Allocation) : Member Unit :=
  if this = other then pure ()
  else do
    let data ← copyData other allocation
    release this
    let record ← object other
    assign this (some ⟨data, record.size, data.isSome⟩)

/-- `RmRecord(RmRecord&&)`. -/
def moveConstruct (other : ℕ) : Member Unit := do
  let record ← object other
  push record
  assign other (some {})

/-- `operator=(RmRecord&&)`. -/
def moveAssign (this other : ℕ) : Member Unit :=
  if this = other then pure ()
  else do
    release this
    let record ← object other
    assign this (some record)
    assign other (some {})

/-- `RmRecord(int)`. -/
def constructSize (size : ℤ) (allocation : Allocation) : Member Unit :=
  if size < 0 then Effect.raise (.thrown (.invalidRecordSizeError size))
  else if 0 < size then do
    let address ← newBlock size.toNat allocation
    push ⟨some address, size, true⟩
  else push ⟨none, size, false⟩

/-- `InternalError("RmRecord: null source data")`. -/
def nullSource : RecordError := .thrown (.internalError (text "RmRecord: null source data"))

/-- `RmRecord(int, const char*)`. -/
def constructData (size : ℤ) (source : Option Bytes) (allocation : Allocation) : Member Unit :=
  if size < 0 then Effect.raise (.thrown (.invalidRecordSizeError size))
  else if 0 < size then
    match source with
    | none => Effect.raise nullSource
    | some src => do
      let data ← newCopy allocation src size.toNat
      push ⟨data, size, true⟩
  else push ⟨none, size, false⟩

/-- `SetData`. -/
def setData (this : ℕ) (source : Option Bytes) : Member Unit := do
  let record ← object this
  if 0 < record.size then
    match source with
    | none => Effect.raise nullSource
    | some src => storeBlock record.data src record.size.toNat
  else pure ()

/-- `InternalError("RmRecord: null serialized data")`. -/
def nullSerialized : RecordError :=
  .thrown (.internalError (text "RmRecord: null serialized data"))

/-- `decoded_size`, the size in front of a serialized record. -/
def decodedSize (src : Bytes) : ℤ := int32Of (src.take 4)

/-- `new_data` in `Deserialize`. -/
def decodedCopy (src : Bytes) (size : ℤ) (allocation : Allocation) : Member (Option ℕ) :=
  if size = 0 then pure none else newCopy allocation (src.drop 4) size.toNat

/-- `Deserialize` behind the reading of the size. -/
def deserializeSized (this : ℕ) (src : Bytes) (size : ℤ) (allocation : Allocation) :
    Member Unit :=
  if size < 0 ∨ rmMaxRecordSize < size then
    Effect.raise (.thrown (.invalidRecordSizeError size))
  else do
    let data ← decodedCopy src size allocation
    release this
    assign this (some ⟨data, size, data.isSome⟩)

/-- `Deserialize`. -/
def deserialize (this : ℕ) (source : Option Bytes) (allocation : Allocation) : Member Unit :=
  match source with
  | none => Effect.raise nullSerialized
  | some src =>
    if src.length < 4 then undefined
    else deserializeSized this src (decodedSize src) allocation

/-- `~RmRecord()`. -/
def destroy (this : ℕ) : Member Unit := do
  release this
  assign this none

/-! ## Operations -/

/-- An operation on the objects, with what the allocator does. -/
inductive Op where
  /-- `RmRecord()`. -/
  | construct
  | constructSize (size : ℤ) (allocation : Allocation)
  | constructData (size : ℤ) (source : Option Bytes) (allocation : Allocation)
  | copyConstruct (other : ℕ) (allocation : Allocation)
  | copyAssign (this other : ℕ) (allocation : Allocation)
  | moveConstruct (other : ℕ)
  | moveAssign (this other : ℕ)
  | setData (this : ℕ) (source : Option Bytes)
  | deserialize (this : ℕ) (source : Option Bytes) (allocation : Allocation)
  | destroy (this : ℕ)

/-- The member that an operation calls. -/
def apply : Op → Member Unit
  | .construct => push {}
  | .constructSize size allocation => Records.constructSize size allocation
  | .constructData size source allocation => Records.constructData size source allocation
  | .copyConstruct other allocation => Records.copyConstruct other allocation
  | .copyAssign this other allocation => Records.copyAssign this other allocation
  | .moveConstruct other => Records.moveConstruct other
  | .moveAssign this other => Records.moveAssign this other
  | .setData this source => Records.setData this source
  | .deserialize this source allocation => Records.deserialize this source allocation
  | .destroy this => Records.destroy this

/-- The object is alive. -/
def alive (state : Records) (this : ℕ) : Bool := state.objects[this]?.join.isSome

/-- The allocator gives out a block that is not in use. -/
def fresh (state : Records) : Allocation → Bool
  | none => true
  | some (address, _) => decide (state.blocks.table address = none)

/-- The source of a copy has that many bytes. -/
def covers (n : ℤ) : Option Bytes → Bool
  | none => true
  | some src => decide (n ≤ src.length)

/-- What `Deserialize` accepts as a size. -/
def SizeOk (size : ℤ) : Prop := 0 ≤ size ∧ size ≤ rmMaxRecordSize

instance (size : ℤ) : Decidable (SizeOk size) := inferInstanceAs (Decidable (_ ∧ _))

/-- A serialized record has its size, and the bytes that the size announces. -/
def coversSerialized : Option Bytes → Bool
  | none => true
  | some src =>
    decide (4 ≤ src.length ∧ (SizeOk (decodedSize src) → 4 + decodedSize src ≤ src.length))

/-- What the caller and the allocator owe an operation. -/
def legal (state : Records) : Op → Bool
  | .construct => true
  | .constructSize _ allocation => state.fresh allocation
  | .constructData size source allocation => covers size source && state.fresh allocation
  | .copyConstruct other allocation => state.alive other && state.fresh allocation
  | .copyAssign this other allocation =>
    state.alive this && state.alive other && state.fresh allocation
  | .moveConstruct other => state.alive other
  | .moveAssign this other => state.alive this && state.alive other
  | .setData this source =>
    match state.objects[this]?.join with
    | none => false
    | some record => covers record.size source
  | .deserialize this source allocation =>
    state.alive this && coversSerialized source && state.fresh allocation
  | .destroy this => state.alive this

/-- One operation; an exception is caught by the caller, who finds the objects as they were left. -/
def step (state : Records) (op : Op) : Option Records :=
  if state.legal op then some (apply op state).2 else none

/-- One operation after another. -/
def run (state : Records) (ops : List Op) : Option Records := ops.foldlM step state

/-! ## Records as values -/

/-- Why an operation on values is refused. -/
inductive Refusal where
  | invalidSize (size : ℤ)
  | nullSource
  | nullSerialized
  | badAlloc
  deriving DecidableEq, Repr

/-- The exception of a refusal. -/
def Refusal.error : Refusal → RecordError
  | .invalidSize size => .thrown (.invalidRecordSizeError size)
  | .nullSource => Records.nullSource
  | .nullSerialized => Records.nullSerialized
  | .badAlloc => .badAlloc

/-- The values of the objects; a destroyed one has none. -/
abbrev Values := List (Option Bytes)

/-- The value of an object. -/
def valueAt (values : Values) (this : ℕ) : Bytes := values[this]?.join.getD []

/-- A copy of a value: only an empty one needs no memory. -/
def copyOf (value : Bytes) (allocation : Allocation) : Except Refusal Bytes :=
  if value ≠ [] ∧ allocation = none then .error .badAlloc else .ok value

/-- The bytes of a buffer that nothing has written yet. -/
def garbageOf (n : ℕ) : Allocation → Bytes
  | none => List.replicate n 0
  | some (_, garbage) => (List.range n).map garbage

/-- The source of a value of a given size; only an empty value needs none. -/
def sourceOf (n : ℕ) : Option Bytes → Except Refusal Bytes
  | none => if 0 < n then .error .nullSource else .ok []
  | some src => .ok (src.take n)

/-- A serialized record of a given size becomes the value of an object. -/
def decodeValue (values : Values) (this : ℕ) (src : Bytes) (size : ℤ) (allocation : Allocation) :
    Except Refusal Values := do
  throwIf (¬SizeOk size) (.invalidSize size)
  let value ← copyOf ((src.drop 4).take size.toNat) allocation
  pure (values.set this (some value))

/-- What the operations mean: a record is a byte string. -/
def valueStep (values : Values) : Op → Except Refusal Values
  | .construct => .ok (values ++ [some []])
  | .constructSize size allocation => do
    throwIf (size < 0) (.invalidSize size)
    let value ← copyOf (garbageOf size.toNat allocation) allocation
    pure (values ++ [some value])
  | .constructData size source allocation => do
    throwIf (size < 0) (.invalidSize size)
    let value ← copyOf (← sourceOf size.toNat source) allocation
    pure (values ++ [some value])
  | .copyConstruct other allocation => do
    let value ← copyOf (valueAt values other) allocation
    pure (values ++ [some value])
  | .copyAssign this other allocation =>
    if this = other then pure values
    else do
      let value ← copyOf (valueAt values other) allocation
      pure (values.set this (some value))
  | .moveConstruct other => .ok (values.set other (some []) ++ [some (valueAt values other)])
  | .moveAssign this other =>
    if this = other then pure values
    else .ok ((values.set this (some (valueAt values other))).set other (some []))
  | .setData this source => do
    let value ← sourceOf (valueAt values this).length source
    pure (values.set this (some value))
  | .deserialize this source allocation =>
    match source with
    | none => .error .nullSerialized
    | some src => decodeValue values this src (decodedSize src) allocation
  | .destroy this => .ok (values.set this none)

/-! ## The invariant -/

/-- The bytes of a record. -/
def valueOf (bytes : ℕ → Bytes) (record : RmRecord) : Bytes :=
  match record.data with
  | none => []
  | some address => bytes address

/-- The values of the objects. -/
def values (state : Records) : Values := state.objects.map (Option.map (valueOf state.bytes))

/-- The buffer in a place. -/
def dataOf (object : Option RmRecord) : Option ℕ := object.bind RmRecord.data

/-- A record has a buffer of its size, or none if it is empty. -/
structure Valid (bytes : ℕ → Bytes) (record : RmRecord) : Prop where
  size : record.size = (valueOf bytes record).length
  allocated : record.allocated = record.data.isSome
  nonempty : ∀ address, record.data = some address → bytes address ≠ []

/-- The blocks in use are those of the objects and those in hand, each of them once. -/
structure Inv (state : Records) (hand : List ℕ) : Prop where
  owned : state.blocks.Owned (hand ++ held dataOf state.objects)
  valid : ∀ record, some record ∈ state.objects → Valid state.bytes record

section Invariant

variable {state : Records} {hand : List ℕ} {this address : ℕ} {record : RmRecord}
  {data : Option ℕ} {content : Bytes} {bytes : ℕ → Bytes}

theorem getElem?_of_alive (h : state.alive this = true) :
    ∃ record, state.objects[this]? = some (some record) := by
  obtain ⟨record, hrecord⟩ := Option.isSome_iff_exists.mp h
  exact ⟨record, Option.join_eq_some_iff.mp hrecord⟩

theorem valid_empty : Valid bytes {} where
  size := rfl
  allocated := rfl
  nonempty := nofun

/-- Only an empty record has no buffer. -/
theorem Valid.data_eq_none (h : Valid bytes record) :
    record.data = none ↔ valueOf bytes record = [] := by
  unfold valueOf
  cases hdata : record.data with
  | none => simp
  | some address => simpa using h.nonempty address hdata

theorem valueAt_values (h : state.objects[this]? = some (some record)) :
    valueAt state.values this = valueOf state.bytes record := by
  simp [valueAt, values, h]

theorem live_of_owned {owned : List ℕ} (h : state.blocks.Owned owned) (hmem : address ∈ owned) :
    state.live address = true := by
  obtain ⟨serial, -, hown⟩ := h.table_of_mem hmem
  simp [live, hown]

/-- The buffer of an object is in use. -/
theorem Inv.live (hinv : state.Inv hand) (h : state.objects[this]? = some (some record))
    (hdata : record.data = some address) : state.live address = true :=
  live_of_owned hinv.owned (List.mem_append_right _ (mem_held h hdata))

theorem Inv.valid_at (hinv : state.Inv hand) (h : state.objects[this]? = some (some record)) :
    Valid state.bytes record :=
  hinv.valid record (List.mem_of_getElem? h)

/-- A record that does not have the block does not see its content change. -/
theorem valueOf_update (h : record.data ≠ some address) :
    valueOf (Function.update bytes address content) record = valueOf bytes record := by
  unfold valueOf
  cases hdata : record.data with
  | none => rfl
  | some other =>
    have hne : other ≠ address := by
      rintro rfl
      exact h hdata
    simp only [Function.update_of_ne hne]

theorem Valid.update (hvalid : Valid bytes record) (h : record.data ≠ some address) :
    Valid (Function.update bytes address content) record where
  size := by rw [valueOf_update h, hvalid.size]
  allocated := hvalid.allocated
  nonempty other hother := by
    have hne : other ≠ address := by
      rintro rfl
      exact h hother
    rw [Function.update_of_ne hne]
    exact hvalid.nonempty other hother

/-- A block that no object has can change. -/
theorem values_write (h : address ∉ held dataOf state.objects) :
    (state.write address content).values = state.values := by
  refine List.map_congr_left fun object hobject => ?_
  cases object with
  | none => rfl
  | some record =>
    have hne : record.data ≠ some address := fun hdata =>
      h (List.mem_filterMap.mpr ⟨some record, hobject, hdata⟩)
    exact congrArg some (valueOf_update hne)

theorem valid_write (hvalid : ∀ record, some record ∈ state.objects → Valid state.bytes record)
    (h : address ∉ held dataOf state.objects) :
    ∀ record, some record ∈ state.objects →
      Valid (Function.update state.bytes address content) record := by
  intro record hrecord
  exact (hvalid record hrecord).update fun hdata =>
    h (List.mem_filterMap.mpr ⟨some record, hrecord, hdata⟩)

/-- A block that comes into use is in hand. -/
theorem Inv.allocate (hinv : state.Inv []) (content : Bytes)
    (hfree : state.blocks.table address = none) :
    (state.allocate address content).Inv [address] ∧
      (state.allocate address content).values = state.values := by
  have hmem : address ∉ held dataOf state.objects := by
    intro hmem
    obtain ⟨serial, -, hown⟩ := hinv.owned.table_of_mem hmem
    simp [hfree] at hown
  exact ⟨⟨hinv.owned.acquire hfree, valid_write hinv.valid hmem⟩, values_write hmem⟩

/-- What is in hand becomes a new object. -/
theorem Inv.push (hinv : state.Inv data.toList) (hvalid : Valid state.bytes record)
    (hdata : record.data = data) :
    Inv { state with objects := state.objects ++ [some record] } [] where
  owned := by
    show state.blocks.Owned (held dataOf (state.objects ++ [some record]))
    rw [held_append, held_singleton]
    have htoken : dataOf (some record) = data := hdata
    rw [htoken]
    exact hinv.owned.perm List.perm_append_comm
  valid other hother := by
    rcases List.mem_append.mp hother with hold | hnew
    · exact hinv.valid other hold
    · cases List.mem_singleton.mp hnew
      exact hvalid

/-- What an object has comes into the hand when its fields are cleared. -/
theorem Inv.clear (hinv : state.Inv hand) (h : state.objects[this]? = some (some record))
    (empty : Option RmRecord) (hempty : dataOf empty = none)
    (hvalid : ∀ record, empty = some record → Valid state.bytes record) :
    Inv { state with objects := state.objects.set this empty } (record.data.toList ++ hand) where
  owned := by
    have hperm := (held_perm_set dataOf h hempty).append_left hand
    exact (hinv.owned.perm hperm).perm (List.perm_append_comm_assoc ..) |>.perm
      (by rw [List.append_assoc]; exact List.Perm.refl _)
  valid other hother := by
    rcases List.mem_or_eq_of_mem_set hother with hold | hnew
    · exact hinv.valid other hold
    · exact hvalid other hnew.symm

/-- What is in hand is given to an object that has nothing. -/
theorem Inv.fill {old : Option RmRecord} (hinv : state.Inv data.toList)
    (h : state.objects[this]? = some old) (hold : dataOf old = none)
    (hvalid : Valid state.bytes record) (hdata : record.data = data) :
    Inv { state with objects := state.objects.set this (some record) } [] where
  owned := by
    have hperm := held_set dataOf h (some record)
    rw [hold] at hperm
    have htoken : dataOf (some record) = data := hdata
    rw [htoken] at hperm
    exact hinv.owned.perm hperm.symm
  valid other hother := by
    rcases List.mem_or_eq_of_mem_set hother with hprev | hnew
    · exact hinv.valid other hprev
    · cases hnew
      exact hvalid

end Invariant

end Records

end Rucbase
