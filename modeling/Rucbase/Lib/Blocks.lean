import Rucbase.Lib.Bytes
import Rucbase.Lib.Except

/-!
# Blocks of a buffer, with its bounds

`copyTo` and `load` copy a block into a buffer and out of it, and throw when the block does not lie
inside. A function that fills a buffer from an offset on with a block, and leaves the rest as it is,
`Appends` the block; two such functions one after the other append both blocks
(`Appends.bind`). A buffer that `Holds` two blocks one behind the other holds each where it
starts (`Holds.left`, `Holds.right`).
-/

namespace Rucbase.Lib

variable {ε : Type} (outOfBounds : ε)

/-- Copy a block into a buffer. -/
def copyTo (dest : Bytes) (offset : ℕ) (block : Bytes) : Except ε Bytes :=
  if dest.length < offset + block.length then throw outOfBounds
  else pure (memcpy dest offset block)

/-- The block of `size` bytes at an offset. -/
def load (src : Bytes) (offset size : ℕ) : Except ε Bytes :=
  if src.length < offset + size then throw outOfBounds else pure (slice src offset size)

/-! ## Writing -/

/-- Behind a front part of `offset` bytes, the function writes the block and nothing else. -/
def Appends (write : Bytes → Except ε Bytes) (offset : ℕ) (block : Bytes) : Prop :=
  ∀ front rest : Bytes, front.length = offset → block.length ≤ rest.length →
    write (front ++ rest) = .ok (front ++ block ++ rest.drop block.length)

theorem appends_copyTo (offset : ℕ) (block : Bytes) :
    Appends (fun dest => copyTo outOfBounds dest offset block) offset block := by
  rintro front rest rfl hroom
  have hinside : ¬ (front ++ rest).length < front.length + block.length := by
    rw [List.length_append]
    omega
  show copyTo outOfBounds (front ++ rest) front.length block = _
  rw [copyTo, if_neg hinside, memcpy_append]
  rfl

variable {block block' src : Bytes} {offset : ℕ}

/-- The second block is written right behind the first one. -/
theorem Appends.bind {write write' : Bytes → Except ε Bytes} (h : Appends write offset block)
    (h' : Appends write' (offset + block.length) block') :
    Appends (fun dest => write dest >>= write') offset (block ++ block') := by
  rintro front rest rfl hroom
  rw [List.length_append] at hroom
  have hroom' : block'.length ≤ (rest.drop block.length).length := by
    rw [List.length_drop]
    omega
  dsimp only
  rw [h front rest rfl (by omega), ok_bind,
    h' (front ++ block) (rest.drop block.length) List.length_append hroom', List.drop_drop,
    List.length_append, List.append_assoc front]

/-! ## Reading -/

/-- The buffer holds the block at the offset. -/
def Holds (src : Bytes) (offset : ℕ) (block : Bytes) : Prop :=
  ∃ front rest : Bytes, src = front ++ block ++ rest ∧ front.length = offset

theorem Holds.left (h : Holds src offset (block ++ block')) : Holds src offset block := by
  obtain ⟨front, rest, rfl, hfront⟩ := h
  exact ⟨front, block' ++ rest, by simp only [List.append_assoc], hfront⟩

theorem Holds.right (h : Holds src offset (block ++ block')) :
    Holds src (offset + block.length) block' := by
  obtain ⟨front, rest, rfl, rfl⟩ := h
  exact ⟨front ++ block, rest, by simp only [List.append_assoc], List.length_append⟩

/-- A block stands as far behind a place as it stands behind the start, less the place. -/
theorem Holds.drop {start : ℕ} (h : Holds src (start + offset) block) :
    Holds (src.drop start) offset block := by
  obtain ⟨front, rest, rfl, hfront⟩ := h
  refine ⟨front.drop start, rest, ?_, by rw [List.length_drop]; omega⟩
  rw [List.append_assoc, List.append_assoc, List.drop_append_of_le_length (by omega)]

/-- A block that the buffer holds is loaded. -/
theorem Holds.load {size : ℕ} (h : Holds src offset block) (hsize : block.length = size) :
    Lib.load outOfBounds src offset size = .ok block := by
  subst hsize
  obtain ⟨front, rest, rfl, rfl⟩ := h
  have hinside : ¬ (front ++ block ++ rest).length < front.length + block.length := by
    rw [List.length_append, List.length_append]
    omega
  rw [Lib.load, if_neg hinside, slice_append_middle]
  rfl

end Rucbase.Lib
