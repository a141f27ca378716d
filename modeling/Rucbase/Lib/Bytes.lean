import Mathlib.Data.List.Basic
import Mathlib.Data.List.Induction
import Mathlib.Tactic.Ring

/-!
# Byte strings

Byte strings, the unsigned integers they spell in either byte order, and buffers that are filled by
copying blocks into them.

`beBytes k n` writes `n` modulo `2^(8k)` in `k` bytes, most significant first, and `beNat` reads it
back. Both directions are exact: `beNat_beBytes` below `256^k`, and `beBytes_beNat` always. The
little-endian pair is their reversal. `int32Bytes` and `readInt` are the same for signed integers of
32 bits.

`memcpy` overwrites the block of a buffer that starts at an offset. Over a buffer whose cells are
either written or not, copying blocks that tile it in order writes every cell (`memcpy_append`).
-/

namespace Rucbase.Lib

/-- A string of bytes. -/
abbrev Bytes := List UInt8

instance : LawfulBEq Bytes := inferInstanceAs (LawfulBEq (List UInt8))

/-- The bytes of an ASCII text. -/
def text (s : String) : Bytes := s.toList.map fun c => UInt8.ofNat c.toNat

/-! ## Big-endian integers -/

/-- The `k` low bytes of `n`, most significant first. -/
def beBytes : ℕ → ℕ → Bytes
  | 0, _ => []
  | k + 1, n => beBytes k (n / 256) ++ [UInt8.ofNat n]

/-- The number that a byte string spells, most significant byte first. -/
def beNat (bs : Bytes) : ℕ := bs.foldl (fun n b => n * 256 + b.toNat) 0

@[simp]
theorem length_beBytes (k n : ℕ) : (beBytes k n).length = k := by
  induction k generalizing n with
  | zero => rfl
  | succ k ih => simp [beBytes, ih]

theorem beNat_append_singleton (bs : Bytes) (b : UInt8) :
    beNat (bs ++ [b]) = beNat bs * 256 + b.toNat := by
  simp [beNat]

theorem beNat_append (bs cs : Bytes) :
    beNat (bs ++ cs) = beNat bs * 256 ^ cs.length + beNat cs := by
  induction cs using List.reverseRecOn with
  | nil => simp [beNat]
  | append_singleton cs c ih =>
    rw [← List.append_assoc, beNat_append_singleton, ih, beNat_append_singleton,
      List.length_append, List.length_singleton, pow_succ]
    ring

/-- Reading gives back what was written, when it fits. -/
theorem beNat_beBytes {k n : ℕ} (h : n < 256 ^ k) : beNat (beBytes k n) = n := by
  induction k generalizing n with
  | zero =>
    have : n = 0 := by simpa using h
    simp [beBytes, beNat, this]
  | succ k ih =>
    have hn : n / 256 < 256 ^ k := by rw [pow_succ] at h; omega
    rw [beBytes, beNat_append_singleton, ih hn, UInt8.toNat_ofNat']
    omega

/-- Writing gives back the bytes that were read. -/
theorem beBytes_beNat (bs : Bytes) : beBytes bs.length (beNat bs) = bs := by
  induction bs using List.reverseRecOn with
  | nil => rfl
  | append_singleton bs b ih =>
    have hb : b.toNat < 256 := b.toNat_lt
    rw [List.length_append, List.length_singleton, beBytes, beNat_append_singleton]
    have hdiv : (beNat bs * 256 + b.toNat) / 256 = beNat bs := by omega
    have hlow : UInt8.ofNat (beNat bs * 256 + b.toNat) = b := by
      apply UInt8.toNat_inj.mp
      rw [UInt8.toNat_ofNat']
      omega
    rw [hdiv, ih, hlow]

/-- The high bytes and the low bytes of a number. -/
theorem beBytes_add (j k n : ℕ) : beBytes (j + k) n = beBytes j (n / 256 ^ k) ++ beBytes k n := by
  induction k generalizing n with
  | zero => simp [beBytes]
  | succ k ih =>
    rw [← Nat.add_assoc, beBytes, ih, beBytes, Nat.div_div_eq_div_mul, ← pow_succ',
      List.append_assoc]

/-- Only the low bytes are written. -/
theorem beBytes_mod (k n : ℕ) : beBytes k (n % 256 ^ k) = beBytes k n := by
  induction k generalizing n with
  | zero => rfl
  | succ k ih =>
    have hhigh : n % 256 ^ (k + 1) / 256 = n / 256 % 256 ^ k := by
      rw [pow_succ', Nat.mod_mul_right_div_self]
    have hlow : UInt8.ofNat (n % 256 ^ (k + 1)) = UInt8.ofNat n := by
      apply UInt8.toNat_inj.mp
      rw [UInt8.toNat_ofNat', UInt8.toNat_ofNat', pow_succ', Nat.mod_mul_right_mod]
    rw [beBytes, beBytes, hhigh, ih, hlow]

theorem beNat_lt (bs : Bytes) : beNat bs < 256 ^ bs.length := by
  induction bs using List.reverseRecOn with
  | nil => simp [beNat]
  | append_singleton bs b ih =>
    have hb : b.toNat < 256 := b.toNat_lt
    rw [beNat_append_singleton, List.length_append, List.length_singleton, pow_succ]
    omega

/-! ## Little-endian integers -/

/-- The `k` low bytes of `n`, least significant first. -/
def leBytes (k n : ℕ) : Bytes := (beBytes k n).reverse

/-- The number that a byte string spells, least significant byte first. -/
def leNat (bs : Bytes) : ℕ := beNat bs.reverse

@[simp]
theorem length_leBytes (k n : ℕ) : (leBytes k n).length = k := by
  simp [leBytes]

theorem leNat_leBytes {k n : ℕ} (h : n < 256 ^ k) : leNat (leBytes k n) = n := by
  simp [leNat, leBytes, beNat_beBytes h]

theorem leBytes_leNat (bs : Bytes) : leBytes bs.length (leNat bs) = bs := by
  rw [leBytes, leNat, ← List.length_reverse, beBytes_beNat, List.reverse_reverse]

theorem leNat_lt (bs : Bytes) : leNat bs < 256 ^ bs.length := by
  simpa [leNat] using beNat_lt bs.reverse

/-! ## Signed integers -/

/-- A 32-bit signed integer in memory, in two's complement and least significant byte first. -/
def int32Bytes (n : ℤ) : Bytes := leBytes 4 (n % 2^32).toNat

/-- The signed integer that four bytes of memory hold. -/
def int32Of (bs : Bytes) : ℤ := (leNat bs : ℤ).bmod (2^32)

@[simp]
theorem length_int32Bytes (n : ℤ) : (int32Bytes n).length = 4 := by
  rw [int32Bytes, length_leBytes]

theorem int32Of_int32Bytes {n : ℤ} (hlow : -2^31 ≤ n) (hhigh : n < 2^31) :
    int32Of (int32Bytes n) = n := by
  have hfit : (n % 2^32).toNat < 256 ^ 4 := by
    rw [show (256 ^ 4 : ℕ) = 2^32 from rfl]
    omega
  have hread : (leNat (int32Bytes n) : ℤ) = n % 2^32 := by
    rw [int32Bytes, leNat_leBytes hfit]
    omega
  unfold int32Of
  rw [hread, Int.bmod_def]
  push_cast
  split <;> omega

theorem int32Of_bounds (bs : Bytes) : -2^31 ≤ int32Of bs ∧ int32Of bs < 2^31 := by
  have hlow := Int.le_bmod (x := (leNat bs : ℤ)) (m := 2^32) (by norm_num)
  have hhigh := Int.bmod_lt (x := (leNat bs : ℤ)) (m := 2^32) (by norm_num)
  unfold int32Of
  omega

theorem int32Bytes_int32Of {bs : Bytes} (hlen : bs.length = 4) : int32Bytes (int32Of bs) = bs := by
  have hlt : leNat bs < 2^32 := by
    have h := leNat_lt bs
    rw [hlen] at h
    exact h
  have hmod : (int32Of bs % 2^32).toNat = leNat bs := by
    have hemod : int32Of bs % 2^32 = (leNat bs : ℤ) % 2^32 := Int.bmod_emod
    omega
  rw [int32Bytes, hmod, ← hlen, leBytes_leNat]

/-- Read an integer and move behind it. -/
def readInt (src : Bytes) : ℤ × Bytes := (int32Of (src.take 4), src.drop 4)

/-- Read several integers that stand one behind the other. -/
def readInts : ℕ → Bytes → List ℤ × Bytes
  | 0, src => ([], src)
  | k + 1, src =>
    let (n, src) := readInt src
    let (ns, src) := readInts k src
    (n :: ns, src)

theorem readInt_append {n : ℤ} (hlow : -2^31 ≤ n) (hhigh : n < 2^31) (rest : Bytes) :
    readInt (int32Bytes n ++ rest) = (n, rest) := by
  have hlen : 4 = (int32Bytes n).length := (length_int32Bytes n).symm
  rw [readInt, List.take_left' hlen.symm, List.drop_left' hlen.symm,
    int32Of_int32Bytes hlow hhigh]

theorem readInts_append {ns : List ℤ} (h : ∀ n ∈ ns, -2^31 ≤ n ∧ n < 2^31) (rest : Bytes) :
    readInts ns.length (ns.flatMap int32Bytes ++ rest) = (ns, rest) := by
  induction ns with
  | nil => rfl
  | cons n ns ih =>
    obtain ⟨hlow, hhigh⟩ := h n List.mem_cons_self
    have hrest := ih fun m hm => h m (List.mem_cons_of_mem n hm)
    rw [List.length_cons, readInts, List.flatMap_cons, List.append_assoc,
      readInt_append hlow hhigh]
    simp only [hrest]

/-- What is read is what stands there. -/
theorem readInt_spec {src : Bytes} (h : 4 ≤ src.length) :
    (-2^31 ≤ (readInt src).1 ∧ (readInt src).1 < 2^31) ∧
      src = int32Bytes (readInt src).1 ++ (readInt src).2 := by
  have hlen : (src.take 4).length = 4 := by
    rw [List.length_take]
    omega
  unfold readInt
  dsimp only
  refine ⟨int32Of_bounds (src.take 4), ?_⟩
  rw [int32Bytes_int32Of hlen, List.take_append_drop]

theorem readInts_spec {count : ℕ} {src : Bytes} (h : 4 * count ≤ src.length) :
    (readInts count src).1.length = count ∧
      (∀ n ∈ (readInts count src).1, -2^31 ≤ n ∧ n < 2^31) ∧
      src = (readInts count src).1.flatMap int32Bytes ++ (readInts count src).2 := by
  induction count generalizing src with
  | zero => simp [readInts]
  | succ count ih =>
    have hlong : 4 ≤ src.length := by omega
    obtain ⟨hbounds, hsrc⟩ := readInt_spec hlong
    have hrest : 4 * count ≤ (readInt src).2.length := by
      rw [readInt, List.length_drop]
      omega
    obtain ⟨hcount, hall, heq⟩ := ih hrest
    have hread : readInts (count + 1) src = ((readInt src).1 :: (readInts count (readInt src).2).1,
        (readInts count (readInt src).2).2) := by
      simp only [readInts]
    rw [hread]
    dsimp only
    refine ⟨?_, List.forall_mem_cons.mpr ⟨hbounds, hall⟩, ?_⟩
    · rw [List.length_cons, hcount]
    · rw [List.flatMap_cons, List.append_assoc, ← heq]
      exact hsrc

theorem length_flatMap_int32Bytes (ns : List ℤ) :
    (ns.flatMap int32Bytes).length = 4 * ns.length := by
  induction ns with
  | nil => rfl
  | cons n ns ih =>
    rw [List.flatMap_cons, List.length_append, ih, length_int32Bytes, List.length_cons]
    omega

/-! ## Buffers -/

variable {α : Type}

/-- The buffer `dst` with the block that starts at `offset` overwritten by `src`. -/
def memcpy (dst : List α) (offset : ℕ) (src : List α) : List α :=
  dst.take offset ++ src ++ dst.drop (offset + src.length)

/-- The block of `n` cells of `src` that starts at `offset`. -/
def slice (src : List α) (offset n : ℕ) : List α := (src.drop offset).take n

/-- Copying a block right after a filled front part of a buffer fills that much more of it. -/
theorem memcpy_append (front src rest : List α) :
    memcpy (front ++ rest) front.length src = (front ++ src) ++ rest.drop src.length := by
  simp [memcpy, List.drop_append]

/-- The block of an appended buffer that lies behind its front part and has the length of the
middle one. -/
theorem slice_append_middle (front mid rest : List α) :
    slice (front ++ mid ++ rest) front.length mid.length = mid := by
  simp [slice]

theorem length_slice {src : List α} {offset n : ℕ} (h : offset + n ≤ src.length) :
    (slice src offset n).length = n := by
  simp [slice]
  omega

end Rucbase.Lib
