import Rucbase.Lib.Bytes

/-!
# Character boundaries of UTF-8 text

A text in UTF-8 is the encodings of its characters one behind the other. The first byte of an
encoding is not a continuation byte and all others are, so a text may be cut where no continuation
byte follows and nowhere else (`isBoundary_iff`).
-/

namespace Rucbase.Lib

/-- The UTF-8 encoding of a text. -/
def utf8Encode (chars : List Char) : Bytes :=
  chars.flatMap String.utf8EncodeChar

/-- The bytes are a text in UTF-8. -/
def ValidUtf8 (bytes : Bytes) : Prop :=
  ∃ chars, utf8Encode chars = bytes

/-- The first `size` bytes of a text and the bytes behind them are both whole characters. -/
def IsBoundary (bytes : Bytes) (size : ℕ) : Prop :=
  size ≤ bytes.length ∧ ValidUtf8 (bytes.take size) ∧ ValidUtf8 (bytes.drop size)

/-- A byte that continues the encoding of a character. -/
def IsContinuation (byte : UInt8) : Prop :=
  byte &&& 0xc0 = 0x80

instance (byte : UInt8) : Decidable (IsContinuation byte) :=
  inferInstanceAs (Decidable (_ = _))

theorem utf8Encode_cons (char : Char) (chars : List Char) :
    utf8Encode (char :: chars) = String.utf8EncodeChar char ++ utf8Encode chars :=
  List.flatMap_cons

theorem not_isContinuation_of_first {byte : UInt8} (h : byte.IsUTF8FirstByte) :
    ¬ IsContinuation byte := by
  have hall : ∀ n < 256, (UInt8.ofNat n).IsUTF8FirstByte → ¬ IsContinuation (UInt8.ofNat n) := by
    decide +kernel
  have hbyte := hall byte.toNat byte.toNat_lt
  rw [UInt8.ofNat_toNat] at hbyte
  exact hbyte h

/-- A byte made of six bits of a code point. -/
theorem isContinuation_sixBits (n : ℕ) : IsContinuation (UInt8.ofNat (n % 64 + 128)) := by
  have hall : ∀ bits < 64, IsContinuation (UInt8.ofNat (bits + 128)) := by decide
  exact hall (n % 64) (Nat.mod_lt n (by decide))

/-- The encoding of a character is a first byte and continuation bytes. -/
theorem utf8EncodeChar_shape (char : Char) :
    ∃ first rest, String.utf8EncodeChar char = first :: rest ∧ ¬ IsContinuation first ∧
      ∀ byte ∈ rest, IsContinuation byte := by
  have hrest : ∀ byte ∈ (String.utf8EncodeChar char).tail, IsContinuation byte := by
    unfold String.utf8EncodeChar
    dsimp only
    split_ifs <;> simp only [List.tail_cons, List.forall_mem_cons, List.not_mem_nil,
      isContinuation_sixBits, false_implies, implies_true, and_self]
  have hfirst := @UInt8.isUTF8FirstByte_getElem_zero_utf8EncodeChar char
  match hencoding : String.utf8EncodeChar char with
  | [] => exact absurd hencoding String.utf8EncodeChar_ne_nil
  | first :: rest =>
    simp only [hencoding, List.getElem_cons_zero] at hfirst
    exact ⟨first, rest, rfl, not_isContinuation_of_first hfirst, by rwa [hencoding] at hrest⟩

/-- A text does not start with a continuation byte. -/
theorem ValidUtf8.head?_not_isContinuation {bytes : Bytes} (h : ValidUtf8 bytes) :
    ∀ byte ∈ bytes.head?, ¬ IsContinuation byte := by
  obtain ⟨chars, rfl⟩ := h
  cases chars with
  | nil => simp [utf8Encode]
  | cons char chars =>
    obtain ⟨first, rest, hencoding, hfirst, -⟩ := utf8EncodeChar_shape char
    rw [utf8Encode_cons, hencoding]
    simpa using hfirst

theorem isBoundary_of_not_isContinuation (chars : List Char) (size : ℕ)
    (hsize : size ≤ (utf8Encode chars).length)
    (hnext : ∀ byte ∈ (utf8Encode chars)[size]?, ¬ IsContinuation byte) :
    IsBoundary (utf8Encode chars) size := by
  induction chars generalizing size with
  | nil => exact ⟨hsize, ⟨[], by simp [utf8Encode]⟩, ⟨[], by simp [utf8Encode]⟩⟩
  | cons char chars ih =>
    obtain ⟨first, rest, hencoding, -, hrest⟩ := utf8EncodeChar_shape char
    rw [utf8Encode_cons] at hsize hnext ⊢
    rcases Nat.lt_or_ge size (String.utf8EncodeChar char).length with hinside | hbehind
    · -- Inside the first character there are only continuation bytes.
      obtain rfl : size = 0 := by
        by_contra hne
        obtain ⟨size, rfl⟩ := Nat.exists_eq_succ_of_ne_zero hne
        rw [List.getElem?_append_left hinside, hencoding, List.getElem?_cons_succ] at hnext
        rw [hencoding, List.length_cons, Nat.succ_lt_succ_iff] at hinside
        rw [List.getElem?_eq_getElem hinside] at hnext
        exact hnext _ rfl (hrest _ (List.getElem_mem hinside))
      exact ⟨hsize, ⟨[], rfl⟩, ⟨char :: chars, utf8Encode_cons char chars⟩⟩
    · obtain ⟨size, rfl⟩ := Nat.exists_eq_add_of_le hbehind
      rw [List.length_append, Nat.add_le_add_iff_left] at hsize
      rw [List.getElem?_append_right hbehind, Nat.add_sub_cancel_left] at hnext
      obtain ⟨-, ⟨before, hbefore⟩, hafter⟩ := ih size hsize hnext
      refine ⟨by simpa using hsize, ⟨char :: before, ?_⟩, ?_⟩
      · rw [utf8Encode_cons, hbefore, List.take_length_add_append]
      · rwa [List.drop_length_add_append]

/-- A text may be cut where no continuation byte follows. -/
theorem isBoundary_iff {bytes : Bytes} (h : ValidUtf8 bytes) {size : ℕ}
    (hsize : size ≤ bytes.length) :
    IsBoundary bytes size ↔ ∀ byte ∈ bytes[size]?, ¬ IsContinuation byte := by
  constructor
  · rintro ⟨-, -, hafter⟩
    rw [← List.head?_drop]
    exact hafter.head?_not_isContinuation
  · obtain ⟨chars, rfl⟩ := h
    exact isBoundary_of_not_isContinuation chars size hsize

end Rucbase.Lib
