import Mathlib.Algebra.Group.Int.Defs
import Mathlib.Order.Cover
import Rucbase.Lib.Except

/-!
# Integers of a machine

An integer type holds the integers between two bounds, and its values carry the proof that it holds
them. `IntType.fit` is the value of an expression of such a type: the exact result if the type holds
it, and an overflow otherwise. A computation that takes every intermediate result through `fit` is
therefore exact as long as it does not stop with an overflow; where the exact results are known to
fit, the steps go away one by one (`IntType.fit_bind`).
-/

namespace Rucbase.Lib

/-- An integer type, given by its least and its greatest value. -/
structure IntType where
  min : ℤ
  max : ℤ

namespace IntType

/-- `int`. -/
def int : IntType := ⟨-2^31, 2^31 - 1⟩

/-- `int64_t`. -/
def int64 : IntType := ⟨-2^63, 2^63 - 1⟩

/-- `size_t`. -/
def size : IntType := ⟨0, 2^64 - 1⟩

/-- The type has the value `n`. -/
def Holds (t : IntType) (n : ℤ) : Prop := t.min ≤ n ∧ n ≤ t.max

instance (t : IntType) (n : ℤ) : Decidable (t.Holds n) := inferInstanceAs (Decidable (_ ∧ _))

/-- A value of the type. -/
structure Val (t : IntType) where
  val : ℤ
  holds : t.Holds val

namespace Val

variable {t : IntType}

theorem val_injective : Function.Injective (val (t := t)) := by
  rintro ⟨m, _⟩ ⟨n, _⟩ rfl
  rfl

instance : LinearOrder t.Val := LinearOrder.lift' val val_injective

/-- The value behind `i`, which is not above `j`. -/
def succ (i j : t.Val) (h : i < j) : t.Val :=
  ⟨i.val + 1, Int.le_add_one i.holds.1, Int.le_trans h j.holds.2⟩

theorem covBy_of_val {i j : t.Val} (h : j.val = i.val + 1) : i ⋖ j := by
  refine ⟨show i.val < j.val by omega, fun k (hik : i.val < k.val) (hkj : k.val < j.val) => ?_⟩
  omega

end Val

section Fit

variable {ε α : Type} {t : IntType} {overflow : ε} {n : ℤ}

theorem holds_int64 (hnonneg : 0 ≤ n) (hlt : n < 2^63) : int64.Holds n :=
  ⟨Int.le_trans (by decide) hnonneg, Int.le_sub_one_of_lt hlt⟩

theorem holds_size (hnonneg : 0 ≤ n) (hlt : n < 2^64) : size.Holds n :=
  ⟨hnonneg, Int.le_sub_one_of_lt hlt⟩

/-- The value of an expression whose exact result is `n`. -/
def fit (t : IntType) (overflow : ε) (n : ℤ) : Except ε t.Val :=
  if h : t.Holds n then pure ⟨n, h⟩ else throw overflow

theorem fit_eq_ok (h : t.Holds n) : t.fit overflow n = .ok ⟨n, h⟩ := by
  rw [fit, dif_pos h]
  rfl

theorem fit_eq_error (h : ¬t.Holds n) : t.fit overflow n = .error overflow := by
  rw [fit, dif_neg h]
  rfl

/-- A result that fits is the exact one. -/
theorem fit_bind (f : t.Val → Except ε α) (h : t.Holds n) :
    (t.fit overflow n >>= f) = f ⟨n, h⟩ := by
  rw [fit_eq_ok h, ok_bind]

end Fit

end IntType

/-- How a computation fails: by an overflow, or by an exception that it throws. -/
inductive Fault (ε : Type) where
  | overflow
  | thrown (error : ε)
  deriving DecidableEq, Repr

end Rucbase.Lib
