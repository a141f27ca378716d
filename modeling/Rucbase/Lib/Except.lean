import Mathlib.Data.List.Forall2

/-!
# Fallible computations over lists

The rules by which the proofs of the development take a computation in `Except` apart. A bind
succeeds exactly when both of its halves do (`bind_eq_ok`), a check exactly when its condition
does not hold (`throwIf_eq_ok`), and a fallible function mapped over a list succeeds exactly when it
succeeds on every element, with the results in the same order (`mapM_eq_ok`). What a computation may
return and what it may throw is `Ends`, with a rule for each way to build a computation.
-/

namespace Rucbase.Lib

variable {ε α β : Type}

@[simp]
theorem pure_eq_ok (a b : α) : (pure a : Except ε α) = .ok b ↔ a = b := by
  simp [pure, Except.pure]

@[simp]
theorem throw_ne_ok (e : ε) (b : α) : (throw e : Except ε α) ≠ .ok b := by
  simp [throw, throwThe, MonadExceptOf.throw]

@[simp]
theorem throw_eq_error (e e' : ε) : (throw e : Except ε α) = .error e' ↔ e = e' := by
  simp [throw, throwThe, MonadExceptOf.throw]

@[simp]
theorem pure_ne_error (a : α) (e : ε) : (pure a : Except ε α) ≠ .error e := by
  simp [pure, Except.pure]

/-- A computation goes on with what its first half returned. -/
@[simp]
theorem ok_bind (a : α) (f : α → Except ε β) : (.ok a : Except ε α) >>= f = f a := rfl

variable {f : α → Except ε β} {x : Except ε α} {e : ε} {p : Prop} {xs : List α} {ys : List β}

/-- A bind succeeds when its first half does and its second half does on the first one's result. -/
theorem bind_eq_ok {b : β} : x >>= f = .ok b ↔ ∃ a, x = .ok a ∧ f a = .ok b := by
  cases x with
  | error e => simp [bind, Except.bind]
  | ok a => simp [bind, Except.bind]

/-- Throw `e` when `p` holds. -/
def throwIf (p : Prop) [Decidable p] (e : ε) : Except ε Unit := if p then throw e else pure ()

/-- A check succeeds when its condition does not hold. -/
@[simp]
theorem throwIf_eq_ok [Decidable p] {u : Unit} : throwIf p e = .ok u ↔ ¬ p := by
  unfold throwIf
  split_ifs with hp <;> simp [hp]

theorem throwIf_bind [Decidable p] (h : ¬p) (f : Unit → Except ε β) : throwIf p e >>= f = f () := by
  rw [throwIf, if_neg h]
  rfl

/-- A fallible function maps over a list when it succeeds on each element. -/
theorem mapM_eq_ok : xs.mapM f = .ok ys ↔ List.Forall₂ (fun x y => f x = .ok y) xs ys := by
  induction xs generalizing ys with
  | nil =>
    rw [List.mapM_nil, pure_eq_ok, List.forall₂_nil_left_iff, eq_comm]
  | cons x xs ih =>
    rw [List.mapM_cons, bind_eq_ok, List.forall₂_cons_left_iff]
    constructor
    · rintro ⟨y, hy, h⟩
      obtain ⟨zs, hzs, h⟩ := bind_eq_ok.mp h
      exact ⟨y, zs, hy, ih.mp hzs, ((pure_eq_ok _ _).mp h).symm⟩
    · rintro ⟨y, zs, hy, hzs, rfl⟩
      exact ⟨y, hy, bind_eq_ok.mpr ⟨zs, ih.mpr hzs, rfl⟩⟩

/-- A check succeeds along a list when it succeeds on each element. -/
theorem forM_eq_ok {f : α → Except ε Unit} {u : Unit} :
    xs.forM f = .ok u ↔ ∀ x ∈ xs, f x = .ok () := by
  induction xs with
  | nil => exact iff_of_true rfl (by simp)
  | cons x xs ih =>
    show f x >>= (fun _ => xs.forM f) = .ok u ↔ _
    rw [bind_eq_ok, List.forall_mem_cons, ← ih]
    exact ⟨fun ⟨_, hx, hxs⟩ => ⟨hx, hxs⟩, fun ⟨hx, hxs⟩ => ⟨(), hx, hxs⟩⟩

/-- Each result of a fallible function mapped over a list is that of an element. -/
theorem exists_of_mem_mapM (h : xs.mapM f = .ok ys) {y : β} (hy : y ∈ ys) :
    ∃ x ∈ xs, f x = .ok y := by
  have hf := mapM_eq_ok.mp h
  clear h
  induction hf with
  | nil => simp at hy
  | cons hx _ ih =>
    rcases List.mem_cons.mp hy with rfl | hy
    · exact ⟨_, List.mem_cons_self, hx⟩
    · obtain ⟨x, hmem, hx⟩ := ih hy
      exact ⟨x, List.mem_cons_of_mem _ hmem, hx⟩

/-- A fallible function mapped over a concatenation is mapped over each of its parts. -/
theorem mapM_flatten_eq_ok {xss : List (List α)} (h : xss.flatten.mapM f = .ok ys) :
    ∃ yss, List.Forall₂ (fun xs ys => xs.mapM f = .ok ys) xss yss ∧ ys = yss.flatten := by
  induction xss generalizing ys with
  | nil =>
    rw [List.flatten_nil, List.mapM_nil, pure_eq_ok] at h
    exact ⟨[], .nil, h.symm⟩
  | cons xs xss ih =>
    rw [List.flatten_cons, List.mapM_append] at h
    obtain ⟨ys₁, h₁, h⟩ := bind_eq_ok.mp h
    obtain ⟨ys₂, h₂, h⟩ := bind_eq_ok.mp h
    obtain ⟨yss, hyss, rfl⟩ := ih h₂
    rw [pure_eq_ok] at h
    exact ⟨ys₁ :: yss, .cons h₁ hyss, h.symm⟩

/-- A fallible function that returns every element of a list as it is maps to the list. -/
theorem mapM_eq_self {f : α → Except ε α} (h : ∀ x ∈ xs, f x = .ok x) : xs.mapM f = .ok xs := by
  rw [mapM_eq_ok]
  exact List.forall₂_same.mpr h

/-! ## Outcomes -/

/-- The computation returns a value with `P` or throws an exception with `E`. -/
def Ends (x : Except ε α) (P : α → Prop) (E : ε → Prop) : Prop :=
  match x with
  | .ok a => P a
  | .error e => E e

section Ends

variable {P P' : α → Prop} {Q : β → Prop} {E : ε → Prop}

@[simp]
theorem ends_pure {a : α} : Ends (pure a) P E ↔ P a := Iff.rfl

@[simp]
theorem ends_throw : Ends (throw e) P E ↔ E e := Iff.rfl

/-- A check that throws nothing else is passed when its condition does not hold. -/
theorem ends_throwIf [Decidable p] (he : E e) : Ends (throwIf p e) (fun _ => ¬p) E := by
  unfold throwIf
  split_ifs with hp
  · exact he
  · exact hp

theorem Ends.of_ok {a : α} (h : Ends x P E) (hx : x = .ok a) : P a := by
  rwa [hx] at h

theorem Ends.of_error (h : Ends x P E) (hx : x = .error e) : E e := by
  rwa [hx] at h

theorem Ends.imp (h : Ends x P E) (himp : ∀ a, P a → P' a) : Ends x P' E := by
  cases x with
  | error e => exact h
  | ok a => exact himp a h

/-- The second half of a bind runs on what the first one returns. -/
theorem Ends.bind (hx : Ends x P E) (hf : ∀ a, x = .ok a → P a → Ends (f a) Q E) :
    Ends (x >>= f) Q E := by
  cases x with
  | error e => exact hx
  | ok a => exact hf a rfl hx

/-- A function mapped over a list ends as it does on every element. -/
theorem Ends.mapM (h : ∀ x ∈ xs, Ends (f x) Q E) : Ends (xs.mapM f) (∀ y ∈ ·, Q y) E := by
  induction xs with
  | nil => exact List.forall_mem_nil _
  | cons x xs ih =>
    obtain ⟨hx, hxs⟩ := List.forall_mem_cons.mp h
    rw [List.mapM_cons]
    refine hx.bind fun y _ hy => (ih hxs).bind fun ys _ hys => ?_
    exact List.forall_mem_cons.mpr ⟨hy, hys⟩

end Ends

/-- The computation does not throw `e`. -/
abbrev Avoids (e : ε) (x : Except ε α) : Prop := Ends x (fun _ => True) (· ≠ e)

end Rucbase.Lib
