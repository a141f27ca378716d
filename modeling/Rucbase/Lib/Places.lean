import Mathlib.Data.List.Perm.Basic

/-!
# Tokens in places

A place may hold a token, and changes when something else is put into it. The tokens that a list of
places holds are then the same up to order, but for the token that was in the place and the one that
is put there (`held_set`). If no token is held twice, a token is in one place only
(`index_eq_of_held`).
-/

namespace Rucbase.Lib

variable {α τ : Type} {token : α → Option τ}

/-- The tokens in the places. -/
def held (token : α → Option τ) (places : List α) : List τ := places.filterMap token

theorem held_append (places more : List α) :
    held token (places ++ more) = held token places ++ held token more :=
  List.filterMap_append

theorem held_singleton (place : α) : held token [place] = (token place).toList := by
  unfold held
  cases h : token place <;> simp [h]

theorem held_cons (place : α) (places : List α) :
    held token (place :: places) = (token place).toList ++ held token places := by
  rw [← held_singleton, ← held_append, List.singleton_append]

variable {i : ℕ} {old : α} {places : List α} {t : τ}

/-- Of what is held, only the token of the changed place is another. -/
theorem held_set (token : α → Option τ) (h : places[i]? = some old) (new : α) :
    ((token old).toList ++ held token (places.set i new)).Perm
      ((token new).toList ++ held token places) := by
  induction places generalizing i with
  | nil => simp at h
  | cons place places ih =>
    cases i with
    | zero =>
      obtain rfl : place = old := by simpa using h
      rw [List.set_cons_zero, held_cons, held_cons]
      exact List.perm_append_comm_assoc ..
    | succ i =>
      rw [List.getElem?_cons_succ] at h
      rw [List.set_cons_succ, held_cons, held_cons]
      exact (List.perm_append_comm_assoc ..).trans
        (((ih h).append_left _).trans (List.perm_append_comm_assoc ..))

/-- What is held in one place and what is held in the others. -/
theorem held_perm_set (token : α → Option τ) {empty : α} (h : places[i]? = some old)
    (hempty : token empty = none) :
    (held token places).Perm ((token old).toList ++ held token (places.set i empty)) := by
  have hperm := held_set token h empty
  rw [hempty] at hperm
  exact hperm.symm

/-- A place that is filled again adds its token to what the others hold. -/
theorem held_set_perm (token : α → Option τ) {empty : α} (h : places[i]? = some old)
    (hempty : token empty = none) (new : α) :
    (held token (places.set i new)).Perm
      ((token new).toList ++ held token (places.set i empty)) := by
  have hlt := (List.getElem?_eq_some_iff.mp h).1
  have hplace : (places.set i empty)[i]? = some empty := by
    rw [List.getElem?_set_self hlt]
  have hperm := held_set token hplace new
  rwa [hempty, List.set_set] at hperm

theorem mem_held {place : α} (h : places[i]? = some place) (ht : token place = some t) :
    t ∈ held token places :=
  List.mem_filterMap.mpr ⟨place, List.mem_of_getElem? h, ht⟩

/-- A token that is not held twice is in one place. -/
theorem index_eq_of_held (hnodup : (held token places).Nodup) {j : ℕ} {a b : α}
    (hi : places[i]? = some a) (hj : places[j]? = some b) (ha : token a = some t)
    (hb : token b = some t) : i = j := by
  induction places generalizing i j with
  | nil => simp at hi
  | cons place places ih =>
    rw [held_cons, List.nodup_append] at hnodup
    obtain ⟨-, hplaces, hdisjoint⟩ := hnodup
    cases i with
    | zero =>
      obtain rfl : place = a := by simpa using hi
      cases j with
      | zero => rfl
      | succ j => exact absurd rfl (hdisjoint t (by simp [ha]) t (mem_held hj hb))
    | succ i =>
      cases j with
      | zero =>
        obtain rfl : place = b := by simpa using hj
        exact absurd rfl (hdisjoint t (by simp [hb]) t (mem_held hi ha))
      | succ j => rw [ih hplaces hi hj]

theorem mem_held_iff : t ∈ held token places ↔ ∃ i : ℕ, places[i]?.bind token = some t := by
  unfold held
  rw [List.mem_filterMap]
  constructor
  · rintro ⟨place, hplace, ht⟩
    obtain ⟨i, hi⟩ := List.mem_iff_getElem?.mp hplace
    exact ⟨i, by rw [hi]; exact ht⟩
  · rintro ⟨i, hi⟩
    obtain ⟨place, hplace, ht⟩ := Option.bind_eq_some_iff.mp hi
    exact ⟨place, List.mem_of_getElem? hplace, ht⟩

theorem existsUnique_of_held (hnodup : (held token places).Nodup) (ht : t ∈ held token places) :
    ∃! i : ℕ, places[i]?.bind token = some t := by
  obtain ⟨i, hi⟩ := mem_held_iff.mp ht
  refine ⟨i, hi, fun j hj => ?_⟩
  obtain ⟨a, ha, hta⟩ := Option.bind_eq_some_iff.mp hi
  obtain ⟨b, hb, htb⟩ := Option.bind_eq_some_iff.mp hj
  exact index_eq_of_held hnodup hb ha htb hta

end Rucbase.Lib
