import Mathlib.Data.List.Nodup
import Mathlib.Logic.Function.Basic

/-!
# Enumerations of a partial map

A store is a partial map from places to values. A list enumerates it when it has every entry once.
The list follows the map when an entry comes to a free place (`Enumerates.insert`).
-/

namespace Rucbase.Lib

variable {κ ν : Type}

/-- The list has every entry of the map, once. -/
structure Enumerates (f : κ → Option ν) (entries : List (κ × ν)) : Prop where
  nodup : (entries.map Prod.fst).Nodup
  mem_iff : ∀ k v, (k, v) ∈ entries ↔ f k = some v

namespace Enumerates

theorem empty : Enumerates (fun _ : κ => (none : Option ν)) [] := ⟨by simp, by simp⟩

variable {f : κ → Option ν} {entries : List (κ × ν)}

/-- A place of the list is one at which the map is defined. -/
theorem mem_keys_iff (h : Enumerates f entries) {k : κ} :
    k ∈ entries.map Prod.fst ↔ ∃ v, f k = some v := by
  rw [List.mem_map]
  constructor
  · rintro ⟨⟨k', v⟩, hmem, rfl⟩
    exact ⟨v, (h.mem_iff _ _).mp hmem⟩
  · rintro ⟨v, hv⟩
    exact ⟨(k, v), (h.mem_iff _ _).mpr hv, rfl⟩

/-- A new entry at a free place. -/
theorem insert [DecidableEq κ] (h : Enumerates f entries) {k : κ} (hfree : f k = none) (v : ν) :
    Enumerates (Function.update f k (some v)) ((k, v) :: entries) where
  nodup := by
    rw [List.map_cons, List.nodup_cons, h.mem_keys_iff]
    exact ⟨by simp [hfree], h.nodup⟩
  mem_iff k' v' := by
    rw [List.mem_cons, h.mem_iff, Prod.mk.injEq]
    by_cases hk : k' = k
    · subst hk
      simp [hfree, eq_comm]
    · simp [hk]

end Enumerates

end Rucbase.Lib
