import Mathlib.Data.List.Nodup
import Mathlib.Data.List.Perm.Basic
import Mathlib.Logic.Function.Basic

/-!
# Handles that are given out again

A handle (a descriptor, an address) is a number that the system gives out, takes back and may then
give out again. To close a handle is safe for who has acquired it and has not closed it yet; whoever
closes it twice closes what another has acquired in the meantime. So what was acquired is counted,
and the table says for each handle in use what it stands for: an acquisition of those that are
counted, or something foreign.

`Owned` is the account of a list of handles: each acquisition was released once, or is behind one of
these handles, and not both. The operations keep the account (`Owned.acquire`, `Owned.release`,
`Owned.touch`), as far as only what is in the list is released or used.
-/

namespace Rucbase.Lib

open scoped List

/-- What a handle stands for. -/
inductive Entry where
  /-- The acquisition with this number. -/
  | own (serial : ℕ)
  | foreign
  deriving DecidableEq, Repr

/-- The handles in use, how many were acquired, and on what the handles stood that were released and
used. -/
structure Handles (η : Type) where
  table : η → Option Entry
  acquired : ℕ := 0
  released : List (Option Entry) := []
  touched : List (Option Entry) := []

namespace Handles

variable {η : Type}

/-- A handle is used. -/
def touch (t : Handles η) (h : η) : Handles η := { t with touched := t.touched ++ [t.table h] }

/-- The handles stand for all acquisitions that were not released. -/
structure Owned (t : Handles η) (owned : List η) : Prop where
  account : (t.released ++ owned.map t.table) ~
    (List.range t.acquired).map fun serial => some (.own serial)
  complete : ∀ h serial, t.table h = some (.own serial) → h ∈ owned
  touched : ∀ entry ∈ t.touched, ∃ serial, entry = some (.own serial)

section Account

variable {t : Handles η} {h : η} {owned owned' : List η}

theorem owned_nil (table : η → Option Entry) (hforeign : ∀ h serial, table h ≠ some (.own serial)) :
    Owned { table := table } [] where
  account := by simp
  complete h serial hown := absurd hown (hforeign h serial)
  touched := by simp

namespace Owned

theorem perm (ht : t.Owned owned) (hperm : owned ~ owned') : t.Owned owned' where
  account := ((hperm.symm.map t.table).append_left _).trans ht.account
  complete h serial hown := hperm.mem_iff.mp (ht.complete h serial hown)
  touched := ht.touched

/-- Everything in the account is an acquisition. -/
theorem exists_serial (ht : t.Owned owned) {entry : Option Entry}
    (hentry : entry ∈ t.released ++ owned.map t.table) :
    ∃ serial < t.acquired, entry = some (.own serial) := by
  obtain ⟨serial, hserial, rfl⟩ := List.mem_map.mp (ht.account.mem_iff.mp hentry)
  exact ⟨serial, List.mem_range.mp hserial, rfl⟩

/-- Nothing is in the account twice. -/
theorem nodup (ht : t.Owned owned) : (t.released ++ owned.map t.table).Nodup := by
  refine ht.account.nodup_iff.mpr (List.nodup_range.map ?_)
  intro serial serial' heq
  simpa using heq

/-- Nothing is released twice. -/
theorem nodup_released (ht : t.Owned owned) : t.released.Nodup :=
  (List.nodup_append.mp ht.nodup).1

/-- When nothing is owned, everything was released. -/
theorem mem_released (ht : t.Owned []) {serial : ℕ} (hserial : serial < t.acquired) :
    some (.own serial) ∈ t.released := by
  have haccount := ht.account
  rw [List.map_nil, List.append_nil] at haccount
  exact haccount.mem_iff.mpr (List.mem_map.mpr ⟨serial, List.mem_range.mpr hserial, rfl⟩)

theorem table_of_mem (ht : t.Owned owned) (hmem : h ∈ owned) :
    ∃ serial < t.acquired, t.table h = some (.own serial) :=
  ht.exists_serial (List.mem_append_right _ (List.mem_map_of_mem hmem))

/-- A handle is owned once. -/
theorem nodup_owned (ht : t.Owned owned) : owned.Nodup :=
  (List.nodup_append.mp ht.nodup).2.1.of_map t.table

theorem touch (ht : t.Owned owned) (hmem : h ∈ owned) : (t.touch h).Owned owned where
  account := ht.account
  complete := ht.complete
  touched := by
    obtain ⟨serial, -, hown⟩ := ht.table_of_mem hmem
    exact List.forall_mem_append.mpr
      ⟨ht.touched, List.forall_mem_singleton.mpr ⟨serial, hown⟩⟩

end Owned

end Account

section Operations

variable [DecidableEq η] {h : η} {owned : List η}

/-- The system gives out a handle. -/
def acquire (t : Handles η) (h : η) : Handles η :=
  { t with table := Function.update t.table h (some (.own t.acquired)), acquired := t.acquired + 1 }

/-- The system takes back a handle. -/
def release (t : Handles η) (h : η) : Handles η :=
  { t with table := Function.update t.table h none, released := t.released ++ [t.table h] }

/-- Others put something of theirs behind a handle, or take it away. -/
def setForeign (t : Handles η) (h : η) (entry : Option Entry) : Handles η :=
  { t with table := Function.update t.table h entry }

theorem map_update_of_notMem {table : η → Option Entry} {entry : Option Entry}
    (hmem : h ∉ owned) : owned.map (Function.update table h entry) = owned.map table := by
  refine List.map_congr_left fun other hother => ?_
  have hne : other ≠ h := by
    rintro rfl
    exact hmem hother
  rw [Function.update_of_ne hne]

variable {t : Handles η}

namespace Owned

theorem acquire (ht : t.Owned owned) (hfree : t.table h = none) :
    (t.acquire h).Owned (h :: owned) where
  account := by
    have hmem : h ∉ owned := by
      intro hmem
      obtain ⟨serial, -, hown⟩ := ht.table_of_mem hmem
      simp [hfree] at hown
    show (t.released ++ (h :: owned).map (Function.update t.table h (some (.own t.acquired)))) ~
      (List.range (t.acquired + 1)).map fun serial => some (.own serial)
    rw [List.map_cons, Function.update_self, map_update_of_notMem hmem, List.range_succ,
      List.map_append, List.map_singleton]
    exact List.perm_middle.trans ((ht.account.cons _).trans (List.perm_append_singleton _ _).symm)
  complete other serial hown := by
    replace hown : Function.update t.table h (some (.own t.acquired)) other = _ := hown
    by_cases heq : other = h
    · exact heq ▸ List.mem_cons_self
    · rw [Function.update_of_ne heq] at hown
      exact List.mem_cons_of_mem _ (ht.complete other serial hown)
  touched := ht.touched

theorem release (ht : t.Owned (h :: owned)) : (t.release h).Owned owned where
  account := by
    have hmem : h ∉ owned := (List.nodup_cons.mp ht.nodup_owned).1
    show (t.released ++ [t.table h]) ++ owned.map (Function.update t.table h none) ~ _
    rw [map_update_of_notMem hmem, List.append_assoc, List.singleton_append]
    exact ht.account
  complete other serial hown := by
    replace hown : Function.update t.table h none other = _ := hown
    by_cases heq : other = h
    · rw [heq, Function.update_self] at hown
      simp at hown
    · rw [Function.update_of_ne heq] at hown
      exact (List.mem_cons.mp (ht.complete other serial hown)).resolve_left heq
  touched := ht.touched

/-- What others do to handles of theirs keeps the account. -/
theorem setForeign (ht : t.Owned owned) {entry : Option Entry}
    (hforeign : ∀ serial, t.table h ≠ some (.own serial))
    (hentry : ∀ serial, entry ≠ some (.own serial)) : (t.setForeign h entry).Owned owned where
  account := by
    have hmem : h ∉ owned := by
      intro hmem
      obtain ⟨serial, -, hown⟩ := ht.table_of_mem hmem
      exact hforeign serial hown
    show (t.released ++ owned.map (Function.update t.table h entry)) ~ _
    rw [map_update_of_notMem hmem]
    exact ht.account
  complete other serial hown := by
    replace hown : Function.update t.table h entry other = _ := hown
    by_cases heq : other = h
    · rw [heq, Function.update_self] at hown
      exact absurd hown (hentry serial)
    · rw [Function.update_of_ne heq] at hown
      exact ht.complete other serial hown
  touched := ht.touched

end Owned

end Operations

end Handles

end Rucbase.Lib
