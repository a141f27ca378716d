import Rucbase.Index.Create
import Mathlib.Logic.Function.Basic

/-!
# Nodes and the pages that hold them

The view that `BPlusTreeNode` (`src/index/b_plus_tree.h`) gives of a page: its header, and the two
arrays of keys and of `Rid`s, of which the first `key_count` slots are in use. The pages of a tree
are a partial function, which `fetch_node` reads; a change of a node is seen by every later fetch.
-/

namespace Rucbase

open Lib

/-- A key of an index whose keys have `keyLength` bytes. -/
abbrev IndexKey (keyLength : ℕ) := {key : Bytes // key.length = keyLength}

/-- `BPlusTreeNode`. The arrays hold all slots of the page. -/
structure BPlusTreeNode (keyLength : ℕ) where
  header : IndexPageHeader
  keys : List (IndexKey keyLength)
  rids : List Rid
  rids_length : rids.length = keys.length
  size_le : header.keyCount ≤ keys.length

/-- The pages of a tree, as `fetch_node` returns them. -/
abbrev IndexPages (keyLength : ℕ) := ℤ → Option (BPlusTreeNode keyLength)

namespace BPlusTreeNode

variable {keyLength : ℕ}

/-- `get_size`. -/
def getSize (node : BPlusTreeNode keyLength) : ℕ := node.header.keyCount.toNat

/-- The pages of the children, `value_at` of the slots in use. -/
def children (node : BPlusTreeNode keyLength) : List ℤ :=
  (node.rids.take node.getSize).map Rid.pageNo

/-- `get_key`; the page has no slots behind the last. -/
def getKey (node : BPlusTreeNode keyLength) (keyIdx : ℕ) : Except Error (IndexKey keyLength) :=
  match node.keys[keyIdx]? with
  | some key => pure key
  | none => throw .undefinedBehaviour

/-- `set_key`. -/
def setKey (node : BPlusTreeNode keyLength) (keyIdx : ℕ) (key : IndexKey keyLength) :
    BPlusTreeNode keyLength where
  header := node.header
  keys := node.keys.set keyIdx key
  rids := node.rids
  rids_length := by rw [List.length_set, node.rids_length]
  size_le := by rw [List.length_set]; exact node.size_le

/-- `set_next_leaf`. -/
def setNextLeaf (node : BPlusTreeNode keyLength) (pageNo : ℤ) : BPlusTreeNode keyLength :=
  { node with header := { node.header with nextLeafPage := pageNo } }

/-- `set_prev_leaf`. -/
def setPrevLeaf (node : BPlusTreeNode keyLength) (pageNo : ℤ) : BPlusTreeNode keyLength :=
  { node with header := { node.header with previousLeafPage := pageNo } }

/-- `find_child`: the first slot in use that holds the page of the child. That there is one is an
assertion. -/
def findChild (node : BPlusTreeNode keyLength) (child : ℤ) : Except Error ℕ :=
  let childIndex := node.children.findIdx (· == child)
  if childIndex < node.getSize then pure childIndex else throw .assertionFailed

theorem getSize_le (node : BPlusTreeNode keyLength) : node.getSize ≤ node.keys.length := by
  have h := node.size_le
  unfold getSize
  omega

theorem length_children (node : BPlusTreeNode keyLength) : node.children.length = node.getSize := by
  have h := node.getSize_le
  rw [children, List.length_map, List.length_take, node.rids_length]
  omega

/-- A child is found in its slot. -/
theorem findChild_eq_ok {node : BPlusTreeNode keyLength} {child : ℤ} {slot : ℕ}
    (hnodup : node.children.Nodup) (hslot : node.children[slot]? = some child) :
    node.findChild child = .ok slot := by
  obtain ⟨hlt, hget⟩ := List.getElem?_eq_some_iff.mp hslot
  have hidx : node.children.findIdx (· == child) = slot := by
    rw [← List.idxOf, ← hget, hnodup.idxOf_getElem]
  rw [length_children] at hlt
  unfold findChild
  rw [hidx]
  exact if_pos hlt

theorem getKey_eq_ok {node : BPlusTreeNode keyLength} {keyIdx : ℕ} {key : IndexKey keyLength}
    (h : node.keys[keyIdx]? = some key) : node.getKey keyIdx = .ok key := by
  rw [getKey, h]
  rfl

/-- The slots in use have keys. -/
theorem exists_key (node : BPlusTreeNode keyLength) {slot : ℕ} (h : slot < node.getSize) :
    ∃ key, node.keys[slot]? = some key :=
  ⟨_, List.getElem?_eq_getElem (h.trans_le node.getSize_le)⟩

end BPlusTreeNode

/-- A node with keys of one byte, whose slots are the entries. -/
def BPlusTreeNode.ofEntries (header : IndexPageHeader) (entries : List (UInt8 × ℤ))
    (h : header.keyCount ≤ entries.length) : BPlusTreeNode 1 where
  header := header
  keys := entries.map fun entry => ⟨[entry.1], rfl⟩
  rids := entries.map fun entry => ⟨entry.2, 0⟩
  rids_length := by simp
  size_le := by simpa using h

/-- A tree of two leaves, with its root on page 2 and the sentinel of the chain of leaves on page 1.
The first key of the right leaf is not in the root yet. -/
def staleTree : IndexPages 1
  | 1 => some (.ofEntries ⟨-1, -1, 0, true, 4, 3⟩ [] (by decide))
  | 2 => some (.ofEntries ⟨-1, -1, 2, false, -1, -1⟩ [(10, 3), (50, 4)] (by decide))
  | 3 => some (.ofEntries ⟨-1, 2, 1, true, 1, 4⟩ [(10, 0)] (by decide))
  | 4 => some (.ofEntries ⟨-1, 2, 1, true, 3, 1⟩ [(70, 0)] (by decide))
  | _ => none

/-- Blocks of one length are equal when `memcmp` says so. -/
theorem memcmp_eq_zero {s t : Bytes} (hlen : s.length = t.length) : memcmp s t = 0 ↔ s = t := by
  constructor
  · intro h
    induction s generalizing t with
    | nil => exact (List.length_eq_zero_iff.mp hlen.symm).symm
    | cons a s ih =>
      obtain ⟨b, t, rfl⟩ := List.exists_cons_of_length_eq_add_one hlen.symm
      rw [memcmp] at h
      have hlt : ¬a < b := fun hlt => by simp [hlt] at h
      have hgt : ¬b < a := fun hgt => by simp [hlt, hgt] at h
      rw [if_neg hlt, if_neg hgt] at h
      have hab : a = b := UInt8.le_antisymm (UInt8.not_lt.mp hgt) (UInt8.not_lt.mp hlt)
      rw [hab, ih (by simpa using hlen) h]
  · rintro rfl
    exact memcmp_self s

end Rucbase
