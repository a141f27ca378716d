import Rucbase.Index.Pages
import Rucbase.Lib.Rooted

/-!
# The separators of a tree

In a tree of pages the key in each slot of an internal node is the first key of the child in that
slot, hence the smallest key below it. When the first key of a node has changed,
`update_ancestor_keys` (`src/index/b_plus_tree.cpp`) climbs from the node to the root and copies the
first keys into the slots on the way. It stops early, at the first slot that is right already.

One slot at a time may be wrong: the slot of the node that the loop has reached
(`SeparatorsExcept`). A round either finds this slot right, and then all are, or sets it, and then
only the slot of the parent may be wrong (`SetsKey.separatorsExcept`). The climb ends because the
root has no parent, so the equation is restored everywhere (`updateAncestorKeys_restores`).
-/

namespace Rucbase

open Lib Relation

namespace IndexPages

variable {keyLength : ℕ}

/-! ## The climb -/

/-- One round of the loop of `update_ancestor_keys`: the pages and the page to go on with, or the
end of the loop. -/
def updateRound (pages : IndexPages keyLength) (currentPage : ℤ) :
    Except Error (Option (IndexPages keyLength × ℤ)) :=
  match pages currentPage with
  | none => pure none
  | some current =>
    if current.header.parentPage = indexNoPage then pure none
    else
      match pages current.header.parentPage with
      | none => pure none
      | some parent => do
        let rank ← parent.findChild currentPage
        let separator ← parent.getKey rank
        let first ← current.getKey 0
        if memcmp separator.val first.val = 0 then pure none
        else
          pure (some (Function.update pages current.header.parentPage
            (some (parent.setKey rank first)), current.header.parentPage))

/-- `update_ancestor_keys`, in at most `fuel` rounds; `none` when they were too few. -/
def updateAncestorKeys : ℕ → IndexPages keyLength → ℤ → Except Error (Option (IndexPages keyLength))
  | 0, _, _ => pure none
  | fuel + 1, pages, currentPage => do
    match ← updateRound pages currentPage with
    | none => pure (some pages)
    | some (pages, currentPage) => updateAncestorKeys fuel pages currentPage

/-! ## Trees of pages -/

/-- An internal node holds the child in the slot. -/
def EntryOf (pages : IndexPages keyLength) (page : ℤ) (slot : ℕ) (child : ℤ) : Prop :=
  ∃ node, pages page = some node ∧ node.header.isLeaf = false ∧ node.children[slot]? = some child

def IsChild (pages : IndexPages keyLength) (page child : ℤ) : Prop :=
  ∃ slot, EntryOf pages page slot child

/-- What lies below a page, the page itself included. -/
abbrev Reaches (pages : IndexPages keyLength) : ℤ → ℤ → Prop := ReflTransGen (IsChild pages)

/-- The pages form a tree below the root: every node is on its page and not empty, an internal node
lists each child once, and every child names its parent. -/
structure IsTree (pages : IndexPages keyLength) (root : ℤ) : Prop where
  finite : {page | (pages page).isSome}.Finite
  root_parent : ∃ node, pages root = some node ∧ node.header.parentPage = indexNoPage
  node : ∀ page, Reaches pages root page → ∃ node, pages page = some node ∧
    0 < node.header.keyCount ∧ (node.header.isLeaf = false → node.children.Nodup)
  parent : ∀ page child, Reaches pages root page → IsChild pages page child →
    page ≠ indexNoPage ∧ ∃ node, pages child = some node ∧ node.header.parentPage = page

/-- The key in a slot of a page. -/
def keyAt (pages : IndexPages keyLength) (page : ℤ) (slot : ℕ) : Option (IndexKey keyLength) :=
  (pages page).bind fun node => node.keys[slot]?

/-- The key in each slot is the first key of the child in it. -/
def Separators (pages : IndexPages keyLength) (root : ℤ) : Prop :=
  ∀ page slot child, Reaches pages root page → EntryOf pages page slot child →
    keyAt pages page slot = keyAt pages child 0

/-- The same, except possibly in the slot of one node. -/
def SeparatorsExcept (pages : IndexPages keyLength) (root node : ℤ) : Prop :=
  ∀ page slot child, Reaches pages root page → EntryOf pages page slot child → child ≠ node →
    keyAt pages page slot = keyAt pages child 0

section Tree

variable {pages : IndexPages keyLength} {root page page' child child' : ℤ} {slot slot' : ℕ}

/-- A slot holds one child. -/
theorem EntryOf.child_unique (h : EntryOf pages page slot child)
    (h' : EntryOf pages page slot child') : child = child' := by
  obtain ⟨node, hnode, -, hslot⟩ := h
  obtain ⟨node', hnode', -, hslot'⟩ := h'
  obtain rfl : node = node' := by simpa [hnode] using hnode'
  exact Option.some.inj (hslot.symm.trans hslot')

/-- A child is in one slot of one page. -/
theorem IsTree.entry_unique (h : IsTree pages root) (hpage : Reaches pages root page)
    (hpage' : Reaches pages root page') (hentry : EntryOf pages page slot child)
    (hentry' : EntryOf pages page' slot' child) : page = page' ∧ slot = slot' := by
  obtain ⟨-, node, hnode, hparent⟩ := h.parent page child hpage ⟨slot, hentry⟩
  obtain ⟨-, node', hnode', hparent'⟩ := h.parent page' child hpage' ⟨slot', hentry'⟩
  obtain rfl : node = node' := by simpa [hnode] using hnode'
  obtain rfl : page = page' := hparent.symm.trans hparent'
  refine ⟨rfl, ?_⟩
  obtain ⟨parent, hget, hleaf, hslot⟩ := hentry
  obtain ⟨parent', hget', -, hslot'⟩ := hentry'
  obtain rfl : parent = parent' := by simpa [hget] using hget'
  obtain ⟨parent', hget', -, hnodup⟩ := h.node page hpage
  obtain rfl : parent = parent' := by simpa [hget] using hget'
  have hlt : slot < parent.children.length := (List.getElem?_eq_some_iff.mp hslot).1
  exact (List.getElem?_inj hlt (hnodup hleaf)).mp (hslot.trans hslot'.symm)

/-- The root is no child. -/
theorem IsTree.root_not_child (h : IsTree pages root) (hpage : Reaches pages root page) :
    ¬IsChild pages page root := by
  intro hchild
  obtain ⟨hne, node, hnode, hparent⟩ := h.parent page root hpage hchild
  obtain ⟨node', hnode', hroot⟩ := h.root_parent
  obtain rfl : node = node' := by simpa [hnode] using hnode'
  exact hne (hparent.symm.trans hroot)

theorem IsTree.isRooted (h : IsTree pages root) : IsRooted (IsChild pages) root where
  parent_unique hp hq := fun ⟨_, hentry⟩ ⟨_, hentry'⟩ => (h.entry_unique hp hq hentry hentry').1
  root_orphan := h.root_not_child

theorem IsTree.reached_finite (h : IsTree pages root) :
    {page | Reaches pages root page}.Finite := by
  refine h.finite.subset fun page hpage => ?_
  obtain ⟨node, hnode, -⟩ := h.node page hpage
  exact Option.isSome_iff_exists.mpr ⟨node, hnode⟩

/-- A reached node has a first key. -/
theorem IsTree.exists_keyAt_zero (h : IsTree pages root) (hpage : Reaches pages root page) :
    ∃ key, keyAt pages page 0 = some key := by
  obtain ⟨node, hnode, hpos, -⟩ := h.node page hpage
  have hsize : 0 < node.getSize := by
    unfold BPlusTreeNode.getSize
    omega
  obtain ⟨key, hkey⟩ := node.exists_key hsize
  exact ⟨key, by rw [keyAt, hnode, Option.bind_some, hkey]⟩

end Tree

/-! ## Changes of keys -/

/-- The pages differ in their keys only. -/
def SameShape (pages pages' : IndexPages keyLength) : Prop :=
  ∀ page, (pages page).map (fun node => (node.header, node.rids)) =
    (pages' page).map fun node => (node.header, node.rids)

/-- Of all pages, only the slot has changed, and it holds the key. -/
structure SetsKey (pages pages' : IndexPages keyLength) (page : ℤ) (slot : ℕ)
    (key : Option (IndexKey keyLength)) : Prop where
  shape : SameShape pages pages'
  here : keyAt pages' page slot = key
  elsewhere : ∀ page' slot', page' ≠ page ∨ slot' ≠ slot →
    keyAt pages' page' slot' = keyAt pages page' slot'

/-- Only keys have changed, in slots on the path from the node to the root. -/
structure OnlySeparators (pages pages' : IndexPages keyLength) (node : ℤ) : Prop where
  shape : SameShape pages pages'
  keys : ∀ page slot, keyAt pages' page slot = keyAt pages page slot ∨
    ∃ child, EntryOf pages page slot child ∧ Reaches pages child node

section Shape

variable {pages pages' : IndexPages keyLength} {root page child : ℤ} {slot : ℕ}

theorem SameShape.refl (pages : IndexPages keyLength) : SameShape pages pages := fun _ => rfl

theorem SameShape.symm (h : SameShape pages pages') : SameShape pages' pages :=
  fun page => (h page).symm

theorem SameShape.trans {pages'' : IndexPages keyLength} (h : SameShape pages pages')
    (h' : SameShape pages' pages'') : SameShape pages pages'' :=
  fun page => (h page).trans (h' page)

/-- A node of the one is a node of the other with the same header and the same children. -/
theorem SameShape.exists_node (h : SameShape pages pages') {node : BPlusTreeNode keyLength}
    (hnode : pages page = some node) :
    ∃ node', pages' page = some node' ∧ node'.header = node.header ∧
      node'.children = node.children := by
  have hpage := h page
  rw [hnode, Option.map_some] at hpage
  obtain ⟨node', hnode', heq⟩ := Option.map_eq_some_iff.mp hpage.symm
  obtain ⟨hheader, hrids⟩ := Prod.mk.inj heq
  refine ⟨node', hnode', hheader, ?_⟩
  rw [BPlusTreeNode.children, BPlusTreeNode.children, BPlusTreeNode.getSize,
    BPlusTreeNode.getSize, hheader, hrids]

theorem SameShape.entryOf (h : SameShape pages pages') (hentry : EntryOf pages page slot child) :
    EntryOf pages' page slot child := by
  obtain ⟨node, hnode, hleaf, hslot⟩ := hentry
  obtain ⟨node', hnode', hheader, hchildren⟩ := h.exists_node hnode
  exact ⟨node', hnode', hheader ▸ hleaf, hchildren ▸ hslot⟩

theorem SameShape.isChild (h : SameShape pages pages') (hchild : IsChild pages page child) :
    IsChild pages' page child :=
  hchild.imp fun _ hentry => h.entryOf hentry

theorem SameShape.reaches (h : SameShape pages pages') (hpage : Reaches pages page child) :
    Reaches pages' page child :=
  hpage.lift id fun _ _ hchild => h.isChild hchild

/-- A tree stays one when keys change. -/
theorem SameShape.isTree (h : SameShape pages pages') (htree : IsTree pages root) :
    IsTree pages' root where
  finite := by
    refine htree.finite.subset fun page hpage => ?_
    obtain ⟨node', hnode'⟩ := Option.isSome_iff_exists.mp hpage
    obtain ⟨node, hnode, -⟩ := h.symm.exists_node hnode'
    exact Option.isSome_iff_exists.mpr ⟨node, hnode⟩
  root_parent := by
    obtain ⟨node, hnode, hparent⟩ := htree.root_parent
    obtain ⟨node', hnode', hheader, -⟩ := h.exists_node hnode
    exact ⟨node', hnode', hheader ▸ hparent⟩
  node page hpage := by
    obtain ⟨node, hnode, hpos, hnodup⟩ := htree.node page (h.symm.reaches hpage)
    obtain ⟨node', hnode', hheader, hchildren⟩ := h.exists_node hnode
    rw [← hheader] at hpos hnodup
    exact ⟨node', hnode', hpos, fun hleaf => hchildren ▸ hnodup hleaf⟩
  parent page child hpage hchild := by
    obtain ⟨hne, node, hnode, hparent⟩ :=
      htree.parent page child (h.symm.reaches hpage) (h.symm.isChild hchild)
    obtain ⟨node', hnode', hheader, -⟩ := h.exists_node hnode
    exact ⟨hne, node', hnode', hheader ▸ hparent⟩

/-- Setting a slot to the first key of its child leaves at most the slot of the parent wrong. -/
theorem SetsKey.separatorsExcept (htree : IsTree pages root) (hpage : Reaches pages root page)
    (hentry : EntryOf pages page slot child)
    (hset : SetsKey pages pages' page slot (keyAt pages child 0))
    (h : SeparatorsExcept pages root child) : SeparatorsExcept pages' root page := by
  intro page₂ slot₂ child₂ hpage₂ hentry₂ hne
  replace hpage₂ := hset.shape.symm.reaches hpage₂
  replace hentry₂ := hset.shape.symm.entryOf hentry₂
  rw [hset.elsewhere child₂ 0 (.inl hne)]
  by_cases hsame : page₂ = page ∧ slot₂ = slot
  · -- The slot that was set holds the first key of its child.
    obtain ⟨rfl, rfl⟩ := hsame
    obtain rfl := hentry.child_unique hentry₂
    exact hset.here
  · rw [hset.elsewhere page₂ slot₂ (not_and_or.mp hsame)]
    refine h page₂ slot₂ child₂ hpage₂ hentry₂ ?_
    rintro rfl
    exact hsame (htree.entry_unique hpage₂ hpage hentry₂ hentry)

/-- Setting the slot of a child, and then changes on the path from the parent to the root. -/
theorem SetsKey.onlySeparators {pages'' : IndexPages keyLength} {key : Option (IndexKey keyLength)}
    (hentry : EntryOf pages page slot child) (hset : SetsKey pages pages' page slot key)
    (h : OnlySeparators pages' pages'' page) : OnlySeparators pages pages'' child where
  shape := hset.shape.trans h.shape
  keys page₂ slot₂ := by
    by_cases hhere : page₂ = page ∧ slot₂ = slot
    · obtain ⟨rfl, rfl⟩ := hhere
      exact .inr ⟨child, hentry, .refl⟩
    · rw [← hset.elsewhere page₂ slot₂ (not_and_or.mp hhere)]
      refine (h.keys page₂ slot₂).imp_right ?_
      rintro ⟨child₂, hentry₂, hreach⟩
      exact ⟨child₂, hset.shape.symm.entryOf hentry₂,
        (hset.shape.symm.reaches hreach).tail ⟨slot, hentry⟩⟩

/-- When the slot of the node is right, all are. -/
theorem SeparatorsExcept.separators (htree : IsTree pages root) (hpage : Reaches pages root page)
    (hentry : EntryOf pages page slot child) (hkey : keyAt pages page slot = keyAt pages child 0)
    (h : SeparatorsExcept pages root child) : Separators pages root := by
  intro page₂ slot₂ child₂ hpage₂ hentry₂
  by_cases hne : child₂ = child
  · subst hne
    obtain ⟨rfl, rfl⟩ := htree.entry_unique hpage₂ hpage hentry₂ hentry
    exact hkey
  · exact h page₂ slot₂ child₂ hpage₂ hentry₂ hne

/-- The root has no slot. -/
theorem SeparatorsExcept.separators_root (htree : IsTree pages root)
    (h : SeparatorsExcept pages root root) : Separators pages root := by
  intro page slot child hpage hentry
  refine h page slot child hpage hentry ?_
  rintro rfl
  exact htree.root_not_child hpage ⟨slot, hentry⟩

end Shape

/-! ## Rounds and runs -/

section Climb

variable {pages : IndexPages keyLength} {root page child : ℤ} {slot : ℕ}

theorem setsKey_update {node : BPlusTreeNode keyLength} (hnode : pages page = some node)
    (hslot : slot < node.keys.length) (key : IndexKey keyLength) :
    SetsKey pages (Function.update pages page (some (node.setKey slot key))) page slot
      (some key) where
  shape page' := by
    by_cases hpage : page' = page
    · subst hpage
      rw [Function.update_self, hnode]
      rfl
    · rw [Function.update_of_ne hpage]
  here := by
    rw [keyAt, Function.update_self, Option.bind_some]
    exact List.getElem?_set_self hslot
  elsewhere page' slot' hne := by
    unfold keyAt
    by_cases hpage : page' = page
    · subst hpage
      have hslot' : slot ≠ slot' := fun heq => by simp [heq] at hne
      rw [Function.update_self, hnode, Option.bind_some, Option.bind_some]
      exact List.getElem?_set_ne hslot'
    · rw [Function.update_of_ne hpage]

theorem updateRound_root (htree : IsTree pages root) : updateRound pages root = .ok none := by
  obtain ⟨node, hnode, hparent⟩ := htree.root_parent
  unfold updateRound
  rw [hnode]
  exact if_pos hparent

/-- At a child, a round ends the loop when its slot is right, and sets the slot otherwise. -/
theorem updateRound_child (htree : IsTree pages root) (hpage : Reaches pages root page)
    (hentry : EntryOf pages page slot child) :
    (keyAt pages page slot = keyAt pages child 0 ∧ updateRound pages child = .ok none) ∨
      ∃ pages', updateRound pages child = .ok (some (pages', page)) ∧
        SetsKey pages pages' page slot (keyAt pages child 0) := by
  obtain ⟨hne, current, hcurrent, hparent⟩ := htree.parent page child hpage ⟨slot, hentry⟩
  obtain ⟨parent, hget, hleaf, hslot⟩ := hentry
  obtain ⟨parent', hget', -, hnodup⟩ := htree.node page hpage
  obtain rfl : parent = parent' := by simpa [hget] using hget'
  have hchild : Reaches pages root child := hpage.tail ⟨slot, parent, hget, hleaf, hslot⟩
  have hlt : slot < parent.getSize := by
    rw [← parent.length_children]
    exact (List.getElem?_eq_some_iff.mp hslot).1
  obtain ⟨separator, hseparator⟩ := parent.exists_key hlt
  obtain ⟨first, hfirst⟩ := htree.exists_keyAt_zero hchild
  have hzero : current.keys[0]? = some first := by
    rw [keyAt, hcurrent, Option.bind_some] at hfirst
    exact hfirst
  have hhere : keyAt pages page slot = some separator := by
    rw [keyAt, hget, Option.bind_some, hseparator]
  have hround : updateRound pages child =
      if memcmp separator.val first.val = 0 then .ok none
      else .ok (some (Function.update pages page (some (parent.setKey slot first)), page)) := by
    unfold updateRound
    rw [hcurrent]
    dsimp only
    rw [if_neg (by rw [hparent]; exact hne), hparent, hget]
    dsimp only
    rw [BPlusTreeNode.findChild_eq_ok (hnodup hleaf) hslot, ok_bind,
      BPlusTreeNode.getKey_eq_ok hseparator, ok_bind, BPlusTreeNode.getKey_eq_ok hzero, ok_bind]
    rfl
  rw [hround, hhere, hfirst]
  by_cases hsame : memcmp separator.val first.val = 0
  · have hequal : separator = first :=
      Subtype.ext ((memcmp_eq_zero (separator.2.trans first.2.symm)).mp hsame)
    exact .inl ⟨congrArg some hequal, if_pos hsame⟩
  · exact .inr ⟨_, if_neg hsame, setsKey_update hget (hlt.trans_le parent.getSize_le) first⟩

/-- The loop ends with a round that ends it. -/
theorem updateAncestorKeys_last {node : ℤ} (h : updateRound pages node = .ok none) :
    ∃ fuel, ∀ rounds ≥ fuel, updateAncestorKeys rounds pages node = .ok (some pages) := by
  refine ⟨1, fun rounds hrounds => ?_⟩
  obtain ⟨rounds, rfl⟩ := Nat.exists_eq_add_of_le' hrounds
  rw [updateAncestorKeys, h]
  rfl

/-- A round and the rounds behind it. -/
theorem updateAncestorKeys_step {pages₁ pages' : IndexPages keyLength} {node parent : ℤ}
    (h : updateRound pages node = .ok (some (pages₁, parent)))
    (hrun : ∃ fuel, ∀ rounds ≥ fuel, updateAncestorKeys rounds pages₁ parent = .ok (some pages')) :
    ∃ fuel, ∀ rounds ≥ fuel, updateAncestorKeys rounds pages node = .ok (some pages') := by
  obtain ⟨fuel, hrun⟩ := hrun
  refine ⟨fuel + 1, fun rounds hrounds => ?_⟩
  obtain ⟨rounds, rfl⟩ := Nat.exists_eq_add_of_le' hrounds
  rw [← Nat.add_assoc, updateAncestorKeys, h]
  exact hrun _ (Nat.le_add_left _ _)

/-- The climb from a node to the root. -/
theorem updateAncestorKeys_run {base : IndexPages keyLength} (hbase : IsTree base root) {node : ℤ}
    (hnode : Reaches base root node) :
    ∀ pages, SameShape base pages → SeparatorsExcept pages root node →
      ∃ pages',
        (∃ fuel, ∀ rounds ≥ fuel, updateAncestorKeys rounds pages node = .ok (some pages')) ∧
        Separators pages' root ∧ OnlySeparators pages pages' node := by
  -- The induction is along the path from the root: a round goes up by one node.
  induction hnode with
  | refl =>
    intro pages hshape hexcept
    have htree := hshape.isTree hbase
    exact ⟨pages, updateAncestorKeys_last (updateRound_root htree), hexcept.separators_root htree,
      .refl _, fun _ _ => .inl rfl⟩
  | @tail page child hpage hchild ih =>
    intro pages hshape hexcept
    have htree := hshape.isTree hbase
    replace hpage := hshape.reaches hpage
    obtain ⟨slot, hentry⟩ := hshape.isChild hchild
    rcases updateRound_child htree hpage hentry with ⟨hkey, hround⟩ | ⟨pages₁, hround, hset⟩
    · exact ⟨pages, updateAncestorKeys_last hround, hexcept.separators htree hpage hentry hkey,
        .refl _, fun _ _ => .inl rfl⟩
    · obtain ⟨pages', hrun, hseparators, honly⟩ :=
        ih pages₁ (hshape.trans hset.shape) (hset.separatorsExcept htree hpage hentry hexcept)
      exact ⟨pages', updateAncestorKeys_step hround hrun, hseparators,
        hset.onlySeparators hentry honly⟩

end Climb

/-! ## Separators are minima -/

/-- The keys of the leaves below a page. -/
inductive KeyBelow (pages : IndexPages keyLength) : ℤ → IndexKey keyLength → Prop
  | leaf {page : ℤ} {key : IndexKey keyLength} {node : BPlusTreeNode keyLength}
    (hnode : pages page = some node) (hleaf : node.header.isLeaf = true)
    (hkey : key ∈ node.keys.take node.getSize) : KeyBelow pages page key
  | child {page child : ℤ} {key : IndexKey keyLength} (hchild : IsChild pages page child)
    (hkey : KeyBelow pages child key) : KeyBelow pages page key

/-- The keys of the leaves are in order from left to right: in each leaf, and below the children of
each internal node. -/
structure SortedLeaves (le : IndexKey keyLength → IndexKey keyLength → Prop)
    (pages : IndexPages keyLength) (root : ℤ) : Prop where
  leaf : ∀ page node, Reaches pages root page → pages page = some node →
    node.header.isLeaf = true → (node.keys.take node.getSize).Pairwise le
  internal : ∀ page slot slot' child child' key key', Reaches pages root page →
    EntryOf pages page slot child → EntryOf pages page slot' child' → slot < slot' →
    KeyBelow pages child key → KeyBelow pages child' key' → le key key'

section Minimum

variable {pages : IndexPages keyLength} {root page : ℤ} {key key' : IndexKey keyLength}

/-- An internal node has a child in its first slot. -/
theorem IsTree.exists_first_child (htree : IsTree pages root) (hpage : Reaches pages root page)
    {node : BPlusTreeNode keyLength} (hnode : pages page = some node)
    (hleaf : node.header.isLeaf = false) : ∃ child, EntryOf pages page 0 child := by
  obtain ⟨node', hnode', hpos, -⟩ := htree.node page hpage
  obtain rfl : node = node' := by simpa [hnode] using hnode'
  have hlt : 0 < node.children.length := by
    rw [node.length_children]
    unfold BPlusTreeNode.getSize
    omega
  exact ⟨_, node, hnode, hleaf, List.getElem?_eq_getElem hlt⟩

/-- The first key of a node is a key of a leaf below it. -/
theorem keyBelow_first (htree : IsTree pages root) (hsep : Separators pages root)
    (hpage : Reaches pages root page) (hkey : keyAt pages page 0 = some key) :
    KeyBelow pages page key := by
  -- The first keys go down the first slots to a leaf.
  refine htree.isRooted.induction htree.reached_finite
    (motive := fun page => ∀ key, keyAt pages page 0 = some key → KeyBelow pages page key)
    (fun page hpage ih key hkey => ?_) hpage key hkey
  obtain ⟨node, hnode, hpos, -⟩ := htree.node page hpage
  cases hleaf : node.header.isLeaf with
  | true =>
    refine .leaf hnode hleaf ?_
    rw [keyAt, hnode, Option.bind_some] at hkey
    refine List.mem_of_getElem? (i := 0) ?_
    rw [List.getElem?_take_of_lt (by unfold BPlusTreeNode.getSize; omega), hkey]
  | false =>
    obtain ⟨child, hentry⟩ := htree.exists_first_child hpage hnode hleaf
    rw [hsep page 0 child hpage hentry] at hkey
    exact .child ⟨0, hentry⟩ (ih child ⟨0, hentry⟩ key hkey)

/-- The first key of a node is the least key of the leaves below it. -/
theorem first_le_keyBelow {le : IndexKey keyLength → IndexKey keyLength → Prop}
    (hrefl : ∀ key, le key key) (htree : IsTree pages root) (hsep : Separators pages root)
    (hsorted : SortedLeaves le pages root) (hpage : Reaches pages root page)
    (hkey : keyAt pages page 0 = some key) (hbelow : KeyBelow pages page key') : le key key' := by
  induction hbelow generalizing key with
  | @leaf page key' node hnode hleaf hmem =>
    rw [keyAt, hnode, Option.bind_some] at hkey
    have hpairwise := hsorted.leaf page node hpage hnode hleaf
    obtain ⟨tail, htail⟩ : ∃ tail, node.keys.take node.getSize = key :: tail := by
      obtain ⟨first, keys, hkeys⟩ := List.exists_cons_of_ne_nil (List.ne_nil_of_mem hmem)
      have hsize : 0 < node.getSize := by
        have hlength := congrArg List.length hkeys
        rw [List.length_take, List.length_cons] at hlength
        omega
      have hfirst := List.getElem?_take_of_lt (l := node.keys) hsize
      rw [hkeys, hkey, List.getElem?_cons_zero] at hfirst
      exact ⟨keys, by rw [hkeys, Option.some.inj hfirst]⟩
    rw [htail] at hpairwise hmem
    rcases List.mem_cons.mp hmem with rfl | hmem
    · exact hrefl _
    · exact (List.pairwise_cons.mp hpairwise).1 key' hmem
  | @child page child key' hchild hbelow ih =>
    obtain ⟨slot, hentry⟩ := hchild
    obtain ⟨node, hnode, hleaf, -⟩ := id hentry
    obtain ⟨first, hfirst⟩ := htree.exists_first_child hpage hnode hleaf
    rw [hsep page 0 first hpage hfirst] at hkey
    by_cases hslot : slot = 0
    · subst hslot
      obtain rfl := hentry.child_unique hfirst
      exact ih (hpage.tail ⟨0, hentry⟩) hkey
    · have hreach : Reaches pages root first := hpage.tail ⟨0, hfirst⟩
      exact hsorted.internal page 0 slot first child key key' hpage hfirst hentry
        (Nat.pos_of_ne_zero hslot) (keyBelow_first htree hsep hreach hkey) hbelow

/-- The key is the least of the keys of the leaves below the page. -/
def IsMinimum (le : IndexKey keyLength → IndexKey keyLength → Prop) (pages : IndexPages keyLength)
    (page : ℤ) (key : IndexKey keyLength) : Prop :=
  KeyBelow pages page key ∧ ∀ key', KeyBelow pages page key' → le key key'

theorem separator_isMinimum {le : IndexKey keyLength → IndexKey keyLength → Prop}
    (hrefl : ∀ key, le key key) (htree : IsTree pages root) (hsep : Separators pages root)
    (hsorted : SortedLeaves le pages root) (hpage : Reaches pages root page) {slot : ℕ} {child : ℤ}
    (hentry : EntryOf pages page slot child) :
    ∃ key, keyAt pages page slot = some key ∧ IsMinimum le pages child key := by
  have hchild : Reaches pages root child := hpage.tail ⟨slot, hentry⟩
  obtain ⟨key, hkey⟩ := htree.exists_keyAt_zero hchild
  refine ⟨key, (hsep page slot child hpage hentry).trans hkey, ?_, fun key' hbelow => ?_⟩
  · exact keyBelow_first htree hsep hchild hkey
  · exact first_le_keyBelow hrefl htree hsep hsorted hchild hkey hbelow

end Minimum

/-- In a tree whose separators are right except possibly in the slot of a node,
`update_ancestor_keys` of this node ends without a failed assertion. All separators are right then,
and are the minima of their subtrees if the leaves are sorted; only separators on the path from the
node to the root have changed. -/
theorem updateAncestorKeys_restores {pages : IndexPages keyLength} {root node : ℤ}
    (htree : IsTree pages root) (hnode : Reaches pages root node)
    (hexcept : SeparatorsExcept pages root node) :
    ∃ pages', (∃ fuel, ∀ rounds ≥ fuel, updateAncestorKeys rounds pages node = .ok (some pages')) ∧
      IsTree pages' root ∧ Separators pages' root ∧ OnlySeparators pages pages' node ∧
      ∀ le : IndexKey keyLength → IndexKey keyLength → Prop, (∀ key, le key key) →
        SortedLeaves le pages' root → ∀ page slot child, Reaches pages' root page →
        EntryOf pages' page slot child →
        ∃ key, keyAt pages' page slot = some key ∧ IsMinimum le pages' child key := by
  obtain ⟨pages', hrun, hsep, honly⟩ :=
    updateAncestorKeys_run htree hnode pages (.refl pages) hexcept
  have htree' : IsTree pages' root := honly.shape.isTree htree
  exact ⟨pages', hrun, htree', hsep, honly, fun le hrefl hsorted page slot child hpage hentry =>
    separator_isMinimum hrefl htree' hsep hsorted hpage hentry⟩

theorem entryOf_staleTree {page child : ℤ} {slot : ℕ} :
    EntryOf staleTree page slot child ↔
      page = 2 ∧ (slot = 0 ∧ child = 3 ∨ slot = 1 ∧ child = 4) := by
  constructor
  · rintro ⟨node, hnode, hleaf, hslot⟩
    unfold staleTree at hnode
    split at hnode <;> cases hnode <;> try cases hleaf
    match slot, hslot with
    | 0, hslot => exact ⟨rfl, .inl ⟨rfl, (Option.some.inj hslot).symm⟩⟩
    | 1, hslot => exact ⟨rfl, .inr ⟨rfl, (Option.some.inj hslot).symm⟩⟩
  · rintro ⟨rfl, ⟨rfl, rfl⟩ | ⟨rfl, rfl⟩⟩ <;> exact ⟨_, rfl, rfl, rfl⟩

theorem reaches_staleTree {page : ℤ} (h : Reaches staleTree 2 page) :
    page = 2 ∨ page = 3 ∨ page = 4 := by
  cases h with
  | refl => exact .inl rfl
  | tail _ hchild =>
    obtain ⟨slot, hentry⟩ := hchild
    obtain ⟨-, ⟨-, rfl⟩ | ⟨-, rfl⟩⟩ := entryOf_staleTree.mp hentry
    · exact .inr (.inl rfl)
    · exact .inr (.inr rfl)

theorem isTree_staleTree : IsTree staleTree 2 where
  finite := by
    refine (Set.toFinite {1, 2, 3, 4}).subset fun page hpage => ?_
    obtain ⟨node, hnode⟩ := Option.isSome_iff_exists.mp hpage
    unfold staleTree at hnode
    split at hnode <;> cases hnode <;> simp
  root_parent := ⟨_, rfl, rfl⟩
  node page hpage := by
    obtain rfl | rfl | rfl := reaches_staleTree hpage
    · exact ⟨_, rfl, by decide, fun _ => by decide⟩
    · exact ⟨_, rfl, by decide, nofun⟩
    · exact ⟨_, rfl, by decide, nofun⟩
  parent page child _ hchild := by
    obtain ⟨slot, hentry⟩ := hchild
    obtain ⟨rfl, ⟨-, rfl⟩ | ⟨-, rfl⟩⟩ := entryOf_staleTree.mp hentry <;>
      exact ⟨by decide, _, rfl, rfl⟩

/-- The key of the right leaf reaches the root. -/
theorem updateAncestorKeys_restores_staleTree :
    ¬Separators staleTree 2 ∧ ∃ pages', Separators pages' 2 ∧
      ∃ fuel, ∀ rounds ≥ fuel, updateAncestorKeys rounds staleTree 4 = .ok (some pages') := by
  have hentry : EntryOf staleTree 2 1 4 := entryOf_staleTree.mpr ⟨rfl, .inr ⟨rfl, rfl⟩⟩
  refine ⟨fun hsep => absurd (hsep 2 1 4 .refl hentry) (by decide), ?_⟩
  have hexcept : SeparatorsExcept staleTree 2 4 := by
    intro page slot child _ hentry hne
    obtain ⟨rfl, ⟨rfl, rfl⟩ | ⟨rfl, rfl⟩⟩ := entryOf_staleTree.mp hentry
    · rfl
    · exact absurd rfl hne
  obtain ⟨pages', hrun, -, hsep, -⟩ :=
    updateAncestorKeys_restores isTree_staleTree (.tail .refl ⟨1, hentry⟩) hexcept
  exact ⟨pages', hsep, hrun⟩

end IndexPages

end Rucbase
