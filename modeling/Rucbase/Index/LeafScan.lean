import Rucbase.Common.Value

/-!
# Scanning the leaves of an index

`src/index/index_scan.cpp` and `index_scan.h`, and `get_rid`, `leaf_begin` and `leaf_end` of
`src/index/b_plus_tree.cpp`. The leaves of a tree form a circular chain through a sentinel page. A
scan holds two positions, each a page and a slot, and stops when they are equal, so everything
depends on every position having one form only: behind the last entry of a leaf comes the first slot
of the next leaf, except in the last leaf.

The entries of a chain are numbered from the front, and `positionAt` is the position of a number. A
step of a scan goes from the position of a number to that of the next (`Linked.step`), the positions
of different numbers are different (`rank_positionAt`), and every canonical position is one of them
(`Canonical.eq_positionAt`). So a scan visits the entries between its two positions, each once and
in order (`scan_visits`).
-/

namespace Rucbase

open Lib

/-- `INDEX_LEAF_HEADER_PAGE`: the sentinel of the chain of leaves. -/
def indexLeafHeaderPage : ℤ := 1

/-- `IndexPosition`. -/
structure IndexPosition where
  pageNo : ℤ
  slotNo : ℤ
  deriving DecidableEq, Repr

/-- What a scan reads of a node: the header of its page, and the `key_count` entries of its `Rid`
array. -/
structure IndexNode where
  isLeaf : Bool
  previousLeafPage : ℤ
  nextLeafPage : ℤ
  rids : List Rid
  deriving DecidableEq, Repr

/-- `get_size`. -/
def IndexNode.getSize (node : IndexNode) : ℤ := node.rids.length

/-- What a scan reads of a tree: the nodes of its pages, as `fetch_node` returns them, and the ends
of the chain of leaves, which the file header holds. -/
structure BPlusTree where
  fetchNode : ℤ → Option IndexNode
  firstLeaf : ℤ
  lastLeaf : ℤ

namespace BPlusTree

/-- `get_rid`. -/
def getRid (tree : BPlusTree) (position : IndexPosition) : Except Error Rid :=
  match tree.fetchNode position.pageNo with
  | none => throw .indexEntryNotFoundError
  | some node =>
    if position.slotNo < 0 ∨ node.getSize ≤ position.slotNo then throw .indexEntryNotFoundError
    else match node.rids[position.slotNo.toNat]? with
      | some rid => pure rid
      | none => throw .undefinedBehaviour

/-- `leaf_end`. -/
def leafEnd (tree : BPlusTree) : Except Error IndexPosition :=
  match tree.fetchNode tree.lastLeaf with
  | none => throw (.internalError (text "failed to fetch last leaf for index scan"))
  | some node => pure ⟨tree.lastLeaf, node.getSize⟩

/-- `leaf_begin`. -/
def leafBegin (tree : BPlusTree) : IndexPosition := ⟨tree.firstLeaf, 0⟩

end BPlusTree

/-- `IndexScan`, without the tree that it scans. -/
structure IndexScan where
  position : IndexPosition
  finish : IndexPosition
  deriving DecidableEq, Repr

namespace IndexScan

/-- `is_end`. -/
def isEnd (scan : IndexScan) : Bool := scan.position == scan.finish

/-- `rid`. -/
def rid (tree : BPlusTree) (scan : IndexScan) : Except Error Rid := tree.getRid scan.position

/-- `next`. -/
def next (tree : BPlusTree) (scan : IndexScan) : Except Error IndexScan := do
  throwIf (scan.isEnd = true) .assertionFailed
  match tree.fetchNode scan.position.pageNo with
  | none => throw .assertionFailed
  | some node =>
    throwIf (node.isLeaf = false) .assertionFailed
    throwIf (node.getSize ≤ scan.position.slotNo) .assertionFailed
    let slotNo := scan.position.slotNo + 1
    if scan.position.pageNo ≠ tree.lastLeaf ∧ slotNo = node.getSize then
      pure { scan with position := ⟨node.nextLeafPage, 0⟩ }
    else pure { scan with position := ⟨scan.position.pageNo, slotNo⟩ }

/-- The loop of a caller, `for (; !scan.is_end(); scan.next())`, for at most `steps` rounds: the
successive values of `rid`, or `none` if the scan has not come to its end. -/
def collect (tree : BPlusTree) : ℕ → IndexScan → Except Error (Option (List Rid))
  | 0, scan => pure (if scan.isEnd then some [] else none)
  | steps + 1, scan =>
    if scan.isEnd then pure (some [])
    else do
      let rid ← scan.rid tree
      let scan ← scan.next tree
      let rids ← collect tree steps scan
      pure (rids.map (rid :: ·))

end IndexScan

/-! ## Chains of leaves -/

/-- A leaf and its page. -/
structure Leaf where
  pageNo : ℤ
  node : IndexNode
  deriving DecidableEq, Repr

/-- The leaves stand on their pages and are linked in both directions, from the one behind the page
`previous` up to the sentinel. -/
def ChainFrom (tree : BPlusTree) : ℤ → List Leaf → Prop
  | _, [] => True
  | previous, leaf :: leaves =>
    tree.fetchNode leaf.pageNo = some leaf.node ∧ leaf.node.isLeaf = true ∧
      leaf.node.previousLeafPage = previous ∧
      leaf.node.nextLeafPage = (leaves.head?.map Leaf.pageNo).getD indexLeafHeaderPage ∧
      ChainFrom tree leaf.pageNo leaves

/-- The leaves of the tree are these, in a circular chain through the sentinel. -/
structure LeafChain (tree : BPlusTree) (leaves : List Leaf) : Prop where
  /-- There is a leaf, and the header names the first and the last. -/
  firstLeaf : leaves.head?.map Leaf.pageNo = some tree.firstLeaf
  lastLeaf : leaves.getLast?.map Leaf.pageNo = some tree.lastLeaf
  /-- The sentinel stands before the first leaf and behind the last. -/
  sentinel : ∃ node, tree.fetchNode indexLeafHeaderPage = some node ∧
    node.nextLeafPage = tree.firstLeaf ∧ node.previousLeafPage = tree.lastLeaf
  links : ChainFrom tree indexLeafHeaderPage leaves
  /-- The pages are different. -/
  nodup : (indexLeafHeaderPage :: leaves.map Leaf.pageNo).Nodup
  /-- Only an only leaf may be empty. -/
  rids_ne : leaves.length ≠ 1 → ∀ leaf ∈ leaves, leaf.node.rids ≠ []

/-- The entries of the leaves, in order. -/
def entries (leaves : List Leaf) : List Rid := leaves.flatMap fun leaf => leaf.node.rids

/-- The canonical positions: a slot that holds an entry, or the end. -/
def Canonical (tree : BPlusTree) (leaves : List Leaf) (position : IndexPosition) : Prop :=
  (∃ leaf ∈ leaves, position.pageNo = leaf.pageNo ∧ 0 ≤ position.slotNo ∧
    position.slotNo < leaf.node.getSize) ∨ tree.leafEnd = .ok position

/-- The number of entries before a position. -/
def rank : List Leaf → IndexPosition → ℕ
  | [], _ => 0
  | leaf :: leaves, position =>
    if position.pageNo = leaf.pageNo then position.slotNo.toNat
    else leaf.node.rids.length + rank leaves position

/-- The canonical position before which there are `n` entries. -/
def positionAt : List Leaf → ℕ → IndexPosition
  | [], _ => ⟨indexLeafHeaderPage, 0⟩
  | [leaf], n => ⟨leaf.pageNo, n⟩
  | leaf :: next :: leaves, n =>
    if n < leaf.node.rids.length then ⟨leaf.pageNo, n⟩
    else positionAt (next :: leaves) (n - leaf.node.rids.length)

/-- What a scan needs of the leaves that are ahead of it. -/
def Linked (tree : BPlusTree) : List Leaf → Prop
  | [] => False
  | [leaf] =>
    tree.fetchNode leaf.pageNo = some leaf.node ∧ leaf.node.isLeaf = true ∧
      leaf.pageNo = tree.lastLeaf
  | leaf :: next :: leaves =>
    tree.fetchNode leaf.pageNo = some leaf.node ∧ leaf.node.isLeaf = true ∧
      leaf.pageNo ≠ tree.lastLeaf ∧ leaf.node.nextLeafPage = next.pageNo ∧
      leaf.node.rids ≠ [] ∧ next.node.rids ≠ [] ∧ Linked tree (next :: leaves)

section Chain

variable {tree : BPlusTree} {leaves : List Leaf}

/-- A chain is linked from each of its leaves on. -/
theorem ChainFrom.linked {previous : ℤ} (h : ChainFrom tree previous leaves) (hne : leaves ≠ [])
    (hlast : leaves.getLast?.map Leaf.pageNo = some tree.lastLeaf)
    (hnodup : (leaves.map Leaf.pageNo).Nodup)
    (hrids : leaves.length ≠ 1 → ∀ leaf ∈ leaves, leaf.node.rids ≠ []) : Linked tree leaves := by
  induction leaves generalizing previous with
  | nil => exact absurd rfl hne
  | cons leaf leaves ih =>
    obtain ⟨hfetch, hleaf, -, hnext, hrest⟩ := h
    match leaves with
    | [] => exact ⟨hfetch, hleaf, by simpa using hlast⟩
    | next :: rest =>
      have hrids' : ∀ l ∈ leaf :: next :: rest, l.node.rids ≠ [] := hrids (by simp)
      have hlast' : (next :: rest).getLast?.map Leaf.pageNo = some tree.lastLeaf := by
        rwa [List.getLast?_cons_cons] at hlast
      -- The last leaf is one of the others, and its page is another one.
      have hother : leaf.pageNo ≠ tree.lastLeaf := by
        intro heq
        obtain ⟨last, hmem, hpage⟩ : ∃ last ∈ next :: rest, last.pageNo = tree.lastLeaf := by
          obtain ⟨last, hget, hpage⟩ := Option.map_eq_some_iff.mp hlast'
          exact ⟨last, List.mem_of_getLast? hget, hpage⟩
        rw [List.map_cons, List.nodup_cons] at hnodup
        apply hnodup.1
        rw [heq, ← hpage]
        exact List.mem_map_of_mem hmem
      refine ⟨hfetch, hleaf, hother, hnext, hrids' leaf List.mem_cons_self, ?_, ?_⟩
      · exact hrids' next (List.mem_cons_of_mem _ List.mem_cons_self)
      · apply ih hrest (by simp) hlast'
        · exact (List.nodup_cons.mp hnodup).2
        · exact fun _ l hl => hrids' l (List.mem_cons_of_mem _ hl)

theorem LeafChain.ne_nil (h : LeafChain tree leaves) : leaves ≠ [] := by
  rintro rfl
  have hfirst := h.firstLeaf
  simp at hfirst

theorem LeafChain.linked (h : LeafChain tree leaves) : Linked tree leaves :=
  h.links.linked h.ne_nil h.lastLeaf (List.nodup_cons.mp h.nodup).2 h.rids_ne

/-- The first position of a chain is the first slot of its first leaf. -/
theorem positionAt_zero {leaf : Leaf} (hrids : leaves ≠ [] → leaf.node.rids ≠ []) :
    positionAt (leaf :: leaves) 0 = ⟨leaf.pageNo, 0⟩ := by
  match leaves with
  | [] => rfl
  | next :: rest =>
    have hpos : 0 < leaf.node.rids.length := List.length_pos_of_ne_nil (hrids (by simp))
    rw [positionAt, if_pos hpos]
    rfl

/-- The node of a position in a leaf has the entry. -/
theorem getRid_leaf {leaf : Leaf} (hfetch : tree.fetchNode leaf.pageNo = some leaf.node) {n : ℕ}
    (hn : n < leaf.node.rids.length) :
    tree.getRid ⟨leaf.pageNo, n⟩ = .ok leaf.node.rids[n] := by
  have hin : ¬ ((n : ℤ) < 0 ∨ leaf.node.getSize ≤ n) := by
    unfold IndexNode.getSize
    omega
  simp [BPlusTree.getRid, hfetch, hin, List.getElem?_eq_getElem hn]

/-- `next` at an entry of a leaf. -/
theorem next_leaf {leaf : Leaf} (hfetch : tree.fetchNode leaf.pageNo = some leaf.node)
    (hleaf : leaf.node.isLeaf = true) {n : ℕ} (hn : n < leaf.node.rids.length)
    {finish : IndexPosition} (hend : (⟨leaf.pageNo, n⟩ : IndexPosition) ≠ finish) :
    IndexScan.next tree ⟨⟨leaf.pageNo, n⟩, finish⟩ = .ok ⟨
      if leaf.pageNo ≠ tree.lastLeaf ∧ n + 1 = leaf.node.rids.length then
        ⟨leaf.node.nextLeafPage, 0⟩
      else ⟨leaf.pageNo, (n + 1 : ℕ)⟩, finish⟩ := by
  have hsize : ¬ leaf.node.getSize ≤ n := by
    unfold IndexNode.getSize
    omega
  have hslot : ((n : ℤ) + 1 = leaf.node.getSize) ↔ n + 1 = leaf.node.rids.length := by
    unfold IndexNode.getSize
    omega
  simp only [IndexScan.next, IndexScan.isEnd, beq_iff_eq, hend, throwIf, hfetch, hleaf, hsize,
    hslot, if_false, pure_bind, Bool.true_eq_false]
  split_ifs
  · rfl
  · rfl

/-- One step of a scan: the position of a number holds the entry of that number, and the next
position is that of the next number. -/
theorem Linked.step (h : Linked tree leaves) {n : ℕ} (hn : n < (entries leaves).length)
    {finish : IndexPosition} (hend : positionAt leaves n ≠ finish) :
    IndexScan.rid tree ⟨positionAt leaves n, finish⟩ = .ok (entries leaves)[n] ∧
      IndexScan.next tree ⟨positionAt leaves n, finish⟩ =
        .ok ⟨positionAt leaves (n + 1), finish⟩ := by
  induction leaves generalizing n with
  | nil => exact h.elim
  | cons leaf leaves ih =>
    match leaves with
    | [] =>
      obtain ⟨hfetch, hleaf, hlast⟩ := h
      have hn' : n < leaf.node.rids.length := by simpa [entries] using hn
      refine ⟨?_, ?_⟩
      · have hget := getRid_leaf hfetch hn'
        simpa [entries, IndexScan.rid, positionAt] using hget
      · -- In the last leaf a scan goes on to the slot behind the last entry.
        rw [positionAt, next_leaf hfetch hleaf hn' hend, if_neg (by simp [hlast])]
        rfl
    | next :: rest =>
      obtain ⟨hfetch, hleaf, hother, hnext, hrids, hrids', hrest⟩ := h
      by_cases hin : n < leaf.node.rids.length
      · have hpos : positionAt (leaf :: next :: rest) n = ⟨leaf.pageNo, n⟩ := if_pos hin
        rw [hpos] at hend ⊢
        refine ⟨?_, ?_⟩
        · have hget := getRid_leaf hfetch hin
          rw [IndexScan.rid, hget]
          simp [entries, List.getElem_append_left hin]
        · rw [next_leaf hfetch hleaf hin hend]
          by_cases hcross : n + 1 = leaf.node.rids.length
          · -- The scan crosses to the next leaf.
            rw [if_pos ⟨hother, hcross⟩, positionAt, if_neg (by omega), hcross, Nat.sub_self,
              positionAt_zero (fun _ => hrids'), hnext]
          · rw [if_neg (fun hboth => hcross hboth.2), positionAt, if_pos (by omega)]
      · have hpos : positionAt (leaf :: next :: rest) n =
            positionAt (next :: rest) (n - leaf.node.rids.length) := if_neg hin
        have hpos' : positionAt (leaf :: next :: rest) (n + 1) =
            positionAt (next :: rest) (n - leaf.node.rids.length + 1) := by
          rw [positionAt, if_neg (by omega), Nat.sub_add_comm (by omega)]
        have hsplit : entries (leaf :: next :: rest) = leaf.node.rids ++ entries (next :: rest) :=
          rfl
        have hn' : n - leaf.node.rids.length < (entries (next :: rest)).length := by
          rw [hsplit, List.length_append] at hn
          omega
        rw [hpos] at hend ⊢
        obtain ⟨hrid, hstep⟩ := ih hrest hn' hend
        refine ⟨?_, by rw [hpos']; exact hstep⟩
        rw [hrid]
        simp only [hsplit]
        rw [List.getElem_append_right (by omega)]

/-- The positions of a chain are on its pages. -/
theorem positionAt_mem (hne : leaves ≠ []) (n : ℕ) :
    (positionAt leaves n).pageNo ∈ leaves.map Leaf.pageNo := by
  induction leaves generalizing n with
  | nil => exact absurd rfl hne
  | cons leaf leaves ih =>
    match leaves with
    | [] => exact List.mem_cons_self
    | next :: rest =>
      unfold positionAt
      split_ifs
      · exact List.mem_cons_self
      · exact List.mem_cons_of_mem _ (ih (by simp) _)

/-- The position of a number has that many entries before it. -/
theorem rank_positionAt (hnodup : (leaves.map Leaf.pageNo).Nodup) (hne : leaves ≠ []) (n : ℕ) :
    rank leaves (positionAt leaves n) = n := by
  induction leaves generalizing n with
  | nil => exact absurd rfl hne
  | cons leaf leaves ih =>
    match leaves with
    | [] => simp [positionAt, rank]
    | next :: rest =>
      rw [List.map_cons, List.nodup_cons] at hnodup
      unfold positionAt
      split_ifs with hin
      · simp [rank]
      · have hmem : (positionAt (next :: rest) (n - leaf.node.rids.length)).pageNo ∈
            (next :: rest).map Leaf.pageNo := positionAt_mem (by simp) _
        have hother : (positionAt (next :: rest) (n - leaf.node.rids.length)).pageNo ≠
            leaf.pageNo := fun heq => hnodup.1 (heq ▸ hmem)
        rw [rank, if_neg hother, ih hnodup.2 (by simp)]
        omega

/-- A slot that holds an entry is the position of the number of entries before it. -/
theorem positionAt_rank (hnodup : (leaves.map Leaf.pageNo).Nodup) {position : IndexPosition}
    (hslot : ∃ leaf ∈ leaves, position.pageNo = leaf.pageNo ∧ 0 ≤ position.slotNo ∧
      position.slotNo < leaf.node.getSize) :
    positionAt leaves (rank leaves position) = position ∧
      rank leaves position ≤ (entries leaves).length := by
  induction leaves with
  | nil => simp at hslot
  | cons leaf leaves ih =>
    rw [List.map_cons, List.nodup_cons] at hnodup
    have hlength : (entries (leaf :: leaves)).length =
        leaf.node.rids.length + (entries leaves).length := by
      simp [entries]
    by_cases hpage : position.pageNo = leaf.pageNo
    · -- The position is in this leaf, since no other one has its page.
      obtain ⟨leaf', hmem, hpage', hlo, hhi⟩ := hslot
      obtain rfl : leaf' = leaf := by
        rcases List.mem_cons.mp hmem with rfl | hmem
        · rfl
        · refine absurd ?_ hnodup.1
          rw [← hpage, hpage']
          exact List.mem_map_of_mem hmem
      have hlt : position.slotNo.toNat < leaf'.node.rids.length := by
        unfold IndexNode.getSize at hhi
        omega
      have hposition :
          (⟨leaf'.pageNo, (position.slotNo.toNat : ℤ)⟩ : IndexPosition) = position := by
        rw [← hpage, Int.toNat_of_nonneg hlo]
      rw [rank, if_pos hpage]
      refine ⟨?_, by omega⟩
      match leaves with
      | [] => exact hposition
      | next :: rest => rw [positionAt, if_pos hlt, hposition]
    · have hslot' : ∃ leaf ∈ leaves, position.pageNo = leaf.pageNo ∧ 0 ≤ position.slotNo ∧
          position.slotNo < leaf.node.getSize := by
        obtain ⟨leaf', hmem, hpage', hbounds⟩ := hslot
        rcases List.mem_cons.mp hmem with rfl | hmem
        · exact absurd hpage' hpage
        · exact ⟨leaf', hmem, hpage', hbounds⟩
      obtain ⟨hposition, hle⟩ := ih hnodup.2 hslot'
      rw [rank, if_neg hpage]
      refine ⟨?_, by omega⟩
      match leaves with
      | [] => simp at hslot'
      | next :: rest =>
        rw [positionAt, if_neg (by omega), Nat.add_sub_cancel_left, hposition]

/-- The end of the leaves is the position behind all entries. -/
theorem Linked.leafEnd (h : Linked tree leaves) :
    tree.leafEnd = .ok (positionAt leaves (entries leaves).length) := by
  induction leaves with
  | nil => exact h.elim
  | cons leaf leaves ih =>
    match leaves with
    | [] =>
      obtain ⟨hfetch, -, hlast⟩ := h
      rw [hlast] at hfetch
      simp [BPlusTree.leafEnd, hfetch, positionAt, hlast, entries, IndexNode.getSize]
    | next :: rest =>
      have hend := ih h.2.2.2.2.2.2
      have hlength : (entries (leaf :: next :: rest)).length =
          leaf.node.rids.length + (entries (next :: rest)).length := by
        simp [entries]
      rw [hend, positionAt, if_neg (by omega), hlength, Nat.add_sub_cancel_left]

/-- Every canonical position is the position of a number. -/
theorem Canonical.eq_positionAt (h : LeafChain tree leaves) {position : IndexPosition}
    (hcanonical : Canonical tree leaves position) :
    positionAt leaves (rank leaves position) = position ∧
      rank leaves position ≤ (entries leaves).length := by
  have hnodup := (List.nodup_cons.mp h.nodup).2
  rcases hcanonical with hslot | hend
  · exact positionAt_rank hnodup hslot
  · rw [h.linked.leafEnd, Except.ok.injEq] at hend
    rw [← hend, rank_positionAt hnodup h.ne_nil]
    exact ⟨rfl, le_rfl⟩

/-- A scan between the positions of two numbers visits the entries between them. -/
theorem collect_positionAt (h : LeafChain tree leaves) {n m : ℕ} (hnm : n ≤ m)
    (hm : m ≤ (entries leaves).length) {steps : ℕ} (hsteps : m - n ≤ steps) :
    IndexScan.collect tree steps ⟨positionAt leaves n, positionAt leaves m⟩ =
      .ok (some (((entries leaves).drop n).take (m - n))) := by
  have hnodup := (List.nodup_cons.mp h.nodup).2
  -- The scan is at its end exactly at the number of the end.
  have hend : ∀ k, positionAt leaves k = positionAt leaves m ↔ k = m := by
    intro k
    constructor
    · intro heq
      rw [← rank_positionAt hnodup h.ne_nil k, heq, rank_positionAt hnodup h.ne_nil]
    · rintro rfl
      rfl
  induction steps generalizing n with
  | zero =>
    obtain rfl : n = m := by omega
    simp [IndexScan.collect, IndexScan.isEnd]
  | succ steps ih =>
    unfold IndexScan.collect
    by_cases hdone : n = m
    · subst hdone
      simp [IndexScan.isEnd]
    · have hlt : n < (entries leaves).length := by omega
      have hgo : positionAt leaves n ≠ positionAt leaves m := fun heq => hdone ((hend n).mp heq)
      obtain ⟨hrid, hnext⟩ := h.linked.step hlt hgo
      have hrest := ih (n := n + 1) (by omega) (by omega)
      have hcount : m - n = (m - (n + 1)) + 1 := by omega
      simp only [IndexScan.isEnd, beq_iff_eq, hgo, if_false, hrid, hnext, hrest, ok_bind]
      rw [List.drop_eq_getElem_cons hlt, hcount, List.take_succ_cons]
      rfl

/-- A scan visits every entry between two canonical positions, once and in order, and none of its
assertions fails; a scan from the first to the last position visits all entries. -/
theorem scan_visits (tree : BPlusTree) (leaves : List Leaf) (h : LeafChain tree leaves) :
    (∃ finish, tree.leafEnd = .ok finish ∧ ∀ steps, (entries leaves).length ≤ steps →
      IndexScan.collect tree steps ⟨tree.leafBegin, finish⟩ = .ok (some (entries leaves))) ∧
    ∀ start finish, Canonical tree leaves start → Canonical tree leaves finish →
      rank leaves start ≤ rank leaves finish →
      ∀ steps, rank leaves finish - rank leaves start ≤ steps →
        IndexScan.collect tree steps ⟨start, finish⟩ =
          .ok (some (((entries leaves).drop (rank leaves start)).take
            (rank leaves finish - rank leaves start))) := by
  refine ⟨⟨_, h.linked.leafEnd, fun steps hsteps => ?_⟩, ?_⟩
  · have hbegin : tree.leafBegin = positionAt leaves 0 := by
      have hfirst := h.firstLeaf
      match leaves, h.ne_nil with
      | leaf :: rest, _ =>
        rw [positionAt_zero fun hrest => h.rids_ne (by simpa using hrest) leaf List.mem_cons_self]
        simpa [BPlusTree.leafBegin] using hfirst.symm
    rw [hbegin, collect_positionAt h (Nat.zero_le _) le_rfl (by simpa using hsteps)]
    simp
  · intro start finish hstart hfinish hle steps hsteps
    obtain ⟨hstart, -⟩ := hstart.eq_positionAt h
    obtain ⟨hfinish, hbound⟩ := hfinish.eq_positionAt h
    have hvisits := collect_positionAt h hle hbound hsteps
    rwa [hstart, hfinish] at hvisits

/-- Two leaves, of two entries and of one. -/
def twoLeaves : List Leaf :=
  [⟨2, ⟨true, 1, 5, [⟨7, 0⟩, ⟨7, 3⟩]⟩⟩, ⟨5, ⟨true, 2, 1, [⟨4, 1⟩]⟩⟩]

/-- A tree with these leaves. -/
def twoLeafTree : BPlusTree where
  fetchNode pageNo :=
    if pageNo = 1 then some ⟨true, 5, 2, []⟩
    else (twoLeaves.find? (·.pageNo == pageNo)).map Leaf.node
  firstLeaf := 2
  lastLeaf := 5

theorem twoLeafTree_chain : LeafChain twoLeafTree twoLeaves where
  firstLeaf := rfl
  lastLeaf := rfl
  sentinel := ⟨⟨true, 5, 2, []⟩, rfl, rfl, rfl⟩
  links := ⟨rfl, rfl, rfl, rfl, rfl, rfl, rfl, rfl, trivial⟩
  nodup := by decide
  rids_ne := by decide

/-- The scan of these leaves crosses from one to the other. -/
theorem scan_visits_twoLeaves :
    LeafChain twoLeafTree twoLeaves ∧
      IndexScan.collect twoLeafTree 3 ⟨⟨2, 0⟩, ⟨5, 1⟩⟩ = .ok (some [⟨7, 0⟩, ⟨7, 3⟩, ⟨4, 1⟩]) := by
  refine ⟨twoLeafTree_chain, ?_⟩
  obtain ⟨⟨finish, hfinish, hall⟩, -⟩ := scan_visits twoLeafTree twoLeaves twoLeafTree_chain
  have hend : twoLeafTree.leafEnd = .ok ⟨5, 1⟩ := rfl
  obtain rfl : (⟨5, 1⟩ : IndexPosition) = finish := Except.ok.inj (hend.symm.trans hfinish)
  exact hall 3 (by decide)

end Chain

end Rucbase
