import Rucbase.Index.Pages
import Rucbase.Lib.Ring

/-!
# Taking a leaf out of the chain

`unlink_leaf` of `src/index/b_plus_tree.cpp`. The leaves of a tree form a circular chain through a
sentinel page, linked in both directions. The leaf before the removed one gets a new successor, and
then the leaf behind it a new predecessor; the two may be one page, and may be the sentinel. When
the second page cannot be fetched, the first link is set back.

The links of the pages form a ring (`LeafRing`), and the two writes change one link of it in each
direction and nothing else (`Relinked`). So the other leaves form a ring afterwards
(`unlinkLeaf_removes`). A failure leaves the links as they were, unless the page that was changed
cannot be fetched again (`unlinkLeaf_error_links_iff`).
-/

namespace Rucbase

open Lib

variable {keyLength : ℕ}

/-- A node but for its links. -/
def BPlusTreeNode.withoutLinks (node : BPlusTreeNode keyLength) : BPlusTreeNode keyLength :=
  (node.setNextLeaf indexNoPage).setPrevLeaf indexNoPage

namespace IndexPages

/-- `fetch_node`, which also fails when the buffer pool has no frame for the page. -/
def fetchNode (pages : IndexPages keyLength) (framed : Bool) (page : ℤ) :
    Option (BPlusTreeNode keyLength) :=
  if framed then pages page else none

/-- `unlink_leaf`: the pages behind it, and how it ended. Which of its fetches, counted from 0, get
a frame is given by `framed`. -/
def unlinkLeaf (framed : ℕ → Bool) (pages : IndexPages keyLength) (leafPage : ℤ) :
    IndexPages keyLength × Except Error Unit :=
  match pages leafPage with
  | none => (pages, throw (.internalError (text "unlink_leaf requires a valid leaf node")))
  | some leaf =>
    if leaf.header.isLeaf = false then
      (pages, throw (.internalError (text "unlink_leaf requires a valid leaf node")))
    else
      let prevPage := leaf.header.previousLeafPage
      let nextPage := leaf.header.nextLeafPage
      match pages.fetchNode (framed 0) prevPage with
      | none => (pages, throw (.internalError (text "unlink_leaf failed to fetch previous leaf")))
      | some prev =>
        let pages := Function.update pages prevPage (some (prev.setNextLeaf nextPage))
        match fetchNode pages (framed 1) nextPage with
        | none =>
          let error := Error.internalError
            (text "unlink_leaf failed to fetch next leaf; previous link rolled back")
          match fetchNode pages (framed 2) prevPage with
          | none => (pages, throw error)
          | some prev =>
            (Function.update pages prevPage (some (prev.setNextLeaf leafPage)), throw error)
        | some next =>
          (Function.update pages nextPage (some (next.setPrevLeaf prevPage)), pure ())

/-! ## Links -/

/-- The successors of the pages in the chain. -/
def nextLeaf (pages : IndexPages keyLength) : ℤ → Option ℤ :=
  Option.map (fun node => node.header.nextLeafPage) ∘ pages

/-- The predecessors of the pages in the chain. -/
def prevLeaf (pages : IndexPages keyLength) : ℤ → Option ℤ :=
  Option.map (fun node => node.header.previousLeafPage) ∘ pages

/-- The pages differ in two links: that from `prevPage` leads to `nextPage`, and the one back. -/
structure Relinked (pages pages' : IndexPages keyLength) (prevPage nextPage : ℤ) : Prop where
  next : pages'.nextLeaf = Function.update pages.nextLeaf prevPage (some nextPage)
  prev : pages'.prevLeaf = Function.update pages.prevLeaf nextPage (some prevPage)
  rest : Option.map BPlusTreeNode.withoutLinks ∘ pages' =
    Option.map BPlusTreeNode.withoutLinks ∘ pages

/-- The leaves are linked in both directions, in a circle through the sentinel. -/
structure LeafRing (pages : IndexPages keyLength) (leaves : List ℤ) : Prop where
  ring : IsRing pages.nextLeaf pages.prevLeaf indexLeafHeaderPage leaves
  leaf : ∀ page ∈ leaves, ∃ node, pages page = some node ∧ node.header.isLeaf = true

section Links

variable {pages pages' : IndexPages keyLength} {page prevPage nextPage leafPage : ℤ}
  {node prev leaf : BPlusTreeNode keyLength} {leaves : List ℤ}

theorem nextLeaf_eq_some :
    pages.nextLeaf page = some nextPage ↔
      ∃ node, pages page = some node ∧ node.header.nextLeafPage = nextPage :=
  Option.map_eq_some_iff

theorem prevLeaf_eq_some :
    pages.prevLeaf page = some prevPage ↔
      ∃ node, pages page = some node ∧ node.header.previousLeafPage = prevPage :=
  Option.map_eq_some_iff

/-- What a write to a page leaves unchanged in it. -/
theorem map_comp_update {β : Type} (f : BPlusTreeNode keyLength → β)
    (write : BPlusTreeNode keyLength → BPlusTreeNode keyLength) (hpage : pages page = some node)
    (hf : f (write node) = f node) :
    Option.map f ∘ Function.update pages page (some (write node)) = Option.map f ∘ pages := by
  rw [Function.comp_update, Option.map_some, hf, ← Option.map_some, ← hpage]
  exact Function.update_eq_self page (Option.map f ∘ pages)

/-- Two writes, each to one of the links, also when they are to one page. -/
theorem relinked_update (hprev : pages prevPage = some prev)
    (hnode : Function.update pages prevPage (some (prev.setNextLeaf nextPage)) nextPage =
      some node) :
    Relinked pages
      (Function.update (Function.update pages prevPage (some (prev.setNextLeaf nextPage))) nextPage
        (some (node.setPrevLeaf prevPage))) prevPage nextPage where
  next := by
    unfold nextLeaf
    rw [map_comp_update _ (·.setPrevLeaf prevPage) hnode rfl, Function.comp_update]
    rfl
  prev := by
    unfold prevLeaf
    rw [Function.comp_update, map_comp_update _ (·.setNextLeaf nextPage) hprev rfl]
    rfl
  rest := by
    rw [map_comp_update _ (·.setPrevLeaf prevPage) hnode rfl,
      map_comp_update _ (·.setNextLeaf nextPage) hprev rfl]

theorem Relinked.exists_leaf (h : Relinked pages pages' prevPage nextPage)
    (hnode : pages page = some node) (hleaf : node.header.isLeaf = true) :
    ∃ node', pages' page = some node' ∧ node'.header.isLeaf = true := by
  have hrest := congrFun h.rest page
  rw [Function.comp_apply, Function.comp_apply, hnode, Option.map_some] at hrest
  obtain ⟨node', hnode', hsame⟩ := Option.map_eq_some_iff.mp hrest
  have hisLeaf : node'.header.isLeaf = node.header.isLeaf :=
    congrArg (fun node => node.header.isLeaf) hsame
  exact ⟨node', hnode', hisLeaf.trans hleaf⟩

/-! ## The two writes -/

/-- With both neighbours on their pages, `unlink_leaf` links them to each other. -/
theorem unlinkLeaf_relinks {framed : ℕ → Bool} (hfirst : framed 0 = true)
    (hsecond : framed 1 = true) (hleaf : pages leafPage = some leaf)
    (hisLeaf : leaf.header.isLeaf = true) (hprev : pages leaf.header.previousLeafPage = some prev)
    (hnext : pages leaf.header.nextLeafPage = some node) :
    ∃ pages', unlinkLeaf framed pages leafPage = (pages', .ok ()) ∧
      Relinked pages pages' leaf.header.previousLeafPage leaf.header.nextLeafPage := by
  -- The second fetch sees the first write if the neighbours are one page.
  obtain ⟨node', hnode'⟩ : ∃ node', Function.update pages leaf.header.previousLeafPage
      (some (prev.setNextLeaf leaf.header.nextLeafPage)) leaf.header.nextLeafPage =
        some node' := by
    by_cases hsame : leaf.header.nextLeafPage = leaf.header.previousLeafPage
    · rw [hsame]
      exact ⟨_, Function.update_self ..⟩
    · exact ⟨node, (Function.update_of_ne hsame ..).trans hnext⟩
  refine ⟨_, ?_, relinked_update hprev hnode'⟩
  unfold unlinkLeaf fetchNode
  simp only [hleaf, hisLeaf, hfirst, hsecond, hprev, hnode', if_true, Bool.true_eq_false,
    if_false]
  rfl

/-- The neighbours of a leaf in the ring, and the ring without it. -/
theorem LeafRing.remove {before after : List ℤ}
    (h : LeafRing pages (before ++ leafPage :: after)) :
    ∃ leaf prev next, pages leafPage = some leaf ∧ leaf.header.isLeaf = true ∧
      pages leaf.header.previousLeafPage = some prev ∧ prev.header.nextLeafPage = leafPage ∧
      pages leaf.header.nextLeafPage = some next ∧ leaf.header.nextLeafPage ≠ leafPage ∧
      ∀ pages', Relinked pages pages' leaf.header.previousLeafPage leaf.header.nextLeafPage →
        LeafRing pages' (before ++ after) := by
  obtain ⟨leaf, hleaf, hisLeaf⟩ := h.leaf leafPage (by simp)
  obtain ⟨prevPage, nextPage, hne, hprev, hnext, hback, hforth, hring⟩ := h.ring.remove
  obtain ⟨leaf', hleaf', rfl⟩ := prevLeaf_eq_some.mp hprev
  obtain rfl : leaf = leaf' := by simpa [hleaf] using hleaf'
  obtain ⟨leaf', hleaf', rfl⟩ := nextLeaf_eq_some.mp hnext
  obtain rfl : leaf = leaf' := by simpa [hleaf] using hleaf'
  obtain ⟨prev, hprev, hprevNext⟩ := nextLeaf_eq_some.mp hback
  obtain ⟨next, hnext, -⟩ := prevLeaf_eq_some.mp hforth
  refine ⟨leaf, prev, next, hleaf, hisLeaf, hprev, hprevNext, hnext, hne,
    fun pages' hrelinked => ?_⟩
  refine ⟨by rwa [hrelinked.next, hrelinked.prev], fun page hpage => ?_⟩
  obtain ⟨node, hnode, hnodeLeaf⟩ := h.leaf page (by
    simp only [List.mem_append, List.mem_cons] at hpage ⊢
    exact hpage.imp_right .inr)
  exact hrelinked.exists_leaf hnode hnodeLeaf

/-- `unlink_leaf` takes a leaf out of the ring. The other leaves form a ring in the order that they
had; of all that is on the pages, the links of the neighbours to the leaf have changed. -/
theorem unlinkLeaf_removes {framed : ℕ → Bool} (hframed : ∀ fetch, framed fetch = true)
    (hring : LeafRing pages leaves) (hmem : leafPage ∈ leaves) :
    ∃ pages' prevPage nextPage, unlinkLeaf framed pages leafPage = (pages', .ok ()) ∧
      LeafRing pages' (leaves.erase leafPage) ∧ pages.prevLeaf leafPage = some prevPage ∧
      pages.nextLeaf leafPage = some nextPage ∧ Relinked pages pages' prevPage nextPage := by
  obtain ⟨before, after, rfl⟩ := List.append_of_mem hmem
  have hbefore : leafPage ∉ before := fun h =>
    (List.disjoint_of_nodup_append hring.ring.forth.nodup.of_cons) h List.mem_cons_self
  obtain ⟨leaf, prev, next, hleaf, hisLeaf, hprev, -, hnext, -, hremove⟩ := hring.remove
  obtain ⟨pages', hrun, hrelinked⟩ :=
    unlinkLeaf_relinks (hframed 0) (hframed 1) hleaf hisLeaf hprev hnext
  refine ⟨pages', _, _, hrun, ?_, prevLeaf_eq_some.mpr ⟨leaf, hleaf, rfl⟩,
    nextLeaf_eq_some.mpr ⟨leaf, hleaf, rfl⟩, hrelinked⟩
  rw [List.erase_append_right _ hbefore, List.erase_cons_head]
  exact hremove pages' hrelinked

end Links

theorem leafRing_staleTree : LeafRing staleTree [3, 4] where
  ring := ⟨⟨by decide, by decide⟩, ⟨by decide, by decide⟩⟩
  leaf page hpage := by
    obtain rfl | rfl : page = 3 ∨ page = 4 := by simpa using hpage
    · exact ⟨_, rfl, rfl⟩
    · exact ⟨_, rfl, rfl⟩

/-- The left leaf is taken out, and after it the right one, which is the last. -/
theorem unlinkLeaf_removes_staleTree :
    ∃ pages' pages'', unlinkLeaf (fun _ => true) staleTree 3 = (pages', .ok ()) ∧
      LeafRing pages' [4] ∧ unlinkLeaf (fun _ => true) pages' 4 = (pages'', .ok ()) ∧
      LeafRing pages'' [] := by
  obtain ⟨pages', _, _, hrun, hring, -⟩ :=
    unlinkLeaf_removes (fun _ => rfl) leafRing_staleTree (List.mem_cons_self ..)
  obtain ⟨pages'', _, _, hrun', hring', -⟩ :=
    unlinkLeaf_removes (fun _ => rfl) hring (List.mem_singleton_self 4)
  exact ⟨pages', pages'', hrun, hring, hrun', hring'⟩

/-! ## Failures -/

section Failures

variable {pages pages' : IndexPages keyLength} {leaves : List ℤ} {leafPage : ℤ}
  {framed : ℕ → Bool}

/-- When a fetch finds no frame, `unlink_leaf` leaves the pages as they were; that the page before
the leaf can be fetched again for this is assumed. -/
theorem unlinkLeaf_rollsBack (hring : LeafRing pages leaves) (hmem : leafPage ∈ leaves)
    (hfail : framed 0 = false ∨ framed 1 = false ∧ framed 2 = true) :
    ∃ message, unlinkLeaf framed pages leafPage = (pages, .error (.internalError message)) := by
  obtain ⟨before, after, rfl⟩ := List.append_of_mem hmem
  obtain ⟨leaf, prev, next, hleaf, hisLeaf, hprev, hprevNext, -⟩ := hring.remove
  have hback : (prev.setNextLeaf leaf.header.nextLeafPage).setNextLeaf leafPage = prev := by
    rw [← hprevNext]
    rfl
  unfold unlinkLeaf fetchNode
  cases hfirst : framed 0 with
  | false =>
    simp only [hleaf, hisLeaf, Bool.true_eq_false, Bool.false_eq_true, if_false]
    exact ⟨_, rfl⟩
  | true =>
    obtain ⟨hsecond, hagain⟩ : framed 1 = false ∧ framed 2 = true := by
      simpa [hfirst] using hfail
    simp only [hleaf, hisLeaf, hprev, hsecond, hagain, Function.update_self, Function.update_idem,
      hback, Bool.true_eq_false, Bool.false_eq_true, if_true, if_false]
    rw [← hprev, Function.update_eq_self]
    exact ⟨_, rfl⟩

/-- When the page before the leaf cannot be fetched again, its new link stays: the leaf is out of
the chain in one direction. -/
theorem unlinkLeaf_halfway (hring : LeafRing pages leaves) (hmem : leafPage ∈ leaves)
    (hfirst : framed 0 = true) (hsecond : framed 1 = false) (hagain : framed 2 = false) :
    ∃ pages' message prevPage,
      unlinkLeaf framed pages leafPage = (pages', .error (.internalError message)) ∧
      pages.nextLeaf prevPage = some leafPage ∧ pages'.nextLeaf prevPage ≠ some leafPage := by
  obtain ⟨before, after, rfl⟩ := List.append_of_mem hmem
  obtain ⟨leaf, prev, next, hleaf, hisLeaf, hprev, hprevNext, hnext, hne, -⟩ := hring.remove
  have hrun : unlinkLeaf framed pages leafPage =
      (Function.update pages leaf.header.previousLeafPage
        (some (prev.setNextLeaf leaf.header.nextLeafPage)),
        .error (.internalError
          (text "unlink_leaf failed to fetch next leaf; previous link rolled back"))) := by
    unfold unlinkLeaf fetchNode
    simp only [hleaf, hisLeaf, hfirst, hprev, hsecond, hagain, Bool.true_eq_false,
      Bool.false_eq_true, if_true, if_false]
    rfl
  refine ⟨_, _, leaf.header.previousLeafPage, hrun, nextLeaf_eq_some.mpr ⟨prev, hprev, hprevNext⟩,
    fun hlink => ?_⟩
  obtain ⟨node, hnode, hnext⟩ := nextLeaf_eq_some.mp hlink
  rw [Function.update_self] at hnode
  obtain rfl := Option.some.inj hnode
  exact hne hnext

/-- With both neighbours fetched, nothing fails. -/
theorem framed_of_error (hring : LeafRing pages leaves) (hmem : leafPage ∈ leaves)
    (hfirst : framed 0 = true) {e : Error}
    (hrun : unlinkLeaf framed pages leafPage = (pages', .error e)) : framed 1 = false := by
  obtain ⟨before, after, rfl⟩ := List.append_of_mem hmem
  obtain ⟨leaf, prev, next, hleaf, hisLeaf, hprev, -, hnext, -⟩ := hring.remove
  by_contra hsecond
  obtain ⟨_, hok, -⟩ := unlinkLeaf_relinks hfirst (by simpa using hsecond) hleaf hisLeaf hprev hnext
  exact absurd (Prod.mk.inj (hrun.symm.trans hok)).2 nofun

/-- After a failure the links are as before, except when the page before the leaf could be fetched
the first time only. -/
theorem unlinkLeaf_error_links_iff (hring : LeafRing pages leaves) (hmem : leafPage ∈ leaves)
    {e : Error} (hrun : unlinkLeaf framed pages leafPage = (pages', .error e)) :
    (pages'.nextLeaf = pages.nextLeaf ∧ pages'.prevLeaf = pages.prevLeaf) ↔
      ¬(framed 0 = true ∧ framed 1 = false ∧ framed 2 = false) := by
  constructor
  · rintro ⟨hnext, -⟩ ⟨hfirst, hsecond, hagain⟩
    obtain ⟨pages₁, message, prevPage, hrun₁, hbefore, hbehind⟩ :=
      unlinkLeaf_halfway hring hmem hfirst hsecond hagain
    obtain ⟨rfl, -⟩ := Prod.mk.inj (hrun.symm.trans hrun₁)
    rw [hnext] at hbehind
    exact hbehind hbefore
  · intro hframed
    have hfail : framed 0 = false ∨ framed 1 = false ∧ framed 2 = true := by
      cases hfirst : framed 0 with
      | false => exact .inl rfl
      | true =>
        have hsecond := framed_of_error hring hmem hfirst hrun
        exact .inr ⟨hsecond, by simpa [hfirst, hsecond] using hframed⟩
    obtain ⟨message, hback⟩ := unlinkLeaf_rollsBack hring hmem hfail
    obtain ⟨rfl, -⟩ := Prod.mk.inj (hrun.symm.trans hback)
    exact ⟨rfl, rfl⟩

end Failures

/-- Of the neighbours of the left leaf only the sentinel is fetched, and again. -/
theorem unlinkLeaf_error_links_staleTree :
    ∃ e pages', unlinkLeaf (fun fetch => fetch != 1) staleTree 3 = (pages', .error e) ∧
      pages'.nextLeaf = staleTree.nextLeaf ∧ pages'.prevLeaf = staleTree.prevLeaf := by
  have hmem : (3 : ℤ) ∈ [3, 4] := by decide
  have hrolled : ∃ message, unlinkLeaf (fun fetch => fetch != 1) staleTree 3 =
      (staleTree, .error (.internalError message)) :=
    unlinkLeaf_rollsBack leafRing_staleTree hmem (.inr ⟨rfl, rfl⟩)
  obtain ⟨message, hrun⟩ := hrolled
  exact ⟨_, _, hrun, (unlinkLeaf_error_links_iff leafRing_staleTree hmem hrun).mpr (by decide)⟩

/-- Only the sentinel before the left leaf is fetched, and only once: it leads to the right leaf
then, although the message says that the link was set back. -/
theorem unlinkLeaf_error_halfway_staleTree :
    ∃ pages', unlinkLeaf (fun fetch => fetch == 0) staleTree 3 =
        (pages', .error (.internalError
          (text "unlink_leaf failed to fetch next leaf; previous link rolled back"))) ∧
      staleTree.nextLeaf indexLeafHeaderPage = some 3 ∧
      pages'.nextLeaf indexLeafHeaderPage = some 4 :=
  ⟨_, rfl, rfl, rfl⟩

end IndexPages

end Rucbase
