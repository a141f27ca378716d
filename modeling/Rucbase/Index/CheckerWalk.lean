import Rucbase.Index.CheckerChecks
import Mathlib.Data.Finset.Range

/-!
# The walk of the checker through an index

If the walk has reported nothing, it has gone through a subtree, and its state is the one from
before with the pages and the leaves of this subtree added; conversely a subtree is walked through
without a report (`visit_walked`). The induction is on the bound of the recursion: the pages that
are not visited yet are fewer than the bound, and each visit leaves fewer of them.
-/

namespace Rucbase.Checker

open Lib

variable {c : Checker}

/-! ## What a walk explores -/

/-- What `visit` returns for a subtree. -/
def Shape.summary (shape : Shape) : Option SubtreeSummary := summarize shape.keys

/-- What `visit` keeps of a leaf. -/
def leafSnapshot (leaf : Leaf) : LeafSnapshot :=
  ⟨leaf.pageNo, leaf.node.previousLeafPage, leaf.node.nextLeafPage⟩

/-- The state behind a walk through a subtree with leaves at the depth, when nothing is reported. -/
def State.explore (s : State) (shape : Shape) (depth : ℕ) : State :=
  { s with
    visitedPages := s.visitedPages ∪ shape.pages.toFinset
    leaves := s.leaves ++ shape.leaves.map leafSnapshot
    leafDepth := if shape.leaves = [] then s.leafDepth else some depth }

/-- The subtree, with leaves at the depth, can be explored in the state: its pages are different and
not visited yet, and its leaves are as deep as those that were seen before. -/
structure State.Fits (s : State) (shape : Shape) (depth : ℕ) : Prop where
  nodup : shape.pages.Nodup
  fresh : ∀ page ∈ shape.pages, page ∉ s.visitedPages
  depth_eq : shape.leaves ≠ [] → ∀ leafDepth, s.leafDepth = some leafDepth → leafDepth = depth

section Explore

variable {s : State} {first below : Shape} {shapes : List Shape} {depth : ℕ} {pageNo : ℤ}

theorem explore_nil (s : State) (depth : ℕ) : s.explore (.concat []) depth = s := by
  simp [State.explore, Shape.concat]

theorem explore_cons (hleaves : first.leaves ≠ []) :
    (s.explore first depth).explore (.concat shapes) depth =
      s.explore (.concat (first :: shapes)) depth := by
  ext1
  · rfl
  · simp [State.explore, Shape.concat, Finset.union_assoc]
  · rfl
  · simp [State.explore, Shape.concat]
  · simp [State.explore, Shape.concat, hleaves]

theorem fits_nil (s : State) (depth : ℕ) : s.Fits (.concat []) depth where
  nodup := by simp [Shape.concat]
  fresh := by simp [Shape.concat]
  depth_eq := by simp [Shape.concat]

/-- Shapes one behind the other fit when the first does, and the others behind it. -/
theorem fits_cons (hleaves : first.leaves ≠ []) :
    s.Fits (.concat (first :: shapes)) depth ↔
      s.Fits first depth ∧ (s.explore first depth).Fits (.concat shapes) depth := by
  have hpages : (Shape.concat (first :: shapes)).pages =
      first.pages ++ (Shape.concat shapes).pages := List.flatMap_cons
  have hall : (Shape.concat (first :: shapes)).leaves ≠ [] := by
    simp [Shape.concat, hleaves]
  have hvisited : ∀ page, page ∈ (s.explore first depth).visitedPages ↔
      page ∈ s.visitedPages ∨ page ∈ first.pages := by
    simp [State.explore]
  constructor
  · rintro ⟨hnodup, hfresh, hdepth⟩
    rw [hpages] at hnodup hfresh
    obtain ⟨hfirst, hrest, hdisjoint⟩ := List.nodup_append.mp hnodup
    refine ⟨⟨hfirst, fun page hpage => hfresh page (List.mem_append_left _ hpage), ?_⟩,
      ⟨hrest, fun page hpage => ?_, fun _ leafDepth hleaf => ?_⟩⟩
    · exact fun _ => hdepth hall
    · rw [hvisited, not_or]
      exact ⟨hfresh page (List.mem_append_right _ hpage),
        fun hmem => hdisjoint page hmem page hpage rfl⟩
    · simpa [State.explore, hleaves, eq_comm] using hleaf
  · rintro ⟨⟨hfirst, hfresh, hdepth⟩, ⟨hrest, hfreshRest, -⟩⟩
    refine ⟨?_, ?_, fun _ => hdepth hleaves⟩
    · rw [hpages, List.nodup_append]
      refine ⟨hfirst, hrest, ?_⟩
      rintro page hpage _ hpage' rfl
      exact hfreshRest page hpage' ((hvisited page).mpr (.inr hpage))
    · rw [hpages]
      intro page hpage
      rcases List.mem_append.mp hpage with hpage | hpage
      · exact hfresh page hpage
      · exact fun hmem => hfreshRest page hpage ((hvisited page).mpr (.inl hmem))

/-- A node is explored by entering it, exploring what is below it, and leaving it. -/
theorem explore_node (hactive : pageNo ∉ s.activePages) :
    ((s.enter pageNo).explore below depth).leave pageNo = s.explore (.node pageNo below) depth := by
  ext1
  · rfl
  · simp [State.explore, State.leave, State.enter, Shape.node, Finset.insert_union,
      Finset.union_insert]
  · exact Finset.erase_insert hactive
  · rfl
  · rfl

theorem fits_node : s.Fits (.node pageNo below) depth ↔
    pageNo ∉ s.visitedPages ∧ (s.enter pageNo).Fits below depth := by
  constructor
  · rintro ⟨hnodup, hfresh, hdepth⟩
    obtain ⟨hpage, hbelow⟩ := List.nodup_cons.mp hnodup
    obtain ⟨hvisited, hfresh⟩ := List.forall_mem_cons.mp hfresh
    refine ⟨hvisited, hbelow, fun page hmem => ?_, hdepth⟩
    rw [State.enter, Finset.mem_insert, not_or]
    exact ⟨fun heq => hpage (heq ▸ hmem), hfresh page hmem⟩
  · rintro ⟨hvisited, hbelow, hfresh, hdepth⟩
    have hother : ∀ page ∈ below.pages, page ≠ pageNo ∧ page ∉ s.visitedPages := by
      intro page hpage
      have hnew := hfresh page hpage
      rwa [State.enter, Finset.mem_insert, not_or] at hnew
    refine ⟨List.nodup_cons.mpr ⟨fun hmem => (hother pageNo hmem).1 rfl, hbelow⟩, ?_, hdepth⟩
    exact List.forall_mem_cons.mpr ⟨hvisited, fun page hpage => (hother page hpage).2⟩

end Explore

/-! ## Subtrees -/

section Subtree

variable {pageNo parent : ℤ} {page : Bytes} {height : ℕ} {shape : Shape} {shapes : List Shape}

/-- The slots of an internal node. -/
def slots (c : Checker) (page : Bytes) : List (Bytes × ℤ) :=
  (c.snapshotOf page).keys.zip (c.snapshotOf page).children

theorem length_keys (c : Checker) (page : Bytes) :
    (c.snapshotOf page).keys.length = (c.snapshotOf page).size.toNat := by
  rw [keys_snapshotOf, List.length_map, List.length_range]

theorem length_children (hleaf : (c.snapshotOf page).isLeaf = false) :
    (c.snapshotOf page).children.length = (c.snapshotOf page).size.toNat := by
  have hheader : (IndexPageHeader.ofPage page).isLeaf = false := hleaf
  unfold snapshotOf
  dsimp only
  rw [hheader, if_neg Bool.false_ne_true, List.length_map, List.length_range]

theorem length_slots (hleaf : (c.snapshotOf page).isLeaf = false) :
    (c.slots page).length = (c.snapshotOf page).size.toNat := by
  rw [slots, List.length_zip, length_keys, length_children hleaf, Nat.min_self]

/-- Every node but a root that is a leaf has two entries. -/
theorem NodeAt.two_le_size (h : c.Readable) (hnode : c.NodeAt pageNo parent page)
    (hother : pageNo ≠ c.header.rootPage ∨ (c.snapshotOf page).isLeaf = false) :
    2 ≤ (c.snapshotOf page).size := by
  by_cases hroot : pageNo = c.header.rootPage
  · exact hnode.two_le hroot (hother.resolve_left (not_not.mpr hroot))
  · have hmin := hnode.minimumSize_le hroot
    have horder := h.valid.treeOrder
    unfold minimumSize maximumSize at hmin
    omega

theorem NodeAt.slots_ne (h : c.Readable) (hnode : c.NodeAt pageNo parent page)
    (hleaf : (c.snapshotOf page).isLeaf = false) : c.slots page ≠ [] := by
  have htwo := hnode.two_le_size h (.inr hleaf)
  rw [← List.length_pos_iff, length_slots hleaf]
  omega

/-- A subtree begins with its root. -/
theorem Subtree.mem_pages (hsub : c.Subtree height pageNo parent shape) :
    pageNo ∈ shape.pages := by
  cases height with
  | zero =>
    obtain ⟨page, -, -, rfl⟩ := hsub
    exact List.mem_singleton.mpr rfl
  | succ height =>
    obtain ⟨page, shapes, -, -, -, rfl⟩ := hsub
    exact List.mem_cons_self

/-- A subtree has a leaf. -/
theorem Subtree.leaves_ne (h : c.Readable) (hsub : c.Subtree height pageNo parent shape) :
    shape.leaves ≠ [] := by
  induction height generalizing pageNo parent shape with
  | zero =>
    obtain ⟨page, -, -, rfl⟩ := hsub
    simp [Shape.leaf]
  | succ height ih =>
    obtain ⟨page, shapes, hnode, hleaf, hslots, rfl⟩ := hsub
    cases hslots' : c.slots page with
    | nil => exact absurd hslots' (hnode.slots_ne h hleaf)
    | cons slot slots =>
      rw [← Checker.slots, hslots'] at hslots
      obtain ⟨below, rest, ⟨hbelow, -⟩, -, rfl⟩ := List.forall₂_cons_left_iff.mp hslots
      simp [Shape.node, Shape.concat, ih hbelow]

/-- A subtree has a key, unless it is a root without entries. -/
theorem Subtree.keys_ne (h : c.Readable) (hsub : c.Subtree height pageNo parent shape)
    (hroot : pageNo ≠ c.header.rootPage) : shape.keys ≠ [] := by
  cases height with
  | zero =>
    obtain ⟨page, hnode, -, rfl⟩ := hsub
    have htwo := hnode.two_le_size h (.inl hroot)
    rw [Shape.leaf, ← List.length_pos_iff, length_keys]
    omega
  | succ height =>
    obtain ⟨page, shapes, hnode, hleaf, hslots, rfl⟩ := hsub
    cases hslots' : c.slots page with
    | nil => exact absurd hslots' (hnode.slots_ne h hleaf)
    | cons slot slots =>
      rw [← Checker.slots, hslots'] at hslots
      obtain ⟨below, rest, ⟨-, first, hfirst, -⟩, -, rfl⟩ := List.forall₂_cons_left_iff.mp hslots
      have hbelow : below.keys ≠ [] := by
        rintro hnil
        simp [hnil] at hfirst
      simp [Shape.node, Shape.concat, hbelow]

/-- What is held by some slots of a node has what all that a slot can hold has. -/
theorem forall_of_holds {subtree : ℤ → Shape → Prop} {slots : List (Bytes × ℤ)} {p : Shape → Prop}
    (hslots : List.Forall₂ (c.Holds subtree) slots shapes)
    (hp : ∀ slot below, c.Holds subtree slot below → p below) : ∀ below ∈ shapes, p below := by
  induction hslots with
  | nil => simp
  | cons hholds _ ih => exact List.forall_mem_cons.mpr ⟨hp _ _ hholds, ih⟩

/-- What the slots of a node hold has keys. -/
theorem keys_ne_of_holds {subtree : ℤ → Shape → Prop} {slots : List (Bytes × ℤ)}
    (hslots : List.Forall₂ (c.Holds subtree) slots shapes) :
    ∀ below ∈ shapes, below.keys ≠ [] := by
  refine forall_of_holds hslots fun slot below hholds hnil => ?_
  obtain ⟨-, first, hfirst, -⟩ := hholds
  simp [hnil] at hfirst

end Subtree

/-! ## The order of the keys below a node -/

/-- Two neighbouring children are in order, as far as their keys are known. -/
def Neighbours (c : Checker) (left right : Option SubtreeSummary) : Prop :=
  ∀ l ∈ left, ∀ r ∈ right, c.InOrder l.maximum r.minimum

/-- The keys of a summary have the index's length. -/
def SummaryKeys (c : Checker) (summary : Option SubtreeSummary) : Prop :=
  ∀ below ∈ summary, (below.minimum.length : ℤ) = c.header.keyLength ∧
    (below.maximum.length : ℤ) = c.header.keyLength

section Order

variable {shapes : List Shape}

variable {keys : List Bytes}

theorem summarize_eq_some {summary : SubtreeSummary} :
    summarize keys = some summary ↔
      keys.head? = some summary.minimum ∧ keys.getLast? = some summary.maximum := by
  unfold summarize
  cases keys with
  | nil => simp
  | cons key keys =>
    rw [List.head?_cons, List.getLast?_cons]
    simp only [Option.some.injEq]
    constructor
    · rintro rfl
      exact ⟨rfl, rfl⟩
    · rintro ⟨rfl, hmax⟩
      rw [hmax]

theorem exists_summarize (hne : keys ≠ []) : ∃ summary, summarize keys = some summary := by
  cases keys with
  | nil => exact absurd rfl hne
  | cons key keys => exact ⟨_, rfl⟩

theorem summaryKeys_summarize (hkeys : ∀ key ∈ keys, (key.length : ℤ) = c.header.keyLength) :
    c.SummaryKeys (summarize keys) := by
  intro below hbelow
  obtain ⟨hmin, hmax⟩ := summarize_eq_some.mp hbelow
  exact ⟨hkeys _ (List.mem_of_head? hmin), hkeys _ (List.mem_of_getLast? hmax)⟩

/-- The keys below a node are in order when those of each child are and neighbours are. -/
theorem isChain_concat (hne : ∀ below ∈ shapes, below.keys ≠ []) :
    (Shape.concat shapes).keys.IsChain c.InOrder ↔
      (∀ below ∈ shapes, below.keys.IsChain c.InOrder) ∧
        (shapes.map Shape.summary).IsChain c.Neighbours := by
  have hnil : [] ∉ shapes.map Shape.keys := by
    intro hmem
    obtain ⟨below, hbelow, heq⟩ := List.mem_map.mp hmem
    exact hne below hbelow heq
  have hneighbours : ∀ left right : Shape, c.Neighbours left.summary right.summary ↔
      ∀ l ∈ left.keys.getLast?, ∀ r ∈ right.keys.head?, c.InOrder l r := by
    intro left right
    unfold Neighbours Shape.summary
    constructor
    · intro h l hl r hr
      obtain ⟨lsum, hlsum⟩ := exists_summarize (List.ne_nil_of_mem (List.mem_of_getLast? hl))
      obtain ⟨rsum, hrsum⟩ := exists_summarize (List.ne_nil_of_mem (List.mem_of_head? hr))
      obtain rfl : lsum.maximum = l :=
        Option.some.inj ((summarize_eq_some.mp hlsum).2.symm.trans hl)
      obtain rfl : rsum.minimum = r :=
        Option.some.inj ((summarize_eq_some.mp hrsum).1.symm.trans hr)
      exact h lsum hlsum rsum hrsum
    · intro h l hl r hr
      exact h _ (summarize_eq_some.mp hl).2 _ (summarize_eq_some.mp hr).1
  have hflatten : (Shape.concat shapes).keys = (shapes.map Shape.keys).flatten := List.flatMap_def
  rw [hflatten, List.isChain_flatten hnil, List.isChain_map, List.isChain_map]
  simp only [List.forall_mem_map, hneighbours]

/-- The summary of a node is that of all keys below it. -/
theorem joinSummaries_concat (hne : ∀ below ∈ shapes, below.keys ≠ []) (hshapes : shapes ≠ []) :
    joinSummaries (shapes.map Shape.summary) = (Shape.concat shapes).summary := by
  -- The first key is that of the first child, and the last key that of the last child.
  obtain ⟨front, rest, rfl⟩ := List.exists_cons_of_ne_nil hshapes
  obtain ⟨init, back, hback⟩ : ∃ init back, front :: rest = init ++ [back] :=
    ⟨_, _, (List.dropLast_append_getLast hshapes).symm⟩
  obtain ⟨first, hfirst⟩ := exists_summarize (hne front List.mem_cons_self)
  obtain ⟨last, hlast⟩ := exists_summarize (hne back (by rw [hback]; simp))
  have hsummary : (Shape.concat (front :: rest)).summary = some ⟨first.minimum, last.maximum⟩ := by
    refine summarize_eq_some.mpr ⟨?_, ?_⟩
    · have hkeys : (Shape.concat (front :: rest)).keys = front.keys ++ (Shape.concat rest).keys :=
        List.flatMap_cons
      rw [hkeys, List.head?_append_of_ne_nil _ (hne front List.mem_cons_self)]
      exact (summarize_eq_some.mp hfirst).1
    · have hkeys : (Shape.concat (front :: rest)).keys = (Shape.concat init).keys ++ back.keys := by
        rw [hback]
        simp [Shape.concat]
      rw [hkeys, List.getLast?_append_of_ne_nil _ (hne back (by rw [hback]; simp))]
      exact (summarize_eq_some.mp hlast).2
  have hhead : ((front :: rest).map Shape.summary).head?.join = some first := hfirst
  have hend : ((front :: rest).map Shape.summary).getLast?.join = some last := by
    rw [hback, List.map_append, List.map_singleton, List.getLast?_concat]
    exact hlast
  rw [joinSummaries, hhead, hend, hsummary]

theorem summaryKeys_joinSummaries {summaries : List (Option SubtreeSummary)}
    (h : ∀ summary ∈ summaries, c.SummaryKeys summary) :
    c.SummaryKeys (joinSummaries summaries) := by
  intro below hbelow
  unfold joinSummaries at hbelow
  split at hbelow
  next front back hfront hback =>
    obtain rfl := Option.some.inj hbelow
    have hfirst := h _ (List.mem_of_head? (Option.join_eq_some_iff.mp hfront))
    have hlast := h _ (List.mem_of_getLast? (Option.join_eq_some_iff.mp hback))
    exact ⟨(hfirst front rfl).1, (hlast back rfl).2⟩
  next => simp at hbelow

/-! ## Checks of the children -/

theorem checkSeparator_checks (h : c.Readable) (path : Bytes) (i : ℕ) {key : Bytes} (child : ℤ)
    {summary : Option SubtreeSummary} (hkey : (key.length : ℤ) = c.header.keyLength)
    (hsummary : c.SummaryKeys summary) :
    Checks (c.checkSeparator path i key child summary)
      (∀ below ∈ summary, c.keyOrder key below.minimum = 0) := by
  cases summary with
  | none => exact checks_pure.congr (by simp)
  | some below =>
    have hrun := h.compareKeys hkey (hsummary below rfl).1
    exact Checks.after hrun ((checks_addIf _ _).congr (by simp))

theorem checkNeighbours_checks (h : c.Readable) (path : Bytes) (previous child : ℤ)
    {left right : Option SubtreeSummary} (hleft : c.SummaryKeys left)
    (hright : c.SummaryKeys right) :
    Checks (c.checkNeighbours path previous child left right) (c.Neighbours left right) := by
  unfold Neighbours
  match left, right with
  | none, _ => exact checks_pure.congr (by simp)
  | some _, none => exact checks_pure.congr (by simp)
  | some left, some right =>
    obtain ⟨wrong, hwrong, hrun⟩ := h.outOfOrder (hleft left rfl).2 (hright right rfl).1
    refine Checks.after hrun ((checks_addIf _ _).congr ?_)
    rw [hwrong, not_not]
    simp

theorem checkChildOrder_checks (h : c.Readable) (path : Bytes)
    {children : List (ℤ × Option SubtreeSummary)}
    (hkeys : ∀ child ∈ children, c.SummaryKeys child.2) :
    Checks (c.checkChildOrder path children) ((children.map Prod.snd).IsChain c.Neighbours) := by
  induction children with
  | nil => exact checks_pure.congr (by simp)
  | cons previous children ih =>
    cases children with
    | nil => exact checks_pure.congr (by simp)
    | cons child children =>
      obtain ⟨hprevious, hkeys⟩ := List.forall_mem_cons.mp hkeys
      have hchild := hkeys child List.mem_cons_self
      refine ((checkNeighbours_checks h path previous.1 child.1 hprevious hchild).seq
        (ih hkeys)).congr ?_
      simp only [List.map_cons, List.isChain_cons_cons]

end Order

/-! ## The walk -/

/-- Nothing is reported so far, and the pages that the walk is in are visited. -/
structure State.Clean (s : State) : Prop where
  violations : s.violations = []
  active : s.activePages ⊆ s.visitedPages

/-- What a walk that begins at a depth does to the state. When nothing is reported, it has explored
a shape of the tree whose keys are in order, and any such shape that fits is explored. -/
structure Walked (c : Checker) (tree : ℕ → Shape → Prop) (depth : ℕ) (s : State)
    (summary : Option SubtreeSummary) (s' : State) : Prop where
  visited : s.visitedPages ⊆ s'.visitedPages
  summaryKeys : c.SummaryKeys summary
  clean : s'.violations = [] → s.violations = [] ∧ ∃ height shape,
    tree height shape ∧ shape.keys.IsChain c.InOrder ∧ s.Fits shape (depth + height) ∧
      s' = s.explore shape (depth + height) ∧ summary = shape.summary
  explored : s.Clean → ∀ height shape, tree height shape → shape.keys.IsChain c.InOrder →
    s.Fits shape (depth + height) →
      s' = s.explore shape (depth + height) ∧ summary = shape.summary

/-- What the visits of the children in some slots of a node do to the state. -/
structure WalkedBelow (c : Checker) (parent : ℤ) (depth : ℕ) (slots : List (Bytes × ℤ)) (s : State)
    (summaries : List (Option SubtreeSummary)) (s' : State) : Prop where
  visited : s.visitedPages ⊆ s'.visitedPages
  length : summaries.length = slots.length
  summaryKeys : ∀ summary ∈ summaries, c.SummaryKeys summary
  clean : s'.violations = [] → s.violations = [] ∧ ∃ height shapes,
    List.Forall₂ (c.Holds fun child below => c.Subtree height child parent below) slots shapes ∧
      (∀ below ∈ shapes, below.keys.IsChain c.InOrder) ∧
      s.Fits (.concat shapes) (depth + height) ∧ s' = s.explore (.concat shapes) (depth + height) ∧
      summaries = shapes.map Shape.summary
  explored : s.Clean → ∀ height shapes,
    List.Forall₂ (c.Holds fun child below => c.Subtree height child parent below) slots shapes →
    (∀ below ∈ shapes, below.keys.IsChain c.InOrder) →
    s.Fits (.concat shapes) (depth + height) →
      s' = s.explore (.concat shapes) (depth + height) ∧ summaries = shapes.map Shape.summary

/-- The number of pages that may still be visited. -/
def unvisited (c : Checker) (s : State) : ℕ :=
  ((Finset.range c.highWaterPage.toNat).filter fun n : ℕ => (n : ℤ) ∉ s.visitedPages).card

section Walk

variable {pageNo parent child : ℤ} {depth : ℕ} {s s' : State} {path : Bytes} {i : ℕ}

theorem State.Clean.explore (h : s.Clean) (shape : Shape) (depth : ℕ) :
    (s.explore shape depth).Clean :=
  ⟨h.violations, h.active.trans Finset.subset_union_left⟩

theorem State.Clean.enter (h : s.Clean) (pageNo : ℤ) : (s.enter pageNo).Clean :=
  ⟨h.violations, Finset.insert_subset_insert pageNo h.active⟩

/-- A check that reports nothing leaves the state as it is. -/
theorem State.set_violations {violations : List Bytes} (h : violations = s.violations) :
    ({ s with violations := violations } : State) = s := by
  rw [h]

theorem unvisited_mono (h : s.visitedPages ⊆ s'.visitedPages) :
    c.unvisited s' ≤ c.unvisited s :=
  Finset.card_le_card (Finset.monotone_filter_right _ fun _ _ hn hmem => hn (h hmem))

/-- Entering a page leaves fewer pages. -/
theorem unvisited_enter (hvalid : c.validTreePage pageNo = true) (hpage : pageNo ∉ s.visitedPages) :
    c.unvisited (s.enter pageNo) < c.unvisited s := by
  rw [validTreePage, Bool.and_eq_true, decide_eq_true_iff, decide_eq_true_iff] at hvalid
  obtain ⟨hlow, hhigh⟩ := hvalid
  unfold indexInitialRootPage at hlow
  have hcast : (pageNo.toNat : ℤ) = pageNo := by omega
  refine Finset.card_lt_card ⟨?_, fun hsubset => ?_⟩
  · exact Finset.monotone_filter_right _ fun _ _ hn hmem => hn (Finset.mem_insert_of_mem hmem)
  · have hmem := hsubset (Finset.mem_filter.mpr
      ⟨Finset.mem_range.mpr (by omega : pageNo.toNat < _), by rwa [hcast]⟩)
    have hnew := (Finset.mem_filter.mp hmem).2
    rw [hcast] at hnew
    exact hnew (Finset.mem_insert_self _ _)

theorem visitLeaf_run (c : Checker) (pageNo : ℤ) (depth : ℕ) (path : Bytes)
    (snapshot : NodeSnapshot) (s : State) : ∃ violations,
      c.visitLeaf pageNo depth path snapshot s = (.ok (summarize snapshot.keys),
        { s with
          violations := violations
          leaves := s.leaves ++ [⟨pageNo, snapshot.previousLeaf, snapshot.nextLeaf⟩]
          leafDepth := some (s.leafDepth.getD depth) }) ∧
      (violations = [] ↔ s.violations = [] ∧
        (∀ leafDepth, s.leafDepth = some leafDepth → leafDepth = depth) ∧
        (pageNo ≠ c.header.rootPage → snapshot.size ≠ 0)) := by
  have hdepth : ∃ violations, checkLeafDepth pageNo depth path s =
        (.ok (), { s with violations := violations, leafDepth := some (s.leafDepth.getD depth) }) ∧
      (violations = [] ↔ s.violations = [] ∧
        ∀ leafDepth, s.leafDepth = some leafDepth → leafDepth = depth) := by
    unfold checkLeafDepth
    rw [Effect.bind_of_ok (Effect.get_apply s)]
    cases hleaf : s.leafDepth with
    | none => exact ⟨s.violations, rfl, by simp⟩
    | some leafDepth =>
      obtain ⟨violations, hrun, hiff⟩ := checks_addIf (leafDepth ≠ depth)
        (path ++ text ": leaf page " ++ stdToString pageNo ++ text " is at depth " ++
          stdToString depth ++ text ", expected " ++ stdToString leafDepth) s
      refine ⟨violations, hrun.trans ?_, by simpa using hiff⟩
      rw [Option.getD_some, ← hleaf]
  obtain ⟨violations, hrun, hiff⟩ := hdepth
  unfold visitLeaf
  rw [Effect.bind_of_ok hrun]
  obtain ⟨violations', hrun', hiff'⟩ := checks_addIf
    (pageNo ≠ c.header.rootPage ∧ snapshot.size = 0) (path ++ text ": a non-root leaf is empty")
    { s with violations := violations, leafDepth := some (s.leafDepth.getD depth) }
  rw [Effect.bind_of_ok hrun']
  refine ⟨violations', rfl, ?_⟩
  rw [hiff', hiff, and_assoc, not_and]

variable {bound : ℕ} {visitChild : ℤ → Bytes → CheckM (Option SubtreeSummary)} {page : Bytes}

/-- A visit of any child, as long as fewer pages than the bound may still be visited. -/
def Visits (c : Checker) (bound : ℕ) (parent : ℤ) (depth : ℕ)
    (visitChild : ℤ → Bytes → CheckM (Option SubtreeSummary)) : Prop :=
  ∀ child path s, c.unvisited s < bound → c.header.rootPage ∈ s.visitedPages →
    Effect.Returns (visitChild child path) s (c.Walked (c.Subtree · child parent ·) depth s)

/-- The loop over the children, when a visit of each of them is known. -/
theorem visitChildren_walked (h : c.Readable)
    (hvisit : c.Visits bound parent depth visitChild) (path : Bytes) (i : ℕ)
    {slots : List (Bytes × ℤ)}
    (hkeys : ∀ slot ∈ slots, (slot.1.length : ℤ) = c.header.keyLength)
    (hbound : c.unvisited s < bound) (hroot : c.header.rootPage ∈ s.visitedPages) :
    Effect.Returns (c.visitChildren visitChild path i slots) s
      (c.WalkedBelow parent depth slots s) := by
  induction slots generalizing i s with
  | nil =>
    unfold visitChildren
    rw [Effect.returns_pure]
    refine ⟨subset_rfl, rfl, by simp, fun hclean => ⟨hclean, 0, [], .nil, by simp, ?_, ?_, rfl⟩, ?_⟩
    · exact fits_nil s _
    · exact (explore_nil s _).symm
    · intro _ height shapes hslots _ _
      obtain rfl := List.forall₂_nil_left_iff.mp hslots
      exact ⟨(explore_nil s _).symm, rfl⟩
  | cons slot slots ih =>
    obtain ⟨key, child⟩ := slot
    obtain ⟨hkey, hkeys⟩ := List.forall_mem_cons.mp hkeys
    unfold visitChildren
    refine (hvisit child _ s hbound hroot).bind fun summary s₁ hfirst => ?_
    -- The check of the separator changes the report only.
    obtain ⟨violations, hcheck, hiff⟩ :=
      checkSeparator_checks h path i child hkey hfirst.summaryKeys s₁
    rw [Effect.returns_bind, Effect.returns_of_eq hcheck]
    have hrest := ih (s := { s₁ with violations := violations }) (i + 1) hkeys
      ((unvisited_mono hfirst.visited).trans_lt hbound) (hfirst.visited hroot)
    refine hrest.bind fun summaries s₂ hrest => ?_
    rw [Effect.returns_pure]
    refine ⟨hfirst.visited.trans hrest.visited, ?_, ?_, fun hclean => ?_, ?_⟩
    · rw [List.length_cons, List.length_cons, hrest.length]
    · exact List.forall_mem_cons.mpr ⟨hfirst.summaryKeys, hrest.summaryKeys⟩
    · obtain ⟨hnil, height', shapes, hslots, hordered, hfits', hstate', hsummaries⟩ :=
        hrest.clean hclean
      obtain ⟨hnil₁, hseparator⟩ := hiff.mp hnil
      obtain ⟨hnil₀, height, shape, hsub, hchain, hfits, hstate, hsummary⟩ := hfirst.clean hnil₁
      rw [State.set_violations (Eq.trans hnil hnil₁.symm)] at hfits' hstate'
      subst hstate
      have hleaves := hsub.leaves_ne h
      -- The root was visited before, so this child is another page and has keys.
      have hother : child ≠ c.header.rootPage := by
        rintro rfl
        exact hfits.fresh _ hsub.mem_pages hroot
      obtain ⟨below, hbelow⟩ := exists_summarize (hsub.keys_ne h hother)
      have hholds : c.Holds (fun child below => c.Subtree height child parent below) (key, child)
          shape :=
        ⟨hsub, below.minimum, (summarize_eq_some.mp hbelow).1,
          hseparator below (hsummary.trans hbelow)⟩
      -- All leaves are at the depth of those of the first child.
      have hheight : shapes = [] ∨ height' = height := by
        cases hslots with
        | nil => exact .inl rfl
        | cons hholds' _ =>
          have hne := hholds'.1.leaves_ne h
          have hdepth := hfits'.depth_eq (by simp [Shape.concat, hne]) (depth + height)
            (by simp [State.explore, hleaves])
          exact .inr (by omega)
      have hslots' : List.Forall₂ (c.Holds fun child below => c.Subtree height child parent below)
          slots shapes ∧ (s.explore shape (depth + height)).Fits (.concat shapes) (depth + height) ∧
          s₂ = (s.explore shape (depth + height)).explore (.concat shapes) (depth + height) := by
        rcases hheight with rfl | rfl
        · obtain rfl := List.forall₂_nil_right_iff.mp hslots
          refine ⟨.nil, fits_nil _ _, ?_⟩
          rw [hstate', explore_nil, explore_nil]
        · exact ⟨hslots, hfits', hstate'⟩
      obtain ⟨hslots', hfits', hstate'⟩ := hslots'
      refine ⟨hnil₀, height, shape :: shapes, .cons hholds hslots',
        List.forall_mem_cons.mpr ⟨hchain, hordered⟩, ?_, ?_, ?_⟩
      · exact (fits_cons hleaves).mpr ⟨hfits, hfits'⟩
      · rw [hstate', explore_cons hleaves]
      · rw [hsummary, hsummaries, List.map_cons]
    · intro hclean height shapes hslots hordered hfits
      obtain ⟨shape, shapes, ⟨hsub, first, hmin, hseparator⟩, hslots', rfl⟩ :=
        List.forall₂_cons_left_iff.mp hslots
      obtain ⟨hchain, hordered⟩ := List.forall_mem_cons.mp hordered
      have hleaves := hsub.leaves_ne h
      obtain ⟨hfits, hfits'⟩ := (fits_cons hleaves).mp hfits
      obtain ⟨rfl, rfl⟩ := hfirst.explored hclean height shape hsub hchain hfits
      have hnil : violations = [] := by
        refine hiff.mpr ⟨hclean.violations, fun below hbelow => ?_⟩
        rwa [← Option.some.inj (hmin.symm.trans (summarize_eq_some.mp hbelow).1)]
      have hclean' := hclean.explore shape (depth + height)
      rw [State.set_violations (hnil.trans hclean'.violations.symm)] at hrest
      obtain ⟨hstate, hsummaries⟩ :=
        hrest.explored hclean' height shapes hslots' hordered hfits'
      exact ⟨by rw [hstate, explore_cons hleaves], by rw [hsummaries, List.map_cons]⟩

/-- What is below a page, seen from behind its entry. -/
def IsBelow (c : Checker) (pageNo parent : ℤ) (height : ℕ) (below : Shape) : Prop :=
  c.Subtree height pageNo parent (.node pageNo below)

/-- The shape below the page of a leaf, which has no pages. -/
def leafBelow (c : Checker) (pageNo : ℤ) (page : Bytes) : Shape :=
  ⟨[], [⟨pageNo, c.header.nodeOfPage page⟩], (c.snapshotOf page).keys⟩

theorem node_leafBelow (c : Checker) (pageNo : ℤ) (page : Bytes) :
    Shape.node pageNo (c.leafBelow pageNo page) =
      .leaf ⟨pageNo, c.header.nodeOfPage page⟩ (c.snapshotOf page).keys := by
  rw [leafBelow, Shape.node, Shape.leaf]

theorem keys_leafBelow (c : Checker) (pageNo : ℤ) (page : Bytes) :
    (c.leafBelow pageNo page).keys = (c.snapshotOf page).keys := by
  rw [leafBelow]

/-- A leaf adds itself to the leaves, and is as deep as all of them. -/
theorem explore_leafBelow {violations : List Bytes} (hnil : violations = s.violations)
    (hdepth : ∀ leafDepth, s.leafDepth = some leafDepth → leafDepth = depth) :
    ({ s with
      violations := violations
      leaves := s.leaves ++
        [⟨pageNo, (c.snapshotOf page).previousLeaf, (c.snapshotOf page).nextLeaf⟩]
      leafDepth := some (s.leafDepth.getD depth) } : State) =
      s.explore (c.leafBelow pageNo page) depth := by
  have hgetD : s.leafDepth.getD depth = depth := by
    cases hleafDepth : s.leafDepth with
    | none => rfl
    | some leafDepth => exact hdepth leafDepth hleafDepth
  unfold State.explore leafBelow
  rw [List.map_singleton, leafSnapshot, hnil, hgetD]
  simp [snapshotOf, IndexFileHeader.nodeOfPage]

theorem fits_leafBelow : s.Fits (c.leafBelow pageNo page) depth ↔
    ∀ leafDepth, s.leafDepth = some leafDepth → leafDepth = depth := by
  constructor
  · exact fun h => h.depth_eq (by simp [leafBelow])
  · exact fun h => ⟨by simp [leafBelow], by simp [leafBelow], fun _ => h⟩

theorem Shape.node_inj {below below' : Shape} (h : Shape.node pageNo below = .node pageNo below') :
    below = below' := by
  cases below
  cases below'
  simpa [Shape.node] using h

/-- A subtree has a node at its root. -/
theorem Subtree.root {height : ℕ} {shape : Shape} (hsub : c.Subtree height pageNo parent shape) :
    ∃ page below, c.NodeAt pageNo parent page ∧ shape = .node pageNo below := by
  cases height with
  | zero =>
    obtain ⟨page, hnode, -, rfl⟩ := hsub
    exact ⟨page, _, hnode, (c.node_leafBelow pageNo page).symm⟩
  | succ height =>
    obtain ⟨page, shapes, hnode, -, -, rfl⟩ := hsub
    exact ⟨page, _, hnode, rfl⟩

/-- The page at the root of a subtree decides what is below it. -/
theorem IsBelow.cases {height : ℕ} {below : Shape}
    (hsub : c.IsBelow pageNo parent height below)
    (hfetch : c.fetchPage pageNo = some page) : c.NodeAt pageNo parent page ∧
      ((c.snapshotOf page).isLeaf = true ∧ height = 0 ∧ below = c.leafBelow pageNo page ∨
        (c.snapshotOf page).isLeaf = false ∧ ∃ lower shapes, height = lower + 1 ∧
          List.Forall₂ (c.Holds fun child below => c.Subtree lower child pageNo below)
            (c.slots page) shapes ∧ below = .concat shapes) := by
  cases height with
  | zero =>
    obtain ⟨page', hnode, hleaf, hshape⟩ := hsub
    obtain rfl := Option.some.inj (hnode.fetch.symm.trans hfetch)
    rw [← node_leafBelow] at hshape
    exact ⟨hnode, .inl ⟨hleaf, rfl, Shape.node_inj hshape⟩⟩
  | succ lower =>
    obtain ⟨page', shapes, hnode, hleaf, hslots, hshape⟩ := hsub
    obtain rfl := Option.some.inj (hnode.fetch.symm.trans hfetch)
    exact ⟨hnode, .inr ⟨hleaf, lower, shapes, rfl, hslots, Shape.node_inj hshape⟩⟩

/-- A leaf, behind its own checks. -/
theorem visitLeaf_walked (h : c.Readable) {violations : List Bytes}
    (hreadable : c.ReadableAt indexInitialRootPage pageNo page)
    (hfine : violations = [] ↔ s.violations = [] ∧ c.Fine pageNo parent (c.snapshotOf page))
    (hleaf : (c.snapshotOf page).isLeaf = true) (path : Bytes) :
    Effect.Returns (c.visitLeaf pageNo depth path (c.snapshotOf page))
      { s with violations := violations } (c.Walked (c.IsBelow pageNo parent) depth s) := by
  obtain ⟨violations', hrun, hiff⟩ := c.visitLeaf_run pageNo depth path (c.snapshotOf page)
    { s with violations := violations }
  rw [Effect.returns_of_eq hrun]
  refine ⟨subset_rfl, ?_, fun hclean => ?_, fun hclean height below hsub _ hfits => ?_⟩
  · exact summaryKeys_summarize (h.length_key hreadable.fetch hreadable.le_maximumSize)
  · obtain ⟨hnil, hdepth, -⟩ := hiff.mp hclean
    obtain ⟨hnil₀, hfine⟩ := hfine.mp hnil
    have hnode := nodeAt_iff.mpr ⟨hreadable, hfine⟩
    have hsub : c.Subtree 0 pageNo parent (.node pageNo (c.leafBelow pageNo page)) :=
      ⟨page, hnode, hleaf, c.node_leafBelow pageNo page⟩
    have hordered := hfine.ordered
    rw [← c.keys_leafBelow pageNo page] at hordered
    refine ⟨hnil₀, 0, _, hsub, hordered, fits_leafBelow.mpr hdepth, ?_, ?_⟩
    · exact explore_leafBelow (Eq.trans hclean hnil₀.symm) hdepth
    · rw [Shape.summary, keys_leafBelow]
  · obtain ⟨hnode, ⟨-, rfl, rfl⟩ | ⟨hinternal, -⟩⟩ := hsub.cases hreadable.fetch
    · have hnil := hfine.mpr ⟨hclean.violations, (nodeAt_iff.mp hnode).2⟩
      have hdepth := fits_leafBelow.mp hfits
      have hsize : pageNo ≠ c.header.rootPage → (c.snapshotOf page).size ≠ 0 := by
        intro hroot
        have htwo := hnode.two_le_size h (.inl hroot)
        omega
      have hnil' := hiff.mpr ⟨hnil, hdepth, hsize⟩
      exact ⟨explore_leafBelow (hnil'.trans hclean.violations.symm) hdepth,
        by rw [Shape.summary, keys_leafBelow]⟩
    · simp [hleaf] at hinternal

/-- An internal node, behind its own checks. -/
theorem visitInternal_walked (h : c.Readable)
    (hvisit : c.Visits bound pageNo (depth + 1) visitChild) {violations : List Bytes}
    (hreadable : c.ReadableAt indexInitialRootPage pageNo page)
    (hfine : violations = [] ↔ s.violations = [] ∧ c.Fine pageNo parent (c.snapshotOf page))
    (hleaf : (c.snapshotOf page).isLeaf = false) (path : Bytes) (hbound : c.unvisited s < bound)
    (hroot : c.header.rootPage ∈ s.visitedPages) :
    Effect.Returns (c.visitInternal visitChild path (c.snapshotOf page))
      { s with violations := violations } (c.Walked (c.IsBelow pageNo parent) depth s) := by
  have hkeys : ∀ slot ∈ c.slots page, (slot.1.length : ℤ) = c.header.keyLength := fun _ hslot =>
    h.length_key hreadable.fetch hreadable.le_maximumSize _ (List.of_mem_zip hslot).1
  rw [visitInternal, ← slots]
  refine (visitChildren_walked (s := { s with violations := violations }) h hvisit path 0 hkeys
    hbound hroot).bind fun summaries s₁ hbelow => ?_
  have hlength : summaries.length ≤ (c.snapshotOf page).children.length := by
    rw [hbelow.length, length_slots hleaf, length_children hleaf]
  obtain ⟨violations', hcheck, hiff⟩ := checkChildOrder_checks h path
    (fun child hchild => hbelow.summaryKeys _ (List.of_mem_zip hchild).2) s₁
  rw [List.map_snd_zip hlength] at hiff
  rw [Effect.returns_bind, Effect.returns_of_eq hcheck, Effect.returns_pure]
  have hshapes : ∀ {height shapes}, c.NodeAt pageNo parent page →
      List.Forall₂ (c.Holds fun child below => c.Subtree height child pageNo below)
        (c.slots page) shapes → shapes ≠ [] := by
    rintro _ _ hnode hslots rfl
    exact hnode.slots_ne h hleaf (List.forall₂_nil_right_iff.mp hslots)
  refine ⟨hbelow.visited, summaryKeys_joinSummaries hbelow.summaryKeys, fun hclean => ?_,
    fun hclean height below hsub hordered hfits => ?_⟩
  · obtain ⟨hnil₁, hneighbours⟩ := hiff.mp hclean
    obtain ⟨hnil, height, shapes, hslots, hordered, hfits, rfl, rfl⟩ := hbelow.clean hnil₁
    obtain ⟨hnil₀, hown⟩ := hfine.mp hnil
    obtain rfl : violations = s.violations := hnil.trans hnil₀.symm
    have hnode := nodeAt_iff.mpr ⟨hreadable, hown⟩
    have hne := keys_ne_of_holds hslots
    -- The leaves are as deep seen from a child, which is lower and stands deeper.
    have hdeeper : depth + (height + 1) = depth + 1 + height := by omega
    refine ⟨hnil₀, height + 1, .concat shapes, ⟨page, shapes, hnode, hleaf, hslots, rfl⟩,
      (isChain_concat hne).mpr ⟨hordered, hneighbours⟩, hdeeper ▸ hfits, ?_,
      joinSummaries_concat hne (hshapes hnode hslots)⟩
    rw [State.set_violations (Eq.trans hclean hnil₁.symm), hdeeper]
  · obtain ⟨hnode, ⟨hother, -⟩ | ⟨-, height, shapes, rfl, hslots, rfl⟩⟩ :=
      hsub.cases hreadable.fetch
    · simp [hleaf] at hother
    · have hnil := hfine.mpr ⟨hclean.violations, (nodeAt_iff.mp hnode).2⟩
      obtain rfl : violations = s.violations := hnil.trans hclean.violations.symm
      have hne := keys_ne_of_holds hslots
      obtain ⟨hordered, hneighbours⟩ := (isChain_concat hne).mp hordered
      have hdeeper : depth + (height + 1) = depth + 1 + height := by omega
      rw [hdeeper] at hfits ⊢
      obtain ⟨rfl, rfl⟩ := hbelow.explored hclean height shapes hslots hordered hfits
      have hnil' := hiff.mpr ⟨hclean.violations, hneighbours⟩
      exact ⟨State.set_violations (hnil'.trans hclean.violations.symm),
        joinSummaries_concat hne (hshapes hnode hslots)⟩

theorem visitEntered_walked (h : c.Readable) (pageNo parent : ℤ)
    (hvisit : c.Visits bound pageNo (depth + 1) visitChild) (path : Bytes)
    (hbound : c.unvisited s < bound) (hroot : c.header.rootPage ∈ s.visitedPages) :
    Effect.Returns (c.visitEntered visitChild pageNo parent depth path) s
      (c.Walked (c.IsBelow pageNo parent) depth s) := by
  unfold visitEntered
  rcases readNode_cases c pageNo false path with ⟨page, hreadable⟩ | hrefused
  · rw [Effect.returns_bind, Effect.returns_of_eq (hreadable.readNode path s), visitNode]
    have hkeys := h.length_key hreadable.fetch hreadable.le_maximumSize
    obtain ⟨violations, hcheck, hiff⟩ := checkNode_checks h pageNo parent path hkeys s
    rw [Effect.returns_bind, Effect.returns_of_eq hcheck]
    cases hleaf : (c.snapshotOf page).isLeaf with
    | true => exact visitLeaf_walked h hreadable hiff hleaf path
    | false => exact visitInternal_walked h hvisit hreadable hiff hleaf path hbound hroot
  · obtain ⟨violations, hne, hrun⟩ := hrefused s
    rw [Effect.returns_bind, Effect.returns_of_eq hrun, visitNode, Effect.returns_pure]
    refine ⟨subset_rfl, by simp [SummaryKeys], fun hclean => absurd hclean hne, ?_⟩
    intro _ height below hsub _ _
    -- The page at the root of a subtree can be read.
    obtain ⟨page, -, hnode, -⟩ := hsub.root
    have hread : c.readNode pageNo false path s = _ :=
      (nodeAt_iff.mp hnode).1.readNode path s
    rw [hread] at hrun
    simp at hrun

/-- A page that is visited already or is not allocated is a violation. -/
theorem visit_refused (c : Checker) (fuel : ℕ) (parent : ℤ) (depth : ℕ) (path : Bytes)
    (hpage : pageNo ∈ s.activePages ∨ pageNo ∈ s.visitedPages ∨ c.validTreePage pageNo = false) :
    ∃ violations, violations ≠ [] ∧ c.visit (fuel + 1) pageNo parent depth path s =
      (.ok none, { s with violations := violations }) := by
  unfold visit
  rw [Effect.bind_of_ok (Effect.get_apply s)]
  split_ifs with hactive hvisited hvalid
  · exact add_none_run _ s
  · exact add_none_run _ s
  · exact add_none_run _ s
  · exact absurd hpage (by simp [hactive, hvisited, hvalid])

/-- Any other page is entered and left. -/
theorem visit_entered (c : Checker) (fuel : ℕ) (path : Bytes) (hactive : pageNo ∉ s.activePages)
    (hvisited : pageNo ∉ s.visitedPages) (hvalid : c.validTreePage pageNo = true) :
    c.visit (fuel + 1) pageNo parent depth path s =
      (do
        let result ← c.visitEntered
          (fun child path => c.visit fuel child pageNo (depth + 1) path) pageNo parent depth path
        Effect.modify (State.leave · pageNo)
        pure result : CheckM (Option SubtreeSummary)) (s.enter pageNo) := by
  rw [visit, Effect.bind_of_ok (Effect.get_apply s), if_neg hactive, if_neg hvisited,
    if_neg (by simp [hvalid])]
  exact Effect.bind_of_ok (Effect.modify_apply _ s)

/-- A visit returns, and reports nothing exactly when it has explored a subtree. -/
theorem visit_walked (h : c.Readable) {fuel : ℕ} (parent : ℤ) (depth : ℕ) (path : Bytes)
    (hbound : c.unvisited s < fuel)
    (hroot : pageNo = c.header.rootPage ∨ c.header.rootPage ∈ s.visitedPages) :
    Effect.Returns (c.visit fuel pageNo parent depth path) s
      (c.Walked (c.Subtree · pageNo parent ·) depth s) := by
  induction fuel generalizing pageNo parent depth path s with
  | zero => omega
  | succ fuel ih =>
    by_cases hpage : pageNo ∈ s.activePages ∨ pageNo ∈ s.visitedPages ∨
        c.validTreePage pageNo = false
    · obtain ⟨violations, hne, hrun⟩ := visit_refused c fuel parent depth path hpage
      rw [Effect.returns_of_eq hrun]
      refine ⟨subset_rfl, by simp [SummaryKeys], fun hclean => absurd hclean hne, ?_⟩
      intro hclean height shape hsub _ hfits
      obtain ⟨page, below, hnode, rfl⟩ := hsub.root
      have hvisited := (fits_node.mp hfits).1
      rcases hpage with hactive | hvisited' | hvalid
      · exact absurd (hclean.active hactive) hvisited
      · exact absurd hvisited' hvisited
      · simp [hnode.valid] at hvalid
    · obtain ⟨hactive, hvisited, hvalid⟩ : pageNo ∉ s.activePages ∧ pageNo ∉ s.visitedPages ∧
          c.validTreePage pageNo = true := by
        simpa only [not_or, Bool.not_eq_false] using hpage
      have hless : c.unvisited (s.enter pageNo) < fuel :=
        lt_of_lt_of_le (unvisited_enter hvalid hvisited) (by omega)
      have hrootEntered : c.header.rootPage ∈ (s.enter pageNo).visitedPages := by
        rw [State.enter, Finset.mem_insert]
        exact hroot.imp_left Eq.symm
      have hentered := visitEntered_walked h pageNo parent
        (fun child path s hs hroot => ih pageNo (depth + 1) path hs (.inr hroot)) path hless
        hrootEntered
      unfold Effect.Returns
      rw [visit_entered c fuel path hactive hvisited hvalid]
      refine hentered.bind fun summary s₁ hwalked => ?_
      rw [Effect.returns_bind, Effect.returns_modify, Effect.returns_pure]
      refine ⟨?_, hwalked.summaryKeys, fun hclean => ?_, ?_⟩
      · exact (Finset.subset_insert _ _).trans hwalked.visited
      · obtain ⟨hnil, height, below, hsub, hordered, hfits, rfl, hsummary⟩ := hwalked.clean hclean
        refine ⟨hnil, height, .node pageNo below, hsub, hordered, fits_node.mpr ⟨hvisited, hfits⟩,
          explore_node hactive, hsummary⟩
      · intro hclean height shape hsub hordered hfits
        obtain ⟨-, below, -, rfl⟩ := hsub.root
        obtain ⟨rfl, hsummary⟩ := hwalked.explored (hclean.enter pageNo) height below hsub hordered
          (fits_node.mp hfits).2
        exact ⟨explore_node hactive, hsummary⟩

end Walk

end Rucbase.Checker
