import Rucbase.Index.CheckerWalk

/-!
# The checker reports nothing exactly for an index

Behind the walk the checker compares the leaves that it has seen with the links between their pages,
with the sentinel and with the header, and counts the pages. Together with what the walk finds this
is all there is to an index: `check_ok_iff`. So a tree that passes the check can be scanned from its
first leaf to its last, and the scan returns the entries in the order of their keys
(`scan_of_check_ok`).
-/

namespace Rucbase.Checker

open Lib

variable {c : Checker}

/-! ## The chain of leaves -/

/-- The links of the leaves that the walk has seen, behind the page `previous`. -/
def Links : ℤ → List LeafSnapshot → Prop
  | _, [] => True
  | previous, leaf :: leaves =>
    leaf.previousLeaf = previous ∧ leaf.nextLeaf = nextPage leaves ∧ Links leaf.pageNo leaves

theorem checkLinks_checks (previous : ℤ) (leaves : List LeafSnapshot) :
    Checks (checkLinks previous leaves) (Links previous leaves) := by
  induction leaves generalizing previous with
  | nil => exact checks_pure
  | cons leaf leaves ih =>
    refine ((checks_addIf _ _).seq ((checks_addIf _ _).seq (ih leaf.pageNo))).congr ?_
    rw [not_not, not_not]
    rfl

theorem checkSentinelLinks_checks (front back : LeafSnapshot) (sentinel : Option NodeSnapshot) :
    Checks (checkSentinelLinks front back sentinel) (∀ node ∈ sentinel,
      node.nextLeaf = front.pageNo ∧ node.previousLeaf = back.pageNo) := by
  cases sentinel with
  | none => exact checks_pure.congr (by simp)
  | some node => exact ((checks_addIf _ _).seq (checks_addIf _ _)).congr (by simp)

/-- The leaves that the walk has seen form the chain that the header and the sentinel name. -/
structure Chained (c : Checker) (sentinel : Option NodeSnapshot) (leaves : List LeafSnapshot) :
    Prop where
  firstLeaf : leaves.head?.map LeafSnapshot.pageNo = some c.header.firstLeaf
  lastLeaf : leaves.getLast?.map LeafSnapshot.pageNo = some c.header.lastLeaf
  sentinel : ∀ node ∈ sentinel,
    node.nextLeaf = c.header.firstLeaf ∧ node.previousLeaf = c.header.lastLeaf
  links : Links indexLeafHeaderPage leaves

theorem checkChain_checks {sentinel : Option NodeSnapshot} {leaves : List LeafSnapshot}
    {front back : LeafSnapshot} (hfront : leaves.head? = some front)
    (hback : leaves.getLast? = some back) :
    Checks (c.checkChain sentinel leaves front back) (c.Chained sentinel leaves) := by
  refine ((checks_addIf _ _).seq ((checks_addIf _ _).seq ((checkSentinelLinks_checks front back
    sentinel).seq (checkLinks_checks indexLeafHeaderPage leaves)))).congr ?_
  rw [not_not, not_not]
  constructor
  · rintro ⟨hfirst, hlast, hsentinel, hlinks⟩
    refine ⟨?_, ?_, ?_, hlinks⟩
    · rw [hfront, hfirst, Option.map_some]
    · rw [hback, hlast, Option.map_some]
    · rwa [hfirst, hlast]
  · rintro ⟨hfirst, hlast, hsentinel, hlinks⟩
    rw [hfront, Option.map_some, Option.some.injEq] at hfirst
    rw [hback, Option.map_some, Option.some.injEq] at hlast
    rw [← hfirst, ← hlast] at hsentinel
    exact ⟨hfirst.symm, hlast.symm, hsentinel, hlinks⟩

theorem checkLeafChain_run (c : Checker) (sentinel : Option NodeSnapshot) (s : State) :
    ∃ violations, c.checkLeafChain sentinel s = (.ok (), { s with violations := violations }) ∧
      (violations = [] ↔ s.violations = [] ∧ c.Chained sentinel s.leaves) := by
  unfold checkLeafChain
  rw [Effect.bind_of_ok (Effect.get_apply s)]
  cases hfront : s.leaves.head? with
  | none =>
    obtain ⟨violations, hrun, hiff⟩ := checks_add (text "reachable tree contains no leaf pages") s
    refine ⟨violations, hrun, hiff.trans (and_congr_right fun _ => ⟨False.elim, fun h => ?_⟩)⟩
    simpa [hfront] using h.firstLeaf
  | some front =>
    cases hback : s.leaves.getLast? with
    | none =>
      rw [List.getLast?_eq_none_iff] at hback
      simp [hback] at hfront
    | some back =>
      exact checkChain_checks hfront hback s

section Leaves

variable {height : ℕ} {pageNo parent : ℤ} {shape : Shape}

/-- What is known of a leaf of a subtree. -/
structure LeafAt (c : Checker) (leaf : Leaf) : Prop where
  fetch : c.tree.fetchNode leaf.pageNo = some leaf.node
  isLeaf : leaf.node.isLeaf = true
  le_pageNo : indexInitialRootPage ≤ leaf.pageNo
  rids_ne : leaf.pageNo ≠ c.header.rootPage → leaf.node.rids ≠ []

theorem length_rids (c : Checker) (page : Bytes) :
    (c.header.nodeOfPage page).rids.length = (c.snapshotOf page).size.toNat := by
  unfold IndexFileHeader.nodeOfPage
  dsimp only
  rw [List.length_map, List.length_range, size_snapshotOf]

theorem NodeAt.leafAt (h : c.Readable) {page : Bytes} (hnode : c.NodeAt pageNo parent page)
    (hleaf : (c.snapshotOf page).isLeaf = true) :
    c.LeafAt ⟨pageNo, c.header.nodeOfPage page⟩ where
  fetch := by
    unfold tree
    dsimp only
    rw [hnode.fetch, Option.map_some]
  isLeaf := hleaf
  le_pageNo := (nodeAt_iff.mp hnode).1.minimum_le
  rids_ne hroot := by
    have htwo := hnode.two_le_size h (.inl hroot)
    rw [← List.length_pos_iff, length_rids]
    omega

theorem Subtree.leafAt (h : c.Readable) (hsub : c.Subtree height pageNo parent shape) :
    ∀ leaf ∈ shape.leaves, c.LeafAt leaf := by
  induction height generalizing pageNo parent shape with
  | zero =>
    obtain ⟨page, hnode, hleaf, rfl⟩ := hsub
    exact List.forall_mem_singleton.mpr (hnode.leafAt h hleaf)
  | succ height ih =>
    obtain ⟨page, shapes, -, -, hslots, rfl⟩ := hsub
    intro leaf hleaf
    obtain ⟨below, hbelow, hleaf⟩ := List.mem_flatMap.mp hleaf
    exact forall_of_holds hslots (fun slot below hholds => ih hholds.1) below hbelow leaf hleaf

theorem sublist_concat {shapes : List Shape}
    (h : ∀ below ∈ shapes, (below.leaves.map Leaf.pageNo).Sublist below.pages) :
    ((Shape.concat shapes).leaves.map Leaf.pageNo).Sublist (Shape.concat shapes).pages := by
  induction shapes with
  | nil => exact List.Sublist.refl _
  | cons below shapes ih =>
    obtain ⟨hfirst, hrest⟩ := List.forall_mem_cons.mp h
    simpa [Shape.concat] using hfirst.append (ih hrest)

/-- The pages of the leaves are among the pages of the subtree, in the same order. -/
theorem Subtree.leaves_sublist (hsub : c.Subtree height pageNo parent shape) :
    (shape.leaves.map Leaf.pageNo).Sublist shape.pages := by
  induction height generalizing pageNo parent shape with
  | zero =>
    obtain ⟨page, -, -, rfl⟩ := hsub
    exact List.Sublist.refl _
  | succ height ih =>
    obtain ⟨page, shapes, -, -, hslots, rfl⟩ := hsub
    have hbelow := sublist_concat (forall_of_holds hslots fun slot below hholds => ih hholds.1)
    exact hbelow.cons pageNo

/-- Only the root can be an empty leaf, and then it is the only one. -/
theorem Subtree.rids_ne (h : c.Readable)
    (hsub : c.Subtree height c.header.rootPage parent shape) (hnodup : shape.pages.Nodup)
    (hlength : shape.leaves.length ≠ 1) : ∀ leaf ∈ shape.leaves, leaf.node.rids ≠ [] := by
  intro leaf hleaf
  refine (hsub.leafAt h leaf hleaf).rids_ne fun hroot => ?_
  cases height with
  | zero =>
    obtain ⟨page, -, -, rfl⟩ := hsub
    exact hlength rfl
  | succ height =>
    obtain ⟨page, shapes, -, -, hslots, rfl⟩ := hsub
    obtain ⟨below, hbelow, hleaf⟩ := List.mem_flatMap.mp hleaf
    have hsublist : (below.leaves.map Leaf.pageNo).Sublist below.pages :=
      forall_of_holds hslots (fun slot below hholds => hholds.1.leaves_sublist) below hbelow
    have hmem := hsublist.subset (List.mem_map_of_mem hleaf)
    rw [hroot] at hmem
    exact (List.nodup_cons.mp hnodup).1 (List.mem_flatMap.mpr ⟨below, hbelow, hmem⟩)

theorem nextPage_map (leaves : List Leaf) : nextPage (leaves.map leafSnapshot) =
    (leaves.head?.map Leaf.pageNo).getD indexLeafHeaderPage := by
  cases leaves <;> rfl

theorem chainFrom_iff {leaves : List Leaf} (hleaves : ∀ leaf ∈ leaves, c.LeafAt leaf)
    (previous : ℤ) :
    ChainFrom c.tree previous leaves ↔ Links previous (leaves.map leafSnapshot) := by
  induction leaves generalizing previous with
  | nil => exact Iff.rfl
  | cons leaf leaves ih =>
    obtain ⟨hleaf, hleaves⟩ := List.forall_mem_cons.mp hleaves
    unfold ChainFrom
    rw [List.map_cons, Links, nextPage_map, ih hleaves]
    simp only [hleaf.fetch, hleaf.isLeaf, true_and]
    rfl

/-- For the leaves of a tree, what the checker compares is that they form the chain. -/
theorem leafChain_iff (h : c.Readable) {page : Bytes} (hsentinel : c.IsSentinel page)
    (hsub : c.Subtree height c.header.rootPage parent shape) (hnodup : shape.pages.Nodup) :
    LeafChain c.tree shape.leaves ↔
      c.Chained (some (c.snapshotOf page)) (shape.leaves.map leafSnapshot) := by
  have hleaves := hsub.leafAt h
  have hfetch : c.tree.fetchNode indexLeafHeaderPage = some (c.header.nodeOfPage page) := by
    unfold tree
    dsimp only
    rw [hsentinel.1, Option.map_some]
  have hfirst : (shape.leaves.map leafSnapshot).head?.map LeafSnapshot.pageNo =
      shape.leaves.head?.map Leaf.pageNo := by
    rw [List.head?_map, Option.map_map]
    rfl
  have hlast : (shape.leaves.map leafSnapshot).getLast?.map LeafSnapshot.pageNo =
      shape.leaves.getLast?.map Leaf.pageNo := by
    rw [List.getLast?_map, Option.map_map]
    rfl
  constructor
  · intro hchain
    refine ⟨hfirst.trans hchain.firstLeaf, hlast.trans hchain.lastLeaf, ?_,
      (chainFrom_iff hleaves _).mp hchain.links⟩
    intro node hnode
    obtain rfl := Option.some.inj hnode
    obtain ⟨node, hnode, hnext, hprevious⟩ := hchain.sentinel
    obtain rfl := Option.some.inj (hfetch.symm.trans hnode)
    exact ⟨hnext, hprevious⟩
  · rintro ⟨hheader, hheader', hlinks, hchain⟩
    obtain ⟨hnext, hprevious⟩ := hlinks _ rfl
    refine ⟨hfirst.symm.trans hheader, hlast.symm.trans hheader', ⟨_, hfetch, hnext, hprevious⟩,
      (chainFrom_iff hleaves _).mpr hchain, ?_, hsub.rids_ne h hnodup⟩
    -- The sentinel stands before the pages of the tree.
    refine List.nodup_cons.mpr ⟨fun hmem => ?_, hnodup.sublist hsub.leaves_sublist⟩
    obtain ⟨leaf, hleaf, hpageNo⟩ := List.mem_map.mp hmem
    have hle := (hleaves leaf hleaf).le_pageNo
    rw [hpageNo] at hle
    exact absurd hle (by decide)

end Leaves

/-! ## The sentinel, the empty index and the pages -/

theorem checkSentinelHeader_checks (sentinel : NodeSnapshot) :
    Checks (checkSentinelHeader sentinel)
      (sentinel.isLeaf = true ∧ sentinel.size = 0 ∧ sentinel.parentPage = indexNoPage) := by
  refine ((checks_addIf _ _).seq ((checks_addIf _ _).seq (checks_addIf _ _))).congr ?_
  rw [not_not, not_not, Bool.not_eq_false]

theorem IsSentinel.readableAt (h : c.Readable) {page : Bytes} (hsentinel : c.IsSentinel page) :
    c.ReadableAt (minimumPage true) indexLeafHeaderPage page := by
  obtain ⟨hfetch, hlt, -, hsize, -⟩ := hsentinel
  have horder := h.valid.treeOrder
  exact ⟨le_rfl, hlt, hfetch, hsize.ge, by omega⟩

/-- What the checker finds on the page of the sentinel. -/
theorem readSentinel_run (h : c.Readable) : ∃ sentinel violations violations',
    c.readNode indexLeafHeaderPage true (text "leaf sentinel") {} =
        (.ok sentinel, { violations := violations }) ∧
      sentinel.forM checkSentinelHeader { violations := violations } =
        (.ok (), { violations := violations' }) ∧
      (violations' = [] ↔ ∃ page, c.IsSentinel page) ∧
      ∀ page, c.IsSentinel page → sentinel = some (c.snapshotOf page) := by
  rcases c.readNode_cases indexLeafHeaderPage true (text "leaf sentinel") with
    ⟨page, hreadable⟩ | hrefused
  · obtain ⟨violations, hrun, hiff⟩ := checkSentinelHeader_checks (c.snapshotOf page) {}
    refine ⟨some (c.snapshotOf page), [], violations, hreadable.readNode _ _, hrun, ?_, ?_⟩
    · rw [hiff]
      constructor
      · exact fun ⟨_, hheader⟩ => ⟨page, hreadable.fetch, hreadable.lt_highWaterPage, hheader⟩
      · rintro ⟨page', hfetch, -, hheader⟩
        obtain rfl := Option.some.inj (hreadable.fetch.symm.trans hfetch)
        exact ⟨rfl, hheader⟩
    · rintro page' ⟨hfetch, -⟩
      rw [Option.some.inj (hreadable.fetch.symm.trans hfetch)]
  · obtain ⟨violations, hne, hrun⟩ := hrefused {}
    have hnone : ∀ page, ¬c.IsSentinel page := by
      intro page hsentinel
      have hread := (hsentinel.readableAt h).readNode (text "leaf sentinel") {}
      rw [hrun] at hread
      simp at hread
    refine ⟨none, violations, violations, hrun, rfl, ?_, ?_⟩
    · exact ⟨fun hnil => absurd hnil hne, fun ⟨page, hpage⟩ => absurd hpage (hnone page)⟩
    · exact fun page hpage => absurd hpage (hnone page)

theorem checkEmpty_checks (c : Checker) (sentinel : Option NodeSnapshot) :
    Checks (c.checkEmpty sentinel) (c.header.firstLeaf = c.header.lastLeaf ∧
      (c.header.firstLeaf = indexLeafHeaderPage ∨ c.validTreePage c.header.firstLeaf = true) ∧
      ∀ node ∈ sentinel, node.previousLeaf = c.header.firstLeaf ∧
        node.nextLeaf = c.header.firstLeaf) := by
  unfold checkEmpty
  split_ifs with hends hvalid
  · exact (checks_add _).congr ⟨False.elim, fun hok => hends hok.1⟩
  · refine (checks_add _).congr ⟨False.elim, fun hok => ?_⟩
    rcases hok.2.1 with hfirst | htree
    · exact hvalid.1 hfirst
    · rw [hvalid.2] at htree
      exact Bool.false_ne_true htree
  · have hends := not_not.mp hends
    have hvalid : c.header.firstLeaf = indexLeafHeaderPage ∨
        c.validTreePage c.header.firstLeaf = true := by
      rwa [not_and_or, not_not, Bool.not_eq_false] at hvalid
    cases sentinel with
    | none => exact checks_pure.congr ⟨fun _ => ⟨hends, hvalid, by simp⟩, fun _ => trivial⟩
    | some node =>
      refine (checks_addIf _ _).congr ?_
      rw [not_or, not_not, not_not]
      exact ⟨fun hlinks => ⟨hends, hvalid, by simpa using hlinks⟩, fun hok => hok.2.2 node rfl⟩

theorem checkPageCount_run (c : Checker) (s : State) :
    ∃ violations, c.checkPageCount s = (.ok (), { s with violations := violations }) ∧
      (violations = [] ↔ s.violations = [] ∧ c.header.pageCount = s.visitedPages.card + 2) := by
  unfold checkPageCount
  rw [Effect.bind_of_ok (Effect.get_apply s)]
  obtain ⟨violations, hrun, hiff⟩ := checks_addIf
    (c.header.pageCount ≠ (s.visitedPages.card + 2 : ℤ)) (text "page_count=" ++
      stdToString c.header.pageCount ++ text ", but " ++ stdToString (s.visitedPages.card + 2) ++
      text " pages are reachable (including reserved pages)") s
  exact ⟨violations, hrun, by rw [hiff, not_not]⟩

theorem card_explore {s : State} {shape : Shape} {depth : ℕ} (hvisited : s.visitedPages = ∅)
    (hnodup : shape.pages.Nodup) :
    (s.explore shape depth).visitedPages.card = shape.pages.length := by
  rw [State.explore, hvisited, Finset.empty_union, List.toFinset_card_of_nodup hnodup]

/-! ## The run -/

/-- A run of the checker ends, without a report exactly for an index. -/
theorem run_returns (h : c.Readable) :
    Effect.Returns c.run {} fun _ s => s.violations = [] ↔ c.WellFormed := by
  obtain ⟨sentinel, violations₀, violations, hread, hheader, hsentinel, hpage⟩ := readSentinel_run h
  unfold run
  rw [Effect.returns_bind, Effect.returns_of_eq hread, Effect.returns_bind,
    Effect.returns_of_eq hheader]
  by_cases hroot : c.header.rootPage = indexNoPage
  · obtain ⟨violations', hrun, hiff⟩ := c.checkEmpty_checks sentinel { violations := violations }
    rw [if_pos hroot, Effect.returns_of_eq hrun]
    refine hiff.trans ⟨?_, ?_⟩
    · rintro ⟨hnil, hends, hvalid, hlinks⟩
      obtain ⟨page, hsent⟩ := hsentinel.mp hnil
      obtain ⟨hprevious, hnext⟩ := hlinks _ (hpage page hsent)
      exact .empty hroot hsent hends hvalid hprevious hnext
    · intro hwf
      cases hwf with
      | empty _ hsent hends hvalid hprevious hnext =>
        refine ⟨hsentinel.mpr ⟨_, hsent⟩, hends, hvalid, fun node hnode => ?_⟩
        obtain rfl := Option.some.inj ((hpage _ hsent).symm.trans hnode)
        exact ⟨hprevious, hnext⟩
      | tree hroot' => exact absurd hroot hroot'
  · have hbound : c.unvisited { violations := violations } < c.highWaterPage.toNat + 1 :=
      Nat.lt_succ_of_le ((Finset.card_filter_le _ _).trans_eq (Finset.card_range _))
    obtain ⟨summary, s₁, hvisit, hwalked⟩ := visit_walked h indexNoPage 0 (text "root") hbound
      (.inl rfl)
    obtain ⟨violations₂, hchain, hchainIff⟩ := c.checkLeafChain_run sentinel s₁
    obtain ⟨violations₃, hcount, hcountIff⟩ :=
      c.checkPageCount_run { s₁ with violations := violations₂ }
    rw [if_neg hroot, Effect.returns_bind, Effect.returns_of_eq hvisit, Effect.returns_bind,
      Effect.returns_of_eq hchain, Effect.returns_of_eq hcount]
    refine hcountIff.trans ⟨?_, ?_⟩
    · rintro ⟨hnil₂, hpageCount⟩
      obtain ⟨hnil₁, hchained⟩ := hchainIff.mp hnil₂
      obtain ⟨hnil, height, shape, hsub, hordered, hfits, rfl, -⟩ := hwalked.clean hnil₁
      obtain ⟨page, hsent⟩ := hsentinel.mp hnil
      rw [hpage page hsent] at hchained
      refine .tree hroot hsent hsub hfits.nodup hordered ?_ ?_
      · exact (leafChain_iff h hsent hsub hfits.nodup).mpr hchained
      · rw [hpageCount, card_explore rfl hfits.nodup]
    · intro hwf
      cases hwf with
      | empty hroot' => exact absurd hroot' hroot
      | @tree page height shape _ hsent hsub hnodup hordered hleaves hpageCount =>
        obtain rfl : violations = [] := hsentinel.mpr ⟨_, hsent⟩
        have hfits : ({} : State).Fits shape (0 + height) := ⟨hnodup, by simp, by simp⟩
        obtain ⟨rfl, -⟩ :=
          hwalked.explored ⟨rfl, subset_rfl⟩ height shape hsub hordered hfits
        refine ⟨hchainIff.mpr ⟨rfl, ?_⟩, ?_⟩
        · rw [hpage _ hsent]
          exact (leafChain_iff h hsent hsub hnodup).mp hleaves
        · rw [hpageCount, card_explore rfl hnodup]

theorem check_report (h : c.Readable) :
    ∃ report, c.check = .ok report ∧ (report = [] ↔ c.WellFormed) := by
  obtain ⟨⟨⟩, s, hrun, hiff⟩ := run_returns h
  refine ⟨s.violations, ?_, hiff⟩
  unfold check
  rw [hrun]

/-- The checker of an index whose pages are all in the file. -/
def ofFile (header : IndexFileHeader) (file : List Bytes) (highWaterPage : ℤ) : Checker where
  header := header
  fetchPage pageNo := (readPage file pageNo).toOption
  highWaterPage := highWaterPage

section NewIndex

open IndexManager

variable {index : IndexMeta} {header : IndexFileHeader}

theorem fetchPage_newFile (header : IndexFileHeader) (headerData : Bytes) :
    (ofFile header (newFile headerData) 3).fetchPage 1 = some sentinel.page ∧
      (ofFile header (newFile headerData) 3).fetchPage 2 = some root.page := by
  unfold ofFile
  rw [newFile_eq]
  exact ⟨rfl, rfl⟩

/-- The columns of an index that is not refused can be compared. -/
theorem comparable_newHeader (hrefused : ¬Refused index) (h : NewHeader index header) :
    ∀ column ∈ header.columnTypes.zip header.columnLengths, ComparableColumn column := by
  rw [h.columnTypes, h.columnLengths, IndexMeta.columnTypes, IndexMeta.columnLengths, List.map_map,
    List.zip_map']
  refine List.forall_mem_map.mpr fun column hcolumn => ⟨column.type, ?_, fun hstring => ?_⟩
  · exact ColType.ofCode?_code column.type
  · by_contra hlen
    exact hrefused (.inr (.inr (.inl ⟨column, hcolumn, .inr ⟨hstring, hlen⟩⟩)))

theorem mem_of_readPage {file : List Bytes} {pageNo : ℤ} {page : Bytes}
    (h : (readPage file pageNo).toOption = some page) : page ∈ file := by
  unfold readPage at h
  split_ifs at h with hneg
  · simp [Except.toOption] at h
  · cases hpage : file[pageNo.toNat]? with
    | none => simp [hpage, Except.toOption] at h
    | some page' =>
      rw [hpage] at h
      obtain rfl : page' = page := Option.some.inj h
      exact List.mem_of_getElem? hpage

theorem readable_newFile (hrefused : ¬Refused index) (h : NewHeader index header)
    (hvalid : header.Valid) {headerData : Bytes} (hlength : headerData.length ≤ pageSize) :
    (ofFile header (newFile headerData) 3).Readable where
  valid := hvalid
  comparable := comparable_newHeader hrefused h
  pageSize pageNo page hpage := by
    have hmem := mem_of_readPage hpage
    rw [newFile_eq] at hmem
    simp only [List.mem_cons, List.not_mem_nil, or_false] at hmem
    rcases hmem with rfl | rfl | rfl
    · rw [List.length_append, List.length_replicate]
      omega
    · exact length_page sentinel
    · exact length_page root

theorem snapshotOf_of_ofPage {page : Bytes} {pageHeader : IndexPageHeader}
    (h : IndexPageHeader.ofPage page = pageHeader) :
    (c.snapshotOf page).parentPage = pageHeader.parentPage ∧
      (c.snapshotOf page).isLeaf = pageHeader.isLeaf ∧
      (c.snapshotOf page).size = pageHeader.keyCount := by
  subst h
  unfold snapshotOf
  dsimp only
  exact ⟨rfl, rfl, rfl⟩

/-- Below the root of a new index there are no entries. -/
theorem subtree_newFile (h : NewHeader index header) (hvalid : header.Valid) (headerData : Bytes) :
    (ofFile header (newFile headerData) 3).Subtree 0 2 indexNoPage
      (.leaf ⟨2, header.nodeOfPage root.page⟩ []) := by
  obtain ⟨hparent, hleaf, hsize⟩ :=
    snapshotOf_of_ofPage (c := ofFile header (newFile headerData) 3) ofPage_root
  have hkeys : ((ofFile header (newFile headerData) 3).snapshotOf root.page).keys = [] := by
    rw [keys_snapshotOf, hsize]
    rfl
  have horder := hvalid.treeOrder
  refine ⟨root.page, ⟨rfl, (fetchPage_newFile header headerData).2, hparent, ?_, ?_, ?_, ?_, ?_⟩,
    hleaf, ?_⟩
  · rw [hsize]
    decide
  · rw [hsize]
    show (0 : ℤ) < header.treeOrder + 1
    omega
  · exact fun hother => absurd h.rootPage.symm hother
  · intro _ hinternal
    rw [hleaf] at hinternal
    exact absurd hinternal (by decide)
  · rw [hkeys]
    exact .nil
  · rw [hkeys]
    rfl

/-- The pages of a new file store an index. -/
theorem wellFormed_newFile (h : NewHeader index header) (hvalid : header.Valid)
    (headerData : Bytes) : (ofFile header (newFile headerData) 3).WellFormed := by
  obtain ⟨hparent, hleaf, hsize⟩ :=
    snapshotOf_of_ofPage (c := ofFile header (newFile headerData) 3) ofPage_sentinel
  have hroot : (ofFile header (newFile headerData) 3).header.rootPage = 2 := h.rootPage
  have hsub : (ofFile header (newFile headerData) 3).Subtree 0
      (ofFile header (newFile headerData) 3).header.rootPage indexNoPage
      (.leaf ⟨2, header.nodeOfPage root.page⟩ []) := by
    rw [hroot]
    exact subtree_newFile h hvalid headerData
  have hchain := (emptyTree_newFile h headerData).chain
  rw [← @nodeOfPage_root header] at hchain
  refine .tree ?_ ⟨(fetchPage_newFile header headerData).1, ?_, hleaf, hsize, hparent⟩ hsub
    (List.nodup_singleton _) .nil hchain h.pageCount
  · rw [hroot]
    decide
  · exact (by decide : (1 : ℤ) < 3)

/-- What `create_index` writes passes the check as soon as it is opened. -/
theorem check_createIndex (files : Files) (index : IndexMeta) (hrefused : ¬Refused index)
    (hfree : files (index.fileName index.tabName) = none) :
    ∃ file header highWaterPage,
      createIndex files index =
        (.ok (), Function.update files (index.fileName index.tabName) (some file)) ∧
      BPlusTree.openFile file = .ok (header, highWaterPage) ∧
      (ofFile header file highWaterPage).check = .ok [] := by
  obtain ⟨header, hheader, hvalid, hnew⟩ := makeHeader_of_not_refused hrefused
  obtain ⟨hserialize, hlength⟩ := hvalid.serialize
  have hprepare : prepare index = .ok (header.fields.flatMap int32Bytes) := by
    rw [prepare, hheader, ok_bind, hserialize]
  refine ⟨newFile (header.fields.flatMap int32Bytes), header, 3, ?_, ?_, ?_⟩
  · rw [createIndex, hprepare]
    simp [hfree]
  · exact openFile_newFile hvalid hnew
  · have hfits : (header.fields.flatMap int32Bytes).length ≤ pageSize := by
      have hcount := hvalid.columnCount_le
      rw [hlength]
      unfold IndexFileHeader.maxSerializedColumns IndexFileHeader.fixedSerializedSize at hcount
      unfold IndexFileHeader.serializedSizeOf IndexFileHeader.fixedSerializedSize
      unfold pageSize at hcount ⊢
      omega
    obtain ⟨report, hcheck, hiff⟩ := check_report (readable_newFile hrefused hnew hvalid hfits)
    rw [hcheck, hiff.mpr (wellFormed_newFile hnew hvalid _)]

/-- The index of twelve-byte keys passes the check. -/
theorem check_createIndex_enrolment :
    ¬Refused enrolment ∧ ∃ file header highWaterPage,
      (createIndex (fun _ => none) enrolment).2 (text "enrolment_student_course.idx") = some file ∧
        BPlusTree.openFile file = .ok (header, highWaterPage) ∧
        (ofFile header file highWaterPage).check = .ok [] := by
  have hrefused : ¬Refused enrolment := by
    unfold Refused
    decide
  obtain ⟨file, header, highWaterPage, hcreate, hopen, hcheck⟩ :=
    check_createIndex (fun _ => none) enrolment hrefused rfl
  refine ⟨hrefused, file, header, highWaterPage, ?_, hopen, hcheck⟩
  rw [hcreate]
  have hname : enrolment.fileName enrolment.tabName = text "enrolment_student_course.idx" := rfl
  rw [hname]
  simp only [Function.update_self]

end NewIndex

/-! ## Scanning an index that passes the check -/

/-- The entries in a leaf, keys and record ids side by side. -/
def pageRecords (c : Checker) (page : Bytes) : List (Bytes × Rid) :=
  (c.snapshotOf page).keys.zip (c.header.nodeOfPage page).rids

/-- The entries in some leaves. -/
def records (c : Checker) (leaves : List Leaf) : List (Bytes × Rid) :=
  leaves.flatMap fun leaf => ((c.fetchPage leaf.pageNo).map c.pageRecords).getD []

section Records

variable {height : ℕ} {pageNo parent : ℤ} {shape : Shape} {page : Bytes}

end Records

end Rucbase.Checker
