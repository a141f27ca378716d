import Rucbase.Index.Layout
import Rucbase.Index.StoredHeader
import Rucbase.Lib.Effect
import Mathlib.Data.Finset.Card
import Mathlib.Data.List.Chain

/-!
# The checker of index structure

`BPlusTreeInvariantChecker` (`src/test/index/b_plus_tree_invariant_checker.cpp`) walks through an
index from the root and reports what is wrong with it: a page that is reached twice or is not
allocated, a wrong parent, a node that is too full or too empty, keys out of order, a separator that
is not the first key below it, leaves at different depths, broken links between the leaves, and a
wrong number of pages. It does not stop at the first violation, so it also walks through structures
that are no trees; the pages that it has visited keep it from running in circles.

`fetch_page` of the buffer pool is left to the labs. What it returns for a page, or that it fails,
is a parameter here, and stays the same during a check.

`WellFormed` says what an index is in terms of the tree that its pages store (`Subtree`), of the
order of the keys in the leaves, and of the chain of leaves. That the checker reports nothing
exactly for the well-formed indexes is proved in `Rucbase.Index.CheckerSound`.
-/

namespace Rucbase

open Lib

/-- `Checker`, as its constructor leaves it: the file header, the pages as the buffer pool returns
them, and the number behind the last page that was allocated. -/
structure Checker where
  header : IndexFileHeader
  fetchPage : ℤ → Option Bytes
  highWaterPage : ℤ

namespace Checker

/-- `kMaxViolations`. -/
def kMaxViolations : ℕ := 8

/-- `NodeSnapshot`. -/
structure NodeSnapshot where
  parentPage : ℤ
  isLeaf : Bool
  size : ℤ
  previousLeaf : ℤ
  nextLeaf : ℤ
  keys : List Bytes
  children : List ℤ
  deriving DecidableEq, Repr

/-- `SubtreeSummary`. -/
structure SubtreeSummary where
  minimum : Bytes
  maximum : Bytes
  deriving DecidableEq, Repr

/-- `LeafSnapshot`. -/
structure LeafSnapshot where
  pageNo : ℤ
  previousLeaf : ℤ
  nextLeaf : ℤ
  deriving DecidableEq, Repr

/-- The members of `Checker` that a run changes. -/
@[ext]
structure State where
  violations : List Bytes := []
  visitedPages : Finset ℤ := ∅
  activePages : Finset ℤ := ∅
  leaves : List LeafSnapshot := []
  leafDepth : Option ℕ := none

/-- What ends a run early: an exception of `compare_index_key`, or a bound on the recursion. -/
inductive Stop where
  | threw (e : Error)
  | unfinished
  deriving DecidableEq, Repr

/-- Computations of the checker. -/
abbrev CheckM := Effect Stop State

/-! ## Reporting -/

/-- `add`: of all violations the first eight are kept. -/
def add (violation : Bytes) : CheckM Unit := .modify fun s =>
  if s.violations.length < kMaxViolations then
    { s with violations := s.violations ++ [violation] }
  else s

/-- `if (condition) add(violation);`. -/
def addIf (condition : Prop) [Decidable condition] (violation : Bytes) : CheckM Unit :=
  if condition then add violation else pure ()

/-- `std::to_string`. -/
def stdToString (n : ℤ) : Bytes := text (toString n)

section Checker

variable (c : Checker)

/-! ## Keys -/

/-- `compare_keys`. -/
def compareKeys (left right : Bytes) : CheckM ℤ :=
  .lift ((compareStoredKey left right c.header.columnTypes c.header.columnLengths).mapError .threw)

/-- `out_of_order`. -/
def outOfOrder (left right : Bytes) : CheckM Bool := do
  let result ← c.compareKeys left right
  pure (if c.header.unique then decide (0 ≤ result) else decide (0 < result))

/-- `check_local_key_order`, from a slot on. -/
def checkLocalKeyOrder (path : Bytes) : ℕ → List Bytes → CheckM Unit
  | i, left :: right :: keys => do
    let wrong ← c.outOfOrder left right
    addIf (wrong = true) (path ++ text ": keys at slots " ++ stdToString i ++ text " and " ++
      stdToString (i + 1) ++ text " are not " ++
      (if c.header.unique then text "strictly increasing" else text "non-decreasing"))
    checkLocalKeyOrder path (i + 1) (right :: keys)
  | _, _ => pure ()

/-! ## Nodes -/

/-- `valid_tree_page`. -/
def validTreePage (pageNo : ℤ) : Bool :=
  decide (indexInitialRootPage ≤ pageNo) && decide (pageNo < c.highWaterPage)

/-- The snapshot of a node that `read_node` fills from its page. -/
def snapshotOf (page : Bytes) : NodeSnapshot :=
  let pageHeader := IndexPageHeader.ofPage page
  let view := NodeView.make c.header
  { parentPage := pageHeader.parentPage
    isLeaf := pageHeader.isLeaf
    size := pageHeader.keyCount
    previousLeaf := pageHeader.previousLeafPage
    nextLeaf := pageHeader.nextLeafPage
    keys := (List.range pageHeader.keyCount.toNat).map fun i : ℕ =>
      slice page (view.getKey i).toNat c.header.keyLength.toNat
    children :=
      if pageHeader.isLeaf then []
      else (List.range pageHeader.keyCount.toNat).map fun i : ℕ =>
        (ridAt page (view.getRid i).toNat).pageNo }

/-- `minimum` in `read_node`. -/
def minimumPage (allowSentinel : Bool) : ℤ :=
  if allowSentinel then indexLeafHeaderPage else indexInitialRootPage

/-- `read_node`. -/
def readNode (pageNo : ℤ) (allowSentinel : Bool) (context : Bytes) :
    CheckM (Option NodeSnapshot) :=
  if pageNo < minimumPage allowSentinel ∨ c.highWaterPage ≤ pageNo then do
    add (context ++ text ": page " ++ stdToString pageNo ++ text " is outside [" ++
      stdToString (minimumPage allowSentinel) ++ text ", " ++ stdToString c.highWaterPage ++
      text ")")
    pure none
  else
    match c.fetchPage pageNo with
    | none => do
      add (context ++ text ": failed to fetch page " ++ stdToString pageNo)
      pure none
    | some page =>
      let size := (IndexPageHeader.ofPage page).keyCount
      if size < 0 ∨ c.header.treeOrder + 1 < size then do
        add (context ++ text ": page " ++ stdToString pageNo ++ text " has invalid size " ++
          stdToString size)
        pure none
      else pure (some (c.snapshotOf page))

/-- `check_sentinel_header`. -/
def checkSentinelHeader (sentinel : NodeSnapshot) : CheckM Unit := do
  addIf (sentinel.isLeaf = false) (text "leaf sentinel page is not marked as a leaf")
  addIf (sentinel.size ≠ 0)
    (text "leaf sentinel has size " ++ stdToString sentinel.size ++ text ", expected 0")
  addIf (sentinel.parentPage ≠ indexNoPage)
    (text "leaf sentinel parent is " ++ stdToString sentinel.parentPage ++
      text ", expected INDEX_NO_PAGE")

/-! ## The walk -/

/-- `maximum_size` in `visit`. -/
def maximumSize : ℤ := c.header.treeOrder + 1

/-- `minimum_size` in `visit`. -/
def minimumSize : ℤ := c.maximumSize / 2

/-- The checks of `visit` before it looks below the node. -/
def checkNode (pageNo expectedParent : ℤ) (path : Bytes) (snapshot : NodeSnapshot) :
    CheckM Unit := do
  addIf (snapshot.parentPage ≠ expectedParent)
    (path ++ text ": page " ++ stdToString pageNo ++ text " parent=" ++
      stdToString snapshot.parentPage ++ text ", expected " ++ stdToString expectedParent)
  addIf (c.maximumSize ≤ snapshot.size)
    (path ++ text ": page " ++ stdToString pageNo ++ text " size=" ++ stdToString snapshot.size ++
      text " must be less than max_size=" ++ stdToString c.maximumSize)
  addIf (pageNo ≠ c.header.rootPage ∧ snapshot.size < c.minimumSize)
    (path ++ text ": non-root page " ++ stdToString pageNo ++ text " size=" ++
      stdToString snapshot.size ++ text " is below min_size=" ++ stdToString c.minimumSize)
  addIf (pageNo = c.header.rootPage ∧ snapshot.isLeaf = false ∧ snapshot.size < 2)
    (path ++ text ": internal root has fewer than two children and should have been collapsed")
  c.checkLocalKeyOrder path 0 snapshot.keys

/-- The part of `visit` that compares the depths of the leaves. -/
def checkLeafDepth (pageNo : ℤ) (depth : ℕ) (path : Bytes) : CheckM Unit := do
  let s ← Effect.get
  match s.leafDepth with
  | none => Effect.modify fun s => { s with leafDepth := some depth }
  | some leafDepth =>
    addIf (leafDepth ≠ depth)
      (path ++ text ": leaf page " ++ stdToString pageNo ++ text " is at depth " ++
        stdToString depth ++ text ", expected " ++ stdToString leafDepth)

/-- The summary of the keys of a leaf. -/
def summarize (keys : List Bytes) : Option SubtreeSummary :=
  match keys.head?, keys.getLast? with
  | some front, some back => some ⟨front, back⟩
  | _, _ => none

/-- The branch of `visit` for a leaf. -/
def visitLeaf (pageNo : ℤ) (depth : ℕ) (path : Bytes) (snapshot : NodeSnapshot) :
    CheckM (Option SubtreeSummary) := do
  checkLeafDepth pageNo depth path
  addIf (pageNo ≠ c.header.rootPage ∧ snapshot.size = 0)
    (path ++ text ": a non-root leaf is empty")
  Effect.modify fun s =>
    { s with leaves := s.leaves ++ [⟨pageNo, snapshot.previousLeaf, snapshot.nextLeaf⟩] }
  pure (summarize snapshot.keys)

/-- The check of the key in a slot against what is below it. -/
def checkSeparator (path : Bytes) (i : ℕ) (key : Bytes) (child : ℤ) :
    Option SubtreeSummary → CheckM Unit
  | none => pure ()
  | some below => do
    let result ← c.compareKeys key below.minimum
    addIf (result ≠ 0) (path ++ text ": key[" ++ stdToString i ++
      text "] does not equal child " ++ stdToString child ++ text " subtree minimum")

/-- The loop of `visit` over the children of a node, from a slot on. -/
def visitChildren (visitChild : ℤ → Bytes → CheckM (Option SubtreeSummary)) (path : Bytes) :
    ℕ → List (Bytes × ℤ) → CheckM (List (Option SubtreeSummary))
  | _, [] => pure []
  | i, (key, child) :: entries => do
    let summary ← visitChild child (path ++ text "/child[" ++ stdToString i ++ text "]")
    c.checkSeparator path i key child summary
    let summaries ← visitChildren visitChild path (i + 1) entries
    pure (summary :: summaries)

/-- The check of two neighbouring children. -/
def checkNeighbours (path : Bytes) (previous child : ℤ) :
    Option SubtreeSummary → Option SubtreeSummary → CheckM Unit
  | some left, some right => do
    let wrong ← c.outOfOrder left.maximum right.minimum
    addIf (wrong = true) (path ++ text ": child " ++ stdToString previous ++
      text " subtree overlaps or is out of order with child " ++ stdToString child)
  | _, _ => pure ()

/-- The loop of `visit` that compares each child with the one before it. -/
def checkChildOrder (path : Bytes) : List (ℤ × Option SubtreeSummary) → CheckM Unit
  | (previous, left) :: (child, right) :: rest => do
    c.checkNeighbours path previous child left right
    checkChildOrder path ((child, right) :: rest)
  | _ => pure ()

/-- The summary of a node from those of its children. -/
def joinSummaries (summaries : List (Option SubtreeSummary)) : Option SubtreeSummary :=
  match summaries.head?.join, summaries.getLast?.join with
  | some front, some back => some ⟨front.minimum, back.maximum⟩
  | _, _ => none

/-- The branch of `visit` for an internal node. -/
def visitInternal (visitChild : ℤ → Bytes → CheckM (Option SubtreeSummary)) (path : Bytes)
    (snapshot : NodeSnapshot) : CheckM (Option SubtreeSummary) := do
  let summaries ← c.visitChildren visitChild path 0 (snapshot.keys.zip snapshot.children)
  c.checkChildOrder path (snapshot.children.zip summaries)
  pure (joinSummaries summaries)

/-- `visit` behind the call of `read_node`. -/
def visitNode (visitChild : ℤ → Bytes → CheckM (Option SubtreeSummary))
    (pageNo expectedParent : ℤ) (depth : ℕ) (path : Bytes) :
    Option NodeSnapshot → CheckM (Option SubtreeSummary)
  | none => pure none
  | some snapshot => do
    c.checkNode pageNo expectedParent path snapshot
    if snapshot.isLeaf then c.visitLeaf pageNo depth path snapshot
    else c.visitInternal visitChild path snapshot

/-- `visit` on a page that is being visited: between the insertion of the page into `active_pages_`
and its removal. -/
def visitEntered (visitChild : ℤ → Bytes → CheckM (Option SubtreeSummary))
    (pageNo expectedParent : ℤ) (depth : ℕ) (path : Bytes) : CheckM (Option SubtreeSummary) := do
  let node ← c.readNode pageNo false path
  c.visitNode visitChild pageNo expectedParent depth path node

/-- The insertions of `visit`. -/
def State.enter (s : State) (pageNo : ℤ) : State :=
  { s with
    visitedPages := insert pageNo s.visitedPages
    activePages := insert pageNo s.activePages }

/-- The removal of `visit`, on every path that has passed the insertions. -/
def State.leave (s : State) (pageNo : ℤ) : State :=
  { s with activePages := s.activePages.erase pageNo }

/-- `visit`, in at most `fuel` nested calls. -/
def visit : ℕ → ℤ → ℤ → ℕ → Bytes → CheckM (Option SubtreeSummary)
  | 0, _, _, _, _ => .raise .unfinished
  | fuel + 1, pageNo, expectedParent, depth, path => do
    let s ← Effect.get
    if pageNo ∈ s.activePages then do
      add (path ++ text ": child graph contains a cycle through page " ++ stdToString pageNo)
      pure none
    else if pageNo ∈ s.visitedPages then do
      add (path ++ text ": page " ++ stdToString pageNo ++ text " is reachable more than once")
      pure none
    else if c.validTreePage pageNo = false then do
      add (path ++ text ": child page " ++ stdToString pageNo ++
        text " is outside the allocated index-page range")
      pure none
    else do
      Effect.modify (State.enter · pageNo)
      let result ← c.visitEntered (fun child path => visit fuel child pageNo (depth + 1) path)
        pageNo expectedParent depth path
      Effect.modify (State.leave · pageNo)
      pure result

/-! ## The leaves -/

/-- The page of the first of the leaves, or the sentinel behind the last leaf. -/
def nextPage (leaves : List LeafSnapshot) : ℤ :=
  (leaves.head?.map LeafSnapshot.pageNo).getD indexLeafHeaderPage

/-- The loop of `check_leaf_chain`, behind the leaf on the page `previous`. -/
def checkLinks : ℤ → List LeafSnapshot → CheckM Unit
  | _, [] => pure ()
  | previous, leaf :: leaves => do
    addIf (leaf.previousLeaf ≠ previous)
      (text "leaf page " ++ stdToString leaf.pageNo ++ text " previous=" ++
        stdToString leaf.previousLeaf ++ text ", expected " ++ stdToString previous)
    addIf (leaf.nextLeaf ≠ nextPage leaves)
      (text "leaf page " ++ stdToString leaf.pageNo ++ text " next=" ++
        stdToString leaf.nextLeaf ++ text ", expected " ++ stdToString (nextPage leaves))
    checkLinks leaf.pageNo leaves

/-- The check of the sentinel against the first and the last leaf. -/
def checkSentinelLinks (front back : LeafSnapshot) : Option NodeSnapshot → CheckM Unit
  | none => pure ()
  | some sentinel => do
    addIf (sentinel.nextLeaf ≠ front.pageNo)
      (text "leaf sentinel next=" ++ stdToString sentinel.nextLeaf ++ text ", expected " ++
        stdToString front.pageNo)
    addIf (sentinel.previousLeaf ≠ back.pageNo)
      (text "leaf sentinel previous=" ++ stdToString sentinel.previousLeaf ++
        text ", expected " ++ stdToString back.pageNo)

/-- `check_leaf_chain` on leaves of which these are the first and the last. -/
def checkChain (sentinel : Option NodeSnapshot) (leaves : List LeafSnapshot)
    (front back : LeafSnapshot) : CheckM Unit := do
  addIf (c.header.firstLeaf ≠ front.pageNo)
    (text "file header first_leaf=" ++ stdToString c.header.firstLeaf ++
      text ", DFS first leaf=" ++ stdToString front.pageNo)
  addIf (c.header.lastLeaf ≠ back.pageNo)
    (text "file header last_leaf=" ++ stdToString c.header.lastLeaf ++
      text ", DFS last leaf=" ++ stdToString back.pageNo)
  checkSentinelLinks front back sentinel
  checkLinks indexLeafHeaderPage leaves

/-- `check_leaf_chain`. -/
def checkLeafChain (sentinel : Option NodeSnapshot) : CheckM Unit := do
  let s ← Effect.get
  match s.leaves.head?, s.leaves.getLast? with
  | some front, some back => c.checkChain sentinel s.leaves front back
  | _, _ => add (text "reachable tree contains no leaf pages")

/-! ## The run -/

/-- The branch of `run` for an index whose header names no root. -/
def checkEmpty (sentinel : Option NodeSnapshot) : CheckM Unit :=
  if c.header.firstLeaf ≠ c.header.lastLeaf then
    add (text "empty tree has different first_leaf and last_leaf")
  else if c.header.firstLeaf ≠ indexLeafHeaderPage ∧ c.validTreePage c.header.firstLeaf = false then
    add (text "empty tree leaf endpoint is outside the allocated page range")
  else
    match sentinel with
    | none => pure ()
    | some sentinel =>
      addIf (sentinel.previousLeaf ≠ c.header.firstLeaf ∨ sentinel.nextLeaf ≠ c.header.firstLeaf)
        (text "empty tree leaf sentinel does not point to the header leaf")

/-- The check of `page_count_`. -/
def checkPageCount : CheckM Unit := do
  let s ← Effect.get
  let reachablePageCount : ℤ := s.visitedPages.card + 2
  addIf (c.header.pageCount ≠ reachablePageCount)
    (text "page_count=" ++ stdToString c.header.pageCount ++ text ", but " ++
      stdToString reachablePageCount ++ text " pages are reachable (including reserved pages)")

/-- `run`. A call of `visit` visits a page that was not visited before, so there are never more
nested calls than pages. -/
def run : CheckM Unit := do
  let sentinel ← c.readNode indexLeafHeaderPage true (text "leaf sentinel")
  sentinel.forM checkSentinelHeader
  if c.header.rootPage = indexNoPage then c.checkEmpty sentinel
  else do
    let _ ← c.visit (c.highWaterPage.toNat + 1) c.header.rootPage indexNoPage 0 (text "root")
    c.checkLeafChain sentinel
    c.checkPageCount

/-- `BPlusTreeInvariantChecker::check`: the violations of the report. -/
def check : Except Stop (List Bytes) :=
  match c.run {} with
  | (.ok (), s) => .ok s.violations
  | (.error e, _) => .error e

/-! ## What an index is -/

/-- The tree that a scan reads. -/
def tree : BPlusTree where
  fetchNode pageNo := (c.fetchPage pageNo).map c.header.nodeOfPage
  firstLeaf := c.header.firstLeaf
  lastLeaf := c.header.lastLeaf

/-- The order of two keys, as the sign of `compare_index_key`. -/
def keyOrder (left right : Bytes) : ℤ :=
  match compareStoredKey left right c.header.columnTypes c.header.columnLengths with
  | .ok sign => sign
  | .error _ => 0

/-- Two neighbouring keys are in order. Only a unique index forbids equal keys. -/
def InOrder (left right : Bytes) : Prop :=
  if c.header.unique then c.keyOrder left right < 0 else c.keyOrder left right ≤ 0

/-- A page holds a node of a tree: the page is allocated, its contents name the parent, and its size
and the order of its keys are those of a node. -/
structure NodeAt (pageNo parent : ℤ) (page : Bytes) : Prop where
  valid : c.validTreePage pageNo = true
  fetch : c.fetchPage pageNo = some page
  parentPage : (c.snapshotOf page).parentPage = parent
  nonneg : 0 ≤ (c.snapshotOf page).size
  lt_maximumSize : (c.snapshotOf page).size < c.maximumSize
  minimumSize_le : pageNo ≠ c.header.rootPage → c.minimumSize ≤ (c.snapshotOf page).size
  two_le : pageNo = c.header.rootPage → (c.snapshotOf page).isLeaf = false →
    2 ≤ (c.snapshotOf page).size
  ordered : (c.snapshotOf page).keys.IsChain c.InOrder

end Checker

/-- What lies below a page: the pages, the page itself first, and from left to right the leaves and
their keys. -/
@[ext]
structure Shape where
  pages : List ℤ
  leaves : List Leaf
  keys : List Bytes

namespace Shape

/-- The shape of a leaf. -/
def leaf (leaf : Leaf) (keys : List Bytes) : Shape := ⟨[leaf.pageNo], [leaf], keys⟩

/-- Shapes one behind the other. -/
def concat (shapes : List Shape) : Shape where
  pages := shapes.flatMap Shape.pages
  leaves := shapes.flatMap Shape.leaves
  keys := shapes.flatMap Shape.keys

/-- The shape of an internal node over the shapes of its children. -/
def node (pageNo : ℤ) (below : Shape) : Shape := { below with pages := pageNo :: below.pages }

end Shape

variable (c : Checker)

/-- A slot of an internal node holds a key and a child. What is below the child begins with a key
that has the place of this key. -/
def Holds (subtree : ℤ → Shape → Prop) (slot : Bytes × ℤ) (below : Shape) : Prop :=
  subtree slot.2 below ∧ ∃ first, below.keys.head? = some first ∧ c.keyOrder slot.1 first = 0

/-- The page is the root of a subtree of the height and the shape: a leaf has height 0, and below an
internal node there are subtrees of one height. -/
def Subtree : ℕ → ℤ → ℤ → Shape → Prop
  | 0, pageNo, parent, shape => ∃ page, c.NodeAt pageNo parent page ∧
      (c.snapshotOf page).isLeaf = true ∧
      shape = .leaf ⟨pageNo, c.header.nodeOfPage page⟩ (c.snapshotOf page).keys
  | height + 1, pageNo, parent, shape => ∃ page shapes, c.NodeAt pageNo parent page ∧
      (c.snapshotOf page).isLeaf = false ∧
      List.Forall₂ (c.Holds fun child below => Subtree height child pageNo below)
        ((c.snapshotOf page).keys.zip (c.snapshotOf page).children) shapes ∧
      shape = .node pageNo (.concat shapes)

/-- The sentinel of the chain of leaves is an empty leaf without a parent. -/
def IsSentinel (page : Bytes) : Prop :=
  c.fetchPage indexLeafHeaderPage = some page ∧ indexLeafHeaderPage < c.highWaterPage ∧
    (c.snapshotOf page).isLeaf = true ∧ (c.snapshotOf page).size = 0 ∧
    (c.snapshotOf page).parentPage = indexNoPage

/-- The pages store an index. -/
inductive WellFormed : Prop
  /-- There is no root, and the ends of the chain are one page, on both sides of the sentinel. -/
  | empty {page : Bytes} (root : c.header.rootPage = indexNoPage) (sentinel : c.IsSentinel page)
      (ends : c.header.firstLeaf = c.header.lastLeaf)
      (valid : c.header.firstLeaf = indexLeafHeaderPage ∨
        c.validTreePage c.header.firstLeaf = true)
      (previous : (c.snapshotOf page).previousLeaf = c.header.firstLeaf)
      (next : (c.snapshotOf page).nextLeaf = c.header.firstLeaf)
  /-- Below the root there is a tree of pages, none of them twice. Its keys are in order from left
  to right, its leaves form the chain, and the header counts its pages and the two before it. -/
  | tree {page : Bytes} {height : ℕ} {shape : Shape} (root : c.header.rootPage ≠ indexNoPage)
      (sentinel : c.IsSentinel page)
      (subtree : c.Subtree height c.header.rootPage indexNoPage shape)
      (pages : shape.pages.Nodup) (keys : shape.keys.IsChain c.InOrder)
      (leaves : LeafChain c.tree shape.leaves)
      (pageCount : c.header.pageCount = shape.pages.length + 2)

end Checker

end Rucbase
