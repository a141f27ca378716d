import Rucbase.Index.Checker

/-!
# Checks of an index

A check of the checker adds to the report when its condition fails and leaves everything else as it
is (`Checks`). Checks one after the other are one check of all their conditions, so what the checker
looks at in a single node comes down to one condition on the node (`checkNode_checks`).
-/

namespace Rucbase.Checker

open Lib

/-! ## Checks -/

/-- The computation does no more than to report: it reports nothing exactly when the condition
holds. -/
def Checks (m : CheckM Unit) (condition : Prop) : Prop :=
  ∀ s, ∃ violations, m s = (.ok (), { s with violations := violations }) ∧
    (violations = [] ↔ s.violations = [] ∧ condition)

section Checks

variable {m n : CheckM Unit} {p q : Prop}

theorem checks_pure : Checks (pure ()) True := fun s => ⟨s.violations, rfl, by simp⟩

theorem checks_add (violation : Bytes) : Checks (add violation) False := by
  intro s
  by_cases hfull : s.violations.length < kMaxViolations
  · refine ⟨s.violations ++ [violation], ?_, by simp⟩
    rw [add, Effect.modify_apply, if_pos hfull]
  · refine ⟨s.violations, ?_, ?_⟩
    · rw [add, Effect.modify_apply, if_neg hfull]
    · -- A full report is not empty.
      constructor
      · intro hnil
        simp [hnil, kMaxViolations] at hfull
      · exact fun h => h.2.elim

theorem checks_addIf (p : Prop) [Decidable p] (violation : Bytes) :
    Checks (addIf p violation) (¬p) := by
  unfold addIf
  split_ifs with hp
  · simpa [hp] using checks_add violation
  · simpa [hp] using checks_pure

theorem Checks.congr (h : Checks m p) (hpq : p ↔ q) : Checks m q := by
  rwa [← propext hpq]

/-- Two checks one after the other check both conditions. -/
theorem Checks.seq (hm : Checks m p) (hn : Checks n q) : Checks (m >>= fun _ => n) (p ∧ q) := by
  intro s
  obtain ⟨violations, hrun, hiff⟩ := hm s
  obtain ⟨violations', hrun', hiff'⟩ := hn { s with violations := violations }
  refine ⟨violations', ?_, ?_⟩
  · rw [Effect.bind_of_ok hrun, hrun']
  · rw [hiff', hiff, and_assoc]

/-- A check behind a computation that only looks. -/
theorem Checks.after {α : Type} {x : CheckM α} {a : α} {f : α → CheckM Unit}
    (hx : ∀ s, x s = (.ok a, s)) (h : Checks (f a) p) : Checks (x >>= f) p := by
  intro s
  rw [Effect.bind_of_ok (hx s)]
  exact h s

end Checks

/-! ## Keys -/

/-- What the checker relies on: the header is one that `deserialize` accepts and `compare_index_key`
does not throw on, and the pages have the size of a page. -/
structure Readable (c : Checker) : Prop where
  valid : c.header.Valid
  comparable : ∀ column ∈ c.header.columnTypes.zip c.header.columnLengths, ComparableColumn column
  pageSize : ∀ pageNo page, c.fetchPage pageNo = some page → page.length = pageSize

variable {c : Checker}

/-- Keys of the index's length are compared without an exception. -/
theorem Readable.compareKeys (h : c.Readable) {left right : Bytes}
    (hleft : left.length = c.header.keyLength) (hright : right.length = c.header.keyLength)
    (s : State) : c.compareKeys left right s = (.ok (c.keyOrder left right), s) := by
  have hlengths : (c.header.columnTypes.zip c.header.columnLengths).map Prod.snd =
      c.header.columnLengths := List.map_snd_zip h.valid.columnTypes.ge
  have hsum := h.valid.keyLength
  have hpos : ∀ column ∈ c.header.columnTypes.zip c.header.columnLengths, 0 < column.2 := by
    intro column hcolumn
    exact h.valid.len_pos _ (List.of_mem_zip hcolumn).2
  obtain ⟨sign, hsign⟩ := compareStoredColumns_returns hpos h.comparable
    (by rw [hlengths]; omega : _ ≤ (left.length : ℤ))
    (by rw [hlengths]; omega : _ ≤ (right.length : ℤ))
  have hkey : compareStoredKey left right c.header.columnTypes c.header.columnLengths =
      .ok sign := by
    rw [compareStoredKey, throwIf_bind (not_not.mpr h.valid.columnTypes), hsign]
  unfold Checker.compareKeys keyOrder
  rw [hkey]
  rfl

theorem Readable.outOfOrder (h : c.Readable) {left right : Bytes}
    (hleft : left.length = c.header.keyLength) (hright : right.length = c.header.keyLength) :
    ∃ wrong : Bool, (wrong = true ↔ ¬c.InOrder left right) ∧
      ∀ s, c.outOfOrder left right s = (.ok wrong, s) := by
  refine ⟨_, ?_, fun s => Effect.bind_of_ok (h.compareKeys hleft hright s)⟩
  unfold InOrder
  split_ifs <;> simp

theorem size_snapshotOf (c : Checker) (page : Bytes) :
    (c.snapshotOf page).size = (IndexPageHeader.ofPage page).keyCount := by
  unfold snapshotOf
  dsimp only

theorem keys_snapshotOf (c : Checker) (page : Bytes) :
    (c.snapshotOf page).keys = (List.range (c.snapshotOf page).size.toNat).map fun i : ℕ =>
      slice page ((NodeView.make c.header).getKey i).toNat c.header.keyLength.toNat := by
  unfold snapshotOf
  dsimp only

/-- The keys of a node have the index's length. -/
theorem Readable.length_key (h : c.Readable) {pageNo : ℤ} {page : Bytes}
    (hfetch : c.fetchPage pageNo = some page)
    (hsize : (c.snapshotOf page).size ≤ c.header.treeOrder + 1) :
    ∀ key ∈ (c.snapshotOf page).keys, (key.length : ℤ) = c.header.keyLength := by
  intro key hkey
  rw [keys_snapshotOf] at hkey
  obtain ⟨i, hi, rfl⟩ := List.mem_map.mp hkey
  rw [List.mem_range] at hi
  have hslot : (i : ℤ) ≤ c.header.treeOrder := by omega
  have hbounds := h.valid.address_bounds ⟨.keys, i, Int.natCast_nonneg i, hslot⟩
  have hpos := h.valid.keyLength_pos
  have hpage := h.pageSize pageNo page hfetch
  unfold IndexFileHeader.Slot.address IndexFileHeader.Slot.size at hbounds
  dsimp only at hbounds
  have hheader : IndexFileHeader.sizeofPageHeader = 24 := rfl
  rw [length_slice (by omega)]
  omega

theorem checkLocalKeyOrder_checks (h : c.Readable) (path : Bytes) (i : ℕ) {keys : List Bytes}
    (hkeys : ∀ key ∈ keys, (key.length : ℤ) = c.header.keyLength) :
    Checks (c.checkLocalKeyOrder path i keys) (keys.IsChain c.InOrder) := by
  induction keys generalizing i with
  | nil => exact checks_pure.congr (by simp)
  | cons left keys ih =>
    cases keys with
    | nil => exact checks_pure.congr (by simp)
    | cons right keys =>
      obtain ⟨hleft, hkeys⟩ := List.forall_mem_cons.mp hkeys
      have hright := hkeys right List.mem_cons_self
      obtain ⟨wrong, hwrong, hrun⟩ := h.outOfOrder hleft hright
      refine Checks.after hrun (((checks_addIf _ _).seq (ih (i + 1) hkeys)).congr ?_)
      rw [List.isChain_cons_cons, hwrong, not_not]

/-! ## Nodes -/

/-- A violation is never lost. -/
theorem add_run (violation : Bytes) (s : State) : ∃ violations, violations ≠ [] ∧
    add violation s = (.ok (), { s with violations := violations }) := by
  obtain ⟨violations, hrun, hiff⟩ := checks_add violation s
  exact ⟨violations, fun hnil => (hiff.mp hnil).2, hrun⟩

/-- A violation and nothing else. -/
theorem add_none_run {α : Type} (violation : Bytes) (s : State) : ∃ violations, violations ≠ [] ∧
    (do add violation; pure none : CheckM (Option α)) s =
      (.ok none, { s with violations := violations }) := by
  obtain ⟨violations, hne, hrun⟩ := add_run violation s
  exact ⟨violations, hne, Effect.bind_of_ok hrun⟩

/-- The page can be read: it is allocated, has a frame, and its size is that of a node, or one
more. -/
structure ReadableAt (c : Checker) (minimum pageNo : ℤ) (page : Bytes) : Prop where
  minimum_le : minimum ≤ pageNo
  lt_highWaterPage : pageNo < c.highWaterPage
  fetch : c.fetchPage pageNo = some page
  nonneg : 0 ≤ (c.snapshotOf page).size
  le_maximumSize : (c.snapshotOf page).size ≤ c.header.treeOrder + 1

theorem ReadableAt.readNode {allowSentinel : Bool} {pageNo : ℤ} {page : Bytes}
    (h : c.ReadableAt (minimumPage allowSentinel) pageNo page) (context : Bytes) (s : State) :
    c.readNode pageNo allowSentinel context s = (.ok (some (c.snapshotOf page)), s) := by
  have hrange : ¬(pageNo < minimumPage allowSentinel ∨ c.highWaterPage ≤ pageNo) :=
    not_or.mpr ⟨h.minimum_le.not_gt, h.lt_highWaterPage.not_ge⟩
  have hsize := not_or.mpr ⟨h.nonneg.not_gt, h.le_maximumSize.not_gt⟩
  rw [size_snapshotOf] at hsize
  unfold Checker.readNode
  rw [if_neg hrange, h.fetch]
  dsimp only
  rw [if_neg hsize]
  rfl

/-- A page that cannot be read is a violation. -/
theorem readNode_cases (c : Checker) (pageNo : ℤ) (allowSentinel : Bool) (context : Bytes) :
    (∃ page, c.ReadableAt (minimumPage allowSentinel) pageNo page) ∨
      ∀ s, ∃ violations, violations ≠ [] ∧ c.readNode pageNo allowSentinel context s =
        (.ok none, { s with violations := violations }) := by
  unfold Checker.readNode
  dsimp only
  split_ifs with hrange
  · exact .inr fun s => add_none_run _ s
  · cases hfetch : c.fetchPage pageNo with
    | none => exact .inr fun s => add_none_run _ s
    | some page =>
      dsimp only
      split_ifs with hsize
      · exact .inr fun s => add_none_run _ s
      · rw [not_or, not_lt, not_le] at hrange
        rw [← size_snapshotOf c, not_or, not_lt, not_lt] at hsize
        exact .inl ⟨page, hrange.1, hrange.2, hfetch, hsize.1, hsize.2⟩

/-- The conditions of a node apart from those on what is below it. -/
structure Fine (c : Checker) (pageNo parent : ℤ) (snapshot : NodeSnapshot) : Prop where
  parentPage : snapshot.parentPage = parent
  lt_maximumSize : snapshot.size < c.maximumSize
  minimumSize_le : pageNo ≠ c.header.rootPage → c.minimumSize ≤ snapshot.size
  two_le : pageNo = c.header.rootPage → snapshot.isLeaf = false → 2 ≤ snapshot.size
  ordered : snapshot.keys.IsChain c.InOrder

theorem checkNode_checks (h : c.Readable) (pageNo parent : ℤ) (path : Bytes)
    {snapshot : NodeSnapshot}
    (hkeys : ∀ key ∈ snapshot.keys, (key.length : ℤ) = c.header.keyLength) :
    Checks (c.checkNode pageNo parent path snapshot) (c.Fine pageNo parent snapshot) := by
  refine ((checks_addIf _ _).seq ((checks_addIf _ _).seq ((checks_addIf _ _).seq
    ((checks_addIf _ _).seq (checkLocalKeyOrder_checks h path 0 hkeys))))).congr ?_
  rw [not_not, not_le, not_and, not_lt, not_and, not_and, not_lt]
  exact ⟨fun ⟨h₁, h₂, h₃, h₄, h₅⟩ => ⟨h₁, h₂, h₃, h₄, h₅⟩,
    fun ⟨h₁, h₂, h₃, h₄, h₅⟩ => ⟨h₁, h₂, h₃, h₄, h₅⟩⟩

theorem nodeAt_iff {pageNo parent : ℤ} {page : Bytes} :
    c.NodeAt pageNo parent page ↔ c.ReadableAt indexInitialRootPage pageNo page ∧
      c.Fine pageNo parent (c.snapshotOf page) := by
  have hvalid : c.validTreePage pageNo = true ↔
      indexInitialRootPage ≤ pageNo ∧ pageNo < c.highWaterPage := by
    rw [validTreePage, Bool.and_eq_true, decide_eq_true_iff, decide_eq_true_iff]
  constructor
  · rintro ⟨hpage, hfetch, hparent, hnonneg, hlt, hmin, htwo, hordered⟩
    obtain ⟨hlow, hhigh⟩ := hvalid.mp hpage
    exact ⟨⟨hlow, hhigh, hfetch, hnonneg, hlt.le⟩, ⟨hparent, hlt, hmin, htwo, hordered⟩⟩
  · rintro ⟨⟨hlow, hhigh, hfetch, hnonneg, -⟩, ⟨hparent, hlt, hmin, htwo, hordered⟩⟩
    exact ⟨hvalid.mpr ⟨hlow, hhigh⟩, hfetch, hparent, hnonneg, hlt, hmin, htwo, hordered⟩

end Rucbase.Checker
