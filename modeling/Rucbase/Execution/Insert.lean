import Rucbase.Index.Key
import Mathlib.Data.Multiset.AddSub

/-!
# INSERT over a table and its indexes

`InsertExecutor::next` (`src/execution/executor_insert.h`) stores the record and then adds one entry
to each index of the table. When an index step throws, it deletes the entries that it has added,
last one first, deletes the record, and throws on. The storage calls follow their documented
contracts, and what they decide (where the record goes, which call throws) is arbitrary.

The undo pairs each deletion with the addition it takes back, so it restores the storage from any
point of the loop (`undo_insertEntries`), and a failed INSERT changes nothing (`next_error`). A loop
that runs to its end adds to each tree the entries of all indexes that reach the tree by their
file name (`insertEntries_indexes`). That is one entry for each index exactly when the
file names of the table's indexes are different (`atomic_iff`), which `make_index_name` does not
ensure: it joins column names with `_`, and `_` may stand in a column name.
-/

namespace Rucbase

open Lib

/-- What an INSERT touches: the records of the table's file, and the trees of `indexes_` as the
entries they hold, by file name. -/
@[ext]
structure Storage where
  records : Rid → Option Bytes
  indexes : Bytes → Option (Multiset (Bytes × Rid))

namespace Storage

/-- `insert_record`, when it puts the record at `rid`. -/
def insertRecord (st : Storage) (rid : Rid) (record : Bytes) : Storage :=
  { st with records := Function.update st.records rid (some record) }

/-- `delete_record`. -/
def deleteRecord (st : Storage) (rid : Rid) : Storage :=
  { st with records := Function.update st.records rid none }

/-- `insert_entry` on the tree of a file name, when it does not throw. -/
def insertEntry (st : Storage) (name key : Bytes) (rid : Rid) : Storage :=
  { st with
    indexes := Function.update st.indexes name
      ((st.indexes name).map fun tree => (key, rid) ::ₘ tree) }

/-- `delete_entry` on the tree of a file name. -/
def deleteEntry (st : Storage) (name key : Bytes) (rid : Rid) : Storage :=
  { st with
    indexes := Function.update st.indexes name
      ((st.indexes name).map fun tree => tree.erase (key, rid)) }

/-- Deleting a record that was stored at a free place. -/
theorem deleteRecord_insertRecord {st : Storage} {rid : Rid} (hfree : st.records rid = none)
    (record : Bytes) : (st.insertRecord rid record).deleteRecord rid = st := by
  ext1
  · simp only [insertRecord, deleteRecord, Function.update_idem]
    rw [← hfree, Function.update_eq_self]
  · rfl

/-- Adding an entry adds it to the tree of its file name and nothing to the others. -/
theorem indexes_insertEntry (st : Storage) (name key : Bytes) (rid : Rid) (other : Bytes) :
    (st.insertEntry name key rid).indexes other =
      (st.indexes other).map (· + if name = other then {(key, rid)} else 0) := by
  by_cases h : name = other
  · subst h
    have hcons : ∀ tree : Multiset (Bytes × Rid), (key, rid) ::ₘ tree = tree + {(key, rid)} :=
      fun tree => by rw [Multiset.add_comm, Multiset.singleton_add]
    simp [insertEntry, hcons]
  · simp [insertEntry, h, Function.update_of_ne (Ne.symm h)]

/-- Deleting an entry that was just added. -/
theorem deleteEntry_insertEntry (st : Storage) (name key : Bytes) (rid : Rid) :
    (st.insertEntry name key rid).deleteEntry name key rid = st := by
  ext1
  · rfl
  · simp only [insertEntry, deleteEntry, Function.update_idem, Function.update_self, Option.map_map]
    have herase : ((fun tree : Multiset (Bytes × Rid) => tree.erase (key, rid)) ∘
        fun tree => (key, rid) ::ₘ tree) = id := by
      funext tree
      simp
    rw [herase, Option.map_id, id, Function.update_eq_self]

end Storage

namespace InsertExecutor

/-- What the storage decides during one call: where the record goes, and which index step
throws. -/
structure Outcomes where
  insertRecord : Except Error Rid
  /-- What the `insert_entry` of the `k`-th index throws, if it does. -/
  insertEntry : ℕ → Option Error

/-- The loop of `next` over the indexes, from the `k`-th on: what it throws, if it does, the
storage, and the entries that it has added, in order. -/
def insertEntries (tabName record : Bytes) (rid : Rid) (throws : ℕ → Option Error) :
    List IndexMeta → ℕ → Storage → List (Bytes × Bytes) →
      Option Error × Storage × List (Bytes × Bytes)
  | [], _, st, inserted => (none, st, inserted)
  | index :: indexes, k, st, inserted =>
    let name := index.fileName tabName
    match st.indexes name with
    | none => (some .outOfRange, st, inserted)
    | some _ =>
      let key := index.makeKey record
      match throws k with
      | some e => (some e, st, inserted)
      | none =>
        insertEntries tabName record rid throws indexes (k + 1) (st.insertEntry name key rid)
          (inserted ++ [(name, key)])

/-- The deletion of the added entries, last one first. -/
def undo (rid : Rid) (inserted : List (Bytes × Bytes)) (st : Storage) : Storage :=
  inserted.reverse.foldl (fun st entry => st.deleteEntry entry.1 entry.2 rid) st

/-- `next`: the place of the new record, or what it throws, and the storage that it leaves. -/
def next (exec : InsertExecutor) (garbage : ℕ → UInt8) (outcomes : Outcomes) (st : Storage) :
    Except Error Rid × Storage :=
  match exec.makeRecord garbage with
  | .error e => (.error e, st)
  | .ok record =>
    match outcomes.insertRecord with
    | .error e => (.error e, st)
    | .ok rid =>
      match insertEntries exec.tabName record rid outcomes.insertEntry exec.tab.indexes 0
          (st.insertRecord rid record) [] with
      | (none, st, _) => (.ok rid, st)
      | (some e, st, inserted) => (.error e, (undo rid inserted st).deleteRecord rid)

/-! ## A failed INSERT -/

/-- Undoing one more entry, on a storage to which it was just added, undoes the others. -/
theorem undo_append (rid : Rid) (inserted : List (Bytes × Bytes)) (name key : Bytes)
    (st : Storage) :
    undo rid (inserted ++ [(name, key)]) (st.insertEntry name key rid) = undo rid inserted st := by
  simp [undo, Storage.deleteEntry_insertEntry]

/-- The undo takes back what the loop has done, wherever it stopped. -/
theorem undo_insertEntries (tabName record : Bytes) (rid : Rid) (throws : ℕ → Option Error)
    (indexes : List IndexMeta) (k : ℕ) (st : Storage) (inserted : List (Bytes × Bytes)) :
    let result := insertEntries tabName record rid throws indexes k st inserted
    undo rid result.2.2 result.2.1 = undo rid inserted st := by
  induction indexes generalizing k st inserted with
  | nil => rfl
  | cons index indexes ih =>
    simp only [insertEntries]
    split
    · rfl
    · split
      · rfl
      · rw [ih, undo_append]

variable {exec : InsertExecutor} {garbage : ℕ → UInt8} {st : Storage} {indexes : List IndexMeta}
  {record tabName : Bytes} {rid : Rid} {tab : TabMeta}

/-- An INSERT that throws leaves the records and all trees as they were, at whatever step it
throws. -/
theorem next_error {outcomes : Outcomes}
    (hfree : ∀ rid, outcomes.insertRecord = .ok rid → st.records rid = none) {e : Error}
    (h : (exec.next garbage outcomes st).1 = .error e) :
    (exec.next garbage outcomes st).2 = st := by
  unfold next at h ⊢
  cases hrecord : exec.makeRecord garbage with
  | error e => rfl
  | ok record =>
    cases hrid : outcomes.insertRecord with
    | error e => rfl
    | ok rid =>
      simp only [hrecord, hrid] at h ⊢
      have hundo := undo_insertEntries exec.tabName record rid outcomes.insertEntry
        exec.tab.indexes 0 (st.insertRecord rid record) []
      generalize insertEntries exec.tabName record rid outcomes.insertEntry exec.tab.indexes 0
        (st.insertRecord rid record) [] = result at h hundo ⊢
      obtain ⟨thrown, st', inserted⟩ := result
      cases thrown with
      | none => simp at h
      | some e =>
        have hrestored : undo rid inserted st' = st.insertRecord rid record := hundo
        simp only [hrestored]
        exact Storage.deleteRecord_insertRecord (hfree rid hrid) record

/-! ## An INSERT that returns -/

/-- The entries that an INSERT adds to the tree of a file name. -/
def entriesFor (tabName record : Bytes) (rid : Rid) (indexes : List IndexMeta) (name : Bytes) :
    Multiset (Bytes × Rid) :=
  ((indexes.filter fun index => index.fileName tabName = name).map
    fun index => (index.makeKey record, rid) : List (Bytes × Rid))

theorem entriesFor_cons (tabName record : Bytes) (rid : Rid) (index : IndexMeta)
    (indexes : List IndexMeta) (name : Bytes) :
    entriesFor tabName record rid (index :: indexes) name =
      (if index.fileName tabName = name then {(index.makeKey record, rid)} else 0) +
        entriesFor tabName record rid indexes name := by
  by_cases h : index.fileName tabName = name
  · simp [entriesFor, h, Multiset.singleton_add]
  · simp [entriesFor, h]

/-- A loop that runs to its end adds every entry to the tree of its index's file name, which it
has found, and touches nothing else. -/
theorem insertEntries_indexes {throws : ℕ → Option Error} {k : ℕ} {st' : Storage}
    {inserted inserted' : List (Bytes × Bytes)}
    (h : insertEntries tabName record rid throws indexes k st inserted = (none, st', inserted')) :
    st'.records = st.records ∧
      (∀ index ∈ indexes, (st.indexes (index.fileName tabName)).isSome) ∧
      ∀ name, st'.indexes name =
        (st.indexes name).map (· + entriesFor tabName record rid indexes name) := by
  induction indexes generalizing k st inserted with
  | nil =>
    simp only [insertEntries, Prod.mk.injEq, true_and] at h
    simp [← h.1, entriesFor]
  | cons index indexes ih =>
    simp only [insertEntries] at h
    split at h
    · simp at h
    · next tree htree =>
      split at h
      · simp at h
      · obtain ⟨hrecords, hsome, hindexes⟩ := ih h
        refine ⟨hrecords, ?_, fun name => ?_⟩
        · intro other hother
          rcases List.mem_cons.mp hother with rfl | hother
          · rw [htree]
            rfl
          · simpa [Storage.indexes_insertEntry] using hsome other hother
        · rw [hindexes, Storage.indexes_insertEntry, Option.map_map, entriesFor_cons]
          congr 1
          funext tree
          exact Multiset.add_assoc ..

/-- A loop whose steps find their trees and do not throw runs to its end. -/
theorem insertEntries_ok {k : ℕ} {inserted : List (Bytes × Bytes)}
    (hsome : ∀ name, (st.indexes name).isSome) :
    (insertEntries tabName record rid (fun _ => none) indexes k st inserted).1 = none := by
  induction indexes generalizing k st inserted with
  | nil => rfl
  | cons index indexes ih =>
    obtain ⟨tree, htree⟩ := Option.isSome_iff_exists.mp (hsome (index.fileName tabName))
    simp only [insertEntries, htree]
    exact ih fun name => by simpa [Storage.indexes_insertEntry] using hsome name

/-- An INSERT returns when its record can be built, every tree is open and no call throws. -/
theorem next_returns (hrecord : exec.makeRecord garbage = .ok record)
    (hsome : ∀ name, (st.indexes name).isSome) (rid : Rid) :
    ∃ st', exec.next garbage ⟨.ok rid, fun _ => none⟩ st = (.ok rid, st') := by
  have hloop : (insertEntries exec.tabName record rid (fun _ => none) exec.tab.indexes 0
    (st.insertRecord rid record) []).1 = none := insertEntries_ok hsome
  simp only [next, hrecord]
  generalize insertEntries exec.tabName record rid (fun _ => none) exec.tab.indexes 0
    (st.insertRecord rid record) [] = result at hloop ⊢
  obtain ⟨thrown, st', inserted⟩ := result
  obtain rfl : thrown = none := hloop
  exact ⟨st', rfl⟩

/-- What an INSERT that returns has done. -/
theorem next_ok {outcomes : Outcomes} {st' : Storage}
    (h : exec.next garbage outcomes st = (.ok rid, st')) :
    ∃ record, exec.makeRecord garbage = .ok record ∧ outcomes.insertRecord = .ok rid ∧
      st'.records = Function.update st.records rid (some record) ∧
      (∀ index ∈ exec.tab.indexes, (st.indexes (index.fileName exec.tabName)).isSome) ∧
      ∀ name, st'.indexes name =
        (st.indexes name).map (· + entriesFor exec.tabName record rid exec.tab.indexes name) := by
  unfold next at h
  cases hrecord : exec.makeRecord garbage with
  | error e => simp [hrecord] at h
  | ok record =>
    cases hrid : outcomes.insertRecord with
    | error e => simp [hrecord, hrid] at h
    | ok rid' =>
      simp only [hrecord, hrid] at h
      generalize hloop : insertEntries exec.tabName record rid' outcomes.insertEntry
        exec.tab.indexes 0 (st.insertRecord rid' record) [] = result at h
      obtain ⟨thrown, st'', inserted⟩ := result
      cases thrown with
      | some e => simp at h
      | none =>
        simp only [Prod.mk.injEq, Except.ok.injEq] at h
        obtain ⟨rfl, rfl⟩ := h
        obtain ⟨hrecords, hsome, hindexes⟩ := insertEntries_indexes hloop
        exact ⟨record, rfl, rfl, hrecords, hsome, hindexes⟩

/-! ## Atomicity -/

/-- What an INSERT promises of the storage before it and what it returns and leaves. If it throws,
nothing has changed; if it returns, the record is at a place that was free, each index of the table
has gained the one entry for it, and every other tree is as it was. -/
def AtomicStep (exec : InsertExecutor) (garbage : ℕ → UInt8) (st : Storage) :
    Except Error Rid × Storage → Prop
  | (.error _, st') => st' = st
  | (.ok rid, st') => ∃ record, exec.makeRecord garbage = .ok record ∧ st.records rid = none ∧
      st'.records = Function.update st.records rid (some record) ∧
      (∀ index ∈ exec.tab.indexes, ∃ tree, st.indexes (index.fileName exec.tabName) = some tree ∧
        st'.indexes (index.fileName exec.tabName) = some ((index.makeKey record, rid) ::ₘ tree)) ∧
      ∀ name ∉ exec.tab.indexes.map (·.fileName exec.tabName), st'.indexes name = st.indexes name

/-- Every INSERT into the table keeps the promise, from every storage, whatever the storage
calls decide. -/
def Atomic (tab : TabMeta) : Prop :=
  ∀ (exec : InsertExecutor) (garbage : ℕ → UInt8) (outcomes : Outcomes) (st : Storage),
    exec.tab = tab → exec.tabName = tab.name →
    (∀ rid, outcomes.insertRecord = .ok rid → st.records rid = none) →
    exec.AtomicStep garbage st (exec.next garbage outcomes st)

/-- A tree gains as many entries as indexes reach it. -/
theorem card_entriesFor (tabName record : Bytes) (rid : Rid) (indexes : List IndexMeta)
    (name : Bytes) : (entriesFor tabName record rid indexes name).card =
      (indexes.map (·.fileName tabName)).count name := by
  rw [entriesFor, Multiset.coe_card, List.length_map, ← List.countP_eq_length_filter, List.count,
    List.countP_map]
  refine congrArg (List.countP · indexes) (funext fun index => ?_)
  exact (beq_eq_decide _ _).symm

/-- When the file names are different, an index is the only one that reaches its tree. -/
theorem entriesFor_fileName (hnodup : (indexes.map (·.fileName tabName)).Nodup)
    {index : IndexMeta} (hindex : index ∈ indexes) :
    entriesFor tabName record rid indexes (index.fileName tabName) =
      {(index.makeKey record, rid)} := by
  have hmem : (index.makeKey record, rid) ∈
      entriesFor tabName record rid indexes (index.fileName tabName) := by
    simp only [entriesFor, Multiset.mem_coe, List.mem_map, List.mem_filter, decide_eq_true_eq]
    exact ⟨index, ⟨hindex, rfl⟩, rfl⟩
  have hcard := card_entriesFor tabName record rid indexes (index.fileName tabName)
  rw [List.count_eq_one_of_mem hnodup (List.mem_map_of_mem hindex)] at hcard
  obtain ⟨entry, hentry⟩ := Multiset.card_eq_one.mp hcard
  rw [hentry] at hmem ⊢
  rw [Multiset.mem_singleton.mp hmem]

theorem entriesFor_of_notMem {name : Bytes} (h : name ∉ indexes.map (·.fileName tabName)) :
    entriesFor tabName record rid indexes name = 0 := by
  rw [← Multiset.card_eq_zero, card_entriesFor, List.count_eq_zero.mpr h]

/-- INSERT is atomic over a table whose index files have different names. -/
theorem atomic_of_nodup (hnodup : (tab.indexes.map (·.fileName tab.name)).Nodup) : Atomic tab := by
  intro exec garbage outcomes st htab hname hfree
  generalize hnext : exec.next garbage outcomes st = result
  obtain ⟨outcome, st'⟩ := result
  cases outcome with
  | error e =>
    have hsame := next_error hfree (congrArg Prod.fst hnext)
    rw [hnext] at hsame
    exact hsame
  | ok rid =>
    obtain ⟨record, hrecord, hrid, hrecords, hsome, hindexes⟩ := next_ok hnext
    rw [← hname, ← htab] at hnodup
    refine ⟨record, hrecord, hfree rid hrid, hrecords, ?_, ?_⟩
    · intro index hindex
      obtain ⟨tree, htree⟩ := Option.isSome_iff_exists.mp (hsome index hindex)
      refine ⟨tree, htree, ?_⟩
      rw [hindexes, htree, entriesFor_fileName hnodup hindex, Option.map_some, Multiset.add_comm,
        Multiset.singleton_add]
    · intro name hother
      rw [hindexes, entriesFor_of_notMem hother]
      simp

/-- A value for a column: zero, or the empty string. -/
def zeroValue (col : ColMeta) : Value :=
  let v : Value := ⟨col.type, 0, [], none⟩
  { v with raw := some (v.encoding col.len) }

theorem zeroValue_encodedFor {col : ColMeta} (h : col.ValidLen) :
    (zeroValue col).EncodedFor col :=
  ⟨rfl, rfl, Value.length_encoding h.2 fun _ => h.1.le⟩

/-- The INSERT of zeros into a valid table. -/
def insertZeros (tab : TabMeta) : InsertExecutor where
  tab := tab
  values := tab.cols.map zeroValue
  tabName := tab.name
  recordSize := (tab.cols.map ColMeta.len).sum
  length_values := List.length_map ..

theorem makeRecord_insertZeros (htab : tab.Valid) (garbage : ℕ → UInt8) :
    ∃ record, (insertZeros tab).makeRecord garbage = .ok record := by
  have henc :
      List.Forall₂ Value.EncodedFor (insertZeros tab).values (insertZeros tab).tab.cols := by
    show List.Forall₂ Value.EncodedFor (tab.cols.map zeroValue) tab.cols
    rw [List.forall₂_map_left_iff, List.forall₂_same]
    exact fun col hcol => zeroValue_encodedFor (htab.validLen col hcol)
  exact ⟨_, makeRecord_eq henc htab.tiles rfl garbage⟩

/-- The index files of a valid table have different names when INSERT is atomic over it. -/
theorem nodup_of_atomic (htab : tab.Valid) (hatomic : Atomic tab) :
    (tab.indexes.map (·.fileName tab.name)).Nodup := by
  -- From empty trees, an INSERT that no call stops leaves each tree with as many entries as
  -- indexes reach it; the promise says that it is one.
  let st : Storage := ⟨fun _ => none, fun _ => some 0⟩
  let rid : Rid := ⟨0, 0⟩
  obtain ⟨record, hrecord⟩ := makeRecord_insertZeros htab fun _ => 0
  have hopen : ∀ name, (st.indexes name).isSome := fun _ => rfl
  obtain ⟨st', hnext⟩ := next_returns hrecord hopen rid
  have hstep := hatomic (insertZeros tab) (fun _ => 0) ⟨.ok rid, fun _ => none⟩ st rfl rfl
    fun _ _ => rfl
  rw [hnext] at hstep
  obtain ⟨record, -, -, -, hgain, -⟩ := hstep
  obtain ⟨_, -, -, -, -, hindexes⟩ := next_ok hnext
  rw [List.nodup_iff_count_le_one]
  intro name
  by_cases hmem : name ∈ tab.indexes.map (·.fileName tab.name)
  · obtain ⟨index, hindex, rfl⟩ := List.mem_map.mp hmem
    obtain ⟨tree, htree, hafter⟩ := hgain index hindex
    rw [hindexes] at hafter
    have hcard := congrArg (Option.map Multiset.card) hafter
    obtain rfl : 0 = tree := Option.some.inj htree
    simp only [st, Option.map_some, Multiset.card_add, card_entriesFor, Multiset.card_cons,
      Multiset.card_zero, Option.some.injEq] at hcard
    have hcount : (tab.indexes.map (·.fileName tab.name)).count (index.fileName tab.name) = 1 := by
      simpa [insertZeros] using hcard
    exact hcount.le
  · rw [List.count_eq_zero.mpr hmem]
    exact Nat.zero_le 1

/-- INSERT is atomic over a valid table exactly when the files of its indexes have different
names. -/
theorem atomic_iff (tab : TabMeta) (htab : tab.Valid) :
    Atomic tab ↔ (tab.indexes.map (·.fileName tab.name)).Nodup :=
  ⟨nodup_of_atomic htab, atomic_of_nodup⟩

/-- The sample table's only index has a name of its own. -/
theorem atomic_iff_student : Atomic studentTable :=
  (atomic_iff studentTable studentTable_valid).mpr (by decide)

/-- A table with the columns `a_b`, `a` and `b`, and an index on the first and one on the other
two. -/
def collidingTable : TabMeta :=
  let ab : ColMeta := ⟨text "t", text "a_b", .int, 4, 0, true⟩
  let a : ColMeta := ⟨text "t", text "a", .int, 4, 4, true⟩
  let b : ColMeta := ⟨text "t", text "b", .int, 4, 8, true⟩
  ⟨text "t", [ab, a, b], [⟨text "t", 4, 1, false, [ab]⟩, ⟨text "t", 8, 2, false, [a, b]⟩]⟩

theorem collidingTable_valid : collidingTable.Valid := by decide

/-- The two indexes of the table share the file `t_a_b.idx`: an INSERT of zeros adds both entries to
the one tree, so neither index has gained exactly its own. -/
theorem not_atomic_collidingTable :
    collidingTable.Valid ∧ ¬ Atomic collidingTable := by
  refine ⟨collidingTable_valid, fun hatomic => ?_⟩
  have hnodup := nodup_of_atomic collidingTable_valid hatomic
  exact absurd hnodup (by decide)

end InsertExecutor

end Rucbase
