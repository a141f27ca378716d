import Mathlib.Data.Int.Notation
import Mathlib.Data.List.Induction
import Mathlib.Data.List.Nodup
import Rucbase.Lib.Places
import Rucbase.Lib.Runs

/-!
# Page guards

A `PageGuard` (`src/storage/page_guard.h`, `page_guard.cpp`) owns one pin of a page of the buffer
pool: it is made by a fetch, travels by moves, and is given back by `unpin_page` when the guard is
dropped, overwritten or destroyed. An `IndexNode` (`src/index/b_plus_tree.h`) holds a guard as a
member.

The pool itself is not modelled: a fetch returns any page or none, and `unpin_page` any result. Of a
page pointer, the code reads whether it is null and, right after the fetch, the identifier of the
page. So `page` is the number of the successful fetch that has returned the pointer, if there is
one; this number tells pins of one page apart. The objects are in the order of their construction,
and `fetches`, `unpins` and `marks` record what was called.
-/

namespace Rucbase

open Lib
open scoped List

/-- `PageId`. -/
structure PageId where
  fd : ℤ := -1
  pageNo : ℤ := -1
  deriving DecidableEq, Repr

/-- A call of `unpin_page`, for the pin that the guard had. -/
structure UnpinCall where
  pin : ℕ
  pageId : PageId
  isDirty : Bool
  deriving DecidableEq, Repr

/-! ## Guards -/

/-- `PageGuard`. -/
structure PageGuard where
  /-- Whether `buffer_pool_manager_` is set. -/
  bufferPoolManager : Bool := false
  page : Option ℕ := none
  pageId : PageId := {}
  dirty : Bool := false
  deriving DecidableEq, Repr

namespace PageGuard

/-- `mark_dirty`. -/
def markDirty (guard : PageGuard) : PageGuard :=
  if guard.page.isSome then { guard with dirty := true } else guard

/-- `drop`: what it returns, when `unpin_page` returns `unpinned`, what it leaves of the guard, and
the call that it makes. -/
def drop (unpinned : Bool) (guard : PageGuard) : Bool × PageGuard × List UnpinCall :=
  match guard.page with
  | none => (true, guard, [])
  | some pin =>
    if guard.bufferPoolManager then (unpinned, {}, [⟨pin, guard.pageId, guard.dirty⟩])
    else (false, {}, [])

end PageGuard

/-! ## Objects -/

/-- The guards of a program, and the calls made so far. A place is empty when its guard has been
destroyed. -/
structure Guards where
  slots : List (Option PageGuard) := []
  /-- The identifiers of the pages that fetches have returned. -/
  fetches : List PageId := []
  unpins : List UnpinCall := []
  /-- The pins whose guard was marked. -/
  marks : List ℕ := []
  deriving DecidableEq, Repr

/-- An operation on guards. A new guard comes behind all others. -/
inductive GuardStep where
  /-- `PageGuard()`. -/
  | construct
  /-- `fetch_page_guard`, where `fetch_page` returns this page. -/
  | fetchPageGuard (page : Option PageId)
  /-- `new_page_guard`, where `new_page` returns this page. -/
  | newPageGuard (page : Option PageId)
  /-- `PageGuard(PageGuard&&)`. -/
  | moveConstruct (other : ℕ)
  /-- `operator=(PageGuard&&)`. -/
  | moveAssign (this other : ℕ)
  | markDirty (this : ℕ)
  | drop (this : ℕ) (unpinned : Bool)
  /-- `~PageGuard()`. -/
  | destroy (this : ℕ)
  deriving DecidableEq, Repr

namespace Guards

/-- The guard of an object that is alive. -/
def guardOf (state : Guards) (this : ℕ) : Option PageGuard := state.slots[this]?.join

/-- A new guard. -/
def add (state : Guards) (guard : PageGuard) : Guards :=
  { state with slots := state.slots ++ [some guard] }

/-- Another value of a guard. -/
def put (state : Guards) (this : ℕ) (slot : Option PageGuard) : Guards :=
  { state with slots := state.slots.set this slot }

/-- Calls of `unpin_page`. -/
def unpin (state : Guards) (calls : List UnpinCall) : Guards :=
  { state with unpins := state.unpins ++ calls }

/-- `fetch_page_guard` and `new_page_guard`, which differ only in how they get the page. -/
def pin (state : Guards) : Option PageId → Guards
  | none => state.add {}
  | some pageId =>
    { state.add ⟨true, some state.fetches.length, pageId, false⟩ with
      fetches := state.fetches ++ [pageId] }

/-- One operation; there is none on a guard that is not alive. -/
def step (state : Guards) : GuardStep → Option Guards
  | .construct => some (state.add {})
  | .fetchPageGuard page => some (state.pin page)
  | .newPageGuard page => some (state.pin page)
  | .moveConstruct other => do
    let moved ← state.guardOf other
    pure ((state.add moved).put other (some {}))
  | .moveAssign this other => do
    let guard ← state.guardOf this
    let moved ← state.guardOf other
    if this = other then pure state
    else
      let (_, dropped, calls) := guard.drop true
      let state := (state.put this (some dropped)).unpin calls
      pure ((state.put this (some moved)).put other (some {}))
  | .markDirty this => do
    let guard ← state.guardOf this
    pure { state.put this (some guard.markDirty) with marks := state.marks ++ guard.page.toList }
  | .drop this unpinned => do
    let guard ← state.guardOf this
    let (_, dropped, calls) := guard.drop unpinned
    pure ((state.put this (some dropped)).unpin calls)
  | .destroy this => do
    let guard ← state.guardOf this
    let (_, _, calls) := guard.drop true
    pure ((state.put this none).unpin calls)

/-- One operation after another. -/
def run (state : Guards) (steps : List GuardStep) : Option Guards := steps.foldlM step state

end Guards

/-! ## Index nodes -/

/-- An operation on guards or on index nodes. The node is named by the place of its member
`guard_`. -/
inductive GuardOp where
  | guard (step : GuardStep)
  /-- `IndexNode()`. -/
  | node
  /-- `IndexNode(file_header, guard)`; the parameter has been built by the caller. -/
  | nodeOf (parameter : ℕ)
  /-- `IndexNode(IndexNode&&)`. -/
  | nodeMoveConstruct (other : ℕ)
  /-- `operator=(IndexNode&&)`. -/
  | nodeMoveAssign (this other : ℕ)
  | nodeMarkDirty (this : ℕ)
  | nodeRelease (this : ℕ)
  /-- `~IndexNode()`. -/
  | nodeDestroy (this : ℕ)
  deriving DecidableEq, Repr

/-- What an operation does to guards, in order. -/
def GuardOp.steps : GuardOp → List GuardStep
  | .guard step => [step]
  | .node => [.construct]
  -- The parameter is destroyed at the end of the call.
  | .nodeOf parameter => [.moveConstruct parameter, .destroy parameter]
  | .nodeMoveConstruct other => [.moveConstruct other]
  | .nodeMoveAssign this other => if this = other then [] else [.moveAssign this other]
  | .nodeMarkDirty this => [.markDirty this]
  -- The guard that is returned is built from the member.
  | .nodeRelease this => [.moveConstruct this]
  | .nodeDestroy this => [.destroy this]

/-! ## Every pin has one owner -/

/-- The pin in a place. -/
def pinOf (slot : Option PageGuard) : Option ℕ := slot.bind PageGuard.page

/-- A guard knows the page of its pin and whether the pin was marked; without a pin it is as it was
built. -/
structure PageGuard.Sound (fetches : List PageId) (marks : List ℕ) (guard : PageGuard) : Prop where
  empty : guard.page = none → guard = {}
  pool : guard.page.isSome → guard.bufferPoolManager = true
  pageId : ∀ pin ∈ guard.page, fetches[pin]? = some guard.pageId
  dirty : ∀ pin ∈ guard.page, guard.dirty = true ↔ pin ∈ marks

/-- A call of `unpin_page` has the page of its pin, and says whether the pin was marked. -/
structure UnpinCall.Sound (fetches : List PageId) (marks : List ℕ) (call : UnpinCall) : Prop where
  pageId : fetches[call.pin]? = some call.pageId
  isDirty : call.isDirty = true ↔ call.pin ∈ marks

/-- Each pin is in one guard or was given back by one call. -/
structure Guards.Valid (state : Guards) : Prop where
  owned : (held pinOf state.slots ++ state.unpins.map UnpinCall.pin).Perm
    (List.range state.fetches.length)
  guards : ∀ (this : ℕ) (guard : PageGuard), state.slots[this]? = some (some guard) →
    guard.Sound state.fetches state.marks
  calls : ∀ call ∈ state.unpins, call.Sound state.fetches state.marks
  marks_lt : ∀ pin ∈ state.marks, pin < state.fetches.length

variable {guard : PageGuard} {state : Guards} {this : ℕ}

theorem Guards.guardOf_eq_some :
    state.guardOf this = some guard ↔ state.slots[this]? = some (some guard) := by
  unfold Guards.guardOf
  exact Option.join_eq_some_iff

/-- A guard among the old ones, or the new one. -/
theorem Guards.getElem?_add {new : PageGuard}
    (h : (state.add new).slots[this]? = some (some guard)) :
    state.slots[this]? = some (some guard) ∨ guard = new := by
  rcases Nat.lt_or_ge this state.slots.length with hlt | hge
  · rw [Guards.add, List.getElem?_append_left hlt] at h
    exact .inl h
  · rw [Guards.add, List.getElem?_append_right hge] at h
    exact .inr (by simpa using List.mem_of_getElem? h)

theorem Guards.add_put (state : Guards) (old new : PageGuard) :
    (state.add old).put state.slots.length (some new) = state.add new := by
  simp [Guards.add, Guards.put]

/-- A guard in another place, or the one that was put there. -/
theorem Guards.getElem?_put {slot : Option PageGuard} {place : ℕ}
    (h : (state.put this slot).slots[place]? = some (some guard)) :
    place ≠ this ∧ state.slots[place]? = some (some guard) ∨ slot = some guard := by
  by_cases heq : this = place
  · subst heq
    have hlt : this < state.slots.length := by
      have := (List.getElem?_eq_some_iff.mp h).1
      rwa [Guards.put, List.length_set] at this
    rw [Guards.put, List.getElem?_set_self hlt] at h
    exact .inr (Option.some.inj h)
  · rw [Guards.put, List.getElem?_set_ne heq] at h
    exact .inl ⟨Ne.symm heq, h⟩

section Sound

variable {fetches : List PageId} {marks : List ℕ} {guard : PageGuard} {call : UnpinCall}

theorem PageGuard.sound_empty : PageGuard.Sound fetches marks {} :=
  ⟨fun _ => rfl, by simp, by simp, by simp⟩

theorem getElem?_fetches {pin : ℕ} {pageId : PageId} (h : fetches[pin]? = some pageId)
    (new : PageId) : (fetches ++ [new])[pin]? = some pageId := by
  rwa [List.getElem?_append_left (List.getElem?_eq_some_iff.mp h).1]

/-- A fetch makes a pin that no guard and no call has. -/
theorem PageGuard.Sound.fetch (h : guard.Sound fetches marks) (pageId : PageId) :
    guard.Sound (fetches ++ [pageId]) marks where
  empty := h.empty
  pool := h.pool
  pageId pin hpin := getElem?_fetches (h.pageId pin hpin) pageId
  dirty := h.dirty

theorem UnpinCall.Sound.fetch (h : call.Sound fetches marks) (pageId : PageId) :
    call.Sound (fetches ++ [pageId]) marks :=
  ⟨getElem?_fetches h.pageId pageId, h.isDirty⟩

/-- Marking other pins does not concern a guard. -/
theorem PageGuard.Sound.mark (h : guard.Sound fetches marks) {pins : List ℕ}
    (hother : ∀ pin ∈ guard.page, pin ∉ pins) : guard.Sound fetches (marks ++ pins) where
  empty := h.empty
  pool := h.pool
  pageId := h.pageId
  dirty pin hpin := by
    rw [h.dirty pin hpin, List.mem_append, or_iff_left (hother pin hpin)]

theorem UnpinCall.Sound.mark (h : call.Sound fetches marks) {pins : List ℕ}
    (hother : call.pin ∉ pins) : call.Sound fetches (marks ++ pins) :=
  ⟨h.pageId, by rw [h.isDirty, List.mem_append, or_iff_left hother]⟩

/-- The guard that is marked is dirty from then on. -/
theorem PageGuard.Sound.markDirty (h : guard.Sound fetches marks) :
    guard.markDirty.Sound fetches (marks ++ guard.page.toList) := by
  unfold PageGuard.markDirty
  cases hpage : guard.page with
  | none =>
    obtain rfl := h.empty hpage
    exact PageGuard.sound_empty
  | some pin =>
    refine ⟨fun hnone => ?_, fun _ => h.pool (by simp [hpage]), fun pin' hpin => ?_,
      fun pin' hpin => ?_⟩
    · simp at hnone
    · exact h.pageId pin' (by simpa [hpage] using hpin)
    · obtain rfl : pin = pin' := by simpa using hpin
      simp

/-- Dropping a guard makes one call for its pin, if it has one. -/
theorem PageGuard.Sound.drop (h : guard.Sound fetches marks) (unpinned : Bool) :
    (guard.drop unpinned).2.1 = {} ∧ (guard.drop unpinned).2.2 =
      guard.page.toList.map fun pin => ⟨pin, guard.pageId, guard.dirty⟩ := by
  unfold PageGuard.drop
  cases hpage : guard.page with
  | none => exact ⟨h.empty hpage, rfl⟩
  | some pin =>
    rw [h.pool (by simp [hpage])]
    exact ⟨rfl, rfl⟩

end Sound

namespace Guards.Valid

variable {state : Guards}

theorem nodup (h : state.Valid) :
    (held pinOf state.slots ++ state.unpins.map UnpinCall.pin).Nodup :=
  h.owned.nodup_iff.mpr List.nodup_range

/-- A new guard without a pin. -/
theorem add (h : state.Valid) : (state.add {}).Valid where
  owned := by
    rw [Guards.add, held_append, held_singleton]
    simpa [pinOf] using h.owned
  guards this guard hguard := by
    rcases Guards.getElem?_add hguard with hold | rfl
    · exact h.guards this guard hold
    · exact PageGuard.sound_empty
  calls := h.calls
  marks_lt := h.marks_lt

/-- A fetch makes a guard for a new pin. -/
theorem pin (h : state.Valid) (page : Option PageId) : (state.pin page).Valid := by
  cases page with
  | none => exact h.add
  | some pageId =>
    have hlength : (state.pin (some pageId)).fetches.length = state.fetches.length + 1 := by
      simp [Guards.pin]
    refine ⟨?_, fun this guard hguard => ?_, fun call hcall => (h.calls call hcall).fetch pageId,
      fun pin hpin => hlength ▸ Nat.lt_succ_of_lt (h.marks_lt pin hpin)⟩
    · have hheld : held pinOf (state.pin (some pageId)).slots =
          held pinOf state.slots ++ [state.fetches.length] := by
        rw [Guards.pin, Guards.add, held_append, held_singleton]
        rfl
      rw [hlength, hheld, List.range_succ, List.append_assoc]
      refine (List.perm_append_comm.append_left _).trans ?_
      rw [← List.append_assoc]
      exact h.owned.append_right _
    · rcases Guards.getElem?_add hguard with hold | rfl
      · exact (h.guards this guard hold).fetch pageId
      · -- Nothing was marked before there was a pin.
        have hfresh : state.fetches.length ∉ state.marks :=
          fun hmem => absurd (h.marks_lt _ hmem) (Nat.lt_irrefl _)
        refine ⟨nofun, fun _ => rfl, fun pin hpin => ?_, fun pin hpin => ?_⟩
        · obtain rfl : state.fetches.length = pin := by simpa using hpin
          simp [Guards.pin]
        · obtain rfl : state.fetches.length = pin := by simpa using hpin
          exact iff_of_false Bool.false_ne_true hfresh

variable {this : ℕ}

/-- The pin of a guard is given back, and the guard is empty or gone. -/
theorem release (h : state.Valid) {guard : PageGuard}
    (hguard : state.slots[this]? = some (some guard)) (unpinned : Bool) (slot : Option PageGuard)
    (hslot : ∀ guard ∈ slot, guard = {}) :
    ((state.put this slot).unpin (guard.drop unpinned).2.2).Valid := by
  have hsound := h.guards this guard hguard
  rw [(hsound.drop unpinned).2]
  have hnone : pinOf slot = none := by
    cases slot with
    | none => rfl
    | some guard => rw [hslot guard rfl]; rfl
  refine ⟨?_, fun place other hother => ?_, fun call hcall => ?_, h.marks_lt⟩
  · have hheld : (guard.page.toList ++ held pinOf (state.slots.set this slot)).Perm
        (held pinOf state.slots) := by
      have hset := held_set pinOf hguard slot
      rwa [hnone] at hset
    have hpins : (guard.page.toList.map fun pin =>
        (⟨pin, guard.pageId, guard.dirty⟩ : UnpinCall)).map UnpinCall.pin = guard.page.toList := by
      rw [List.map_map]
      exact List.map_id _
    show (held pinOf (state.slots.set this slot) ++ (state.unpins ++ _).map UnpinCall.pin).Perm _
    rw [List.map_append, hpins]
    -- The pin goes from the guard to the calls.
    calc held pinOf (state.slots.set this slot) ++
          (state.unpins.map UnpinCall.pin ++ guard.page.toList)
      _ ~ state.unpins.map UnpinCall.pin ++
          (guard.page.toList ++ held pinOf (state.slots.set this slot)) := by
        rw [← List.append_assoc (state.unpins.map UnpinCall.pin)]
        exact List.perm_append_comm
      _ ~ state.unpins.map UnpinCall.pin ++ held pinOf state.slots := hheld.append_left _
      _ ~ held pinOf state.slots ++ state.unpins.map UnpinCall.pin := List.perm_append_comm
      _ ~ List.range state.fetches.length := h.owned
  · rcases Guards.getElem?_put hother with ⟨-, hold⟩ | rfl
    · exact h.guards place other hold
    · rw [hslot other rfl]
      exact PageGuard.sound_empty
  · rcases List.mem_append.mp hcall with hold | hnew
    · exact h.calls call hold
    · obtain ⟨pin, hpin, rfl⟩ := List.mem_map.mp hnew
      rw [Option.mem_toList] at hpin
      exact ⟨hsound.pageId pin hpin, hsound.dirty pin hpin⟩

/-- A pin moves to a guard that has none. -/
theorem transfer (h : state.Valid) {other : ℕ} {moved : PageGuard} (hne : this ≠ other)
    (hthis : state.slots[this]? = some (some {}))
    (hother : state.slots[other]? = some (some moved)) :
    ((state.put this (some moved)).put other (some {})).Valid := by
  refine ⟨?_, fun place guard hguard => ?_, h.calls, h.marks_lt⟩
  · have hother' : (state.slots.set this (some moved))[other]? = some (some moved) := by
      rwa [List.getElem?_set_ne hne]
    have hinto := held_set pinOf hthis (some moved)
    have hfrom := held_set pinOf hother' (some {})
    have hheld := (List.perm_append_left_iff _).mp (hfrom.trans hinto)
    exact (hheld.append_right _).trans h.owned
  · rcases Guards.getElem?_put hguard with ⟨-, hguard⟩ | hguard
    · rcases Guards.getElem?_put hguard with ⟨-, hold⟩ | hguard
      · exact h.guards place guard hold
      · obtain rfl : moved = guard := Option.some.inj hguard
        exact h.guards other moved hother
    · obtain rfl : {} = guard := Option.some.inj hguard
      exact PageGuard.sound_empty

/-- A guard that has a pin is marked. -/
theorem markDirty (h : state.Valid) {guard : PageGuard}
    (hguard : state.slots[this]? = some (some guard)) :
    { state.put this (some guard.markDirty) with
      marks := state.marks ++ guard.page.toList }.Valid := by
  have hsound := h.guards this guard hguard
  obtain ⟨hheld, -, hdisjoint⟩ := List.nodup_append.mp h.nodup
  have hpin : pinOf (some guard.markDirty) = pinOf (some guard) := by
    unfold PageGuard.markDirty
    split_ifs <;> rfl
  refine ⟨?_, fun place other hother => ?_, fun call hcall => ?_, fun pin hpin => ?_⟩
  · have hset := held_set pinOf hguard (some guard.markDirty)
    rw [hpin, List.perm_append_left_iff] at hset
    exact (hset.append_right _).trans h.owned
  · rcases Guards.getElem?_put hother with ⟨hne, hold⟩ | hnew
    · -- Another guard has another pin.
      refine (h.guards place other hold).mark fun pin hpin hmarked => hne ?_
      rw [Option.mem_toList] at hmarked
      exact index_eq_of_held hheld hold hguard hpin hmarked
    · obtain rfl : guard.markDirty = other := Option.some.inj hnew
      exact hsound.markDirty
  · refine (h.calls call hcall).mark fun hmarked => ?_
    rw [Option.mem_toList] at hmarked
    exact hdisjoint _ (mem_held hguard hmarked) _ (List.mem_map_of_mem hcall) rfl
  · rcases List.mem_append.mp hpin with hold | hnew
    · exact h.marks_lt pin hold
    · rw [Option.mem_toList] at hnew
      exact (List.getElem?_eq_some_iff.mp (hsound.pageId pin hnew)).1

/-- Every operation keeps each pin with one owner. -/
theorem step (h : state.Valid) {step : GuardStep} {state' : Guards}
    (hstep : state.step step = some state') : state'.Valid := by
  cases step with
  | construct =>
    obtain rfl := Option.some.inj hstep
    exact h.add
  | fetchPageGuard page =>
    obtain rfl := Option.some.inj hstep
    exact h.pin page
  | newPageGuard page =>
    obtain rfl := Option.some.inj hstep
    exact h.pin page
  | moveConstruct other =>
    obtain ⟨moved, hmoved, hstep⟩ := Option.bind_eq_some_iff.mp hstep
    obtain rfl := Option.some.inj hstep
    -- The new guard is empty before it takes the pin.
    rw [Guards.guardOf_eq_some] at hmoved
    have hlt := (List.getElem?_eq_some_iff.mp hmoved).1
    rw [← Guards.add_put state {}]
    refine h.add.transfer (Nat.ne_of_gt hlt) ?_ ?_
    · simp [Guards.add]
    · rwa [Guards.add, List.getElem?_append_left hlt]
  | moveAssign this other =>
    obtain ⟨guard, hguard, hstep⟩ := Option.bind_eq_some_iff.mp hstep
    obtain ⟨moved, hmoved, hstep⟩ := Option.bind_eq_some_iff.mp hstep
    rw [Guards.guardOf_eq_some] at hguard hmoved
    split_ifs at hstep with hself
    · obtain rfl := Option.some.inj hstep
      exact h
    · have hempty := ((h.guards this guard hguard).drop true).1
      have hvalid := h.release hguard true (some {}) (by simp)
      have hlt := (List.getElem?_eq_some_iff.mp hguard).1
      rcases hdrop : guard.drop true with ⟨result, dropped, calls⟩
      rw [hdrop] at hempty hvalid hstep
      obtain rfl : dropped = {} := hempty
      obtain rfl := Option.some.inj hstep
      refine hvalid.transfer hself ?_ ?_
      · exact List.getElem?_set_self hlt
      · exact (List.getElem?_set_ne hself).trans hmoved
  | markDirty this =>
    obtain ⟨guard, hguard, hstep⟩ := Option.bind_eq_some_iff.mp hstep
    obtain rfl := Option.some.inj hstep
    exact h.markDirty (Guards.guardOf_eq_some.mp hguard)
  | drop this unpinned =>
    obtain ⟨guard, hguard, hstep⟩ := Option.bind_eq_some_iff.mp hstep
    rw [Guards.guardOf_eq_some] at hguard
    have hempty := ((h.guards this guard hguard).drop unpinned).1
    have hvalid := h.release hguard unpinned (some {}) (by simp)
    rcases hdrop : guard.drop unpinned with ⟨result, dropped, calls⟩
    rw [hdrop] at hempty hvalid hstep
    obtain rfl : dropped = {} := hempty
    obtain rfl := Option.some.inj hstep
    exact hvalid
  | destroy this =>
    obtain ⟨guard, hguard, hstep⟩ := Option.bind_eq_some_iff.mp hstep
    obtain rfl := Option.some.inj hstep
    exact h.release (Guards.guardOf_eq_some.mp hguard) true none (by simp)

theorem run (h : state.Valid) {steps : List GuardStep} {state' : Guards}
    (hrun : state.run steps = some state') : state'.Valid :=
  foldlM_invariant (fun h hstep => h.step hstep) hrun h

end Guards.Valid

/-! ## Whole runs -/

/-- How many guards hold a page. -/
def Guards.holders (state : Guards) (pageId : PageId) : ℕ :=
  state.slots.countP fun slot => slot.any fun guard => guard.page.isSome && guard.pageId == pageId

/-- `mark_dirty` was called on a guard that had the pin at that time. -/
def MarkedWhileOwned (steps : List GuardStep) (pin : ℕ) : Prop :=
  ∃ before this after state guard, steps = before ++ .markDirty this :: after ∧
    Guards.run {} before = some state ∧ state.guardOf this = some guard ∧ guard.page = some pin

theorem Guards.valid_empty : Guards.Valid {} :=
  ⟨List.Perm.refl _, by simp, by simp, by simp⟩

theorem countP_range_getElem? (fetches : List PageId) (pageId : PageId) :
    (List.range fetches.length).countP (fun pin => fetches[pin]? == some pageId) =
      fetches.count pageId := by
  have hmap : (List.range fetches.length).map (fun pin => fetches[pin]?) = fetches.map some := by
    apply List.ext_getElem
    · simp
    · intro i hi hi'
      simp
  calc (List.range fetches.length).countP (fun pin => fetches[pin]? == some pageId)
      = ((List.range fetches.length).map fun pin => fetches[pin]?).countP (· == some pageId) := by
        rw [List.countP_map]
        rfl
    _ = fetches.count pageId := by
        rw [hmap, List.countP_map]
        rfl

/-- The holders of a page and the calls for it make up the fetches of it. -/
theorem Guards.Valid.holders_add (h : state.Valid) (pageId : PageId) :
    state.holders pageId + state.unpins.countP (·.pageId == pageId) =
      state.fetches.count pageId := by
  have hholders : (held pinOf state.slots).countP (fun pin => state.fetches[pin]? == some pageId) =
      state.holders pageId := by
    unfold held Guards.holders
    rw [List.countP_filterMap]
    refine List.countP_congr fun slot hslot => ?_
    cases slot with
    | none => simp [pinOf]
    | some guard =>
      obtain ⟨this, hthis⟩ := List.mem_iff_getElem?.mp hslot
      have hsound := h.guards this guard hthis
      cases hpage : guard.page with
      | none => simp [pinOf, hpage]
      | some pin => simp [pinOf, hpage, hsound.pageId pin hpage]
  have hcalls : (state.unpins.map UnpinCall.pin).countP
      (fun pin => state.fetches[pin]? == some pageId) =
      state.unpins.countP (·.pageId == pageId) := by
    rw [List.countP_map]
    refine List.countP_congr fun call hcall => ?_
    simp [(h.calls call hcall).pageId]
  rw [← hholders, ← hcalls, ← List.countP_append, h.owned.countP_eq, countP_range_getElem?]

/-- Only `mark_dirty` on a guard that has a pin adds a mark. -/
theorem Guards.marks_step {state' : Guards} {step : GuardStep} (h : state.step step = some state')
    (pin : ℕ) :
    pin ∈ state'.marks ↔ pin ∈ state.marks ∨
      ∃ this guard, step = .markDirty this ∧ state.guardOf this = some guard ∧
        guard.page = some pin := by
  cases step with
  | markDirty this =>
    obtain ⟨guard, hguard, h⟩ := Option.bind_eq_some_iff.mp h
    obtain rfl := Option.some.inj h
    rw [List.mem_append, Option.mem_toList]
    refine or_congr_right ⟨fun hpin => ⟨this, guard, rfl, hguard, hpin⟩, ?_⟩
    rintro ⟨this', guard', hthis, hguard', hpin⟩
    obtain rfl := GuardStep.markDirty.inj hthis
    obtain rfl := Option.some.inj (hguard.symm.trans hguard')
    exact hpin
  | construct =>
    obtain rfl := Option.some.inj h
    simp [Guards.add]
  | fetchPageGuard page =>
    obtain rfl := Option.some.inj h
    cases page <;> simp [Guards.pin, Guards.add]
  | newPageGuard page =>
    obtain rfl := Option.some.inj h
    cases page <;> simp [Guards.pin, Guards.add]
  | moveConstruct other =>
    obtain ⟨moved, -, h⟩ := Option.bind_eq_some_iff.mp h
    obtain rfl := Option.some.inj h
    simp [Guards.add, Guards.put]
  | moveAssign this other =>
    obtain ⟨guard, -, h⟩ := Option.bind_eq_some_iff.mp h
    obtain ⟨moved, -, h⟩ := Option.bind_eq_some_iff.mp h
    split_ifs at h
    · obtain rfl := Option.some.inj h
      simp
    · obtain rfl := Option.some.inj h
      simp [Guards.unpin, Guards.put]
  | drop this unpinned =>
    obtain ⟨guard, -, h⟩ := Option.bind_eq_some_iff.mp h
    obtain rfl := Option.some.inj h
    simp [Guards.unpin, Guards.put]
  | destroy this =>
    obtain ⟨guard, -, h⟩ := Option.bind_eq_some_iff.mp h
    obtain rfl := Option.some.inj h
    simp [Guards.unpin, Guards.put]

/-- The marks are the pins whose guards were marked. -/
theorem Guards.mem_marks {steps : List GuardStep} (h : Guards.run {} steps = some state) (pin : ℕ) :
    pin ∈ state.marks ↔ MarkedWhileOwned steps pin := by
  induction steps using List.reverseRecOn generalizing state with
  | nil =>
    obtain rfl := Option.some.inj h
    simp [MarkedWhileOwned]
  | append_singleton steps step ih =>
    obtain ⟨last, hrun, hstep⟩ := foldlM_snoc.mp h
    change Guards.run {} steps = some last at hrun
    rw [Guards.marks_step hstep, ih hrun]
    constructor
    · rintro (⟨before, this, after, mid, guard, rfl, hmid, hguard, hpage⟩ |
        ⟨this, guard, rfl, hguard, hpage⟩)
      · exact ⟨before, this, after ++ [step], mid, guard, by simp, hmid, hguard, hpage⟩
      · exact ⟨steps, this, [], last, guard, rfl, hrun, hguard, hpage⟩
    · rintro ⟨before, this, after, mid, guard, hsplit, hmid, hguard, hpage⟩
      rcases List.eq_nil_or_concat after with rfl | ⟨after, next, rfl⟩
      · obtain ⟨rfl, hlast⟩ := List.append_inj' hsplit rfl
        obtain rfl : step = .markDirty this := (List.cons.inj hlast).1
        obtain rfl := Option.some.inj (hrun.symm.trans hmid)
        exact .inr ⟨this, guard, rfl, hguard, hpage⟩
      · rw [List.concat_eq_append, ← List.cons_append, ← List.append_assoc] at hsplit
        exact .inl ⟨before, this, after, mid, guard, (List.append_inj' hsplit rfl).1, hmid, hguard,
          hpage⟩

/-- When no guard has a pin, there was one call for each pin. -/
theorem Guards.Valid.existsUnique_call (h : state.Valid)
    (hempty : ∀ guard, some guard ∈ state.slots → guard.page = none) {pin : ℕ}
    (hpin : pin < state.fetches.length) : ∃! call, call ∈ state.unpins ∧ call.pin = pin := by
  have hheld : held pinOf state.slots = [] := by
    refine List.filterMap_eq_nil_iff.mpr fun slot hslot => ?_
    cases slot with
    | none => rfl
    | some guard => exact hempty guard hslot
  have howned := h.owned
  rw [hheld, List.nil_append] at howned
  obtain ⟨call, hcall, rfl⟩ :=
    List.mem_map.mp (howned.mem_iff.mpr (List.mem_range.mpr hpin))
  refine ⟨call, ⟨hcall, rfl⟩, fun other hother => ?_⟩
  have hnodup := howned.nodup_iff.mpr List.nodup_range
  exact List.inj_on_of_nodup_map hnodup hother.1 hcall hother.2

/-- At every moment of a program, each pin is held by a guard or was given back once, for the page
that was fetched and dirty exactly when its guard was marked; when no guard holds a page, each was
given back. -/
theorem guards_giveBackOnce (ops : List GuardOp) (moment : ℕ) (state : Guards)
    (hrun : Guards.run {} ((ops.flatMap GuardOp.steps).take moment) = some state) :
    (∀ pageId, state.holders pageId + state.unpins.countP (·.pageId == pageId) =
      state.fetches.count pageId) ∧
    (state.unpins.map UnpinCall.pin).Nodup ∧
    (∀ call ∈ state.unpins, state.fetches[call.pin]? = some call.pageId ∧
      (call.isDirty = true ↔
        MarkedWhileOwned ((ops.flatMap GuardOp.steps).take moment) call.pin)) ∧
    ((∀ guard, some guard ∈ state.slots → guard.page = none) →
      ∀ pin < state.fetches.length, ∃! call, call ∈ state.unpins ∧ call.pin = pin) := by
  have hvalid := Guards.valid_empty.run hrun
  have hnodup := (List.nodup_append.mp hvalid.nodup).2.1
  refine ⟨hvalid.holders_add, hnodup, fun call hcall => ?_,
    fun hempty pin hpin => hvalid.existsUnique_call hempty hpin⟩
  obtain ⟨hpageId, hdirty⟩ := hvalid.calls call hcall
  exact ⟨hpageId, hdirty.trans (Guards.mem_marks hrun call.pin)⟩

/-- A page is fetched into a node, marked, released over a guard that holds another page, and
dropped twice. -/
theorem guards_giveBackOnce_overwrite :
    let ops : List GuardOp :=
      [.guard (.fetchPageGuard (some ⟨3, 7⟩)), .nodeOf 0, .nodeMarkDirty 1,
        .guard (.newPageGuard (some ⟨3, 8⟩)), .nodeRelease 1, .guard (.moveAssign 2 3),
        .guard (.moveAssign 2 2), .guard (.drop 2 true), .guard (.drop 2 true)]
    ∃ state, Guards.run {} ((ops.flatMap GuardOp.steps).take 10) = some state ∧
      state.unpins = [⟨1, ⟨3, 8⟩, false⟩, ⟨0, ⟨3, 7⟩, true⟩] ∧
      ∀ pin < 2, ∃! call, call ∈ state.unpins ∧ call.pin = pin := by
  intro ops
  let state : Guards :=
    ⟨[none, some {}, some {}, some {}], [⟨3, 7⟩, ⟨3, 8⟩],
      [⟨1, ⟨3, 8⟩, false⟩, ⟨0, ⟨3, 7⟩, true⟩], [0]⟩
  have hrun : Guards.run {} ((ops.flatMap GuardOp.steps).take 10) = some state := by decide
  obtain ⟨-, -, -, hunique⟩ := guards_giveBackOnce ops 10 state hrun
  exact ⟨state, hrun, rfl, hunique (by simp [state])⟩

end Rucbase
