import Rucbase.Lib.Bytes

/-!
# Byte streams through partial calls

A stream socket moves bytes in pieces that neither side chooses. What the calls of one run return is
a list of events, one for each call: a `recv` returns a piece of the stream, is interrupted, times
out, fails, or (past the last event) finds that the peer has closed; a `sendmsg` takes some of the
bytes, is interrupted or fails, and past the last event it takes all of them.

The loops over these calls do not depend on the pieces. `readExact` returns the next bytes that are
`available`, whatever the pieces are (`readExact_of_le`, `readExact_eq_ok`), and `writeVectorsAll`
appends all bytes in order or stops after a strict part of them (`writeVectorsAll_eq_true`,
`writeVectorsAll_eq_false`).
-/

namespace Rucbase.Lib

/-! ## Receiving -/

/-- What one call of `recv` returns; a chunk has at least one byte. -/
inductive RecvEvent where
  | chunk (head : UInt8) (tail : Bytes)
  | interrupted
  | timeout
  | failed (message : Bytes)
  deriving DecidableEq, Repr

/-- What a loop of `recv` calls ends with. -/
inductive IoRead where
  | ok (bytes : Bytes)
  | eof
  | timeout
  | failed (message : Bytes)
  deriving DecidableEq, Repr

/-- The bytes that can be read before the stream ends, times out or fails. -/
def available : List RecvEvent → Bytes
  | [] => []
  | .chunk head tail :: events => head :: tail ++ available events
  | .interrupted :: events => available events
  | .timeout :: _ | .failed _ :: _ => []

/-- The bytes of a chunk that a call did not take stay in front of the stream. -/
def pushBack : Bytes → List RecvEvent → List RecvEvent
  | [], events => events
  | head :: tail, events => .chunk head tail :: events

/-- Read `need` more bytes behind those `got` already. -/
def readExact (need : ℕ) (got : Bytes) (events : List RecvEvent) : IoRead × List RecvEvent :=
  if need = 0 then (.ok got, events)
  else match events with
    | [] => (.eof, [])
    | .interrupted :: events => readExact need got events
    | .timeout :: events => (.timeout, events)
    | .failed message :: events => (.failed message, events)
    | .chunk head tail :: events =>
      let data := head :: tail
      if need < data.length then (.ok (got ++ data.take need), pushBack (data.drop need) events)
      else readExact (need - data.length) (got ++ data) events

@[simp]
theorem available_pushBack (bytes : Bytes) (events : List RecvEvent) :
    available (pushBack bytes events) = bytes ++ available events := by
  cases bytes <;> rfl

@[simp]
theorem readExact_zero (got : Bytes) (events : List RecvEvent) :
    readExact 0 got events = (.ok got, events) := by
  unfold readExact
  rfl

variable {events : List RecvEvent} {need : ℕ} {vectors : List Bytes}

/-- When enough bytes are available, they are read, and the others stay available. -/
theorem readExact_of_le (got : Bytes) (h : need ≤ (available events).length) :
    ∃ events', readExact need got events = (.ok (got ++ (available events).take need), events') ∧
      available events' = (available events).drop need := by
  -- The induction is on the events; the chunk in front is shorter than what is needed, or not.
  induction events generalizing need got with
  | nil =>
    have hneed : need = 0 := by simpa [available] using h
    exact ⟨[], by simp [hneed], by simp [hneed, available]⟩
  | cons event events ih =>
    by_cases hneed : need = 0
    · exact ⟨event :: events, by simp [hneed], by simp [hneed]⟩
    unfold readExact
    rw [if_neg hneed]
    cases event with
    | interrupted => exact ih got h
    | timeout => simp [available, hneed] at h
    | failed message => simp [available, hneed] at h
    | chunk head tail =>
      simp only [available] at h ⊢
      generalize head :: tail = data at h ⊢
      rw [List.length_append] at h
      split_ifs with hlt
      · refine ⟨pushBack (data.drop need) events, ?_, ?_⟩
        · rw [List.take_append_of_le_length hlt.le]
        · rw [available_pushBack, List.drop_append_of_le_length hlt.le]
      · have hle : data.length ≤ need := Nat.le_of_not_lt hlt
        have hrest : need - data.length ≤ (available events).length := by omega
        obtain ⟨events', hread, havail⟩ := ih (got ++ data) hrest
        refine ⟨events', ?_, ?_⟩
        · rw [hread, List.take_append, List.take_of_length_le hle, List.append_assoc]
        · rw [havail, List.drop_append, List.drop_of_length_le hle, List.nil_append]

/-- What is read was available, in full and in order, and the rest still is. -/
theorem readExact_eq_ok {got bytes : Bytes} {events' : List RecvEvent}
    (h : readExact need got events = (.ok bytes, events')) :
    ∃ data, bytes = got ++ data ∧ data.length = need ∧
      available events = data ++ available events' := by
  induction events generalizing need got with
  | nil =>
    unfold readExact at h
    split_ifs at h with hneed
    · obtain ⟨rfl, rfl⟩ : got = bytes ∧ [] = events' := by simpa using h
      exact ⟨[], by simp, by simp [hneed], rfl⟩
    · simp at h
  | cons event events ih =>
    unfold readExact at h
    split_ifs at h with hneed
    · obtain ⟨rfl, rfl⟩ : got = bytes ∧ event :: events = events' := by simpa using h
      exact ⟨[], by simp, by simp [hneed], rfl⟩
    cases event with
    | interrupted => exact ih h
    | timeout => simp at h
    | failed message => simp at h
    | chunk head tail =>
      simp only [available] at h ⊢
      generalize head :: tail = data at h ⊢
      split_ifs at h with hlt
      · obtain ⟨rfl, rfl⟩ : got ++ data.take need = bytes ∧
            pushBack (data.drop need) events = events' := by simpa using h
        refine ⟨data.take need, rfl, by simp [hlt.le], ?_⟩
        rw [available_pushBack, ← List.append_assoc, List.take_append_drop]
      · obtain ⟨rest, rfl, hlen, havail⟩ := ih h
        refine ⟨data ++ rest, by simp, ?_, by rw [havail, List.append_assoc]⟩
        rw [List.length_append, hlen]
        omega

/-- Fewer bytes than asked for are never enough. -/
theorem readExact_of_lt {got : Bytes} (h : (available events).length < need) (bytes : Bytes) :
    (readExact need got events).1 ≠ .ok bytes := by
  intro hok
  obtain ⟨data, -, hlen, havail⟩ :=
    readExact_eq_ok (Prod.ext hok rfl : readExact need got events = (.ok bytes, _))
  rw [havail, List.length_append] at h
  omega

/-! ## Sending -/

/-- What one call of `sendmsg` returns: it takes at most `count` bytes. -/
inductive SendEvent where
  | wrote (count : ℕ)
  | interrupted
  | failed (message : Bytes)
  deriving DecidableEq, Repr

/-- The sending side of a socket: what the coming calls return, the bytes that were taken, and the
text of `errno`. -/
structure Sink where
  schedule : List SendEvent
  written : Bytes
  errno : Bytes
  deriving DecidableEq, Repr

/-- Drop the first `consumed` bytes of a list of buffers. -/
def advance : ℕ → List Bytes → List Bytes
  | _, [] => []
  | consumed, vector :: vectors =>
    if vector.length ≤ consumed then advance (consumed - vector.length) vectors
    else vector.drop consumed :: vectors

/-- Send all bytes of the buffers. A call that takes nothing ends the loop, as a failed one does. -/
def writeVectorsAll : List SendEvent → Bytes → Bytes → List Bytes → Bool × Sink
  | schedule, written, errno, [] => (true, ⟨schedule, written, errno⟩)
  | [], written, errno, vectors => (true, ⟨[], written ++ vectors.flatten, errno⟩)
  | .interrupted :: schedule, written, _, vectors =>
    writeVectorsAll schedule written (text "Interrupted system call") vectors
  | .failed message :: schedule, written, _, _ => (false, ⟨schedule, written, message⟩)
  | .wrote count :: schedule, written, errno, vectors =>
    let count := min count vectors.flatten.length
    if count = 0 then (false, ⟨schedule, written, errno⟩)
    else writeVectorsAll schedule (written ++ vectors.flatten.take count) errno
      (advance count vectors)

theorem flatten_advance (consumed : ℕ) (vectors : List Bytes) :
    (advance consumed vectors).flatten = vectors.flatten.drop consumed := by
  induction vectors generalizing consumed with
  | nil => simp [advance]
  | cons vector vectors ih =>
    unfold advance
    split_ifs with hle
    · rw [ih, List.flatten_cons, List.drop_append, List.drop_of_length_le hle, List.nil_append]
    · rw [List.flatten_cons, List.flatten_cons,
        List.drop_append_of_le_length (Nat.le_of_not_le hle)]

/-- Consuming all bytes leaves no buffer, not even an empty one. -/
theorem advance_eq_nil {consumed : ℕ} (h : vectors.flatten.length ≤ consumed) :
    advance consumed vectors = [] := by
  induction vectors generalizing consumed with
  | nil => rfl
  | cons vector vectors ih =>
    rw [List.flatten_cons, List.length_append] at h
    unfold advance
    rw [if_pos (by omega)]
    exact ih (by omega)

variable {schedule : List SendEvent}

/-- A loop that succeeds has sent all bytes, once and in order. -/
theorem writeVectorsAll_eq_true {written errno : Bytes} {sink : Sink}
    (h : writeVectorsAll schedule written errno vectors = (true, sink)) :
    sink.written = written ++ vectors.flatten := by
  fun_induction writeVectorsAll schedule written errno vectors with
  | case1 schedule written errno =>
    obtain rfl : _ = sink := by simpa using h
    simp
  | case2 written errno vectors =>
    obtain rfl : _ = sink := by simpa using h
    rfl
  | case3 schedule written errno vectors _ ih => exact ih h
  | case4 | case5 => simp at h
  | case6 count schedule written errno vectors _ count' _ ih =>
    rw [ih h, flatten_advance, List.append_assoc, List.take_append_drop]

/-- A loop that fails on buffers that are not empty has sent a strict part of the bytes. -/
theorem writeVectorsAll_eq_false {written errno : Bytes} {sink : Sink}
    (h : writeVectorsAll schedule written errno vectors = (false, sink))
    (hne : vectors.flatten ≠ []) :
    ∃ front, sink.written = written ++ front ∧ front <+: vectors.flatten ∧
      front ≠ vectors.flatten := by
  fun_induction writeVectorsAll schedule written errno vectors with
  | case1 | case2 => simp at h
  | case3 schedule written errno vectors _ ih => exact ih h hne
  | case4 | case5 =>
    obtain rfl : _ = sink := by simpa using h
    exact ⟨[], by simp, List.nil_prefix, hne.symm⟩
  | case6 count schedule written errno vectors _ count' _ ih =>
    -- What this call left is not empty, since the loop would have ended well.
    have hrest : (advance count' vectors).flatten ≠ [] := by
      intro hnil
      rw [flatten_advance, List.drop_eq_nil_iff] at hnil
      rw [advance_eq_nil hnil] at h
      unfold writeVectorsAll at h
      simp at h
    obtain ⟨front, hwritten, hfront, hstrict⟩ := ih h hrest
    have hsplit : vectors.flatten.take count' ++ (advance count' vectors).flatten =
        vectors.flatten := by
      rw [flatten_advance, List.take_append_drop]
    refine ⟨vectors.flatten.take count' ++ front, ?_, ?_, ?_⟩
    · rw [hwritten, List.append_assoc]
    · have hmore := (List.prefix_append_right_inj (vectors.flatten.take count')).mpr hfront
      rwa [hsplit] at hmore
    · intro heq
      exact hstrict (List.append_cancel_left (heq.trans hsplit.symm))

/-- A call that takes some bytes, or is interrupted. -/
def SendEvent.Progress : SendEvent → Prop
  | .wrote count => 0 < count
  | .interrupted => True
  | .failed _ => False

theorem advance_ne_nil {consumed : ℕ} (h : ∀ vector ∈ vectors, vector ≠ []) :
    ∀ vector ∈ advance consumed vectors, vector ≠ [] := by
  induction vectors generalizing consumed with
  | nil => simp [advance]
  | cons vector vectors ih =>
    obtain ⟨-, hrest⟩ := List.forall_mem_cons.mp h
    unfold advance
    split_ifs with hle
    · exact ih hrest
    · refine List.forall_mem_cons.mpr ⟨?_, hrest⟩
      rw [ne_eq, List.drop_eq_nil_iff]
      exact hle

/-- A loop whose calls all make progress succeeds, however little they take, and so do the calls
that are left. -/
theorem writeVectorsAll_of_progress (written errno : Bytes)
    (hschedule : ∀ event ∈ schedule, event.Progress) (hvectors : ∀ vector ∈ vectors, vector ≠ []) :
    ∃ sink, writeVectorsAll schedule written errno vectors = (true, sink) ∧
      ∀ event ∈ sink.schedule, event.Progress := by
  fun_induction writeVectorsAll schedule written errno vectors with
  | case1 schedule written errno => exact ⟨_, rfl, hschedule⟩
  | case2 written errno vectors => exact ⟨_, rfl, by simp⟩
  | case3 schedule written errno vectors _ ih =>
    exact ih (List.forall_mem_cons.mp hschedule).2 hvectors
  | case4 => exact absurd (List.forall_mem_cons.mp hschedule).1 (by simp [SendEvent.Progress])
  | case5 count schedule written errno vectors hne count' hzero =>
    -- There are bytes left to take, and the call took at least one.
    have hcount : 0 < count := (List.forall_mem_cons.mp hschedule).1
    have hlen : vectors.flatten.length ≠ 0 := by
      obtain ⟨vector, rest, rfl⟩ := List.exists_cons_of_ne_nil hne
      have hvector := List.length_pos_of_ne_nil (hvectors vector List.mem_cons_self)
      rw [List.flatten_cons, List.length_append]
      omega
    have hmin : min count vectors.flatten.length = 0 := hzero
    omega
  | case6 count schedule written errno vectors _ count' _ ih =>
    exact ih (List.forall_mem_cons.mp hschedule).2 (advance_ne_nil hvectors)

end Rucbase.Lib
