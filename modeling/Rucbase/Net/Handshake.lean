import Rucbase.Net.Frame

/-!
# The handshake

Before the first frame, client and server agree on the protocol (`src/net/wire.cpp`): the client
sends eight bytes, a magic word and two version numbers, and the server checks them and sends them
back. `WriteAll` and `ReadExact` run over calls that move as many bytes as they like, and neither
side takes more than these eight bytes from the stream (`readAndCheckHandshake_exact`,
`confirmHandshake_exact`), so that what follows them is left for the frames.
-/

namespace Rucbase.Wire

open Lib

/-- `kMagic`. -/
def kMagic : Bytes := text "RUCB"

/-- `kMajor`. -/
def kMajor : ℕ := 3

/-- `kMinor`. -/
def kMinor : ℕ := 1

/-- The message of `WriteHandshakeBytes`. -/
def handshakeBytes : Bytes := kMagic ++ beBytes 2 kMajor ++ beBytes 2 kMinor

/-- `WriteAll`, for the bytes that are left. A call that takes nothing ends the loop, as a failed
one does. -/
def writeAll : List SendEvent → Bytes → Bytes → Bytes → Bool × Sink
  | schedule, written, errno, [] => (true, ⟨schedule, written, errno⟩)
  | [], written, errno, bytes => (true, ⟨[], written ++ bytes, errno⟩)
  | .interrupted :: schedule, written, _, bytes =>
    writeAll schedule written (text "Interrupted system call") bytes
  | .failed message :: schedule, written, _, _ => (false, ⟨schedule, written, message⟩)
  | .wrote count :: schedule, written, errno, bytes =>
    let count := min count bytes.length
    if count = 0 then (false, ⟨schedule, written, errno⟩)
    else writeAll schedule (written ++ bytes.take count) errno (bytes.drop count)

/-- `WriteHandshakeBytes`. -/
def writeHandshakeBytes (sink : Sink) : Bool × Sink :=
  writeAll sink.schedule sink.written sink.errno handshakeBytes

/-- `CheckHandshakeBytes`. -/
def checkHandshakeBytes (msg : Bytes) : Bool :=
  decide (slice msg 0 4 = kMagic) && decide (beNat (slice msg 4 2) = kMajor) &&
    decide (beNat (slice msg 6 2) = kMinor)

/-- `ReadAndCheckHandshake`. -/
def readAndCheckHandshake (events : List RecvEvent) (sink : Sink) : Bool × List RecvEvent × Sink :=
  match readExact 8 [] events with
  | (.ok msg, rest) =>
    if checkHandshakeBytes msg then
      let (ok, sink) := writeAll sink.schedule sink.written sink.errno msg
      (ok, rest, sink)
    else (false, rest, sink)
  | (_, rest) => (false, rest, sink)

/-- `ClientHandshake` behind `WriteHandshakeBytes`. -/
def confirmHandshake (events : List RecvEvent) : Bool × List RecvEvent :=
  match readExact 8 [] events with
  | (.ok echo, rest) => (checkHandshakeBytes echo, rest)
  | (_, rest) => (false, rest)

/-! ## Writing -/

/-- `WriteAll` is the loop of `WriteFrame` on one buffer. -/
theorem writeAll_eq_writeVectorsAll {bytes : Bytes} (hne : bytes ≠ [])
    (schedule : List SendEvent) (written errno : Bytes) :
    writeAll schedule written errno bytes = writeVectorsAll schedule written errno [bytes] := by
  have hvector := List.cons_ne_nil bytes []
  have hflatten : [bytes].flatten = bytes := List.flatten_singleton
  fun_induction writeAll schedule written errno bytes with
  | case1 => exact absurd rfl hne
  | case2 written errno bytes => simp [writeVectorsAll]
  | case3 schedule written errno bytes _ ih =>
    rw [writeVectorsAll.eq_3 _ _ _ _ hvector, ih hne hvector hflatten]
  | case4 schedule written errno message bytes _ => rw [writeVectorsAll.eq_4 _ _ _ _ _ hvector]
  | case5 count schedule written errno bytes _ count' hzero =>
    rw [writeVectorsAll.eq_5 _ _ _ _ _ hvector, hflatten, if_pos hzero]
  | case6 count schedule written errno bytes _ count' hcount ih =>
    rw [writeVectorsAll.eq_5 _ _ _ _ _ hvector, hflatten, if_neg hcount, advance]
    split_ifs with hall
    · -- The call has taken all that was left.
      have hnil : bytes.drop count' = [] := List.drop_eq_nil_iff.mpr hall
      rw [hnil, writeAll, advance, writeVectorsAll]
    · have hrest : bytes.drop count' ≠ [] := by rwa [ne_eq, List.drop_eq_nil_iff]
      exact ih hrest (List.cons_ne_nil _ _) List.flatten_singleton

theorem length_handshakeBytes : handshakeBytes.length = 8 := by decide

theorem handshakeBytes_ne : handshakeBytes ≠ [] := by decide

/-- A message that is sent is sent as a whole. -/
theorem writeHandshakeBytes_eq_true {sink sink' : Sink}
    (h : writeHandshakeBytes sink = (true, sink')) :
    sink'.written = sink.written ++ handshakeBytes := by
  rw [writeHandshakeBytes, writeAll_eq_writeVectorsAll handshakeBytes_ne] at h
  rw [writeVectorsAll_eq_true h, List.flatten_singleton]

/-- Of a message that is not sent, only a strict part has left. -/
theorem writeHandshakeBytes_eq_false {sink sink' : Sink}
    (h : writeHandshakeBytes sink = (false, sink')) :
    ∃ front, sink'.written = sink.written ++ front ∧ front <+: handshakeBytes ∧
      front ≠ handshakeBytes := by
  rw [writeHandshakeBytes, writeAll_eq_writeVectorsAll handshakeBytes_ne] at h
  have hne : [handshakeBytes].flatten ≠ [] := by
    rw [List.flatten_singleton]
    exact handshakeBytes_ne
  have hcut := writeVectorsAll_eq_false h hne
  rwa [List.flatten_singleton] at hcut

/-! ## Reading -/

/-- Only the message itself passes the check. -/
theorem checkHandshakeBytes_eq_true {msg : Bytes} (hlen : msg.length = 8) :
    checkHandshakeBytes msg = true ↔ msg = handshakeBytes := by
  constructor
  · intro hcheck
    simp only [checkHandshakeBytes, Bool.and_eq_true, decide_eq_true_eq] at hcheck
    obtain ⟨⟨hmagic, hmajor⟩, hminor⟩ := hcheck
    -- The message is the magic word and two numbers of two bytes.
    have hsplit : msg = slice msg 0 4 ++ slice msg 4 2 ++ slice msg 6 2 := by
      have hlast : (msg.drop 6).take 2 = (msg.drop 4).drop 2 := by
        rw [List.take_of_length_le (by rw [List.length_drop]; omega), List.drop_drop]
      rw [slice, slice, slice, List.drop_zero, hlast, List.append_assoc, List.take_append_drop,
        List.take_append_drop]
    have hmajorBytes := beBytes_beNat (slice msg 4 2)
    have hminorBytes := beBytes_beNat (slice msg 6 2)
    rw [length_slice (by omega)] at hmajorBytes hminorBytes
    rw [hsplit, hmagic, ← hmajorBytes, ← hminorBytes, hmajor, hminor, handshakeBytes]
  · rintro rfl
    decide

/-- The first eight bytes of a stream are the message, or what is read of it does not pass. -/
theorem readHandshake_cases (events : List RecvEvent) :
    (∃ rest, readExact 8 [] events = (.ok handshakeBytes, rest) ∧
      available events = handshakeBytes ++ available rest) ∨
    (¬ handshakeBytes <+: available events ∧ ∀ msg rest,
      readExact 8 [] events = (.ok msg, rest) → checkHandshakeBytes msg = false) := by
  by_cases hstarts : handshakeBytes <+: available events
  · obtain ⟨more, hmore⟩ := hstarts
    have hlen : 8 ≤ (available events).length := by
      rw [← hmore, List.length_append, length_handshakeBytes]
      omega
    obtain ⟨rest, hread, havail⟩ := readExact_of_le [] hlen
    have htake : (available events).take 8 = handshakeBytes := by
      rw [← hmore, ← length_handshakeBytes, List.take_left]
    rw [List.nil_append, htake] at hread
    refine .inl ⟨rest, hread, ?_⟩
    rw [havail, ← htake, List.take_append_drop]
  · refine .inr ⟨hstarts, fun msg rest hread => ?_⟩
    obtain ⟨data, rfl, hlen, havail⟩ := readExact_eq_ok hread
    refine Bool.eq_false_iff.mpr fun hcheck => hstarts ?_
    rw [havail, (checkHandshakeBytes_eq_true hlen).mp hcheck]
    exact List.prefix_append _ _

/-- The server accepts exactly the streams that begin with the message, whatever the pieces are in
which it arrives; then it has taken this message and sent it back, and nothing else. For any other
stream it sends nothing. -/
theorem readAndCheckHandshake_exact (events : List RecvEvent) (sink : Sink) :
    (handshakeBytes <+: available events → ∃ rest,
      available events = handshakeBytes ++ available rest ∧
      readAndCheckHandshake events sink =
        ((writeHandshakeBytes sink).1, rest, (writeHandshakeBytes sink).2)) ∧
    (¬ handshakeBytes <+: available events → ∃ rest,
      readAndCheckHandshake events sink = (false, rest, sink)) := by
  unfold readAndCheckHandshake
  rcases readHandshake_cases events with ⟨rest, hread, havail⟩ | ⟨hstarts, hcheck⟩
  · refine ⟨fun _ => ⟨rest, havail, ?_⟩, fun hno => absurd ?_ hno⟩
    · rw [hread]
      rfl
    · exact havail ▸ List.prefix_append _ _
  · refine ⟨fun hyes => absurd hyes hstarts, fun _ => ?_⟩
    match hread : readExact 8 [] events with
    | (.ok msg, rest) => exact ⟨rest, by simp [hcheck msg rest hread]⟩
    | (.eof, rest) => exact ⟨rest, rfl⟩
    | (.timeout, rest) => exact ⟨rest, rfl⟩
    | (.failed message, rest) => exact ⟨rest, rfl⟩

/-- The client takes the echo, and only if it is the message does it go on. -/
theorem confirmHandshake_eq_true {events rest : List RecvEvent}
    (h : confirmHandshake events = (true, rest)) :
    available events = handshakeBytes ++ available rest := by
  unfold confirmHandshake at h
  rcases readHandshake_cases events with ⟨rest', hread, havail⟩ | ⟨-, hcheck⟩
  · rw [hread] at h
    obtain ⟨-, rfl⟩ := Prod.mk.inj h
    exact havail
  · match hread : readExact 8 [] events with
    | (.ok msg, rest') =>
      rw [hread] at h
      simp [hcheck msg rest' hread] at h
    | (.eof, rest') => simp [hread] at h
    | (.timeout, rest') => simp [hread] at h
    | (.failed message, rest') => simp [hread] at h

end Rucbase.Wire
