import Rucbase.Lib.Socket

/-!
# Frames

The framing layer of `src/net/wire.cpp`. A frame is a header of eight bytes (the length of the
payload, most significant byte first, a tag, flags and two reserved zero bytes) and the payload.
`WriteFrame` and `ReadFrameInternal` refuse a payload over 1 MiB, or over 64 KiB in a diagnostic.

A stream that begins with the bytes of a well-formed frame is read as that frame and no other
(`readFrameInternal_of_bytes`, `readFrameInternal_eq_ok`), and a stream that ends inside such a
frame is a transport error (`readFrameInternal_of_cut`), so that the bytes of frames are a code
that can be cut only between frames.
-/

namespace Rucbase.Wire

open Lib

/-- `kMaxPayloadBytes`. -/
def kMaxPayloadBytes : ℕ := 2^20

/-- `kMaxDiagnosticBytes`. -/
def kMaxDiagnosticBytes : ℕ := 64 * 2^10

/-- `kTagExecStream`. -/
def kTagExecStream : UInt8 := 0x20

/-- `kTagMeta`. -/
def kTagMeta : UInt8 := 0x01

/-- `kTagRow`. -/
def kTagRow : UInt8 := 0x02

/-- `kTagCommandOk`. -/
def kTagCommandOk : UInt8 := 0x10

/-- `kTagResultEnd`. -/
def kTagResultEnd : UInt8 := 0x11

/-- `kTagTransactionAbort`. -/
def kTagTransactionAbort : UInt8 := 0x12

/-- `kTagError`. -/
def kTagError : UInt8 := 0x13

/-- `kFlagRawText`. -/
def kFlagRawText : UInt8 := 0x01

/-- `Frame`. -/
structure Frame where
  tag : UInt8
  flags : UInt8
  payload : Bytes
  deriving DecidableEq, Repr

namespace Frame

/-- The header of a frame. -/
def header (frame : Frame) : Bytes :=
  beBytes 4 frame.payload.length ++ [frame.tag, frame.flags, 0, 0]

/-- The bytes of a frame on the wire. -/
def bytes (frame : Frame) : Bytes := frame.header ++ frame.payload

/-- The buffers that `WriteFrame` sends: the header, and the payload unless it is empty. -/
def vectors (frame : Frame) : List Bytes :=
  if frame.payload.isEmpty then [frame.header] else [frame.header, frame.payload]

/-- The payload of a frame is as long as it may be. -/
def WellFormed (frame : Frame) : Prop :=
  frame.payload.length ≤ kMaxPayloadBytes ∧
    (frame.tag = kTagError ∨ frame.tag = kTagTransactionAbort →
      frame.payload.length ≤ kMaxDiagnosticBytes)

instance (frame : Frame) : Decidable frame.WellFormed := inferInstanceAs (Decidable (_ ∧ _))

@[simp]
theorem length_header (frame : Frame) : frame.header.length = 8 := by
  simp [header]

theorem length_bytes (frame : Frame) : frame.bytes.length = 8 + frame.payload.length := by
  simp [bytes]

theorem bytes_ne_nil (frame : Frame) : frame.bytes ≠ [] := by
  have hlen := frame.length_bytes
  intro hnil
  rw [hnil, List.length_nil] at hlen
  omega

/-- The buffers of a frame hold its bytes. -/
theorem flatten_vectors (frame : Frame) : frame.vectors.flatten = frame.bytes := by
  unfold vectors bytes
  cases frame.payload with
  | nil => simp
  | cons b bs => simp

end Frame

/-! ## Writing -/

/-- `WriteFrame` on an open socket. -/
def writeFrame (tag flags : UInt8) (payload : Bytes) (sink : Sink) : Bool × Sink :=
  if kMaxPayloadBytes < payload.length then (false, sink)
  else if (tag = kTagError ∨ tag = kTagTransactionAbort) ∧ kMaxDiagnosticBytes < payload.length then
    (false, sink)
  else
    let frame : Frame := ⟨tag, flags, payload⟩
    writeVectorsAll sink.schedule sink.written sink.errno frame.vectors

/-- `WriteFrame` sends well-formed frames only. -/
theorem writeFrame_eq (tag flags : UInt8) (payload : Bytes) (sink : Sink) :
    writeFrame tag flags payload sink =
      if (Frame.mk tag flags payload).WellFormed then
        writeVectorsAll sink.schedule sink.written sink.errno (Frame.mk tag flags payload).vectors
      else (false, sink) := by
  by_cases hwf : (Frame.mk tag flags payload).WellFormed
  · have hlen : ¬ kMaxPayloadBytes < payload.length := Nat.not_lt.mpr hwf.1
    have hdiag : ¬ ((tag = kTagError ∨ tag = kTagTransactionAbort) ∧
        kMaxDiagnosticBytes < payload.length) := fun h => Nat.not_lt.mpr (hwf.2 h.1) h.2
    rw [if_pos hwf, writeFrame, if_neg hlen, if_neg hdiag]
  · rw [if_neg hwf, writeFrame]
    split_ifs with hlen hdiag
    · rfl
    · rfl
    · exact absurd ⟨Nat.not_lt.mp hlen, fun htag => Nat.not_lt.mp fun h => hdiag ⟨htag, h⟩⟩ hwf

variable {sink : Sink} {events events' : List RecvEvent} {frame : Frame}

/-- A frame that is written is well formed, and its bytes are appended to the stream. -/
theorem writeFrame_eq_true {tag flags : UInt8} {payload : Bytes} {sink' : Sink}
    (h : writeFrame tag flags payload sink = (true, sink')) :
    (Frame.mk tag flags payload).WellFormed ∧
      sink'.written = sink.written ++ (Frame.mk tag flags payload).bytes := by
  rw [writeFrame_eq] at h
  split_ifs at h with hwf
  · refine ⟨hwf, ?_⟩
    rw [writeVectorsAll_eq_true h, Frame.flatten_vectors]
  · simp at h

/-- A frame that is not written leaves a strict part of its bytes in the stream, or none. -/
theorem writeFrame_eq_false {tag flags : UInt8} {payload : Bytes} {sink' : Sink}
    (h : writeFrame tag flags payload sink = (false, sink')) :
    ∃ front, sink'.written = sink.written ++ front ∧
      front <+: (Frame.mk tag flags payload).bytes ∧
      front ≠ (Frame.mk tag flags payload).bytes := by
  have hne := (Frame.mk tag flags payload).bytes_ne_nil
  rw [writeFrame_eq] at h
  split_ifs at h with hwf
  · rw [← Frame.flatten_vectors] at hne ⊢
    exact writeVectorsAll_eq_false h hne
  · obtain rfl : sink = sink' := by simpa using h
    exact ⟨[], by simp, List.nil_prefix, hne.symm⟩

/-! ## Reading -/

/-- What `ReadFrameInternal` ends with. -/
inductive FrameRead where
  | ok (frame : Frame)
  | transportError (diagnostic : Bytes)
  | protocolError (diagnostic : Bytes)
  deriving DecidableEq, Repr

/-- The diagnostic of a read that did not get all of its bytes. -/
def ioDiagnostic : IoRead → Bytes
  | .ok _ => []
  | .eof => text "peer closed the connection"
  | .timeout => text "socket read timed out"
  | .failed message => text "socket read failed: " ++ message

/-- `ReadFrameInternal`. -/
def readFrameInternal (events : List RecvEvent) : FrameRead × List RecvEvent :=
  match readExact 8 [] events with
  | (.ok [b0, b1, b2, b3, tag, flags, r0, r1], events) =>
    let len := beNat [b0, b1, b2, b3]
    if kMaxPayloadBytes < len then (.protocolError (text "frame payload exceeds 1 MiB"), events)
    else if (tag = kTagError ∨ tag = kTagTransactionAbort) ∧ kMaxDiagnosticBytes < len then
      (.protocolError (text "diagnostic payload exceeds 64 KiB"), events)
    else if r0 ≠ 0 ∨ r1 ≠ 0 then
      (.protocolError (text "non-zero reserved frame field"), events)
    else match readExact len [] events with
      | (.ok payload, events) => (.ok ⟨tag, flags, payload⟩, events)
      | (io, events) => (.transportError (ioDiagnostic io), events)
  | (io, events) => (.transportError (ioDiagnostic io), events)

/-- After the header of a well-formed frame, its payload is read. -/
theorem readFrameInternal_of_header (hwf : frame.WellFormed)
    (h : readExact 8 [] events = (.ok frame.header, events')) :
    readFrameInternal events =
      match readExact frame.payload.length [] events' with
      | (.ok payload, events) => (.ok ⟨frame.tag, frame.flags, payload⟩, events)
      | (io, events) => (.transportError (ioDiagnostic io), events) := by
  have hlt : frame.payload.length < 256 ^ 4 := by
    have hmax : kMaxPayloadBytes < 256 ^ 4 := by decide
    exact lt_of_le_of_lt hwf.1 hmax
  have hlen := beNat_beBytes hlt
  obtain ⟨b0, b1, b2, b3, hbytes⟩ : ∃ b0 b1 b2 b3,
      beBytes 4 frame.payload.length = [b0, b1, b2, b3] := ⟨_, _, _, _, rfl⟩
  have hheader : frame.header = [b0, b1, b2, b3, frame.tag, frame.flags, 0, 0] := by
    rw [Frame.header, hbytes]
    rfl
  rw [hbytes] at hlen
  rw [hheader] at h
  have hmax : ¬ kMaxPayloadBytes < frame.payload.length := Nat.not_lt.mpr hwf.1
  have hdiag : ¬ ((frame.tag = kTagError ∨ frame.tag = kTagTransactionAbort) ∧
      kMaxDiagnosticBytes < frame.payload.length) := fun h => Nat.not_lt.mpr (hwf.2 h.1) h.2
  simp only [readFrameInternal, h, hlen, hmax, hdiag, if_false, ne_eq, not_true_eq_false, or_self]

/-- A stream that begins with a well-formed frame is read as that frame. -/
theorem readFrameInternal_of_bytes (hwf : frame.WellFormed) {more : Bytes}
    (h : available events = frame.bytes ++ more) :
    ∃ events', readFrameInternal events = (.ok frame, events') ∧ available events' = more := by
  have hsplit : available events = frame.header ++ (frame.payload ++ more) := by
    rw [h, Frame.bytes, List.append_assoc]
  have hlen : 8 ≤ (available events).length := by
    rw [hsplit, List.length_append, frame.length_header]
    omega
  obtain ⟨events₁, hheader, havail₁⟩ := readExact_of_le [] hlen
  rw [hsplit, List.nil_append, List.take_left' frame.length_header] at hheader
  rw [hsplit, List.drop_left' frame.length_header] at havail₁
  have hpayload : frame.payload.length ≤ (available events₁).length := by
    rw [havail₁, List.length_append]
    omega
  obtain ⟨events₂, hread, havail₂⟩ := readExact_of_le [] hpayload
  rw [havail₁, List.nil_append, List.take_left] at hread
  rw [havail₁, List.drop_left] at havail₂
  refine ⟨events₂, ?_, havail₂⟩
  rw [readFrameInternal_of_header hwf hheader, hread]

/-- A stream that ends or fails inside a well-formed frame is a transport error. -/
theorem readFrameInternal_of_cut (hwf : frame.WellFormed) (h : available events <+: frame.bytes)
    (hne : available events ≠ frame.bytes) :
    ∃ diagnostic, (readFrameInternal events).1 = .transportError diagnostic := by
  have hlt : (available events).length < 8 + frame.payload.length := by
    rw [← frame.length_bytes]
    exact lt_of_le_of_ne h.length_le fun heq => hne (h.eq_of_length heq)
  by_cases hlen : 8 ≤ (available events).length
  · -- The header is there, and the payload is not.
    obtain ⟨events₁, hheader, havail₁⟩ := readExact_of_le [] hlen
    have htake : (available events).take 8 = frame.header := by
      obtain ⟨rest, hrest⟩ := h
      have hfront := congrArg (List.take 8) hrest
      rw [List.take_append_of_le_length hlen, Frame.bytes,
        List.take_left' frame.length_header] at hfront
      exact hfront
    rw [List.nil_append, htake] at hheader
    have hshort : (available events₁).length < frame.payload.length := by
      rw [havail₁, List.length_drop]
      omega
    rw [readFrameInternal_of_header hwf hheader]
    split
    · rename_i payload events₂ hread
      exact absurd (congrArg Prod.fst hread) (readExact_of_lt hshort payload)
    · exact ⟨_, rfl⟩
  · have hshort := Nat.lt_of_not_le hlen
    unfold readFrameInternal
    split
    · rename_i hread
      exact absurd (congrArg Prod.fst hread) (readExact_of_lt hshort _)
    · exact ⟨_, rfl⟩

/-- What is read as a frame is the bytes of a well-formed frame. -/
theorem readFrameInternal_eq_ok (h : readFrameInternal events = (.ok frame, events')) :
    frame.WellFormed ∧ available events = frame.bytes ++ available events' := by
  unfold readFrameInternal at h
  split at h
  · rename_i b0 b1 b2 b3 tag flags r0 r1 events₁ hheader
    by_cases hmax : kMaxPayloadBytes < beNat [b0, b1, b2, b3]
    · simp [hmax] at h
    by_cases hdiag : (tag = kTagError ∨ tag = kTagTransactionAbort) ∧
        kMaxDiagnosticBytes < beNat [b0, b1, b2, b3]
    · simp [hmax, hdiag] at h
    by_cases hreserved : r0 ≠ 0 ∨ r1 ≠ 0
    · simp only [hmax, hdiag, hreserved, if_true, if_false] at h
      simp at h
    simp only [hmax, hdiag, hreserved, if_false] at h
    simp only [ne_eq, not_or, not_not] at hreserved
    split at h
    · rename_i payload events₂ hread
      simp only [Prod.mk.injEq, FrameRead.ok.injEq] at h
      obtain ⟨rfl, rfl⟩ := h
      obtain ⟨header, hbytes, -, havail⟩ := readExact_eq_ok hheader
      obtain ⟨data, hdata, hlen, havail₁⟩ := readExact_eq_ok hread
      rw [List.nil_append] at hbytes hdata
      subst hdata
      -- The four length bytes spell the number of payload bytes that were read.
      have hspell : beBytes 4 payload.length = [b0, b1, b2, b3] := by
        rw [hlen]
        exact beBytes_beNat [b0, b1, b2, b3]
      refine ⟨⟨?_, fun htag => ?_⟩, ?_⟩
      · show payload.length ≤ kMaxPayloadBytes
        omega
      · show payload.length ≤ kMaxDiagnosticBytes
        rw [hlen]
        exact Nat.not_lt.mp fun hlt => hdiag ⟨htag, hlt⟩
      · rw [havail, havail₁, Frame.bytes, Frame.header, hspell, ← hbytes, hreserved.1, hreserved.2]
        rfl
    · simp at h
  · simp at h

/-- Reading a frame takes at least its header. -/
theorem available_lt_of_readFrameInternal (h : readFrameInternal events = (.ok frame, events')) :
    (available events').length < (available events).length := by
  rw [(readFrameInternal_eq_ok h).2, List.length_append, frame.length_bytes]
  omega

/-! ## Streams of frames -/

/-- `ReadFrame`. -/
def readFrame (events : List RecvEvent) : Option Frame × List RecvEvent :=
  match readFrameInternal events with
  | (.ok frame, events) => (some frame, events)
  | (_, events) => (none, events)

/-- Successive calls of `WriteFrame`, up to the first that fails. -/
def writeFrames : List Frame → Sink → Bool × Sink
  | [], sink => (true, sink)
  | frame :: frames, sink =>
    match writeFrame frame.tag frame.flags frame.payload sink with
    | (false, sink) => (false, sink)
    | (true, sink) => writeFrames frames sink

/-- `count` successive calls of `ReadFrame`, up to the first that fails. -/
def readFrames : ℕ → List RecvEvent → Option (List Frame) × List RecvEvent
  | 0, events => (some [], events)
  | count + 1, events =>
    match readFrame events with
    | (none, events) => (none, events)
    | (some frame, events) =>
      match readFrames count events with
      | (none, events) => (none, events)
      | (some frames, events) => (some (frame :: frames), events)

theorem readFrame_eq_some :
    readFrame events = (some frame, events') ↔ readFrameInternal events = (.ok frame, events') := by
  unfold readFrame
  split
  · rename_i heq
    simp [heq]
  · rename_i hnot heq
    constructor
    · simp
    · intro h
      rw [heq, Prod.mk.injEq] at h
      exact absurd h.1 (hnot frame)

/-- A well-formed frame is written when the calls make progress. -/
theorem writeFrame_of_progress (hwf : frame.WellFormed)
    (h : ∀ event ∈ sink.schedule, event.Progress) :
    ∃ sink', writeFrame frame.tag frame.flags frame.payload sink = (true, sink') ∧
      sink'.written = sink.written ++ frame.bytes ∧ ∀ event ∈ sink'.schedule, event.Progress := by
  have hvectors : ∀ vector ∈ frame.vectors, vector ≠ [] := by
    have hheader : frame.header ≠ [] := List.ne_nil_of_length_pos (by simp)
    unfold Frame.vectors
    split_ifs with hempty
    · simpa using hheader
    · simpa [hheader] using hempty
  obtain ⟨sink', hwrite, hrest⟩ :=
    writeVectorsAll_of_progress sink.written sink.errno h hvectors
  have hframe : writeFrame frame.tag frame.flags frame.payload sink = (true, sink') := by
    rw [writeFrame_eq, if_pos hwf]
    exact hwrite
  exact ⟨sink', hframe, (writeFrame_eq_true hframe).2, hrest⟩

/-- Frames are written one after the other. -/
theorem writeFrames_of_progress {frames : List Frame} (hwf : ∀ frame ∈ frames, frame.WellFormed)
    (h : ∀ event ∈ sink.schedule, event.Progress) :
    ∃ sink', writeFrames frames sink = (true, sink') ∧
      sink'.written = sink.written ++ frames.flatMap Frame.bytes := by
  induction frames generalizing sink with
  | nil => exact ⟨sink, rfl, by simp⟩
  | cons frame frames ih =>
    obtain ⟨hframe, hframes⟩ := List.forall_mem_cons.mp hwf
    obtain ⟨sink₁, hwrite, hwritten, hrest⟩ := writeFrame_of_progress hframe h
    obtain ⟨sink', hwrites, hwritten'⟩ := ih hframes hrest
    refine ⟨sink', ?_, ?_⟩
    · rw [writeFrames, hwrite]
      exact hwrites
    · rw [hwritten', hwritten, List.flatMap_cons, List.append_assoc]

/-- A stream that begins with frames is read as those frames, and what follows is left. -/
theorem readFrames_of_bytes {frames : List Frame} (hwf : ∀ frame ∈ frames, frame.WellFormed)
    {more : Bytes} (h : available events = frames.flatMap Frame.bytes ++ more) :
    ∃ rest, readFrames frames.length events = (some frames, rest) ∧ available rest = more := by
  induction frames generalizing events with
  | nil => exact ⟨events, rfl, h⟩
  | cons frame frames ih =>
    obtain ⟨hframe, hframes⟩ := List.forall_mem_cons.mp hwf
    rw [List.flatMap_cons, List.append_assoc] at h
    obtain ⟨events₁, hread, havail⟩ := readFrameInternal_of_bytes hframe h
    obtain ⟨rest, hreads, hrest⟩ := ih hframes havail
    refine ⟨rest, ?_, hrest⟩
    rw [List.length_cons, readFrames, readFrame_eq_some.mpr hread]
    simp only [hreads]

/-- Frames survive any fragmentation. Whatever part of the bytes each call takes, well-formed frames
are written as their bytes in order; however the bytes arrive, the first `k` calls of `ReadFrame`
return the first `k` frames and leave the bytes of the others; and what `ReadFrame` takes off a
stream is what `WriteFrame` writes for the frame it returns. -/
theorem frames_survive (frames : List Frame) (hwf : ∀ frame ∈ frames, frame.WellFormed)
    (sink : Sink) (hprogress : ∀ event ∈ sink.schedule, event.Progress) :
    (∃ sink', writeFrames frames sink = (true, sink') ∧
      sink'.written = sink.written ++ frames.flatMap fun frame => frame.header ++ frame.payload) ∧
    (∀ (events : List RecvEvent) (more : Bytes),
      available events = frames.flatMap Frame.bytes ++ more → ∀ k ≤ frames.length,
        ∃ rest, readFrames k events = (some (frames.take k), rest) ∧
          available rest = (frames.drop k).flatMap Frame.bytes ++ more ∧
          (available rest).length + ((frames.take k).map (8 + ·.payload.length)).sum =
            (available events).length) ∧
    ∀ (events rest : List RecvEvent) (frame : Frame), readFrame events = (some frame, rest) →
      available events = frame.bytes ++ available rest ∧
      ∃ sink', writeFrame frame.tag frame.flags frame.payload sink = (true, sink') ∧
        sink'.written = sink.written ++ frame.bytes := by
  refine ⟨writeFrames_of_progress hwf hprogress, ?_, ?_⟩
  · intro events more havail k hk
    have hsplit : available events =
        (frames.take k).flatMap Frame.bytes ++ ((frames.drop k).flatMap Frame.bytes ++ more) := by
      rw [havail, ← List.append_assoc, ← List.flatMap_append, List.take_append_drop]
    have htake : ∀ frame ∈ frames.take k, frame.WellFormed :=
      fun frame hmem => hwf frame (List.mem_of_mem_take hmem)
    obtain ⟨rest, hreads, hrest⟩ := readFrames_of_bytes htake hsplit
    rw [List.length_take_of_le hk] at hreads
    refine ⟨rest, hreads, hrest, ?_⟩
    have hlen : ((frames.take k).flatMap Frame.bytes).length =
        ((frames.take k).map (8 + ·.payload.length)).sum := by
      rw [List.length_flatMap]
      simp only [Frame.length_bytes]
    rw [← hrest] at hsplit
    rw [hsplit, List.length_append, hlen, Nat.add_comm]
  · intro events rest frame hread
    obtain ⟨hframe, havail⟩ := readFrameInternal_eq_ok (readFrame_eq_some.mp hread)
    obtain ⟨sink', hwrite, hwritten, -⟩ := writeFrame_of_progress hframe hprogress
    exact ⟨havail, sink', hwrite, hwritten⟩

/-- Two frames written one, four and then all bytes at a time, with an interruption, and read in
chunks that end inside the first header and inside the first payload. -/
theorem frames_survive_split :
    writeFrames [⟨kTagExecStream, 0, [1, 2]⟩, ⟨kTagCommandOk, 0, []⟩]
        ⟨[.wrote 1, .interrupted, .wrote 4], [], []⟩ =
      (true, ⟨[], [0, 0, 0, 2, 0x20, 0, 0, 0, 1, 2, 0, 0, 0, 0, 0x10, 0, 0, 0],
        text "Interrupted system call"⟩) ∧
    ∃ rest, readFrames 2 [.chunk 0 [0, 0, 2, 0x20], .interrupted, .chunk 0 [0, 0, 1],
        .chunk 2 [0, 0, 0, 0, 0x10, 0, 0, 0]] =
      (some [⟨kTagExecStream, 0, [1, 2]⟩, ⟨kTagCommandOk, 0, []⟩], rest) := by
  refine ⟨by rfl, ?_⟩
  have h := frames_survive [⟨kTagExecStream, 0, [1, 2]⟩, ⟨kTagCommandOk, 0, []⟩] (by decide)
    ⟨[.wrote 1, .interrupted, .wrote 4], [], []⟩ (by simp [SendEvent.Progress])
  obtain ⟨rest, hread, -⟩ := h.2.1 [.chunk 0 [0, 0, 2, 0x20], .interrupted, .chunk 0 [0, 0, 1],
    .chunk 2 [0, 0, 0, 0, 0x10, 0, 0, 0]] [] (by rfl) 2 (by decide)
  exact ⟨rest, hread⟩

end Rucbase.Wire
