/-
# From messages to packets

`FramingProtocol::WriteHeaderIntoBuffer` at one end of a stream and
`FrameDecoder::PushData` at the other.  `README.md` ("Structure of message
header") promises that messages are told apart by their headers, whatever
pieces the stream arrives in; `pushAll_frames` is that promise.

The encoder and the decoder meet in one fact, `frameLen_frame`: the frame that
the encoder writes has exactly the length the decoder reads off its header.
The rest is the cut of `ICon7.Lib.Delimited`, which gives a concatenation of
such frames back.
-/

import ICon7.Framing.ByteBuffer
import ICon7.Framing.Decoder

namespace ICon7
namespace Framing

open FrameDecoder

/-- A message to be framed: a buffer that holds a body a header can describe,
with headroom left or far enough below the capacity limit, the flags, and the
allocator at the time of the call. -/
structure Message where
  pool : MemoryPool
  buffer : ByteBufferWritable
  flags : Flags
  wf : buffer.WF
  size_pos : 1 ≤ buffer.size
  size_le : buffer.size ≤ 2 ^ 28
  room : sizeofStorageHeader + 4 ≤ buffer.offset ∨ buffer.capacity < 2 ^ 29

namespace Message

/-- Every body of a length that a header can describe is a message: in a buffer
that was allocated for it and written by `append` alone, the headroom is whole. -/
def ofBody (pool : MemoryPool) (body : List UInt8) (flags : Flags)
    (h : 1 ≤ body.length ∧ body.length ≤ 2 ^ 28) : Message where
  pool := pool
  buffer := ⟨List.replicate INITIAL_DATA_OFFSET 0 ++ body, body.length, body.length,
    INITIAL_DATA_OFFSET, 0⟩
  flags := flags
  wf := ⟨le_rfl, by simp, fun _ => ⟨by simp only; decide, h.1⟩⟩
  size_pos := h.1
  size_le := h.2
  room := Or.inl (by simp only; decide)

/-- The bytes of the message before its header is written. -/
def body (m : Message) : List UInt8 := m.buffer.data

/-- The bytes of the buffer that `WriteHeaderIntoBuffer` produces. -/
def frame (m : Message) : List UInt8 :=
  match writeHeaderIntoBuffer m.pool m.buffer m.flags with
  | some (buffer, _) => buffer.data
  | none => []

theorem length_body (m : Message) : m.body.length = m.buffer.size := m.wf.length_data

theorem body_bounds (m : Message) : 1 ≤ m.body.length ∧ m.body.length ≤ 2 ^ 28 := by
  rw [m.length_body]
  exact ⟨m.size_pos, m.size_le⟩

/-- The encoder succeeds, and the frame is the header followed by the body. -/
theorem frame_spec (m : Message) :
    ∃ buffer header, writeHeaderIntoBuffer m.pool m.buffer m.flags = some (buffer, true) ∧
      buffer.data = m.frame ∧
      writeHeader (getHeaderSize m.body.length) m.body.length m.flags = some header ∧
      header.length = getHeaderSize m.body.length ∧ m.frame = header ++ m.body := by
  have hh := getHeaderSize_bounds m.size_le
  obtain ⟨buffer, header, hbuf, hheader, -, hdata, -⟩ :=
    writeHeaderIntoBuffer_spec m.pool m.wf ⟨m.size_pos, m.size_le⟩
      (m.room.imp (by omega) (by omega)) m.flags
  obtain ⟨header', hheader', hlen, -⟩ := writeHeader_reads m.body_bounds m.flags
  rw [← m.length_body] at hheader
  obtain rfl : header = header' := by rw [hheader] at hheader'; exact Option.some.inj hheader'
  have hframe : m.frame = buffer.data := by rw [frame, hbuf]
  exact ⟨buffer, header, hbuf, hframe.symm, hheader, hlen, hframe.trans hdata⟩

/-- What the decoder reads off a frame: the header length in its first byte, the
body length, and the kind of the message. -/
theorem frame_reads (m : Message) :
    (∃ b, m.frame.head? = some b ∧ getPacketHeaderSize b = getHeaderSize m.body.length) ∧
      m.frame.length = getHeaderSize m.body.length + m.body.length ∧
      getPacketBodySize m.frame (getHeaderSize m.body.length) = some m.body.length ∧
      getPacketFlags m.frame 0 = some (m.flags &&& 6) := by
  obtain ⟨-, header, -, -, hheader, hlen, hframe⟩ := m.frame_spec
  obtain ⟨header', hheader', -, ⟨b, hb, hsize⟩, hread⟩ := writeHeader_reads m.body_bounds m.flags
  obtain rfl : header = header' := by rw [hheader] at hheader'; exact Option.some.inj hheader'
  obtain ⟨c, t, rfl⟩ : ∃ c t, header = c :: t := by
    cases header with
    | nil => simp at hb
    | cons c t => exact ⟨c, t, rfl⟩
  rw [hframe]
  refine ⟨⟨c, rfl, ?_⟩, by simp only [List.length_append, hlen], (hread _).1, ?_⟩
  · obtain rfl : c = b := by simpa using hb
    exact hsize
  · simpa using (hread m.body).2 0

/-- **The two ends agree on where a frame ends.** -/
theorem frameLen_frame (m : Message) : frameLen m.frame = some m.frame.length := by
  obtain ⟨⟨b, hb, hsize⟩, hlen, hbody, -⟩ := m.frame_reads
  have hle : getHeaderSize m.body.length ≤ getHeaderSize m.body.length + m.body.length :=
    Nat.le_add_right _ _
  simp only [frameLen, hb, hsize, guard, hlen, hle, if_true, hbody, Option.bind_eq_bind,
    Option.bind_some, Option.pure_def]

theorem packetOf_frame (m : Message) :
    packetOf m.frame = ⟨m.frame, getHeaderSize m.body.length⟩ := by
  obtain ⟨⟨b, hb, hsize⟩, -⟩ := m.frame_reads
  simp only [packetOf, hb, Option.map_some, Option.getD_some, hsize]

end Message

/-- **Framing is end to end.**  However the concatenation of the frames of some
messages is cut into chunks, feeding the chunks to a fresh decoder passes on the
frames, each with the length of its header, and leaves the decoder restarted.
Each frame is the shortest header that can describe the body, followed by the
body, and the body length and the kind of the message are read back from it. -/
theorem pushAll_frames (msgs : List Message) (chunks : List Chunk)
    (hcut : (chunks.map Subtype.val).flatten = (msgs.map Message.frame).flatten) :
    fresh.pushAll chunks =
        some (fresh, msgs.map fun m => ⟨m.frame, getHeaderSize m.body.length⟩) ∧
      ∀ m ∈ msgs,
        (∃ buffer header, writeHeaderIntoBuffer m.pool m.buffer m.flags = some (buffer, true) ∧
          buffer.data = m.frame ∧
          writeHeader (getHeaderSize m.body.length) m.body.length m.flags = some header ∧
          header.length = getHeaderSize m.body.length ∧ m.frame = header ++ m.body) ∧
        getPacketBodySize m.frame (getHeaderSize m.body.length) = some m.body.length ∧
        getPacketFlags m.frame 0 = some (m.flags &&& 6) ∧
        IsLeast {k | (1 ≤ k ∧ k ≤ 4) ∧ m.body.length - 1 < 2 ^ (8 * k - 4)}
          (getHeaderSize m.body.length) := by
  constructor
  · have hrun := pushAll_eq_cut [] chunks fun n hn => delimiter.len_pos hn
    have hframes : delimiter.parse (msgs.map Message.frame).flatten =
        (msgs.map Message.frame, []) := by
      refine Lib.Delimiter.parse_frames fun f hf => ?_
      obtain ⟨m, -, rfl⟩ := List.mem_map.1 hf
      exact m.frameLen_frame
    rw [show fresh = ofHeld [] from rfl, hrun, List.nil_append, hcut, cut, hframes, List.map_map]
    exact congrArg (fun l => some (ofHeld [], l)) (List.map_congr_left fun m _ => m.packetOf_frame)
  · intro m _
    obtain ⟨-, -, hbody, hflags⟩ := m.frame_reads
    have hb := m.body_bounds
    exact ⟨m.frame_spec, hbody, hflags,
      ⟨getHeaderSize_bounds hb.2, sub_one_lt_two_pow_getHeaderSize hb.2⟩,
      fun k hk => getHeaderSize_le hk.1 hk.2⟩

/-- The message that calls with the body `[7, 8, 9]`. -/
def callMessage : Message :=
  .ofBody .zeroed [7, 8, 9] FLAGS_CALL (by decide)

/-- The frame `[0x24, 7, 8, 9]` twice, cut inside the first body, with an empty
chunk and a chunk that ends one frame and holds the next. -/
theorem pushAll_frames_twice :
    fresh.pushAll [⟨[0x24, 7], by decide⟩, ⟨[], by decide⟩, ⟨[8, 9, 0x24, 7, 8, 9], by decide⟩] =
      some (fresh, [⟨[0x24, 7, 8, 9], 1⟩, ⟨[0x24, 7, 8, 9], 1⟩]) := by
  have hrun := (pushAll_frames [callMessage, callMessage]
    [⟨[0x24, 7], by decide⟩, ⟨[], by decide⟩, ⟨[8, 9, 0x24, 7, 8, 9], by decide⟩] (by decide)).1
  rw [hrun]
  decide

end Framing
end ICon7
