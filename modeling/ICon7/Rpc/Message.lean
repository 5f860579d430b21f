/-
# Calls and returns as frames

What `CommandCallSend` and `MessageReturnExecutor` write and `OnReceive` reads
(`include/icon7/RPCEnvironment.hpp`, `include/icon7/MessageConverter.hpp`,
`src/RPCEnvironment.cpp`).  A call is the id of its callback, the name of the
function and the arguments; a return is the id and the value.

Numbers, names and values are written and read by bitscpp, of which only the laws of
`Codec` are assumed.  The frames are those of `Framing.Message` (`frame_eq`).
-/

import ICon7.Framing.EndToEnd

namespace ICon7

open Framing

/-- What is assumed of bitscpp: `op_untyped_uint32` and `HostToNetworkUint` agree on four bytes,
and `op` on the value type gives back what it has written. -/
structure Codec (V : Type) where
  encodeUint : UInt32 → List UInt8
  decodeUint : List UInt8 → UInt32 × List UInt8
  encode : V → List UInt8
  decode : List UInt8 → V
  length_encodeUint : ∀ n, (encodeUint n).length = 4
  decodeUint_encodeUint : ∀ n rest, decodeUint (encodeUint n ++ rest) = (n, rest)
  decode_encode : ∀ v, decode (encode v) = v

/-- A `MessageConverter`: whether `ExecuteGetQueue` gives a queue, and whether the arguments can
be read without errors. -/
structure MessageConverter where
  executeGetQueue : List UInt8 → Flags → Bool
  argsOk : List UInt8 → Bool

/-- The registered messages: what is found under the name that the bytes begin with, and the
bytes behind the name. -/
structure RPCEnvironment where
  find : List UInt8 → Option (MessageConverter × List UInt8)

/-- `ExecuteRPC`, but for the peer and the queue. -/
structure ExecuteRPC where
  reader : List UInt8
  messageConverter : MessageConverter
  flags : Flags
  returnId : UInt32

/-- `WriteHeaderIntoBuffer`, on the bytes of the buffer. -/
def frame (body : List UInt8) (flags : Flags) : Option (List UInt8) := do
  let header ← writeHeader (getHeaderSize body.length) body.length flags
  return header ++ body

section

variable {V : Type} (C : Codec V)

/-- The buffer of `RPCEnvironment::Call`, with a placeholder for the id. -/
def callBuffer (payload : List UInt8) : List UInt8 := C.encodeUint 0 ++ payload

/-- The id copied over the first four bytes of the buffer. -/
def patchId (id : UInt32) (buffer : List UInt8) : List UInt8 := C.encodeUint id ++ buffer.drop 4

/-- The first half of `OnReceiveCall`: the call that the bytes stand for, if its function is
registered. -/
def RPCEnvironment.readCall (E : RPCEnvironment) (body : List UInt8) (flags : Flags) :
    Option ExecuteRPC := do
  let (returnId, reader) := if flags &&& 6 = FLAGS_CALL then C.decodeUint body else (0, body)
  let (messageConverter, reader) ← E.find reader
  return { reader, messageConverter, flags, returnId }

namespace ExecuteRPC

/-- The handler is run: its arguments can be read. -/
def runs (rpc : ExecuteRPC) : Bool := rpc.messageConverter.argsOk rpc.reader

/-- The value of the handler is sent back. -/
def replies (rpc : ExecuteRPC) : Bool := rpc.returnId ≠ 0 && rpc.flags &&& 6 = FLAGS_CALL

/-- The frame that `MessageReturnExecutor` sends. -/
def replyFrame (rpc : ExecuteRPC) (v : V) : Option (List UInt8) :=
  frame (C.encodeUint rpc.returnId ++ C.encode v)
    (((rpc.flags ||| 6) ^^^ 6) ||| FLAGS_CALL_RETURN_FEEDBACK)

end ExecuteRPC

end

/-! ### What is read from a frame -/

/-- The frame that `WriteHeaderIntoBuffer` makes of a buffer with the body. -/
theorem frame_eq (pool : MemoryPool) (body : List UInt8) (flags : Flags)
    (h : 1 ≤ body.length ∧ body.length ≤ 2 ^ 28) :
    (Message.ofBody pool body flags h).body = body ∧
      frame body flags = some (Message.ofBody pool body flags h).frame := by
  have hbody : (Message.ofBody pool body flags h).body = body := by
    simp [Message.ofBody, Message.body, ByteBufferWritable.data]
  obtain ⟨-, header, -, -, hheader, -, hframe⟩ := (Message.ofBody pool body flags h).frame_spec
  rw [hbody] at hheader hframe
  refine ⟨hbody, ?_⟩
  rw [hframe, frame, show writeHeader _ _ flags = some header from hheader]
  rfl

/-- The frame carries the body and the kind. -/
structure Carries (f body : List UInt8) (flags : Flags) : Prop where
  frameLen : FrameDecoder.frameLen f = some f.length
  packet : (FrameDecoder.packetOf f).buffer = f
  size : f.length = (FrameDecoder.packetOf f).headerSize + body.length
  body : f.drop (FrameDecoder.packetOf f).headerSize = body
  kind : ∀ other, getPacketFlags f other = some (other ||| (flags &&& 6))

/-- No header describes a longer body. -/
theorem frame_length_le {body f : List UInt8} {flags : Flags} (h : frame body flags = some f) :
    body.length ≤ 2 ^ 28 := by
  by_contra hlt
  have hsize : getHeaderSize body.length = 0 := by
    simp only [getHeaderSize]
    split_ifs <;> omega
  simp [frame, hsize, writeHeader] at h

/-- **What is read from a frame is what was written.** -/
theorem frame_carries {body f : List UInt8} {flags : Flags} (hb : body ≠ [])
    (h : frame body flags = some f) : Carries f body flags := by
  have hlen : 1 ≤ body.length ∧ body.length ≤ 2 ^ 28 :=
    ⟨List.length_pos_iff.mpr hb, frame_length_le h⟩
  obtain ⟨hbody, hframe⟩ :=
    frame_eq .zeroed body flags hlen
  set m := Message.ofBody .zeroed body flags hlen
  obtain rfl : m.frame = f := Option.some.inj (hframe.symm.trans h)
  obtain ⟨-, header, -, -, -, hhl, happ⟩ := m.frame_spec
  obtain ⟨-, hfl, -, hflags⟩ := m.frame_reads
  rw [hbody] at hhl happ hfl
  have hpacket : (FrameDecoder.packetOf m.frame).headerSize = getHeaderSize body.length := by
    rw [m.packetOf_frame, hbody]
  refine ⟨m.frameLen_frame, by rw [m.packetOf_frame], by rw [hpacket, hfl], ?_, fun other => ?_⟩
  · rw [hpacket, happ, ← hhl, List.drop_left]
  · simp only [getPacketFlags, Option.bind_eq_bind, Option.bind_eq_some_iff, Option.pure_def,
      Option.some.injEq, UInt32.zero_or] at hflags ⊢
    obtain ⟨b, hb, hk⟩ := hflags
    exact ⟨b, hb, by rw [hk]; rfl⟩

/-- Every body of a length that a header can describe makes a frame. -/
theorem frame_of_le {body : List UInt8} (hb : body ≠ []) (hle : body.length ≤ 2 ^ 28) (flags : Flags) :
    ∃ f, frame body flags = some f :=
  ⟨_, (frame_eq .zeroed body flags
    ⟨List.length_pos_iff.mpr hb, hle⟩).2⟩

/-! ### The kinds of frames -/

theorem or_and_six (a b : Flags) : (a ||| b) &&& 6 = (a &&& 6) ||| (b &&& 6) :=
  UInt32.toBitVec_inj.mp BitVec.and_or_distrib_right

/-- A call has the kind of a call, unless its flags make it a control sequence. -/
theorem kind_call (flags : Flags) :
    (flags ||| FLAGS_CALL) &&& 6 = FLAGS_CALL ∨
      (flags ||| FLAGS_CALL) &&& 6 = FLAGS_PROTOCOL_CONTROLL_SEQUENCE := by
  obtain ⟨k, hk, hkind⟩ := flags_kind flags
  rw [or_and_six, hkind]
  interval_cases k <;> decide

/-- An answer has the kind of a return. -/
theorem kind_reply (flags : Flags) :
    (((flags ||| 6) ^^^ 6) ||| FLAGS_CALL_RETURN_FEEDBACK) &&& 6 = FLAGS_CALL_RETURN_FEEDBACK := by
  have hxor : ((flags ||| 6) ^^^ 6) &&& 6 = ((flags ||| 6) &&& 6) ^^^ (6 &&& 6) :=
    UInt32.toBitVec_inj.mp (BitVec.eq_of_getElem_eq (by simp [Bool.and_xor_distrib_right]))
  obtain ⟨k, hk, hkind⟩ := flags_kind flags
  rw [or_and_six, hxor, or_and_six, hkind]
  interval_cases k <;> decide

/-- The kind that is read back. -/
theorem kind_received {other : Flags} (h : other &&& 6 = 0) (flags : Flags) :
    (other ||| (flags &&& 6)) &&& 6 = flags &&& 6 := by
  rw [or_and_six, h, UInt32.zero_or, UInt32.and_assoc, UInt32.and_self]

/-! ### Ids and values -/

section

variable {V : Type} (C : Codec V)

/-- The id takes the place of the placeholder. -/
theorem patchId_callBuffer (id : UInt32) (payload : List UInt8) :
    patchId C id (callBuffer C payload) = C.encodeUint id ++ payload := by
  rw [patchId, callBuffer, ← C.length_encodeUint 0, List.drop_left]

theorem encodeUint_append_ne_nil (n : UInt32) (rest : List UInt8) : C.encodeUint n ++ rest ≠ [] := by
  intro h
  have := congrArg List.length h
  rw [List.length_append, C.length_encodeUint] at this
  simp at this

/-- Numbers with their high byte first, and values of one byte. -/
def Codec.bytes : Codec UInt8 where
  encodeUint n := [24, 16, 8, 0].map fun i => UInt8.ofNat (n.toNat / 2 ^ i)
  decodeUint body := (UInt32.ofNat ((body.take 4).foldl (fun n b => 256 * n + b.toNat) 0), body.drop 4)
  encode v := [v]
  decode body := body.headD 0
  length_encodeUint _ := rfl
  decodeUint_encodeUint n rest := by
    refine Prod.ext ?_ rfl
    have hn := n.toNat_lt
    apply UInt32.toNat_inj.mp
    simp only [List.map_cons, List.map_nil, List.cons_append, List.nil_append, List.take_succ_cons,
      List.take_zero, List.foldl_cons, List.foldl_nil, UInt8.toNat_ofNat', UInt32.toNat_ofNat']
    omega
  decode_encode _ := rfl

end

end ICon7
