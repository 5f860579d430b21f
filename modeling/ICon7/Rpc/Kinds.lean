/-
# The kind of a frame and the flags of its sender

Two bits of the flags say what a frame is, and with it how its body is laid out: a
call begins with the id of its callback, a call without feedback with the name of the
function, a return with the id that it answers.  The three writers set these bits each
in its own way: `SerializeSend` ors `0` onto the flags of the caller,
`CommandCallSend` ors `2`, `MessageReturnExecutor` clears both and ors `4`.

`kinds_iff` says for which flags of the caller the receiver reads what was written.
A handler that passes on the flags of a call makes `SerializeSend` write a frame
which is read as a call (`serializeSend_passed_on`).
-/

import ICon7.Rpc.Message

namespace ICon7

open Framing

variable {V : Type} (C : Codec V)

/-- `RPCEnvironment::SerializeSend`, with the name and the arguments as bytes. -/
def serializeSend (payload : List UInt8) (flags : Flags) : Option (List UInt8) :=
  frame payload (flags ||| FLAGS_CALL_NO_FEEDBACK)

/-- The frame of `CommandCallSend::Execute`. -/
def callFrame (id : UInt32) (payload : List UInt8) (flags : Flags) : Option (List UInt8) :=
  frame (patchId C id (callBuffer C payload)) (flags ||| FLAGS_CALL)

/-- How `OnReceive` takes a body: a call, with or without an id, the return of a value, or
nothing that it knows. -/
inductive Layout where
  | call (returnId : Option UInt32) (reader : List UInt8)
  | returned (returnId : UInt32) (reader : List UInt8)
  | unused
deriving DecidableEq, Repr

/-- The switch of `OnReceive`, and what `OnReceiveCall` and `OnReceiveReturn` read first. -/
def layoutOf (body : List UInt8) (flags : Flags) : Layout :=
  if flags &&& 6 = FLAGS_CALL then .call (some (C.decodeUint body).1) (C.decodeUint body).2
  else if flags &&& 6 = FLAGS_CALL_NO_FEEDBACK then .call none body
  else if flags &&& 6 = FLAGS_CALL_RETURN_FEEDBACK then
    .returned (C.decodeUint body).1 (C.decodeUint body).2
  else .unused

/-- `OnReceive` of a frame: its kind and its layout. -/
def receive (f : List UInt8) : Option (Flags × Layout) := do
  let flags ← getPacketFlags f FLAG_RELIABLE
  return (flags &&& 6, layoutOf C (f.drop (FrameDecoder.packetOf f).headerSize) flags)

/-- **What is received of a frame** depends on the kind it was written with. -/
theorem receive_frame {body f : List UInt8} {flags : Flags} (hb : body ≠ [])
    (h : frame body flags = some f) : receive C f = some (flags &&& 6, layoutOf C body flags) := by
  have hc := frame_carries hb h
  have hkind : (FLAG_RELIABLE ||| (flags &&& 6)) &&& 6 = flags &&& 6 := kind_received (by decide) flags
  simp only [receive, hc.kind, hc.body, hkind, layoutOf, Option.bind_eq_bind, Option.bind_some,
    Option.pure_def]

/-- Or-ing `FLAGS_CALL` into flags gives the kind of a call exactly if the bit `4` is clear: the bit `2`
of a call is set either way. -/
theorem or_call_eq_iff (flags : Flags) :
    (flags ||| FLAGS_CALL) &&& 6 = FLAGS_CALL ↔ flags &&& 4 = 0 := by
  obtain ⟨k, hk, hkind⟩ := flags_kind flags
  have hfour : flags &&& 4 = (flags &&& 6) &&& 4 := by rw [UInt32.and_assoc]; rfl
  rw [or_and_six, hfour, hkind]
  interval_cases k <;> decide

/-- **For which flags of the caller the receiver reads what was written:** for
`SerializeSend` those without type bits, for `CommandCallSend` those without the bit of a
return, for `MessageReturnExecutor` all. -/
theorem kinds_iff (flags : Flags) :
    ((∀ payload f, payload ≠ [] → serializeSend payload flags = some f →
        receive C f = some (FLAGS_CALL_NO_FEEDBACK, .call none payload)) ↔ flags &&& 6 = 0) ∧
      ((∀ id payload f, callFrame C id payload flags = some f →
        receive C f = some (FLAGS_CALL, .call (some id) payload)) ↔ flags &&& 4 = 0) ∧
      ∀ (rpc : ExecuteRPC) (v : V) (f : List UInt8), rpc.flags = flags → rpc.replyFrame C v = some f →
        receive C f = some (FLAGS_CALL_RETURN_FEEDBACK, .returned rpc.returnId (C.encode v)) := by
  refine ⟨⟨fun h => ?_, fun h payload f hp hf => ?_⟩, ⟨fun h => ?_, fun h id payload f hf => ?_⟩,
    fun rpc v f hfl hf => ?_⟩
  · obtain ⟨f, hf⟩ := frame_of_le (List.cons_ne_nil 0 []) (by simp) (flags ||| FLAGS_CALL_NO_FEEDBACK)
    have hr := (receive_frame C (by simp) hf).symm.trans (h [0] f (by simp) hf)
    have hk := congrArg Prod.fst (Option.some.inj hr)
    simpa [FLAGS_CALL_NO_FEEDBACK] using hk
  · have hk : (flags ||| FLAGS_CALL_NO_FEEDBACK) &&& 6 = FLAGS_CALL_NO_FEEDBACK := by
      rw [or_and_six, h]
      decide
    rw [receive_frame C hp hf, layoutOf, hk, if_neg (by decide), if_pos rfl]
  · have hne : patchId C 0 (callBuffer C []) ≠ [] := by
      rw [patchId_callBuffer]
      exact encodeUint_append_ne_nil C _ _
    obtain ⟨f, hf⟩ := frame_of_le hne
      (by rw [patchId_callBuffer, List.append_nil, C.length_encodeUint]; norm_num) (flags ||| FLAGS_CALL)
    have hr := (receive_frame C hne hf).symm.trans (h 0 [] f hf)
    exact (or_call_eq_iff flags).mp (congrArg Prod.fst (Option.some.inj hr))
  · have hk := (or_call_eq_iff flags).mpr h
    rw [callFrame, patchId_callBuffer] at hf
    rw [receive_frame C (encodeUint_append_ne_nil C _ _) hf, layoutOf, hk, if_pos rfl,
      C.decodeUint_encodeUint]
  · rw [ExecuteRPC.replyFrame] at hf
    rw [receive_frame C (encodeUint_append_ne_nil C _ _) hf, layoutOf, kind_reply, if_neg (by decide),
      if_neg (by decide), if_pos rfl, C.decodeUint_encodeUint]

/-- A handler that was called with `FLAGS_CALL` passes its flags on to its own `SerializeSend`:
the first four bytes of the name and the arguments are read as an id. -/
theorem serializeSend_passed_on : ∃ f, serializeSend [1, 2, 3, 4, 5] FLAGS_CALL = some f ∧
    receive Codec.bytes f = some (FLAGS_CALL, .call (some 16909060) [5]) := by
  refine ⟨[68, 1, 2, 3, 4, 5], ?_, ?_⟩ <;> decide

end ICon7
