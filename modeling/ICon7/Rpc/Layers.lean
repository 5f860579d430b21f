/-
# One call in three models

`OnReceive`, `ExecuteRPC`, `OnReturnCallback` and `CommandCallSend` (`src/RPCEnvironment.cpp`,
`include/icon7/RPCEnvironment.hpp`, `include/icon7/MessageConverter.hpp`,
`include/icon7/OnReturnCallback.hpp`) are modelled as far as a result needs them.  `Rpc.Received` and
`Rpc.RoundTrip` have the reader of bitscpp, the registry and the handlers.  `Rpc.Message`,
`Rpc.Endpoint` and `Rpc.Answer` have bytes, and of a handler only whether it has a queue and whether
its arguments can be read: that is all that the order of calls and returns depends on.
`Rpc.AnyBytes` adds the counters and the assertion on names.  Here they are shown to be models of one
program.

A run of the receiving peer is a run of its endpoint (`ReceivingPeer.run_data`).  Where the bytes of
the codec are those of bitscpp (`Codec.Follows`), a registry is seen as what it does with bytes
(`Received.RPCEnvironment.view`); then a call takes the same way in both (`onReceiveCall_view`), a call
and an answer are the same frames (`callSend_view`, `execute_view`), and a return takes the same
callback out and gives it the same value (`onReceiveReturn_view`).
-/

import ICon7.Rpc.Answer
import ICon7.Rpc.AnyBytes
import ICon7.Rpc.RoundTrip

namespace ICon7

open Framing Lib

/-! ### The receiving peer and its endpoint -/

namespace ReceivingPeer

variable {V : Type} {C : Codec V} {E : NamedMessages} {T : MapTraits UInt32 OnReturnCallback}
  {p p' : ReceivingPeer V}

/-- What an event does at an endpoint. -/
def Op.atEndpoint (C : Codec V) (E : RPCEnvironment) (T : MapTraits UInt32 OnReturnCallback)
    (e : Endpoint V) : Op V → Option (Endpoint V)
  | .call executionQueue timeoutTimePoint payload flags =>
    e.callSend C T executionQueue timeoutTimePoint payload flags
  | .data chunk values => e.onData C E T chunk values
  | .executeRPC i v => e.executeRPC C i v
  | .executeCallback i => some (e.executeCallback C i)
  | .checkTimeout random now => e.checkForTimeoutFunctionCalls C T random now

theorem onReceive_data {n : ℕ} {body : List UInt8} {flags : Flags} {v : V}
    (h : p.onReceive C E T n body flags v = some p') :
    p.data.onReceive C E.toRPCEnvironment T n body flags v = some p'.data := by
  unfold onReceive at h
  unfold Endpoint.onReceive
  split_ifs at h ⊢ with hcall hreturn
  · obtain ⟨-, -, h⟩ := Option.bind_eq_some_iff.mp h
    obtain ⟨e, he, h⟩ := Option.bind_eq_some_iff.mp h
    rw [he, ← Option.some.inj h]
  · obtain ⟨e, he, h⟩ := Option.bind_eq_some_iff.mp h
    rw [he, ← Option.some.inj h]
  · rw [Option.some.inj h]

/-- A control sequence is only counted. -/
theorem onPacketWithControllSequence_data {packet : Packet}
    (h : p.onPacketWithControllSequence packet = some p') : p'.data = p.data := by
  obtain ⟨vectorCall, hread, h⟩ := Option.bind_eq_some_iff.mp h
  split_ifs at h
  · rw [← Option.some.inj h]
    rfl
  · obtain ⟨-, -, h⟩ := Option.bind_eq_some_iff.mp h
    rw [← Option.some.inj h]
    rfl

theorem onPacket_data {packet : Packet} {v : V} (h : p.onPacket C E T packet v = some p') :
    p.data.onPacket C E.toRPCEnvironment T packet v = some p'.data := by
  unfold onPacket at h
  unfold Endpoint.onPacket
  split_ifs at h ⊢ with hempty
  · rw [← Option.some.inj h]
    rfl
  obtain ⟨kind, hkind, h⟩ := Option.bind_eq_some_iff.mp h
  rw [hkind, Option.bind_eq_bind, Option.bind_some]
  split_ifs at h ⊢ with hcontroll
  · rw [onPacketWithControllSequence_data h]
    rfl
  · obtain ⟨flags, hflags, h⟩ := Option.bind_eq_some_iff.mp h
    rw [hflags, Option.bind_some]
    exact onReceive_data h

theorem onData_data {chunk : Chunk} {values : ℕ → V} (h : p.onData C E T chunk values = some p') :
    p.data.onData C E.toRPCEnvironment T chunk values = some p'.data := by
  obtain ⟨⟨frameDecoder, packets⟩, hpush, h⟩ := Option.bind_eq_some_iff.mp h
  have hpush' : p.data.frameDecoder.pushData chunk = some (frameDecoder, packets) := hpush
  rw [Endpoint.onData, hpush', Option.bind_eq_bind, Option.bind_some]
  have hrun := run_map
    (fun e packet => e.onPacket C E.toRPCEnvironment T packet (values e.framesReceived))
    ReceivingPeer.data (fun _ _ _ hstep => onPacket_data hstep) packets h
  exact hrun

theorem step_data {op : Op V} (h : step C E T p op = some p') :
    op.atEndpoint C E.toRPCEnvironment T p.data = some p'.data := by
  cases op with
  | call executionQueue timeoutTimePoint payload flags =>
    obtain ⟨e, he, h⟩ := Option.bind_eq_some_iff.mp h
    rw [← Option.some.inj h]
    exact he
  | data chunk values => exact onData_data h
  | executeRPC i v =>
    obtain ⟨e, he, h⟩ := Option.bind_eq_some_iff.mp h
    rw [← Option.some.inj h]
    exact he
  | executeCallback i =>
    rw [← Option.some.inj h]
    rfl
  | checkTimeout random now =>
    obtain ⟨e, he, h⟩ := Option.bind_eq_some_iff.mp h
    rw [← Option.some.inj h]
    exact he

/-- **A run of the receiving peer is a run of its endpoint.**  The counters look on, and the assertion
on names can only end a run. -/
theorem run_data (ops : List (Op V)) (h : run C E T p ops = some p') :
    ops.foldlM (Op.atEndpoint C E.toRPCEnvironment T) p.data = some p'.data := by
  have hrun := run_map (Op.atEndpoint C E.toRPCEnvironment T) ReceivingPeer.data
    (fun _ _ _ hstep => step_data hstep) ops h
  exact hrun

end ReceivingPeer

/-! ### Bytes and readers -/

section

variable {W T : Type} {D : T → Type} {R S : Type}

/-- The codec writes and reads as bitscpp does, for handlers that return a value of the type, or
`void`.  Nothing is said of a number that is cut off: the reader counts an error there. -/
structure Codec.Follows (C : Codec W) (B : Received.Bitscpp T D R) (type : Option (Received.DataType T))
    (datum : W → Option (Received.Datum D)) : Prop where
  encodeUint : ∀ n, C.encodeUint n = B.writeUntypedUint32 n
  decodeUint : ∀ body : List UInt8, 4 ≤ body.length →
    B.opUntypedUint32 (B.ofBytes body) = ((C.decodeUint body).1, B.ofBytes (C.decodeUint body).2)
  encode : ∀ v, C.encode v = ((datum v).map B.writeDatum).getD []
  decode : ∀ bytes, type.map (fun t => (B.opDatum t (B.ofBytes bytes)).1) = datum (C.decode bytes)

/-- Numbers and values as `Bitscpp.tagged` writes them. -/
def Codec.tagged : Codec UInt8 :=
  { Codec.bytes with
    encode := fun v => [3, v]
    decode := fun body => (Received.Bitscpp.tagged.op () (body, 0)).1
    decode_encode := fun _ => rfl }

example : Codec.tagged.Follows Received.Bitscpp.tagged (some (.other ())) fun v => some (.other () v) :=
  ⟨fun _ => rfl, fun _ _ => rfl, fun _ => rfl, fun _ => rfl⟩

namespace Received

/-- What the bytes decide of a converter: whether the call is queued, and whether its arguments can be
read. -/
def MessageConverter.view (B : ByteReader R) (c : MessageConverter R S) (reader : R) :
    ICon7.MessageConverter where
  executeGetQueue _ flags := ((c.executeGetQueue reader flags).bind Prod.fst).isSome
  argsOk _ := B.getErrors (c.readArgs reader) = 0

/-- The registry, as what it makes of the bytes of a call.  The converter that is found holds the reader
behind the name. -/
def RPCEnvironment.view (B : Bitscpp T D R) (E : RPCEnvironment R S) : NamedMessages where
  find body :=
    let (name, reader) := RpcName.serialize B.toByteReader {} (B.ofBytes body)
    (E.find name).join.map fun c => (c.1.view B.toByteReader reader, body)
  named body := (RpcName.serialize B.toByteReader {} (B.ofBytes body)).1.valid

/-- A queue that is chosen per call is chosen without reading the arguments. -/
def MessageConverter.Peeks (c : MessageConverter R S) : Prop :=
  ∀ getQueue ∈ c.getExecutionQueue, ∀ reader flags, (getQueue reader flags).2 = reader

/-- Whatever queue is chosen, the reader stays where it was. -/
theorem MessageConverter.Peeks.executeGetQueue {c : Registered R S} (hc : c.1.Peeks) (reader : R)
    (flags : Flags) :
    c.1.executeGetQueue reader flags = some ((c.1.executeGetQueue reader flags).bind Prod.fst, reader) := by
  obtain ⟨⟨queue, reader'⟩, hq⟩ := RPCEnvironment.executeGetQueue_isSome c reader flags
  suffices hr : reader' = reader by rw [hq, hr]; rfl
  simp only [MessageConverter.executeGetQueue, guard, c.2, if_true, Option.bind_eq_bind, Option.pure_def,
    Option.bind_some] at hq
  split at hq
  · exact (congrArg Prod.snd (Option.some.inj hq)).symm
  · next getQueue _ hget =>
    rw [← hc getQueue (by rw [hget]; rfl) reader flags, Option.some.inj hq]
  · exact (congrArg Prod.snd (Option.some.inj hq)).symm

/-- The handler is run exactly if its arguments can be read. -/
theorem deserializeAndExecute_view {B : ByteReader R} (c : Registered R S) (w : S) (reader : R)
    (flags : Flags) (returnId : UInt32) (bytes : List UInt8) :
    c.1.deserializeAndExecute B w reader flags returnId =
      some (if (c.1.view B reader).argsOk bytes then c.1.onReceive w reader flags returnId else w) := by
  simp only [MessageConverter.deserializeAndExecute, guard, c.2, if_true, Option.bind_eq_bind,
    Option.bind_some, Option.pure_def, MessageConverter.view, decide_eq_true_eq]
  by_cases hargs : B.getErrors (c.1.readArgs reader) = 0
  · rw [if_neg (not_not_intro hargs), if_pos hargs]
  · rw [if_pos hargs, if_neg hargs]

variable {C : Codec W} {B : Bitscpp T D R} {type : Option (DataType T)} {datum : W → Option (Datum D)}

/-! ### Received calls -/

section

variable {E : RPCEnvironment R S} {enqueue : S → ExecuteRPC R S → S} {body : List UInt8} {flags : Flags}

/-- The bytes behind the id, where the call has one. -/
def nameBytes (C : Codec W) (body : List UInt8) (flags : Flags) : List UInt8 :=
  if flags &&& 6 = FLAGS_CALL then (C.decodeUint body).2 else body

/-- The id of the call, where it has one. -/
def returnIdOf (C : Codec W) (body : List UInt8) (flags : Flags) : UInt32 :=
  if flags &&& 6 = FLAGS_CALL then (C.decodeUint body).1 else 0

/-- The name of the call, and the reader behind it. -/
def readName (B : Bitscpp T D R) (C : Codec W) (body : List UInt8) (flags : Flags) : RpcName × R :=
  RpcName.serialize B.toByteReader {} (B.ofBytes (nameBytes C body flags))

/-- The id is read in the same way. -/
theorem readReturnId_view (hC : C.Follows B type datum)
    (hbody : flags &&& 6 = FLAGS_CALL → 4 ≤ body.length) :
    RPCEnvironment.readReturnId B.toByteReader (B.ofBytes body) flags =
      (returnIdOf C body flags, B.ofBytes (nameBytes C body flags)) := by
  unfold RPCEnvironment.readReturnId returnIdOf nameBytes
  split_ifs with hcall
  · exact hC.decodeUint body (hbody hcall)
  · rfl

/-- The call that is read from the bytes. -/
theorem readCall_view (C : Codec W) (E : RPCEnvironment R S) (body : List UInt8) (flags : Flags) :
    (E.view B).readCall C body flags =
      (E.find (readName B C body flags).1).join.map fun c =>
        ⟨nameBytes C body flags, c.1.view B.toByteReader (readName B C body flags).2, flags,
          returnIdOf C body flags⟩ := by
  unfold ICon7.RPCEnvironment.readCall readName nameBytes returnIdOf
  split_ifs with hcall
  · simp only [RPCEnvironment.view]
    cases (E.find _).join <;> rfl
  · simp only [RPCEnvironment.view]
    cases (E.find _).join <;> rfl

/-- What is done with the name. -/
theorem onReceiveCall_readName (hC : C.Follows B type datum)
    (hbody : flags &&& 6 = FLAGS_CALL → 4 ≤ body.length) (w : S) :
    E.onReceiveCall B.toByteReader enqueue w (B.ofBytes body) flags = do
      match ← E.find (readName B C body flags).1 with
      | some c =>
        let (queue, reader) ← c.1.executeGetQueue (readName B C body flags).2 flags
        match queue with
        | some queue => return enqueue w ⟨reader, c, flags, returnIdOf C body flags, queue⟩
        | none => c.1.deserializeAndExecute B.toByteReader w reader flags (returnIdOf C body flags)
      | none =>
        let _ ← (readName B C body flags).1.toString
        return w := by
  rw [RPCEnvironment.onReceiveCall, readReturnId_view hC hbody]
  rfl

/-- **A call that names no function** fails the assertion in both. -/
theorem onReceiveCall_view_unnamed (hC : C.Follows B type datum)
    (hbody : flags &&& 6 = FLAGS_CALL → 4 ≤ body.length) (w : S)
    (hnamed : (E.view B).named (nameBytes C body flags) = false) :
    E.onReceiveCall B.toByteReader enqueue w (B.ofBytes body) flags = none := by
  have hfind : E.find (readName B C body flags).1 = none :=
    E.find_of_not_valid (Bool.eq_false_iff.mp hnamed)
  rw [onReceiveCall_readName hC hbody, hfind]
  rfl

/-- **A call of a function that is not registered** changes nothing in either. -/
theorem onReceiveCall_view_unknown (hC : C.Follows B type datum)
    (hbody : flags &&& 6 = FLAGS_CALL → 4 ≤ body.length) (w : S)
    (hnamed : (E.view B).named (nameBytes C body flags) = true)
    (hcall : (E.view B).readCall C body flags = none) :
    E.onReceiveCall B.toByteReader enqueue w (B.ofBytes body) flags = some w := by
  have hvalid : (readName B C body flags).1.valid := hnamed
  obtain ⟨c, hfind⟩ := E.find_of_valid hvalid
  obtain ⟨text, htext⟩ := RpcName.toString_of_valid hvalid
  rw [readCall_view, Option.map_eq_none_iff, hfind, Option.join_some] at hcall
  rw [onReceiveCall_readName hC hbody, hfind, hcall, htext]
  rfl

/-- **A call of a registered function** is queued in both or executed at once in both, with the same
flags and the same id, and its handler is run in both or in neither. -/
theorem onReceiveCall_view (hC : C.Follows B type datum)
    (hE : ∀ name c, E.find name = some (some c) → c.1.Peeks)
    (hbody : flags &&& 6 = FLAGS_CALL → 4 ≤ body.length) {rpc : ICon7.ExecuteRPC}
    (hcall : (E.view B).readCall C body flags = some rpc) :
    ∃ (c : Registered R S) (reader : R), rpc.flags = flags ∧
      (∀ w, c.1.deserializeAndExecute B.toByteReader w reader flags rpc.returnId =
        some (if rpc.runs then c.1.onReceive w reader flags rpc.returnId else w)) ∧
      if rpc.messageConverter.executeGetQueue rpc.reader flags then
        ∃ queue, ∀ w, E.onReceiveCall B.toByteReader enqueue w (B.ofBytes body) flags =
          some (enqueue w ⟨reader, c, flags, rpc.returnId, queue⟩)
      else ∀ w, E.onReceiveCall B.toByteReader enqueue w (B.ofBytes body) flags =
        c.1.deserializeAndExecute B.toByteReader w reader flags rpc.returnId := by
  rw [readCall_view] at hcall
  obtain ⟨c, hjoin, rfl⟩ := Option.map_eq_some_iff.mp hcall
  have hfind := Option.join_eq_some_iff.mp hjoin
  have hqueue := (hE _ c hfind).executeGetQueue (readName B C body flags).2 flags
  refine ⟨c, (readName B C body flags).2, rfl,
    fun w => deserializeAndExecute_view c w _ flags _ _, ?_⟩
  cases hq : (c.1.executeGetQueue (readName B C body flags).2 flags).bind Prod.fst with
  | some queue =>
    rw [hq] at hqueue
    rw [if_pos (by simp [MessageConverter.view, hq])]
    refine ⟨queue, fun w => ?_⟩
    rw [onReceiveCall_readName hC hbody, hfind, Option.bind_eq_bind, Option.bind_some]
    simp only [hqueue, Option.bind_eq_bind, Option.bind_some, Option.pure_def]
  | none =>
    rw [hq] at hqueue
    rw [if_neg (by simp [MessageConverter.view, hq])]
    intro w
    rw [onReceiveCall_readName hC hbody, hfind, Option.bind_eq_bind, Option.bind_some]
    simp only [hqueue, Option.bind_eq_bind, Option.bind_some]

end

/-- The converters of `Rpc.RoundTrip` are registered without a function that chooses the queue. -/
theorem MessageConverterSpec.peeks (c : MessageConverterSpec D R S) (B : Bitscpp T D R) (ctx : CallContext)
    (name : Name) : (c.registered B ctx name).1.Peeks := by
  intro getQueue hget
  cases hget

/-- **The bytes of a call are the call of its function:** what the registry's view reads from them has
the id of the call, is queued if the handler has a queue, and runs the handler. -/
theorem readCall_stored {c : MessageConverterSpec D R S} {ctx : CallContext} {name : Name}
    {E : RPCEnvironment R (Option (Served S))}
    (hfind : E.find name.1 = some (some (c.registered B ctx name))) (hps : .data .uint32 ∉ c.params)
    {args : List (Datum D)} (hfits : Fits c.params args) {written : List UInt8}
    (hw : initializeSerializeSend B name.1 = some written) (id : UInt32) {flags : Flags}
    (hkind : flags &&& 6 = FLAGS_CALL) :
    ∃ rpc, (E.view B).readCall C (C.encodeUint id ++ (written ++ B.writeArgs args)) flags = some rpc ∧
      rpc.returnId = id ∧ rpc.runs = true ∧
      rpc.messageConverter.executeGetQueue rpc.reader flags = c.executionQueue.isSome := by
  have hbytes : nameBytes C (C.encodeUint id ++ (written ++ B.writeArgs args)) flags =
      written ++ B.writeArgs args := by
    rw [nameBytes, if_pos hkind, C.decodeUint_encodeUint]
  have hid : returnIdOf C (C.encodeUint id ++ (written ++ B.writeArgs args)) flags = id := by
    rw [returnIdOf, if_pos hkind, C.decodeUint_encodeUint]
  have hname : readName B C (C.encodeUint id ++ (written ++ B.writeArgs args)) flags =
      (name.1, B.ofBytes (B.writeArgs args)) := by
    rw [readName, hbytes, serialize_write name.2.1 hw]
  have hargs := readTypes_writeArgs B (c.context ctx) 0 hps hfits []
  rw [List.append_nil] at hargs
  refine ⟨_, by rw [readCall_view, hname, hfind]; rfl, hid, ?_, ?_⟩
  · simp only [ICon7.ExecuteRPC.runs, MessageConverter.view, MessageConverterSpec.registered,
      MessageConverterSpec.converter, hargs, B.getErrors_ofBytes, decide_true]
  · simp only [MessageConverter.view, MessageConverterSpec.executeGetQueue_registered, Option.bind_some]

/-! ### Frames that are sent -/

section

variable {M : MapTraits UInt32 ICon7.OnReturnCallback} {e e' : Endpoint W}

/-- **A call is the same frame:** what the endpoint sends is what `Call` and its command make of the
name and the arguments, with the id that the endpoint has drawn. -/
theorem callSend_view (hC : C.Follows B type datum) {name : RpcName} {written : List UInt8}
    (hw : initializeSerializeSend B name = some written) {args : List (Datum D)} {executionQueue : Bool}
    {timeoutTimePoint : ℕ} {flags : Flags}
    (h : e.callSend C M executionQueue timeoutTimePoint (written ++ B.writeArgs args) flags =
      some e') :
    ∃ bytes, (callArgs B name args).bind (commandCallSend B e'.returnIdGen flags) = some bytes ∧
      e'.sent = e.sent ++ [⟨.call e.ids.length, bytes⟩] := by
  simp only [Endpoint.callSend, Option.bind_eq_bind, Option.bind_eq_some_iff] at h
  obtain ⟨id, -, m, -, bytes, hframe, h⟩ := h
  refine ⟨bytes, ?_, by rw [← Option.some.inj h]; rfl⟩
  have hgen : e'.returnIdGen = id := by
    rw [← Option.some.inj h]
    rfl
  rw [callArgs, hw, hgen]
  simp only [patchId, callBuffer, hC.encodeUint] at hframe
  exact hframe

/-- The frame of an answer holds the value of the handler. -/
theorem replyFrame_view (hC : C.Follows B type datum) (rpc : ICon7.ExecuteRPC) (v : W) :
    rpc.replyFrame C v = frame (B.writeUntypedUint32 rpc.returnId ++ ((datum v).map B.writeDatum).getD [])
      (((rpc.flags ||| 6) ^^^ 6) ||| FLAGS_CALL_RETURN_FEEDBACK) := by
  rw [ICon7.ExecuteRPC.replyFrame, hC.encodeUint, hC.encode]

variable {c : MessageConverterSpec D R S} {ctx : CallContext} {w : Served S} {args : List (Argument D)}
  {reader : R} {rpc : ICon7.ExecuteRPC} {v : W} {state : S} {peers : PeerManager ℕ}

/-- What `MessageReturnExecutor` does with a value that a frame can hold. -/
theorem execute_view (hC : C.Follows B type datum)
    (hret : c.onReceive w.state w.peers args reader = (state, peers, datum v)) {answer : List UInt8}
    (hframe : rpc.replyFrame C v = some answer) :
    c.execute B ctx w args reader rpc.flags rpc.returnId =
      if rpc.replies then (peers.getLocalPeerData ctx.peer).join.map fun p =>
        ⟨state, peers, w.sent ++ [(p, answer)]⟩
      else some { w with state, peers } := by
  rw [replyFrame_view hC] at hframe
  simp only [MessageConverterSpec.execute, hret, hframe, ICon7.ExecuteRPC.replies, Bool.and_eq_true,
    decide_eq_true_eq]
  split_ifs
  · cases peers.getLocalPeerData ctx.peer with
    | none => rfl
    | some peer => cases peer <;> rfl
  · rfl

/-- **An endpoint answers as its handlers do,** while the peer of the call is there. -/
theorem deserializeAndExecute_sent (hC : C.Follows B type datum)
    (hret : c.onReceive w.state w.peers args reader = (state, peers, datum v)) {p : ℕ}
    (hp : peers.getLocalPeerData ctx.peer = some (some p)) {answer : List UInt8}
    (hframe : rpc.replyFrame C v = some answer) (hruns : rpc.runs = true) {n : ℕ}
    (h : e.deserializeAndExecute C n rpc v = some e') :
    ∃ frames : List (List UInt8), e'.sent = e.sent ++ frames.map (SentFrame.mk (.reply n)) ∧
      c.execute B ctx w args reader rpc.flags rpc.returnId =
        some ⟨state, peers, w.sent ++ frames.map fun bytes => (p, bytes)⟩ := by
  rw [execute_view hC hret hframe, hp]
  rw [Endpoint.deserializeAndExecute, if_pos hruns] at h
  cases hr : rpc.replies with
  | true =>
    rw [hr, if_pos rfl, hframe] at h
    refine ⟨[answer], ?_, rfl⟩
    rw [← Option.some.inj h]
    rfl
  | false =>
    rw [hr, if_neg Bool.false_ne_true] at h
    refine ⟨[], ?_, ?_⟩
    · rw [← Option.some.inj h]
      exact (List.append_nil _).symm
    · rw [if_neg Bool.false_ne_true, List.map_nil, List.append_nil]

/-- **A server answers as its handlers do,** whether the peer is there or not: the peers and the
answers are the same, and both have no value where a null pointer is dereferenced. -/
theorem answer_view (hC : C.Follows B type datum) {s t : RpcServer} {x : QueuedRPC} {handler : List ℕ}
    (hruns : x.rpc.runs = true) (hclose : handler.foldlM RpcServer.closePeer s = some t)
    (hsent : t.sent = w.sent) {answer : List UInt8} (hframe : x.rpc.replyFrame C v = some answer)
    (hret : c.onReceive w.state w.peers args reader = (state, t.peers.manager, datum v))
    (hctx : ctx.peer = x.peer) :
    (s.answer C x v handler).map (fun s => (s.peers.manager, s.sent)) =
      (c.execute B ctx w args reader x.rpc.flags x.rpc.returnId).map fun w => (w.peers, w.sent) := by
  rw [execute_view hC hret hframe, RpcServer.answer, if_pos hruns, hclose, Option.bind_eq_bind,
    Option.bind_some, hframe, hctx]
  split_ifs
  · cases t.peers.manager.getLocalPeerData x.peer with
    | none => rfl
    | some peer =>
      cases peer with
      | none => rfl
      | some p =>
        rw [← hsent]
        rfl
  · rw [← hsent]
    rfl

end

/-! ### Returns -/

section

variable {M : MapTraits UInt32 ICon7.OnReturnCallback} {e : Endpoint W} {queue : ℕ → ℕ}
  {returningCallbacks : UInt32 → Option (OnReturnCallback R (Datum D))}

/-- The callbacks in the map of the endpoint are those that are pending, for values of the type and
each with the queue of its call. -/
structure Waits (B : Bitscpp T D R) (type : Option (DataType T)) (queue : ℕ → ℕ) (e : Endpoint W)
    (returningCallbacks : UInt32 → Option (OnReturnCallback R (Datum D))) : Prop where
  pending : ∀ id cb, (id, cb) ∈ e.returningCallbacks.entries → ∃ call, cb.callback = some call ∧
    returningCallbacks id =
      some ⟨type.map B.opDatum, if cb.executionQueue then some (queue call) else none⟩
  absent : ∀ id, (∀ cb, (id, cb) ∉ e.returningCallbacks.entries) → returningCallbacks id = none

/-- What the endpoint has done is what becomes of the command: nothing without one, and else the
callback of the call with the id is executed or queued, and gets the value that the bytes hold. -/
def Delivered (C : Codec W) (datum : W → Option (Datum D)) (queue : ℕ → ℕ) (e e' : Endpoint W)
    (flags : Flags) (returnId : UInt32) (reader : List UInt8) : Option (Delivery R (Datum D)) → Prop
  | none => e' = e
  | some (.executed c) => ∃ call, e.ids[call]? = some returnId ∧
      e'.executed = e.executed ++ [⟨call, some (returnId, C.decode reader)⟩] ∧
      c.execute = .onReturn flags (datum (C.decode reader))
  | some (.enqueued q c) => ∃ call, e.ids[call]? = some returnId ∧ q = queue call ∧
      e'.callbackQueue = e.callbackQueue ++ [⟨call, some (returnId, reader)⟩] ∧
      c.execute = .onReturn flags (datum (C.decode reader))

/-- The map without the callback that is taken out. -/
theorem Waits.take (hw : Waits B type queue e returningCallbacks) {id : UInt32} {e' : Endpoint W}
    (hm : ∀ x, x ∈ e'.returningCallbacks.entries ↔ x ∈ e.returningCallbacks.entries ∧ x.1 ≠ id) :
    Waits B type queue e' (Function.update returningCallbacks id none) := by
  refine ⟨fun id' cb hmem => ?_, fun id' hno => ?_⟩
  · obtain ⟨hold, hne⟩ := (hm _).mp hmem
    obtain ⟨call, hcall, hcb⟩ := hw.pending id' cb hold
    exact ⟨call, hcall, by rw [Function.update_of_ne hne, hcb]⟩
  · rcases eq_or_ne id' id with rfl | hne
    · exact Function.update_self ..
    · rw [Function.update_of_ne hne]
      exact hw.absent id' fun cb hcb => hno cb ((hm _).mpr ⟨hcb, hne⟩)

/-- The value that a callback is given. -/
theorem execute_decode (hC : C.Follows B type datum) (flags : Flags) (bytes : List UInt8) :
    (⟨type.map B.opDatum, B.ofBytes bytes, flags, false⟩ : ExecuteReturnCallback R (Datum D)).execute =
      .onReturn flags (datum (C.decode bytes)) := by
  rw [← hC.decode]
  cases type <;> rfl

/-- **A return is received in the same way:** the same callback is taken out, or none, and it is given
the same value, at once or in the same queue. -/
theorem onReceiveReturn_view (hC : C.Follows B type datum) (ho : e.Own M)
    (hT : ∀ cb v, cb.callback = none → M.assign cb v = v)
    (hw : Waits B type queue e returningCallbacks) {body : List UInt8} (hbody : 4 ≤ body.length)
    (flags : Flags) :
    ∃ e', e.onReceiveReturn C M body = some e' ∧
      Waits B type queue e'
        (onReceiveReturn B.toByteReader returningCallbacks (B.ofBytes body) flags).1 ∧
      Delivered C datum queue e e' flags (C.decodeUint body).1 (C.decodeUint body).2
        (onReceiveReturn B.toByteReader returningCallbacks (B.ofBytes body) flags).2 := by
  by_cases hpend : ∃ cb, ((C.decodeUint body).1, cb) ∈ e.returningCallbacks.entries
  · obtain ⟨cb, hcb⟩ := hpend
    obtain ⟨call, hcall, hwait⟩ := hw.pending _ cb hcb
    obtain ⟨j, p, hfind, hp, hkey, rfl⟩ := FlatHashMap.find_of_mem ho.wf hcb
    obtain ⟨m, d, hrem, hd, hid, -, -, hm, -⟩ := ho.take hT hp p.v.movedFrom rfl
    obtain rfl : call = d := Option.some.inj (hcall.symm.trans hd)
    rw [hkey] at hrem hid hm
    simp only [onReceiveReturn, hC.decodeUint body hbody, hwait, Endpoint.onReceiveReturn, hfind, hp, hrem,
      Endpoint.finishCallback, hcall, Option.bind_eq_bind, Option.bind_some, Option.pure_def]
    -- the two models ask for the queue in the same place
    split_ifs with hqueue
    · exact ⟨_, rfl, hw.take hm, call, hid, rfl, rfl, execute_decode hC flags _⟩
    · exact ⟨_, rfl, hw.take hm, call, hid, rfl, execute_decode hC flags _⟩
  · have hno := not_exists.mp hpend
    refine ⟨e, Endpoint.onReceiveReturn_of_not_pending ho hno, ?_⟩
    simp only [onReceiveReturn, hC.decodeUint body hbody, hw.absent _ hno]
    exact ⟨hw, rfl⟩

end

end Received

end

end ICon7
