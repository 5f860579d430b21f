/-
# A call from its arguments to its callback

`SerializeSend`, `Call` and `CommandCallSend` (`include/icon7/RPCEnvironment.hpp`) on one
side, `OnReceive` (`src/RPCEnvironment.cpp`), `DeserializeAndExecute` and
`MessageReturnExecutor` (`include/icon7/MessageConverter.hpp`) on the other, and
`ExecuteReturnCallback` (`include/icon7/OnReturnCallback.hpp`) again on the first: a call
is followed through its bytes, from the arguments that are written to the value that the
callback gets.

The name and the arguments are read back (`serialize_write`, `readTypes_writeArgs`), the
registry finds the converter that is stored under the name (`find_stored`), and so the
handler is run with every argument in its place (`MessageConverterSpec.executes`); what
it returns is read from the answer (`answer_received`).  Together: `call_round_trip`.

The answer goes to the peer that `peer.GetLocalPeerData()` finds when the handler returns, and
nothing checks that it finds one: the handler may have closed the peer, or somebody else before a
queued call was executed.  A program that has dereferenced the null pointer is `none`.
-/

import ICon7.Rpc.Arguments
import ICon7.Rpc.Message
import ICon7.Rpc.Registry

namespace ICon7
namespace Received

open Framing

/-! ### Sending a call -/

section

variable {T : Type} {V : T → Type} {R S : Type} (B : Bitscpp T V R) (ctx : CallContext)

/-- `RpcName::serialize(ByteWriterBase)`. -/
def RpcName.write (name : RpcName) : Option (List UInt8) :=
  if name.str ≠ "" then do
    guard (name.uint = 0)
    return B.writeString name.str
  else if name.uint ≠ 0 then do
    guard (name.str = "")
    return B.writeUint name.uint
  else some B.writeObject

/-- `InitializeSerializeSend`. -/
def initializeSerializeSend (name : RpcName) : Option (List UInt8) := do
  guard name.valid
  name.write B

/-- The frame of `SerializeSend`. -/
def serializeSend (flags : Flags) (name : RpcName) (args : List (Datum V)) : Option (List UInt8) := do
  let written ← initializeSerializeSend B name
  frame (written ++ B.writeArgs args) (flags ||| FLAGS_CALL_NO_FEEDBACK)

/-- The buffer of the `CommandCallSend` that `Call` posts. -/
def callArgs (name : RpcName) (args : List (Datum V)) : Option (List UInt8) := do
  let written ← initializeSerializeSend B name
  return B.writeUntypedUint32 0 ++ (written ++ B.writeArgs args)

/-- The frame that `CommandCallSend::Execute` makes of its buffer, with the id of the callback in
the place of the first four bytes. -/
def commandCallSend (rcbId : UInt32) (flags : Flags) (buffer : List UInt8) : Option (List UInt8) :=
  frame (B.writeUntypedUint32 rcbId ++ buffer.drop 4) (flags ||| FLAGS_CALL)

/-! ### Serving it -/

/-- `MessageConverterSpec`, which the classes for `std::function` and for methods repeat: the
parameters of the handler, the handler on its arguments and on the reader behind them, and its
value, if it is not `void`.  A handler may change the peers of the loop, its own among them. -/
structure MessageConverterSpec {T : Type} (V : T → Type) (R S : Type) where
  params : List (Param T)
  onReceive : S → PeerManager ℕ → List (Argument V) → R → S × PeerManager ℕ × Option (Datum V)
  executionQueue : Option ℕ

/-- The state of the program with the peers of the loop, and the frames that `PeerData::Send` was
called with, each with its peer. -/
structure Served (S : Type) where
  state : S
  peers : PeerManager ℕ
  sent : List (ℕ × List UInt8) := []

namespace MessageConverterSpec

variable (c : MessageConverterSpec V R S)

/-- `MessageReturnExecutor::Execute`.  The null pointer that `GetLocalPeerData` may return is
dereferenced; a value that no frame can hold is only logged. -/
def execute (w : Served S) (args : List (Argument V)) (reader : R) (flags : Flags)
    (returnId : UInt32) : Option (Served S) :=
  let (state, peers, ret) := c.onReceive w.state w.peers args reader
  if returnId ≠ 0 ∧ flags &&& 6 = FLAGS_CALL then
    match frame (B.writeUntypedUint32 returnId ++ (ret.map B.writeDatum).getD [])
      (((flags ||| 6) ^^^ 6) ||| FLAGS_CALL_RETURN_FEEDBACK) with
    | some answer => do
      let peer ← peers.getLocalPeerData ctx.peer
      let p ← peer
      return { state, peers, sent := w.sent ++ [(p, answer)] }
    | none => some { w with state, peers }
  else some { w with state, peers }

/-- The handler is run from its own queue or, without one, from that of the loop. -/
def context : CallContext := { ctx with queue := c.executionQueue.getD ctx.queue }

/-- The converter, at a peer, registered without `getExecutionQueue`.  Its states are those of a program
that may have crashed. -/
def converter : MessageConverter R (Option (Served S)) where
  name := {}
  executionQueue := c.executionQueue
  getExecutionQueue := none
  readArgs reader := (readTypes B (c.context ctx) 0 (c.params.map Param.cppType) reader).2
  onReceive w reader flags returnId :=
    let (args, reader) := readTypes B (c.context ctx) flags (c.params.map Param.cppType) reader
    w.bind fun w => c.execute B ctx w args reader flags returnId

/-- The converter under its name. -/
def registered (name : Name) : Registered R (Option (Served S)) :=
  ⟨{ c.converter B ctx with name := name.1 }, name.2.1⟩

end MessageConverterSpec

/-- The two halves of `OnReceive`: the state of the handlers, the callbacks that are still
pending, and the command of the one that is not. -/
def onReceiveFrame {W : Type} (enqueue : W → ExecuteRPC R W → W) (E : RPCEnvironment R W) (w : W)
    (returningCallbacks : UInt32 → Option (OnReturnCallback R (Datum V))) (f : List UInt8)
    (flags : Flags) :
    Option (W × (UInt32 → Option (OnReturnCallback R (Datum V))) × Option (Delivery R (Datum V))) := do
  let flags ← getPacketFlags f flags
  let reader := B.ofBytes (f.drop (FrameDecoder.packetOf f).headerSize)
  guard (B.getErrors reader = 0)
  if flags &&& 6 = FLAGS_CALL ∨ flags &&& 6 = FLAGS_CALL_NO_FEEDBACK then
    let w ← E.onReceiveCall B.toByteReader enqueue w reader flags
    return (w, returningCallbacks, none)
  else if flags &&& 6 = FLAGS_CALL_RETURN_FEEDBACK then
    let (returningCallbacks, delivery) :=
      onReceiveReturn B.toByteReader returningCallbacks reader flags
    return (w, returningCallbacks, delivery)
  else return (w, returningCallbacks, none)

/-- The call in a frame is executed with the given effect: at once, or when its queue comes to
it. -/
def Executes {W : Type} (enqueue : W → ExecuteRPC R W → W) (E : RPCEnvironment R W) (f : List UInt8)
    (flags : Flags) (queue : Option ℕ) (effect : W → W) : Prop :=
  match queue with
  | none => ∀ w returningCallbacks,
      onReceiveFrame B enqueue E w returningCallbacks f flags = some (effect w, returningCallbacks, none)
  | some queue => ∃ rpc : ExecuteRPC R W, rpc.queue = queue ∧
      (∀ w returningCallbacks, onReceiveFrame B enqueue E w returningCallbacks f flags =
        some (enqueue w rpc, returningCallbacks, none)) ∧
      ∀ w, rpc.messageConverter.1.deserializeAndExecute B.toByteReader w rpc.reader rpc.flags
        rpc.returnId = some (effect w)

variable {B ctx}

/-! ### Reading the name -/

/-- A valid name is written. -/
theorem initializeSerializeSend_of_valid {name : RpcName} (h : name.valid) :
    initializeSerializeSend B name =
      some (if name.str = "" then B.writeUint name.uint else B.writeString name.str) := by
  by_cases hs : name.str = ""
  · simp [initializeSerializeSend, RpcName.write, guard, h, hs, RpcName.uint_ne_zero h hs]
  · simp [initializeSerializeSend, RpcName.write, guard, h, hs, RpcName.uint_eq_zero h hs]

/-- What was written of a name is read as the name. -/
theorem serialize_write {name : RpcName} (h : name.valid) {written : List UInt8}
    (hw : initializeSerializeSend B name = some written) (rest : List UInt8) :
    RpcName.serialize B.toByteReader {} (B.ofBytes (written ++ rest)) = (name, B.ofBytes rest) := by
  rw [initializeSerializeSend_of_valid h] at hw
  obtain rfl := Option.some.inj hw
  obtain ⟨str, uint⟩ := name
  by_cases hs : str = ""
  · subst hs
    simp [RpcName.serialize, B.isNextInteger_writeUint, B.opUint_writeUint]
  · obtain rfl : uint = 0 := RpcName.uint_eq_zero h hs
    simp [RpcName.serialize, hs, B.isNextInteger_writeString, B.isNextString_writeString,
      B.opString_writeString]

/-! ### Serving the call -/

/-- How far the arguments reach does not depend on what the call supplies. -/
theorem readTypes_snd (B : Bitscpp T V R) (ctx : CallContext) (flags flags' : Flags)
    (ts : List (CppType T)) (reader : R) :
    (readTypes B ctx flags ts reader).2 = (readTypes B ctx flags' ts reader).2 := by
  induction ts generalizing reader with
  | nil => rfl
  | cons t ts ih =>
    cases t with
    | uint32 | hostPointer | peerHandle | byteReaderPointer | commandExecutionQueuePointer | other t =>
      exact ih _

namespace MessageConverterSpec

variable {c : MessageConverterSpec V R S} {name : Name} {args : List (Datum V)} {flags : Flags}

/-- `_InternalCall`, on any bytes: the handler is run unless reading its arguments failed. -/
theorem deserializeAndExecute_eq (w : Option (Served S)) (reader : R) (returnId : UInt32) :
    (c.registered B ctx name).1.deserializeAndExecute B.toByteReader w reader flags returnId =
      let (args, reader) := readTypes B (c.context ctx) flags (c.params.map Param.cppType) reader
      some (if B.getErrors reader ≠ 0 then w
        else w.bind fun w => c.execute B ctx w args reader flags returnId) := by
  have hsnd := readTypes_snd B (c.context ctx) 0 flags (c.params.map Param.cppType) reader
  simp only [MessageConverter.deserializeAndExecute, registered, converter, guard, name.2.1, if_true,
    Option.bind_eq_bind, Option.bind_some, Option.pure_def, hsnd]
  split_ifs
  · rfl
  · rfl

/-- The handler gets the arguments that were written. -/
theorem deserializeAndExecute_writeArgs (hps : .data .uint32 ∉ c.params) (hfits : Fits c.params args)
    (w : Option (Served S)) (returnId : UInt32) :
    (c.registered B ctx name).1.deserializeAndExecute B.toByteReader w (B.ofBytes (B.writeArgs args))
        flags returnId =
      some (w.bind fun w => c.execute B ctx w (intended (c.context ctx) flags c.params args)
        (B.ofBytes []) flags returnId) := by
  have hread := readTypes_writeArgs B (c.context ctx) flags hps hfits []
  rw [List.append_nil] at hread
  rw [deserializeAndExecute_eq, hread]
  simp [B.getErrors_ofBytes]

/-- The converter's own queue, if it has one. -/
theorem executeGetQueue_registered (reader : R) :
    (c.registered B ctx name).1.executeGetQueue reader flags = some (c.executionQueue, reader) := by
  simp only [MessageConverter.executeGetQueue, registered, converter, guard, name.2.1, if_true]
  cases c.executionQueue with
  | none => rfl
  | some queue => rfl

/-- A call that is received: the command that is posted, or the handler at once. -/
theorem onReceiveCall_registered {E : RPCEnvironment R (Option (Served S))}
    (enqueue : Option (Served S) → ExecuteRPC R (Option (Served S)) → Option (Served S))
    (hfind : E.find name.1 = some (some (c.registered B ctx name))) {written rest : List UInt8}
    (hw : initializeSerializeSend B name.1 = some written) {reader : R} {returnId : UInt32}
    (hid : RPCEnvironment.readReturnId B.toByteReader reader flags =
      (returnId, B.ofBytes (written ++ rest))) (w : Option (Served S)) :
    E.onReceiveCall B.toByteReader enqueue w reader flags =
      match c.executionQueue with
      | some queue => some (enqueue w
          ⟨B.ofBytes rest, c.registered B ctx name, flags, returnId, queue⟩)
      | none => (c.registered B ctx name).1.deserializeAndExecute B.toByteReader w (B.ofBytes rest) flags
          returnId := by
  cases hq : c.executionQueue with
  | none =>
    simp only [RPCEnvironment.onReceiveCall, hid, serialize_write name.2.1 hw, hfind,
      executeGetQueue_registered, hq, Option.bind_eq_bind, Option.bind_some]
  | some queue =>
    simp only [RPCEnvironment.onReceiveCall, hid, serialize_write name.2.1 hw, hfind,
      executeGetQueue_registered, hq, Option.bind_eq_bind, Option.bind_some, Option.pure_def]

/-- **A frame with a call is executed** by the converter that is found under its name, with the
arguments in their places. -/
theorem executes {E : RPCEnvironment R (Option (Served S))}
    (enqueue : Option (Served S) → ExecuteRPC R (Option (Served S)) → Option (Served S))
    (hfind : E.find name.1 = some (some (c.registered B ctx name))) (hps : .data .uint32 ∉ c.params)
    (hfits : Fits c.params args) {written : List UInt8}
    (hw : initializeSerializeSend B name.1 = some written) {f body : List UInt8} {other : Flags}
    (hf : Carries f body other) {recv : Flags} (hflags : recv ||| (other &&& 6) = flags)
    (hkind : flags &&& 6 = FLAGS_CALL ∨ flags &&& 6 = FLAGS_CALL_NO_FEEDBACK) {returnId : UInt32}
    (hid : RPCEnvironment.readReturnId B.toByteReader (B.ofBytes body) flags =
      (returnId, B.ofBytes (written ++ B.writeArgs args))) :
    Executes B enqueue E f recv c.executionQueue fun w => w.bind fun w =>
      c.execute B ctx w (intended (c.context ctx) flags c.params args) (B.ofBytes []) flags returnId := by
  have hreceive : ∀ w returningCallbacks, onReceiveFrame B enqueue E w returningCallbacks f recv =
      (E.onReceiveCall B.toByteReader enqueue w (B.ofBytes body) flags).map fun w =>
        (w, returningCallbacks, none) := by
    intro w returningCallbacks
    simp only [onReceiveFrame, hf.kind, hflags, hf.body, guard, B.getErrors_ofBytes, hkind, if_true,
      Option.bind_eq_bind, Option.bind_some, Option.pure_def, Option.map_eq_bind]
    rfl
  have hcall := onReceiveCall_registered enqueue hfind hw hid
  unfold Executes
  cases hq : c.executionQueue with
  | none =>
    intro w returningCallbacks
    simp only [hreceive, hcall, hq, deserializeAndExecute_writeArgs hps hfits, Option.map_some]
  | some queue =>
    refine ⟨⟨B.ofBytes (B.writeArgs args), c.registered B ctx name, flags, returnId, queue⟩, rfl,
      fun w returningCallbacks => ?_, fun w => deserializeAndExecute_writeArgs hps hfits w returnId⟩
    simp only [hreceive, hcall, hq, Option.map_some]

end MessageConverterSpec

/-! ### Whole calls -/

/-- The converter that is stored under a name is the one that is found. -/
theorem find_stored {W : Type} {ops : List (RegistryOp (Registered R W))}
    {log : RegistryLog (Registered R W)} (hrun : RegistryLog.run {} ops = some log) {name : Name}
    {c : Registered R W} (hstored : stored ops name = some c) :
    log.registry.environment.find name.1 = some (some c) := by
  obtain ⟨log', hrun', hlook⟩ := RegistryLog.run_lookup ops
  obtain rfl := Option.some.inj (hrun'.symm.trans hrun)
  rw [Registry.environment_find, Registry.find_eq, hlook, hstored]

/-- A name takes at least one byte: integers and strings are told apart by what is written. -/
theorem written_ne_nil {name : RpcName} (h : name.valid) {written : List UInt8}
    (hw : initializeSerializeSend B name = some written) : written ≠ [] := by
  rw [initializeSerializeSend_of_valid h] at hw
  obtain rfl := Option.some.inj hw
  intro hnil
  split_ifs at hnil
  · have hint := B.isNextInteger_writeUint name.uint (B.writeString "" ++ [])
    rw [hnil, List.nil_append, B.isNextInteger_writeString] at hint
    cases hint
  · have hstr := B.isNextInteger_writeString name.str (B.writeUint 0 ++ [])
    rw [hnil, List.nil_append, B.isNextInteger_writeUint] at hstr
    cases hstr

theorem Bitscpp.writeUntypedUint32_append_ne_nil (B : Bitscpp T V R) (n : UInt32) (rest : List UInt8) :
    B.writeUntypedUint32 n ++ rest ≠ [] := by
  intro hnil
  have hlen := congrArg List.length hnil
  simp [B.length_writeUntypedUint32] at hlen

/-- The kind that a frame gets is the kind that is read. -/
theorem received_kind {recv kind : Flags} (hrecv : recv &&& 6 = 0) (hkind : kind &&& 6 = kind) :
    (recv ||| kind) &&& 6 = kind := by
  rw [or_and_six, hrecv, UInt32.zero_or, hkind]

/-- **The value of a handler is what the callback gets,** if they agree on its type. -/
theorem answer_received {ret : Option (Datum V)} {id : UInt32} {flags : Flags} {g : List UInt8}
    (hg : frame (B.writeUntypedUint32 id ++ (ret.map B.writeDatum).getD [])
      (((flags ||| 6) ^^^ 6) ||| FLAGS_CALL_RETURN_FEEDBACK) = some g)
    {recv : Flags} (hrecv : recv &&& 6 = 0) {W : Type} (enqueue : W → ExecuteRPC R W → W)
    (E : RPCEnvironment R W) (w : W)
    {returningCallbacks : UInt32 → Option (OnReturnCallback R (Datum V))}
    {cb : OnReturnCallback R (Datum V)} (hcb : returningCallbacks id = some cb)
    (htype : cb.op = (ret.map Datum.type).map B.opDatum) :
    ∃ delivery, onReceiveFrame B enqueue E w returningCallbacks g recv =
        some (w, Function.update returningCallbacks id none, some delivery) ∧
      delivery.outcome = .onReturn (recv ||| FLAGS_CALL_RETURN_FEEDBACK) ret := by
  have hcarries := frame_carries (B.writeUntypedUint32_append_ne_nil id _) hg
  have hkind : (recv ||| FLAGS_CALL_RETURN_FEEDBACK) &&& 6 = FLAGS_CALL_RETURN_FEEDBACK :=
    received_kind hrecv (by decide)
  refine ⟨cb.execute (recv ||| FLAGS_CALL_RETURN_FEEDBACK)
    (B.ofBytes ((ret.map B.writeDatum).getD [])), ?_, ?_⟩
  · simp only [onReceiveFrame, hcarries.kind, hcarries.body, kind_reply, hkind, guard,
      B.getErrors_ofBytes, onReceiveReturn, B.opUntypedUint32_write, hcb, Option.bind_eq_bind,
      Option.bind_some, Option.pure_def, if_true]
    rfl
  · rw [outcome_execute, htype]
    cases ret with
    | none => rfl
    | some v =>
      have hread := B.opDatum_writeDatum v []
      rw [List.append_nil] at hread
      simp [hread]

section

variable {c : MessageConverterSpec V R S} {name : Name} {args : List (Datum V)} {flags recv : Flags}
  {ops : List (RegistryOp (Registered R (Option (Served S))))}
  {log : RegistryLog (Registered R (Option (Served S)))} {f : List UInt8}
  (enqueue : Option (Served S) → ExecuteRPC R (Option (Served S)) → Option (Served S))

/-- **What `Send` puts into a frame is executed** by the converter that is stored under the name,
with every argument in its place and no answer. -/
theorem send_executes (hrun : RegistryLog.run {} ops = some log)
    (hstored : stored ops name = some (c.registered B ctx name)) (hps : .data .uint32 ∉ c.params)
    (hfits : Fits c.params args) (hflags : flags &&& 6 = 0)
    (hf : serializeSend B flags name.1 args = some f) (hrecv : recv &&& 6 = 0) :
    Executes B enqueue log.registry.environment f recv c.executionQueue fun w => w.map fun w =>
      let (state, peers, _) :=
        c.onReceive w.state w.peers (intended (c.context ctx) recv c.params args) (B.ofBytes [])
      { w with state, peers } := by
  obtain ⟨written, hw, hframe⟩ := Option.bind_eq_some_iff.mp hf
  have hne : written ++ B.writeArgs args ≠ [] := by
    simp [written_ne_nil name.2.1 hw]
  have hkind : recv ||| ((flags ||| FLAGS_CALL_NO_FEEDBACK) &&& 6) = recv := by
    rw [or_and_six, hflags]
    exact UInt32.or_zero
  have hnot : recv &&& 6 ≠ FLAGS_CALL := by
    rw [hrecv]
    decide
  have hid : RPCEnvironment.readReturnId B.toByteReader (B.ofBytes (written ++ B.writeArgs args)) recv =
      (0, B.ofBytes (written ++ B.writeArgs args)) := by
    rw [RPCEnvironment.readReturnId, if_neg hnot]
  have hexec := MessageConverterSpec.executes enqueue (find_stored hrun hstored) hps hfits hw
    (frame_carries hne hframe) hkind (.inr hrecv) hid
  simpa [MessageConverterSpec.execute, Option.map_eq_bind, Function.comp_def] using hexec

/-- The frame that `Call` and its command make. -/
theorem call_carries (hflags : flags &&& 6 = 0) {id : UInt32}
    (hf : (callArgs B name.1 args).bind (commandCallSend B id flags) = some f) :
    ∃ written, initializeSerializeSend B name.1 = some written ∧
      Carries f (B.writeUntypedUint32 id ++ (written ++ B.writeArgs args)) (flags ||| FLAGS_CALL) ∧
      (flags ||| FLAGS_CALL) &&& 6 = FLAGS_CALL := by
  obtain ⟨buffer, hbuffer, hframe⟩ := Option.bind_eq_some_iff.mp hf
  obtain ⟨written, hw, hpure⟩ := Option.bind_eq_some_iff.mp hbuffer
  obtain rfl : B.writeUntypedUint32 0 ++ (written ++ B.writeArgs args) = buffer := Option.some.inj hpure
  rw [commandCallSend, ← B.length_writeUntypedUint32 0, List.drop_left] at hframe
  refine ⟨written, hw, frame_carries ?_ hframe, ?_⟩
  · simp [written_ne_nil name.2.1 hw]
  · rw [or_and_six, hflags]
    decide

/-- **A call, from its arguments to its callback.**  Whatever was registered before: the frame that
`Call` makes with flags that hold no kind is executed by the converter that is stored under its name,
with every argument in its place.  Let a frame be able to hold the handler's value.  If the peer of the
call is there when the handler returns, it is given the value in one frame to send, and the frame
hands exactly this value to the callback under the id, which is pending no more, if the callback is one
for values of this type.  If the peer is gone by then, the answer dereferences a null pointer. -/
theorem call_round_trip (hrun : RegistryLog.run {} ops = some log)
    (hstored : stored ops name = some (c.registered B ctx name)) (hps : .data .uint32 ∉ c.params)
    (hfits : Fits c.params args) (hflags : flags &&& 6 = 0) (hrecv : recv &&& 6 = 0) {id : UInt32}
    (hid : id ≠ 0) (hf : (callArgs B name.1 args).bind (commandCallSend B id flags) = some f) :
    ∃ effect : Option (Served S) → Option (Served S),
      Executes B enqueue log.registry.environment f recv c.executionQueue effect ∧
      ∀ (w : Served S) (state : S) (peers : PeerManager ℕ) (ret : Option (Datum V)),
        c.onReceive w.state w.peers (intended (c.context ctx) (recv ||| FLAGS_CALL) c.params args)
          (B.ofBytes []) = (state, peers, ret) →
        4 + ((ret.map B.writeDatum).getD []).length ≤ 2 ^ 28 →
        (∀ p, peers.getLocalPeerData ctx.peer = some (some p) →
          ∃ g, effect (some w) = some ⟨state, peers, w.sent ++ [(p, g)]⟩ ∧
            ∀ {W : Type} (enqueue' : W → ExecuteRPC R W → W) (E : RPCEnvironment R W) (w' : W)
              (returningCallbacks : UInt32 → Option (OnReturnCallback R (Datum V)))
              (cb : OnReturnCallback R (Datum V)) (recv' : Flags), returningCallbacks id = some cb →
              cb.op = (ret.map Datum.type).map B.opDatum → recv' &&& 6 = 0 →
              ∃ delivery, onReceiveFrame B enqueue' E w' returningCallbacks g recv' =
                  some (w', Function.update returningCallbacks id none, some delivery) ∧
                delivery.outcome = .onReturn (recv' ||| FLAGS_CALL_RETURN_FEEDBACK) ret) ∧
        (peers.getLocalPeerData ctx.peer = some none → effect (some w) = none) := by
  obtain ⟨written, hw, hcarries, hkind⟩ := call_carries hflags hf
  have hkind' : (recv ||| FLAGS_CALL) &&& 6 = FLAGS_CALL := received_kind hrecv (by decide)
  have hread : RPCEnvironment.readReturnId B.toByteReader
      (B.ofBytes (B.writeUntypedUint32 id ++ (written ++ B.writeArgs args))) (recv ||| FLAGS_CALL) =
      (id, B.ofBytes (written ++ B.writeArgs args)) := by
    rw [RPCEnvironment.readReturnId, if_pos hkind', B.opUntypedUint32_write]
  refine ⟨_, MessageConverterSpec.executes enqueue (find_stored hrun hstored) hps hfits hw hcarries
    (by rw [hkind]) (.inl hkind') hread, fun w state peers ret hret hlen => ?_⟩
  -- the handler's value makes a frame
  obtain ⟨g, hg⟩ := frame_of_le
    (B.writeUntypedUint32_append_ne_nil id ((ret.map B.writeDatum).getD []))
    (by rwa [List.length_append, B.length_writeUntypedUint32])
    ((((recv ||| FLAGS_CALL) ||| 6) ^^^ 6) ||| FLAGS_CALL_RETURN_FEEDBACK)
  refine ⟨fun p hp => ⟨g, ?_, fun enqueue' E w' returningCallbacks cb recv' hcb htype hrecv' =>
    answer_received hg hrecv' enqueue' E w' hcb htype⟩, fun hgone => ?_⟩
  · simp [MessageConverterSpec.execute, hret, hid, hkind', hg, hp]
  · simp [MessageConverterSpec.execute, hret, hid, hkind', hg, hgone]

end

end

/-! ### A writer of tagged bytes -/

/-- The characters up to a `0`, each behind a `1`. -/
def decodeChars : List UInt8 → List Char × List UInt8
  | 1 :: a :: b :: c :: d :: rest =>
    let (cs, rest) := decodeChars rest
    (Char.ofNat (Codec.bytes.decodeUint [a, b, c, d]).1.toNat :: cs, rest)
  | bytes => ([], bytes.drop 1)

def encodeChars (cs : List Char) : List UInt8 :=
  cs.flatMap (fun c => 1 :: Codec.bytes.encodeUint c.val) ++ [0]

theorem decodeChars_encodeChars (cs : List Char) (rest : List UInt8) :
    decodeChars (encodeChars cs ++ rest) = (cs, rest) := by
  induction cs with
  | nil => rfl
  | cons c cs ih =>
    have hc := Codec.bytes.decodeUint_encodeUint c.val []
    have hstep : decodeChars (encodeChars (c :: cs) ++ rest) =
        (Char.ofNat (Codec.bytes.decodeUint (Codec.bytes.encodeUint c.val ++ [])).1.toNat ::
          (decodeChars (encodeChars cs ++ rest)).1, (decodeChars (encodeChars cs ++ rest)).2) := rfl
    rw [hstep, hc, ih]
    exact congrArg (fun c => (c :: cs, rest)) (Char.ofNat_toNat c)

/-- Bytes with a tag in front of each value: `1` for a number, `2` for a string and `3` for a
value of one byte. -/
def Bitscpp.tagged : Bitscpp Unit (fun _ => UInt8) (List UInt8 × UInt32) where
  getErrors r := r.2
  isNextInteger r := r.1.head? == some 1
  isNextString r := r.1.head? == some 2
  opUint r := ((Codec.bytes.decodeUint (r.1.drop 1)).1, (Codec.bytes.decodeUint (r.1.drop 1)).2, r.2)
  opString r := (String.ofList (decodeChars (r.1.drop 1)).1, (decodeChars (r.1.drop 1)).2, r.2)
  opUntypedUint32 r := ((Codec.bytes.decodeUint r.1).1, (Codec.bytes.decodeUint r.1).2, r.2)
  ofBytes bytes := (bytes, 0)
  op _ r :=
    match r.1 with
    | 3 :: v :: rest => (v, rest, r.2)
    | _ => (0, r.1, 1)
  writeUint n := 1 :: Codec.bytes.encodeUint n
  writeString s := 2 :: encodeChars s.toList
  writeUntypedUint32 := Codec.bytes.encodeUint
  writeObject := [4, 5]
  write _ v := [3, v]
  getErrors_ofBytes _ := rfl
  isNextInteger_writeUint _ _ := rfl
  isNextInteger_writeString _ _ := rfl
  isNextString_writeString _ _ := rfl
  opUint_writeUint n rest := by
    simp [Codec.bytes.decodeUint_encodeUint]
  opString_writeString s rest := by
    simp [decodeChars_encodeChars]
  opUntypedUint32_write n rest := by
    simp [Codec.bytes.decodeUint_encodeUint]
  length_writeUntypedUint32 _ := rfl
  op_write _ _ _ := rfl

/-- A handler that counts its calls and adds two bytes, of a peer that it does not look at. -/
def adder : MessageConverterSpec (fun _ : Unit => UInt8) (List UInt8 × UInt32) ℕ where
  params := [.flags, .data (.other ()), .peer, .data (.other ())]
  onReceive calls peers args _ :=
    match args with
    | [_, .other _ a, _, .other _ b] => (calls + 1, peers, some (.other () (a + b)))
    | _ => (calls, peers, none)
  executionQueue := none

/-- The handler under the number `7`, at the first peer of the loop. -/
def adderOps : List (RegistryOp (Registered (List UInt8 × UInt32) (Option (Served ℕ)))) :=
  [.register seven (adder.registered .tagged ⟨0, ⟨0, 1, some 0⟩, none⟩ seven)]

def threeAndFour : List (Datum fun _ : Unit => UInt8) := [.other () 3, .other () 4]

/-- A loop with one peer. -/
def onePeer : PeerManager ℕ := { peers := [some 6], versions := [1], perHostOffset := [-1], loop := 0 }

/-- A call of `7` with `3` and `4` is served and answered. -/
theorem call_round_trip_adder : ∃ log f, RegistryLog.run {} adderOps = some log ∧
    (callArgs .tagged seven.1 threeAndFour).bind (commandCallSend .tagged 5 1) = some f ∧
    PeerManager.alloc { loop := 0 } 6 {} = some (onePeer, ⟨0, 1, some 0⟩) ∧
    ∃ effect g, Executes .tagged (fun w _ => w) log.registry.environment f 1 none effect ∧
      effect (some ⟨0, onePeer, []⟩) = some ⟨1, onePeer, [(6, g)]⟩ := by
  refine ⟨_, _, rfl, rfl, rfl, ?_⟩
  have hrun : RegistryLog.run {} adderOps = some _ := rfl
  have hfits : Fits adder.params threeAndFour := rfl
  have hf : (callArgs .tagged seven.1 threeAndFour).bind
    (commandCallSend .tagged 5 1) = some _ := rfl
  have hrecv : (1 : Flags) &&& 6 = 0 := by decide
  obtain ⟨effect, hexec, hanswer⟩ :=
    call_round_trip (fun w _ => w) hrun rfl (by decide) hfits hrecv hrecv (by decide) hf
  obtain ⟨g, hg, -⟩ := (hanswer ⟨0, onePeer, []⟩ 1 onePeer (some (.other () 7)) rfl (by decide)).1 6 rfl
  exact ⟨effect, g, hexec, hg⟩

end Received
end ICon7
