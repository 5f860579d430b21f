/-
# Two peers that call each other

Both ends of a connection, with the calls that each makes and answers:
`CommandCallSend::Execute`, `RPCEnvironment::OnReceive` and what it calls,
`PeerData::CheckForTimeoutFunctionCalls` and `OnReturnCallback`.  The bytes that one
side sends arrive at the other in order and in pieces of any size.

Handlers give any value, at once or later and in any order out of a queue; callbacks are
executed at once or out of a queue; and the timeout check may look at any pending entry
at any time.  An empty `CommandHandle` that is dereferenced is `none`, and so is a
failed assertion.

Beside its state an endpoint keeps what has happened: the id of every call, the frames
it has sent, the handlers it has run and the callbacks it has executed.  A frame is
known by its place among the frames that were sent, a call by its place among the
calls.
-/

import ICon7.Map.Operations
import ICon7.Rpc.Message

namespace ICon7

open Framing

/-- `OnReturnCallback`, without what it does: the call whose command `callback` holds, empty
once it is moved, whether there is an `executionQueue`, and the deadline. -/
structure OnReturnCallback where
  callback : Option ℕ
  executionQueue : Bool
  timeoutTimePoint : ℕ
deriving DecidableEq, Repr

namespace OnReturnCallback

/-- `target = std::move(value)`: a `CommandHandle` that is not empty refuses. -/
def assign (target value : OnReturnCallback) : OnReturnCallback :=
  { value with callback := if target.callback = none then value.callback else target.callback }

/-- What is left of a callback that is moved from. -/
def movedFrom (cb : OnReturnCallback) : OnReturnCallback :=
  { cb with callback := none, executionQueue := false }

/-- What is left of a callback that has been executed in its place. -/
def emptied (cb : OnReturnCallback) : OnReturnCallback := { cb with callback := none }

/-- `IsExpired`. -/
def isExpired (cb : OnReturnCallback) (t : ℕ) : Bool := cb.timeoutTimePoint < t

/-- The traits of `returningCallbacks`. -/
def traits (hash : UInt32 → UInt64 → UInt32) : MapTraits UInt32 OnReturnCallback :=
  ⟨hash, assign⟩

/-- An assignment to an empty callback replaces it. -/
theorem traits_assign (hash : UInt32 → UInt64 → UInt32) (cb v : OnReturnCallback)
    (hcb : cb.callback = none) : (traits hash).assign cb v = v := by
  simp [traits, assign, hcb]

end OnReturnCallback

/-- An `ExecuteReturnCallback`: the call, and `none` for `timedOut`, or the id of the return
frame and what is left to read of it. -/
structure ReturnCommand where
  call : ℕ
  outcome : Option (UInt32 × List UInt8)

/-- A callback that has been executed, on a timeout or with a value. -/
structure Executed (V : Type) where
  call : ℕ
  outcome : Option (UInt32 × V)

/-- What a frame is: the frame of a call, or the answer to the frame at a place. -/
inductive FrameKind where
  | call (c : ℕ)
  | reply (n : ℕ)
deriving DecidableEq, Repr

structure SentFrame where
  kind : FrameKind
  bytes : List UInt8
deriving DecidableEq, Repr

/-- One end of a connection.  `wire` holds the bytes that are on their way to the other end;
the calls in `rpcQueue` come with the place of their frame. -/
structure Endpoint (V : Type) where
  returnIdGen : UInt32 := 0
  returningCallbacks : FlatHashMap UInt32 OnReturnCallback
  frameDecoder : FrameDecoder := .fresh
  rpcQueue : List (ℕ × ExecuteRPC) := []
  callbackQueue : List ReturnCommand := []
  wire : List UInt8 := []
  framesReceived : ℕ := 0
  ids : List UInt32 := []
  sent : List SentFrame := []
  runs : List (ℕ × V) := []
  executed : List (Executed V) := []

namespace Endpoint

variable {V : Type} (C : Codec V) (E : RPCEnvironment) (T : MapTraits UInt32 OnReturnCallback)

def init (baseHash : UInt64) : Endpoint V :=
  { returningCallbacks := ⟨List.replicate 16 0, [], baseHash⟩ }

/-- The loop of `_InternalGetNextValidReturnCallbackId`.  Each turn but the last meets another
pending id, or `0`. -/
def nextIdLoop (m : FlatHashMap UInt32 OnReturnCallback) : ℕ → UInt32 → Option UInt32
  | 0, _ => none
  | fuel + 1, returnIdGen => do
    let id := returnIdGen + 1
    let has ← m.has T id
    if has || id == 0 then nextIdLoop m fuel id else return id

/-- `_InternalGetNextValidReturnCallbackId`; `returnIdGen` becomes the id. -/
def getNextValidReturnCallbackId (e : Endpoint V) : Option UInt32 :=
  nextIdLoop T e.returningCallbacks (e.returningCallbacks.buckets.length + 2) e.returnIdGen

/-- `PeerData::Send`, on a connection that stays open. -/
def send (e : Endpoint V) (kind : FrameKind) (bytes : List UInt8) : Endpoint V :=
  { e with wire := e.wire ++ bytes, sent := e.sent ++ [⟨kind, bytes⟩] }

/-- `CommandCallSend::Execute`, with the name and the arguments as bytes. -/
def callSend (e : Endpoint V) (executionQueue : Bool) (timeoutTimePoint : ℕ) (payload : List UInt8)
    (flags : Flags) : Option (Endpoint V) := do
  let id ← e.getNextValidReturnCallbackId T
  let buffer := patchId C id (callBuffer C payload)
  let returningCallbacks ←
    e.returningCallbacks.insertOrSet T id ⟨some e.ids.length, executionQueue, timeoutTimePoint⟩
  let bytes ← frame buffer (flags ||| FLAGS_CALL)
  return send { e with returnIdGen := id, returningCallbacks, ids := e.ids ++ [id] }
    (.call e.ids.length) bytes

/-- `ExecuteReturnCallback::Execute`. -/
def executeReturn (x : ReturnCommand) : Executed V :=
  ⟨x.call, x.outcome.map fun (id, reader) => (id, C.decode reader)⟩

/-- `OnReturnCallback::Execute` and `ExecuteTimeout`. -/
def finishCallback (e : Endpoint V) (cb : OnReturnCallback) (outcome : Option (UInt32 × List UInt8)) :
    Option (Endpoint V) := do
  let call ← cb.callback
  if cb.executionQueue then return { e with callbackQueue := e.callbackQueue ++ [⟨call, outcome⟩] }
  else return { e with executed := e.executed ++ [executeReturn C ⟨call, outcome⟩] }

/-- `OnReceiveReturn`. -/
def onReceiveReturn (e : Endpoint V) (body : List UInt8) : Option (Endpoint V) := do
  let (returnId, reader) := C.decodeUint body
  match ← e.returningCallbacks.find T returnId with
  | none => return e
  | some j =>
    let pair ← e.returningCallbacks.buckets[j]?
    let returningCallbacks ← (e.returningCallbacks.store j pair.v.movedFrom).remove T returnId
    finishCallback C { e with returningCallbacks } pair.v (some (returnId, reader))

/-- `PeerData::CheckForTimeoutFunctionCalls`, with the number that `GetRandom` draws. -/
def checkForTimeoutFunctionCalls (e : Endpoint V) (random now : ℕ) : Option (Endpoint V) :=
  if e.returningCallbacks.buckets.length = 0 then some e
  else do
    let j := random % e.returningCallbacks.buckets.length
    let pair ← e.returningCallbacks.buckets[j]?
    if pair.v.isExpired now then
      let e ← finishCallback C e pair.v none
      let returningCallbacks ← (e.returningCallbacks.store j pair.v.emptied).remove T pair.key
      return { e with returningCallbacks }
    else return e

/-- `DeserializeAndExecute`, with the value of the handler. -/
def deserializeAndExecute (e : Endpoint V) (origin : ℕ) (rpc : ExecuteRPC) (v : V) :
    Option (Endpoint V) :=
  if rpc.runs then do
    let e := { e with runs := e.runs ++ [(origin, v)] }
    if rpc.replies then return e.send (.reply origin) (← rpc.replyFrame C v) else return e
  else some e

/-- `OnReceiveCall`. -/
def onReceiveCall (e : Endpoint V) (origin : ℕ) (body : List UInt8) (flags : Flags) (v : V) :
    Option (Endpoint V) :=
  match E.readCall C body flags with
  | none => some e
  | some rpc =>
    if rpc.messageConverter.executeGetQueue rpc.reader flags then
      some { e with rpcQueue := e.rpcQueue ++ [(origin, rpc)] }
    else e.deserializeAndExecute C origin rpc v

/-- `OnReceive`. -/
def onReceive (e : Endpoint V) (origin : ℕ) (body : List UInt8) (flags : Flags) (v : V) :
    Option (Endpoint V) :=
  if flags &&& 6 = FLAGS_CALL ∨ flags &&& 6 = FLAGS_CALL_NO_FEEDBACK then
    e.onReceiveCall C E origin body flags v
  else if flags &&& 6 = FLAGS_CALL_RETURN_FEEDBACK then e.onReceiveReturn C T body
  else some e

/-- `_InternalOnPacket`, with the value of the handler if one is run at once. -/
def onPacket (e : Endpoint V) (packet : Packet) (v : V) : Option (Endpoint V) := do
  let origin := e.framesReceived
  let e := { e with framesReceived := origin + 1 }
  if packet.buffer.length = packet.headerSize then return e
  let kind ← getPacketFlags packet.buffer 0
  if kind &&& FLAGS_PROTOCOL_CONTROLL_SEQUENCE = FLAGS_PROTOCOL_CONTROLL_SEQUENCE then return e
  let flags ← getPacketFlags packet.buffer FLAG_RELIABLE
  e.onReceive C E T origin (packet.buffer.drop packet.headerSize) flags v

/-- `_InternalOnData`, with the values of the handlers that are run at once. -/
def onData (e : Endpoint V) (chunk : Chunk) (values : ℕ → V) : Option (Endpoint V) := do
  let (frameDecoder, packets) ← e.frameDecoder.pushData chunk
  packets.foldlM (fun e packet => e.onPacket C E T packet (values e.framesReceived))
    { e with frameDecoder }

/-- The execution of the `i`-th call in the queue, with the value of its handler. -/
def executeRPC (e : Endpoint V) (i : ℕ) (v : V) : Option (Endpoint V) :=
  match e.rpcQueue[i]? with
  | none => some e
  | some (origin, rpc) =>
    deserializeAndExecute C { e with rpcQueue := e.rpcQueue.eraseIdx i } origin rpc v

/-- The execution of the `i`-th callback in the queue. -/
def executeCallback (e : Endpoint V) (i : ℕ) : Endpoint V :=
  match e.callbackQueue[i]? with
  | none => e
  | some x => { e with
      callbackQueue := e.callbackQueue.eraseIdx i
      executed := e.executed ++ [executeReturn C x] }

end Endpoint

/-- The two ends of a connection. -/
abbrev Connection (V : Type) := Bool → Endpoint V

namespace Connection

variable {V : Type} (C : Codec V) (E : Bool → RPCEnvironment) (T : MapTraits UInt32 OnReturnCallback)

def init (baseHash : Bool → UInt64) : Connection V := fun side => .init (baseHash side)

/-- What can happen, at either side and in any order: a call is sent, bytes arrive, a queued
call or callback is executed, and the timeout check looks at an entry. -/
inductive Op (V : Type) where
  | call (side executionQueue : Bool) (timeoutTimePoint : ℕ) (payload : List UInt8) (flags : Flags)
  | deliver (side : Bool) (n : UInt32) (values : ℕ → V)
  | executeRPC (side : Bool) (i : ℕ) (v : V)
  | executeCallback (side : Bool) (i : ℕ)
  | checkTimeout (side : Bool) (random now : ℕ)

/-- The first bytes of the wire. -/
def chunkOf (wire : List UInt8) (n : UInt32) : Chunk :=
  ⟨wire.take n.toNat, lt_of_le_of_lt (List.length_take_le _ _) n.toNat_lt⟩

def step (s : Connection V) : Op V → Option (Connection V)
  | .call side executionQueue timeoutTimePoint payload flags => do
    let e ← (s side).callSend C T executionQueue timeoutTimePoint payload flags
    return Function.update s side e
  | .deliver side n values => do
    let e ← (s side).onData C (E side) T (chunkOf (s !side).wire n) values
    return Function.update (Function.update s (!side)
      { s (!side) with wire := (s !side).wire.drop n.toNat }) side e
  | .executeRPC side i v => do
    let e ← (s side).executeRPC C i v
    return Function.update s side e
  | .executeCallback side i => some (Function.update s side ((s side).executeCallback C i))
  | .checkTimeout side random now => do
    let e ← (s side).checkForTimeoutFunctionCalls C T random now
    return Function.update s side e

def run (s : Connection V) (ops : List (Op V)) : Option (Connection V) := ops.foldlM (step C E T) s

/-- The action is a call of the side. -/
def Op.isCall (side : Bool) : Op V → Bool
  | .call side' _ _ _ _ => side' == side
  | _ => false

end Connection
end ICon7
