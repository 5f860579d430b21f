/-
# The sending side of a tcp peer

`uS::tcp::Peer` and the part of `PeerData` that sends: `src/PeerUStcp.cpp` and
`src/Peer.cpp`.  A frame waits in `globalQueue`, is moved to `localQueue`, and
leaves by `us_socket_write`, directly or through `writeBuffer`.

The socket is whatever the system makes of it: it answers the `n`-th write with
a count of at most the bytes offered, negative for an error and `0` when it is
full, and takes that many bytes off the front (`UsSocket`).  A null socket that
is written to is `none`, and so is a recursion that does not end; `_InternalSend`
is given as many calls as the frame has bytes left, and one.

`writeBuffer` is only appended to within its capacity and cleared, which keeps
its capacity.  The statistics of the host and the loop count the same events for
all their peers; what is kept here is the part of this peer.
-/

import ICon7.Peer.Manager

namespace ICon7

/-- A socket: what it has taken so far and how it answers the writes to come. -/
structure UsSocket where
  respond : ℕ → List UInt8 → Bool → ℤ
  respond_le : ∀ n data msgMore, respond n data msgMore ≤ data.length
  calls : ℕ := 0
  accepted : List UInt8 := []

/-- `us_socket_write`. -/
def UsSocket.write (s : UsSocket) (data : List UInt8) (msgMore : Bool) : UsSocket × ℤ :=
  let b := s.respond s.calls data msgMore
  ({ s with calls := s.calls + 1, accepted := s.accepted ++ data.take b.toNat }, b)

/-- `SendFrameStruct`. -/
structure SendFrameStruct where
  data : List UInt8
  bytesSent : ℕ := 0
deriving DecidableEq, Repr

/-- The counters of `PeerStats`, `HostStats` and `LoopStats` that sending touches. -/
structure SendStats where
  bytesSent : ℕ := 0
  packetsSent : ℕ := 0
  framesSent : ℕ := 0
  errorsCount : ℕ := 0
deriving DecidableEq, Repr

structure TcpPeer where
  socket : Option UsSocket
  peerHandle : PeerHandle := {}
  isReadyToUse : Bool := false
  isDisconnecting : Bool := false
  isClosed : Bool := false
  globalQueue : List SendFrameStruct := []
  localQueue : List SendFrameStruct := []
  localQueueOffset : ℕ := 0
  writeBuffer : List UInt8 := []
  writeBufferCapacity : ℕ
  writeBufferOffset : ℕ := 0
  stats : SendStats := {}
  hostStats : SendStats := {}
  loopStats : SendStats := {}

namespace TcpPeer

/-- `Peer(host, socket)`, with the capacity that `writeBuffer.reserve` gives. -/
def ofSocket (socket : UsSocket) (capacity : ℕ) : TcpPeer :=
  { socket := some socket, writeBufferCapacity := capacity }

/-- One event, counted for the peer, its host and its loop. -/
def count (p : TcpPeer) (f : SendStats → SendStats) : TcpPeer :=
  { p with stats := f p.stats, hostStats := f p.hostStats, loopStats := f p.loopStats }

/-- `LOG_ERROR("us_socket_write returned: …")` and its counters. -/
def countError (p : TcpPeer) : TcpPeer :=
  p.count fun s => { s with errorsCount := s.errorsCount + 1 }

/-- `_InternalFlushBufferedSends`. -/
def flushBufferedSends (p : TcpPeer) (hasMore : Bool) : Option (TcpPeer × Bool) :=
  if 0 < p.writeBuffer.length - p.writeBufferOffset then do
    let socket ← p.socket
    let (socket, b) := socket.write (p.writeBuffer.drop p.writeBufferOffset) hasMore
    let p := { p with socket := some socket }
    if b < 0 then return (p.countError, false)
    else if 0 < b then
      let p := p.count fun s =>
        { s with bytesSent := s.bytesSent + b.toNat, packetsSent := s.packetsSent + 1 }
      let writeBufferOffset := p.writeBufferOffset + b.toNat
      if p.writeBuffer.length = writeBufferOffset then
        return ({ p with writeBuffer := [], writeBufferOffset := 0 }, true)
      else return ({ p with writeBufferOffset }, false)
    else return (p, false)
  else some (p, false)

/-- The direct write of `_InternalSend`. -/
def sendDirect (p : TcpPeer) (f : SendFrameStruct) (hasMore : Bool) :
    Option (TcpPeer × SendFrameStruct × Bool) := do
  let socket ← p.socket
  let (socket, b) := socket.write (f.data.drop f.bytesSent) hasMore
  let p := { p with socket := some socket }
  if b < 0 then return (p.countError, f, decide (f.data.length ≤ f.bytesSent))
  else if 0 < b then
    let f := { f with bytesSent := f.bytesSent + b.toNat }
    return (p, f, decide (f.data.length ≤ f.bytesSent))
  else return (p, f, false)

/-- `writeBuffer.append` of the next `n` bytes of a frame. -/
def buffer (p : TcpPeer) (f : SendFrameStruct) (n : ℕ) : TcpPeer × SendFrameStruct :=
  ({ p with writeBuffer := p.writeBuffer ++ (f.data.drop f.bytesSent).take n },
    { f with bytesSent := f.bytesSent + n })

/-- The head of `_InternalSend`: a full buffer is flushed first. -/
def makeRoom (p : TcpPeer) : Option (TcpPeer × Bool) :=
  if p.writeBuffer.length = p.writeBufferCapacity then p.flushBufferedSends true
  else some (p, true)

/-- `_InternalSend`, at most `fuel` calls deep. -/
def internalSendNested : ℕ → TcpPeer → SendFrameStruct → Bool →
    Option (TcpPeer × SendFrameStruct × Bool)
  | 0, _, _, _ => none
  | fuel + 1, p, f, hasMore => do
    if p.socket.isNone then return (p, f, false)
    let (p, b) ← p.makeRoom
    if b = false then return (p, f, false)
    if f.bytesSent < f.data.length then
      let bytesToWrite := f.data.length - f.bytesSent
      if p.writeBuffer.length = p.writeBufferOffset ∧ (1200 < bytesToWrite ∨ hasMore = false) then
        p.sendDirect f hasMore
      else if p.writeBuffer.length + bytesToWrite ≤ p.writeBufferCapacity then
        let (p, f) := p.buffer f bytesToWrite
        if hasMore = false ∨ p.writeBuffer.length = p.writeBufferCapacity then
          let (p, b) ← p.flushBufferedSends hasMore
          return (p, f, b)
        return (p, f, true)
      else
        let (p, f) := p.buffer f (min bytesToWrite (p.writeBufferCapacity - p.writeBuffer.length))
        let (p, canWriteMore) ← p.flushBufferedSends true
        if canWriteMore = false then return (p, f, false)
        internalSendNested fuel p f hasMore
    else return (p, f, true)

/-- `_InternalSend`. -/
def internalSend (p : TcpPeer) (f : SendFrameStruct) (hasMore : Bool) :
    Option (TcpPeer × SendFrameStruct × Bool) :=
  internalSendNested (f.data.length - f.bytesSent + 1) p f hasMore

/-- `_InternalHasQueuedSends`. -/
def hasQueuedSends (p : TcpPeer) : Bool :=
  p.localQueueOffset != p.localQueue.length || p.globalQueue.length != 0

/-- `_InternalHasBufferedSends`. -/
def hasBufferedSends (p : TcpPeer) : Bool := decide (p.writeBufferOffset < p.writeBuffer.length)

/-- `globalQueue.emplace_back(std::move(frame))`, the end of `Send`. -/
def enqueue (p : TcpPeer) (frame : List UInt8) : TcpPeer :=
  { p with globalQueue := p.globalQueue ++ [{ data := frame }] }

/-- `DequeueToLocalQueue`. -/
def dequeueToLocalQueue (p : TcpPeer) : TcpPeer :=
  if p.localQueue.length ≠ p.localQueueOffset then p
  else
    let p :=
      if p.localQueueOffset ≠ 0 then { p with localQueueOffset := 0, localQueue := [] } else p
    if p.globalQueue.isEmpty then p
    else { p with localQueue := p.globalQueue, globalQueue := p.localQueue }

/-- Why the inner loop of `_InternalFlushQueuedSends` ended. -/
inductive LoopEnd where
  | budget
  | empty
  | blocked
deriving DecidableEq, Repr

/-- The inner loop of `_InternalFlushQueuedSends`, with `n` rounds left: the peer, the
number of frames sent so far, the rounds left and why it ended. -/
def sendLoop : ℕ → TcpPeer → ℕ → ℕ → Option (TcpPeer × ℕ × ℕ × LoopEnd)
  | 0, p, _, sentFrames => some (p, sentFrames, 0, .budget)
  | n + 1, p, queuedFrames, sentFrames =>
    if p.localQueue.length = p.localQueueOffset then some (p, sentFrames, n + 1, .empty)
    else do
      let f ← p.localQueue[p.localQueueOffset]?
      let hasAnyMore := decide (1 < queuedFrames - sentFrames)
      let (p, f, sent) ← p.internalSend f hasAnyMore
      if sent then
        let p := { p with
          localQueue := p.localQueue.set p.localQueueOffset { f with data := [] }
          localQueueOffset := p.localQueueOffset + 1 }
        sendLoop n p queuedFrames (sentFrames + 1)
      else
        let p := { p with localQueue := p.localQueue.set p.localQueueOffset f }
        return (p, sentFrames, n + 1, .blocked)

/-- The outer loop of `_InternalFlushQueuedSends`, whose rounds share the budget of the
inner one: the peer, the number of frames sent and `ret`. -/
def flushRounds (queuedFrames : ℕ) : ℕ → TcpPeer → ℕ → ℕ → Option (TcpPeer × ℕ × Bool)
  | 0, p, _, sentFrames => some (p, sentFrames, true)
  | rounds + 1, p, left, sentFrames => do
    let (p, sentFrames, left, stop) ← sendLoop left p.dequeueToLocalQueue queuedFrames sentFrames
    if stop = .blocked then return (p, sentFrames, false)
    flushRounds queuedFrames rounds p left sentFrames

/-- `_InternalFlushQueuedSends`. -/
def flushQueuedSends (p : TcpPeer) (maxPacketsToSend : ℕ) : Option (TcpPeer × Bool) := do
  let queuedFrames := p.globalQueue.length + p.localQueue.length - p.localQueueOffset
  let (p, sentFrames, ret) ← flushRounds queuedFrames 2 p maxPacketsToSend 0
  return (p.count fun s => { s with framesSent := s.framesSent + sentFrames }, ret)

/-- The first half of `_InternalOnWritable`. -/
def flushQueuedIfAny (p : TcpPeer) : Option (TcpPeer × Bool) :=
  if p.hasQueuedSends then p.flushQueuedSends 384 else some (p, true)

/-- `_InternalOnWritable`. -/
def onWritable (p : TcpPeer) : Option (TcpPeer × Bool) := do
  if p.isReadyToUse = false ∨ p.isDisconnecting ∨ p.isClosed then return (p, false)
  let (p, ret) ← p.flushQueuedIfAny
  if p.hasBufferedSends then
    let (p, b) ← p.flushBufferedSends false
    return (p, ret && b)
  return (p, ret)

end TcpPeer
end ICon7
