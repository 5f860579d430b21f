/-
# Socket events of the hosts of a loop

`src/Host.cpp`, `src/HostUStcp.cpp`, and what they call in `src/Peer.cpp` and
`src/PeerUStcp.cpp`: how a peer comes to be and how it is closed.  Closing is
re-entrant.  `us_socket_close` calls `on_close`, which calls the user's
`onDisconnect`, which may call `Host::DisconnectAll`, which closes the sockets of
other peers.

The peers of all hosts are objects in one list and refer to each other by their
place in it, as do the sockets.  A callback is what it does to the loop: the hosts on which it calls
`DisconnectAll`, in order.  What the closing of a peer shows is kept as a list of
events.

A `PeerData` lives as long as a `std::shared_ptr` owns it: in a slot of the manager, in
the list of its host, or in a local of a function that is running (`copy` of
`DisconnectAll`, `_peer` of `_Internal_on_close` and `_Internal_on_end`,
`peerDataHolder`, `peer` of `_Internal_on_open`).  The locals are `holders`, and a
function that has one runs in `holding`.  Everything else has raw pointers, and looks at
a peer by `deref`, which fails once nobody owns it.  `_Internal_on_data` is of this kind:
`PushData` goes on with the decoder of the peer after each frame that it has given to
`onPacket`.

A null pointer that is dereferenced is `none`, and so are the use of an object that is
destroyed, a failed assertion and a recursion that does not end: `us_socket_close` is
given one more call than there are sockets.  Of uSockets it is assumed that closing an
open socket marks it closed and then calls `on_close` once, that closing a closed socket
does nothing, and that a closed socket has no events.
-/

import ICon7.Framing.Decoder
import ICon7.Host.References

namespace ICon7

open Framing

/-- The flags of a `Peer`. -/
structure PeerFlags where
  ready : Bool := false
  disconnecting : Bool := false
  closed : Bool := false
deriving DecidableEq, Repr

/-- `uS::tcp::Peer` without its queues.  `sharedPeer` is the flags of the shared peer, `none`
once it is emptied, and `onDisconnect` what the callback of the peer or of its host does. -/
structure PeerData where
  sharedPeer : Option PeerFlags := some {}
  peerHandle : PeerHandle := {}
  host : ℕ
  socket : Option ℕ
  onDisconnect : List ℕ
  frameDecoder : FrameDecoder := .fresh
deriving DecidableEq, Repr

/-- A socket of the context of a host, with the peer in its extension memory. -/
structure Socket where
  host : ℕ
  isClosed : Bool := false
  ext : Option ℕ
deriving DecidableEq, Repr

/-- What can be seen of a peer: a call of `_InternalOnDisconnect`, a run of the second half of
`_Internal_on_close_Finish`, with whether its handle resolves, it is in a host's list and its
id is in `peersToFlush` right after, and a call of `_InternalOnPacket`. -/
inductive Event where
  | disconnected (peer : ℕ)
  | released (peer : ℕ) (resolves listed toFlush : Bool)
  | packet (peer : ℕ)
deriving DecidableEq, Repr

/-- The peer an event is about. -/
def Event.peer : Event → ℕ
  | .disconnected peer | .released peer _ _ _ | .packet peer => peer

/-- The peers, sockets and hosts of one loop.  `peerData` has every peer ever made, also those that
are destroyed, and `holders` those that locals on the stack own. -/
structure HostLoop where
  peerManager : PeerManager ℕ
  peerData : List PeerData := []
  sockets : List Socket := []
  peerReferences : List (List ℕ)
  holders : List ℕ := []
  events : List Event := []
deriving DecidableEq, Repr

namespace HostLoop

/-- A loop with hosts that have no peers. -/
def init (loop hosts : ℕ) : HostLoop :=
  { peerManager := { loop }, peerReferences := List.replicate hosts [] }

/-- `peerReferences.peers` of a host. -/
def peersOf (w : HostLoop) (host : ℕ) : List ℕ := w.peerReferences.getD host []

/-- `host` of a peer. -/
def hostOf (w : HostLoop) (q : ℕ) : ℕ := ((w.peerData[q]?).map PeerData.host).getD 0

/-- `peerHandle.id.id` of a peer. -/
def idOf (w : HostLoop) (q : ℕ) : ℕ := ((w.peerData[q]?).map fun p => p.peerHandle.id).getD 0

/-- Whether a `std::shared_ptr` owns the peer. -/
def isOwned (w : HostLoop) (q : ℕ) : Bool :=
  w.peerManager.peers.contains (some q) || w.peerReferences.any (fun l => l.contains q) ||
    w.holders.contains q

/-- What a pointer to a peer points to, `none` once the peer is destroyed. -/
def deref (w : HostLoop) (q : ℕ) : Option PeerData :=
  if w.isOwned q then w.peerData[q]? else none

/-- What runs while a local owns the peers. -/
def holding (w : HostLoop) (l : List ℕ) (f : HostLoop → Option HostLoop) : Option HostLoop := do
  let w' ← f { w with holders := l ++ w.holders }
  return { w' with holders := w.holders }

def modifyPeer (w : HostLoop) (q : ℕ) (f : PeerData → PeerData) : HostLoop :=
  { w with peerData := w.peerData.modify q f }

def modifySocket (w : HostLoop) (s : ℕ) (f : Socket → Socket) : HostLoop :=
  { w with sockets := w.sockets.modify s f }

/-- `sharedPeer->peerFlags |= …`, where `sharedPeer` is not empty. -/
def setFlags (w : HostLoop) (q : ℕ) (f : PeerFlags → PeerFlags) : HostLoop :=
  w.modifyPeer q fun p => { p with sharedPeer := p.sharedPeer.map f }

def record (w : HostLoop) (e : Event) : HostLoop := { w with events := w.events ++ [e] }

section Closing

-- `us_socket_close`
variable (close : HostLoop → ℕ → Option HostLoop)

/-- `_InternalDisconnect`. -/
def internalDisconnect (w : HostLoop) (q : ℕ) : Option HostLoop := do
  let p ← w.deref q
  let w := w.setFlags q fun f => { f with disconnecting := true }
  match p.socket with
  | some s => close w s
  | none => return w.setFlags q fun f => { f with closed := true }

/-- `Host::DisconnectAll`, on `copy`, which owns the peers of the list. -/
def disconnectAll (w : HostLoop) (host : ℕ) : Option HostLoop :=
  w.holding (w.peersOf host) fun w => (w.peersOf host).foldlM (internalDisconnect close) w

/-- What a callback does. -/
def callback (w : HostLoop) (hosts : List ℕ) : Option HostLoop :=
  hosts.foldlM (disconnectAll close) w

/-- `_InternalOnDisconnect`. -/
def onDisconnect (w : HostLoop) (q : ℕ) : Option HostLoop := do
  let p ← w.deref q
  (w.record (.disconnected q)).callback close p.onDisconnect

/-- `peerReferences.Release` of a host, with the pointer that it returns. -/
def release (w : HostLoop) (host : ℕ) (h : PeerHandle) : Option (HostLoop × Option ℕ) := do
  let (peerManager, peers, peerDataHolder) ←
    PeerReferences.release w.hostOf w.idOf host w.peerManager (w.peersOf host) h
  return ({ w with peerManager, peerReferences := w.peerReferences.set host peers }, peerDataHolder)

/-- `_InternalClearInternalDataOnClose`. -/
def clearInternalDataOnClose (w : HostLoop) (q : ℕ) : Option HostLoop := do
  let p ← w.deref q
  let _ ← p.sharedPeer
  let w := w.modifyPeer q fun p => { p with sharedPeer := none, peerHandle := {} }
  let s ← p.socket
  let w := w.modifySocket s fun k => { k with ext := none }
  return w.modifyPeer q fun p => { p with socket := none }

/-- What can be seen of a peer and the handle it had. -/
def look (w : HostLoop) (q : ℕ) (h : PeerHandle) : Event :=
  .released q (w.peerManager.getLocalPeerData h != some none)
    (w.peerReferences.any fun l => l.contains q) (w.peerManager.peersToFlush.peers.contains h.id)

/-- The second half of `_Internal_on_close_Finish`. -/
def finish (w : HostLoop) (host : ℕ) (h : PeerHandle) (q : ℕ) : Option HostLoop := do
  let (w, peerDataHolder) ← w.release host h
  let w ← w.holding peerDataHolder.toList fun w => w.clearInternalDataOnClose q
  return w.record (w.look q h)

/-- `_Internal_on_close_Finish`. -/
def onCloseFinish (w : HostLoop) (host : ℕ) (h : PeerHandle) : Option HostLoop := do
  match ← w.peerManager.getLocalPeerData h with
  | none => return w
  | some q =>
    let p ← w.deref q
    let _ ← p.sharedPeer
    let w := w.setFlags q fun f => { f with disconnecting := true }
    let w ← w.onDisconnect close q
    w.finish host h q

/-- `_Internal_on_close`, whose `_peer` owns the peer. -/
def onClose (w : HostLoop) (s : ℕ) : Option HostLoop := do
  let k ← w.sockets[s]?
  match k.ext with
  | none => return w
  | some q =>
    let p ← w.deref q
    w.holding [q] fun w => w.onCloseFinish close k.host p.peerHandle

end Closing

/-- `us_socket_close`, at most `fuel` calls deep. -/
def usSocketCloseNested : ℕ → HostLoop → ℕ → Option HostLoop
  | 0, _, _ => none
  | fuel + 1, w, s => do
    let k ← w.sockets[s]?
    if k.isClosed then return w
    (w.modifySocket s fun k => { k with isClosed := true }).onClose (usSocketCloseNested fuel) s

/-- `us_socket_close`. -/
def usSocketClose (w : HostLoop) (s : ℕ) : Option HostLoop :=
  usSocketCloseNested (w.sockets.length + 1) w s

/-- `MakePeer` on a new socket of the host, and the peer stored in the socket. -/
def makePeer (w : HostLoop) (host : ℕ) (onDisconnect : List ℕ) : Option (HostLoop × PeerHandle) := do
  guard (host < w.peerReferences.length)
  let q := w.peerData.length
  let p : PeerData := { host, socket := some w.sockets.length, onDisconnect }
  let (peerManager, peers, handle) ←
    PeerReferences.alloc w.peerManager (w.peersOf host) q p.peerHandle
  return ({ w with
    peerManager
    peerData := w.peerData ++ [{ p with peerHandle := handle }]
    sockets := w.sockets ++ [{ host, ext := some q }]
    peerReferences := w.peerReferences.set host peers }, handle)

/-- `_Internal_on_open_Finish`, with what `onConnect` does. -/
def onOpenFinish (w : HostLoop) (h : PeerHandle) (onConnect : List ℕ) : Option HostLoop := do
  let w ← w.callback usSocketClose onConnect
  match ← w.peerManager.getLocalPeerData h with
  | none => return w
  | some q =>
    let p ← w.deref q
    let _ ← p.sharedPeer
    return w.setFlags q fun f => { f with ready := true }

/-- `_Internal_on_open` of a client, whose peer `_InternalConnect` has made; `peer` owns it. -/
def onOpen (w : HostLoop) (s : ℕ) (onConnect : List ℕ) : Option HostLoop := do
  let k ← w.sockets[s]?
  let q ← k.ext
  let p ← w.deref q
  w.holding [q] fun w => w.onOpenFinish p.peerHandle onConnect

/-- `_Internal_on_open` of a server, which makes the peer. -/
def onAccept (w : HostLoop) (host : ℕ) (onDisconnect onConnect : List ℕ) : Option HostLoop := do
  let q := w.peerData.length
  let (w, h) ← w.makePeer host onDisconnect
  w.holding [q] fun w => w.onOpenFinish h onConnect

/-- `_Internal_on_end`, whose `_peer` owns the peer. -/
def onEnd (w : HostLoop) (s : ℕ) : Option HostLoop := do
  let k ← w.sockets[s]?
  match k.ext with
  | none => return w
  | some q =>
    let p ← w.deref q
    w.holding [q] fun w => do
      let w ← w.onCloseFinish usSocketClose k.host p.peerHandle
      w.usSocketClose s

/-- `_Internal_on_timeout`, with what the socket says of itself. -/
def onTimeout (w : HostLoop) (s : ℕ) (isEstablished isShutDown : Bool) : Option HostLoop := do
  let k ← w.sockets[s]?
  match k.ext with
  | none => w.usSocketClose s
  | some q =>
    let w ← w.internalDisconnect usSocketClose q
    if isEstablished = false ∨ isShutDown then w.usSocketClose s
    else return w

/-- `_Internal_on_long_timeout`. -/
def onLongTimeout (w : HostLoop) (s : ℕ) : Option HostLoop := do
  let k ← w.sockets[s]?
  match k.ext with
  | none => return w
  | some q => w.internalDisconnect usSocketClose q

/-- `ExecuteDisconnect`. -/
def executeDisconnect (w : HostLoop) (h : PeerHandle) : Option HostLoop := do
  if h.toBool = false then return w
  match ← w.peerManager.getLocalPeerData h with
  | none => return w
  | some q => w.internalDisconnect usSocketClose q

/-- `SetOnDisconnect`, by handle. -/
def setOnDisconnect (w : HostLoop) (h : PeerHandle) (onDisconnect : List ℕ) : Option HostLoop := do
  match ← w.peerManager.getLocalPeerData h with
  | none => return w
  | some q =>
    let _ ← w.deref q
    return w.modifyPeer q fun p => { p with onDisconnect }

/-- The first frame that a peer is sent, which puts it into `peersToFlush`. -/
def send (w : HostLoop) (h : PeerHandle) : Option HostLoop := do
  match ← w.peerManager.getLocalPeerData h with
  | none => return w
  | some q =>
    let p ← w.deref q
    let f ← p.sharedPeer
    if f.disconnecting then return w
    return { w with peerManager := { w.peerManager with
      peersToFlush := w.peerManager.peersToFlush.insertPeerToFlush h.id } }

/-- The hosts on which the dispatch of a frame calls `DisconnectAll`: none for a frame
without a body or with a control sequence, and what its handler does otherwise. -/
def dispatched (packet : Packet) (handler : List ℕ) : List ℕ :=
  if packet.buffer.length = packet.headerSize then []
  else match getPacketFlags packet.buffer 0 with
    | some flags => if flags &&& 6 = FLAGS_PROTOCOL_CONTROLL_SEQUENCE then [] else handler
    | none => []

/-- `_InternalOnPacket`. -/
def onPacket (w : HostLoop) (q : ℕ) (hosts : List ℕ) : Option HostLoop := do
  let p ← w.deref q
  let _ ← p.sharedPeer
  (w.record (.packet q)).callback usSocketClose hosts

/-- A call of `onPacket` in `PushData`, which then takes the buffer back and calls `Restart`: the
decoder is a member of the peer. -/
def pushPacket (w : HostLoop) (q : ℕ) (hosts : List ℕ) : Option HostLoop := do
  let w ← w.onPacket q hosts
  let _ ← w.deref q
  return w

/-- The calls of `onPacket` in `PushData`, with what each dispatch does. -/
def onPackets (w : HostLoop) (q : ℕ) (dispatches : List (List ℕ)) : Option HostLoop :=
  dispatches.foldlM (fun w hosts => w.pushPacket q hosts) w

/-- `_Internal_on_data`, with what the handler of the `i`-th frame does. -/
def onData (w : HostLoop) (s : ℕ) (chunk : Chunk) (handlers : ℕ → List ℕ) : Option HostLoop := do
  let k ← w.sockets[s]?
  match k.ext with
  | none => return w
  | some q =>
    let p ← w.deref q
    let _ ← p.sharedPeer
    let (frameDecoder, packets) ← p.frameDecoder.pushData chunk
    let w := w.modifyPeer q fun p => { p with frameDecoder }
    w.onPackets q (packets.mapIdx fun i packet => dispatched packet (handlers i))

/-- What can happen to the hosts of a loop. -/
inductive Op where
  | accept (host : ℕ) (onDisconnect onConnect : List ℕ)
  | connect (host : ℕ) (onDisconnect : List ℕ)
  | opened (s : ℕ) (onConnect : List ℕ)
  | ended (s : ℕ)
  | closed (s : ℕ)
  | timeout (s : ℕ) (isEstablished isShutDown : Bool)
  | longTimeout (s : ℕ)
  | data (s : ℕ) (chunk : Chunk) (handlers : ℕ → List ℕ)
  | executeDisconnect (h : PeerHandle)
  | disconnectAll (host : ℕ)
  | setOnDisconnect (h : PeerHandle) (onDisconnect : List ℕ)
  | send (h : PeerHandle)

/-- An event of a socket, which only an open one has. -/
def onSocket (w : HostLoop) (s : ℕ) (f : HostLoop → Option HostLoop) : Option HostLoop :=
  match w.sockets[s]? with
  | some k => if k.isClosed then some w else f w
  | none => some w

def step (w : HostLoop) : Op → Option HostLoop
  | .accept host onDisconnect onConnect => w.onAccept host onDisconnect onConnect
  | .connect host onDisconnect => do
    let (w, _) ← w.makePeer host onDisconnect
    return w
  | .opened s onConnect => w.onSocket s fun w => w.onOpen s onConnect
  | .ended s => w.onSocket s fun w => w.onEnd s
  | .closed s => w.onSocket s fun w => w.usSocketClose s
  | .timeout s isEstablished isShutDown =>
    w.onSocket s fun w => w.onTimeout s isEstablished isShutDown
  | .longTimeout s => w.onSocket s fun w => w.onLongTimeout s
  | .data s chunk handlers => w.onSocket s fun w => w.onData s chunk handlers
  | .executeDisconnect h => w.executeDisconnect h
  | .disconnectAll host => w.disconnectAll usSocketClose host
  | .setOnDisconnect h onDisconnect => w.setOnDisconnect h onDisconnect
  | .send h => w.send h

def run (w : HostLoop) (ops : List Op) : Option HostLoop := ops.foldlM step w

end HostLoop
end ICon7
