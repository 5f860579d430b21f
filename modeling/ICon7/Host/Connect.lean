/-
# Connection attempts

`Host::_InternalConnect`, `_InternalConnect_Finish` and `_Internal_on_connect_error`
(`src/HostUStcp.cpp`, `src/Host.cpp`): a peer is made and allocated before it is known
whether its socket will open.  The command `onConnected` gets the handle of the peer, or
the null handle, and is executed or handed to a queue.

`_InternalConnect` writes the handle into the command before anyone asks whether there is
a command, and `_Internal_on_connect_error` asserts that the peer has no handle, which
`MakePeer` has given it.  `connect_handled_iff` says which attempts are handled.

A command that is executed in place is recorded; what it does to the loop is the first of
the events that follow.  A null pointer that is dereferenced and a failed assertion are
`none`.
-/

import ICon7.Host.Once

namespace ICon7

open Lib

/-- `commands::internal::ExecuteConnect`, with the callback of the host that the new peer will
have.  `onConnected` is the number of a command, `none` the empty `CommandHandle`, and
`executionQueue` that of a queue. -/
structure ExecuteConnect where
  host : ℕ
  onDisconnect : List ℕ
  onConnected : Option ℕ
  executionQueue : Option ℕ
deriving DecidableEq, Repr

/-- What becomes of `onConnected`: the command with its `peer`, and the queue that it is put into
or `none` when it is executed in place. -/
structure Connected where
  command : ℕ
  peer : PeerHandle
  queue : Option ℕ
deriving DecidableEq, Repr

namespace HostLoop

/-- `_InternalConnect_Finish`. -/
def internalConnectFinish (w : HostLoop) (com : ExecuteConnect) (peer : PeerHandle) :
    HostLoop × List Connected :=
  match com.onConnected with
  | none => (w, [])
  | some command => (w, [⟨command, peer, com.executionQueue⟩])

/-- `_InternalConnect`, with whether `us_socket_context_connect` gives a socket.  The handle is
written through `com.onConnected`. -/
def internalConnect (w : HostLoop) (com : ExecuteConnect) (socket : Bool) :
    Option (HostLoop × List Connected) := do
  if socket then
    let (w, handle) ← w.makePeer com.host com.onDisconnect
    let _ ← com.onConnected
    return w.internalConnectFinish com handle
  else
    let _ ← com.onConnected
    return w.internalConnectFinish com {}

/-- `_Internal_on_connect_error`. -/
def onConnectError (w : HostLoop) (s : ℕ) : Option HostLoop := do
  let k ← w.sockets[s]?
  match k.ext with
  | none => return w
  | some q =>
    let p ← w.deref q
    guard (p.peerHandle.toBool = false)
    let (w, peerDataHolder) ← w.release k.host p.peerHandle
    w.holding peerDataHolder.toList fun w => w.clearInternalDataOnClose q

/-- How an attempt goes on: there is no socket, it opens, with what `onConnect` does, or it
reports an error. -/
inductive Outcome where
  | refused
  | opened (onConnect : List ℕ)
  | error
deriving DecidableEq, Repr

/-- The event on the socket. -/
def outcome (w : HostLoop) (s : ℕ) : Outcome → Option HostLoop
  | .refused => some w
  | .opened onConnect => w.onOpen s onConnect
  | .error => w.onConnectError s

/-- **The attempt is handled.**  `_InternalConnect` returns, with a command that is not empty
executed or enqueued once, with the handle of the new peer or the null handle; and whatever
events come before it, the outcome is handled on the new socket, if that is still open.  After
an error no handle resolves to the peer, and no list has it. -/
def ConnectHandled (loop hosts : ℕ) (w : HostLoop) (com : ExecuteConnect) (out : Outcome) : Prop :=
  ∃ w₁ connected, w.internalConnect com (out ≠ .refused) = some (w₁, connected) ∧
    (∀ command, com.onConnected = some command → ∃ peer,
      connected = [⟨command, peer, com.executionQueue⟩] ∧
        (out = .refused → peer = {}) ∧
        (out ≠ .refused → w₁.peerManager.getLocalPeerData peer = some (some w.peerData.length))) ∧
    ∀ between w₂ k, (∀ op ∈ between, op.Ok loop hosts) → w₁.run between = some w₂ →
      (out ≠ .refused → w₂.sockets[w.sockets.length]? = some k ∧ k.isClosed = false) →
      ∃ w₃, w₂.outcome w.sockets.length out = some w₃ ∧
        (out = .error → (∀ h, w₃.peerManager.getLocalPeerData h ≠ some (some w.peerData.length)) ∧
          ∀ host, w.peerData.length ∉ w₃.peersOf host)

variable {w w' : HostLoop} {loop hosts s : ℕ}

/-- **An error on an open socket** fails the assertion: its peer has a handle. -/
theorem onConnectError_eq_none (hw : w.Settled loop hosts) {k : Socket} (hk : w.sockets[s]? = some k)
    (ho : k.isClosed = false) : w.onConnectError s = none := by
  obtain ⟨q, p, hext, hp, -, hsh, -, -⟩ := hw.peer_of_socket hk ho
  have hlive := (hw.wf.alive q p hp hsh).live
  have hv : p.peerHandle.version ≠ 0 := hw.wf.manager.version_ne_zero _ _ hlive.2.2
  have hb : p.peerHandle.toBool = true := by
    simp [PeerHandle.toBool, hv, hlive.1]
  simp [onConnectError, hk, hext, hw.wf.deref_of_alive hp hsh, hb, guard]

/-- **`_InternalConnect` with a command** returns, and records it once. -/
theorem internalConnect_of_some (hw : w.Settled loop hosts) {com : ExecuteConnect} (hh : com.host < hosts)
    {command : ℕ} (hcom : com.onConnected = some command) :
    w.internalConnect com false = some (w, [⟨command, {}, com.executionQueue⟩]) ∧
      ∃ w₁ p, w.internalConnect com true = some (w₁, [⟨command, p.peerHandle, com.executionQueue⟩]) ∧
        Adds w w₁ p ∧ w₁.Settled loop hosts ∧
        w₁.peerManager.Live p.peerHandle w.peerData.length := by
  obtain ⟨w₁, p, hmake, ha, hw₁, hlive⟩ := makePeer_adds hw hh com.onDisconnect
  refine ⟨?_, w₁, p, ?_, ha, hw₁, hlive⟩
  · simp [internalConnect, internalConnectFinish, hcom]
  · simp [internalConnect, internalConnectFinish, hmake, hcom]

/-- **`_InternalConnect` without a command** dereferences it. -/
theorem internalConnect_of_none {com : ExecuteConnect} (hcom : com.onConnected = none) (socket : Bool) :
    w.internalConnect com socket = none := by
  cases socket with
  | false => simp [internalConnect, hcom]
  | true => cases hmake : w.makePeer com.host com.onDisconnect <;> simp [internalConnect, hcom, hmake]

/-- **Which connection attempts are handled:** those with a command, unless they end in an error
of the socket.  This is so from every state that the loop can be in. -/
theorem connect_handled_iff (loop hosts : ℕ) (ops : List Op) (hok : ∀ op ∈ ops, op.Ok loop hosts)
    (hrun : (init loop hosts).run ops = some w) (com : ExecuteConnect) (hh : com.host < hosts)
    (out : Outcome) :
    w.ConnectHandled loop hosts com out ↔ com.onConnected ≠ none ∧ out ≠ .error := by
  have hw := run_settled hok hrun
  cases hcom : com.onConnected with
  | none =>
    refine ⟨?_, fun h => absurd rfl h.1⟩
    rintro ⟨w₁, connected, hconn, -⟩
    rw [internalConnect_of_none hcom] at hconn
    simp at hconn
  | some command =>
    obtain ⟨hrefused, w₁, p, hconn, ha, hw₁, hlive⟩ := internalConnect_of_some hw hh hcom
    have hget := PeerManager.getLocalPeerData_of_live hw₁.wf.manager hlive
    have hsock : w₁.sockets[w.sockets.length]? =
        some { host := p.host, ext := some w.peerData.length } := by rw [ha.socket_eq, if_pos rfl]
    cases out with
    | refused =>
      refine ⟨fun _ => by simp, fun _ => ⟨w, _, by simpa using hrefused, fun c hc => ?_, ?_⟩⟩
      · obtain rfl := Option.some.inj (hcom.symm.trans hc)
        exact ⟨{}, rfl, fun _ => rfl, fun h => absurd rfl h⟩
      · intro between w₂ k _ _ _
        exact ⟨w₂, rfl, by simp⟩
    | opened onConnect =>
      refine ⟨fun _ => by simp, fun _ => ⟨w₁, _, by simpa using hconn, fun c hc => ?_, ?_⟩⟩
      · obtain rfl := Option.some.inj (hcom.symm.trans hc)
        exact ⟨p.peerHandle, rfl, by simp, fun _ => hget⟩
      · intro between w₂ k hbetween hrun₂ hopen
        obtain ⟨hk, ho⟩ := hopen (by simp)
        obtain ⟨w₃, hw₃, -⟩ := (hw₁.run hbetween hrun₂).onOpen hk ho onConnect
        exact ⟨w₃, hw₃, by simp⟩
    | error =>
      refine ⟨?_, fun h => absurd rfl h.2⟩
      rintro ⟨w₁', connected, hconn', -, hall⟩
      obtain ⟨rfl, -⟩ := Prod.mk.inj (Option.some.inj (hconn.symm.trans (by simpa using hconn')))
      obtain ⟨w₃, hw₃, -⟩ := hall [] w₁ _ (by simp) rfl fun _ => ⟨hsock, rfl⟩
      rw [outcome, onConnectError_eq_none hw₁ hsock rfl] at hw₃
      simp at hw₃

/-- `connect_handled_iff` on a first connection that opens. -/
theorem connect_handled_iff_opened :
    (init 7 1).ConnectHandled 7 1 ⟨0, [], some 3, none⟩ (.opened []) :=
  (connect_handled_iff 7 1 [] (by simp) rfl ⟨0, [], some 3, none⟩ (by decide) (.opened [])).mpr
    (by decide)

/-- `Host::Connect(address, port)`, which passes no command, and an error of a socket whose peer
has been made. -/
theorem connect_not_handled :
    (init 7 1).internalConnect ⟨0, [], none, none⟩ true = none ∧
      (init 7 1).internalConnect ⟨0, [], none, none⟩ false = none ∧
      ∃ w connected, (init 7 1).internalConnect ⟨0, [], some 3, none⟩ true = some (w, connected) ∧
        w.onConnectError 0 = none := by
  refine ⟨by decide, by decide, _, _, rfl, by decide⟩

end HostLoop
end ICon7
