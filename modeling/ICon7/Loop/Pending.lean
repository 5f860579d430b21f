/-
# Pending peers of a loop

The sending of all peers of one loop: `PeerData::Send`, which puts a peer into
`peersToFlush` when it turns from idle to pending, the writable events of the
sockets, and `Loop::FlushPendingPeers` (`src/Loop.cpp`), which visits the ids of
`peersToFlush` from the last to the first and removes those with nothing left to
send by swapping with the last.

A peer is a value in its slot.  The calls take a handle, as the commands that make
them do, and do nothing when it does not resolve.  Flags of a peer can change at
any time (`SetReadyToUse`, `Disconnect`).

The invariant (`Loop.WF`) says in particular that no live peer with something to
send is missing from `peersToFlush`.  The entry that a removal moves into the
hole comes from a place that the pass has already visited, so that the pass
visits every id once (`flushLoop_spec`).
-/

import ICon7.Lib.Run
import ICon7.Peer.Stream

namespace ICon7

open Lib

/-- Queued or buffered sends. -/
def TcpPeer.pending (p : TcpPeer) : Bool := p.hasBufferedSends || p.hasQueuedSends

/-- A writable event of a peer with nothing to send does nothing. -/
theorem TcpPeer.onWritable_of_idle {p : TcpPeer} (h : p.pending = false) :
    ∃ b, p.onWritable = some (p, b) := by
  obtain ⟨hb, hq⟩ : p.hasBufferedSends = false ∧ p.hasQueuedSends = false := by
    simpa [pending] using h
  simp only [onWritable, flushQueuedIfAny, hb, hq, Option.bind_eq_bind, Option.bind_some,
    Option.pure_def, Bool.false_eq_true, if_false]
  split_ifs <;> exact ⟨_, rfl⟩

structure Loop where
  peerManager : PeerManager TcpPeer

namespace Loop

/-- A loop without peers. -/
def init (loop : ℕ) : Loop := ⟨{ loop }⟩

/-- Overwrites the peer of a slot. -/
def setPeer (l : Loop) (id : ℕ) (p : TcpPeer) : Loop :=
  ⟨{ l.peerManager with peers := l.peerManager.peers.set id (some p) }⟩

/-- `Alloc` of a new peer over the socket, the handle stored in the peer. -/
def alloc (l : Loop) (socket : UsSocket) (capacity : ℕ) : Option (Loop × PeerHandle) := do
  let p := TcpPeer.ofSocket socket capacity
  let (peerManager, h) ← l.peerManager.alloc p p.peerHandle
  return (Loop.setPeer ⟨peerManager⟩ h.id { p with peerHandle := h }, h)

/-- `Release`. -/
def release (l : Loop) (h : PeerHandle) : Option Loop := do
  let (peerManager, _) ← l.peerManager.release h
  return ⟨peerManager⟩

/-- `_InternalInsertPeerToFlush`, which dereferences the result of `GetLocalPeerData`. -/
def insertPeerToFlush (l : Loop) (h : PeerHandle) : Option Loop := do
  let p ← l.peerManager.getLocalPeerData h
  let p ← p
  if p.hasQueuedSends = false ∧ p.hasBufferedSends = false then
    return ⟨{ l.peerManager with
      peersToFlush := l.peerManager.peersToFlush.insertPeerToFlush h.id }⟩
  return l

/-- `PeerData::Send` of the peer in the slot. -/
def sendPeer (l : Loop) (id : ℕ) (p : TcpPeer) (frame : List UInt8) : Option Loop := do
  if p.isDisconnecting then return l.setPeer id p.countError
  if p.hasQueuedSends = false ∧ p.hasBufferedSends = false then
    let l ← l.insertPeerToFlush p.peerHandle
    return l.setPeer id (p.enqueue frame)
  return l.setPeer id (p.enqueue frame)

/-- `PeerData::Send` by handle. -/
def send (l : Loop) (h : PeerHandle) (frame : List UInt8) : Option Loop := do
  match ← l.peerManager.getLocalPeerData h with
  | some p => l.sendPeer h.id p frame
  | none => return l

/-- The writable event of the peer's socket. -/
def onWritable (l : Loop) (h : PeerHandle) : Option Loop := do
  match ← l.peerManager.getLocalPeerData h with
  | some p =>
    let (p, _) ← p.onWritable
    return l.setPeer h.id p
  | none => return l

/-- A change of the flags of a peer. -/
def setFlags (l : Loop) (h : PeerHandle) (ready disconnecting closed : Bool) : Option Loop := do
  match ← l.peerManager.getLocalPeerData h with
  | some p =>
    let p := { p with isReadyToUse := ready, isDisconnecting := disconnecting, isClosed := closed }
    return l.setPeer h.id p
  | none => return l

/-- `peersToFlush.RemovePeerToFlush(peerId)`. -/
def removePeerToFlush (l : Loop) (peerId : ℕ) : Option Loop := do
  let peersToFlush ← l.peerManager.peersToFlush.removePeerToFlush peerId
  return ⟨{ l.peerManager with peersToFlush }⟩

/-- What `FlushPendingPeers` does to a live peer. -/
def flushPeer (p : TcpPeer) : Option TcpPeer :=
  if p.pending then p.onWritable.map Prod.fst else some p

/-- The body of the loop of `FlushPendingPeers` for a live peer. -/
def visitPeer (l : Loop) (peerId : ℕ) (p : TcpPeer) : Option Loop := do
  let p ← flushPeer p
  if p.pending = false then (l.setPeer peerId p).removePeerToFlush peerId
  else return l.setPeer peerId p

/-- The body of the loop of `FlushPendingPeers`. -/
def visit (l : Loop) (peerId : ℕ) : Option Loop := do
  match ← l.peerManager.getLocalPeerDataValid peerId with
  | some p => l.visitPeer peerId p
  | none => l.removePeerToFlush peerId

/-- The loop of `FlushPendingPeers` for the indices below the given one, with the ids it
visits. -/
def flushLoop : ℕ → Loop → Option (Loop × List ℕ)
  | 0, l => some (l, [])
  | i + 1, l => do
    let peerId ← l.peerManager.peersToFlush.peers[i]?
    let l ← l.visit peerId
    let (l, visited) ← flushLoop i l
    return (l, peerId :: visited)

/-- `FlushPendingPeers`, with the ids it visits. -/
def flushPendingPeers (l : Loop) : Option (Loop × List ℕ) :=
  flushLoop l.peerManager.peersToFlush.peers.length l

/-- What can happen on a loop. -/
inductive Op where
  | alloc (socket : UsSocket) (capacity : ℕ)
  | release (h : PeerHandle)
  | setFlags (h : PeerHandle) (ready disconnecting closed : Bool)
  | send (h : PeerHandle) (frame : List UInt8)
  | onWritable (h : PeerHandle)
  | flushPendingPeers

/-- One step of a loop. -/
def step (l : Loop) : Op → Option Loop
  | .alloc socket capacity => (l.alloc socket capacity).map Prod.fst
  | .release h => l.release h
  | .setFlags h ready disconnecting closed => l.setFlags h ready disconnecting closed
  | .send h frame => l.send h frame
  | .onWritable h => l.onWritable h
  | .flushPendingPeers => l.flushPendingPeers.map Prod.fst

/-- A sequence of steps. -/
def run (l : Loop) (ops : List Op) : Option Loop := ops.foldlM step l

/-- What a caller promises: handles are of the loop, and write buffers have room. -/
def Op.Ok (loop : ℕ) : Op → Prop
  | .alloc _ capacity => 0 < capacity
  | .release h | .setFlags h _ _ _ | .send h _ | .onWritable h => h.loop = some loop
  | .flushPendingPeers => True

/-- The bytes an operation gives to the peer of a handle. -/
def Op.bytesTo (h : PeerHandle) : Op → List UInt8
  | .send g frame => if g = h then frame else []
  | _ => []

/-- The operation neither releases the peer of the handle nor makes it disconnecting. -/
def Op.Spares (h : PeerHandle) : Op → Prop
  | .release g => g ≠ h
  | .setFlags g _ disconnecting _ => g = h → disconnecting = false
  | _ => True

/-- The slot holds the peer. -/
def Holds (l : Loop) (i : ℕ) (p : TcpPeer) : Prop := l.peerManager.peers[i]? = some (some p)

/-- **The invariant of a loop.**  Every peer satisfies its own, knows its handle, and is in
`peersToFlush` when it has something to send; the ids there are those of slots. -/
structure WF (l : Loop) : Prop where
  manager : l.peerManager.WF
  peer_wf : ∀ i p, l.Holds i p → p.WF
  handle : ∀ i p, l.Holds i p →
    p.peerHandle = ⟨i, l.peerManager.versionAt i, some l.peerManager.loop⟩
  flushed : ∀ i p, l.Holds i p → p.pending = true → i ∈ l.peerManager.peersToFlush.peers
  ids : ∀ i ∈ l.peerManager.peersToFlush.peers, i < l.peerManager.peers.length

variable {l l' : Loop} {i : ℕ} {p q : TcpPeer} {h : PeerHandle}

theorem init_wf (loop : ℕ) : (init loop).WF := by
  refine ⟨⟨rfl, rfl, List.nodup_nil, ?_, ?_, PeersToFlush.wf_empty⟩, ?_, ?_, ?_, ?_⟩ <;>
    simp [init, Holds]

/-- A slot holds one peer. -/
theorem Holds.unique (hp : l.Holds i p) (hq : l.Holds i q) : p = q :=
  Option.some.inj (Option.some.inj (hp.symm.trans hq))

theorem Holds.lt (hp : l.Holds i p) : i < l.peerManager.peers.length :=
  (List.getElem?_eq_some_iff.mp hp).1

theorem holds_setPeer (hi : i < l.peerManager.peers.length) (j : ℕ) (q : TcpPeer) :
    (l.setPeer i p).Holds j q ↔ if j = i then q = p else l.Holds j q := by
  unfold Holds setPeer
  rcases eq_or_ne j i with rfl | hne
  · simp [hi, eq_comm]
  · simp [hne, List.getElem?_set_ne hne.symm]

/-- Overwriting a peer leaves the manager consistent. -/
theorem setPeer_manager (hw : l.peerManager.WF) (hp : l.Holds i p) (q : TcpPeer) :
    (l.setPeer i q).peerManager.WF := by
  refine ⟨by simp [setPeer, hw.versions_length], by simp [setPeer, hw.perHostOffset_length],
    hw.freeIds_nodup, fun j => ?_, hw.version_ne_zero, hw.peersToFlush⟩
  rw [show (l.setPeer i q).peerManager.freeIds = l.peerManager.freeIds from rfl, hw.mem_freeIds]
  simp only [setPeer]
  rcases eq_or_ne i j with rfl | hne
  · rw [List.getElem?_set_self hp.lt, show l.peerManager.peers[i]? = some (some p) from hp]
    simp
  · rw [List.getElem?_set_ne hne]

/-- **Overwriting a peer** keeps the invariant when the new peer satisfies its own, has the
old handle, and is to be flushed if it is pending. -/
theorem WF.setPeer (hw : l.WF) (hp : l.Holds i p) (hq : q.WF) (hh : q.peerHandle = p.peerHandle)
    (hf : q.pending = true → i ∈ l.peerManager.peersToFlush.peers) : (l.setPeer i q).WF := by
  refine ⟨setPeer_manager hw.manager hp q, fun j r hr => ?_, fun j r hr => ?_, fun j r hr hpend => ?_,
    fun j hj => ?_⟩
  · rw [holds_setPeer hp.lt] at hr
    split_ifs at hr with hji
    · exact hr ▸ hq
    · exact hw.peer_wf j r hr
  · rw [holds_setPeer hp.lt] at hr
    split_ifs at hr with hji
    · rw [hr, hji, hh]
      exact hw.handle i p hp
    · exact hw.handle j r hr
  · rw [holds_setPeer hp.lt] at hr
    split_ifs at hr with hji
    · rw [hji]
      exact hf (hr ▸ hpend)
    · exact hw.flushed j r hr hpend
  · simpa [Loop.setPeer] using hw.ids j hj

/-- A handle of the loop resolves to the peer of its slot, or to nothing. -/
theorem resolve (hw : l.WF) (hloop : h.loop = some l.peerManager.loop) :
    (∃ p, l.Holds h.id p ∧ p.peerHandle = h ∧ l.peerManager.getLocalPeerData h = some (some p)) ∨
      (l.peerManager.getLocalPeerData h = some none ∧ ∀ p, ¬l.peerManager.Live h p) := by
  by_cases hex : ∃ p, l.peerManager.Live h p
  · left
    obtain ⟨p, hl⟩ := hex
    refine ⟨p, hl.2.1, ?_, PeerManager.getLocalPeerData_of_live hw.manager hl⟩
    rw [hw.handle h.id p hl.2.1, ← hl.version_eq, ← hloop]
  · exact .inr ⟨PeerManager.getLocalPeerData_of_stale hw.manager hloop (not_exists.mp hex),
      not_exists.mp hex⟩

/-- **What one step of a loop does:** it keeps the invariant, and a peer that it spares and
that is not disconnecting is still there, its stream extended by the bytes it was given. -/
structure Steps (l l' : Loop) (op : Op) : Prop where
  wf : l'.WF
  loop : l'.peerManager.loop = l.peerManager.loop
  peer : ∀ i p, l.Holds i p → op.Spares p.peerHandle → p.isDisconnecting = false →
    ∃ p', l'.Holds i p' ∧ p'.peerHandle = p.peerHandle ∧ p'.isDisconnecting = false ∧
      p'.stream = p.stream ++ op.bytesTo p.peerHandle

/-- A step that does nothing, on a handle that does not resolve. -/
theorem Steps.idle (hw : l.WF) {op : Op} (hno : ∀ p, l.Holds h.id p → p.peerHandle ≠ h)
    (hbytes : ∀ g, g ≠ h → op.bytesTo g = []) : Steps l l op := by
  refine ⟨hw, rfl, fun i p hp _ hd => ⟨p, hp, rfl, hd, ?_⟩⟩
  have hne : p.peerHandle ≠ h := by
    rintro rfl
    have hid := congrArg PeerHandle.id (hw.handle i p hp)
    exact hno p (hid ▸ hp) rfl
  rw [hbytes _ hne, List.append_nil]

/-- A step that overwrites one peer. -/
theorem Steps.of_setPeer (hw : (l.setPeer i q).WF) (hp : l.Holds i p) {op : Op}
    (hh : q.peerHandle = p.peerHandle)
    (hpeer : op.Spares p.peerHandle → p.isDisconnecting = false →
      q.isDisconnecting = false ∧ q.stream = p.stream ++ op.bytesTo p.peerHandle)
    (hother : ∀ j r, j ≠ i → l.Holds j r → op.bytesTo r.peerHandle = []) :
    Steps l (l.setPeer i q) op := by
  refine ⟨hw, rfl, fun j r hr hsp hd => ?_⟩
  rcases eq_or_ne j i with rfl | hne
  · obtain rfl := hp.unique hr
    obtain ⟨hd', hs⟩ := hpeer hsp hd
    exact ⟨q, (holds_setPeer hp.lt j q).mpr (by rw [if_pos rfl]), hh, hd', hs⟩
  · refine ⟨r, (holds_setPeer hp.lt j r).mpr (by rwa [if_neg hne]), rfl, hd, ?_⟩
    rw [hother j r hne hr, List.append_nil]

/-- The handles of different slots differ. -/
theorem WF.peerHandle_ne (hw : l.WF) {j : ℕ} (hp : l.Holds i p) (hq : l.Holds j q) (hne : j ≠ i) :
    q.peerHandle ≠ p.peerHandle := by
  rw [hw.handle i p hp, hw.handle j q hq]
  exact fun heq => hne (congrArg PeerHandle.id heq)

/-- The handle a peer knows resolves to it. -/
theorem WF.live (hw : l.WF) (hp : l.Holds i p) : l.peerManager.Live p.peerHandle p := by
  have hlt : i < l.peerManager.versions.length := by
    rw [hw.manager.versions_length]
    exact hp.lt
  rw [hw.handle i p hp]
  refine ⟨rfl, hp, ?_⟩
  simp [PeerManager.versionAt, hlt]

theorem not_holds_of_stale (hw : l.WF) (hno : ∀ p, ¬l.peerManager.Live h p) (p : TcpPeer)
    (hp : l.Holds h.id p) : p.peerHandle ≠ h := by
  rintro rfl
  exact hno p (hw.live hp)

/-- **A writable event.** -/
theorem onWritable_steps (hw : l.WF) (hloop : h.loop = some l.peerManager.loop) :
    ∃ l', l.onWritable h = some l' ∧ Steps l l' (.onWritable h) := by
  rcases resolve hw hloop with ⟨p, hp, hph, hget⟩ | ⟨hget, hno⟩
  · obtain ⟨q, b, hon, hs⟩ := TcpPeer.onWritable_spec (hw.peer_wf _ _ hp)
    refine ⟨l.setPeer h.id q, by simp [Loop.onWritable, hget, hon], ?_⟩
    refine Steps.of_setPeer (hw.setPeer hp hs.wf hs.same.peerHandle fun hpend => ?_) hp
      hs.same.peerHandle (fun _ hd => ⟨hs.same.isDisconnecting.trans hd, ?_⟩) (fun _ _ _ _ => rfl)
    · refine hw.flushed _ _ hp ?_
      by_contra hidle
      obtain ⟨b', hon'⟩ := TcpPeer.onWritable_of_idle (Bool.eq_false_of_not_eq_true hidle)
      rw [hon, Option.some.injEq, Prod.mk.injEq] at hon'
      exact hidle (hon'.1 ▸ hpend)
    · rw [hs.stream]
      exact (List.append_nil _).symm
  · exact ⟨l, by simp [Loop.onWritable, hget], Steps.idle hw (not_holds_of_stale hw hno) fun _ _ => rfl⟩

/-- **A change of flags.** -/
theorem setFlags_steps (hw : l.WF) (hloop : h.loop = some l.peerManager.loop)
    (ready disconnecting closed : Bool) :
    ∃ l', l.setFlags h ready disconnecting closed = some l' ∧
      Steps l l' (.setFlags h ready disconnecting closed) := by
  rcases resolve hw hloop with ⟨p, hp, hph, hget⟩ | ⟨hget, hno⟩
  · set q := { p with isReadyToUse := ready, isDisconnecting := disconnecting, isClosed := closed }
    have hwp := hw.peer_wf _ _ hp
    have hwq : q.WF := ⟨⟨hwp.socket, hwp.capacity_pos, hwp.offset_le, hwp.size_le, hwp.drained⟩,
      hwp.local_le, hwp.global_unsent⟩
    refine ⟨l.setPeer h.id q, by simp [Loop.setFlags, hget, q], ?_⟩
    exact Steps.of_setPeer (hw.setPeer hp hwq rfl fun hpend => hw.flushed _ _ hp hpend) hp rfl
      (fun hsp _ => ⟨hsp hph.symm, (List.append_nil _).symm⟩) (fun _ _ _ _ => rfl)
  · exact ⟨l, by simp [Loop.setFlags, hget],
      Steps.idle hw (not_holds_of_stale hw hno) fun _ _ => rfl⟩

/-- `_InternalInsertPeerToFlush` of an idle peer's own handle. -/
theorem insertPeerToFlush_spec (hw : l.WF) (hp : l.Holds i p) (hidle : p.pending = false) :
    ∃ l', l.insertPeerToFlush p.peerHandle = some l' ∧ l'.WF ∧
      l'.peerManager.loop = l.peerManager.loop ∧ (∀ j q, l'.Holds j q ↔ l.Holds j q) ∧
      i ∈ l'.peerManager.peersToFlush.peers := by
  obtain ⟨hb, hq⟩ : p.hasBufferedSends = false ∧ p.hasQueuedSends = false := by
    simpa [TcpPeer.pending] using hidle
  have hid : p.peerHandle.id = i := congrArg PeerHandle.id (hw.handle i p hp)
  obtain ⟨hf, hmem⟩ := PeersToFlush.insertPeerToFlush_spec hw.manager.peersToFlush i
  refine ⟨⟨{ l.peerManager with
    peersToFlush := l.peerManager.peersToFlush.insertPeerToFlush i }⟩, ?_, ?_, rfl, fun _ _ => Iff.rfl,
    (hmem i).mpr (.inr rfl)⟩
  · simp [Loop.insertPeerToFlush, PeerManager.getLocalPeerData_of_live hw.manager (hw.live hp), hb,
      hq, hid]
  · refine ⟨⟨hw.manager.versions_length, hw.manager.perHostOffset_length, hw.manager.freeIds_nodup,
      hw.manager.mem_freeIds, hw.manager.version_ne_zero, hf⟩, hw.peer_wf, hw.handle,
      fun j q hq hpend => (hmem j).mpr (.inl (hw.flushed j q hq hpend)), fun j hj => ?_⟩
    rcases (hmem j).mp hj with hj | rfl
    · exact hw.ids j hj
    · exact hp.lt

/-- The end of `Send`, the peer being in `peersToFlush`. -/
theorem enqueue_steps (hw : l.WF) (hp : l.Holds i p) (frame : List UInt8)
    (hflush : i ∈ l.peerManager.peersToFlush.peers) :
    Steps l (l.setPeer i (p.enqueue frame)) (.send p.peerHandle frame) := by
  obtain ⟨hwq, hs⟩ := TcpPeer.enqueue_spec (hw.peer_wf i p hp) frame
  refine Steps.of_setPeer (hw.setPeer hp hwq rfl fun _ => hflush) hp rfl (fun _ hd => ⟨hd, ?_⟩)
    (fun j r hne hr => if_neg (hw.peerHandle_ne hp hr hne).symm)
  rw [hs, Op.bytesTo, if_pos rfl]

/-- **`Send`.** -/
theorem send_steps (hw : l.WF) (hloop : h.loop = some l.peerManager.loop) (frame : List UInt8) :
    ∃ l', l.send h frame = some l' ∧ Steps l l' (.send h frame) := by
  rcases resolve hw hloop with ⟨p, hp, rfl, hget⟩ | ⟨hget, hno⟩
  · have hsend : l.send p.peerHandle frame = l.sendPeer p.peerHandle.id p frame := by
      simp [Loop.send, hget]
    rw [hsend, sendPeer]
    split_ifs with hdisc hidle
    · -- the frame is dropped, and only the error is counted
      have hwp := hw.peer_wf _ _ hp
      have hwq : p.countError.WF := ⟨⟨hwp.socket, hwp.capacity_pos, hwp.offset_le, hwp.size_le,
        hwp.drained⟩, hwp.local_le, hwp.global_unsent⟩
      refine ⟨l.setPeer p.peerHandle.id p.countError, rfl, Steps.of_setPeer (hw.setPeer hp hwq rfl
        fun hpend => hw.flushed _ _ hp hpend) hp rfl (fun _ hd => ?_) (fun j r hne hr => ?_)⟩
      · rw [hd] at hdisc
        simp at hdisc
      · exact if_neg (hw.peerHandle_ne hp hr hne).symm
    · have hnot : p.pending = false := by simp [TcpPeer.pending, hidle.1, hidle.2]
      obtain ⟨l₁, hins, hw₁, hl₁, hh₁, hmem⟩ := insertPeerToFlush_spec hw hp hnot
      have hst := enqueue_steps hw₁ ((hh₁ _ _).mpr hp) frame hmem
      refine ⟨_, by rw [hins]; rfl, hst.wf, hst.loop.trans hl₁, fun j r hr => ?_⟩
      exact hst.peer j r ((hh₁ j r).mpr hr)
    · refine ⟨_, rfl, enqueue_steps hw hp frame (hw.flushed _ _ hp ?_)⟩
      by_contra hnot
      rw [Bool.not_eq_true, TcpPeer.pending, Bool.or_eq_false_iff] at hnot
      exact hidle hnot.symm
  · exact ⟨l, by simp [Loop.send, hget],
      Steps.idle hw (not_holds_of_stale hw hno) fun g hg => if_neg hg.symm⟩

section Filled

variable {m' : PeerManager TcpPeer} (hf : l.peerManager.Fills m' h p)
include hf

/-- The slot that was filled holds the peer that was written to it, the others what they held. -/
theorem holds_filled (q : TcpPeer) (j : ℕ) (r : TcpPeer) :
    (Loop.setPeer ⟨m'⟩ h.id q).Holds j r ↔ if j = h.id then r = q else l.Holds j r := by
  have hp : Holds ⟨m'⟩ h.id p := (hf.peers h.id).trans (if_pos rfl)
  rw [holds_setPeer hp.lt]
  split_ifs with hj
  · rfl
  · rw [Holds, hf.peers, if_neg hj]
    rfl

/-- The slot was empty. -/
theorem not_holds_filled (r : TcpPeer) : ¬l.Holds h.id r := by
  intro hr
  rcases hf.empty with he | he
  · rw [Holds, he] at hr
    simp at hr
  · exact absurd hr.lt (by omega)

/-- A new peer with nothing to send keeps the invariant. -/
theorem WF.filled (hw : l.WF) (hw' : m'.WF) (hq : q.WF) (hh : q.peerHandle = h) (hidle : q.pending = false) :
    (Loop.setPeer ⟨m'⟩ h.id q).WF := by
  have hholds := holds_filled hf q
  have hp : Holds ⟨m'⟩ h.id p := (hf.peers h.id).trans (if_pos rfl)
  have hl : (Loop.setPeer ⟨m'⟩ h.id q).peerManager.loop = l.peerManager.loop := hf.loop
  have ht : (Loop.setPeer ⟨m'⟩ h.id q).peerManager.peersToFlush = l.peerManager.peersToFlush := hf.peersToFlush
  refine ⟨setPeer_manager hw' hp q, fun j r hr => ?_, fun j r hr => ?_, fun j r hr hpend => ?_, fun j hj => ?_⟩
  · rw [hholds] at hr
    split_ifs at hr
    · exact hr ▸ hq
    · exact hw.peer_wf j r hr
  · have hv : (Loop.setPeer ⟨m'⟩ h.id q).peerManager.versionAt j = l.peerManager.versionAt j := hf.versionAt_eq j
    rw [hholds] at hr
    rw [hv, hl]
    split_ifs at hr with hj
    · rw [hr, hj, hh, ← hf.version_eq, ← hf.handle_loop]
    · exact hw.handle j r hr
  · rw [hholds] at hr
    rw [ht]
    split_ifs at hr
    · rw [hr, hidle] at hpend
      cases hpend
    · exact hw.flushed j r hr hpend
  · rw [ht] at hj
    have hlt : j < m'.peers.length := by
      by_contra hge
      have hnone := List.getElem?_eq_none (not_lt.mp hge)
      rw [hf.peers, List.getElem?_eq_getElem (hw.ids j hj)] at hnone
      split_ifs at hnone
    simpa [Loop.setPeer] using hlt

end Filled

/-- **`Alloc`.**  The new peer has been given nothing yet. -/
theorem alloc_steps (hw : l.WF) (socket : UsSocket) {capacity : ℕ} (hcap : 0 < capacity) :
    ∃ l' h, l.alloc socket capacity = some (l', h) ∧ Steps l l' (.alloc socket capacity) ∧
      ∃ q, l'.Holds h.id q ∧ q.peerHandle = h ∧ q.isDisconnecting = false ∧
        q.stream = socket.accepted := by
  set p := TcpPeer.ofSocket socket capacity with hpdef
  obtain ⟨m', h, hal, hw', hf⟩ := PeerManager.alloc_spec (h := p.peerHandle) hw.manager p rfl
  set q : TcpPeer := { p with peerHandle := h } with hq
  have hholds := holds_filled hf q
  have hwq : q.WF := ⟨⟨rfl, hcap, le_rfl, Nat.zero_le _, fun _ => rfl⟩, le_rfl, by simp [hq, hpdef, TcpPeer.ofSocket]⟩
  have hidle : q.pending = false := by
    simp [hq, hpdef, TcpPeer.ofSocket, TcpPeer.pending, TcpPeer.hasBufferedSends, TcpPeer.hasQueuedSends]
  have hrun : l.alloc socket capacity = some (Loop.setPeer ⟨m'⟩ h.id q, h) := by
    simp only [Loop.alloc, ← hpdef, hal, Option.bind_eq_bind, Option.bind_some, Option.pure_def, hq]
  refine ⟨Loop.setPeer ⟨m'⟩ h.id q, h, hrun, ⟨hw.filled hf hw' hwq rfl hidle, hf.loop, fun j r hr _ hd => ?_⟩,
    q, (hholds h.id q).mpr (by rw [if_pos rfl]), rfl, rfl, ?_⟩
  · have hne : j ≠ h.id := by
      rintro rfl
      exact not_holds_filled hf r hr
    exact ⟨r, (hholds j r).mpr (by rwa [if_neg hne]), rfl, hd, (List.append_nil _).symm⟩
  · simp [TcpPeer.stream, TcpPeer.out, TcpPeer.accepted, TcpPeer.localRest, TcpPeer.globalRest, hq,
      hpdef, TcpPeer.ofSocket]

/-- **`Release`.** -/
theorem release_steps (hw : l.WF) (hloop : h.loop = some l.peerManager.loop) :
    ∃ l', l.release h = some l' ∧ Steps l l' (.release h) := by
  rcases resolve hw hloop with ⟨p, hp, rfl, -⟩ | ⟨-, hno⟩
  · obtain ⟨m', hrel, hw', hf, -⟩ := PeerManager.release_of_live hw.manager (hw.live hp)
    have hholds : ∀ j r, Holds ⟨m'⟩ j r ↔ j ≠ p.peerHandle.id ∧ l.Holds j r := by
      intro j r
      rw [Holds, hf.peers]
      rcases eq_or_ne j p.peerHandle.id with rfl | hne
      · rw [List.getElem?_set_self hp.lt]
        simp
      · rw [List.getElem?_set_ne hne.symm]
        simp [hne, Holds]
    refine ⟨⟨m'⟩, by simp [Loop.release, hrel], ⟨⟨hw', ?_, ?_, ?_, ?_⟩, hf.loop, ?_⟩⟩
    · intro j r hr
      exact hw.peer_wf j r ((hholds j r).mp hr).2
    · intro j r hr
      obtain ⟨hne, hr⟩ := (hholds j r).mp hr
      simp only [hf.versionAt_eq, if_neg hne, hf.loop]
      exact hw.handle j r hr
    · intro j r hr hpend
      obtain ⟨hne, hr⟩ := (hholds j r).mp hr
      exact (hf.mem_peersToFlush j).mpr ⟨hw.flushed j r hr hpend, hne⟩
    · intro j hj
      simp only [hf.peers, List.length_set]
      exact hw.ids j ((hf.mem_peersToFlush j).mp hj).1
    · intro j r hr hsp hd
      have hne : j ≠ p.peerHandle.id := by
        rintro rfl
        obtain rfl := hp.unique hr
        exact hsp rfl
      exact ⟨r, (hholds j r).mpr ⟨hne, hr⟩, rfl, hd, (List.append_nil _).symm⟩
  · refine ⟨l, ?_, Steps.idle hw (not_holds_of_stale hw hno) fun _ _ => rfl⟩
    simp [Loop.release, PeerManager.release_of_stale hw.manager hloop hno]

end Loop
end ICon7
