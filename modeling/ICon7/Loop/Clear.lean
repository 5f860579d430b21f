/-
# Clearing the manager of a loop

`PeerManager::Clear` empties `peers`, `versions` and `freeIds` and leaves
`perHostOffset` and `peersToFlush` as they are.  A host can go on with the loop
after it: `PeerReferences::Alloc` fills slots from the first one on, with version
`1` again.

The offsets have one entry per slot afterwards, and the old handles stay stale,
only when there was never a slot; the next `FlushPendingPeers` looks up ids of
slots only when nothing was waiting (`clear_iff`).  No operation reads
`perHostOffset` (`step_withOffsets`), so a loop with entries left over behaves
like one that satisfies the invariant (`Padded`).
-/

import ICon7.Host.References
import ICon7.Loop.Flush

namespace ICon7

open Lib

/-- `PeerManager::Clear`. -/
def PeerManager.clear {P : Type} (m : PeerManager P) : PeerManager P :=
  { m with peers := [], versions := [], freeIds := [] }

namespace Loop

variable {l l' : Loop} {h : PeerHandle}

/-- `PeerReferences::Alloc` of a new peer over the socket, by a host with the given peers. -/
def attach (l : Loop) (peers : List TcpPeer) (socket : UsSocket) (capacity : ℕ) :
    Option (Loop × PeerHandle) := do
  let p := TcpPeer.ofSocket socket capacity
  let (peerManager, _, h) ← PeerReferences.alloc l.peerManager peers p p.peerHandle
  return (Loop.setPeer ⟨peerManager⟩ h.id { p with peerHandle := h }, h)

/-- `PeerReferences::Release` by the host of the peer, with the given peers. -/
def detach (l : Loop) (peers : List TcpPeer) (h : PeerHandle) : Option Loop := do
  let (peerManager, _, _) ←
    PeerReferences.release (fun _ => 0) (fun p => p.peerHandle.id) 0 l.peerManager peers h
  return ⟨peerManager⟩

def clear (l : Loop) : Loop := ⟨l.peerManager.clear⟩

/-- A loop with the handles that its allocations have returned. -/
structure Managed where
  loop : Loop
  issued : List PeerHandle := []

namespace Managed

def init (loop : ℕ) : Managed := { loop := Loop.init loop }

/-- One step, made for a host with the given peers. -/
def step (s : Managed) (call : List TcpPeer × Op) : Option Managed := do
  match call with
  | (peers, .alloc socket capacity) =>
    let (loop, h) ← s.loop.attach peers socket capacity
    return ⟨loop, s.issued ++ [h]⟩
  | (peers, .release h) => return ⟨← s.loop.detach peers h, s.issued⟩
  | (_, op) => return ⟨← s.loop.step op, s.issued⟩

/-- A sequence of steps. -/
def run (s : Managed) (calls : List (List TcpPeer × Op)) : Option Managed := calls.foldlM step s

def clear (s : Managed) : Managed := { s with loop := s.loop.clear }

end Managed

/-- What can follow `Clear`: allocating, sending and flushing. -/
def Op.Follows : Op → Prop
  | .alloc _ _ | .send _ _ | .flushPendingPeers => True
  | .release _ | .setFlags _ _ _ _ | .onWritable _ => False

/-- The loop satisfies a property after `Clear` and whatever follows it. -/
def Managed.AfterClear (s : Managed) (good : Loop → Prop) : Prop :=
  ∀ calls : List (List TcpPeer × Op), (∀ call ∈ calls, call.2.Ok s.loop.peerManager.loop ∧ call.2.Follows) →
    ∀ s', s.clear.run calls = some s' → good s'.loop

/-- `FlushPendingPeers` passes all assertions and looks up ids of slots only. -/
def FlushesSlots (l : Loop) : Prop :=
  ∃ l' visited, l.flushPendingPeers = some (l', visited) ∧ ∀ i ∈ visited, i < l.peerManager.peers.length

/-- The loop with other offsets. -/
def withOffsets (l : Loop) (offsets : List ℤ) : Loop :=
  ⟨{ l.peerManager with perHostOffset := offsets }⟩

section Frame

variable (offsets : List ℤ)

theorem removePeerToFlush_withOffsets (i : ℕ) :
    (l.withOffsets offsets).removePeerToFlush i = (l.removePeerToFlush i).map (withOffsets · offsets) := by
  simp only [removePeerToFlush, withOffsets, Option.bind_eq_bind, Option.pure_def]
  cases l.peerManager.peersToFlush.removePeerToFlush i <;> rfl

theorem visit_withOffsets (i : ℕ) :
    (l.withOffsets offsets).visit i = (l.visit i).map (withOffsets · offsets) := by
  have hget : (l.withOffsets offsets).peerManager.getLocalPeerDataValid i =
    l.peerManager.getLocalPeerDataValid i := rfl
  simp only [visit, hget, Option.bind_eq_bind]
  rcases l.peerManager.getLocalPeerDataValid i with _ | _ | p
  · rfl
  · exact removePeerToFlush_withOffsets offsets i
  · simp only [Option.bind_some, visitPeer, Option.bind_eq_bind, Option.pure_def]
    cases flushPeer p with
    | none => rfl
    | some q =>
      simp only [Option.bind_some]
      split_ifs
      · exact removePeerToFlush_withOffsets (l := l.setPeer i q) offsets i
      · rfl

theorem flushLoop_withOffsets (n : ℕ) (l : Loop) :
    flushLoop n (l.withOffsets offsets) =
      (flushLoop n l).map fun r => (r.1.withOffsets offsets, r.2) := by
  induction n generalizing l with
  | zero => rfl
  | succ n ih =>
    have hids : (l.withOffsets offsets).peerManager.peersToFlush = l.peerManager.peersToFlush := rfl
    simp only [flushLoop, hids, Option.bind_eq_bind, Option.pure_def]
    cases l.peerManager.peersToFlush.peers[n]? with
    | none => rfl
    | some i =>
      simp only [Option.bind_some, visit_withOffsets]
      cases l.visit i with
      | none => rfl
      | some l₁ =>
        simp only [Option.map_some, Option.bind_some, ih]
        cases flushLoop n l₁ <;> rfl

theorem flushPendingPeers_withOffsets :
    (l.withOffsets offsets).flushPendingPeers =
      l.flushPendingPeers.map fun r => (r.1.withOffsets offsets, r.2) :=
  flushLoop_withOffsets offsets _ l

theorem insertPeerToFlush_withOffsets :
    (l.withOffsets offsets).insertPeerToFlush h = (l.insertPeerToFlush h).map (withOffsets · offsets) := by
  have hget : (l.withOffsets offsets).peerManager.getLocalPeerData h =
    l.peerManager.getLocalPeerData h := rfl
  simp only [insertPeerToFlush, hget, Option.bind_eq_bind]
  rcases l.peerManager.getLocalPeerData h with _ | _ | p
  · rfl
  · rfl
  · simp only [Option.bind_some]
    split_ifs <;> rfl

theorem send_withOffsets (frame : List UInt8) :
    (l.withOffsets offsets).send h frame = (l.send h frame).map (withOffsets · offsets) := by
  have hget : (l.withOffsets offsets).peerManager.getLocalPeerData h =
    l.peerManager.getLocalPeerData h := rfl
  simp only [send, hget, Option.bind_eq_bind]
  rcases l.peerManager.getLocalPeerData h with _ | _ | p
  · rfl
  · rfl
  · simp only [Option.bind_some, sendPeer, insertPeerToFlush_withOffsets, Option.bind_eq_bind]
    split_ifs
    · rfl
    · cases l.insertPeerToFlush p.peerHandle <;> rfl
    · rfl

/-- **No operation reads the offsets,** and only an allocation changes them. -/
theorem step_withOffsets {op : Op} (hno : ∀ socket capacity, op ≠ .alloc socket capacity) :
    (l.withOffsets offsets).step op = (l.step op).map (withOffsets · offsets) := by
  have hget (h : PeerHandle) : (l.withOffsets offsets).peerManager.getLocalPeerData h =
    l.peerManager.getLocalPeerData h := rfl
  cases op with
  | alloc socket capacity => exact absurd rfl (hno socket capacity)
  | release h =>
    have hex : (l.withOffsets offsets).peerManager.existsLocal h = l.peerManager.existsLocal h := rfl
    have hids : (l.withOffsets offsets).peerManager.peersToFlush = l.peerManager.peersToFlush := rfl
    simp only [step, release, PeerManager.release, hex, hids, Option.bind_eq_bind, Option.pure_def]
    rcases l.peerManager.existsLocal h with _ | _ | _
    · rfl
    · rfl
    · simp only [Option.bind_some, Bool.true_eq_false, if_false, withOffsets]
      cases l.peerManager.peers[h.id]? <;> cases l.peerManager.versions[h.id]? <;>
        cases l.peerManager.peersToFlush.removePeerToFlush h.id <;> rfl
  | setFlags h ready disconnecting closed =>
    simp only [step, setFlags, hget, Option.bind_eq_bind]
    rcases l.peerManager.getLocalPeerData h with _ | _ | p <;> rfl
  | send h frame => exact send_withOffsets offsets frame
  | onWritable h =>
    simp only [step, onWritable, hget, Option.bind_eq_bind]
    rcases l.peerManager.getLocalPeerData h with _ | _ | p
    · rfl
    · rfl
    · simp only [Option.bind_some]
      cases p.onWritable <;> rfl
  | flushPendingPeers =>
    simp only [step, flushPendingPeers_withOffsets, Option.map_map]
    rfl

/-- What `Alloc` does: the last free slot is filled, or a new one is made. -/
theorem alloc_cases {m m' : PeerManager TcpPeer} {p : TcpPeer} {g : PeerHandle}
    (hal : m.alloc p g = some (m', h)) :
    (∃ id version, m.freeIds.getLast? = some id ∧ h = ⟨id, version, some m.loop⟩ ∧
      m' = { m with freeIds := m.freeIds.dropLast, peers := m.peers.set id (some p) } ∧
      ∀ offsets, PeerManager.alloc { m with perHostOffset := offsets } p g =
        some ({ m' with perHostOffset := offsets }, h)) ∨
    (m.freeIds = [] ∧ h = ⟨m.peers.length, 1, some m.loop⟩ ∧
      m' = { m with
        peers := m.peers ++ [some p]
        versions := m.versions ++ [1]
        perHostOffset := m.perHostOffset ++ [-1] } ∧
      ∀ offsets, PeerManager.alloc { m with perHostOffset := offsets } p g =
        some ({ m' with perHostOffset := offsets ++ [-1] }, h)) := by
  unfold PeerManager.alloc at hal ⊢
  simp only [Option.bind_eq_bind, Option.bind_eq_some_iff, Option.guard_eq_some'] at hal
  obtain ⟨-, hg, hal⟩ := hal
  cases hlast : m.freeIds.getLast? with
  | some id =>
    left
    simp only [hlast, Option.bind_eq_some_iff, Option.guard_eq_some', Option.pure_def, Option.some.injEq,
      Prod.mk.injEq] at hal
    obtain ⟨version, hver, slot, hslot, -, ⟨hempty, hver0⟩, rfl, rfl⟩ := hal
    obtain rfl := Option.isNone_iff_eq_none.mp hempty
    refine ⟨id, version, rfl, rfl, rfl, fun offsets => ?_⟩
    simp [guard, hg, hlast, hver, hslot, hver0]
  | none =>
    right
    simp only [hlast, Option.pure_def, Option.some.injEq, Prod.mk.injEq] at hal
    obtain ⟨rfl, rfl⟩ := hal
    refine ⟨List.getLast?_eq_none_iff.mp hlast, rfl, rfl, fun offsets => ?_⟩
    simp [guard, hg, hlast]

end Frame

/-- `Alloc` only appends to the offsets. -/
theorem alloc_withOffsets {m m' : PeerManager TcpPeer} {p : TcpPeer} {g : PeerHandle}
    (hal : m.alloc p g = some (m', h)) :
    ∃ new : List ℤ, m'.perHostOffset = m.perHostOffset ++ new ∧
      ∀ offsets, PeerManager.alloc { m with perHostOffset := offsets } p g =
        some ({ m' with perHostOffset := offsets ++ new }, h) := by
  obtain ⟨id, version, -, -, rfl, hrun⟩ | ⟨-, -, rfl, hrun⟩ := alloc_cases hal
  · exact ⟨[], (List.append_nil _).symm, fun offsets => by rw [List.append_nil]; exact hrun offsets⟩
  · exact ⟨[-1], rfl, hrun⟩

/-- The loop satisfies the invariant but for some entries too many of `perHostOffset`. -/
def Padded (loop extra : ℕ) (l : Loop) : Prop :=
  ∃ b : Loop, b.WF ∧ b.peerManager.loop = loop ∧
    ∃ offsets : List ℤ, offsets.length = b.peerManager.peers.length + extra ∧ l = b.withOffsets offsets

variable {loop extra : ℕ}

theorem Padded.offsets_length (hl : Padded loop extra l) :
    l.peerManager.perHostOffset.length = l.peerManager.peers.length + extra := by
  obtain ⟨b, -, -, offsets, hlen, rfl⟩ := hl
  exact hlen

theorem Padded.loop_eq (hl : Padded loop extra l) : l.peerManager.loop = loop := by
  obtain ⟨b, -, hb, offsets, -, rfl⟩ := hl
  exact hb

/-- **`FlushPendingPeers`** looks up ids of slots. -/
theorem Padded.flushesSlots (hl : Padded loop extra l) : l.FlushesSlots := by
  obtain ⟨b, hw, -, offsets, -, rfl⟩ := hl
  obtain ⟨b', hrun, -, -⟩ := flushPendingPeers_spec hw
  refine ⟨b'.withOffsets offsets, _, by rw [flushPendingPeers_withOffsets, hrun]; rfl, fun i hi => ?_⟩
  exact hw.ids i (List.mem_reverse.mp hi)

/-- **`PeerReferences::Alloc`** keeps the number of entries too many, and the first slot has
version `1`. -/
theorem Padded.attach (hl : Padded loop extra l) (peers : List TcpPeer) (socket : UsSocket)
    {capacity : ℕ} (hcap : 0 < capacity) :
    ∃ (l' : Loop) (h : PeerHandle), l.attach peers socket capacity = some (l', h) ∧ Padded loop extra l' ∧
      l'.peerManager.peers ≠ [] ∧ (l.peerManager.peers = [] → h = ⟨0, 1, some loop⟩) := by
  obtain ⟨b, hw, hb, offsets, hlen, rfl⟩ := hl
  obtain ⟨b', h, hal, hs, q, hq, -⟩ := alloc_steps hw socket hcap
  have hid := hq.lt
  have hoff := hw.manager.perHostOffset_length
  have hoff' := hs.wf.manager.perHostOffset_length
  have hloop := hs.loop
  simp only [Loop.alloc, Option.bind_eq_bind, Option.bind_eq_some_iff, Option.pure_def,
    Option.some.injEq, Prod.mk.injEq, Prod.exists] at hal
  obtain ⟨m', h', hal, rfl, rfl⟩ := hal
  obtain ⟨new, hnew, hrun⟩ := alloc_withOffsets hal
  have hlen' : (offsets ++ new).length = (m'.peers.set h'.id (some q)).length + extra := by
    simp only [Loop.setPeer, hnew, List.length_append, List.length_set] at hoff' ⊢
    omega
  have hlt : h'.id < (offsets ++ new).length := by
    simp only [Loop.setPeer, List.length_set] at hid hlen'
    omega
  refine ⟨_, h', ?_, ⟨_, hs.wf, hloop.trans hb, (offsets ++ new).set h'.id peers.length, ?_, rfl⟩,
    List.ne_nil_of_length_pos (Nat.zero_lt_of_lt hid), fun hnil => ?_⟩
  · simp only [Loop.attach, PeerReferences.alloc, withOffsets, hrun, Option.bind_eq_bind, Option.bind_some,
      Option.pure_def, guard, if_pos hlt]
    rfl
  · simpa [Loop.setPeer] using hlen'
  · have hnil : b.peerManager.peers = [] := hnil
    obtain ⟨id, version, hlast, -⟩ | ⟨-, hh, -⟩ := alloc_cases hal
    · have hfree := (hw.manager.mem_freeIds id).mp (List.mem_of_getLast? hlast)
      simp [hnil] at hfree
    · rw [hh, hnil, hb]
      rfl

theorem step_offsets {op : Op} (hno : ∀ socket capacity, op ≠ .alloc socket capacity)
    (hstep : l.step op = some l') : l'.peerManager.perHostOffset = l.peerManager.perHostOffset := by
  have hsame := step_withOffsets (l := l) l.peerManager.perHostOffset hno
  rw [show l.withOffsets l.peerManager.perHostOffset = l from rfl, hstep, Option.map_some,
    Option.some.injEq] at hsame
  rw [hsame]
  rfl

/-- **Every other operation** keeps the offsets. -/
theorem Padded.step (hl : Padded loop extra l) {op : Op} (hok : op.Ok loop)
    (hno : ∀ socket capacity, op ≠ .alloc socket capacity) :
    ∃ l', l.step op = some l' ∧ Padded loop extra l' := by
  obtain ⟨b, hw, rfl, offsets, hlen, rfl⟩ := hl
  obtain ⟨b', hrun, hs⟩ := step_steps hw hok
  have hkept := congrArg List.length (step_offsets hno hrun)
  rw [hw.manager.perHostOffset_length, hs.wf.manager.perHostOffset_length] at hkept
  refine ⟨b'.withOffsets offsets, by rw [step_withOffsets offsets hno, hrun]; rfl, b', hs.wf, hs.loop,
    offsets, ?_, rfl⟩
  rw [hlen, hkept]

theorem removeAt_offsets {m m' : PeerManager TcpPeer} {idOf : TcpPeer → ℕ} {peers peers' : List TcpPeer}
    {off : ℤ} (hrem : PeerReferences.removeAt idOf m peers off = some (m', peers')) :
    ∃ offsets : List ℤ, offsets.length = m.perHostOffset.length ∧
      m' = { m with perHostOffset := offsets } := by
  simp only [PeerReferences.removeAt, Option.bind_eq_bind, Option.bind_eq_some_iff] at hrem
  obtain ⟨last, -, hrem⟩ := hrem
  split_ifs at hrem
  · simp only [Option.bind_eq_some_iff, Option.guard_eq_some', Option.pure_def, Option.some.injEq,
      Prod.mk.injEq] at hrem
    obtain ⟨-, -, rfl, -⟩ := hrem
    exact ⟨_, List.length_set, rfl⟩
  · simp only [Option.pure_def, Option.some.injEq, Prod.mk.injEq] at hrem
    obtain ⟨rfl, -⟩ := hrem
    exact ⟨_, rfl, rfl⟩

/-- `PeerReferences::Release` is `Release` and a change of offsets. -/
theorem detach_cases {peers : List TcpPeer} (hdet : l.detach peers h = some l') :
    ∃ l₁ : Loop, l.release h = some l₁ ∧ ∃ offsets : List ℤ,
      offsets.length = l₁.peerManager.perHostOffset.length ∧ l' = l₁.withOffsets offsets := by
  simp only [detach, PeerReferences.release, Option.bind_eq_bind, Option.bind_eq_some_iff, Option.pure_def,
    Option.some.injEq, Prod.exists] at hdet
  obtain ⟨m', peers', data', ⟨m₁, data, hrel, hdet⟩, rfl⟩ := hdet
  refine ⟨⟨m₁⟩, by simp [Loop.release, hrel], ?_⟩
  cases data with
  | none =>
    simp only [Option.some.injEq, Prod.mk.injEq] at hdet
    obtain ⟨rfl, -⟩ := hdet
    exact ⟨_, rfl, rfl⟩
  | some data =>
    simp only [Option.bind_eq_some_iff, Option.guard_eq_some', Option.some.injEq, Prod.mk.injEq,
      Prod.exists] at hdet
    obtain ⟨-, -, off, -, m₂, peers₂, hrem, rfl, -⟩ := hdet
    obtain ⟨offsets, hlen, rfl⟩ := removeAt_offsets hrem
    exact ⟨offsets, hlen.trans List.length_set, rfl⟩

/-- **`PeerReferences::Release`** keeps the number of offsets. -/
theorem Padded.detach (hl : Padded loop extra l) {peers : List TcpPeer} (hloop : h.loop = some loop)
    (hdet : l.detach peers h = some l') :
    Padded loop extra l' ∧ l'.peerManager.perHostOffset.length = l.peerManager.perHostOffset.length := by
  obtain ⟨l₁, hrel, offsets, hlen, rfl⟩ := detach_cases hdet
  have hok : Op.Ok loop (.release h) := hloop
  obtain ⟨l₂, hstep, b, hw, hb, offsets', hlen', rfl⟩ := hl.step hok fun _ _ heq => Op.noConfusion heq
  obtain rfl := Option.some.inj (hrel.symm.trans hstep)
  refine ⟨⟨b, hw, hb, offsets, hlen.trans hlen', rfl⟩, hlen.trans ?_⟩
  rw [step_offsets (fun _ _ heq => Op.noConfusion heq) hstep]

/-- `Clear` leaves an entry for every slot that there was, when no peer was waiting. -/
theorem Padded.clear (hl : Padded loop 0 l) (hidle : l.peerManager.peersToFlush.peers = []) :
    Padded loop l.peerManager.peers.length l.clear := by
  obtain ⟨b, hw, hb, offsets, hlen, rfl⟩ := hl
  refine ⟨⟨{ loop := b.peerManager.loop, peersToFlush := b.peerManager.peersToFlush }⟩, ?_, hb, offsets, ?_, rfl⟩
  · refine ⟨⟨rfl, rfl, List.nodup_nil, fun i => ?_, fun i v hv => ?_, hw.manager.peersToFlush⟩,
      fun i p hp => ?_, fun i p hp => ?_, fun i p hp => ?_, fun i hi => ?_⟩
    · simp
    · simp at hv
    · simp [Holds] at hp
    · simp [Holds] at hp
    · simp [Holds] at hp
    · rw [show b.peerManager.peersToFlush.peers = [] from hidle] at hi
      simp at hi
  · rw [hlen]
    exact Nat.add_comm _ _

/-- Nothing waits in a loop without slots. -/
theorem Padded.idle_of_nil (hl : Padded loop extra l) (hnil : l.peerManager.peers = []) :
    l.peerManager.peersToFlush.peers = [] := by
  obtain ⟨b, hw, -, offsets, -, rfl⟩ := hl
  refine List.eq_nil_iff_forall_not_mem.mpr fun i hi => ?_
  have hlt := hw.ids i hi
  rw [show b.peerManager.peers = [] from hnil] at hlt
  exact Nat.not_lt_zero i hlt

namespace Managed

variable {s s' : Managed} {call : List TcpPeer × Op}

/-- What one step does: it allocates, or keeps the handles and the number of offsets. -/
theorem step_cases (hs : Padded loop extra s.loop) (hok : call.2.Ok loop) (hstep : s.step call = some s') :
    Padded loop extra s'.loop ∧
      ((s'.issued = s.issued ∧
        s'.loop.peerManager.perHostOffset.length = s.loop.peerManager.perHostOffset.length) ∨
       ∃ h, s'.issued = s.issued ++ [h] ∧ s'.loop.peerManager.peers ≠ [] ∧
        (s.loop.peerManager.peers = [] → h = ⟨0, 1, some loop⟩)) := by
  obtain ⟨peers, op⟩ := call
  -- the operations that do not concern the hosts
  have hrest (hno : ∀ socket capacity, op ≠ .alloc socket capacity)
      (hstep : (s.loop.step op).bind (fun l => some ⟨l, s.issued⟩) = some s') :
      Padded loop extra s'.loop ∧ s'.issued = s.issued ∧
        s'.loop.peerManager.perHostOffset.length = s.loop.peerManager.perHostOffset.length := by
    obtain ⟨l', hrun, hl'⟩ := hs.step hok hno
    have hoff := step_offsets hno hrun
    rw [hrun] at hstep
    obtain rfl := Option.some.inj hstep
    exact ⟨hl', rfl, by rw [hoff]⟩
  cases op with
  | alloc socket capacity =>
    obtain ⟨l', h, hatt, hl', hne, hfirst⟩ := hs.attach peers socket hok
    simp only [step, hatt] at hstep
    obtain rfl := Option.some.inj hstep
    exact ⟨hl', .inr ⟨h, rfl, hne, hfirst⟩⟩
  | release h =>
    simp only [step, Option.bind_eq_bind, Option.bind_eq_some_iff, Option.pure_def, Option.some.injEq] at hstep
    obtain ⟨l', hdet, rfl⟩ := hstep
    obtain ⟨hl', hlen⟩ := hs.detach hok hdet
    exact ⟨hl', .inl ⟨rfl, hlen⟩⟩
  | setFlags h ready disconnecting closed =>
    exact (hrest (fun _ _ heq => Op.noConfusion heq) hstep).imp_right .inl
  | send h frame => exact (hrest (fun _ _ heq => Op.noConfusion heq) hstep).imp_right .inl
  | onWritable h => exact (hrest (fun _ _ heq => Op.noConfusion heq) hstep).imp_right .inl
  | flushPendingPeers => exact (hrest (fun _ _ heq => Op.noConfusion heq) hstep).imp_right .inl

theorem run_padded (calls : List (List TcpPeer × Op)) (hs : Padded loop extra s.loop)
    (hok : ∀ call ∈ calls, call.2.Ok loop) (hrun : s.run calls = some s') : Padded loop extra s'.loop :=
  run_invariant_along (I := fun s : Managed => Padded loop extra s.loop)
    (fun _ _ _ hs hok hstep => (step_cases hs hok hstep).1) calls hs (Along.of_forall_mem s hok) hrun

/-- The first handle has been issued once there is a slot, and none before. -/
structure Inv (loop : ℕ) (s : Managed) : Prop where
  padded : Padded loop 0 s.loop
  none_issued : s.loop.peerManager.peers = [] → s.issued = []
  first_issued : s.loop.peerManager.peers ≠ [] → ⟨0, 1, some loop⟩ ∈ s.issued

theorem step_inv (hs : s.Inv loop) (hok : call.2.Ok loop) (hstep : s.step call = some s') : s'.Inv loop := by
  obtain ⟨hl', ⟨hissued, hlen⟩ | ⟨h, hissued, hne, hfirst⟩⟩ := step_cases hs.padded hok hstep
  · have hnil : s'.loop.peerManager.peers = [] ↔ s.loop.peerManager.peers = [] := by
      rw [hl'.offsets_length, hs.padded.offsets_length] at hlen
      rw [← List.length_eq_zero_iff, ← List.length_eq_zero_iff]
      omega
    exact ⟨hl', fun h => hissued ▸ hs.none_issued (hnil.mp h),
      fun h => hissued ▸ hs.first_issued (mt hnil.mpr h)⟩
  · refine ⟨hl', fun hnil => absurd hnil hne, fun _ => ?_⟩
    rw [hissued, List.mem_append, List.mem_singleton]
    by_cases hnil : s.loop.peerManager.peers = []
    · exact .inr (hfirst hnil).symm
    · exact .inl (hs.first_issued hnil)

theorem run_inv {calls : List (List TcpPeer × Op)} (hok : ∀ call ∈ calls, call.2.Ok loop)
    (hrun : (init loop).run calls = some s) : s.Inv loop := by
  refine run_invariant_along (I := Inv loop) (fun _ _ _ hs hok hstep => step_inv hs hok hstep) calls ?_
    (Along.of_forall_mem _ hok) hrun
  exact ⟨⟨Loop.init loop, init_wf loop, rfl, [], rfl, rfl⟩, fun _ => rfl, fun hne => absurd rfl hne⟩

/-- The ids that wait are looked up in a manager without slots. -/
theorem idle_of_flushesSlots (hflush : s.clear.loop.FlushesSlots) :
    s.loop.peerManager.peersToFlush.peers = [] := by
  obtain ⟨l', visited, hrun, -⟩ := hflush
  rcases List.eq_nil_or_concat' s.loop.peerManager.peersToFlush.peers with hnil | ⟨ids, i, hids⟩
  · exact hnil
  · have hlen : s.clear.loop.peerManager.peersToFlush.peers.length = ids.length + 1 := by
      simp [clear, Loop.clear, PeerManager.clear, hids]
    have hlast : s.clear.loop.peerManager.peersToFlush.peers[ids.length]? = some i := by
      simp [clear, Loop.clear, PeerManager.clear, hids]
    have hvisit : s.clear.loop.visit i = none := rfl
    rw [flushPendingPeers, hlen, flushLoop, hlast, Option.bind_eq_bind, Option.bind_some, hvisit] at hrun
    cases hrun

/-- After `Clear` the first allocation returns the first handle again. -/
theorem attach_clear (s : Managed) (socket : UsSocket) (capacity : ℕ) :
    ∃ (l : Loop) (p : TcpPeer),
      s.clear.loop.attach [] socket capacity = some (l, ⟨0, 1, some s.loop.peerManager.loop⟩) ∧
      l.peerManager.getLocalPeerData ⟨0, 1, some s.loop.peerManager.loop⟩ = some (some p) := by
  have hpush : 0 < (s.loop.peerManager.perHostOffset ++ [-1]).length := by simp
  set p : TcpPeer :=
    { TcpPeer.ofSocket socket capacity with peerHandle := ⟨0, 1, some s.loop.peerManager.loop⟩ } with hp
  refine ⟨⟨{
    peers := [some p]
    versions := [1]
    perHostOffset := (s.loop.peerManager.perHostOffset ++ [-1]).set 0 0
    peersToFlush := s.loop.peerManager.peersToFlush
    loop := s.loop.peerManager.loop }⟩, p, ?_, ?_⟩
  · have hnew : (TcpPeer.ofSocket socket capacity).peerHandle.toBool = false := rfl
    simp only [attach, PeerReferences.alloc, PeerManager.alloc, clear, Loop.clear, PeerManager.clear, guard,
      hnew, if_true, List.getLast?_nil, List.length_nil, if_pos hpush, Option.bind_eq_bind, Option.bind_some,
      Option.pure_def]
    rfl
  · simp [PeerManager.getLocalPeerData, PeerManager.existsLocal, guard]

end Managed

/-- **`Clear` and the slots.**  After `Clear`, whatever is allocated, sent and flushed then:
the offsets have one entry per slot exactly if there was never a slot, flushing looks up ids of
slots exactly if no peer was waiting, and the handles from before resolve to nothing exactly
if there was never a slot. -/
theorem clear_iff {calls : List (List TcpPeer × Op)} {s : Managed} (hok : ∀ call ∈ calls, call.2.Ok loop)
    (hrun : (Managed.init loop).run calls = some s) :
    (s.AfterClear (fun l => l.peerManager.perHostOffset.length = l.peerManager.peers.length) ↔
      s.loop.peerManager.peers = []) ∧
    (s.AfterClear FlushesSlots ↔ s.loop.peerManager.peersToFlush.peers = []) ∧
    (s.AfterClear (fun l => ∀ h ∈ s.issued, ∀ p, l.peerManager.getLocalPeerData h ≠ some (some p)) ↔
      s.loop.peerManager.peers = []) := by
  have hs := Managed.run_inv hok hrun
  have hloop := hs.padded.loop_eq
  refine ⟨⟨fun hafter => ?_, fun hnil => ?_⟩, ⟨fun hafter => ?_, fun hidle => ?_⟩,
    ⟨fun hafter => ?_, fun hnil => ?_⟩⟩
  · have hlen : s.loop.peerManager.perHostOffset.length = 0 := hafter [] (by simp) s.clear rfl
    rw [hs.padded.offsets_length] at hlen
    exact List.length_eq_zero_iff.mp hlen
  · intro later hlater s' hrun'
    have hclear := hs.padded.clear (hs.padded.idle_of_nil hnil)
    rw [hnil] at hclear
    exact (Managed.run_padded later hclear (fun call hc => hloop ▸ (hlater call hc).1) hrun').offsets_length
  · exact Managed.idle_of_flushesSlots (hafter [] (by simp) s.clear rfl)
  · intro later hlater s' hrun'
    have hclear := hs.padded.clear hidle
    exact (Managed.run_padded later hclear (fun call hc => hloop ▸ (hlater call hc).1) hrun').flushesSlots
  · by_contra hne
    obtain ⟨l, p, hatt, hget⟩ := Managed.attach_clear s slowSocket 8
    refine hafter [([], .alloc slowSocket 8)] ?_ ⟨l, s.issued ++ [⟨0, 1, some s.loop.peerManager.loop⟩]⟩ ?_
      ⟨0, 1, some loop⟩ (hs.first_issued hne) p (hloop ▸ hget)
    · simp [Op.Ok, Op.Follows]
    · simp only [Managed.run, List.foldlM_cons, List.foldlM_nil, Managed.step, hatt, Option.bind_eq_bind,
        Option.bind_some, Option.pure_def]
      rfl
  · intro later _ s' _ h hh
    rw [hs.none_issued hnil] at hh
    simp at hh

/-- A peer with nothing to send: flushing after `Clear` is safe, the offsets are not in step. -/
theorem clear_iff_idle :
    ∃ s : Managed, (Managed.init 0).run [([], .alloc slowSocket 8)] = some s ∧ s.AfterClear FlushesSlots ∧
      ¬s.AfterClear fun l => l.peerManager.perHostOffset.length = l.peerManager.peers.length := by
  obtain ⟨s, hrun, hpeers, hidle⟩ : ∃ s : Managed, (Managed.init 0).run [([], .alloc slowSocket 8)] = some s ∧
      s.loop.peerManager.peers ≠ [] ∧ s.loop.peerManager.peersToFlush.peers = [] :=
    ⟨_, rfl, List.cons_ne_nil _ _, rfl⟩
  obtain ⟨hoffsets, hflush, -⟩ := clear_iff (by simp [Op.Ok]) hrun
  exact ⟨s, hrun, hflush.mpr hidle, mt hoffsets.mp hpeers⟩

/-- One peer that waits to be flushed: after `Clear` there is an offset without a slot, the next
flush fails the assertion of `GetLocalPeerDataValid`, and the next allocation returns the
handle of the first peer, which resolves to the second. -/
theorem clear_forgets :
    ∃ (s : Managed) (l : Loop) (h : PeerHandle) (p : TcpPeer),
      (Managed.init 0).run [([], .alloc slowSocket 8), ([], .send ⟨0, 1, some 0⟩ [1])] = some s ∧
      s.clear.loop.peerManager.perHostOffset.length = 1 ∧ s.clear.loop.peerManager.peers.length = 0 ∧
      s.clear.loop.flushPendingPeers = none ∧ s.clear.loop.attach [] slowSocket 8 = some (l, h) ∧
      h ∈ s.issued ∧ l.peerManager.getLocalPeerData h = some (some p) := by
  refine ⟨_, _, _, _, rfl, rfl, rfl, rfl, rfl, ?_, rfl⟩
  exact List.mem_singleton_self _

end Loop
end ICon7
