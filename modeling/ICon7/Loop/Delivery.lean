/-
# The integrity of outgoing streams

A tcp peer is allocated on a loop on which anything may have happened, and is
then sent frames, made writable and flushed, while the other peers of the loop
live their own lives.  At every point the bytes its socket has taken, the bytes
in its write buffer, and what is left of the frames in its two queues are the
frames it was sent, in order: no byte is lost, repeated or reordered, whatever
the sockets answer (`run_stream`).
-/

import ICon7.Loop.Flush

namespace ICon7
namespace Loop

open Lib

variable {l l₀ l₁ : Loop} {i : ℕ} {p : TcpPeer} {h : PeerHandle}

/-- **A run** that spares a peer extends its stream by what the run gave to it. -/
theorem run_peer (ops : List Op) (hw : l.WF) (hok : ∀ op ∈ ops, op.Ok l.peerManager.loop)
    (hp : l.Holds i p) (hspare : ∀ op ∈ ops, op.Spares p.peerHandle)
    (hd : p.isDisconnecting = false) :
    ∃ l' p', l.run ops = some l' ∧ l'.WF ∧ l'.Holds i p' ∧ p'.peerHandle = p.peerHandle ∧
      p'.stream = p.stream ++ (ops.map (Op.bytesTo p.peerHandle)).flatten := by
  induction ops generalizing l p with
  | nil => exact ⟨l, p, rfl, hw, hp, rfl, (List.append_nil _).symm⟩
  | cons op ops ih =>
    obtain ⟨l₁, hstep, hs⟩ := step_steps hw (hok op List.mem_cons_self)
    obtain ⟨p₁, hp₁, hh₁, hd₁, hs₁⟩ := hs.peer i p hp (hspare op List.mem_cons_self) hd
    obtain ⟨l', p', hrun, hw', hp', hh', hs'⟩ := ih hs.wf
      (fun o ho => by rw [hs.loop]; exact hok o (List.mem_cons_of_mem _ ho)) hp₁
      (fun o ho => by rw [hh₁]; exact hspare o (List.mem_cons_of_mem _ ho)) hd₁
    refine ⟨l', p', foldlM_cons_eq_some.mpr ⟨l₁, hstep, hrun⟩, hw', hp', hh'.trans hh₁, ?_⟩
    rw [hs', hs₁, hh₁, List.map_cons, List.flatten_cons, List.append_assoc]

/-- **Outgoing stream integrity.**  Whatever happened on the loop before, a tcp peer is
allocated over a socket that has taken nothing yet.  After every sequence of operations that
does not release it or make it disconnecting, every operation has returned, and the bytes
its socket has taken, `writeBuffer` from `writeBufferOffset` on, the frames of `localQueue`
from `localQueueOffset` on, each from its `bytesSent` on, and the frames of `globalQueue`
are the frames sent to the peer, in order. -/
theorem run_stream (loop : ℕ) (before : List Op) (hbefore : ∀ op ∈ before, op.Ok loop)
    (hrun₀ : (init loop).run before = some l₀) (socket : UsSocket) (hnew : socket.accepted = [])
    {capacity : ℕ} (hcap : 0 < capacity) (halloc : l₀.alloc socket capacity = some (l₁, h))
    (ops : List Op) (hok : ∀ op ∈ ops, op.Ok loop) (hspare : ∀ op ∈ ops, op.Spares h) :
    ∃ l p, l₁.run ops = some l ∧ l.peerManager.getLocalPeerData h = some (some p) ∧
      p.accepted ++ p.writeBuffer.drop p.writeBufferOffset ++
        ((p.localQueue.drop p.localQueueOffset).map fun f => f.data.drop f.bytesSent).flatten ++
        (p.globalQueue.map fun f => f.data).flatten = (ops.map (Op.bytesTo h)).flatten := by
  obtain ⟨l₀', hrun, hw₀, hloop⟩ := run_wf loop before hbefore
  obtain rfl : l₀ = l₀' := Option.some.inj (hrun₀.symm.trans hrun)
  obtain ⟨l₁', h', halloc', hs, q, hq, rfl, hd, hstream⟩ := alloc_steps hw₀ socket hcap
  obtain ⟨rfl, rfl⟩ := Prod.mk.inj (Option.some.inj (halloc.symm.trans halloc'))
  obtain ⟨l, p, hrun', hw, hp, hh, hout⟩ := run_peer ops hs.wf
    (by rw [hs.loop, hloop]; exact hok) hq hspare hd
  refine ⟨l, p, hrun', ?_, ?_⟩
  · rw [← hh]
    exact PeerManager.getLocalPeerData_of_live hw.manager (hw.live hp)
  · rw [hstream, hnew, List.nil_append] at hout
    exact hout

/-- A peer with a write buffer of four bytes is sent two frames over a slow socket. -/
theorem run_stream_slow :
    ∃ l₁ l p, (init 0).alloc slowSocket 4 = some (l₁, ⟨0, 1, some 0⟩) ∧
      l₁.run [.setFlags ⟨0, 1, some 0⟩ true false false, .send ⟨0, 1, some 0⟩ [1, 2, 3],
        .send ⟨0, 1, some 0⟩ [4, 5], .onWritable ⟨0, 1, some 0⟩, .flushPendingPeers] = some l ∧
      l.peerManager.getLocalPeerData ⟨0, 1, some 0⟩ = some (some p) ∧
      p.accepted ++ p.writeBuffer.drop p.writeBufferOffset ++
        ((p.localQueue.drop p.localQueueOffset).map fun f => f.data.drop f.bytesSent).flatten ++
        (p.globalQueue.map fun f => f.data).flatten = [1, 2, 3, 4, 5] := by
  obtain ⟨l, p, hrun, hget, hstream⟩ := run_stream (h := ⟨0, 1, some 0⟩) 0 [] (by simp) rfl
    slowSocket rfl (by decide : 0 < 4) rfl
    [.setFlags ⟨0, 1, some 0⟩ true false false, .send ⟨0, 1, some 0⟩ [1, 2, 3],
      .send ⟨0, 1, some 0⟩ [4, 5], .onWritable ⟨0, 1, some 0⟩, .flushPendingPeers]
    (by simp [Op.Ok]) (by simp [Op.Spares])
  exact ⟨_, l, p, rfl, hrun, hget, hstream⟩

end Loop
end ICon7
