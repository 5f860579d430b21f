/-
# Flushing empties the queues

Each pass of `Loop::FlushPendingPeers` gives every pending peer one writable event, whatever
place its id has in `peersToFlush` and whatever ids leave the list during the pass
(`flushPendingPeers_peer`).  Over a socket that takes at least a byte at a time such an event
lowers the backlog of its peer, so that after as many passes everything has been handed over
and the id has left the list (`flush_drains`).
-/

import ICon7.Loop.Flush
import ICon7.Peer.Progress

namespace ICon7
namespace Loop

open Lib

variable {l l' : Loop} {i : ℕ} {p q : TcpPeer}

/-- Removing an id leaves the peers alone. -/
theorem removePeerToFlush_peers (h : l.removePeerToFlush i = some l') :
    l'.peerManager.peers = l.peerManager.peers := by
  obtain ⟨f, -, h⟩ := Option.bind_eq_some_iff.mp h
  obtain rfl := Option.some.inj h
  rfl

/-- A visit flushes the peer of the slot. -/
theorem visit_peer (hp : l.Holds i p) (h : l.visit i = some l') :
    ∃ q, flushPeer p = some q ∧ l'.Holds i q := by
  have hslot : l.peerManager.getLocalPeerDataValid i = some (some p) := hp
  simp only [visit, hslot, Option.bind_eq_bind, Option.bind_some, visitPeer] at h
  obtain ⟨q, hq, h⟩ := Option.bind_eq_some_iff.mp h
  have hset : (l.setPeer i q).Holds i q := (holds_setPeer hp.lt i q).mpr (by rw [if_pos rfl])
  refine ⟨q, hq, ?_⟩
  split_ifs at h
  · rw [Holds, removePeerToFlush_peers h]
    exact hset
  · obtain rfl := Option.some.inj h
    exact hset

/-- **The loop of `FlushPendingPeers`** flushes the peer of every id below the index once, although
it takes ids out of the list that it walks over. -/
theorem flushLoop_peer (n : ℕ) (hw : l.WF) (hn : n ≤ l.peerManager.peersToFlush.peers.length)
    {visited : List ℕ} (h : flushLoop n l = some (l', visited))
    (hi : i ∈ l.peerManager.peersToFlush.peers.take n) (hp : l.Holds i p) :
    ∃ q, flushPeer p = some q ∧ l'.Holds i q := by
  induction n generalizing l visited with
  | zero => simp at hi
  | succ n ih =>
    set f := l.peerManager.peersToFlush.peers with hf
    have hk := List.getElem?_eq_getElem (show n < f.length from hn)
    set k := f[n] with hkdef
    obtain ⟨l₁, hvisit, hfl, hcase⟩ := visit_spec hw hk
    have htake : l₁.peerManager.peersToFlush.peers.take n = f.take n := by
      rcases hcase with ⟨-, h₁⟩ | ⟨-, h₁⟩
      · rw [h₁]
      · rw [h₁, take_swapRemove hn]
    have hlen : n ≤ l₁.peerManager.peersToFlush.peers.length := by
      have := congrArg List.length htake
      simp only [List.length_take] at this
      omega
    obtain ⟨l₂, hrun, hfl', -⟩ := flushLoop_spec n hfl.wf hlen
    rw [htake] at hrun hfl'
    simp only [flushLoop, ← hf, hk, hvisit, hrun, Option.bind_eq_bind, Option.bind_some,
      Option.pure_def] at h
    obtain ⟨rfl, -⟩ := Prod.mk.inj (Option.some.inj h)
    have hsplit : f.take (n + 1) = f.take n ++ [k] := by
      rw [List.take_add_one, hk]
      rfl
    have hnd := (List.take_sublist (n + 1) f).nodup hw.manager.peersToFlush.nodup
    rw [hsplit, List.nodup_append] at hnd
    rw [hsplit, List.mem_append, List.mem_singleton] at hi
    rcases hi with hi | rfl
    · -- a later visit
      have hne : i ≠ k := fun heq => hnd.2.2 i hi k (by simp) heq
      have hp₁ : l₁.Holds i p := by
        rw [Holds, hfl.rest i (by simpa using hne)]
        exact hp
      exact ih hfl.wf hlen hrun (by rw [htake]; exact hi) hp₁
    · -- this visit, and no other
      obtain ⟨q, hq, hp₁⟩ := visit_peer hp hvisit
      refine ⟨q, hq, ?_⟩
      rw [Holds, hfl'.rest k fun hmem => hnd.2.2 k (List.mem_reverse.mp hmem) k (by simp) rfl]
      exact hp₁

/-- **A pass of `FlushPendingPeers`** flushes every peer once. -/
theorem flushPendingPeers_peer (hw : l.WF) {visited : List ℕ}
    (h : l.flushPendingPeers = some (l', visited)) (hp : l.Holds i p) :
    ∃ q, flushPeer p = some q ∧ l'.Holds i q := by
  by_cases hi : i ∈ l.peerManager.peersToFlush.peers
  · exact flushLoop_peer _ hw le_rfl h (by rwa [List.take_length]) hp
  · -- an id that is not in the list is that of a peer with nothing to send
    have hidle : p.pending = false := Bool.eq_false_of_not_eq_true fun hpend => hi (hw.flushed i p hp hpend)
    obtain ⟨l₁, hrun, hfl, -⟩ := flushPendingPeers_spec hw
    obtain ⟨rfl, -⟩ := Prod.mk.inj (Option.some.inj (h.symm.trans hrun))
    refine ⟨p, by simp [flushPeer, hidle], ?_⟩
    rw [Holds, hfl.rest i (by simpa using hi)]
    exact hp

/-- A peer that is flushed has less to do, unless it has nothing to do. -/
theorem flushPeer_backlog (hw : p.WF) (hs : p.Sending) (h : flushPeer p = some q) :
    TcpPeer.Sends p q ∧ q.Sending ∧ q.backlog ≤ p.backlog - 1 := by
  unfold flushPeer at h
  split_ifs at h with hpend
  · obtain ⟨q', b, hon, hsends, hsq, hlt⟩ := TcpPeer.onWritable_backlog hw hs
    rw [hon] at h
    obtain rfl := Option.some.inj h
    exact ⟨hsends, hsq, Nat.le_sub_one_of_lt (hlt hpend)⟩
  · obtain rfl := Option.some.inj h
    refine ⟨⟨hw, rfl, TcpPeer.Same.refl p⟩, hs, ?_⟩
    rw [TcpPeer.backlog_of_idle (Bool.eq_false_of_not_eq_true hpend)]

/-- **Passes of `FlushPendingPeers`,** as many as one likes: each takes at least one off the
backlog of every peer that may write, and keeps its stream. -/
theorem flushes_backlog (k : ℕ) (hw : l.WF) :
    ∃ l', l.run (List.replicate k .flushPendingPeers) = some l' ∧ l'.WF ∧
      (0 < k → ∀ i, i ∈ l'.peerManager.peersToFlush.peers ↔ l'.PendingAt i) ∧
      ∀ i p, l.Holds i p → p.Sending → ∃ p', l'.Holds i p' ∧ p'.Sending ∧ p'.stream = p.stream ∧
        p'.backlog ≤ p.backlog - k := by
  induction k generalizing l with
  | zero => exact ⟨l, rfl, hw, by simp, fun i p hp hs => ⟨p, hp, hs, rfl, le_rfl⟩⟩
  | succ k ih =>
    obtain ⟨l₁, hrun, hfl, hmem⟩ := flushPendingPeers_spec hw
    obtain ⟨l', hrun', hw', hlist, hpeers⟩ := ih hfl.wf
    have hstep : l.step .flushPendingPeers = some l₁ := by rw [step, hrun]; rfl
    refine ⟨l', foldlM_cons_eq_some.mpr ⟨l₁, hstep, hrun'⟩, hw', fun _ => ?_, fun i p hp hs => ?_⟩
    · cases k with
      | zero =>
        obtain rfl := Option.some.inj hrun'
        exact hmem
      | succ k => exact hlist (Nat.succ_pos k)
    · obtain ⟨q, hq, hp₁⟩ := flushPendingPeers_peer hw hrun hp
      obtain ⟨hsends, hsq, hle⟩ := flushPeer_backlog (hw.peer_wf i p hp) hs hq
      obtain ⟨p', hp', hs', hstr, hle'⟩ := hpeers i q hp₁ hsq
      exact ⟨p', hp', hs', hstr.trans hsends.stream, by omega⟩

/-- More passes than the backlog of a peer that may write leave nothing of it, on a consistent loop. -/
theorem flushes_drain (hw : l.WF) (hp : l.Holds i p) (hs : p.Sending) (k : ℕ) (hk : p.backlog < k) :
    ∃ l' p', l.run (List.replicate k .flushPendingPeers) = some l' ∧ l'.Holds i p' ∧
      p'.accepted = p.stream ∧ p'.pending = false ∧ i ∉ l'.peerManager.peersToFlush.peers := by
  obtain ⟨l', hrun', hw', hlist, hpeers⟩ := flushes_backlog k hw
  obtain ⟨p', hp', hs', hstr, hle⟩ := hpeers i p hp hs
  have hidle : p'.pending = false := TcpPeer.idle_of_backlog (hw'.peer_wf i p' hp') hs' (by omega)
  refine ⟨l', p', hrun', hp', (TcpPeer.accepted_of_idle hidle).trans hstr, hidle, fun hi => ?_⟩
  obtain ⟨r, hr, hpend⟩ := (hlist (by omega) i).mp hi
  rw [← hp'.unique hr, hidle] at hpend
  cases hpend

/-- **Flushing empties the queues.**  After whatever has happened on a loop, take a live peer that
is ready and neither disconnecting nor closed, over a socket that takes at least one byte of
every write.  More passes of `FlushPendingPeers` than there are bytes and frames waiting leave
its socket with everything that the peer was ever given to send, in order, the queues and the
buffer empty, and its id out of `peersToFlush`; whatever the other peers do. -/
theorem flush_drains (loop : ℕ) (ops : List Op) (hok : ∀ op ∈ ops, op.Ok loop)
    (hrun : (init loop).run ops = some l) (hp : l.Holds i p) (hs : p.Sending) (k : ℕ)
    (hk : p.backlog < k) :
    ∃ l' p', l.run (List.replicate k .flushPendingPeers) = some l' ∧ l'.Holds i p' ∧
      p'.accepted = p.stream ∧ p'.hasQueuedSends = false ∧ p'.hasBufferedSends = false ∧
      i ∉ l'.peerManager.peersToFlush.peers := by
  obtain ⟨l₀, hrun₀, hw, -⟩ := run_wf loop ops hok
  obtain rfl := Option.some.inj (hrun.symm.trans hrun₀)
  obtain ⟨l', p', hrun', hp', hacc, hidle, hout⟩ := flushes_drain hw hp hs k hk
  obtain ⟨hb, hq⟩ : p'.hasBufferedSends = false ∧ p'.hasQueuedSends = false := by
    simpa [TcpPeer.pending] using hidle
  exact ⟨l', p', hrun', hp', hacc, hq, hb, hout⟩

/-- A socket that takes one byte at a time. -/
def creepingSocket : UsSocket where
  respond _ data _ := min 1 data.length
  respond_le _ _ _ := min_le_right _ _

theorem creepingSocket_willing
    (h : p.socket.map UsSocket.respond = some creepingSocket.respond) : p.Willing := by
  intro respond hrespond n data msgMore hdata
  rw [h] at hrespond
  obtain rfl := Option.some.inj hrespond
  have := List.length_pos_iff.mpr hdata
  simp only [creepingSocket]
  omega

/-- Two frames over such a socket, four bytes in all, beside a peer that is not ready. -/
theorem flush_drains_creeping :
    ∃ l l' p', (init 0).run
      [.alloc creepingSocket 8, .alloc slowSocket 8, .setFlags ⟨0, 1, some 0⟩ true false false,
        .send ⟨0, 1, some 0⟩ [1, 2, 3], .send ⟨1, 1, some 0⟩ [5], .send ⟨0, 1, some 0⟩ [4]] = some l ∧
      l.run (List.replicate 7 .flushPendingPeers) = some l' ∧ l'.Holds 0 p' ∧
      p'.accepted = [1, 2, 3, 4] ∧ 0 ∉ l'.peerManager.peersToFlush.peers := by
  obtain ⟨l', p', hrun, hp', hacc, -, -, hout⟩ := flush_drains (i := 0) 0
    [.alloc creepingSocket 8, .alloc slowSocket 8, .setFlags ⟨0, 1, some 0⟩ true false false,
      .send ⟨0, 1, some 0⟩ [1, 2, 3], .send ⟨1, 1, some 0⟩ [5], .send ⟨0, 1, some 0⟩ [4]]
    (by simp [Op.Ok]) rfl rfl
    ⟨rfl, rfl, rfl, creepingSocket_willing rfl⟩ 7 (by decide)
  exact ⟨_, l', p', rfl, hrun, hp', hacc, hout⟩

end Loop
end ICon7
