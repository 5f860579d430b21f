/-
# No stranded data

`Loop::FlushPendingPeers` visits the ids in `peersToFlush` at its start from the
last to the first, each once, and leaves those whose peer is live and still has
something to send (`flushPendingPeers_spec`).  With the steps of
`ICon7.Loop.Pending` this gives the invariant of a loop over every run
(`run_wf`) and the result about pending peers (`run_pending`).
-/

import ICon7.Loop.Pending

namespace ICon7
namespace Loop

open Lib

variable {l l' : Loop} {i : ℕ} {p q : TcpPeer} {h : PeerHandle}

/-- The slot holds a peer with something to send. -/
def PendingAt (l : Loop) (i : ℕ) : Prop := ∃ p, l.Holds i p ∧ p.pending = true

/-- What a pass or a part of it does to the peers: each is still in its slot, has sent some
of its stream, and is not touched when it was not visited. -/
structure Flushed (l l' : Loop) (visited : List ℕ) : Prop where
  wf : l'.WF
  loop : l'.peerManager.loop = l.peerManager.loop
  sends : ∀ i p, l.Holds i p → ∃ p', l'.Holds i p' ∧ TcpPeer.Sends p p'
  rest : ∀ i, i ∉ visited → l'.peerManager.peers[i]? = l.peerManager.peers[i]?

/-- A live peer can be flushed, whether it has something to send or not: it sends what its socket takes,
and its stream stays what it is. -/
theorem flushPeer_spec (hw : p.WF) :
    ∃ q, flushPeer p = some q ∧ TcpPeer.Sends p q := by
  unfold flushPeer
  split_ifs
  · obtain ⟨q, b, hon, hs⟩ := TcpPeer.onWritable_spec hw
    exact ⟨q, by rw [hon]; rfl, hs⟩
  · exact ⟨p, rfl, hw, rfl, TcpPeer.Same.refl p⟩

/-- Removing an id whose slot has nothing to send. -/
theorem removePeerToFlush_spec (hw : l.WF) {k : ℕ}
    (hk : l.peerManager.peersToFlush.peers[k]? = some i) (hidle : ¬l.PendingAt i) :
    ∃ l', l.removePeerToFlush i = some l' ∧ l'.WF ∧
      l'.peerManager.loop = l.peerManager.loop ∧ l'.peerManager.peers = l.peerManager.peers ∧
      l'.peerManager.peersToFlush.peers = swapRemove l.peerManager.peersToFlush.peers k := by
  obtain ⟨f, hrem, hf, hpeers⟩ :=
    PeersToFlush.removePeerToFlush_of_mem hw.manager.peersToFlush hk
  have hmem : ∀ j, j ∈ f.peers ↔ j ∈ l.peerManager.peersToFlush.peers ∧ j ≠ i := fun j => by
    rw [hpeers, Lib.mem_swapRemove hw.manager.peersToFlush.nodup hk]
  refine ⟨⟨{ l.peerManager with peersToFlush := f }⟩, by simp [Loop.removePeerToFlush, hrem],
    ⟨⟨hw.manager.versions_length, hw.manager.perHostOffset_length, hw.manager.freeIds_nodup,
      hw.manager.mem_freeIds, hw.manager.version_ne_zero, hf⟩, hw.peer_wf, hw.handle,
      fun j r hr hpend => ?_, fun j hj => hw.ids j ((hmem j).mp hj).1⟩, rfl, rfl, hpeers⟩
  refine (hmem j).mpr ⟨hw.flushed j r hr hpend, ?_⟩
  rintro rfl
  exact hidle ⟨r, hr, hpend⟩

theorem Flushed.refl (hw : l.WF) (v : List ℕ) : Flushed l l v :=
  ⟨hw, rfl, fun i p hp => ⟨p, hp, hw.peer_wf i p hp, rfl, TcpPeer.Same.refl p⟩, fun _ _ => rfl⟩

theorem Flushed.trans {l₁ l₂ l₃ : Loop} {v w : List ℕ} (h : Flushed l₁ l₂ v)
    (h' : Flushed l₂ l₃ w) : Flushed l₁ l₃ (v ++ w) where
  wf := h'.wf
  loop := h'.loop.trans h.loop
  sends i p hp := by
    obtain ⟨q, hq, hs⟩ := h.sends i p hp
    obtain ⟨r, hr, hs'⟩ := h'.sends i q hq
    exact ⟨r, hr, hs.trans hs'⟩
  rest i hi := by
    rw [List.mem_append, not_or] at hi
    rw [h'.rest i hi.2, h.rest i hi.1]

/-- A slot that is not visited is pending afterwards if it was before. -/
theorem Flushed.pendingAt_iff {v : List ℕ} (h : Flushed l l' v) (hi : i ∉ v) :
    l'.PendingAt i ↔ l.PendingAt i := by
  simp only [PendingAt, Holds, h.rest i hi]

/-- A peer that is waiting sends. -/
theorem Flushed.setPeer (hw : l.WF) (hp : l.Holds i p) (hmem : i ∈ l.peerManager.peersToFlush.peers)
    (hs : TcpPeer.Sends p q) : Flushed l (l.setPeer i q) [i] where
  wf := hw.setPeer hp hs.wf hs.same.peerHandle fun _ => hmem
  loop := rfl
  sends j r hr := by
    rcases eq_or_ne j i with rfl | hne
    · obtain rfl := hp.unique hr
      exact ⟨q, (holds_setPeer hp.lt j q).mpr (by rw [if_pos rfl]), hs⟩
    · exact ⟨r, (holds_setPeer hp.lt j r).mpr (by rwa [if_neg hne]), hw.peer_wf j r hr, rfl,
        TcpPeer.Same.refl r⟩
  rest j hj := List.getElem?_set_ne (by simpa [eq_comm] using hj)

/-- The id of a slot with nothing to send is removed. -/
theorem Flushed.remove {l₁ : Loop} {v : List ℕ} {k : ℕ} (h : Flushed l l₁ v)
    (hk : l₁.peerManager.peersToFlush.peers[k]? = some i) (hidle : ¬l₁.PendingAt i) :
    ∃ l', l₁.removePeerToFlush i = some l' ∧ Flushed l l' v ∧ ¬l'.PendingAt i ∧
      l'.peerManager.peersToFlush.peers = swapRemove l₁.peerManager.peersToFlush.peers k := by
  obtain ⟨l', hrem, hw', hl', hpeers, hflush⟩ := removePeerToFlush_spec h.wf hk hidle
  have hholds : ∀ j r, l'.Holds j r ↔ l₁.Holds j r := fun j r => by rw [Holds, Holds, hpeers]
  refine ⟨l', hrem, ⟨hw', hl'.trans h.loop, fun j r hr => ?_, fun j hj => by rw [hpeers, h.rest j hj]⟩, ?_, hflush⟩
  · obtain ⟨r', hr', hs⟩ := h.sends j r hr
    exact ⟨r', (hholds j r').mpr hr', hs⟩
  · rintro ⟨r, hr, hpend⟩
    exact hidle ⟨r, (hholds i r).mp hr, hpend⟩

/-- **One visit:** the id is removed exactly when its peer is gone or has nothing left to
send, the last id taking its place. -/
theorem visit_spec (hw : l.WF) {k : ℕ} (hk : l.peerManager.peersToFlush.peers[k]? = some i) :
    ∃ l', l.visit i = some l' ∧ Flushed l l' [i] ∧
      ((l'.PendingAt i ∧ l'.peerManager.peersToFlush.peers = l.peerManager.peersToFlush.peers) ∨
       (¬l'.PendingAt i ∧ l'.peerManager.peersToFlush.peers =
          swapRemove l.peerManager.peersToFlush.peers k)) := by
  have hmem := List.mem_of_getElem? hk
  have hlt := hw.ids i hmem
  have hslot := List.getElem?_eq_getElem hlt
  cases hp : l.peerManager.peers[i] with
  | none =>
    -- the peer is gone
    rw [hp] at hslot
    have hidle : ¬l.PendingAt i := by
      rintro ⟨r, hr, -⟩
      rw [Holds, hslot] at hr
      simp at hr
    obtain ⟨l', hrem, hfl, hidle', hflush⟩ := (Flushed.refl hw [i]).remove hk hidle
    refine ⟨l', ?_, hfl, .inr ⟨hidle', hflush⟩⟩
    simp [Loop.visit, PeerManager.getLocalPeerDataValid, hslot, hrem]
  | some p =>
    rw [hp] at hslot
    have hp : l.Holds i p := hslot
    obtain ⟨q, hsend, hs⟩ := flushPeer_spec (hw.peer_wf i p hp)
    have hfl := Flushed.setPeer hw hp hmem hs
    have hq : (l.setPeer i q).Holds i q := (holds_setPeer hp.lt i q).mpr (by rw [if_pos rfl])
    have hvisit : l.visit i = if q.pending = false then (l.setPeer i q).removePeerToFlush i
        else some (l.setPeer i q) := by
      simp [Loop.visit, PeerManager.getLocalPeerDataValid, hslot, Loop.visitPeer, hsend]
    rw [hvisit]
    split_ifs with hpend
    · have hidle : ¬(l.setPeer i q).PendingAt i := by
        rintro ⟨r, hr, hr'⟩
        rw [← hq.unique hr, hpend] at hr'
        simp at hr'
      obtain ⟨l', hrem, hfl', hidle', hflush⟩ := hfl.remove hk hidle
      exact ⟨l', hrem, hfl', .inr ⟨hidle', hflush⟩⟩
    · exact ⟨_, rfl, hfl, .inl ⟨⟨q, hq, Bool.eq_true_of_not_eq_false hpend⟩, rfl⟩⟩

/-- **The loop of `FlushPendingPeers`** over the indices below `n`: it visits the ids there
from the last to the first, and those that stay are the ones still pending. -/
theorem flushLoop_spec (n : ℕ) (hw : l.WF) (hn : n ≤ l.peerManager.peersToFlush.peers.length) :
    ∃ l', flushLoop n l = some (l', (l.peerManager.peersToFlush.peers.take n).reverse) ∧
      Flushed l l' (l.peerManager.peersToFlush.peers.take n).reverse ∧
      ∀ i, i ∈ l'.peerManager.peersToFlush.peers ↔
        i ∈ l.peerManager.peersToFlush.peers.drop n ∨
          (i ∈ l.peerManager.peersToFlush.peers.take n ∧ l'.PendingAt i) := by
  induction n generalizing l with
  | zero => exact ⟨l, rfl, Flushed.refl hw _, by simp⟩
  | succ n ih =>
    set f := l.peerManager.peersToFlush.peers with hf
    have hk := List.getElem?_eq_getElem (show n < f.length from hn)
    set k := f[n] with hkdef
    obtain ⟨l₁, hvisit, hfl, hcase⟩ := visit_spec hw hk
    -- the visit leaves the ids in front of it alone
    have htake : l₁.peerManager.peersToFlush.peers.take n = f.take n := by
      rcases hcase with ⟨-, h₁⟩ | ⟨-, h₁⟩
      · rw [h₁]
      · rw [h₁, take_swapRemove hn]
    have hlen : n ≤ l₁.peerManager.peersToFlush.peers.length := by
      rcases hcase with ⟨-, h₁⟩ | ⟨-, h₁⟩
      · rw [h₁, ← hf]
        omega
      · rw [h₁, ← hf, length_swapRemove]
        omega
    obtain ⟨l', hrun, hfl', hmem⟩ := ih hfl.wf hlen
    rw [htake] at hrun hfl' hmem
    have hsplit : f.take (n + 1) = f.take n ++ [k] := by
      rw [List.take_add_one, hk]
      rfl
    have hknew : k ∉ (f.take n).reverse := by
      have hnd := (List.take_sublist (n + 1) f).nodup hw.manager.peersToFlush.nodup
      rw [hsplit, List.nodup_append] at hnd
      exact fun hmem => hnd.2.2 k (List.mem_reverse.mp hmem) k (by simp) rfl
    have hpend := hfl'.pendingAt_iff hknew
    rw [hsplit, List.reverse_append, List.reverse_singleton, List.singleton_append]
    refine ⟨l', ?_, hfl.trans hfl', fun i => ?_⟩
    · simp only [flushLoop, ← hf, hk, hvisit, hrun, Option.bind_eq_bind, Option.bind_some,
        Option.pure_def]
    · rw [hmem, List.mem_append, List.mem_singleton]
      have hdrop : i ∈ l₁.peerManager.peersToFlush.peers.drop n ↔
          i ∈ f.drop (n + 1) ∨ (i = k ∧ l'.PendingAt i) := by
        rcases hcase with ⟨hp, h₁⟩ | ⟨hp, h₁⟩
        · rw [h₁, List.drop_eq_getElem_cons hn, List.mem_cons]
          constructor
          · rintro (rfl | hi)
            · exact .inr ⟨rfl, hpend.mpr hp⟩
            · exact .inl hi
          · rintro (hi | ⟨rfl, -⟩)
            · exact .inr hi
            · exact .inl rfl
        · rw [h₁, (drop_swapRemove_perm hn).mem_iff]
          constructor
          · exact .inl
          · rintro (hi | ⟨rfl, hi⟩)
            · exact hi
            · exact absurd (hpend.mp hi) hp
      rw [hdrop, or_assoc, or_and_right, or_comm (a := i = k ∧ _)]

/-- **`FlushPendingPeers`** visits every id present at its start once, from the last to the
first, and leaves exactly the ids of the slots that hold a peer with something to send. -/
theorem flushPendingPeers_spec (hw : l.WF) :
    ∃ l', l.flushPendingPeers = some (l', l.peerManager.peersToFlush.peers.reverse) ∧
      Flushed l l' l.peerManager.peersToFlush.peers.reverse ∧
      ∀ i, i ∈ l'.peerManager.peersToFlush.peers ↔ l'.PendingAt i := by
  obtain ⟨l', hrun, hfl, hmem⟩ := flushLoop_spec _ hw le_rfl
  rw [List.take_length] at hrun hfl
  refine ⟨l', hrun, hfl, fun i => ⟨fun hi => ?_, ?_⟩⟩
  · rw [hmem, List.drop_length] at hi
    rcases hi with hi | ⟨-, hi⟩
    · simp at hi
    · exact hi
  · rintro ⟨p, hp, hpend⟩
    exact hfl.wf.flushed i p hp hpend

/-- `FlushPendingPeers` as a step. -/
theorem flushPendingPeers_steps (hw : l.WF) :
    ∃ l', (l.flushPendingPeers.map Prod.fst) = some l' ∧ Steps l l' .flushPendingPeers := by
  obtain ⟨l', hrun, hfl, -⟩ := flushPendingPeers_spec hw
  refine ⟨l', by rw [hrun]; rfl, hfl.wf, hfl.loop, fun i p hp _ hd => ?_⟩
  obtain ⟨q, hq, hs⟩ := hfl.sends i p hp
  exact ⟨q, hq, hs.same.peerHandle, hs.same.isDisconnecting.trans hd,
    hs.stream.trans (List.append_nil _).symm⟩

/-- **Every step** that keeps what a caller promises returns and does what it says. -/
theorem step_steps (hw : l.WF) {op : Op} (hok : op.Ok l.peerManager.loop) :
    ∃ l', l.step op = some l' ∧ Steps l l' op := by
  cases op with
  | alloc socket capacity =>
    obtain ⟨l', h, hrun, hs, -⟩ := alloc_steps hw socket hok
    exact ⟨l', by rw [step, hrun]; rfl, hs⟩
  | release h => exact release_steps hw hok
  | setFlags h ready disconnecting closed => exact setFlags_steps hw hok ready disconnecting closed
  | send h frame => exact send_steps hw hok frame
  | onWritable h => exact onWritable_steps hw hok
  | flushPendingPeers => exact flushPendingPeers_steps hw

/-- **Every run** returns and keeps the invariant. -/
theorem run_wf (loop : ℕ) (ops : List Op) (hok : ∀ op ∈ ops, op.Ok loop) :
    ∃ l, (init loop).run ops = some l ∧ l.WF ∧ l.peerManager.loop = loop := by
  refine run_total (I := fun l : Loop => l.WF ∧ l.peerManager.loop = loop) (fun l op hI hop => ?_) ops
    ⟨init_wf loop, rfl⟩ hok
  obtain ⟨hw, rfl⟩ := hI
  obtain ⟨l', hrun, hs⟩ := step_steps hw hop
  exact ⟨l', hrun, hs.wf, hs.loop⟩

/-- **No stranded data.**  After every run of allocations, releases, sends, flag changes,
writable events and flushes of the peers of a loop, whatever the sockets answer: every live
peer with queued or buffered sends has its id in `peersToFlush`; `peersToFlush.peers` has no
duplicates, `offsets[p] = i ≥ 0` exactly when `peers[i] = p`, and every id is one of a slot;
and a `FlushPendingPeers` now returns, visits every id present at its start exactly once and
leaves exactly the ids whose peer is live and still has something to send. -/
theorem run_pending (loop : ℕ) (ops : List Op) (hok : ∀ op ∈ ops, op.Ok loop) :
    ∃ l, (init loop).run ops = some l ∧
      (∀ i p, l.peerManager.peers[i]? = some (some p) →
        (p.hasQueuedSends = true ∨ p.hasBufferedSends = true) →
        i ∈ l.peerManager.peersToFlush.peers) ∧
      l.peerManager.peersToFlush.peers.Nodup ∧
      (∀ p i : ℕ, l.peerManager.peersToFlush.offsets[p]? = some (i : ℤ) ↔
        l.peerManager.peersToFlush.peers[i]? = some p) ∧
      (∀ i ∈ l.peerManager.peersToFlush.peers, i < l.peerManager.peers.length) ∧
      ∃ l' visited, l.flushPendingPeers = some (l', visited) ∧
        visited.Nodup ∧ (∀ i, i ∈ visited ↔ i ∈ l.peerManager.peersToFlush.peers) ∧
        ∀ i, i ∈ l'.peerManager.peersToFlush.peers ↔
          ∃ p, l'.peerManager.peers[i]? = some (some p) ∧
            (p.hasQueuedSends = true ∨ p.hasBufferedSends = true) := by
  obtain ⟨l, hrun, hw, -⟩ := run_wf loop ops hok
  have hpend : ∀ p : TcpPeer, p.pending = true ↔ p.hasQueuedSends = true ∨ p.hasBufferedSends = true :=
    fun p => by rw [TcpPeer.pending, Bool.or_eq_true, or_comm]
  have hnd := hw.manager.peersToFlush.nodup
  obtain ⟨l', hfl, -, hmem⟩ := flushPendingPeers_spec hw
  refine ⟨l, hrun, fun i p hp h => hw.flushed i p hp ((hpend p).mpr h), hnd, fun p i => ?_, hw.ids,
    l', _, hfl, List.nodup_reverse.mpr hnd, fun i => List.mem_reverse, fun i => ?_⟩
  · rw [← PeersToFlush.pos_eq_some_iff]
    exact hw.manager.peersToFlush p i
  · rw [hmem, PendingAt]
    simp only [hpend]
    rfl

/-- A socket that takes at most two bytes at a time and reports an error first. -/
def slowSocket : UsSocket where
  respond n data _ := if n = 0 then -1 else min 2 data.length
  respond_le n data _ := by
    split_ifs
    · omega
    · exact min_le_right _ _

/-- Two peers over such sockets, one of them released with its frame still queued. -/
theorem run_pending_slow :
    ∃ l l' visited, (init 0).run
      [.alloc slowSocket 8, .alloc slowSocket 8, .setFlags ⟨0, 1, some 0⟩ true false false,
        .send ⟨0, 1, some 0⟩ [1, 2, 3], .send ⟨1, 1, some 0⟩ [4], .onWritable ⟨0, 1, some 0⟩,
        .release ⟨1, 1, some 0⟩] = some l ∧
      l.flushPendingPeers = some (l', visited) ∧ visited.Nodup ∧
      ∀ i, i ∈ visited ↔ i ∈ l.peerManager.peersToFlush.peers := by
  obtain ⟨l, hrun, -, -, -, -, l', visited, hfl, hnd, hvis, -⟩ := run_pending 0
    [.alloc slowSocket 8, .alloc slowSocket 8, .setFlags ⟨0, 1, some 0⟩ true false false,
      .send ⟨0, 1, some 0⟩ [1, 2, 3], .send ⟨1, 1, some 0⟩ [4], .onWritable ⟨0, 1, some 0⟩,
      .release ⟨1, 1, some 0⟩] (by simp [Op.Ok])
  exact ⟨l, l', visited, hrun, hfl, hnd, hvis⟩

end Loop
end ICon7
