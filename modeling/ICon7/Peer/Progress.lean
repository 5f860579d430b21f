/-
# What is sent is taken in the end

A socket that takes at least one byte of whatever it is offered is never offered
nothing while a peer has something to send: a writable event either moves a frame out of
the queues or hands bytes to the socket.  The frames in the queues and the bytes that the
socket has not taken are together the `backlog` of a peer, which a writable event of a
pending peer lowers (`onWritable_backlog`), so that as many events as the backlog counts
empty it (`writable_drains`).
-/

import ICon7.Loop.Pending
import ICon7.Peer.Statistics

namespace ICon7

open Lib

namespace TcpPeer

/-- The socket takes at least one byte of every write that offers any. -/
def Willing (p : TcpPeer) : Prop :=
  ∀ respond ∈ p.socket.map UsSocket.respond, ∀ n data msgMore, data ≠ [] → 0 < respond n data msgMore

/-- The bytes that the socket has not taken. -/
def waiting (p : TcpPeer) : ℕ :=
  (p.writeBuffer.drop p.writeBufferOffset).length + p.localRest.length + p.globalRest.length

/-- The frames in the two queues. -/
def frames (p : TcpPeer) : ℕ := p.globalQueue.length + (p.localQueue.length - p.localQueueOffset)

/-- What is still to be done for a peer: bytes to be taken, and frames to be moved out. -/
def backlog (p : TcpPeer) : ℕ := p.waiting + p.frames

/-- What writing to the socket does: it answers later writes as before, and keeps what it has
taken. -/
structure Takes (p p' : TcpPeer) : Prop where
  respond : p'.socket.map UsSocket.respond = p.socket.map UsSocket.respond
  accepted : p.accepted.length ≤ p'.accepted.length

variable {p p' q : TcpPeer} {f f' : SendFrameStruct} {hasMore b : Bool}

theorem Takes.refl (p : TcpPeer) : Takes p p := ⟨rfl, le_rfl⟩

theorem Takes.trans (h : Takes p q) (h' : Takes q p') : Takes p p' :=
  ⟨h'.respond.trans h.respond, h.accepted.trans h'.accepted⟩

theorem Takes.of_socket (h : p'.socket = p.socket) : Takes p p' :=
  ⟨by rw [h], by rw [TcpPeer.accepted, TcpPeer.accepted, h]⟩

theorem Takes.willing (h : Takes p p') (hw : p.Willing) : p'.Willing := by
  rw [Willing, h.respond]
  exact hw

/-- The stream is what the socket has taken and what waits. -/
theorem length_stream (p : TcpPeer) : p.stream.length = p.accepted.length + p.waiting := by
  simp only [stream, out, waiting, List.length_append]
  omega

/-- A write of something to a willing socket. -/
theorem Willing.write {socket socket' : UsSocket} {data : List UInt8} {n : ℤ} (hw : p.Willing)
    (hsock : p.socket = some socket) (hdata : data ≠ []) (hwr : socket.write data hasMore = (socket', n)) :
    0 < n := by
  have hn : socket.respond socket.calls data hasMore = n := congrArg Prod.snd hwr
  rw [← hn]
  exact hw _ (by rw [hsock]; rfl) _ _ _ hdata

/-- After a write: the socket answers as before, and has taken as much more as it said. -/
theorem write_takes {socket socket' : UsSocket} {data : List UInt8} {n : ℤ}
    (hsock : p.socket = some socket) (hwr : socket.write data hasMore = (socket', n))
    (hsock' : p'.socket = some socket') :
    Takes p p' ∧ p'.accepted.length = p.accepted.length + n.toNat := by
  have hlen := length_accepted_write socket data hasMore
  have hrespond : socket'.respond = socket.respond := congrArg (fun w => w.1.respond) hwr.symm
  rw [hwr] at hlen
  rw [← accepted_of_socket hsock, ← accepted_of_socket hsock'] at hlen
  refine ⟨⟨?_, by omega⟩, hlen⟩
  rw [hsock, hsock', Option.map_some, Option.map_some, hrespond]

/-- **`_InternalFlushBufferedSends`** hands bytes to a willing socket if there are any. -/
theorem flushBufferedSends_takes (h : p.flushBufferedSends hasMore = some (p', b)) :
    Takes p p' ∧ (p.Willing → p.hasBufferedSends = true → p.accepted.length < p'.accepted.length) := by
  unfold flushBufferedSends at h
  split_ifs at h with hpos
  · obtain ⟨socket, hsock, h⟩ := Option.bind_eq_some_iff.mp h
    rcases hwr : socket.write (p.writeBuffer.drop p.writeBufferOffset) hasMore with ⟨socket', n⟩
    have hdata : p.writeBuffer.drop p.writeBufferOffset ≠ [] := by
      rw [← List.length_pos_iff, List.length_drop]
      exact hpos
    have hsock' : p'.socket = some socket' := by
      simp only [hwr, Option.pure_def] at h
      split_ifs at h <;> obtain ⟨rfl, -⟩ := Prod.mk.inj (Option.some.inj h) <;> rfl
    obtain ⟨ht, hlen⟩ := write_takes hsock hwr hsock'
    refine ⟨ht, fun hw _ => ?_⟩
    have := hw.write hsock hdata hwr
    omega
  · obtain ⟨rfl, -⟩ := Prod.mk.inj (Option.some.inj h)
    refine ⟨Takes.refl p, fun _ hb => ?_⟩
    have := of_decide_eq_true hb
    omega

/-- **The direct write** hands bytes of the frame to a willing socket. -/
theorem sendDirect_takes (h : p.sendDirect f hasMore = some (p', f', b)) :
    Takes p p' ∧ (p.Willing → f.bytesSent < f.data.length → p.accepted.length < p'.accepted.length) := by
  obtain ⟨socket, hsock, h⟩ := Option.bind_eq_some_iff.mp h
  rcases hwr : socket.write (f.data.drop f.bytesSent) hasMore with ⟨socket', n⟩
  have hsock' : p'.socket = some socket' := by
    simp only [hwr, Option.pure_def] at h
    split_ifs at h <;> obtain ⟨rfl, -⟩ := Prod.mk.inj (Option.some.inj h) <;> rfl
  obtain ⟨ht, hlen⟩ := write_takes hsock hwr hsock'
  refine ⟨ht, fun hw hlt => ?_⟩
  have hdata : f.data.drop f.bytesSent ≠ [] := by
    rw [← List.length_pos_iff, List.length_drop]
    omega
  have := hw.write hsock hdata hwr
  omega

/-- A full buffer has something to be written. -/
theorem BufferWF.buffered (hw : p.BufferWF) (hpos : 0 < p.writeBuffer.length) :
    p.hasBufferedSends = true := decide_eq_true (hw.offset_lt hpos)

/-- The head of `_InternalSend` stops only after it has handed over bytes. -/
theorem makeRoom_takes (hw : p.BufferWF) (h : p.makeRoom = some (p', b)) :
    Takes p p' ∧ (p.Willing → b = false → p.accepted.length < p'.accepted.length) := by
  unfold makeRoom at h
  split_ifs at h with hfull
  · obtain ⟨ht, hlt⟩ := flushBufferedSends_takes h
    exact ⟨ht, fun hwill _ => hlt hwill (hw.buffered (by rw [hfull]; exact hw.capacity_pos))⟩
  · obtain ⟨rfl, rfl⟩ := Prod.mk.inj (Option.some.inj h)
    exact ⟨Takes.refl p, by simp⟩

theorem buffer_takes (p : TcpPeer) (f : SendFrameStruct) (n : ℕ) : Takes p (p.buffer f n).1 :=
  .of_socket rfl

/-- **`_InternalSend` stops only after it has handed over bytes.** -/
theorem internalSendNested_takes (fuel : ℕ) (hw : p.BufferWF)
    (h : internalSendNested fuel p f hasMore = some (p', f', b)) :
    Takes p p' ∧ (p.Willing → b = false → p.accepted.length < p'.accepted.length) := by
  induction fuel generalizing p f with
  | zero => simp [internalSendNested] at h
  | succ fuel ih =>
    obtain ⟨q, c, hroom, hwq, -, -, hlt⟩ := makeRoom_spec hw
    obtain ⟨hq, hqlt⟩ := makeRoom_takes hw hroom
    have hsome : p.socket.isNone = false := by simpa using hw.socket
    rw [internalSendNested, hsome] at h
    simp only [Bool.false_eq_true, if_false, hroom, Option.bind_eq_bind, Option.bind_some,
      Option.pure_def] at h
    cases c with
    | false =>
      rw [if_pos rfl] at h
      obtain ⟨rfl, -, rfl⟩ := by simpa only [Option.some.injEq, Prod.mk.injEq] using h
      exact ⟨hq, hqlt⟩
    | true =>
      have hlt := hlt rfl
      have hlen : f.rest.length = f.data.length - f.bytesSent := by simp [SendFrameStruct.rest]
      rw [if_neg (by simp)] at h
      split_ifs at h with hsent hdirect hfit hnow
      · -- the direct write
        obtain ⟨ht, hmore⟩ := sendDirect_takes h
        exact ⟨hq.trans ht, fun hwill _ => hq.accepted.trans_lt (hmore (hq.willing hwill) hsent)⟩
      · -- all of the frame is buffered, and the buffer flushed
        obtain ⟨hw₁, -, hlen₁, -⟩ := buffer_spec hwq f (by omega) hlen.ge hfit
        obtain ⟨⟨r, c⟩, hfl, h⟩ := Option.bind_eq_some_iff.mp h
        obtain ⟨rfl, -, rfl⟩ := by simpa only [Option.some.injEq, Prod.mk.injEq] using h
        obtain ⟨ht, hmore⟩ := flushBufferedSends_takes hfl
        have hbuf := hq.trans (buffer_takes q f (f.data.length - f.bytesSent))
        refine ⟨hbuf.trans ht, fun hwill _ => hbuf.accepted.trans_lt (hmore (hbuf.willing hwill) ?_)⟩
        exact hw₁.buffered (by omega)
      · -- all of the frame is buffered
        obtain ⟨rfl, -, rfl⟩ := by simpa only [Option.some.injEq, Prod.mk.injEq] using h
        exact ⟨hq.trans (buffer_takes q f _), by simp⟩
      · -- the buffer is filled and flushed, and the rest of the frame is sent
        set n := min (f.data.length - f.bytesSent) (q.writeBufferCapacity - q.writeBuffer.length) with hn
        obtain ⟨hw₁, -, hlen₁, -⟩ := buffer_spec hwq f (n := n) (by omega) (by omega) (by omega)
        obtain ⟨⟨r, c⟩, hfl, h⟩ := Option.bind_eq_some_iff.mp h
        obtain ⟨ht, hmore⟩ := flushBufferedSends_takes hfl
        have hbuf := hq.trans (buffer_takes q f n)
        have hlt₁ : p.Willing → p.accepted.length < r.accepted.length := fun hwill =>
          hbuf.accepted.trans_lt (hmore (hbuf.willing hwill) (hw₁.buffered (by omega)))
        cases c with
        | false =>
          rw [if_pos rfl] at h
          obtain ⟨rfl, -, rfl⟩ := by simpa only [Option.some.injEq, Prod.mk.injEq] using h
          exact ⟨hbuf.trans ht, fun hwill _ => hlt₁ hwill⟩
        | true =>
          rw [if_neg (by simp)] at h
          obtain ⟨p₂, c, hfl', hw₂, -⟩ := flushBufferedSends_spec hw₁ true
          obtain ⟨rfl, -⟩ := Prod.mk.inj (Option.some.inj (hfl.symm.trans hfl'))
          obtain ⟨ht', -⟩ := ih hw₂ h
          exact ⟨(hbuf.trans ht).trans ht', fun hwill _ => (hlt₁ hwill).trans_le ht'.accepted⟩
      · obtain ⟨rfl, -, rfl⟩ := by simpa only [Option.some.injEq, Prod.mk.injEq] using h
        exact ⟨hq, by simp⟩

theorem Kept.frames (h : Kept p p') : p'.frames = p.frames := by
  rw [TcpPeer.frames, TcpPeer.frames, h.globalQueue, h.localQueue, h.localQueueOffset]

/-- What sending needs of the buffer and the queues. -/
structure Ready (p : TcpPeer) : Prop extends BufferWF p where
  local_le : p.localQueueOffset ≤ p.localQueue.length

theorem WF.ready (hw : p.WF) : p.Ready := ⟨hw.toBufferWF, hw.local_le⟩

/-- A change of `localQueue`. -/
theorem BufferWF.requeue (hw : p.BufferWF) {localQueue : List SendFrameStruct} {localQueueOffset : ℕ}
    (hle : localQueueOffset ≤ localQueue.length) : Ready { p with localQueue, localQueueOffset } :=
  ⟨⟨hw.socket, hw.capacity_pos, hw.offset_le, hw.size_le, hw.drained⟩, hle⟩

/-- **The inner loop of `_InternalFlushQueuedSends`** moves a frame out or is stopped by the socket,
which has then taken some bytes. -/
theorem sendLoop_takes (n : ℕ) {queued sent sent' left : ℕ} {stop : LoopEnd} (hw : p.Ready)
    (h : sendLoop n p queued sent = some (p', sent', left, stop)) :
    p'.Ready ∧ Takes p p' ∧ p'.frames ≤ p.frames ∧
      (p.Willing → stop = .blocked → p.accepted.length < p'.accepted.length) ∧
      (0 < n → p.localQueue.length ≠ p.localQueueOffset → stop ≠ .blocked → p'.frames < p.frames) := by
  induction n generalizing p sent with
  | zero =>
    obtain ⟨rfl, -, -, rfl⟩ := by simpa only [sendLoop, Option.some.injEq, Prod.mk.injEq] using h
    exact ⟨hw, Takes.refl p, le_rfl, by simp, by simp⟩
  | succ n ih =>
    rw [sendLoop] at h
    split_ifs at h with hempty
    · obtain ⟨rfl, -, -, rfl⟩ := by simpa only [Option.some.injEq, Prod.mk.injEq] using h
      exact ⟨hw, Takes.refl p, le_rfl, by simp, fun _ hne => absurd hempty hne⟩
    · have hlt : p.localQueueOffset < p.localQueue.length :=
        lt_of_le_of_ne hw.local_le (Ne.symm hempty)
      obtain ⟨f, hf, h⟩ := Option.bind_eq_some_iff.mp h
      obtain ⟨q, f', ok, hsend, hwq, hk, -, -⟩ := internalSend_spec hw.toBufferWF f
        (decide (1 < queued - sent))
      obtain ⟨ht, hstop⟩ := internalSendNested_takes _ hw.toBufferWF hsend
      simp only [hsend, Option.bind_eq_bind, Option.bind_some, Option.pure_def] at h
      rw [hk.localQueue, hk.localQueueOffset] at h
      cases ok with
      | true =>
        -- the frame is out: the loop goes on behind it
        rw [if_pos rfl] at h
        obtain ⟨hr, ht', hle, hblocked, -⟩ := ih (hwq.requeue (by simpa using hlt)) h
        have hfewer : p'.frames < p.frames := by
          refine hle.trans_lt ?_
          simp only [frames, List.length_set, hk.globalQueue]
          omega
        refine ⟨hr, ht.trans ⟨ht'.respond, ht'.accepted⟩, hfewer.le, fun hwill hb => ?_, fun _ _ _ => hfewer⟩
        exact ht.accepted.trans_lt (hblocked (ht.willing hwill) hb)
      | false =>
        obtain ⟨rfl, -, -, rfl⟩ := by simpa only [Bool.false_eq_true, if_false, Option.some.injEq,
          Prod.mk.injEq] using h
        refine ⟨hwq.requeue (by simpa using hlt.le), ⟨ht.respond, ht.accepted⟩, ?_,
          fun hwill _ => hstop hwill rfl, by simp⟩
        simp [frames, hk.globalQueue]

/-- `DequeueToLocalQueue` moves frames from one queue to the other. -/
theorem dequeueToLocalQueue_takes (hw : p.Ready) :
    p.dequeueToLocalQueue.Ready ∧ Takes p p.dequeueToLocalQueue ∧
      p.dequeueToLocalQueue.frames = p.frames ∧
      (p.hasQueuedSends = true →
        p.dequeueToLocalQueue.localQueue.length ≠ p.dequeueToLocalQueue.localQueueOffset) := by
  rcases eq_or_ne p.localQueue.length p.localQueueOffset with h | h
  · rw [dequeueToLocalQueue_of_empty h]
    refine ⟨⟨⟨hw.socket, hw.capacity_pos, hw.offset_le, hw.size_le, hw.drained⟩, Nat.zero_le _⟩,
      .of_socket rfl, by simp [frames, h], fun hany => ?_⟩
    simpa [hasQueuedSends, h] using hany
  · rw [dequeueToLocalQueue, if_pos h]
    exact ⟨hw, Takes.refl p, rfl, fun _ => h⟩

/-- The outer loop of `_InternalFlushQueuedSends` gets on with the frames. -/
theorem flushRounds_takes (queued rounds : ℕ) {left sent sent' : ℕ} {ret : Bool} (hw : p.Ready)
    (h : flushRounds queued rounds p left sent = some (p', sent', ret)) :
    p'.Ready ∧ Takes p p' ∧ p'.frames ≤ p.frames ∧
      (p.Willing → p.hasQueuedSends = true → 0 < left → 0 < rounds →
        p.accepted.length < p'.accepted.length ∨ p'.frames < p.frames) := by
  induction rounds generalizing p left sent with
  | zero =>
    obtain ⟨rfl, -⟩ := Prod.mk.inj (Option.some.inj h)
    exact ⟨hw, Takes.refl p, le_rfl, by simp⟩
  | succ rounds ih =>
    obtain ⟨hwd, hd, hframes, hnext⟩ := dequeueToLocalQueue_takes hw
    rw [flushRounds] at h
    obtain ⟨⟨q, sent₁, left₁, stop⟩, hloop, h⟩ := Option.bind_eq_some_iff.mp h
    obtain ⟨hwq, ht, hle, hblocked, hmoved⟩ := sendLoop_takes left hwd hloop
    rw [hframes] at hle hmoved
    by_cases hstop : stop = .blocked
    · simp only [hstop, if_true] at h
      obtain ⟨rfl, -⟩ := Prod.mk.inj (Option.some.inj h)
      refine ⟨hwq, hd.trans ht, hle, fun hwill _ _ _ => .inl ?_⟩
      exact hd.accepted.trans_lt (hblocked (hd.willing hwill) hstop)
    · simp only [hstop, if_false] at h
      obtain ⟨hw', ht', hle', -⟩ := ih hwq h
      refine ⟨hw', (hd.trans ht).trans ht', hle'.trans hle, fun _ hany hleft _ => .inr ?_⟩
      exact hle'.trans_lt (hmoved hleft (hnext hany) hstop)

/-- The peer may write, to a socket that takes at least a byte at a time. -/
structure Sending (p : TcpPeer) : Prop where
  ready : p.isReadyToUse = true
  connected : p.isDisconnecting = false
  opened : p.isClosed = false
  willing : p.Willing

/-- **A writable event of a pending peer lowers its backlog.** -/
theorem onWritable_backlog (hw : p.WF) (hs : p.Sending) :
    ∃ p' b, p.onWritable = some (p', b) ∧ Sends p p' ∧ p'.Sending ∧
      (p.pending = true → p'.backlog < p.backlog) := by
  obtain ⟨p', b, hrun, hsends⟩ := onWritable_spec hw
  have hon := hrun
  rw [onWritable, if_neg (by simp [hs.ready, hs.connected, hs.opened])] at hon
  obtain ⟨⟨q, ret⟩, hflush, hon⟩ := Option.bind_eq_some_iff.mp hon
  -- the queues first
  obtain ⟨hwq, hq, hframes, hmoved, hidle⟩ : q.Ready ∧ Takes p q ∧ q.frames ≤ p.frames ∧
      (p.hasQueuedSends = true → p.accepted.length < q.accepted.length ∨ q.frames < p.frames) ∧
      (p.hasQueuedSends = false → q = p) := by
    rw [flushQueuedIfAny] at hflush
    split_ifs at hflush with hany
    · obtain ⟨⟨r, sent, ret'⟩, hrounds, hflush⟩ := Option.bind_eq_some_iff.mp hflush
      obtain ⟨rfl, -⟩ := Prod.mk.inj (Option.some.inj hflush)
      obtain ⟨hr, ht, hle, hmoved⟩ := flushRounds_takes _ _ hw.ready hrounds
      exact ⟨⟨⟨hr.socket, hr.capacity_pos, hr.offset_le, hr.size_le, hr.drained⟩, hr.local_le⟩,
        ⟨ht.respond, ht.accepted⟩, hle, fun hany => hmoved hs.willing hany (by decide) (by decide),
        fun hno => by simp [hany] at hno⟩
    · obtain ⟨rfl, -⟩ := Prod.mk.inj (Option.some.inj hflush)
      exact ⟨hw.ready, Takes.refl p, le_rfl, fun h => absurd h hany, fun _ => rfl⟩
  -- and then the buffer
  obtain ⟨ht, hframes', hwrote⟩ : Takes q p' ∧ p'.frames = q.frames ∧ (q.hasBufferedSends = true →
      q.accepted.length < p'.accepted.length) := by
    by_cases hbuf : q.hasBufferedSends
    · simp only [hbuf, if_true] at hon
      obtain ⟨r, c, hfl, -, hk, -⟩ := flushBufferedSends_spec hwq.toBufferWF false
      obtain ⟨ht, hlt⟩ := flushBufferedSends_takes hfl
      simp only [hfl, Option.bind_eq_bind, Option.bind_some, Option.pure_def] at hon
      obtain ⟨rfl, -⟩ := Prod.mk.inj (Option.some.inj hon)
      exact ⟨ht, hk.frames, fun hb => hlt (hq.willing hs.willing) hb⟩
    · simp only [hbuf, Bool.false_eq_true, if_false] at hon
      obtain ⟨rfl, -⟩ := Prod.mk.inj (Option.some.inj hon)
      exact ⟨Takes.refl q, rfl, fun h => absurd h hbuf⟩
  refine ⟨p', b, hrun, hsends, ⟨hsends.same.isReadyToUse.trans hs.ready,
    hsends.same.isDisconnecting.trans hs.connected, hsends.same.isClosed.trans hs.opened,
    (hq.trans ht).willing hs.willing⟩, fun hpend => ?_⟩
  have hlen := congrArg List.length hsends.stream
  rw [length_stream, length_stream] at hlen
  have hle := hq.accepted
  have hle' := ht.accepted
  rw [backlog, backlog]
  cases hany : p.hasQueuedSends with
  | true =>
    rcases hmoved hany with hlt | hlt <;> omega
  | false =>
    obtain rfl := hidle hany
    have hbuf : q.hasBufferedSends = true := by simpa [pending, hany] using hpend
    have := hwrote hbuf
    omega

/-- A peer that is not pending has no backlog. -/
theorem backlog_of_idle (hidle : p.pending = false) : p.backlog = 0 := by
  obtain ⟨hb, hq⟩ : p.hasBufferedSends = false ∧ p.hasQueuedSends = false := by
    simpa [pending] using hidle
  have hbuf : p.writeBuffer.length ≤ p.writeBufferOffset := not_lt.mp (of_decide_eq_false hb)
  obtain ⟨hlocal, hglobal⟩ : p.localQueueOffset = p.localQueue.length ∧ p.globalQueue = [] := by
    simpa [hasQueuedSends] using hq
  simp [backlog, waiting, frames, localRest, globalRest, hbuf, hlocal, hglobal]

/-- A peer without a backlog is not pending. -/
theorem idle_of_backlog (hw : p.WF) (hs : p.Sending) (hzero : p.backlog = 0) : p.pending = false := by
  by_contra hpend
  obtain ⟨p', b, -, -, -, hlt⟩ := onWritable_backlog hw hs
  have := hlt (Bool.eq_true_of_not_eq_false hpend)
  omega

/-- The socket of a peer that is not pending has taken everything. -/
theorem accepted_of_idle (hidle : p.pending = false) : p.accepted = p.stream := by
  have hzero := backlog_of_idle hidle
  rw [backlog] at hzero
  have hprefix : p.accepted <+: p.stream := by
    rw [stream, out, List.append_assoc, List.append_assoc]
    exact List.prefix_append _ _
  refine hprefix.eq_of_length ?_
  rw [length_stream]
  omega

/-- **As many writable events as the backlog counts empty it:** the socket has then taken
everything that the peer was given, in order. -/
theorem writable_drains (k : ℕ) (hw : p.WF) (hs : p.Sending) (hk : p.backlog ≤ k) :
    ∃ p', p.run (List.replicate k .writable) = some p' ∧ p'.WF ∧ p'.Sending ∧ p'.pending = false ∧
      p'.accepted = p.stream ∧ p'.stream = p.stream := by
  induction k generalizing p with
  | zero =>
    have hidle := idle_of_backlog hw hs (Nat.le_zero.mp hk)
    exact ⟨p, rfl, hw, hs, hidle, accepted_of_idle hidle, rfl⟩
  | succ k ih =>
    obtain ⟨q, b, hon, hsends, hsq, hlt⟩ := onWritable_backlog hw hs
    have hle : q.backlog ≤ k := by
      cases hpend : p.pending with
      | true =>
        have := hlt hpend
        omega
      | false =>
        obtain ⟨b', hon'⟩ := onWritable_of_idle hpend
        obtain ⟨rfl, -⟩ := Prod.mk.inj (Option.some.inj (hon.symm.trans hon'))
        rw [backlog_of_idle hpend]
        exact Nat.zero_le k
    obtain ⟨p', hrun, hw', hs', hidle, hacc, hstr⟩ := ih hsends.wf hsq hle
    refine ⟨p', foldlM_cons_eq_some.mpr ⟨q, by rw [step, hon]; rfl, hrun⟩, hw', hs', hidle, ?_, ?_⟩
    · rw [hacc, hsends.stream]
    · rw [hstr, hsends.stream]

end TcpPeer
end ICon7
