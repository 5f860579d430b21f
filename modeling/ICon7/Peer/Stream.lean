/-
# The outgoing stream of a tcp peer

The bytes a peer was given to send are, at every point and in this order: what
the socket has taken, what waits in `writeBuffer`, what is left of the frames of
`localQueue`, and the frames of `globalQueue` (`stream`).  Every function that
sends keeps this stream, whatever the socket answers; only `Send` extends it.
The recursion of `_InternalSend` ends, since each call but the last moves at
least one byte of the frame into `writeBuffer`.
-/

import ICon7.Peer.Tcp

namespace ICon7

/-- The bytes of a frame that have not left it. -/
def SendFrameStruct.rest (f : SendFrameStruct) : List UInt8 := f.data.drop f.bytesSent

namespace TcpPeer

/-- What the socket has taken. -/
def accepted (p : TcpPeer) : List UInt8 := (p.socket.map UsSocket.accepted).getD []

/-- What the socket has taken and what waits in `writeBuffer`. -/
def out (p : TcpPeer) : List UInt8 := p.accepted ++ p.writeBuffer.drop p.writeBufferOffset

/-- What is left of the frames of `localQueue`. -/
def localRest (p : TcpPeer) : List UInt8 :=
  ((p.localQueue.drop p.localQueueOffset).map SendFrameStruct.rest).flatten

/-- The frames of `globalQueue`. -/
def globalRest (p : TcpPeer) : List UInt8 := (p.globalQueue.map SendFrameStruct.data).flatten

/-- All bytes the peer was given, in order. -/
def stream (p : TcpPeer) : List UInt8 := p.out ++ p.localRest ++ p.globalRest

/-- There is a socket, and the write buffer is within its capacity and empty when all of
it has been written. -/
structure BufferWF (p : TcpPeer) : Prop where
  socket : p.socket.isSome
  capacity_pos : 0 < p.writeBufferCapacity
  offset_le : p.writeBufferOffset ≤ p.writeBuffer.length
  size_le : p.writeBuffer.length ≤ p.writeBufferCapacity
  drained : p.writeBufferOffset = p.writeBuffer.length → p.writeBuffer = []

/-- **The invariant of a tcp peer.** -/
structure WF (p : TcpPeer) : Prop extends BufferWF p where
  local_le : p.localQueueOffset ≤ p.localQueue.length
  global_unsent : ∀ f ∈ p.globalQueue, f.bytesSent = 0

/-- What writing to the socket does not touch: the queues, the handle and the flags. -/
structure Kept (p p' : TcpPeer) : Prop where
  globalQueue : p'.globalQueue = p.globalQueue
  localQueue : p'.localQueue = p.localQueue
  localQueueOffset : p'.localQueueOffset = p.localQueueOffset
  peerHandle : p'.peerHandle = p.peerHandle
  isReadyToUse : p'.isReadyToUse = p.isReadyToUse
  isDisconnecting : p'.isDisconnecting = p.isDisconnecting
  isClosed : p'.isClosed = p.isClosed
  writeBufferCapacity : p'.writeBufferCapacity = p.writeBufferCapacity

theorem Kept.refl (p : TcpPeer) : Kept p p := ⟨rfl, rfl, rfl, rfl, rfl, rfl, rfl, rfl⟩

theorem Kept.trans {p q r : TcpPeer} (h : Kept p q) (h' : Kept q r) : Kept p r :=
  ⟨h'.1.trans h.1, h'.2.trans h.2, h'.3.trans h.3, h'.4.trans h.4, h'.5.trans h.5, h'.6.trans h.6,
    h'.7.trans h.7, h'.8.trans h.8⟩

variable {p p' : TcpPeer}

/-- Counting changes nothing else. -/
theorem kept_count (f : SendStats → SendStats) : Kept p (p.count f) :=
  ⟨rfl, rfl, rfl, rfl, rfl, rfl, rfl, rfl⟩

/-- What is out after a write from the buffer: the bytes taken move to the socket. -/
theorem out_after_write {socket : UsSocket} (hsock : p.socket = some socket) (hasMore : Bool) :
    (((socket.write (p.writeBuffer.drop p.writeBufferOffset) hasMore).1.accepted) ++
      p.writeBuffer.drop (p.writeBufferOffset +
        (socket.write (p.writeBuffer.drop p.writeBufferOffset) hasMore).2.toNat)) = p.out := by
  simp only [UsSocket.write, out, accepted, hsock, Option.map_some, Option.getD_some,
    List.append_assoc, ← List.drop_drop, List.take_append_drop]

/-- **`_InternalFlushBufferedSends`** keeps what is out, and returns `true` only with an
empty buffer. -/
theorem flushBufferedSends_spec (hw : p.BufferWF) (hasMore : Bool) :
    ∃ p' b, p.flushBufferedSends hasMore = some (p', b) ∧ p'.BufferWF ∧ Kept p p' ∧
      p'.out = p.out ∧ (b = true → p'.writeBuffer = []) := by
  obtain ⟨socket, hsock⟩ := Option.isSome_iff_exists.mp hw.socket
  have hout := out_after_write hsock hasMore
  have hle : (socket.write (p.writeBuffer.drop p.writeBufferOffset) hasMore).2 ≤
      (p.writeBuffer.drop p.writeBufferOffset).length := socket.respond_le _ _ _
  rcases hwr : socket.write (p.writeBuffer.drop p.writeBufferOffset) hasMore with ⟨socket', b⟩
  simp only [hwr, List.length_drop] at hout hle
  simp only [flushBufferedSends, hsock, Option.bind_eq_bind, Option.bind_some, hwr, Option.pure_def]
  split_ifs with hpos hneg hb hall
  · -- an error: nothing was taken
    rw [Int.toNat_of_nonpos hneg.le, add_zero] at hout
    refine ⟨_, _, rfl, ⟨rfl, hw.capacity_pos, hw.offset_le, hw.size_le, hw.drained⟩,
      ⟨rfl, rfl, rfl, rfl, rfl, rfl, rfl, rfl⟩, ?_, by simp⟩
    exact hout
  · refine ⟨_, _, rfl, ⟨rfl, hw.capacity_pos, le_rfl, Nat.zero_le _, fun _ => rfl⟩,
      ⟨rfl, rfl, rfl, rfl, rfl, rfl, rfl, rfl⟩, ?_, fun _ => rfl⟩
    have hall : p.writeBuffer.length = p.writeBufferOffset + b.toNat := hall
    rw [List.drop_eq_nil_of_le hall.le] at hout
    exact hout
  · refine ⟨_, _, rfl, ⟨rfl, hw.capacity_pos, ?_, hw.size_le, fun heq => absurd heq.symm hall⟩,
      ⟨rfl, rfl, rfl, rfl, rfl, rfl, rfl, rfl⟩, hout, by simp⟩
    simp only [count]
    omega
  · obtain rfl : b = 0 := by omega
    refine ⟨_, _, rfl, ⟨rfl, hw.capacity_pos, hw.offset_le, hw.size_le, hw.drained⟩,
      ⟨rfl, rfl, rfl, rfl, rfl, rfl, rfl, rfl⟩, ?_, by simp⟩
    exact hout
  · exact ⟨p, false, rfl, hw, Kept.refl p, rfl, by simp⟩

/-- The direct write of `_InternalSend`, with an empty buffer: the bytes taken move from the
frame to the socket. -/
theorem sendDirect_spec (hw : p.BufferWF) (hempty : p.writeBuffer = []) (f : SendFrameStruct)
    (hasMore : Bool) :
    ∃ p' f' b, p.sendDirect f hasMore = some (p', f', b) ∧ p'.BufferWF ∧ Kept p p' ∧
      p'.out ++ f'.rest = p.out ++ f.rest ∧ (b = true → f'.rest = []) := by
  obtain ⟨socket, hsock⟩ := Option.isSome_iff_exists.mp hw.socket
  rcases hwr : socket.write (f.data.drop f.bytesSent) hasMore with ⟨socket', b⟩
  have hacc : socket'.accepted = socket.accepted ++ f.rest.take b.toNat := by
    have := congrArg (fun w => w.1.accepted) hwr
    have hb := congrArg Prod.snd hwr
    simp only [UsSocket.write] at this hb
    rw [← this, hb]
    rfl
  simp only [sendDirect, hsock, Option.bind_eq_bind, Option.bind_some, hwr, Option.pure_def]
  split_ifs with hneg hpos
  · refine ⟨_, _, _, rfl, ⟨rfl, hw.capacity_pos, hw.offset_le, hw.size_le, hw.drained⟩,
      ⟨rfl, rfl, rfl, rfl, rfl, rfl, rfl, rfl⟩, ?_, fun h => ?_⟩
    · rw [Int.toNat_of_nonpos hneg.le, List.take_zero, List.append_nil] at hacc
      simp [out, accepted, countError, count, hempty, hacc, hsock]
    · exact List.drop_eq_nil_of_le (of_decide_eq_true h)
  · refine ⟨_, _, _, rfl, ⟨rfl, hw.capacity_pos, hw.offset_le, hw.size_le, hw.drained⟩,
      ⟨rfl, rfl, rfl, rfl, rfl, rfl, rfl, rfl⟩, ?_, fun h => ?_⟩
    · simp only [out, accepted, hsock, Option.map_some, Option.getD_some, hempty, List.drop_nil,
        List.append_nil, hacc, List.append_assoc, SendFrameStruct.rest, ← List.drop_drop,
        List.take_append_drop]
    · exact List.drop_eq_nil_of_le (of_decide_eq_true h)
  · obtain rfl : b = 0 := by omega
    refine ⟨_, _, _, rfl, ⟨rfl, hw.capacity_pos, hw.offset_le, hw.size_le, hw.drained⟩,
      ⟨rfl, rfl, rfl, rfl, rfl, rfl, rfl, rfl⟩, ?_, by simp⟩
    simp at hacc
    simp [out, accepted, hempty, hacc, hsock]

/-- Copying bytes of a frame into the buffer, within its capacity. -/
theorem buffer_spec (hw : p.BufferWF) (f : SendFrameStruct) {n : ℕ} (hn : 0 < n)
    (hrest : n ≤ f.rest.length) (hcap : p.writeBuffer.length + n ≤ p.writeBufferCapacity) :
    (p.buffer f n).1.BufferWF ∧ Kept p (p.buffer f n).1 ∧
      (p.buffer f n).1.writeBuffer.length = p.writeBuffer.length + n ∧
      (p.buffer f n).2.rest = f.rest.drop n ∧
      (p.buffer f n).1.out ++ (p.buffer f n).2.rest = p.out ++ f.rest := by
  have hlen : (p.buffer f n).1.writeBuffer.length = p.writeBuffer.length + n := by
    simp only [buffer, List.length_append, List.length_take]
    rw [SendFrameStruct.rest] at hrest
    omega
  have hle := hw.offset_le
  refine ⟨⟨hw.socket, hw.capacity_pos, ?_, ?_, ?_⟩, ⟨rfl, rfl, rfl, rfl, rfl, rfl, rfl, rfl⟩, hlen,
    ?_, ?_⟩
  · rw [hlen]
    exact hle.trans (Nat.le_add_right _ _)
  · rw [hlen]
    exact hcap
  · rw [hlen]
    intro heq
    have : p.writeBufferOffset = p.writeBuffer.length + n := heq
    omega
  · simp [buffer, SendFrameStruct.rest, List.drop_drop]
  · have hdrop : (f.data.drop f.bytesSent).take n ++ f.data.drop (f.bytesSent + n) =
        f.data.drop f.bytesSent := by
      rw [← List.drop_drop, List.take_append_drop]
    simp only [buffer, out, accepted, SendFrameStruct.rest, List.drop_append_of_le_length hle,
      List.append_assoc, hdrop]

/-- The head of `_InternalSend`: unless it stops, the buffer is not full. -/
theorem makeRoom_spec (hw : p.BufferWF) :
    ∃ p' b, p.makeRoom = some (p', b) ∧ p'.BufferWF ∧ Kept p p' ∧ p'.out = p.out ∧
      (b = true → p'.writeBuffer.length < p'.writeBufferCapacity) := by
  unfold makeRoom
  split_ifs with hfull
  · obtain ⟨p', b, hfl, hw', hk, hout, hempty⟩ := flushBufferedSends_spec hw true
    refine ⟨p', b, hfl, hw', hk, hout, fun hb => ?_⟩
    rw [hempty hb]
    exact hw'.capacity_pos
  · exact ⟨p, true, rfl, hw, Kept.refl p, rfl, fun _ => lt_of_le_of_ne hw.size_le hfull⟩

/-- **`_InternalSend` ends** and moves bytes from the frame to what is out, losing and
repeating none; it returns `true` only with nothing left of the frame. -/
theorem internalSendNested_spec (fuel : ℕ) (hw : p.BufferWF) (f : SendFrameStruct) (hasMore : Bool)
    (hfuel : f.rest.length < fuel) :
    ∃ p' f' b, internalSendNested fuel p f hasMore = some (p', f', b) ∧ p'.BufferWF ∧ Kept p p' ∧
      p'.out ++ f'.rest = p.out ++ f.rest ∧ (b = true → f'.rest = []) := by
  induction fuel generalizing p f with
  | zero => omega
  | succ fuel ih =>
    obtain ⟨q, b, hroom, hwq, hkq, houtq, hlt⟩ := makeRoom_spec hw
    have hsome : p.socket.isNone = false := by simpa using hw.socket
    rw [internalSendNested, hsome]
    simp only [Bool.false_eq_true, if_false, hroom, Option.bind_eq_bind, Option.bind_some,
      Option.pure_def]
    rw [← houtq]
    cases b with
    | false => exact ⟨q, f, false, by simp, hwq, hkq, rfl, by simp⟩
    | true =>
      have hlt := hlt rfl
      have hlen : f.rest.length = f.data.length - f.bytesSent := by simp [SendFrameStruct.rest]
      rw [if_neg (by simp)]
      split_ifs with hsent hdirect hfit hnow
      · -- the direct write
        have hnil := hwq.drained hdirect.1.symm
        obtain ⟨p', f', b, hsd, hw', hk, hout, hb⟩ := sendDirect_spec hwq hnil f hasMore
        exact ⟨p', f', b, hsd, hw', hkq.trans hk, hout, hb⟩
      · -- all of the frame fits into the buffer, which is flushed
        obtain ⟨hw₁, hk₁, -, hrest₁, hout₁⟩ := buffer_spec hwq f (by omega) hlen.ge hfit
        obtain ⟨p', b, hfl, hw', hk', hout', -⟩ := flushBufferedSends_spec hw₁ hasMore
        refine ⟨p', _, b, by rw [hfl]; rfl, hw', hkq.trans (hk₁.trans hk'), ?_, fun _ => ?_⟩
        · rw [hout', hout₁]
        · rw [hrest₁, ← hlen, List.drop_length]
      · -- all of the frame fits into the buffer, and more is to come
        obtain ⟨hw₁, hk₁, -, hrest₁, hout₁⟩ := buffer_spec hwq f (by omega) hlen.ge hfit
        refine ⟨_, _, true, rfl, hw₁, hkq.trans hk₁, hout₁, fun _ => ?_⟩
        rw [hrest₁, ← hlen, List.drop_length]
      · -- the buffer is filled and flushed, and the rest of the frame is sent
        set n := min (f.data.length - f.bytesSent)
          (q.writeBufferCapacity - q.writeBuffer.length) with hn
        obtain ⟨hw₁, hk₁, -, hrest₁, hout₁⟩ := buffer_spec hwq f (n := n) (by omega) (by omega)
          (by omega)
        obtain ⟨p₂, b, hfl, hw₂, hk₂, hout₂, -⟩ := flushBufferedSends_spec hw₁ true
        simp only [hfl, Option.bind_some]
        cases b with
        | false =>
          exact ⟨p₂, _, false, rfl, hw₂, hkq.trans (hk₁.trans hk₂), by rw [hout₂, hout₁], by simp⟩
        | true =>
          have hshort : (q.buffer f n).2.rest.length < fuel := by
            rw [hrest₁, List.length_drop]
            omega
          obtain ⟨p', f', b, hsend, hw', hk', hout', hb⟩ := ih hw₂ _ hshort
          refine ⟨p', f', b, ?_, hw', hkq.trans (hk₁.trans (hk₂.trans hk')), ?_, hb⟩
          · simpa using hsend
          · rw [hout', hout₂, hout₁]
      · exact ⟨q, f, true, rfl, hwq, hkq, rfl, fun _ => List.drop_eq_nil_of_le (by omega)⟩

/-- **`_InternalSend`**, as it is called. -/
theorem internalSend_spec (hw : p.BufferWF) (f : SendFrameStruct) (hasMore : Bool) :
    ∃ p' f' b, p.internalSend f hasMore = some (p', f', b) ∧ p'.BufferWF ∧ Kept p p' ∧
      p'.out ++ f'.rest = p.out ++ f.rest ∧ (b = true → f'.rest = []) :=
  internalSendNested_spec _ hw f hasMore (by simp [SendFrameStruct.rest])

/-- What sending does not touch: the handle and the flags. -/
structure Same (p p' : TcpPeer) : Prop where
  peerHandle : p'.peerHandle = p.peerHandle
  isReadyToUse : p'.isReadyToUse = p.isReadyToUse
  isDisconnecting : p'.isDisconnecting = p.isDisconnecting
  isClosed : p'.isClosed = p.isClosed

theorem Same.refl (p : TcpPeer) : Same p p := ⟨rfl, rfl, rfl, rfl⟩

theorem Same.trans {p q r : TcpPeer} (h : Same p q) (h' : Same q r) : Same p r :=
  ⟨h'.1.trans h.1, h'.2.trans h.2, h'.3.trans h.3, h'.4.trans h.4⟩

theorem Kept.same (h : Kept p p') : Same p p' := ⟨h.4, h.5, h.6, h.7⟩

/-- What a sending function guarantees: the invariant, the stream, the handle and the flags. -/
structure Sends (p p' : TcpPeer) : Prop where
  wf : p'.WF
  stream : p'.stream = p.stream
  same : Same p p'

theorem Sends.trans {p q r : TcpPeer} (h : Sends p q) (h' : Sends q r) : Sends p r :=
  ⟨h'.wf, h'.stream.trans h.stream, h.same.trans h'.same⟩

/-- A function that only writes to the socket sends. -/
theorem Kept.sends (hk : Kept p p') (hw : p.WF) (hb : p'.BufferWF) (hout : p'.out = p.out) :
    Sends p p' where
  wf := ⟨hb, by rw [hk.localQueueOffset, hk.localQueue]; exact hw.local_le,
    by rw [hk.globalQueue]; exact hw.global_unsent⟩
  stream := by
    simp only [TcpPeer.stream, localRest, globalRest, hout, hk.localQueue, hk.localQueueOffset,
      hk.globalQueue]
  same := hk.same

/-- A write to the socket and a change of `localQueue` send when they keep the bytes of both. -/
theorem Kept.sends_requeue {q : TcpPeer} (hk : Kept p q) (hw : p.WF) (hb : q.BufferWF)
    {frames : List SendFrameStruct} {offset : ℕ} (hle : offset ≤ frames.length)
    (hout : q.out ++ ((frames.drop offset).map SendFrameStruct.rest).flatten =
      p.out ++ p.localRest) :
    Sends p { q with localQueue := frames, localQueueOffset := offset } where
  wf := ⟨⟨hb.socket, hb.capacity_pos, hb.offset_le, hb.size_le, hb.drained⟩, hle,
    by simp only [hk.globalQueue]; exact hw.global_unsent⟩
  stream := by
    rw [TcpPeer.stream, TcpPeer.stream, ← hout]
    simp only [localRest, globalRest, hk.globalQueue]
    rfl
  same := ⟨hk.4, hk.5, hk.6, hk.7⟩

/-- With nothing left in `localQueue`, the queues are swapped. -/
theorem dequeueToLocalQueue_of_empty (h : p.localQueue.length = p.localQueueOffset) :
    p.dequeueToLocalQueue =
      { p with localQueue := p.globalQueue, globalQueue := [], localQueueOffset := 0 } := by
  obtain ⟨_, _, _, _, _, globalQueue, localQueue, localQueueOffset, _, _, _, _, _, _⟩ := p
  rcases localQueueOffset with _ | n
  · obtain rfl := List.eq_nil_of_length_eq_zero h
    rcases globalQueue with _ | ⟨f, fs⟩ <;> simp [dequeueToLocalQueue]
  · rcases globalQueue with _ | ⟨f, fs⟩ <;> simp [dequeueToLocalQueue, h]

/-- **`DequeueToLocalQueue`** keeps the stream: it swaps the queues only when nothing is
left in `localQueue`. -/
theorem dequeueToLocalQueue_spec (hw : p.WF) : Sends p p.dequeueToLocalQueue := by
  rcases eq_or_ne p.localQueue.length p.localQueueOffset with h | h
  · rw [dequeueToLocalQueue_of_empty h]
    have hdata : p.globalQueue.map SendFrameStruct.rest = p.globalQueue.map SendFrameStruct.data :=
      List.map_congr_left fun f hf => by rw [SendFrameStruct.rest, hw.global_unsent f hf, List.drop_zero]
    have hlocal : p.localRest = [] := by
      rw [localRest, List.drop_eq_nil_of_le h.le, List.map_nil, List.flatten_nil]
    refine ⟨⟨⟨hw.socket, hw.capacity_pos, hw.offset_le, hw.size_le, hw.drained⟩, Nat.zero_le _,
      by simp⟩, ?_, ⟨rfl, rfl, rfl, rfl⟩⟩
    have hout : out { p with
        localQueue := p.globalQueue, globalQueue := [], localQueueOffset := 0 } = p.out := rfl
    rw [TcpPeer.stream, TcpPeer.stream, hout, hlocal]
    simp only [localRest, globalRest, List.drop_zero, hdata, List.map_nil, List.flatten_nil,
      List.append_nil]
  · rw [dequeueToLocalQueue, if_pos h]
    exact ⟨hw, rfl, Same.refl p⟩

/-- **The inner loop of `_InternalFlushQueuedSends`** keeps the stream. -/
theorem sendLoop_spec (n : ℕ) (hw : p.WF) (queued sent : ℕ) :
    ∃ p' sent' left stop, sendLoop n p queued sent = some (p', sent', left, stop) ∧
      Sends p p' := by
  induction n generalizing p sent with
  | zero => exact ⟨p, sent, 0, .budget, rfl, hw, rfl, Same.refl p⟩
  | succ n ih =>
    rw [sendLoop]
    split_ifs with hempty
    · exact ⟨p, sent, n + 1, .empty, rfl, hw, rfl, Same.refl p⟩
    · have hlt : p.localQueueOffset < p.localQueue.length :=
        lt_of_le_of_ne hw.local_le (Ne.symm hempty)
      set f := p.localQueue[p.localQueueOffset] with hf
      obtain ⟨q, f', ok, hsend, hwq, hk, hout, hok⟩ := internalSend_spec hw.toBufferWF f
        (decide (1 < queued - sent))
      have hlocal : p.localRest =
          f.rest ++ ((p.localQueue.drop (p.localQueueOffset + 1)).map SendFrameStruct.rest).flatten := by
        rw [localRest, List.drop_eq_getElem_cons hlt, List.map_cons, List.flatten_cons]
      simp only [List.getElem?_eq_getElem hlt, ← hf, hsend, Option.bind_eq_bind, Option.bind_some,
        Option.pure_def]
      rw [hk.localQueue, hk.localQueueOffset]
      have hbytes : q.out ++ f'.rest ++ ((p.localQueue.drop (p.localQueueOffset + 1)).map
          SendFrameStruct.rest).flatten = p.out ++ p.localRest := by
        rw [hout, hlocal, List.append_assoc]
      cases ok with
      | true =>
        -- the frame is out: the loop goes on behind it
        have hs : Sends p { q with
            localQueue := p.localQueue.set p.localQueueOffset { f' with data := [] }
            localQueueOffset := p.localQueueOffset + 1 } := by
          refine hk.sends_requeue hw hwq (by simpa using hlt) ?_
          rw [List.drop_set_of_lt (Nat.lt_succ_self _), ← hbytes, hok rfl, List.append_nil]
        obtain ⟨p', sent', left, stop, hrun, hs'⟩ := ih hs.wf (sent + 1)
        exact ⟨p', sent', left, stop, hrun, hs.trans hs'⟩
      | false =>
        refine ⟨_, sent, n + 1, .blocked, rfl, hk.sends_requeue hw hwq (by simpa using hlt.le) ?_⟩
        rw [List.drop_eq_getElem_cons (by simpa using hlt), List.getElem_set_self,
          List.drop_set_of_lt (Nat.lt_succ_self _), List.map_cons, List.flatten_cons, ← hbytes,
          List.append_assoc]

/-- The outer loop of `_InternalFlushQueuedSends` keeps the stream. -/
theorem flushRounds_spec (queued rounds : ℕ) (hw : p.WF) (left sent : ℕ) :
    ∃ p' sent' ret, flushRounds queued rounds p left sent = some (p', sent', ret) ∧ Sends p p' := by
  induction rounds generalizing p left sent with
  | zero => exact ⟨p, sent, true, rfl, hw, rfl, Same.refl p⟩
  | succ rounds ih =>
    have hd := dequeueToLocalQueue_spec hw
    obtain ⟨p₁, sent₁, left₁, stop, hrun, hs₁⟩ := sendLoop_spec left hd.wf queued sent
    simp only [flushRounds, hrun, Option.bind_eq_bind, Option.bind_some, Option.pure_def]
    split_ifs
    · exact ⟨p₁, sent₁, false, rfl, hd.trans hs₁⟩
    · obtain ⟨p', sent', ret, hrun', hs'⟩ := ih hs₁.wf left₁ sent₁
      exact ⟨p', sent', ret, hrun', hd.trans (hs₁.trans hs')⟩

/-- **`_InternalFlushQueuedSends`** keeps the stream. -/
theorem flushQueuedSends_spec (hw : p.WF) (n : ℕ) :
    ∃ p' b, p.flushQueuedSends n = some (p', b) ∧ Sends p p' := by
  obtain ⟨p₁, sent, ret, hrun, hs⟩ := flushRounds_spec
    (p.globalQueue.length + p.localQueue.length - p.localQueueOffset) 2 hw n 0
  simp only [flushQueuedSends, hrun, Option.bind_eq_bind, Option.bind_some, Option.pure_def]
  exact ⟨_, ret, rfl, hs.trans ((kept_count _).sends hs.wf
    ⟨hs.wf.socket, hs.wf.capacity_pos, hs.wf.offset_le, hs.wf.size_le, hs.wf.drained⟩ rfl)⟩

/-- **`_InternalOnWritable`** keeps the stream. -/
theorem onWritable_spec (hw : p.WF) : ∃ p' b, p.onWritable = some (p', b) ∧ Sends p p' := by
  obtain ⟨p₁, b₁, hq, hs₁⟩ : ∃ p₁ b₁, p.flushQueuedIfAny = some (p₁, b₁) ∧ Sends p p₁ := by
    unfold flushQueuedIfAny
    split_ifs
    · exact flushQueuedSends_spec hw 384
    · exact ⟨p, true, rfl, hw, rfl, Same.refl p⟩
  obtain ⟨p₂, b₂, hb, hwb, hk, hout, -⟩ := flushBufferedSends_spec hs₁.wf.toBufferWF false
  unfold onWritable
  simp only [hq, hb, Option.bind_eq_bind, Option.bind_some, Option.pure_def]
  split_ifs
  · exact ⟨p, false, rfl, hw, rfl, Same.refl p⟩
  · exact ⟨p₂, b₁ && b₂, rfl, hs₁.trans (hk.sends hs₁.wf hwb hout)⟩
  · exact ⟨p₁, b₁, rfl, hs₁⟩

/-- **A queued frame extends the stream.** -/
theorem enqueue_spec (hw : p.WF) (frame : List UInt8) :
    (p.enqueue frame).WF ∧ (p.enqueue frame).stream = p.stream ++ frame := by
  refine ⟨⟨⟨hw.socket, hw.capacity_pos, hw.offset_le, hw.size_le, hw.drained⟩, hw.local_le, ?_⟩, ?_⟩
  · intro f hf
    rcases List.mem_append.mp hf with hf | hf
    · exact hw.global_unsent f hf
    · rw [List.mem_singleton.mp hf]
  · simp only [TcpPeer.stream, globalRest, enqueue, List.map_append, List.map_cons, List.map_nil,
      List.flatten_append, List.flatten_cons, List.flatten_nil, List.append_nil, ← List.append_assoc]
    rfl

end TcpPeer
end ICon7
