/-
# What the statistics of a peer count

Bytes reach the socket from two functions.  `_InternalFlushBufferedSends` adds what the
socket took to `bytesSent` of the peer, its host and its loop; the direct write of
`_InternalSend` adds it to the frame only.  So `bytesSent` falls behind by what is
written directly (`Counts`).

A frame is written directly where it meets the write buffer empty and is long or the last
one in the queue.  Frames go through the buffer one behind the other, and it is flushed
whenever it is full.  As long as the socket takes what it is offered, the buffer is
therefore empty just where its length and the bytes put into it since are together a
multiple of its capacity, and whether a frame is written directly can be read off the
lengths of the queued frames (`Fits`, `Batches`).

Where no frame is, none is whatever the socket answers, since a flush that is not complete
ends the event; and where one is, a socket that takes everything takes it directly
(`onWritable_cases`).  So `bytesSent` counts every byte of the runs whose writable events
all begin in a state that is `Batched`, and no weaker condition on the state before an
event is enough for every socket (`bytesSent_iff`).

The counters are `int64_t` in the source and naturals here: none of them overflows before
`2 ^ 63` bytes, packets or frames.
-/

import Mathlib.Data.Nat.ModEq
import ICon7.Lib.Run
import ICon7.Peer.Stream

namespace ICon7
namespace TcpPeer

open Lib

/-- What happens to a peer: `PeerData::Send`, or its socket is writable. -/
inductive Op where
  | send (frame : List UInt8)
  | writable
deriving DecidableEq, Repr

/-- `PeerData::Send`, but for `peersToFlush`. -/
def send (p : TcpPeer) (frame : List UInt8) : TcpPeer :=
  if p.isDisconnecting then p.countError else p.enqueue frame

def step (p : TcpPeer) : Op → Option TcpPeer
  | .send frame => some (p.send frame)
  | .writable => p.onWritable.map Prod.fst

def run (p : TcpPeer) (ops : List Op) : Option TcpPeer := ops.foldlM step p

/-! ### Frames and an empty buffer -/

/-- A frame of `n` bytes goes through a buffer that has `len` bytes before it: where the buffer is
empty, at most 1200 bytes of the frame are left and another frame follows. -/
def Fits (capacity len n : ℕ) (hasMore : Bool) : Prop :=
  ∀ i < n, capacity ∣ len + i → n - i ≤ 1200 ∧ hasMore = true

/-- All of the first `budget` of the frames do, each behind the ones before it. -/
def Batches (capacity len budget : ℕ) (frames : List ℕ) : Prop :=
  ∀ i < budget, ∀ n ∈ frames[i]?, ∀ j < n, capacity ∣ len + (frames.take i).sum + j →
    n - j ≤ 1200 ∧ i + 1 < frames.length

instance (capacity len budget : ℕ) (frames : List ℕ) : Decidable (Batches capacity len budget frames) :=
  inferInstanceAs (Decidable (∀ i < budget, ∀ n ∈ frames[i]?, ∀ j < n, _ → _))

section Lengths

variable {capacity len len' n k budget : ℕ} {hasMore : Bool} {frames : List ℕ}

theorem fits_congr (h : len ≡ len' [MOD capacity]) :
    Fits capacity len n hasMore ↔ Fits capacity len' n hasMore := by
  have hdvd : ∀ i, capacity ∣ len + i ↔ capacity ∣ len' + i := fun i =>
    (h.add_right i).dvd_iff dvd_rfl
  simp only [Fits, hdvd]

/-- Below its capacity the buffer is empty only where it begins to be. -/
theorem eq_zero_of_dvd_of_lt {i : ℕ} (h : capacity ∣ len + i) (hlt : len + i < capacity) :
    len = 0 ∧ i = 0 := by
  have := Nat.eq_zero_of_dvd_of_lt h hlt
  omega

/-- A frame for which there is room. -/
theorem fits_of_room (hroom : len + n ≤ capacity) (hfirst : 0 < len ∨ n ≤ 1200 ∧ hasMore = true) :
    Fits capacity len n hasMore := by
  intro i hi hdvd
  obtain ⟨rfl, rfl⟩ := eq_zero_of_dvd_of_lt hdvd (by omega)
  obtain ⟨hn, hm⟩ := hfirst.resolve_left (lt_irrefl 0)
  exact ⟨by omega, hm⟩

/-- A frame that fills the buffer, with the part behind it. -/
theorem fits_split (hk : len + k = capacity) (hfirst : 0 < len ∨ n ≤ 1200 ∧ hasMore = true) :
    Fits capacity len n hasMore ↔ Fits capacity 0 (n - k) hasMore := by
  constructor
  · intro h i hi hdvd
    rw [Nat.zero_add] at hdvd
    obtain ⟨hle, hm⟩ := h (k + i) (by omega) (by
      rw [← Nat.add_assoc, hk]
      exact (Nat.dvd_add_right dvd_rfl).mpr hdvd)
    exact ⟨by omega, hm⟩
  · intro h i hi hdvd
    by_cases hik : i < k
    · obtain ⟨rfl, rfl⟩ := eq_zero_of_dvd_of_lt hdvd (by omega)
      obtain ⟨hn, hm⟩ := hfirst.resolve_left (lt_irrefl 0)
      exact ⟨by omega, hm⟩
    · obtain ⟨j, rfl⟩ := Nat.exists_eq_add_of_le (Nat.not_lt.mp hik)
      rw [← Nat.add_assoc, hk] at hdvd
      obtain ⟨hle, hm⟩ := h j (by omega) (by simpa using (Nat.dvd_add_right dvd_rfl).mp hdvd)
      exact ⟨by omega, hm⟩

theorem batches_congr (h : len ≡ len' [MOD capacity]) :
    Batches capacity len budget frames ↔ Batches capacity len' budget frames := by
  have hdvd : ∀ i j, capacity ∣ len + i + j ↔ capacity ∣ len' + i + j := fun i j =>
    ((h.add_right i).add_right j).dvd_iff dvd_rfl
  simp only [Batches, hdvd]

theorem batches_nil : Batches capacity len budget [] := by simp [Batches]

theorem batches_zero : Batches capacity len 0 frames := by simp [Batches]

/-- The first frame and those behind it. -/
theorem batches_cons : Batches capacity len (budget + 1) (n :: frames) ↔
    Fits capacity len n (decide (0 < frames.length)) ∧ Batches capacity (len + n) budget frames := by
  constructor
  · intro h
    refine ⟨fun j hj hdvd => ?_, fun i hi m hm j hj hdvd => ?_⟩
    · have := h 0 (Nat.succ_pos _) n rfl j hj (by simpa using hdvd)
      exact ⟨this.1, by simpa using this.2⟩
    · have := h (i + 1) (by omega) m hm j hj (by simpa [Nat.add_assoc] using hdvd)
      exact ⟨this.1, by simpa using this.2⟩
  · rintro ⟨hfirst, hrest⟩ i hi m hm j hj hdvd
    cases i with
    | zero =>
      obtain rfl := Option.some.inj hm
      have := hfirst j hj (by simpa using hdvd)
      exact ⟨this.1, by simpa using this.2⟩
    | succ i =>
      have := hrest i (by omega) m hm j hj (by simpa [Nat.add_assoc] using hdvd)
      exact ⟨this.1, by simpa using this.2⟩

end Lengths

/-! ### Who counts what -/

/-- The frames in the queues, in the order in which they are sent. -/
def queued (p : TcpPeer) : List SendFrameStruct := p.localQueue.drop p.localQueueOffset ++ p.globalQueue

/-- What is left of them. -/
def lengths (p : TcpPeer) : List ℕ := p.queued.map fun f => f.rest.length

/-- **No frame of the next writable event meets an empty buffer where it is long or the last one.** -/
def Batched (p : TcpPeer) : Prop :=
  p.isReadyToUse = true → p.isDisconnecting = false → p.isClosed = false →
    Batches p.writeBufferCapacity p.writeBuffer.length 384 p.lengths

instance (p : TcpPeer) : Decidable p.Batched := inferInstanceAs (Decidable (_ → _ → _ → Batches _ _ _ _))

/-- The socket takes everything that it is offered. -/
def TakesAll (p : TcpPeer) : Prop :=
  ∀ respond ∈ p.socket.map UsSocket.respond, ∀ n data msgMore, respond n data msgMore = data.length

/-- **The counters count what is written from the buffer:** the socket has taken as much more as
they have grown, and `direct` bytes.  It answers as before. -/
structure Counts (p p' : TcpPeer) (direct : ℕ) : Prop where
  counted : ∃ n, p'.stats.bytesSent = p.stats.bytesSent + n ∧
    p'.hostStats.bytesSent = p.hostStats.bytesSent + n ∧
    p'.loopStats.bytesSent = p.loopStats.bytesSent + n ∧
    p'.accepted.length = p.accepted.length + n + direct
  respond : p'.socket.map UsSocket.respond = p.socket.map UsSocket.respond

variable {p p' q : TcpPeer} {d e : ℕ}

theorem Counts.refl (p : TcpPeer) : Counts p p 0 := ⟨⟨0, rfl, rfl, rfl, rfl⟩, rfl⟩

theorem Counts.trans (h : Counts p q d) (h' : Counts q p' e) : Counts p p' (d + e) := by
  obtain ⟨n, h1, h2, h3, h4⟩ := h.counted
  obtain ⟨n', h1', h2', h3', h4'⟩ := h'.counted
  exact ⟨⟨n + n', by omega, by omega, by omega, by omega⟩, h'.respond.trans h.respond⟩

/-- A change of neither the counters nor the socket. -/
theorem Counts.of_eq (hs : p'.stats.bytesSent = p.stats.bytesSent)
    (hh : p'.hostStats.bytesSent = p.hostStats.bytesSent)
    (hl : p'.loopStats.bytesSent = p.loopStats.bytesSent) (ha : p'.socket = p.socket) :
    Counts p p' 0 :=
  ⟨⟨0, hs, hh, hl, by rw [accepted, ha]; rfl⟩, by rw [ha]⟩

theorem Counts.takesAll (h : Counts p p' d) (ht : p.TakesAll) : p'.TakesAll := by
  rw [TakesAll, h.respond]
  exact ht

theorem Counts.accepted_le (h : Counts p p' d) : p.accepted.length ≤ p'.accepted.length := by
  obtain ⟨n, -, -, -, ha⟩ := h.counted
  omega

theorem accepted_of_socket {socket : UsSocket} (h : p.socket = some socket) :
    p.accepted = socket.accepted := by
  simp [accepted, h]

/-- What a socket has taken after a write. -/
theorem length_accepted_write (socket : UsSocket) (data : List UInt8) (msgMore : Bool) :
    (socket.write data msgMore).1.accepted.length =
      socket.accepted.length + (socket.write data msgMore).2.toNat := by
  have hle := socket.respond_le socket.calls data msgMore
  simp only [UsSocket.write, List.length_append, List.length_take]
  omega

/-- **`_InternalFlushBufferedSends` counts what it writes**, and a socket that takes everything
empties the buffer. -/
theorem flushBufferedSends_counts {hasMore b : Bool} (h : p.flushBufferedSends hasMore = some (p', b)) :
    Counts p p' 0 ∧ (p.TakesAll → p.writeBufferOffset < p.writeBuffer.length → b = true) := by
  unfold flushBufferedSends at h
  split_ifs at h with hpos
  · cases hsock : p.socket with
    | none => simp [hsock] at h
    | some socket =>
      have hlen := length_accepted_write socket (p.writeBuffer.drop p.writeBufferOffset) hasMore
      have hall : p.TakesAll → (socket.write (p.writeBuffer.drop p.writeBufferOffset) hasMore).2 =
          p.writeBuffer.length - p.writeBufferOffset := fun ht => by
        have := ht _ (by rw [hsock]; rfl) socket.calls (p.writeBuffer.drop p.writeBufferOffset) hasMore
        rw [UsSocket.write, this, List.length_drop]
        omega
      have hrespond : (socket.write (p.writeBuffer.drop p.writeBufferOffset) hasMore).1.respond =
          socket.respond := rfl
      rcases hwr : socket.write (p.writeBuffer.drop p.writeBufferOffset) hasMore with ⟨socket', n⟩
      rw [hwr] at hlen hall hrespond
      simp only [hsock, hwr, Option.bind_eq_bind, Option.bind_some, Option.pure_def] at h
      have hsocket : (some socket').map UsSocket.respond = p.socket.map UsSocket.respond := by
        rw [hsock, Option.map_some, Option.map_some, hrespond]
      split_ifs at h with hneg hn hdone
      all_goals obtain ⟨rfl, rfl⟩ := Prod.mk.inj (Option.some.inj h)
      · rw [Int.toNat_of_nonpos hneg.le] at hlen
        exact ⟨⟨⟨0, rfl, rfl, rfl, by rw [accepted_of_socket hsock]; exact hlen⟩, hsocket⟩,
          fun ht _ => absurd (hall ht) (by simp only; omega)⟩
      · exact ⟨⟨⟨n.toNat, rfl, rfl, rfl, by rw [accepted_of_socket hsock]; exact hlen⟩, hsocket⟩,
          fun _ _ => rfl⟩
      · refine ⟨⟨⟨n.toNat, rfl, rfl, rfl, by rw [accepted_of_socket hsock]; exact hlen⟩, hsocket⟩,
          fun ht _ => absurd ?_ hdone⟩
        have := hall ht
        simp only [count] at this ⊢
        omega
      · rw [Int.toNat_of_nonpos (not_lt.mp hn)] at hlen
        exact ⟨⟨⟨0, rfl, rfl, rfl, by rw [accepted_of_socket hsock]; exact hlen⟩, hsocket⟩,
          fun ht _ => absurd (hall ht) (by simp only; omega)⟩
  · obtain ⟨rfl, -⟩ := Prod.mk.inj (Option.some.inj h)
    exact ⟨Counts.refl p, fun _ hlt => absurd hlt (by omega)⟩

/-- **The direct write counts nothing.** -/
theorem sendDirect_counts {f f' : SendFrameStruct} {hasMore b : Bool}
    (h : p.sendDirect f hasMore = some (p', f', b)) :
    ∃ d, Counts p p' d ∧ (p.TakesAll → d = f.rest.length) := by
  cases hsock : p.socket with
  | none => simp [sendDirect, hsock] at h
  | some socket =>
    have hlen := length_accepted_write socket (f.data.drop f.bytesSent) hasMore
    have hall : p.TakesAll → (socket.write (f.data.drop f.bytesSent) hasMore).2.toNat = f.rest.length :=
      fun ht => by
        have := ht _ (by rw [hsock]; rfl) socket.calls (f.data.drop f.bytesSent) hasMore
        rw [UsSocket.write, this, Int.toNat_natCast, SendFrameStruct.rest]
    have hrespond : (socket.write (f.data.drop f.bytesSent) hasMore).1.respond = socket.respond := rfl
    rcases hwr : socket.write (f.data.drop f.bytesSent) hasMore with ⟨socket', n⟩
    rw [hwr] at hlen hall hrespond
    have hsocket : (some socket').map UsSocket.respond = p.socket.map UsSocket.respond := by
      rw [hsock, Option.map_some, Option.map_some, hrespond]
    simp only [sendDirect, hsock, hwr, Option.bind_eq_bind, Option.bind_some, Option.pure_def] at h
    refine ⟨n.toNat, ?_, hall⟩
    split_ifs at h
    all_goals
      obtain ⟨rfl, -⟩ := Prod.mk.inj (Option.some.inj h)
      exact ⟨⟨0, rfl, rfl, rfl, by rw [accepted_of_socket hsock]; exact hlen⟩, hsocket⟩

/-! ### One event -/

/-- `n` bytes of a frame went through the buffer: they are counted, and unless the socket took less
than it was offered, the buffer has them on top of what it had, but for whole buffers. -/
structure Buffered (p p' : TcpPeer) (n : ℕ) (hasMore b : Bool) : Prop where
  counts : Counts p p' 0
  length : b = true → hasMore = true →
    p'.writeBuffer.length ≡ p.writeBuffer.length + n [MOD p.writeBufferCapacity]
  takesAll : p.TakesAll → b = true

/-- A buffer that something was put into is not empty. -/
theorem BufferWF.offset_lt (hw : p.BufferWF) (h0 : 0 < p.writeBuffer.length) :
    p.writeBufferOffset < p.writeBuffer.length := by
  refine lt_of_le_of_ne hw.offset_le fun heq => ?_
  rw [hw.drained heq] at h0
  exact lt_irrefl 0 h0

/-- The head of `_InternalSend`. -/
theorem makeRoom_buffered {b : Bool} (hw : p.BufferWF) (h : p.makeRoom = some (q, b)) :
    Buffered p q 0 true b := by
  unfold makeRoom at h
  split_ifs at h with hfull
  · obtain ⟨hcounts, hall⟩ := flushBufferedSends_counts h
    obtain ⟨q', b', hfl, -, -, -, hnil⟩ := flushBufferedSends_spec hw true
    obtain ⟨rfl, rfl⟩ := Prod.mk.inj (Option.some.inj (h.symm.trans hfl))
    refine ⟨hcounts, fun hb _ => ?_, fun ht => hall ht ?_⟩
    · rw [hnil hb, List.length_nil, Nat.add_zero, hfull]
      exact (Nat.modEq_zero_iff_dvd.mpr dvd_rfl).symm
    · exact hw.offset_lt (hfull ▸ hw.capacity_pos)
  · obtain ⟨rfl, rfl⟩ := Prod.mk.inj (Option.some.inj h)
    exact ⟨Counts.refl p, fun _ _ => Nat.ModEq.rfl, fun _ => rfl⟩

theorem buffer_counts (p : TcpPeer) (f : SendFrameStruct) (n : ℕ) : Counts p (p.buffer f n).1 0 :=
  .of_eq rfl rfl rfl rfl

/-- What sending a frame comes to: either it goes through the buffer, or a socket that takes
everything takes some of it directly. -/
def Sent (p p' : TcpPeer) (n : ℕ) (hasMore b : Bool) : Prop :=
  Fits p.writeBufferCapacity p.writeBuffer.length n hasMore ∧ Buffered p p' n hasMore b ∨
    ¬Fits p.writeBufferCapacity p.writeBuffer.length n hasMore ∧
      ∃ d, Counts p p' d ∧ (p.TakesAll → 0 < d)

/-- A socket that did not take what it was offered. -/
theorem Sent.of_blocked {n : ℕ} {hasMore : Bool} (hc : Counts p p' 0) (hno : ¬p.TakesAll) :
    Sent p p' n hasMore false := by
  by_cases hfits : Fits p.writeBufferCapacity p.writeBuffer.length n hasMore
  · exact .inl ⟨hfits, hc, fun h => absurd h Bool.false_ne_true, fun ht => absurd ht hno⟩
  · exact .inr ⟨hfits, 0, hc, fun ht => absurd ht hno⟩

/-- Sending `n` bytes behind `m` that went through the buffer. -/
theorem Sent.trans {m n : ℕ} {hasMore b : Bool} (hq : Buffered p q m true true)
    (hcap : q.writeBufferCapacity = p.writeBufferCapacity)
    (hfits : Fits p.writeBufferCapacity p.writeBuffer.length (m + n) hasMore ↔
      Fits q.writeBufferCapacity q.writeBuffer.length n hasMore) (h : Sent q p' n hasMore b) :
    Sent p p' (m + n) hasMore b := by
  rcases h with ⟨hf, hb⟩ | ⟨hf, d, hc, hd⟩
  · refine .inl ⟨hfits.mpr hf, by simpa using hq.counts.trans hb.counts, fun hb' hm => ?_,
      fun ht => hb.takesAll (hq.counts.takesAll ht)⟩
    have h₁ := hb.length hb' hm
    rw [hcap] at h₁
    rw [← Nat.add_assoc]
    exact h₁.trans ((hq.length rfl rfl).add_right n)
  · exact .inr ⟨fun h => hf (hfits.mp h), d, by simpa using hq.counts.trans hc,
      fun ht => hd (hq.counts.takesAll ht)⟩

/-- Where nothing is written directly, the buffer is not empty, or the frame is short and not the last. -/
theorem BufferWF.first (hw : q.BufferWF) {n : ℕ} {hasMore : Bool}
    (hno : ¬(q.writeBuffer.length = q.writeBufferOffset ∧ (1200 < n ∨ hasMore = false))) :
    0 < q.writeBuffer.length ∨ n ≤ 1200 ∧ hasMore = true := by
  have hle := hw.offset_le
  by_cases h0 : 0 < q.writeBuffer.length
  · exact .inl h0
  · have hnot := not_or.mp fun hor => hno ⟨by omega, hor⟩
    exact .inr ⟨by omega, by simpa using hnot.2⟩

/-- **The direct write** is of a frame that meets the buffer empty, and is not counted. -/
theorem Sent.direct (hw : q.BufferWF) {n : ℕ} {hasMore b : Bool} (hpos : 0 < n)
    (hdirect : q.writeBuffer.length = q.writeBufferOffset ∧ (1200 < n ∨ hasMore = false)) {d : ℕ}
    (hc : Counts q p' d) (hd : q.TakesAll → d = n) : Sent q p' n hasMore b := by
  refine .inr ⟨fun hfits => ?_, d, hc, fun ht => by rw [hd ht]; exact hpos⟩
  have hfirst := hfits 0 hpos (by rw [hw.drained hdirect.1.symm]; exact dvd_zero _)
  rcases hdirect.2 with h1200 | hm
  · omega
  · simp [hm] at hfirst

/-- **Bytes go into the buffer, and it is flushed:** all that the socket takes is counted. -/
theorem buffer_flush_counts (hw : q.BufferWF) (f : SendFrameStruct) {n : ℕ} {hasMore c : Bool} {r : TcpPeer}
    (hpos : 0 < n) (hle : n ≤ f.rest.length)
    (hroom : q.writeBuffer.length + n ≤ q.writeBufferCapacity)
    (h : (q.buffer f n).1.flushBufferedSends hasMore = some (r, c)) :
    Counts q r 0 ∧ (q.TakesAll → c = true) ∧ (c = true → r.writeBuffer = []) ∧ r.BufferWF ∧
      r.writeBufferCapacity = q.writeBufferCapacity := by
  obtain ⟨hw₁, hk₁, hlen₁, -⟩ := buffer_spec hw f hpos hle hroom
  obtain ⟨hc, hall⟩ := flushBufferedSends_counts h
  obtain ⟨r', c', hfl, hwr, hkr, -, hnil⟩ := flushBufferedSends_spec hw₁ hasMore
  obtain ⟨rfl, rfl⟩ := Prod.mk.inj (Option.some.inj (h.symm.trans hfl))
  exact ⟨(buffer_counts q f n).trans hc, fun ht => hall ht (hw₁.offset_lt (by omega)), hnil, hwr,
    hkr.writeBufferCapacity.trans hk₁.writeBufferCapacity⟩

/-- **`_InternalSend`** counts a frame that goes through the buffer, and loses some of any other. -/
theorem internalSendNested_sent (fuel : ℕ) (hw : p.BufferWF) {f f' : SendFrameStruct} {hasMore b : Bool}
    (h : internalSendNested fuel p f hasMore = some (p', f', b)) :
    Sent p p' f.rest.length hasMore b := by
  induction fuel generalizing p f with
  | zero => simp [internalSendNested] at h
  | succ fuel ih =>
    have hsome : p.socket.isNone = false := by simpa using hw.socket
    have hlen : f.data.length - f.bytesSent = f.rest.length := by simp [SendFrameStruct.rest]
    obtain ⟨q, c, hroom, hwq, hkq, -, hlt⟩ := makeRoom_spec hw
    have hq := makeRoom_buffered hw hroom
    rw [internalSendNested, hsome, hlen] at h
    simp only [Bool.false_eq_true, if_false, hroom, Option.bind_eq_bind, Option.bind_some,
      Option.pure_def] at h
    cases c with
    | false =>
      obtain ⟨rfl, -, rfl⟩ := by simpa using h
      exact .of_blocked hq.counts fun ht => by simpa using hq.takesAll ht
    | true =>
      have hlt := hlt rfl
      have hcong := hq.length rfl rfl
      -- it is enough to look at what is done after the head
      suffices hs : Sent q p' f.rest.length hasMore b by
        have hfits : Fits p.writeBufferCapacity p.writeBuffer.length (0 + f.rest.length) hasMore ↔
            Fits q.writeBufferCapacity q.writeBuffer.length f.rest.length hasMore := by
          rw [Nat.zero_add, hkq.writeBufferCapacity]
          exact fits_congr hcong.symm
        have := Sent.trans hq hkq.writeBufferCapacity hfits hs
        rwa [Nat.zero_add] at this
      rw [if_neg (by simp)] at h
      split_ifs at h with hsent hdirect hfit hnow
      · -- the direct write
        obtain ⟨d, hc, hd⟩ := sendDirect_counts h
        exact Sent.direct hwq (by omega) hdirect hc hd
      · -- all of the frame fits into the buffer, which is flushed
        obtain ⟨⟨r, c⟩, hfl, h⟩ := Option.bind_eq_some_iff.mp h
        obtain ⟨rfl, -, rfl⟩ := by simpa using h
        obtain ⟨hcounts, htakes, hnil, -⟩ := buffer_flush_counts hwq f (by omega) le_rfl hfit hfl
        obtain ⟨-, -, hlen₁, -⟩ := buffer_spec hwq f (by omega) le_rfl hfit
        refine .inl ⟨fits_of_room hfit (hwq.first hdirect), hcounts, fun hc' hm => ?_, htakes⟩
        rw [hnil hc', ← hlen₁, hnow.resolve_left (by simp [hm])]
        exact (Nat.modEq_zero_iff_dvd.mpr dvd_rfl).symm
      · -- all of the frame fits into the buffer, and more is to come
        obtain ⟨-, -, hlen₁, -⟩ := buffer_spec hwq f (by omega) le_rfl hfit
        obtain ⟨rfl, -, rfl⟩ := by simpa using h
        exact .inl ⟨fits_of_room hfit (hwq.first hdirect), buffer_counts q f f.rest.length,
          fun _ _ => by rw [hlen₁], fun _ => rfl⟩
      · -- the buffer is filled and flushed, and the rest of the frame is sent
        set k := min f.rest.length (q.writeBufferCapacity - q.writeBuffer.length) with hk
        have hfull : q.writeBuffer.length + k = q.writeBufferCapacity := by omega
        obtain ⟨-, -, -, hrest₁, -⟩ := buffer_spec hwq f (n := k) (by omega) (by omega) hfull.le
        obtain ⟨⟨r, c⟩, hfl, h⟩ := Option.bind_eq_some_iff.mp h
        obtain ⟨hcounts, htakes, hnil, hwr, hcap⟩ :=
          buffer_flush_counts hwq f (n := k) (by omega) (by omega) hfull.le hfl
        cases c with
        | false =>
          obtain ⟨rfl, -, rfl⟩ := by simpa using h
          exact .of_blocked hcounts fun ht => absurd (htakes ht) Bool.false_ne_true
        | true =>
          simp only [Bool.true_eq_false, if_false] at h
          have hr : Buffered q r k true true := by
            refine ⟨hcounts, fun _ _ => ?_, fun _ => rfl⟩
            rw [hnil rfl, hfull]
            exact (Nat.modEq_zero_iff_dvd.mpr dvd_rfl).symm
          have hs := ih hwr h
          rw [hrest₁, List.length_drop] at hs
          have := Sent.trans hr hcap (by
            rw [Nat.add_sub_cancel' (show k ≤ f.rest.length by omega), hcap, hnil rfl]
            exact fits_split hfull (hwq.first hdirect)) hs
          rwa [Nat.add_sub_cancel' (show k ≤ f.rest.length by omega)] at this
      · -- nothing is left of the frame
        obtain ⟨rfl, -, rfl⟩ := by simpa using h
        have h0 : f.rest.length = 0 := by omega
        rw [h0]
        exact .inl ⟨by simp [Fits], Counts.refl q, fun _ _ => Nat.ModEq.rfl, fun _ => rfl⟩

/-- The queues play no part in it. -/
theorem Sent.requeue {n : ℕ} {hasMore b : Bool} (h : Sent p q n hasMore b) (frames : List SendFrameStruct)
    (offset : ℕ) : Sent p { q with localQueue := frames, localQueueOffset := offset } n hasMore b := by
  have hq : Counts q { q with localQueue := frames, localQueueOffset := offset } 0 :=
    .of_eq rfl rfl rfl rfl
  rcases h with ⟨hf, hb⟩ | ⟨hf, d, hc, hd⟩
  · exact .inl ⟨hf, hb.counts.trans hq, hb.length, hb.takesAll⟩
  · exact .inr ⟨hf, d, hc.trans hq, hd⟩

/-- The frames of the next `budget` rounds go through the buffer. -/
def BatchesAhead (p : TcpPeer) (budget : ℕ) : Prop :=
  Batches p.writeBufferCapacity p.writeBuffer.length budget p.lengths

/-- A frame is sent and taken out of `localQueue`. -/
structure Advances (p p₁ : TcpPeer) (f : SendFrameStruct) (hasMore : Bool) : Prop where
  wf : p₁.WF
  queued : p.queued = f :: p₁.queued
  globalQueue : p₁.globalQueue = p.globalQueue
  capacity : p₁.writeBufferCapacity = p.writeBufferCapacity
  sent : Sent p p₁ f.rest.length hasMore true

/-- **One round of the inner loop of `_InternalFlushQueuedSends`:** `localQueue` is empty, or its first
frame is not sent completely, or it is and the loop goes on. -/
theorem sendLoop_succ {n total sent sent' left : ℕ} {stop : LoopEnd} (hw : p.WF)
    (h : sendLoop (n + 1) p total sent = some (p', sent', left, stop)) :
    (p.localQueue.length = p.localQueueOffset ∧ p' = p ∧ sent' = sent ∧ left = n + 1 ∧ stop = .empty) ∨
    (∃ f fs, p.queued = f :: fs ∧ stop = .blocked ∧
      Sent p p' f.rest.length (decide (1 < total - sent)) false) ∨
    ∃ f p₁, Advances p p₁ f (decide (1 < total - sent)) ∧
      sendLoop n p₁ total (sent + 1) = some (p', sent', left, stop) := by
  rw [sendLoop] at h
  split_ifs at h with hempty
  · obtain ⟨rfl, rfl, rfl, rfl⟩ := by simpa using h
    exact .inl ⟨hempty, rfl, rfl, rfl, rfl⟩
  have hlt : p.localQueueOffset < p.localQueue.length := lt_of_le_of_ne hw.local_le (Ne.symm hempty)
  obtain ⟨q, f', b, hsend, hwq, hk, -⟩ := internalSend_spec hw.toBufferWF
    p.localQueue[p.localQueueOffset] (decide (1 < total - sent))
  have hs : Sent p q _ _ b := internalSendNested_sent _ hw.toBufferWF hsend
  have hqueued : p.queued = p.localQueue[p.localQueueOffset] ::
      (p.localQueue.drop (p.localQueueOffset + 1) ++ p.globalQueue) := by
    rw [queued, List.drop_eq_getElem_cons hlt]
    rfl
  simp only [List.getElem?_eq_getElem hlt, hsend, Option.bind_eq_bind, Option.bind_some] at h
  cases b with
  | false =>
    obtain ⟨rfl, -, -, rfl⟩ := by simpa using h
    exact .inr (.inl ⟨_, _, hqueued, rfl, hs.requeue _ q.localQueueOffset⟩)
  | true =>
    refine .inr (.inr ⟨p.localQueue[p.localQueueOffset], { q with
      localQueue := q.localQueue.set q.localQueueOffset { f' with data := [] }
      localQueueOffset := q.localQueueOffset + 1 }, ⟨?_, ?_, hk.globalQueue, hk.writeBufferCapacity,
      hs.requeue _ _⟩, by simpa using h⟩)
    · refine ⟨⟨hwq.socket, hwq.capacity_pos, hwq.offset_le, hwq.size_le, hwq.drained⟩, ?_, ?_⟩
      · rw [List.length_set, hk.localQueue, hk.localQueueOffset]
        exact hlt
      · rw [hk.globalQueue]
        exact hw.global_unsent
    · rw [hqueued, queued]
      simp only [hk.localQueue, hk.localQueueOffset, hk.globalQueue,
        List.drop_set_of_lt (Nat.lt_succ_self _)]

/-- What the inner loop leaves of the queues, unless the socket stops it. -/
theorem sendLoop_queued (n : ℕ) {total sent sent' left : ℕ} {stop : LoopEnd} (hw : p.WF)
    (hq : total - sent = p.queued.length) (h : sendLoop n p total sent = some (p', sent', left, stop))
    (hs : stop ≠ .blocked) :
    total - sent' = p'.queued.length ∧ p'.globalQueue = p.globalQueue ∧
      (left = 0 ∨ p'.localQueue.length = p'.localQueueOffset) := by
  induction n generalizing p sent with
  | zero =>
    obtain ⟨rfl, rfl, rfl, -⟩ := by simpa [sendLoop] using h
    exact ⟨hq, rfl, .inl rfl⟩
  | succ n ih =>
    rcases sendLoop_succ hw h with ⟨hempty, rfl, rfl, -, -⟩ | ⟨f, fs, -, rfl, -⟩ | ⟨f, p₁, ha, h⟩
    · exact ⟨hq, rfl, .inr hempty⟩
    · exact absurd rfl hs
    · have hlen := congrArg List.length ha.queued
      rw [List.length_cons] at hlen
      obtain ⟨hq', hg, hend⟩ := ih ha.wf (by omega) h
      exact ⟨hq', hg.trans ha.globalQueue, hend⟩

/-- What a loop over the queues comes to: a socket that takes everything takes some bytes directly, as
some frame does not go through the buffer; or the socket did not take everything; or all went through
the buffer, and whether the frames do that the loop began with depends on those that are left. -/
inductive Looped (p p' : TcpPeer) (n left : ℕ) (stop : LoopEnd) : Prop
  | lost (d : ℕ) (hc : Counts p p' d) (hd : p.TakesAll → 0 < d) (hno : ¬p.BatchesAhead n)
  | blocked (hc : Counts p p' 0) (hno : ¬p.TakesAll) (hs : stop = .blocked)
  | through (hc : Counts p p' 0) (hs : stop ≠ .blocked) (hiff : p.BatchesAhead n ↔ p'.BatchesAhead left)

theorem Looped.counts {n left : ℕ} {stop : LoopEnd} (h : Looped p p' n left stop) : ∃ d, Counts p p' d := by
  cases h with
  | lost d hc hd hno => exact ⟨d, hc⟩
  | blocked hc hno hs => exact ⟨0, hc⟩
  | through hc hs hiff => exact ⟨0, hc⟩

/-- The frames ahead of a peer, with the first one apart. -/
theorem batchesAhead_succ {f : SendFrameStruct} {fs : List SendFrameStruct} (h : p.queued = f :: fs) (n : ℕ) :
    p.BatchesAhead (n + 1) ↔
      Fits p.writeBufferCapacity p.writeBuffer.length f.rest.length (decide (1 < p.queued.length)) ∧
        Batches p.writeBufferCapacity (p.writeBuffer.length + f.rest.length) n
          (fs.map fun f => f.rest.length) := by
  rw [BatchesAhead, lengths, h, List.map_cons, batches_cons, List.length_map, List.length_cons]
  simp

/-- **The inner loop of `_InternalFlushQueuedSends`** counts the frames that go through the buffer, and
loses some of the first that does not. -/
theorem sendLoop_looped (n : ℕ) {total sent sent' left : ℕ} {stop : LoopEnd} (hw : p.WF)
    (hq : total - sent = p.queued.length)
    (h : sendLoop n p total sent = some (p', sent', left, stop)) : Looped p p' n left stop := by
  induction n generalizing p sent with
  | zero =>
    obtain ⟨rfl, rfl, rfl, rfl⟩ := by simpa [sendLoop] using h
    exact .through (Counts.refl p) (by simp) Iff.rfl
  | succ n ih =>
    rcases sendLoop_succ hw h with ⟨-, rfl, rfl, rfl, rfl⟩ | ⟨f, fs, hf, rfl, hs⟩ | ⟨f, p₁, ha, h⟩
    · exact .through (Counts.refl p') (by simp) Iff.rfl
    · rw [hq] at hs
      rcases hs with ⟨-, hb⟩ | ⟨hno, d, hc, hd⟩
      · exact .blocked hb.counts (fun ht => absurd (hb.takesAll ht) Bool.false_ne_true) rfl
      · exact .lost d hc hd fun hB => hno ((batchesAhead_succ hf n).mp hB).1
    · have hlen := congrArg List.length ha.queued
      rw [List.length_cons] at hlen
      have hloop := ih ha.wf (by omega) h
      have hahead := batchesAhead_succ ha.queued n
      have hs := ha.sent
      rw [hq] at hs
      rcases hs with ⟨hfits, hb⟩ | ⟨hno, d, hc, hd⟩
      · -- the frame is in the buffer: the condition is about those behind it
        have hiff : p.BatchesAhead (n + 1) ↔ p₁.BatchesAhead n := by
          rw [hahead, and_iff_right hfits, BatchesAhead, lengths, ha.capacity]
          cases hfs : p₁.queued with
          | nil => exact iff_of_true batches_nil batches_nil
          | cons g gs =>
            refine batches_congr (hb.length rfl ?_).symm
            rw [hlen, hfs]
            simp
        cases hloop with
        | lost d hc hd hno =>
          exact .lost d (by simpa using hb.counts.trans hc) (fun ht => hd (hb.counts.takesAll ht))
            fun hB => hno (hiff.mp hB)
        | blocked hc hno hs => exact .blocked (hb.counts.trans hc) (fun ht => hno (hb.counts.takesAll ht)) hs
        | through hc hs hiff' => exact .through (hb.counts.trans hc) hs (hiff.trans hiff')
      · obtain ⟨e, he⟩ := hloop.counts
        exact .lost (d + e) (hc.trans he) (fun ht => Nat.add_pos_left (hd ht) e) fun hB =>
          hno (hahead.mp hB).1

/-- What an event comes to, with the condition that none of its frames is written directly: either it
does not hold and a socket that takes everything takes some bytes directly, or all bytes are counted and
it holds unless the socket did not take everything. -/
def Accounts (p p' : TcpPeer) (batched : Prop) : Prop :=
  (∃ d, Counts p p' d ∧ (p.TakesAll → 0 < d) ∧ ¬batched) ∨ Counts p p' 0 ∧ (p.TakesAll → batched)

theorem Accounts.trans {batched : Prop} (h : Accounts p q batched) (hc : Counts q p' 0) :
    Accounts p p' batched := by
  rcases h with ⟨d, hd, hpos, hno⟩ | ⟨hd, hall⟩
  · exact .inl ⟨d, hd.trans hc, hpos, hno⟩
  · exact .inr ⟨hd.trans hc, hall⟩

theorem Accounts.accepted_le {batched : Prop} (h : Accounts p p' batched) :
    p.accepted.length ≤ p'.accepted.length := by
  rcases h with ⟨d, hc, -⟩ | ⟨hc, -⟩
  · exact hc.accepted_le
  · exact hc.accepted_le

theorem dequeueToLocalQueue_counts (p : TcpPeer) : Counts p p.dequeueToLocalQueue 0 := by
  rcases eq_or_ne p.localQueue.length p.localQueueOffset with h | h
  · rw [dequeueToLocalQueue_of_empty h]
    exact .of_eq rfl rfl rfl rfl
  · rw [dequeueToLocalQueue, if_pos h]
    exact Counts.refl p

/-- Swapping the queues changes nothing of what is ahead. -/
theorem dequeueToLocalQueue_ahead (p : TcpPeer) :
    p.dequeueToLocalQueue.queued = p.queued ∧
      ∀ n, p.dequeueToLocalQueue.BatchesAhead n ↔ p.BatchesAhead n := by
  rcases eq_or_ne p.localQueue.length p.localQueueOffset with h | h
  · have hqueued : p.dequeueToLocalQueue.queued = p.queued := by
      simp [dequeueToLocalQueue_of_empty h, queued, h.le]
    refine ⟨hqueued, fun n => ?_⟩
    rw [BatchesAhead, BatchesAhead, lengths, lengths, hqueued, dequeueToLocalQueue_of_empty h]
  · rw [dequeueToLocalQueue, if_pos h]
    exact ⟨rfl, fun _ => Iff.rfl⟩

theorem Looped.of_dequeue {n left : ℕ} {stop : LoopEnd} (h : Looped p.dequeueToLocalQueue p' n left stop) :
    Looped p p' n left stop := by
  have hc₀ := dequeueToLocalQueue_counts p
  have hahead := (dequeueToLocalQueue_ahead p).2 n
  cases h with
  | lost d hc hd hno =>
    exact .lost d (by simpa using hc₀.trans hc) (fun ht => hd (hc₀.takesAll ht)) (mt hahead.mpr hno)
  | blocked hc hno hs => exact .blocked (hc₀.trans hc) (fun ht => hno (hc₀.takesAll ht)) hs
  | through hc hs hiff => exact .through (hc₀.trans hc) hs (hahead.symm.trans hiff)

/-- Two loops one after the other. -/
theorem Looped.trans {n left left' : ℕ} {stop stop' : LoopEnd} (h : Looped p q n left stop)
    (hs : stop ≠ .blocked) (h' : Looped q p' left left' stop') : Looped p p' n left' stop' := by
  cases h with
  | lost d hc hd hno =>
    obtain ⟨e, he⟩ := h'.counts
    exact .lost (d + e) (hc.trans he) (fun ht => Nat.add_pos_left (hd ht) e) hno
  | blocked hc hno hs' => exact absurd hs' hs
  | through hc hs' hiff =>
    cases h' with
    | lost d hc' hd hno =>
      exact .lost d (by simpa using hc.trans hc') (fun ht => hd (hc.takesAll ht)) (mt hiff.mp hno)
    | blocked hc' hno hs'' => exact .blocked (hc.trans hc') (fun ht => hno (hc.takesAll ht)) hs''
    | through hc' hs'' hiff' => exact .through (hc.trans hc') hs'' (hiff.trans hiff')

/-- A loop that comes to all frames, unless the socket stops it. -/
theorem Looped.accounts {n left : ℕ} {stop : LoopEnd} (h : Looped p p' n left stop)
    (hall : stop ≠ .blocked → p'.BatchesAhead left) : Accounts p p' (p.BatchesAhead n) := by
  cases h with
  | lost d hc hd hno => exact .inl ⟨d, hc, hd, hno⟩
  | blocked hc hno hs => exact .inr ⟨hc, fun ht => absurd ht hno⟩
  | through hc hs hiff => exact .inr ⟨hc, fun _ => hiff.mpr (hall hs)⟩

/-- **The outer loop of `_InternalFlushQueuedSends`** takes the frames of `localQueue` and then those of
`globalQueue`, so that its two rounds come to all frames that the budget allows. -/
theorem flushRounds_accounts (hw : p.WF) {total left sent' : ℕ} {ret : Bool}
    (hq : total = p.queued.length) (h : flushRounds total 2 p left 0 = some (p', sent', ret)) :
    Accounts p p' (p.BatchesAhead left) := by
  obtain ⟨⟨p₁, sent₁, left₁, stop₁⟩, hloop₁, h⟩ := Option.bind_eq_some_iff.mp h
  have hw₀ := (dequeueToLocalQueue_spec hw).wf
  have hq₀ : total - 0 = p.dequeueToLocalQueue.queued.length := by
    rw [(dequeueToLocalQueue_ahead p).1, hq, Nat.sub_zero]
  have hlooped₁ := (sendLoop_looped left hw₀ hq₀ hloop₁).of_dequeue
  by_cases hstop₁ : stop₁ = .blocked
  · simp only [hstop₁, if_true] at h
    obtain ⟨rfl, -⟩ := Prod.mk.inj (Option.some.inj h)
    exact hlooped₁.accounts fun hs => absurd hstop₁ hs
  -- the second round begins with what the first has left of the queues
  simp only [hstop₁, if_false] at h
  obtain ⟨hq₁, -, hend₁⟩ := sendLoop_queued left hw₀ hq₀ hloop₁ hstop₁
  rw [← (dequeueToLocalQueue_ahead p₁).1] at hq₁
  obtain ⟨_, _, _, _, hrun₁, hs₁⟩ := sendLoop_spec left hw₀ total 0
  obtain ⟨rfl, -⟩ := Prod.mk.inj (Option.some.inj (hloop₁.symm.trans hrun₁))
  have hw₁ := (dequeueToLocalQueue_spec hs₁.wf).wf
  obtain ⟨⟨p₂, sent₂, left₂, stop₂⟩, hloop₂, h⟩ := Option.bind_eq_some_iff.mp h
  obtain rfl : p₂ = p' := by
    simp only at h
    split_ifs at h <;> exact (Prod.mk.inj (Option.some.inj h)).1
  refine (hlooped₁.trans hstop₁ (sendLoop_looped left₁ hw₁ hq₁ hloop₂).of_dequeue).accounts fun hs₂ => ?_
  -- the budget is used up, or both queues are empty
  obtain ⟨-, hg₂, hend₂⟩ := sendLoop_queued left₁ hw₁ hq₁ hloop₂ hs₂
  rcases hend₂ with rfl | hend₂
  · exact batches_zero
  rcases hend₁ with rfl | hend₁
  · obtain ⟨-, -, rfl, -⟩ := by simpa [sendLoop] using hloop₂
    exact batches_zero
  · have hnil : p₂.queued = [] := by
      rw [queued, hg₂, dequeueToLocalQueue_of_empty hend₁, List.append_nil,
        List.drop_eq_nil_of_le hend₂.le]
    rw [BatchesAhead, lengths, hnil]
    exact batches_nil

/-- **`_InternalOnWritable`** counts every byte where no frame meets an empty buffer and is long or the
last one, and otherwise loses bytes to a socket that takes everything. -/
theorem onWritable_accounts (hw : p.WF) {b : Bool} (h : p.onWritable = some (p', b)) :
    Accounts p p' p.Batched := by
  rw [onWritable] at h
  split_ifs at h with hoff
  · obtain ⟨rfl, -⟩ := Prod.mk.inj (Option.some.inj h)
    refine .inr ⟨Counts.refl p, fun _ hready hdis hcl => ?_⟩
    simp [hready, hdis, hcl] at hoff
  obtain ⟨⟨q, ret⟩, hflush, h⟩ := Option.bind_eq_some_iff.mp h
  simp only [not_or, Bool.not_eq_true, Bool.not_eq_false] at hoff
  have hiff : p.Batched ↔ p.BatchesAhead 384 := ⟨fun hB => hB hoff.1 hoff.2.1 hoff.2.2, fun hB _ _ _ => hB⟩
  have hq : Accounts p q p.Batched := by
    rw [hiff]
    rw [flushQueuedIfAny] at hflush
    split_ifs at hflush with hany
    · obtain ⟨⟨r, sent, ret'⟩, hrounds, hflush⟩ := Option.bind_eq_some_iff.mp hflush
      obtain ⟨rfl, -⟩ := Prod.mk.inj (Option.some.inj hflush)
      refine (flushRounds_accounts hw ?_ hrounds).trans (.of_eq rfl rfl rfl rfl)
      have := hw.local_le
      rw [queued, List.length_append, List.length_drop]
      omega
    · obtain ⟨rfl, -⟩ := Prod.mk.inj (Option.some.inj hflush)
      have hnil : p.queued = [] := by
        simp only [hasQueuedSends, Bool.or_eq_true, bne_iff_ne, not_or, not_not] at hany
        rw [queued, hany.1, List.drop_length, List.nil_append, List.eq_nil_of_length_eq_zero hany.2]
      refine .inr ⟨Counts.refl p, fun _ => ?_⟩
      rw [BatchesAhead, lengths, hnil]
      exact batches_nil
  simp only at h
  split_ifs at h with hbuf
  · obtain ⟨⟨r, c⟩, hfl, h⟩ := Option.bind_eq_some_iff.mp h
    obtain ⟨rfl, -⟩ := Prod.mk.inj (Option.some.inj h)
    exact hq.trans (flushBufferedSends_counts hfl).1
  · obtain ⟨rfl, -⟩ := Prod.mk.inj (Option.some.inj h)
    exact hq

/-! ### Runs -/

/-- **Every byte is counted:** the counters of the peer, its host and its loop have grown by what the
socket has taken. -/
def Counted (p p' : TcpPeer) : Prop :=
  p'.stats.bytesSent + p.accepted.length = p.stats.bytesSent + p'.accepted.length ∧
    p'.hostStats.bytesSent + p.accepted.length = p.hostStats.bytesSent + p'.accepted.length ∧
    p'.loopStats.bytesSent + p.accepted.length = p.loopStats.bytesSent + p'.accepted.length

/-- Every byte is counted just when none was taken directly. -/
theorem Counts.counted_iff (h : Counts p p' d) : Counted p p' ↔ d = 0 := by
  obtain ⟨n, hs, hh, hl, ha⟩ := h.counted
  constructor
  · rintro ⟨h, -⟩
    omega
  · rintro rfl
    exact ⟨by omega, by omega, by omega⟩

/-- What is asked of the state before an operation: a writable event finds frames that go through the
buffer. -/
def Batching (p : TcpPeer) (op : Op) : Prop := op = .writable → p.Batched

instance (p : TcpPeer) (op : Op) : Decidable (p.Batching op) := inferInstanceAs (Decidable (_ → _))

/-- **One operation** returns, keeps the invariant, and counts every byte where its frames go through
the buffer. -/
theorem step_counts (hw : p.WF) (op : Op) :
    ∃ p', p.step op = some p' ∧ p'.WF ∧ (p.Batching op → Counts p p' 0) := by
  cases op with
  | send frame =>
    refine ⟨p.send frame, rfl, ?_, fun _ => ?_⟩
    · unfold send
      split_ifs
      · exact ((kept_count _).sends hw
          ⟨hw.socket, hw.capacity_pos, hw.offset_le, hw.size_le, hw.drained⟩ rfl).wf
      · exact (enqueue_spec hw frame).1
    · unfold send
      split_ifs <;> exact .of_eq rfl rfl rfl rfl
  | writable =>
    obtain ⟨p', b, hrun, hs⟩ := onWritable_spec hw
    refine ⟨p', by simp [step, hrun], hs.wf, fun hB => ?_⟩
    rcases onWritable_accounts hw hrun with ⟨d, -, -, hno⟩ | ⟨hc, -⟩
    · exact absurd (hB rfl) hno
    · exact hc

/-- **A run of such operations** returns and counts every byte, whatever the socket answers. -/
theorem run_counts (ops : List Op) (hw : p.WF) (hB : Along step Batching p ops) :
    ∃ p', p.run ops = some p' ∧ Counts p p' 0 := by
  induction ops generalizing p with
  | nil => exact ⟨p, rfl, Counts.refl p⟩
  | cons op ops ih =>
    obtain ⟨q, hstep, hwq, hq⟩ := step_counts hw op
    obtain ⟨p', hrun, hc⟩ := ih hwq (hB.2 q hstep)
    exact ⟨p', foldlM_cons_eq_some.mpr ⟨q, hstep, hrun⟩, (hq hB.1).trans hc⟩

/-- The invariant along a run. -/
theorem run_wf (ops : List Op) (hw : p.WF) (hrun : p.run ops = some p') : p'.WF := by
  refine run_invariant (I := WF) (fun q op q' hq hstep => ?_) ops hw hrun
  obtain ⟨q₁, hstep', hwq, -⟩ := step_counts hq op
  rwa [Option.some.inj (hstep.symm.trans hstep')]

/-- The peer with a socket that will give other answers. -/
def answering (p : TcpPeer) (respond : ℕ → List UInt8 → Bool → ℤ)
    (hle : ∀ n data msgMore, respond n data msgMore ≤ data.length) : TcpPeer :=
  { p with socket := p.socket.map fun s => { s with respond, respond_le := hle } }

theorem answering_wf (hw : p.WF) {respond : ℕ → List UInt8 → Bool → ℤ}
    (hle : ∀ n data msgMore, respond n data msgMore ≤ data.length) : (p.answering respond hle).WF :=
  ⟨⟨by simpa [answering] using hw.socket, hw.capacity_pos, hw.offset_le, hw.size_le, hw.drained⟩,
    hw.local_le, hw.global_unsent⟩

/-- **When `bytesSent` counts every byte.**  In every run of a tcp peer whose writable events begin
with frames that go through the buffer (`Batched`: none that is queued meets the buffer empty with more
than 1200 bytes left or with no frame behind it), `bytesSent` of the peer, the host and the loop grow by
exactly the bytes that the socket takes, whatever it answers.  And this is what can be asked of a state:
in any state that a run comes to, a writable event counts every byte for all answers that the socket may
give if and only if the state is so. -/
theorem bytesSent_iff (hw : p.WF) (ops : List Op) :
    (Along step Batching p ops → ∃ p', p.run ops = some p' ∧ Counted p p') ∧
      ∀ u, p.run ops = some u →
        ((∀ (respond : ℕ → List UInt8 → Bool → ℤ)
            (hle : ∀ n data msgMore, respond n data msgMore ≤ data.length),
          ∃ u', (u.answering respond hle).step .writable = some u' ∧
            Counted (u.answering respond hle) u') ↔ u.Batched) := by
  refine ⟨fun hB => ?_, fun u hrun => ⟨fun hall => ?_, fun hB respond hle => ?_⟩⟩
  · obtain ⟨p', hrun, hc⟩ := run_counts ops hw hB
    exact ⟨p', hrun, hc.counted_iff.mpr rfl⟩
  · -- a socket that takes everything
    obtain ⟨u', hstep, hcounted⟩ := hall (fun _ data _ => data.length) fun _ _ _ => le_rfl
    obtain ⟨⟨v, b⟩, hon, rfl⟩ := Option.map_eq_some_iff.mp hstep
    have htakes : (u.answering (fun _ data _ => data.length) fun _ _ _ => le_rfl).TakesAll := by
      rintro respond hr n data msgMore
      obtain ⟨s, hs, rfl⟩ := Option.map_eq_some_iff.mp hr
      obtain ⟨s', -, rfl⟩ := Option.map_eq_some_iff.mp hs
      rfl
    rcases onWritable_accounts (answering_wf (run_wf ops hw hrun) _) hon with ⟨d, hc, hd, -⟩ | ⟨-, hB⟩
    · have := hc.counted_iff.mp hcounted
      have := hd htakes
      omega
    · exact hB htakes
  · obtain ⟨u', hstep, -, hc⟩ := step_counts (answering_wf (run_wf ops hw hrun) hle) .writable
    exact ⟨u', hstep, (hc fun _ => hB).counted_iff.mpr rfl⟩

/-- A peer that is ready, with a socket that takes everything. -/
def greedy : TcpPeer :=
  { ofSocket ⟨fun _ data _ => data.length, fun _ _ _ => le_rfl, 0, []⟩ 2048 with isReadyToUse := true }

theorem greedy_wf : greedy.WF :=
  ⟨⟨rfl, by decide, le_rfl, by decide, fun _ => rfl⟩, le_rfl, by simp [greedy, ofSocket]⟩

/-- `bytesSent_iff` on two frames, which leave through the buffer. -/
theorem bytesSent_iff_buffered : ∃ p', greedy.run [.send [1, 2], .send [3], .writable] = some p' ∧
    p'.stats.bytesSent = p'.accepted.length := by
  obtain ⟨p', hrun, hcounted, -⟩ := (bytesSent_iff greedy_wf [.send [1, 2], .send [3], .writable]).1
    (by decide +kernel)
  exact ⟨p', hrun, by simpa [greedy, ofSocket, accepted] using hcounted⟩

/-- One frame, which leaves directly: the socket has taken three bytes, and none is counted. -/
theorem bytesSent_direct : ∃ p', greedy.run [.send [1, 2, 3], .writable] = some p' ∧
    p'.accepted = [1, 2, 3] ∧ p'.stats.bytesSent = 0 ∧ p'.hostStats.bytesSent = 0 ∧
      p'.loopStats.bytesSent = 0 := by
  refine ⟨_, rfl, ?_⟩
  decide

end TcpPeer
end ICon7
