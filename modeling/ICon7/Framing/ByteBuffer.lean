/-
# Writable byte buffers

`ByteBufferWritable` in `include/icon7/ByteBuffer.hpp` and `src/ByteBuffer.cpp`,
with `FramingProtocol::WriteHeaderIntoBuffer` on top of it.

A buffer is one allocation `mem`, the empty list standing for `nullptr`.  Its
bytes start at `offset` and the room in front of them is the headroom that
`prepend` eats into, down to `sizeof(ByteBufferStorageHeader)` bytes, which
`ByteBufferReadable` later overwrites with its own bookkeeping.  Bytes that the
program never wrote keep whatever the allocation held, so `prepend` without a
source shows old memory until `WriteHeader` fills it.

Every operation returns `none` where the code fails an assertion, writes past
an allocation, or does not end a loop.  The allocator is a parameter of each
operation: all that is known of it is that it returns at least what was asked.
-/

import ICon7.Framing.Header

namespace ICon7
namespace Framing

/-- `MemoryPool::Allocate`: the contents of the allocation for a request, at
least as long as the request. -/
structure MemoryPool where
  allocate : ℕ → List UInt8
  le_length : ∀ n, n ≤ (allocate n).length

/-- An allocator that returns exactly what was asked for, filled with zeros. -/
def MemoryPool.zeroed : MemoryPool := ⟨fun n => List.replicate n 0, by simp⟩

/-- `ByteBufferStorageHeader::INITIAL_DATA_OFFSET`. -/
def INITIAL_DATA_OFFSET : ℕ := 32

/-- `sizeof(ByteBufferStorageHeader)`: five 32-bit fields. -/
def sizeofStorageHeader : ℕ := 20

/-- The fields of `ByteBufferWritable`, `mem` being the allocation behind
`buffer - _offset`. -/
structure ByteBufferWritable where
  mem : List UInt8
  size : ℕ
  capacity : ℕ
  offset : ℕ
  flags : Flags
  deriving DecidableEq, Repr

namespace ByteBufferWritable

/-- `ByteBufferWritable()`. -/
def empty : ByteBufferWritable := ⟨[], 0, 0, 0, 0⟩

/-- The bytes `data()[0 .. size())`. -/
def data (b : ByteBufferWritable) : List UInt8 := (b.mem.drop b.offset).take b.size

/-- The loop of `round_capacity_up`, at most `fuel` rounds of it. -/
def roundLoop (diff capacity : ℕ) : ℕ → ℕ → Option ℕ
  | 0, _ => none
  | fuel + 1, maxCap =>
    if capacity ≤ maxCap then
      if diff ≤ maxCap then roundLoop diff capacity fuel (maxCap - diff) else none
    else some maxCap

/-- `round_capacity_up`. -/
def roundCapacityUp (capacity : ℕ) : Option ℕ := do
  guard (capacity < 1 <<< 30)
  let capacity := capacity + INITIAL_DATA_OFFSET
  let width := Nat.log2 (max capacity 64) + 1
  let diff := 1 <<< (width - 2)
  let maxCap ← roundLoop diff capacity 5 (1 <<< width)
  return maxCap + diff - INITIAL_DATA_OFFSET

/-- `ByteBufferWritable(uint32_t capacity)`. -/
def ofCapacity (pool : MemoryPool) (capacity : ℕ) : Option ByteBufferWritable :=
  if capacity = 0 then some empty
  else do
    let capacity ← roundCapacityUp capacity
    let mem := pool.allocate (capacity + INITIAL_DATA_OFFSET)
    return ⟨mem, 0, mem.length - INITIAL_DATA_OFFSET, INITIAL_DATA_OFFSET, 0⟩

/-- `memcpy(buffer + pos, src, …)`; `none` is a write past the allocation. -/
def memcpy (b : ByteBufferWritable) (pos : ℕ) (src : List UInt8) : Option ByteBufferWritable :=
  if b.offset + pos + src.length ≤ b.mem.length then
    some { b with
      mem := b.mem.take (b.offset + pos) ++ src ++ b.mem.drop (b.offset + pos + src.length) }
  else none

/-- What `append` does after its `reserve`. -/
def appendReserved (b : ByteBufferWritable) (src : List UInt8) : Option ByteBufferWritable := do
  let b ← b.memcpy b.size src
  return { b with size := b.size + src.length }

/-- `reserve_or_shrink`.  The nested `append` copies no more than the new
capacity, so its own `reserve` has nothing to do. -/
def reserveOrShrink (pool : MemoryPool) (b : ByteBufferWritable) (minCapacity : ℕ) :
    Option ByteBufferWritable := do
  guard (b.size ≤ b.capacity)
  let capacity ← roundCapacityUp minCapacity
  let buf ← ofCapacity pool capacity
  let buf := { buf with flags := b.flags }
  let buf ←
    if b.mem ≠ [] then buf.appendReserved (b.data.take (min b.size buf.capacity))
    else do
      guard (b.size = 0 ∧ b.capacity = 0 ∧ b.offset = 0)
      pure buf
  guard (buf.mem ≠ [])
  return buf

/-- `reserve`. -/
def reserve (pool : MemoryPool) (b : ByteBufferWritable) (newCapacity : ℕ) :
    Option ByteBufferWritable := do
  guard (newCapacity < 1 <<< 30)
  guard (b.size ≤ b.capacity)
  let b ←
    if b.capacity < newCapacity then do
      guard (b.size ≤ newCapacity)
      let b ← b.reserveOrShrink pool newCapacity
      guard (b.mem ≠ [])
      guard (newCapacity ≤ b.capacity)
      pure b
    else pure b
  if b.mem ≠ [] then guard (b.capacity ≠ 0 ∧ b.offset ≠ 0)
  else guard (b.capacity = 0 ∧ b.offset = 0 ∧ b.size = 0)
  return b

/-- `append`. -/
def append (pool : MemoryPool) (b : ByteBufferWritable) (src : List UInt8) :
    Option ByteBufferWritable := do
  let b ← b.reserve pool ((b.size + src.length) % 2 ^ 32)
  b.appendReserved src

/-- `resize`. -/
def resize (pool : MemoryPool) (b : ByteBufferWritable) (newSize : ℕ) :
    Option ByteBufferWritable := do
  let b ← if b.capacity < newSize then b.reserve pool newSize else pure b
  return { b with size := newSize }

/-- `clear`. -/
def clear (b : ByteBufferWritable) : Option ByteBufferWritable :=
  if b.mem ≠ [] then
    some ⟨b.mem, 0, b.capacity + b.offset - INITIAL_DATA_OFFSET, INITIAL_DATA_OFFSET, 0⟩
  else do
    guard (b.capacity = 0 ∧ b.offset = 0)
    return { b with size := 0, flags := 0 }

/-- `prepend`; `src = none` is the null source. -/
def prepend (pool : MemoryPool) (b : ByteBufferWritable) (src : Option (List UInt8)) (bytes : ℕ) :
    Option ByteBufferWritable := do
  guard ((b.mem ≠ [] ∧ b.capacity ≠ 0) ∨ (b.mem = [] ∧ b.capacity = 0))
  if b.offset < sizeofStorageHeader + bytes then
    -- the headroom is used up: the new buffer takes the bytes but not the flags
    let buf ← ofCapacity pool ((bytes + b.capacity) % 2 ^ 32)
    let buf ←
      match src with
      | some src => buf.append pool src
      | none => pure { buf with size := buf.size + bytes }
    if b.size ≠ 0 then buf.append pool b.data else pure buf
  else if b.mem = [] then
    match src with
    | some src => b.append pool src
    | none => b.resize pool bytes
  else
    let b := { b with
      offset := b.offset - bytes, size := b.size + bytes, capacity := b.capacity + bytes }
    match src with
    | some src => b.memcpy 0 src
    | none => pure b

/-! ### What the operations do to the bytes -/

/-- An assertion that holds lets the computation go on. -/
theorem guard_of {p : Prop} [Decidable p] (h : p) : (guard p : Option Unit) = some () := if_pos h

/-- What every operation keeps: the bytes fit, the capacity reaches the end of
the allocation, and an allocated buffer has room for the storage header in
front of its bytes. -/
structure WF (b : ByteBufferWritable) : Prop where
  size_le : b.size ≤ b.capacity
  length_mem : b.mem.length = b.offset + b.capacity
  headroom : b.mem ≠ [] → sizeofStorageHeader ≤ b.offset ∧ 0 < b.capacity

theorem WF.length_data {b : ByteBufferWritable} (h : b.WF) : b.data.length = b.size := by
  have h1 := h.size_le
  have h2 := h.length_mem
  simp only [data, List.length_take, List.length_drop]
  omega

/-- The loop stops at the last multiple of `diff` below `capacity`. -/
theorem roundLoop_spec {diff capacity : ℕ} (hc : 0 < capacity) :
    ∀ k fuel : ℕ, k < fuel → capacity ≤ (k + 1) * diff →
      ∃ j, roundLoop diff capacity fuel (k * diff) = some (j * diff) ∧
        j * diff < capacity ∧ capacity ≤ (j + 1) * diff
  | k, fuel + 1, hk, hle => by
    by_cases h : capacity ≤ k * diff
    · obtain _ | k := k
      · omega
      · obtain ⟨j, hj, h1, h2⟩ := roundLoop_spec hc k fuel (by omega) h
        have hsub : (k + 1) * diff - diff = k * diff := by rw [Nat.add_mul]; omega
        refine ⟨j, ?_, h1, h2⟩
        rw [roundLoop, if_pos h, if_pos (by rw [Nat.add_mul]; omega), hsub, hj]
    · exact ⟨k, by rw [roundLoop, if_neg h], by omega, hle⟩

/-- Rounding goes to the next multiple of a quarter of the power of two above the capacity. -/
theorem roundCapacityUp_eq {c : ℕ} (hc : c < 2 ^ 30) :
    ∃ m j, 5 ≤ m ∧ 2 * 2 ^ m ≤ max (c + 32) 64 ∧ max (c + 32) 64 < 4 * 2 ^ m ∧
      roundCapacityUp c = some ((j + 1) * 2 ^ m - 32) ∧
      j * 2 ^ m < c + 32 ∧ c + 32 ≤ (j + 1) * 2 ^ m := by
  obtain ⟨m, hm⟩ : ∃ m, Nat.log2 (max (c + 32) 64) = m + 1 :=
    Nat.exists_eq_add_one.2 ((Nat.le_log2 (by omega)).2 (le_trans (by norm_num) (le_max_right _ _)))
  have h6 : 6 ≤ m + 1 := hm ▸ (Nat.le_log2 (by omega)).2 (le_max_right _ _)
  have hlow : 2 * 2 ^ m ≤ max (c + 32) 64 := by
    have hlog := Nat.log2_self_le (n := max (c + 32) 64) (by omega)
    rwa [hm, Nat.pow_succ'] at hlog
  have hfour : 2 ^ (m + 2) = 4 * 2 ^ m := by rw [Nat.pow_add]; omega
  have hhigh : max (c + 32) 64 < 4 * 2 ^ m := by
    have hlog := Nat.lt_log2_self (n := max (c + 32) 64)
    rwa [hm, hfour] at hlog
  have hle : c + 32 ≤ (4 + 1) * 2 ^ m := by
    have := le_max_left (c + 32) 64
    omega
  obtain ⟨j, hj, h1, h2⟩ := roundLoop_spec (show 0 < c + 32 by omega) 4 5 (by omega) hle
  refine ⟨m, j, by omega, hlow, hhigh, ?_, h1, h2⟩
  simp only [roundCapacityUp, guard, Nat.one_shiftLeft, hc, if_true, INITIAL_DATA_OFFSET, hm,
    Nat.add_sub_cancel, show m + 1 + 1 = m + 2 from rfl, hfour, hj]
  rw [Nat.add_one_mul]
  rfl

/-- Rounding a capacity below `2 ^ 30` succeeds, does not shrink it and adds at most half of it. -/
theorem roundCapacityUp_spec {c : ℕ} (hc : c < 2 ^ 30) :
    ∃ r, roundCapacityUp c = some r ∧ c ≤ r ∧ 2 * r ≤ 3 * c + 96 := by
  obtain ⟨m, j, -, hlow, -, hr, h1, h2⟩ := roundCapacityUp_eq hc
  refine ⟨_, hr, by omega, ?_⟩
  rw [Nat.add_mul] at h2 ⊢
  omega

/-- What the capacity constructor makes. -/
theorem ofCapacity_of_round (pool : MemoryPool) {n r : ℕ} (h0 : n ≠ 0)
    (hr : roundCapacityUp n = some r) :
    ofCapacity pool n = some ⟨pool.allocate (r + INITIAL_DATA_OFFSET), 0,
      (pool.allocate (r + INITIAL_DATA_OFFSET)).length - INITIAL_DATA_OFFSET,
      INITIAL_DATA_OFFSET, 0⟩ := by
  rw [ofCapacity, if_neg h0, hr]
  rfl

/-- A new buffer is empty, has the initial headroom and the capacity asked for. -/
theorem ofCapacity_spec (pool : MemoryPool) {n : ℕ} (h0 : n ≠ 0) (hn : n < 2 ^ 30) :
    ∃ b, ofCapacity pool n = some b ∧ b.WF ∧ b.mem ≠ [] ∧ b.size = 0 ∧ n ≤ b.capacity ∧
      b.offset = INITIAL_DATA_OFFSET ∧ b.flags = 0 := by
  obtain ⟨r, hr, hle, -⟩ := roundCapacityUp_spec hn
  have hlen := pool.le_length (r + INITIAL_DATA_OFFSET)
  have hmk := ofCapacity_of_round pool h0 hr
  generalize pool.allocate (r + INITIAL_DATA_OFFSET) = mem at hlen hmk
  unfold INITIAL_DATA_OFFSET at *
  refine ⟨_, hmk, ⟨Nat.zero_le _, ?_, fun _ => ?_⟩, ?_, rfl, ?_, rfl, rfl⟩
  · simp only; omega
  · simp only [sizeofStorageHeader]; omega
  · rintro rfl
    simp at hlen
  · simp only; omega

/-- Copying within the allocation replaces exactly the bytes under the copy. -/
theorem memcpy_spec {b : ByteBufferWritable} (h : b.WF) (pos : ℕ) (src : List UInt8)
    (hpos : pos + src.length ≤ b.capacity) :
    ∃ b', b.memcpy pos src = some b' ∧ b'.WF ∧ b'.size = b.size ∧ b'.capacity = b.capacity ∧
      b'.offset = b.offset ∧ b'.flags = b.flags ∧
      ∀ n, (b'.mem.drop b.offset).take n =
        ((b.mem.drop b.offset).take pos ++ src ++ (b.mem.drop b.offset).drop (pos + src.length)).take n := by
  have hlen := h.length_mem
  have hcopy : b.memcpy pos src = some { b with
      mem := b.mem.take (b.offset + pos) ++ src ++ b.mem.drop (b.offset + pos + src.length) } :=
    if_pos (by omega)
  refine ⟨_, hcopy, ⟨h.size_le, ?_, ?_⟩, rfl, rfl, rfl, rfl, fun n => ?_⟩
  · simp only [List.length_append, List.length_take, List.length_drop]
    omega
  · intro hne
    refine h.headroom fun hnil => hne ?_
    have : src.length = 0 := by
      simp only [hnil, List.length_nil] at hlen
      omega
    simp [hnil, List.eq_nil_of_length_eq_zero this]
  · congr 1
    simp only
    rw [List.append_assoc, List.drop_append_of_le_length (by simp; omega), List.drop_take,
      List.drop_drop, ← List.append_assoc, show b.offset + pos - b.offset = pos by omega]
    congr 2
    omega

/-- Appending what fits adds the bytes at the end and moves nothing. -/
theorem appendReserved_spec {b : ByteBufferWritable} (h : b.WF) {src : List UInt8}
    (hfit : b.size + src.length ≤ b.capacity) :
    ∃ b', b.appendReserved src = some b' ∧ b'.WF ∧ b'.data = b.data ++ src ∧
      b'.size = b.size + src.length ∧ b'.capacity = b.capacity ∧ b'.offset = b.offset ∧
      b'.flags = b.flags := by
  obtain ⟨c, hc, hwf, hsize, hcap, hoff, hflags, htake⟩ := memcpy_spec h _ _ hfit
  refine ⟨{ c with size := c.size + src.length }, by rw [appendReserved, hc]; rfl,
    ⟨by simp only; omega, hwf.length_mem, hwf.headroom⟩, ?_, by rw [hsize], hcap, hoff, hflags⟩
  simp only [data]
  rw [hoff, htake, List.take_append_of_le_length, List.take_of_length_le]
  · have := h.length_data
    simp only [data] at this
    simp only [List.length_append, this]
    omega
  · have := h.length_data
    simp only [data] at this
    simp only [List.length_append, this]
    omega

/-- Reserving what the buffer already has changes nothing. -/
theorem reserve_of_le (pool : MemoryPool) {b : ByteBufferWritable} (h : b.WF) {n : ℕ}
    (hn : n ≤ b.capacity) (h30 : n < 2 ^ 30) : b.reserve pool n = some b := by
  have hlen := h.length_mem
  have hsize := h.size_le
  have h30' : n < 1 <<< 30 := by rwa [Nat.one_shiftLeft]
  by_cases hmem : b.mem = []
  · rw [hmem, List.length_nil] at hlen
    have hnull : b.capacity = 0 ∧ b.offset = 0 ∧ b.size = 0 := by omega
    simp only [reserve, guard_of h30', guard_of hsize, if_neg (Nat.not_lt.2 hn), ne_eq,
      Option.bind_eq_bind, Option.bind_some, Option.pure_def, hmem, not_true_eq_false, if_false,
      guard_of hnull]
  · obtain ⟨h1, h2⟩ := h.headroom hmem
    have hfull : b.capacity ≠ 0 ∧ b.offset ≠ 0 := by unfold sizeofStorageHeader at h1; omega
    simp only [reserve, guard_of h30', guard_of hsize, if_neg (Nat.not_lt.2 hn),
      Option.bind_eq_bind, Option.bind_some, Option.pure_def, if_pos hmem, guard_of hfull]

/-- Moving the bytes to a new allocation keeps them. -/
theorem reserveOrShrink_spec (pool : MemoryPool) {b : ByteBufferWritable} (h : b.WF) {n r : ℕ}
    (hn : b.capacity < n) (hr : roundCapacityUp n = some r) (hle : n ≤ r) (h30 : r < 2 ^ 30) :
    ∃ c, b.reserveOrShrink pool n = some c ∧ c.WF ∧ c.mem ≠ [] ∧ c.data = b.data ∧ c.size = b.size ∧
      n ≤ c.capacity ∧ c.offset = INITIAL_DATA_OFFSET ∧ c.flags = b.flags := by
  have hsize := h.size_le
  have hlen := h.length_mem
  obtain ⟨buf, hbuf, hwf, hmem, hs0, hcap, hoff, -⟩ :=
    ofCapacity_spec pool (n := r) (by omega) h30
  have hwf' : WF { buf with flags := b.flags } := ⟨hwf.size_le, hwf.length_mem, hwf.headroom⟩
  by_cases hb : b.mem = []
  · rw [hb, List.length_nil] at hlen
    have hnull : b.size = 0 ∧ b.capacity = 0 ∧ b.offset = 0 := by omega
    refine ⟨{ buf with flags := b.flags }, ?_, hwf', hmem, ?_, ?_, by simp only; omega, hoff, rfl⟩
    · simp only [reserveOrShrink, guard_of hsize, hr, hbuf, Option.bind_eq_bind, Option.bind_some, hb, ne_eq,
        not_true_eq_false, if_false, guard_of hnull, guard_of hmem, Option.pure_def]
    · simp [data, hb, hs0]
    · simp only [hs0]
      omega
  · have htake : b.data.take (min b.size buf.capacity) = b.data := by
      rw [List.take_of_length_le]
      rw [h.length_data]
      omega
    have hfit : buf.size + b.data.length ≤ buf.capacity := by
      rw [h.length_data]
      omega
    obtain ⟨c, hc, hcwf, hcdata, hcsize, hccap, hcoff, hcflags⟩ := appendReserved_spec hwf' hfit
    have hcmem : c.mem ≠ [] := by
      intro hnil
      have := hcwf.length_mem
      rw [hnil, List.length_nil, hcoff, hoff] at this
      unfold INITIAL_DATA_OFFSET at this
      omega
    refine ⟨c, ?_, hcwf, hcmem, ?_, ?_, by simp only [hccap]; omega, hcoff.trans hoff, hcflags⟩
    · simp only [reserveOrShrink, guard_of hsize, hr, hbuf, Option.bind_eq_bind, Option.bind_some, ne_eq, hb,
        not_false_eq_true, if_true, htake, hc, guard_of hcmem, Option.pure_def]
    · rw [hcdata]
      simp [data, hs0]
    · rw [hcsize, h.length_data]
      simp only [hs0]
      omega

/-- **Reserving more than there is** moves the bytes to a new allocation.  The capacity is rounded
twice, so that the first result must be accepted by the second call. -/
theorem reserve_of_round (pool : MemoryPool) {b : ByteBufferWritable} (h : b.WF) {n r : ℕ}
    (hn : b.capacity < n) (hr : roundCapacityUp n = some r) (hle : n ≤ r) (h30' : r < 2 ^ 30) :
    ∃ c, b.reserve pool n = some c ∧ c.WF ∧ c.mem ≠ [] ∧ c.data = b.data ∧ c.size = b.size ∧
      n ≤ c.capacity ∧ c.offset = INITIAL_DATA_OFFSET ∧ c.flags = b.flags := by
  have hsize := h.size_le
  obtain ⟨c, hc, hcwf, hcmem, hcdata, hcsize, hccap, hcoff, hcflags⟩ :=
    reserveOrShrink_spec pool h hn hr hle h30'
  refine ⟨c, ?_, hcwf, hcmem, hcdata, hcsize, hccap, hcoff, hcflags⟩
  have h30 : n < 1 <<< 30 := by rw [Nat.one_shiftLeft]; omega
  have hfull : c.capacity ≠ 0 ∧ c.offset ≠ 0 := by rw [hcoff]; unfold INITIAL_DATA_OFFSET; omega
  simp only [reserve, guard_of h30, guard_of hsize, if_pos hn, guard_of (show b.size ≤ n by omega), hc,
    guard_of hcmem, guard_of hccap, Option.bind_eq_bind, Option.bind_some, Option.pure_def, if_pos hcmem,
    guard_of hfull]

/-- Far enough below the limit both roundings succeed. -/
theorem reserve_of_lt (pool : MemoryPool) {b : ByteBufferWritable} (h : b.WF) {n : ℕ}
    (hn : b.capacity < n) (h29 : n < 2 ^ 29) :
    ∃ c, b.reserve pool n = some c ∧ c.WF ∧ c.mem ≠ [] ∧ c.data = b.data ∧ c.size = b.size ∧
      n ≤ c.capacity ∧ c.offset = INITIAL_DATA_OFFSET ∧ c.flags = b.flags := by
  obtain ⟨r, hr, hle, hhalf⟩ := roundCapacityUp_spec (show n < 2 ^ 30 by omega)
  exact reserve_of_round pool h hn hr hle (by omega)

/-- **Appending what fits.**  The bytes go to the end, and neither the
allocation nor the headroom nor the flags change. -/
theorem append_spec_of_fit (pool : MemoryPool) {b : ByteBufferWritable} (h : b.WF)
    (src : List UInt8) (hfit : b.size + src.length ≤ b.capacity)
    (h30 : b.size + src.length < 2 ^ 30) :
    ∃ b', b.append pool src = some b' ∧ b'.WF ∧ b'.data = b.data ++ src ∧
      b'.size = b.size + src.length ∧ b'.capacity = b.capacity ∧ b'.offset = b.offset ∧
      b'.flags = b.flags := by
  rw [append, Nat.mod_eq_of_lt (by omega), reserve_of_le pool h hfit h30]
  exact appendReserved_spec h hfit

/-- **Appending.**  The bytes go to the end, in place if they fit and in a new allocation otherwise. -/
theorem append_spec (pool : MemoryPool) {b : ByteBufferWritable} (h : b.WF) (src : List UInt8)
    (h29 : b.size + src.length < 2 ^ 29) :
    ∃ c, b.append pool src = some c ∧ c.WF ∧ c.data = b.data ++ src ∧ c.size = b.size + src.length ∧
      c.flags = b.flags ∧
      (b.size + src.length ≤ b.capacity → c.capacity = b.capacity ∧ c.offset = b.offset) ∧
      (b.capacity < b.size + src.length → c.offset = INITIAL_DATA_OFFSET ∧ 0 < c.capacity) := by
  by_cases hfit : b.size + src.length ≤ b.capacity
  · obtain ⟨c, hc, hwf, hdata, hsize, hcap, hoff, hflags⟩ :=
      append_spec_of_fit pool h src hfit (by omega)
    exact ⟨c, hc, hwf, hdata, hsize, hflags, fun _ => ⟨hcap, hoff⟩, fun hlt => absurd hfit (Nat.not_le.2 hlt)⟩
  · obtain ⟨r, hr, hrwf, -, hrdata, hrsize, hrcap, hroff, hrflags⟩ :=
      reserve_of_lt pool h (Nat.not_le.1 hfit) h29
    have hfit' : r.size + src.length ≤ r.capacity := by omega
    obtain ⟨c, hc, hwf, hdata, hsize, hcap, hoff, hflags⟩ := appendReserved_spec hrwf hfit'
    refine ⟨c, ?_, hwf, by rw [hdata, hrdata], by rw [hsize, hrsize], hflags.trans hrflags,
      fun hle => absurd hle hfit, fun _ => ⟨hoff.trans hroff, by omega⟩⟩
    rw [append, Nat.mod_eq_of_lt (by omega), hr]
    exact hc

/-- The first assertion of `prepend`. -/
theorem WF.null_or_capacity {b : ByteBufferWritable} (h : b.WF) :
    (b.mem ≠ [] ∧ b.capacity ≠ 0) ∨ (b.mem = [] ∧ b.capacity = 0) := by
  have hlen := h.length_mem
  by_cases hmem : b.mem = []
  · rw [hmem, List.length_nil] at hlen
    exact Or.inr ⟨hmem, by omega⟩
  · exact Or.inl ⟨hmem, by have := h.headroom hmem; omega⟩

/-- Bytes in front of the storage header's place can be taken from the headroom. -/
theorem WF.shift {b : ByteBufferWritable} (h : b.WF) {n : ℕ} (hroom : sizeofStorageHeader + n ≤ b.offset) :
    b.mem ≠ [] ∧ WF { b with
      offset := b.offset - n, size := b.size + n, capacity := b.capacity + n } := by
  have hlen := h.length_mem
  have hsize := h.size_le
  have hmem : b.mem ≠ [] := by
    intro hnil
    rw [hnil, List.length_nil] at hlen
    unfold sizeofStorageHeader at hroom
    omega
  obtain ⟨hhead, hcap⟩ := h.headroom hmem
  refine ⟨hmem, by simp only; omega, ?_, fun _ => ⟨?_, ?_⟩⟩ <;> simp only <;> omega

/-- **Making room in front.**  Prepending `n` bytes without a source puts `n`
unspecified bytes in front of the old ones, in place while the headroom lasts
and in a new allocation, whose flags are `0`, after that. -/
theorem prepend_none_spec (pool : MemoryPool) {b : ByteBufferWritable} (h : b.WF) {n : ℕ}
    (hn : n ≠ 0) (room : sizeofStorageHeader + n ≤ b.offset ∨ n + b.capacity < 2 ^ 30) :
    ∃ b' old, b.prepend pool none n = some b' ∧ b'.WF ∧ b'.size = n + b.size ∧
      old.length = n ∧ b'.data = old ++ b.data ∧
      b'.flags = if b.offset < sizeofStorageHeader + n then 0 else b.flags := by
  have hlen := h.length_mem
  have hsize := h.size_le
  simp only [prepend, guard_of h.null_or_capacity, Option.bind_eq_bind, Option.bind_some, Option.pure_def]
  by_cases hroom : b.offset < sizeofStorageHeader + n
  · obtain ⟨buf, hbuf, hwf, -, hs0, hcap, -, hf0⟩ :=
      ofCapacity_spec pool (n := n + b.capacity) (by omega) (by omega)
    have hwf' : WF { buf with size := buf.size + n } :=
      ⟨by simp only; omega, hwf.length_mem, hwf.headroom⟩
    have hold := hwf'.length_data
    simp only [if_pos hroom]
    rw [Nat.mod_eq_of_lt (by omega), hbuf]
    simp only [Option.bind_some]
    by_cases h0 : b.size = 0
    · refine ⟨_, _, by rw [if_neg (by simp [h0])], hwf', by simp only; omega, ?_,
        (List.append_nil _).symm.trans (congrArg _ (?_ : [] = b.data)), hf0⟩
      · rw [hold]; simp only; omega
      · exact (List.eq_nil_of_length_eq_zero (h.length_data.trans h0)).symm
    · obtain ⟨c, hc, hcwf, hdata, hcsize, -, -, hcflags⟩ :=
        append_spec_of_fit pool hwf' b.data (by rw [h.length_data]; simp only; omega)
          (by rw [h.length_data]; simp only; omega)
      rw [if_pos h0]
      refine ⟨c, _, hc, hcwf, ?_, ?_, hdata, hcflags.trans hf0⟩
      · rw [hcsize, h.length_data]; simp only; omega
      · rw [hold]; simp only; omega
  · obtain ⟨hmem, hwf'⟩ := h.shift (Nat.not_lt.1 hroom)
    simp only [if_neg hroom, if_neg hmem]
    refine ⟨_, (b.mem.drop (b.offset - n)).take n, rfl, hwf', by simp only; omega, ?_, ?_, rfl⟩
    · simp only [List.length_take, List.length_drop]; omega
    · simp only [data]
      rw [Nat.add_comm b.size n, List.take_add, List.drop_drop,
        show b.offset - n + n = b.offset by omega]

end ByteBufferWritable

/-- `WriteHeaderIntoBuffer`. -/
def writeHeaderIntoBuffer (pool : MemoryPool) (buffer : ByteBufferWritable) (flags : Flags) :
    Option (ByteBufferWritable × Bool) := do
  let size := buffer.size
  let buffer := { buffer with flags := flags }
  let headerSize := getHeaderSize buffer.size
  let buffer ← buffer.prepend pool none headerSize
  let header ← writeHeader headerSize size flags
  let buffer ← buffer.memcpy 0 header
  return (buffer, true)

/-- **A frame is its header followed by the body.**  For a body of `1` to
`2 ^ 28` bytes, in a buffer with headroom left or far enough below the capacity
limit, `WriteHeaderIntoBuffer` returns true and puts the bytes of `WriteHeader`
in front of the body.  The flags are kept only while there is headroom. -/
theorem writeHeaderIntoBuffer_spec (pool : MemoryPool) {b : ByteBufferWritable} (h : b.WF)
    (hsize : 1 ≤ b.size ∧ b.size ≤ 2 ^ 28)
    (room : sizeofStorageHeader + getHeaderSize b.size ≤ b.offset ∨
      getHeaderSize b.size + b.capacity < 2 ^ 30) (flags : Flags) :
    ∃ b' header, writeHeaderIntoBuffer pool b flags = some (b', true) ∧
      writeHeader (getHeaderSize b.size) b.size flags = some header ∧
      b'.WF ∧ b'.data = header ++ b.data ∧
      b'.flags = if b.offset < sizeofStorageHeader + getHeaderSize b.size then 0 else flags := by
  have hh := getHeaderSize_bounds hsize.2
  obtain ⟨header, hheader, hlen, -⟩ := writeHeader_reads hsize flags
  have hflags : ByteBufferWritable.WF { b with flags := flags } :=
    ⟨h.size_le, h.length_mem, h.headroom⟩
  obtain ⟨c, old, hc, hcwf, hcsize, hold, hdata, hcflags⟩ :=
    ByteBufferWritable.prepend_none_spec pool hflags (n := getHeaderSize b.size) (by omega) room
  have hcap := hcwf.size_le
  obtain ⟨d, hd, hdwf, hds, -, hoff, hdflags, htake⟩ :=
    ByteBufferWritable.memcpy_spec hcwf 0 header (by simp only at hcsize; omega)
  refine ⟨d, header, ?_, hheader, hdwf, ?_, hdflags.trans hcflags⟩
  · simp only [writeHeaderIntoBuffer, hc, hheader, hd, Option.bind_eq_bind, Option.bind_some,
      Option.pure_def]
  · have hcdata : (c.mem.drop c.offset).take c.size = old ++ b.data := hdata
    have hdrop : ((c.mem.drop c.offset).drop header.length).take b.size = b.data := by
      have hbody : (old ++ b.data).drop old.length = b.data := List.drop_left
      rw [← hbody, ← hcdata, hold, ← hlen, List.drop_take]
      congr 1
      simp only at hcsize
      omega
    simp only [ByteBufferWritable.data] at hdrop ⊢
    rw [hoff, htake, List.take_zero, List.nil_append, Nat.zero_add, hds, hcsize, ← hlen,
      List.take_length_add_append, hdrop]

/-! ### When a header that was written can be read -/

/-- The bytes and flags that a buffer is sent with: a header in front of the old
bytes that the other side reads back. -/
structure HeaderInFront (b : ByteBufferWritable) (flags : Flags) (b' : ByteBufferWritable) :
    Prop where
  reads : ∃ header, b'.data = header ++ b.data ∧
    b'.data.head?.map getPacketHeaderSize = some header.length ∧
    getPacketBodySize b'.data header.length = some b.size
  kind : getPacketFlags b'.data 0 = some (flags &&& 6)
  flags_eq : b'.flags = flags

/-- What the callers of `WriteHeaderIntoBuffer` rely on: it does not fail an
assertion, after `true` the frame can be decoded, and after `false` nothing has
changed. -/
def HeaderOrUnchanged (b : ByteBufferWritable) (flags : Flags) :
    Option (ByteBufferWritable × Bool) → Prop
  | none => False
  | some (b', true) => HeaderInFront b flags b'
  | some (b', false) => b' = b

/-- It never returns `false`, so that what its callers rely on is a readable header. -/
theorem HeaderOrUnchanged.headerInFront {pool : MemoryPool} {b : ByteBufferWritable} {flags : Flags}
    (h : HeaderOrUnchanged b flags (writeHeaderIntoBuffer pool b flags)) :
    ∃ b', writeHeaderIntoBuffer pool b flags = some (b', true) ∧ HeaderInFront b flags b' := by
  cases hr : writeHeaderIntoBuffer pool b flags with
  | none => rw [hr] at h; exact h.elim
  | some r =>
    obtain ⟨b', ok⟩ := r
    have hok : ok = true := by
      simp only [writeHeaderIntoBuffer, Option.bind_eq_bind, Option.bind_eq_some_iff] at hr
      obtain ⟨_, -, _, -, _, -, hr⟩ := hr
      exact (congrArg Prod.snd (Option.some.inj hr)).symm
    subst hok
    rw [hr] at h
    exact ⟨b', rfl, h⟩

/-- With the headroom used up, a capacity at the limit makes `prepend` fail the
assertion of `round_capacity_up`. -/
theorem writeHeaderIntoBuffer_eq_none (pool : MemoryPool) {b : ByteBufferWritable}
    (hroom : b.offset < sizeofStorageHeader + getHeaderSize b.size)
    (hlow : 2 ^ 30 ≤ getHeaderSize b.size + b.capacity)
    (hhigh : getHeaderSize b.size + b.capacity < 2 ^ 32) (flags : Flags) :
    writeHeaderIntoBuffer pool b flags = none := by
  have hround : ByteBufferWritable.roundCapacityUp (getHeaderSize b.size + b.capacity) = none := by
    unfold ByteBufferWritable.roundCapacityUp guard
    rw [if_neg (by rw [Nat.one_shiftLeft]; omega)]
    rfl
  have hof : ByteBufferWritable.ofCapacity pool (getHeaderSize b.size + b.capacity) = none := by
    rw [ByteBufferWritable.ofCapacity, if_neg (by omega), hround]
    rfl
  simp only [writeHeaderIntoBuffer, ByteBufferWritable.prepend, if_pos hroom,
    Nat.mod_eq_of_lt hhigh, hof, Option.bind_eq_bind, Option.bind_none, Option.bind_fun_none]

/-- **A header can be read back exactly for the sizes that have one, in a buffer
with headroom.**  For a buffer of any size and headroom, what the callers of
`WriteHeaderIntoBuffer` rely on holds if and only if the body has `1` to `2 ^ 28`
bytes, and either the header fits into the headroom, or there are no flags to
lose and the larger buffer stays below the capacity limit. -/
theorem writeHeaderIntoBuffer_iff (pool : MemoryPool) {b : ByteBufferWritable} (h : b.WF)
    (hcap : b.capacity < 2 ^ 31) (flags : Flags) :
    HeaderOrUnchanged b flags (writeHeaderIntoBuffer pool b flags) ↔
      (1 ≤ b.size ∧ b.size ≤ 2 ^ 28) ∧
        (sizeofStorageHeader + getHeaderSize b.size ≤ b.offset ∨
          flags = 0 ∧ getHeaderSize b.size + b.capacity < 2 ^ 30) := by
  constructor
  · intro hpromise
    obtain ⟨b', hb', ⟨header, -, -, hbody⟩, -, hflags⟩ := hpromise.headerInFront
    have hsize := bounds_of_getPacketBodySize hbody
    have hh := getHeaderSize_bounds hsize.2
    refine ⟨hsize, Or.imp_right (fun hroom => ?_) (Nat.lt_or_ge b.offset _).symm⟩
    by_cases hlow : getHeaderSize b.size + b.capacity < 2 ^ 30
    · obtain ⟨c, -, hc, -, -, -, hcflags⟩ :=
        writeHeaderIntoBuffer_spec pool h hsize (Or.inr hlow) flags
      rw [hb', Option.some.injEq, Prod.mk.injEq] at hc
      rw [if_pos hroom, ← hc.1, hflags] at hcflags
      exact ⟨hcflags, hlow⟩
    · rw [writeHeaderIntoBuffer_eq_none pool hroom (by omega) (by omega)] at hb'
      cases hb'
  · rintro ⟨hsize, hroom⟩
    obtain ⟨b', header, hb', hheader, -, hdata, hflags⟩ :=
      writeHeaderIntoBuffer_spec pool h hsize (hroom.imp_right And.right) flags
    obtain ⟨header', hheader', hlen, ⟨c, hc, hfirst⟩, hreads⟩ := writeHeader_reads hsize flags
    obtain rfl : header = header' := Option.some.inj (hheader.symm.trans hheader')
    rw [hb']
    refine ⟨⟨header, hdata, ?_, ?_⟩, ?_, ?_⟩
    · have hhead : (header ++ b.data).head? = some c := by
        rw [List.head?_append, List.head?_eq_getElem?, hc]
        rfl
      rw [hdata, hhead, Option.map_some, hfirst, hlen]
    · rw [hdata, hlen]
      exact (hreads _).1
    · rw [hdata, (hreads _).2 0, UInt32.zero_or]
    · rw [hflags]
      split_ifs with hlt
      · rcases hroom with hroom | ⟨rfl, -⟩
        · omega
        · rfl
      · rfl

/-- Three bytes behind the initial headroom get a header that can be read. -/
theorem writeHeaderIntoBuffer_iff_three_bytes :
    HeaderOrUnchanged ⟨List.replicate 32 0 ++ [1, 2, 3], 3, 3, 32, 0⟩ FLAGS_CALL
      (writeHeaderIntoBuffer .zeroed ⟨List.replicate 32 0 ++ [1, 2, 3], 3, 3, 32, 0⟩
        FLAGS_CALL) :=
  (writeHeaderIntoBuffer_iff .zeroed ⟨by decide, by decide, by decide⟩ (by decide) FLAGS_CALL).2
    ⟨by decide, Or.inl (by decide)⟩

/-- **No header describes more than `2 ^ 28` bytes.**  `GetHeaderSize` returns `0`
for them, and `WriteHeader` fails its assertion. -/
theorem writeHeaderIntoBuffer_of_lt_size (pool : MemoryPool) {b : ByteBufferWritable}
    (h : 2 ^ 28 < b.size) (flags : Flags) : writeHeaderIntoBuffer pool b flags = none := by
  have hzero : getHeaderSize b.size = 0 := by
    unfold getHeaderSize
    simp only [Nat.one_shiftLeft]
    split_ifs <;> omega
  have hwrite : writeHeader 0 b.size flags = none := rfl
  simp only [writeHeaderIntoBuffer, hzero, hwrite, Option.bind_eq_bind, Option.bind_none,
    Option.bind_fun_none]

/-- A new buffer in which a `prepend` of twelve bytes has used up the headroom. -/
def filledHeadroom : ByteBufferWritable :=
  ⟨List.replicate 20 0 ++ List.replicate 12 7 ++ List.replicate 32 0, 12, 44, 20, 0⟩

/-- **Three buffers that are sent wrong.**  An empty buffer gets a header that
announces sixteen bytes, more than `2 ^ 28` bytes fail an assertion, and a buffer
whose headroom is used up loses its flags; it is never `false` that is returned. -/
theorem writeHeaderIntoBuffer_unreadable :
    (∃ b', writeHeaderIntoBuffer .zeroed .empty FLAGS_CALL = some (b', true) ∧
      b'.data.length = 1 ∧ getPacketBodySize b'.data 1 = some 16) ∧
    ¬ HeaderOrUnchanged .empty FLAGS_CALL (writeHeaderIntoBuffer .zeroed .empty FLAGS_CALL) ∧
    writeHeaderIntoBuffer .zeroed
      ⟨List.replicate (32 + (2 ^ 28 + 1)) 0, 2 ^ 28 + 1, 2 ^ 28 + 1, 32, 0⟩ FLAGS_CALL = none ∧
    ((ByteBufferWritable.ofCapacity .zeroed 8).bind fun b =>
        b.prepend .zeroed (some (List.replicate 12 7)) 12) = some filledHeadroom ∧
    (∃ b', writeHeaderIntoBuffer .zeroed filledHeadroom FLAGS_CALL = some (b', true) ∧ b'.flags = 0) := by
  refine ⟨⟨⟨List.replicate 32 0 ++ [0xF4] ++ List.replicate 31 0, 1, 32, 32, 0⟩, by decide +kernel,
    by decide +kernel, by decide +kernel⟩, ?_, ?_, by decide +kernel,
    ⟨List.replicate 32 0 ++ [0xB4] ++ List.replicate 12 7 ++ List.replicate 51 0, 13, 64, 32, 0⟩,
    by decide +kernel, rfl⟩
  · intro h
    obtain ⟨_, -, ⟨_, -, -, hbody⟩, -, -⟩ := h.headerInFront
    exact absurd (bounds_of_getPacketBodySize hbody).1 (by decide)
  · exact writeHeaderIntoBuffer_of_lt_size _ (Nat.lt_succ_self _) _

end Framing
end ICon7
