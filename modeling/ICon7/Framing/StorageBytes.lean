/-
# Storages as bytes

`ByteBufferReadable(ByteBufferWritable &&)` writes a `ByteBufferStorageHeader` to the first bytes of
the allocation it takes over, and `data()`, `size()` and `TryRecycle` read it there.  Here it is these
20 bytes, little-endian, so that a header which overlapped the bytes of the buffer would change them.

The remaining operations of `ByteBufferWritable` are here as well: `push_back`, `write`, the copy
constructor and `prepend` with a source.  Each operation has one lemma that says what it does to the
bytes, and `Sized` is what all of them keep of the length of the allocation.
-/

import ICon7.Framing.ByteBuffer

namespace ICon7
namespace Framing

namespace ByteBufferWritable

/-- `push_back`. -/
def pushBack (pool : MemoryPool) (b : ByteBufferWritable) (byte : UInt8) :
    Option ByteBufferWritable := do
  let b ← b.reserve pool ((b.size + 1) % 2 ^ 32)
  let b ← b.memcpy b.size [byte]
  return { b with size := b.size + 1 }

/-- `write`. -/
def write (pool : MemoryPool) (b : ByteBufferWritable) (data : List UInt8) :
    Option ByteBufferWritable := b.append pool data

/-- `ByteBufferWritable(const ByteBufferWritable &)`. -/
def copy (pool : MemoryPool) (o : ByteBufferWritable) : Option ByteBufferWritable :=
  if o.mem ≠ [] then do
    let b ← ofCapacity pool o.size
    let b ← b.append pool o.data
    return { b with flags := o.flags }
  else some empty

/-- `ByteBufferWritable(ByteBufferWritable &&)`: the new buffer, and what is left of the old one. -/
def moveConstruct (o : ByteBufferWritable) : ByteBufferWritable × ByteBufferWritable := (o, empty)

end ByteBufferWritable

/-- A `uint32_t` in memory. -/
def littleEndian (n : ℕ) : List UInt8 := (List.range 4).map fun i => UInt8.ofNat (n / 256 ^ i)

/-- The `uint32_t` at a position; `none` is a read past the end. -/
def readWord (mem : List UInt8) (pos : ℕ) : Option ℕ := (packetWord (mem.drop pos) 4).map UInt32.toNat

/-- The fields of `ByteBufferStorageHeader`. -/
structure StorageHeader where
  refCounter : ℕ
  size : ℕ
  offset : ℕ
  capacity : ℕ
  flags : Flags
  deriving DecidableEq

/-- The header in memory. -/
def StorageHeader.bytes (h : StorageHeader) : List UInt8 :=
  littleEndian h.refCounter ++ (littleEndian h.size ++ (littleEndian h.offset ++
    (littleEndian h.capacity ++ littleEndian h.flags.toNat)))

/-- The header at the start of an allocation. -/
def storageHeader (mem : List UInt8) : Option StorageHeader := do
  let refCounter ← readWord mem 0
  let size ← readWord mem 4
  let offset ← readWord mem 8
  let capacity ← readWord mem 12
  let flags ← readWord mem 16
  return ⟨refCounter, size, offset, capacity, UInt32.ofNat flags⟩

/-- `ByteBufferReadable`: the allocation that `storage` points to, `none` for the null pointer. -/
abbrev ByteBufferReadable := Option (List UInt8)

namespace ByteBufferReadable

/-- `ByteBufferReadable(ByteBufferWritable &&)`: the readable, and what is left of the buffer; `none`
is a header that does not fit. -/
def ofWritable (b : ByteBufferWritable) : Option (ByteBufferReadable × ByteBufferWritable) :=
  if b.mem = [] then some (none, b)
  else if sizeofStorageHeader ≤ b.mem.length then
    let header : StorageHeader := ⟨1, b.size, b.offset, b.capacity, b.flags⟩
    some (some (header.bytes ++ b.mem.drop sizeofStorageHeader), .empty)
  else none

/-- `size()`. -/
def size : ByteBufferReadable → Option ℕ
  | none => some 0
  | some mem => do return (← storageHeader mem).size

/-- The bytes `data()[0 .. size())`; `none` is a read past the allocation. -/
def data : ByteBufferReadable → Option (List UInt8)
  | none => some []
  | some mem => do
    let header ← storageHeader mem
    guard (header.offset + header.size ≤ mem.length)
    return (mem.drop header.offset).take header.size

/-- The storage with another value of `refCounter`. -/
def setRefCounter (n : ℕ) : ByteBufferReadable → ByteBufferReadable
  | none => none
  | some mem => some (littleEndian n ++ mem.drop 4)

/-- `TryRecycle`: what is left of the handle, and the buffer that is returned. -/
def tryRecycle : ByteBufferReadable → Option (ByteBufferReadable × ByteBufferWritable)
  | none => some (none, .empty)
  | some mem => do
    let header ← storageHeader mem
    if header.refCounter = 1 then
      let cap := (header.offset + header.capacity) % 2 ^ 32
      return (none, ⟨littleEndian 0 ++ mem.drop 4, 0, (2 ^ 32 + cap - INITIAL_DATA_OFFSET) % 2 ^ 32,
        INITIAL_DATA_OFFSET, 0⟩)
    else
      guard (1 ≤ header.refCounter)
      return (some mem, .empty)

end ByteBufferReadable

/-! ### The header in memory -/

@[simp] theorem length_littleEndian (n : ℕ) : (littleEndian n).length = 4 := by simp [littleEndian]

/-- A word is read where it was written. -/
theorem readWord_append {n : ℕ} (hn : n < 2 ^ 32) (pre post : List UInt8) {pos : ℕ}
    (hpos : pre.length = pos) : readWord (pre ++ (littleEndian n ++ post)) pos = some n := by
  have hbytes : ∀ i < 4, (littleEndian n)[i]? = some (UInt8.ofNat (n / 256 ^ i)) := by
    intro i hi
    simp [littleEndian, hi]
  obtain ⟨w, hw, hnat⟩ := packetWord_toNat (show 1 ≤ 4 by norm_num) le_rfl hbytes
  have hmod : n % 256 ^ 4 = n := Nat.mod_eq_of_lt (by omega)
  rw [readWord, List.drop_left' hpos, packetWord_append post (by simp), hw, Option.map_some, hnat, hmod]

namespace StorageHeader

/-- The fields are 32-bit numbers. -/
structure Fits (h : StorageHeader) : Prop where
  refCounter : h.refCounter < 2 ^ 32
  size : h.size < 2 ^ 32
  offset : h.offset < 2 ^ 32
  capacity : h.capacity < 2 ^ 32

variable {h : StorageHeader}

@[simp] theorem length_bytes (h : StorageHeader) : h.bytes.length = sizeofStorageHeader := by
  simp [bytes, sizeofStorageHeader]

/-- **The header is read back.** -/
theorem storageHeader_bytes (hfits : h.Fits) (rest : List UInt8) :
    storageHeader (h.bytes ++ rest) = some h := by
  have hflags : h.flags.toNat < 2 ^ 32 := h.flags.toNat_lt
  have h0 : readWord (h.bytes ++ rest) 0 = some h.refCounter := by
    rw [bytes, List.append_assoc]
    exact readWord_append hfits.refCounter [] _ rfl
  have h4 : readWord (h.bytes ++ rest) 4 = some h.size := by
    rw [bytes, List.append_assoc, List.append_assoc]
    exact readWord_append hfits.size _ _ (by simp)
  have h8 : readWord (h.bytes ++ rest) 8 = some h.offset := by
    rw [bytes, List.append_assoc, List.append_assoc, List.append_assoc, ← List.append_assoc]
    exact readWord_append hfits.offset _ _ (by simp)
  have h12 : readWord (h.bytes ++ rest) 12 = some h.capacity := by
    rw [bytes, List.append_assoc, List.append_assoc, List.append_assoc, List.append_assoc,
      ← List.append_assoc, ← List.append_assoc]
    exact readWord_append hfits.capacity _ _ (by simp)
  have h16 : readWord (h.bytes ++ rest) 16 = some h.flags.toNat := by
    rw [bytes, List.append_assoc, List.append_assoc, List.append_assoc, List.append_assoc,
      ← List.append_assoc, ← List.append_assoc, ← List.append_assoc]
    exact readWord_append hflags _ _ (by simp)
  simp only [storageHeader, h0, h4, h8, h12, h16, Option.bind_eq_bind, Option.bind_some,
    Option.pure_def, UInt32.ofNat_toNat]

end StorageHeader

/-! ### The length of the allocation -/

/-- An allocator whose answers are below `2 ^ 32` bytes, so that `_capacity` can hold them. -/
structure MemoryPool32 extends MemoryPool where
  length_lt : ∀ n < 2 ^ 32, (allocate n).length < 2 ^ 32

/-- The allocator that returns exactly what was asked for. -/
def MemoryPool32.zeroed : MemoryPool32 where
  toMemoryPool := .zeroed
  length_lt _ hn := (List.length_replicate).trans_lt hn

namespace ByteBufferWritable

/-- The allocation is longer than the initial headroom and has a 32-bit length. -/
def Sized (b : ByteBufferWritable) : Prop :=
  b.mem.length = 0 ∨ 32 < b.mem.length ∧ b.mem.length < 2 ^ 32

variable {pool : MemoryPool32} {b c : ByteBufferWritable} {src : List UInt8} {n : ℕ}

theorem sized_empty : empty.Sized := .inl rfl

/-- Only the capacities that are asked for are rounded. -/
theorem lt_of_roundCapacityUp {r : ℕ} (h : roundCapacityUp n = some r) : n < 2 ^ 30 := by
  unfold roundCapacityUp at h
  rw [Option.bind_eq_bind, Option.bind_eq_some_iff] at h
  obtain ⟨_, hguard, -⟩ := h
  by_contra hn
  rw [guard, if_neg (by rwa [Nat.one_shiftLeft])] at hguard
  cases hguard

theorem Sized.of_ofCapacity (h : ofCapacity pool.toMemoryPool n = some c) : c.Sized := by
  unfold ofCapacity at h
  split_ifs at h with h0
  · obtain rfl := Option.some.inj h
    exact sized_empty
  · rw [Option.bind_eq_bind, Option.bind_eq_some_iff] at h
    obtain ⟨r, hr, hc⟩ := h
    obtain rfl := Option.some.inj hc
    obtain ⟨r', hr', hle, hhalf⟩ := roundCapacityUp_spec (lt_of_roundCapacityUp hr)
    obtain rfl := Option.some.inj (hr.symm.trans hr')
    have hlt := lt_of_roundCapacityUp hr
    have hlen := pool.le_length (r + INITIAL_DATA_OFFSET)
    have hlen' := pool.length_lt (r + INITIAL_DATA_OFFSET) (by unfold INITIAL_DATA_OFFSET; omega)
    unfold INITIAL_DATA_OFFSET at *
    exact .inr ⟨by simp only; omega, hlen'⟩

theorem Sized.memcpy {pos : ℕ} (hb : b.Sized) (h : b.memcpy pos src = some c) : c.Sized := by
  unfold ByteBufferWritable.memcpy at h
  split_ifs at h with hfit
  obtain rfl := Option.some.inj h
  have hlen : (b.mem.take (b.offset + pos) ++ src ++ b.mem.drop (b.offset + pos + src.length)).length =
      b.mem.length := by
    simp only [List.length_append, List.length_take, List.length_drop]
    omega
  unfold Sized
  rw [hlen]
  exact hb

theorem Sized.appendReserved (hb : b.Sized) (h : b.appendReserved src = some c) : c.Sized := by
  unfold ByteBufferWritable.appendReserved at h
  rw [Option.bind_eq_bind, Option.bind_eq_some_iff] at h
  obtain ⟨d, hd, hc⟩ := h
  have hdsized : d.Sized := hb.memcpy hd
  obtain rfl := Option.some.inj hc
  exact hdsized

/-- What `reserve_or_shrink` makes: a new buffer, to which the old bytes were copied if there were any. -/
theorem reserveOrShrink_cases {pool : MemoryPool} (h : b.reserveOrShrink pool n = some c) :
    ∃ r buf, roundCapacityUp n = some r ∧ ofCapacity pool r = some buf ∧
      (c = { buf with flags := b.flags } ∨
        ∃ src, appendReserved { buf with flags := b.flags } src = some c) := by
  simp only [reserveOrShrink, Option.bind_eq_bind, Option.bind_eq_some_iff] at h
  obtain ⟨-, -, r, hr, buf, hbuf, hc⟩ := h
  refine ⟨r, buf, hr, hbuf, ?_⟩
  split_ifs at hc with hmem
  · simp only [Option.bind_eq_some_iff] at hc
    obtain ⟨d, hd, -, -, hc⟩ := hc
    obtain rfl := Option.some.inj hc
    exact .inr ⟨_, hd⟩
  · simp only [Option.bind_eq_some_iff] at hc
    obtain ⟨-, -, d, hd, -, -, hc⟩ := hc
    obtain rfl := Option.some.inj hd
    obtain rfl := Option.some.inj hc
    exact .inl rfl

/-- What `reserve` makes: nothing new, or what `reserve_or_shrink` makes. -/
theorem reserve_cases {pool : MemoryPool} (h : b.reserve pool n = some c) :
    n < 2 ^ 30 ∧ (n ≤ b.capacity ∧ c = b ∨ b.capacity < n ∧ b.reserveOrShrink pool n = some c) := by
  simp only [ByteBufferWritable.reserve, Option.bind_eq_bind, Option.bind_eq_some_iff] at h
  obtain ⟨_, h30, -, -, hc⟩ := h
  have hn : n < 2 ^ 30 := by
    by_contra hn
    rw [guard, if_neg (by rwa [Nat.one_shiftLeft])] at h30
    cases h30
  -- the assertions at the end do not change the buffer
  have hlast : ∀ {d : ByteBufferWritable},
      (if d.mem ≠ [] then (guard (d.capacity ≠ 0 ∧ d.offset ≠ 0) : Option Unit).bind fun _ => pure d
        else (guard (d.capacity = 0 ∧ d.offset = 0 ∧ d.size = 0) : Option Unit).bind fun _ => pure d) =
          some c → c = d := by
    intro d hdc
    split_ifs at hdc
    all_goals
      obtain ⟨-, -, hdc⟩ := Option.bind_eq_some_iff.1 hdc
      exact (Option.some.inj hdc).symm
  by_cases hlt : b.capacity < n
  · rw [if_pos hlt] at hc
    simp only [Option.bind_eq_some_iff] at hc
    obtain ⟨-, -, d, hd, -, -, -, -, e, he, hc⟩ := hc
    obtain rfl := Option.some.inj he
    exact ⟨hn, .inr ⟨hlt, hlast hc ▸ hd⟩⟩
  · rw [if_neg hlt] at hc
    exact ⟨hn, .inl ⟨Nat.not_lt.1 hlt, hlast hc⟩⟩

theorem Sized.of_reserveOrShrink (h : b.reserveOrShrink pool.toMemoryPool n = some c) : c.Sized := by
  obtain ⟨r, buf, -, hbuf, hc⟩ := reserveOrShrink_cases h
  have hbsized : buf.Sized := Sized.of_ofCapacity hbuf
  have hsized : Sized { buf with flags := b.flags } := hbsized
  rcases hc with rfl | ⟨src, hc⟩
  · exact hsized
  · exact hsized.appendReserved hc

theorem Sized.reserve (hb : b.Sized) (h : b.reserve pool.toMemoryPool n = some c) : c.Sized := by
  obtain ⟨-, ⟨-, rfl⟩ | ⟨-, hc⟩⟩ := reserve_cases h
  · exact hb
  · exact Sized.of_reserveOrShrink hc

theorem Sized.append (hb : b.Sized) (h : b.append pool.toMemoryPool src = some c) : c.Sized := by
  unfold ByteBufferWritable.append at h
  rw [Option.bind_eq_bind, Option.bind_eq_some_iff] at h
  obtain ⟨d, hd, hc⟩ := h
  exact (hb.reserve hd).appendReserved hc

/-! ### What the operations do to the bytes -/

/-- What every operation keeps. -/
structure Good (b : ByteBufferWritable) : Prop where
  wf : b.WF
  sized : b.Sized

theorem good_empty : empty.Good := ⟨⟨le_rfl, rfl, fun h => absurd rfl h⟩, sized_empty⟩

/-- **The pointer is null exactly if capacity and offset are zero.** -/
theorem Good.mem_eq_nil_iff (h : b.Good) : b.mem = [] ↔ b.capacity = 0 ∧ b.offset = 0 := by
  have hlen := h.wf.length_mem
  rw [← List.length_eq_zero_iff]
  omega

theorem data_empty : empty.data = [] := rfl

/-- The capacity constructor makes an empty buffer. -/
theorem ofCapacity_good (pool : MemoryPool32) (h29 : n < 2 ^ 29) :
    ∃ c, ofCapacity pool.toMemoryPool n = some c ∧ c.Good ∧ c.data = [] ∧ c.size = 0 := by
  by_cases h0 : n = 0
  · exact ⟨empty, by rw [ofCapacity, if_pos h0], good_empty, rfl, rfl⟩
  · obtain ⟨c, hc, hwf, -, hsize, -⟩ := ofCapacity_spec pool.toMemoryPool h0 (by omega)
    exact ⟨c, hc, ⟨hwf, Sized.of_ofCapacity hc⟩, by rw [data, hsize, List.take_zero], hsize⟩

/-- `push_back` appends one byte. -/
theorem pushBack_eq (pool : MemoryPool) (byte : UInt8) : b.pushBack pool byte = b.append pool [byte] :=
  rfl

namespace Good

/-- `append` adds at the end. -/
theorem append (hb : b.Good) (pool : MemoryPool32) (src : List UInt8)
    (h29 : b.size + src.length < 2 ^ 29) :
    ∃ c, b.append pool.toMemoryPool src = some c ∧ c.Good ∧ c.data = b.data ++ src ∧
      c.size = b.size + src.length := by
  obtain ⟨c, hc, hwf, hdata, hsize, -⟩ := append_spec pool.toMemoryPool hb.wf src h29
  exact ⟨c, hc, ⟨hwf, hb.sized.append hc⟩, hdata, hsize⟩

/-- `reserve` changes nothing. -/
theorem reserve (hb : b.Good) (pool : MemoryPool32) (h29 : n < 2 ^ 29) :
    ∃ c, b.reserve pool.toMemoryPool n = some c ∧ c.Good ∧ c.data = b.data := by
  by_cases hn : n ≤ b.capacity
  · exact ⟨b, reserve_of_le pool.toMemoryPool hb.wf hn (by omega), hb, rfl⟩
  · obtain ⟨c, hc, hwf, -, hdata, -⟩ := reserve_of_lt pool.toMemoryPool hb.wf (Nat.not_le.1 hn) h29
    exact ⟨c, hc, ⟨hwf, hb.sized.reserve hc⟩, hdata⟩

/-- Within the capacity, another size keeps what both sizes have. -/
theorem setSize (hb : b.Good) (hn : n ≤ b.capacity) :
    Good { b with size := n } ∧ (data { b with size := n }).length = n ∧
      (data { b with size := n }).take b.data.length = b.data.take n := by
  have hgood : Good { b with size := n } := ⟨⟨hn, hb.wf.length_mem, hb.wf.headroom⟩, hb.sized⟩
  refine ⟨hgood, hgood.wf.length_data, ?_⟩
  rw [hb.wf.length_data, data, data, List.take_take, List.take_take, min_comm]

/-- `resize` keeps the common bytes. -/
theorem resize (hb : b.Good) (pool : MemoryPool32) (h29 : b.capacity < n → n < 2 ^ 29) :
    ∃ c, b.resize pool.toMemoryPool n = some c ∧ c.Good ∧ c.data.length = n ∧
      c.data.take b.data.length = b.data.take n := by
  unfold ByteBufferWritable.resize
  by_cases hn : b.capacity < n
  · obtain ⟨c, hc, hwf, -, hdata, hsize, hcap, -⟩ := reserve_of_lt pool.toMemoryPool hb.wf hn (h29 hn)
    have hgood : c.Good := ⟨hwf, hb.sized.reserve hc⟩
    rw [if_pos hn, hc, ← hdata]
    exact ⟨_, rfl, hgood.setSize hcap⟩
  · rw [if_neg hn]
    exact ⟨_, rfl, hb.setSize (Nat.not_lt.1 hn)⟩

/-- `clear` empties and restores the initial headroom. -/
theorem clear (hb : b.Good) : ∃ c, b.clear = some c ∧ c.Good ∧ c.data = [] := by
  have hlen := hb.wf.length_mem
  unfold ByteBufferWritable.clear
  by_cases hmem : b.mem = []
  · have hnull := hb.mem_eq_nil_iff.1 hmem
    rw [if_neg (by simpa using hmem), guard_of hnull]
    refine ⟨_, rfl, ⟨⟨Nat.zero_le _, hlen, hb.wf.headroom⟩, hb.sized⟩, ?_⟩
    rw [data, List.take_zero]
  · have hsized : 32 < b.mem.length ∧ b.mem.length < 2 ^ 32 :=
      hb.sized.resolve_left fun h0 => hmem (List.eq_nil_of_length_eq_zero h0)
    rw [if_pos hmem]
    refine ⟨_, rfl, ⟨⟨Nat.zero_le _, ?_, fun _ => ?_⟩, hb.sized⟩, ?_⟩
    · simp only [INITIAL_DATA_OFFSET]
      omega
    · simp only [INITIAL_DATA_OFFSET, sizeofStorageHeader]
      omega
    · rw [data, List.take_zero]

/-- A copy has the same bytes. -/
theorem copy (hb : b.Good) (pool : MemoryPool32) (h29 : b.size < 2 ^ 29) :
    ∃ c, b.copy pool.toMemoryPool = some c ∧ c.Good ∧ c.data = b.data := by
  unfold ByteBufferWritable.copy
  by_cases hmem : b.mem = []
  · refine ⟨empty, if_neg (by simpa using hmem), good_empty, ?_⟩
    rw [data_empty, data, hmem, List.drop_nil, List.take_nil]
  · obtain ⟨c, hc, hgood, hnil, hsize⟩ := ofCapacity_good pool h29
    obtain ⟨d, hd, hdgood, hdata, -⟩ := hgood.append pool b.data (by rw [hsize, hb.wf.length_data]; omega)
    rw [if_pos hmem, hc]
    simp only [Option.bind_eq_bind, Option.bind_some, hd, Option.pure_def]
    refine ⟨_, rfl, ⟨⟨hdgood.wf.size_le, hdgood.wf.length_mem, hdgood.wf.headroom⟩, hdgood.sized⟩, ?_⟩
    rw [hnil, List.nil_append] at hdata
    exact hdata

/-- **`prepend` adds at the front**, in place while the headroom lasts and in a new allocation after
that. -/
theorem prepend (hb : b.Good) (pool : MemoryPool32) (src : List UInt8)
    (h29 : b.offset < sizeofStorageHeader + src.length → src.length + b.capacity < 2 ^ 29) :
    ∃ c, b.prepend pool.toMemoryPool (some src) src.length = some c ∧ c.Good ∧
      c.data = src ++ b.data := by
  have hsize := hb.wf.size_le
  simp only [ByteBufferWritable.prepend, guard_of hb.wf.null_or_capacity, Option.bind_eq_bind,
    Option.bind_some, Option.pure_def]
  by_cases hroom : b.offset < sizeofStorageHeader + src.length
  · have hasked := h29 hroom
    obtain ⟨buf, hbuf, hbgood, hnil, hs0⟩ := ofCapacity_good pool hasked
    obtain ⟨c, hc, hcgood, hcdata, hcsize⟩ := hbgood.append pool src (by omega)
    rw [hnil, List.nil_append] at hcdata
    rw [if_pos hroom, Nat.mod_eq_of_lt (by omega), hbuf]
    simp only [Option.bind_some, hc]
    by_cases h0 : b.size = 0
    · have hbnil : b.data = [] := List.eq_nil_of_length_eq_zero (hb.wf.length_data.trans h0)
      rw [if_neg (by simpa using h0)]
      exact ⟨c, rfl, hcgood, by rw [hcdata, hbnil, List.append_nil]⟩
    · obtain ⟨d, hd, hdgood, hddata, -⟩ := hcgood.append pool b.data (by rw [hb.wf.length_data]; omega)
      rw [if_pos h0]
      exact ⟨d, hd, hdgood, by rw [hddata, hcdata]⟩
  · obtain ⟨hmem, hwf⟩ := hb.wf.shift (Nat.not_lt.1 hroom)
    rw [if_neg hroom, if_neg hmem]
    have hsized : Sized { b with
        offset := b.offset - src.length, size := b.size + src.length,
        capacity := b.capacity + src.length } := hb.sized
    obtain ⟨c, hc, hcwf, hcsize, -, hcoff, -, htake⟩ := memcpy_spec hwf 0 src (by simp only; omega)
    refine ⟨c, hc, ⟨hcwf, hsized.memcpy hc⟩, ?_⟩
    simp only at hcsize hcoff htake
    rw [data, hcoff, htake, hcsize, List.take_zero, List.nil_append, Nat.zero_add, List.drop_drop,
      Nat.add_comm b.size, List.take_length_add_append,
      show b.offset - src.length + src.length = b.offset by omega]
    rfl

end Good
end ByteBufferWritable

/-! ### Round trips -/

namespace ByteBufferReadable

/-- A storage that is not null begins with its header, and the bytes that the header describes are
behind it. -/
structure Intact (mem : List UInt8) (h : StorageHeader) : Prop where
  eq : ∃ rest, mem = h.bytes ++ rest
  fits : h.Fits
  refCounter_pos : 0 < h.refCounter
  headroom : sizeofStorageHeader ≤ h.offset
  size_le : h.size ≤ h.capacity
  length_eq : mem.length = h.offset + h.capacity
  length_gt : 32 < mem.length
  length_lt : mem.length < 2 ^ 32

variable {mem : List UInt8} {h : StorageHeader}

theorem Intact.storageHeader (hm : Intact mem h) : storageHeader mem = some h := by
  obtain ⟨rest, rfl⟩ := hm.eq
  exact h.storageHeader_bytes hm.fits rest

theorem Intact.data (hm : Intact mem h) :
    ByteBufferReadable.data (some mem) = some ((mem.drop h.offset).take h.size) := by
  have hsize := hm.size_le
  have hlen := hm.length_eq
  have hguard : h.offset + h.size ≤ mem.length := by omega
  simp only [ByteBufferReadable.data, hm.storageHeader, guard, if_pos hguard, Option.bind_eq_bind,
    Option.bind_some, Option.pure_def]

/-- `data()` and `size()` agree. -/
theorem Intact.size (hm : Intact mem h) : ByteBufferReadable.size (some mem) = some h.size := by
  rw [ByteBufferReadable.size, hm.storageHeader]
  rfl

/-- **The header does not overlap the bytes**: the readable shows those of the buffer it is made of. -/
theorem ofWritable_spec {b : ByteBufferWritable} (hb : b.Good) :
    ∃ r b', ofWritable b = some (r, b') ∧ (∀ mem ∈ r, ∃ h, Intact mem h) ∧ r.data = some b.data ∧
      b'.Good ∧ b'.data = [] := by
  unfold ofWritable
  have hlen := hb.wf.length_mem
  have hsize := hb.wf.size_le
  by_cases hmem : b.mem = []
  · have hnull := hb.mem_eq_nil_iff.1 hmem
    rw [if_pos hmem]
    have hnil : b.data = [] := List.eq_nil_of_length_eq_zero (by rw [hb.wf.length_data]; omega)
    exact ⟨none, b, rfl, by simp, by rw [hnil]; rfl, hb, hnil⟩
  · have hsized : 32 < b.mem.length ∧ b.mem.length < 2 ^ 32 :=
      hb.sized.resolve_left fun h0 => hmem (List.eq_nil_of_length_eq_zero h0)
    obtain ⟨hhead, hcap⟩ := hb.wf.headroom hmem
    have hroom : sizeofStorageHeader ≤ b.mem.length := by unfold sizeofStorageHeader; omega
    rw [if_neg hmem, if_pos hroom]
    set header : StorageHeader := ⟨1, b.size, b.offset, b.capacity, b.flags⟩ with hheader
    have hlen' : (header.bytes ++ b.mem.drop sizeofStorageHeader).length = b.mem.length := by
      rw [List.length_append, StorageHeader.length_bytes, List.length_drop]
      omega
    have hintact : Intact (header.bytes ++ b.mem.drop sizeofStorageHeader) header := by
      refine ⟨⟨_, rfl⟩, ⟨by norm_num [hheader], ?_, ?_, ?_⟩, Nat.one_pos, hhead, hsize,
        hlen'.trans hlen, hlen'.symm ▸ hsized.1, hlen'.symm ▸ hsized.2⟩ <;> simp only [hheader] <;> omega
    have hdrop : (header.bytes ++ b.mem.drop sizeofStorageHeader).drop b.offset = b.mem.drop b.offset := by
      rw [List.drop_append, StorageHeader.length_bytes, List.drop_drop,
        List.drop_eq_nil_of_le (by rw [StorageHeader.length_bytes]; exact hhead), List.nil_append,
        show sizeofStorageHeader + (b.offset - sizeofStorageHeader) = b.offset by omega]
    refine ⟨_, _, rfl, fun mem hm => ⟨header, Option.some.inj hm ▸ hintact⟩, ?_,
      ByteBufferWritable.good_empty, rfl⟩
    rw [hintact.data]
    simp only [hheader]
    rw [← hheader, hdrop]
    rfl

/-- Counting handles does not change the bytes. -/
theorem Intact.setRefCounter (hm : Intact mem h) {n : ℕ} (hn : 0 < n ∧ n < 2 ^ 32) :
    ∃ mem', ByteBufferReadable.setRefCounter n (some mem) = some mem' ∧
      Intact mem' { h with refCounter := n } ∧ mem'.drop h.offset = mem.drop h.offset := by
  obtain ⟨rest, heq⟩ := hm.eq
  have hhead := hm.headroom
  have hsplit : h.bytes.drop 4 = ({ h with refCounter := n } : StorageHeader).bytes.drop 4 := by
    simp [StorageHeader.bytes]
  have heq' : littleEndian n ++ mem.drop 4 = ({ h with refCounter := n } : StorageHeader).bytes ++ rest := by
    rw [heq, List.drop_append_of_le_length (by simp [sizeofStorageHeader]), hsplit]
    simp [StorageHeader.bytes]
  have hlen : (littleEndian n ++ mem.drop 4).length = mem.length := by
    have := hm.length_gt
    simp only [List.length_append, length_littleEndian, List.length_drop]
    omega
  refine ⟨_, rfl, ⟨⟨rest, heq'⟩, ⟨hn.2, hm.fits.size, hm.fits.offset, hm.fits.capacity⟩, hn.1, hhead,
    hm.size_le, hlen.trans hm.length_eq, hlen.symm ▸ hm.length_gt, hlen.symm ▸ hm.length_lt⟩, ?_⟩
  unfold sizeofStorageHeader at hhead
  rw [List.drop_append, length_littleEndian, List.drop_drop,
    List.drop_eq_nil_of_le (by rw [length_littleEndian]; omega), List.nil_append,
    show 4 + (h.offset - 4) = h.offset by omega]

/-- **A recycled buffer is empty**, with the initial headroom; a storage that has other handles stays
as it is. -/
theorem tryRecycle_spec {r : ByteBufferReadable} (hr : ∀ mem ∈ r, ∃ h, Intact mem h) :
    ∃ r' b, r.tryRecycle = some (r', b) ∧ b.Good ∧ b.data = [] ∧ (r' = none ∨ r' = r) := by
  cases r with
  | none => exact ⟨none, .empty, rfl, ByteBufferWritable.good_empty, rfl, .inl rfl⟩
  | some mem =>
    obtain ⟨h, hm⟩ := hr mem rfl
    have hpos := hm.refCounter_pos
    simp only [tryRecycle, hm.storageHeader, Option.bind_eq_bind, Option.bind_some, Option.pure_def]
    by_cases h1 : h.refCounter = 1
    · have hlen := hm.length_eq
      have hgt := hm.length_gt
      have hlt := hm.length_lt
      rw [if_pos h1]
      refine ⟨none, _, rfl, ⟨⟨Nat.zero_le _, ?_, fun _ => ?_⟩, .inr ?_⟩, ?_, .inl rfl⟩
      · simp only [List.length_append, length_littleEndian, List.length_drop, INITIAL_DATA_OFFSET]
        omega
      · simp only [sizeofStorageHeader, INITIAL_DATA_OFFSET]
        omega
      · simp only [List.length_append, length_littleEndian, List.length_drop]
        omega
      · rw [ByteBufferWritable.data, List.take_zero]
    · rw [if_neg h1, ByteBufferWritable.guard_of (show 1 ≤ h.refCounter from hpos)]
      exact ⟨some mem, .empty, rfl, ByteBufferWritable.good_empty, rfl, .inr rfl⟩

end ByteBufferReadable

end Framing
end ICon7
