/-
# Growth of a buffer

`append` and `push_back` ask for the size they need.  A `prepend` that is longer than the headroom asks
for its bytes on top of the whole old capacity, slack included, and the sum is rounded to a size class.
With an allocator that returns exactly what was asked for, the slack of a buffer that is only appended
to stays below its size.  A series of prepends just above the headroom goes up one size class each
time: the capacity grows exponentially in the content (`prepend_thirteen`), and after fifty of them,
with 650 bytes in the buffer, `round_capacity_up` fails its assertion (`prepend_thirteen_fails`).

`grow_cases` says what one operation does to size and capacity, and everything else is read off it.
Everything but a reallocating `prepend` keeps the capacity at most twice the size plus 64, and a
reallocating `prepend` does if and only if some size class lies between the bytes and capacity that it
asks for and that bound for the new size (`Modest`): the class it rounds to is the least one
(`exists_class_iff`).  So the bound holds along a run just when each `prepend` of the run is `Modest` in
the state before it (`grow_run`), and it is enough that the slack is a third of the content or less
(`Tight`).
-/

import ICon7.Lib.Run
import ICon7.Framing.SizeClasses

namespace ICon7
namespace Framing

/-- An allocator that returns exactly what was asked for. -/
structure ExactPool extends MemoryPool32 where
  length_eq : ∀ n, (allocate n).length = n

/-- Exact allocations filled with zeros. -/
def ExactPool.zeroed : ExactPool := ⟨.zeroed, fun _ => List.length_replicate⟩

/-- The operations that add bytes. -/
inductive GrowthOp where
  | append (src : List UInt8)
  | prepend (src : List UInt8)
  | prependNull (bytes : UInt32)
  | pushBack (byte : UInt8)

/-- The number of bytes added. -/
def GrowthOp.bytes : GrowthOp → ℕ
  | .append src | .prepend src => src.length
  | .prependNull bytes => bytes.toNat
  | .pushBack _ => 1

/-- A `prepend` that is longer than the headroom. -/
def GrowthOp.MovesFront (b : ByteBufferWritable) : GrowthOp → Prop
  | .prepend src => b.offset < sizeofStorageHeader + src.length
  | .prependNull bytes => b.offset < sizeofStorageHeader + bytes.toNat
  | .append _ | .pushBack _ => False

namespace ByteBufferWritable

/-- One operation, with the allocator it calls. -/
def grow (b : ByteBufferWritable) : ExactPool × GrowthOp → Option ByteBufferWritable
  | (pool, .append src) => b.append pool.toMemoryPool src
  | (pool, .prepend src) => b.prepend pool.toMemoryPool (some src) src.length
  | (pool, .prependNull bytes) => b.prepend pool.toMemoryPool none bytes.toNat
  | (pool, .pushBack byte) => b.pushBack pool.toMemoryPool byte

variable {b c : ByteBufferWritable} {pool : ExactPool} {src : List UInt8} {n r : ℕ}

/-- What the operations keep: the allocation is no longer than the largest size class, and there is
none while there are no bytes. -/
structure Grown (b : ByteBufferWritable) : Prop where
  good : b.Good
  offset_le : b.offset ≤ 32
  length_le : b.offset + b.capacity ≤ 3 * 2 ^ 29
  capacity_of_size : b.size = 0 → b.capacity = 0

theorem grown_empty : empty.Grown := ⟨good_empty, by decide, by decide, fun _ => rfl⟩

theorem Grown.capacity_le (hb : b.Grown) : b.capacity ≤ 3 * 2 ^ 29 := by
  have := hb.length_le
  omega

/-! ### Capacities with an exact allocator -/

theorem le_of_roundCapacityUp (hr : roundCapacityUp n = some r) : n ≤ r ∧ r + 32 ≤ 3 * 2 ^ 29 := by
  have hleast := isLeastClass_of_roundCapacityUp hr
  have hn := lt_of_roundCapacityUp hr
  have hle := hleast.le
  have hmax := hleast.le_of_mem (.inr (.inr ⟨30, by norm_num, .inr rfl⟩))
    (show n + 32 ≤ 3 * 2 ^ (30 - 1) by norm_num; omega)
  exact ⟨by omega, hmax⟩

/-- Above 64 bytes rounding adds at most half. -/
theorem roundCapacityUp_le (hr : roundCapacityUp n = some r) : r ≤ 32 ∨ 2 * r ≤ 3 * n + 32 := by
  by_cases h64 : n + 32 ≤ 64
  · have := (isLeastClass_of_roundCapacityUp hr).le_of_mem (.inr (.inl rfl)) h64
    exact .inl (by omega)
  · obtain ⟨m, j, -, hlow, -, hr', h1, -⟩ := roundCapacityUp_eq (lt_of_roundCapacityUp hr)
    obtain rfl := Option.some.inj (hr.symm.trans hr')
    rw [Nat.add_one_mul]
    exact .inr (by omega)

/-- A new buffer has the capacity that was rounded. -/
theorem ofCapacity_exact (h : ofCapacity pool.toMemoryPool n = some c) :
    roundCapacityUp n = some c.capacity ∧ c.offset ≤ 32 := by
  by_cases h0 : n = 0
  · rw [ofCapacity, if_pos h0] at h
    obtain rfl := Option.some.inj h
    subst h0
    exact ⟨by decide +kernel, by decide⟩
  · obtain ⟨r, hr, -⟩ := roundCapacityUp_spec (ofCapacity_some h).2.2.2
    obtain rfl := Option.some.inj ((ofCapacity_of_round pool.toMemoryPool h0 hr).symm.trans h)
    simp only [pool.length_eq, INITIAL_DATA_OFFSET, Nat.add_sub_cancel]
    exact ⟨hr, le_rfl⟩

/-- Writing at the end changes the size only. -/
theorem appendReserved_fields (h : b.appendReserved src = some c) :
    c.size = b.size + src.length ∧ c.capacity = b.capacity ∧ c.offset = b.offset := by
  unfold appendReserved memcpy at h
  split_ifs at h
  · obtain rfl := Option.some.inj h
    exact ⟨rfl, rfl, rfl⟩
  · cases h

/-- Reserving more than there is: both roundings give the same capacity. -/
theorem reserve_exact (h : b.reserve pool.toMemoryPool n = some c) (hcap : b.capacity < n) :
    roundCapacityUp n = some c.capacity ∧ c.offset ≤ 32 := by
  obtain ⟨-, ⟨hle, -⟩ | ⟨-, hc⟩⟩ := reserve_cases h
  · omega
  · obtain ⟨r, buf, hr, hbuf, hcopy⟩ := reserveOrShrink_cases hc
    obtain ⟨hround, hmax⟩ := ofCapacity_exact hbuf
    have hlimit := (lt_iff_of_roundCapacityUp hr).1 (ofCapacity_some hbuf).2.2.2
    have hsame := Option.some.inj (hround.symm.trans ((roundCapacityUp_idem hr).2 hlimit))
    have hfields : c.capacity = buf.capacity ∧ c.offset = buf.offset := by
      rcases hcopy with rfl | ⟨src, hcopy⟩
      · exact ⟨rfl, rfl⟩
      · exact (appendReserved_fields hcopy).2
    rw [hfields.1, hfields.2]
    exact ⟨by rw [hsame, hr], hmax⟩

/-- **Appending** keeps the capacity if the bytes fit, and rounds the new size otherwise. -/
theorem append_exact (hb : b.Good) (h : b.append pool.toMemoryPool src = some c) :
    c.Good ∧ c.size = b.size + src.length ∧ c.size < 2 ^ 30 ∧
      (c.capacity = b.capacity ∧ c.offset = b.offset ∨
        b.capacity < c.size ∧ roundCapacityUp c.size = some c.capacity ∧
          c.offset ≤ 32) := by
  have hcgood := hb.of_append h
  unfold append at h
  rw [Option.bind_eq_bind, Option.bind_eq_some_iff] at h
  obtain ⟨d, hd, hc⟩ := h
  obtain ⟨hdgood, hdata, -⟩ := hb.of_reserve hd
  obtain ⟨hsize, hcapacity, hoffset⟩ := appendReserved_fields hc
  have hdsize : d.size = b.size := by rw [← hdgood.wf.length_data, hdata, hb.wf.length_data]
  have hlt : c.size < 2 ^ 32 := by
    have h1 := hcgood.wf.size_le
    have h2 := hcgood.wf.length_mem
    rcases hcgood.sized with h0 | ⟨-, h3⟩ <;> omega
  rw [hdsize] at hsize
  rw [← hsize, Nat.mod_eq_of_lt hlt] at hd
  obtain ⟨h30, hcases⟩ := reserve_cases hd
  refine ⟨hcgood, hsize, h30, ?_⟩
  rw [hcapacity, hoffset]
  rcases hcases with ⟨-, rfl⟩ | ⟨hcap, -⟩
  · exact .inl ⟨rfl, rfl⟩
  · exact .inr ⟨hcap, reserve_exact hd hcap⟩

/-- What fits is appended in place. -/
theorem append_exact_of_fit (hb : b.Good) (h : b.append pool.toMemoryPool src = some c)
    (hfit : b.size + src.length ≤ b.capacity) :
    c.Good ∧ c.size = b.size + src.length ∧ c.capacity = b.capacity ∧ c.offset = b.offset := by
  obtain ⟨hgood, hsize, -, hcases⟩ := append_exact hb h
  exact ⟨hgood, hsize, hcases.resolve_right fun hmoved => by omega⟩

/-- What `prepend` of `n` bytes does to size and capacity. -/
structure Prepended (b : ByteBufferWritable) (n : ℕ) (c : ByteBufferWritable) : Prop where
  good : c.Good
  size : c.size = b.size + n
  moved : b.offset < sizeofStorageHeader + n →
    roundCapacityUp (n + b.capacity) = some c.capacity ∧ c.offset ≤ 32
  in_place : ¬b.offset < sizeofStorageHeader + n →
    c.capacity = b.capacity + n ∧ c.offset + n = b.offset

/-- The new buffer of a reallocating `prepend` has room for the old bytes behind the new ones. -/
theorem Prepended.of_moved {buf d : ByteBufferWritable} (hb : b.Good)
    (hmoved : b.offset < sizeofStorageHeader + n)
    (hbuf : ofCapacity pool.toMemoryPool (n + b.capacity) = some buf) (hd : d.Good) (hsize : d.size = n)
    (hfields : d.capacity = buf.capacity ∧ d.offset = buf.offset)
    (h : (if b.size ≠ 0 then d.append pool.toMemoryPool b.data else pure d) = some c) :
    Prepended b n c := by
  have hle := hb.wf.size_le
  have hroom := (ofCapacity_some hbuf).2.2.1
  have hexact := ofCapacity_exact hbuf
  rw [← hfields.1, ← hfields.2] at hexact
  rw [← hfields.1] at hroom
  by_cases h0 : b.size = 0
  · rw [if_neg (by simpa using h0)] at h
    obtain rfl := Option.some.inj h
    exact ⟨hd, by omega, fun _ => hexact, fun h => absurd hmoved h⟩
  · rw [if_pos h0] at h
    obtain ⟨hgood, hcsize, hcap, hoff⟩ :=
      append_exact_of_fit hd h (by rw [hsize, hb.wf.length_data]; omega)
    refine ⟨hgood, by rw [hcsize, hb.wf.length_data]; omega, fun _ => ?_, fun h => absurd hmoved h⟩
    rw [hcap, hoff]
    exact hexact

theorem memcpy_fields {pos : ℕ} (h : b.memcpy pos src = some c) :
    c.size = b.size ∧ c.capacity = b.capacity ∧ c.offset = b.offset := by
  unfold memcpy at h
  split_ifs at h
  obtain rfl := Option.some.inj h
  exact ⟨rfl, rfl, rfl⟩

theorem prepend_exact (hb : b.Grown)
    (h : b.prepend pool.toMemoryPool (some src) src.length = some c) : Prepended b src.length c := by
  simp only [prepend, guard_of hb.good.wf.null_or_capacity, Option.bind_eq_bind, Option.bind_some] at h
  by_cases hmoved : b.offset < sizeofStorageHeader + src.length
  · simp only [if_pos hmoved, Option.bind_eq_some_iff] at h
    obtain ⟨buf, hbuf, d, hd, hc⟩ := h
    obtain ⟨hbgood, hs0, -⟩ := ofCapacity_some hbuf
    obtain ⟨-, hdsize, h30, -⟩ := append_exact hbgood hd
    have hwrap : src.length + b.capacity < 2 ^ 32 := by
      have := hb.capacity_le
      omega
    rw [Nat.mod_eq_of_lt hwrap] at hbuf
    have hroom := (ofCapacity_some hbuf).2.2.1
    obtain ⟨hdgood, -, hfields⟩ := append_exact_of_fit hbgood hd (by omega)
    exact .of_moved hb.good hmoved hbuf hdgood (by omega) hfields hc
  · have hroom := Nat.not_lt.1 hmoved
    rw [if_neg hmoved, if_neg (hb.good.wf.shift hroom).1] at h
    obtain ⟨hgood, -⟩ := (hb.good.shift hroom).of_memcpy h
    obtain ⟨hsize, hcap, hoff⟩ := memcpy_fields h
    exact ⟨hgood, hsize, fun h => absurd h hmoved, fun _ => ⟨hcap, by rw [hoff]; simp only; omega⟩⟩

theorem prependNull_exact (hb : b.Grown) (hn : n < 2 ^ 32)
    (h : b.prepend pool.toMemoryPool none n = some c) : Prepended b n c := by
  simp only [prepend, guard_of hb.good.wf.null_or_capacity, Option.bind_eq_bind, Option.bind_some,
    Option.pure_def] at h
  by_cases hmoved : b.offset < sizeofStorageHeader + n
  · simp only [if_pos hmoved, Option.bind_eq_some_iff] at h
    obtain ⟨buf, hbuf, hc⟩ := h
    obtain ⟨hbgood, hs0, hroom, -⟩ := ofCapacity_some hbuf
    have hmax := le_of_roundCapacityUp (ofCapacity_exact hbuf).1
    have hwrap : n + b.capacity < 2 ^ 32 := by
      by_contra hge
      -- the size is beyond the capacity, which the next `reserve` asserts not to be so
      have h0 : b.size ≠ 0 := fun h0 => hge (by have := hb.capacity_of_size h0; omega)
      have hbig : ¬buf.size + n ≤ buf.capacity := by
        have := hb.capacity_le
        omega
      simp only [if_pos h0, append, reserve, guard, if_neg hbig, Option.bind_eq_bind,
        Option.bind_eq_some_iff] at hc
      obtain ⟨_, ⟨_, -, _, hnone, -⟩, -⟩ := hc
      cases hnone
    rw [Nat.mod_eq_of_lt hwrap] at hbuf hroom
    exact .of_moved hb.good hmoved hbuf (hbgood.setSize (n := buf.size + n) (by omega)).1 (by simp only; omega)
      ⟨rfl, rfl⟩ hc
  · have hroom := Nat.not_lt.1 hmoved
    rw [if_neg hmoved, if_neg (hb.good.wf.shift hroom).1] at h
    obtain rfl := Option.some.inj h
    exact ⟨hb.good.shift hroom, rfl, fun h => absurd h hmoved, fun _ => ⟨rfl, by simp only; omega⟩⟩

/-! ### One operation -/

variable {op : GrowthOp}

theorem append_grown (hb : b.Grown) (h : b.append pool.toMemoryPool src = some c) :
    c.Grown ∧ c.size = b.size + src.length ∧
      (c.capacity ≤ b.capacity + src.length ∨ roundCapacityUp c.size = some c.capacity) := by
  have h0 := hb.capacity_of_size
  obtain ⟨hgood, hsize, -, ⟨hcap, hoff⟩ | ⟨hlt, hr, hoff⟩⟩ := append_exact hb.good h
  · refine ⟨⟨hgood, hoff ▸ hb.offset_le, by rw [hcap, hoff]; exact hb.length_le, by omega⟩, hsize, .inl ?_⟩
    omega
  · have := le_of_roundCapacityUp hr
    exact ⟨⟨hgood, hoff, by omega, by omega⟩, hsize, .inr hr⟩

theorem Prepended.grown (hb : b.Grown) (h : Prepended b n c) : c.Grown := by
  have h0 := hb.capacity_of_size
  have hsize := h.size
  by_cases hmoved : b.offset < sizeofStorageHeader + n
  · obtain ⟨hr, hoff⟩ := h.moved hmoved
    have := le_of_roundCapacityUp hr
    refine ⟨h.good, hoff, by omega, fun hc => ?_⟩
    rw [show n + b.capacity = 0 by omega] at hr
    exact Option.some.inj (hr.symm.trans (by decide +kernel : roundCapacityUp 0 = some 0))
  · obtain ⟨hcap, hoff⟩ := h.in_place hmoved
    have h1 := hb.offset_le
    have h2 := hb.length_le
    exact ⟨h.good, by omega, by omega, by omega⟩

/-- **What an operation does to size and capacity.**  A `prepend` that is longer than the headroom
rounds the sum of its bytes and the capacity.  Otherwise the capacity grows by the bytes at most, or
the new size is rounded. -/
theorem grow_cases (hb : b.Grown) (h : b.grow (pool, op) = some c) :
    c.Grown ∧ c.size = b.size + op.bytes ∧
      (op.MovesFront b → roundCapacityUp (op.bytes + b.capacity) = some c.capacity) ∧
      (¬op.MovesFront b →
        c.capacity ≤ b.capacity + op.bytes ∨ roundCapacityUp c.size = some c.capacity) := by
  have hprepended : ∀ {n}, Prepended b n c → c.Grown ∧ c.size = b.size + n ∧
      (b.offset < sizeofStorageHeader + n → roundCapacityUp (n + b.capacity) = some c.capacity) ∧
      (¬b.offset < sizeofStorageHeader + n →
        c.capacity ≤ b.capacity + n ∨ roundCapacityUp c.size = some c.capacity) := fun h =>
    ⟨h.grown hb, h.size, fun hm => (h.moved hm).1, fun hm => .inl (h.in_place hm).1.le⟩
  cases op with
  | append src =>
    obtain ⟨hgrown, hsize, hcap⟩ := append_grown hb h
    exact ⟨hgrown, hsize, False.elim, fun _ => hcap⟩
  | pushBack byte =>
    have happend : b.append pool.toMemoryPool [byte] = some c := h
    obtain ⟨hgrown, hsize, hcap⟩ := append_grown hb happend
    exact ⟨hgrown, hsize, False.elim, fun _ => hcap⟩
  | prepend src => exact hprepended (prepend_exact hb h)
  | prependNull bytes => exact hprepended (prependNull_exact hb bytes.toNat_lt h)

/-- Some size class has room for the bytes of a reallocating `prepend` and the whole old capacity, and
is not out of proportion to the new content.  Requests of `2 ^ 30` bytes and more fail. -/
def Modest (b : ByteBufferWritable) (a : ExactPool × GrowthOp) : Prop :=
  a.2.MovesFront b → a.2.bytes + b.capacity < 2 ^ 30 →
    ∃ k ∈ sizeClasses, a.2.bytes + b.capacity + 32 ≤ k ∧ k ≤ 2 * (b.size + a.2.bytes) + 96

/-- What is rounded is below a bound just when a size class is between. -/
theorem exists_class_iff {m : ℕ} (hr : roundCapacityUp n = some r) :
    (∃ k ∈ sizeClasses, n + 32 ≤ k ∧ k ≤ m + 32) ↔ r ≤ m := by
  have hleast := isLeastClass_of_roundCapacityUp hr
  constructor
  · rintro ⟨k, hk, hle, hkm⟩
    have := hleast.le_of_mem hk hle
    omega
  · exact fun hle => ⟨r + 32, hleast.mem, hleast.le, by omega⟩

/-- Before a reallocating `prepend` the slack is at most a third of the new content, and 32 bytes. -/
def Tight (b : ByteBufferWritable) (a : ExactPool × GrowthOp) : Prop :=
  a.2.MovesFront b → 3 * (a.2.bytes + b.capacity) ≤ 4 * (a.2.bytes + b.size) + 96

/-- Where the slack is small, rounding adds at most half. -/
theorem Tight.modest {a : ExactPool × GrowthOp} (h : Tight b a) : Modest b a := by
  intro hm hlt
  obtain ⟨r, hr, -⟩ := roundCapacityUp_least hlt
  have hle := h hm
  refine (exists_class_iff (m := 2 * (b.size + a.2.bytes) + 64) hr).mpr ?_
  rcases roundCapacityUp_le hr with h' | h' <;> omega

/-- The capacity is in proportion to the content. -/
def Proportionate (b : ByteBufferWritable) : Prop := b.capacity ≤ 2 * b.size + 64

/-- Everything but a reallocating `prepend` keeps the proportion. -/
theorem Proportionate.grow (hp : b.Proportionate) (hb : b.Grown) (hmodest : Modest b (pool, op))
    (h : b.grow (pool, op) = some c) : c.Proportionate := by
  obtain ⟨-, hsize, hfront, hrest⟩ := grow_cases hb h
  unfold Proportionate at *
  by_cases hm : op.MovesFront b
  · rw [hsize]
    exact (exists_class_iff (hfront hm)).mp (hmodest hm (lt_of_roundCapacityUp (hfront hm)))
  · rcases hrest hm with hcap | hr
    · omega
    · rcases roundCapacityUp_le hr with h' | h' <;> omega

/-! ### Operations that do not fail -/

theorem ofCapacity_total (pool : MemoryPool32) (hn : n < 2 ^ 30) :
    ∃ c, ofCapacity pool.toMemoryPool n = some c ∧ c.Good ∧ c.size = 0 ∧ n ≤ c.capacity := by
  by_cases h0 : n = 0
  · exact ⟨empty, by rw [ofCapacity, if_pos h0], good_empty, rfl, h0.le⟩
  · obtain ⟨c, hc, -⟩ := ofCapacity_spec pool.toMemoryPool h0 hn
    obtain ⟨hgood, hsize, hcap, -⟩ := ofCapacity_some hc
    exact ⟨c, hc, hgood, hsize, hcap⟩

/-- The old bytes of a reallocating `prepend`. -/
theorem appendOld_total (pool : MemoryPool32) (hb : b.Good) {old : ByteBufferWritable} (hold : old.Good)
    (hfit : b.size + old.size ≤ b.capacity) (h30 : b.size + old.size < 2 ^ 30) :
    ∃ c, (if old.size ≠ 0 then b.append pool.toMemoryPool old.data else pure b) = some c := by
  by_cases h0 : old.size = 0
  · exact ⟨b, if_neg (by simpa using h0)⟩
  · obtain ⟨c, hc, -⟩ := append_spec_of_fit pool.toMemoryPool hb.wf old.data
      (by rw [hold.wf.length_data]; exact hfit) (by rw [hold.wf.length_data]; exact h30)
    exact ⟨c, by rw [if_pos h0, hc]⟩

/-- `prepend` succeeds if what it asks for is below the limit. -/
theorem prepend_total (pool : MemoryPool32) (hb : b.Good)
    (h30 : b.offset < sizeofStorageHeader + n → n + b.capacity < 2 ^ 30) :
    (∃ c, b.prepend pool.toMemoryPool none n = some c) ∧
      ∀ src : List UInt8, src.length = n → ∃ c, b.prepend pool.toMemoryPool (some src) n = some c := by
  have hsize := hb.wf.size_le
  simp only [prepend, guard_of hb.wf.null_or_capacity, Option.bind_eq_bind, Option.bind_some,
    Option.pure_def]
  by_cases hmoved : b.offset < sizeofStorageHeader + n
  · have hlt := h30 hmoved
    obtain ⟨buf, hbuf, hgood, hs0, hcap⟩ := ofCapacity_total pool hlt
    simp only [if_pos hmoved, Nat.mod_eq_of_lt (show n + b.capacity < 2 ^ 32 by omega), hbuf,
      Option.bind_some]
    constructor
    · exact appendOld_total pool (hgood.setSize (n := buf.size + n) (by omega)).1 hb (by simp only; omega)
        (by simp only; omega)
    · intro src hlen
      obtain ⟨d, hd, hdwf, -, hdsize, hdcap, -⟩ :=
        append_spec_of_fit pool.toMemoryPool hgood.wf src (by omega) (by omega)
      rw [hd, Option.bind_some]
      exact appendOld_total pool ⟨hdwf, hgood.sized.append hd⟩ hb (by omega) (by omega)
  · obtain ⟨hmem, hwf⟩ := hb.wf.shift (Nat.not_lt.1 hmoved)
    simp only [if_neg hmoved, if_neg hmem]
    refine ⟨⟨_, rfl⟩, fun src hlen => ?_⟩
    obtain ⟨c, hc, -⟩ := memcpy_spec hwf 0 src (by simp only; omega)
    exact ⟨c, hc⟩

/-- A reallocating `prepend` below the limit. -/
theorem grow_total_of_movesFront (pool : ExactPool) (hb : b.Grown) (hm : op.MovesFront b)
    (h30 : op.bytes + b.capacity < 2 ^ 30) : ∃ c, b.grow (pool, op) = some c := by
  cases op with
  | append src | pushBack byte => exact hm.elim
  | prepend src => exact (prepend_total pool.toMemoryPool32 hb.good fun _ => h30).2 src rfl
  | prependNull bytes => exact (prepend_total pool.toMemoryPool32 hb.good fun _ => h30).1

/-- **No assertion fails while the content is small** and the capacity in proportion to it. -/
theorem grow_total (pool : ExactPool) (hb : b.Grown) (hp : b.Proportionate)
    (hsize : b.size + op.bytes ≤ 2 ^ 28) : ∃ c, b.grow (pool, op) = some c := by
  have happend : ∀ src : List UInt8, b.size + src.length ≤ 2 ^ 28 →
      ∃ c, b.append pool.toMemoryPool src = some c := fun src h => by
    obtain ⟨c, hc, -⟩ := append_spec pool.toMemoryPool hb.good.wf src (by omega)
    exact ⟨c, hc⟩
  unfold Proportionate at hp
  cases op with
  | append src => exact happend src hsize
  | pushBack byte => exact happend [byte] hsize
  | prepend src =>
    simp only [GrowthOp.bytes] at hsize
    exact (prepend_total pool.toMemoryPool32 hb.good fun _ => by omega).2 src rfl
  | prependNull bytes =>
    simp only [GrowthOp.bytes] at hsize
    exact (prepend_total pool.toMemoryPool32 hb.good fun _ => by omega).1

/-! ### Sequences of operations -/

/-- A condition on one operation that says the same as the proportion after it. -/
theorem modest_iff (hb : b.Grown) (hp : b.Proportionate) (a : ExactPool × GrowthOp) :
    Modest b a ↔ ∀ c, b.grow a = some c → c.Proportionate := by
  obtain ⟨pool, op⟩ := a
  constructor
  · exact fun hmodest c h => hp.grow hb hmodest h
  · intro hall hm hlt
    obtain ⟨c, hc⟩ := grow_total_of_movesFront pool hb hm hlt
    obtain ⟨-, hsize, hfront, -⟩ := grow_cases hb hc
    have hprop := hall c hc
    unfold Proportionate at hprop
    rw [hsize] at hprop
    exact (exists_class_iff (hfront hm)).mpr hprop

theorem grow_run_total (ops : List (ExactPool × GrowthOp)) (hb : b.Grown) (hp : b.Proportionate)
    (hmodest : Lib.Along grow Modest b ops)
    (hsum : b.size + (ops.map fun a => a.2.bytes).sum ≤ 2 ^ 28) :
    ∃ c, ops.foldlM grow b = some c := by
  induction ops generalizing b with
  | nil => exact ⟨b, rfl⟩
  | cons a ops ih =>
    obtain ⟨pool, op⟩ := a
    rw [List.map_cons, List.sum_cons] at hsum
    simp only at hsum
    obtain ⟨b', hb'⟩ := grow_total pool hb hp (show b.size + op.bytes ≤ 2 ^ 28 by omega)
    obtain ⟨hgrown, hsize, -⟩ := grow_cases hb hb'
    obtain ⟨c, hc⟩ := ih hgrown (hp.grow hb hmodest.1 hb') (hmodest.2 b' hb') (by omega)
    exact ⟨c, Lib.foldlM_cons_eq_some.mpr ⟨b', hb', hc⟩⟩

/-- **When growth is proportionate to content.**  With exact allocators the capacity is at most twice
the size plus 64 after every operation on an initially empty buffer if and only if, before each
`prepend` that reallocates, some size class lies between its bytes and the whole capacity and twice the
new size (with headroom); it is enough that the slack is a third of the content or less.  Then no
assertion fails as long as the content stays at or below `2 ^ 28` bytes. -/
theorem grow_run (ops : List (ExactPool × GrowthOp)) :
    ((∀ pre post b, ops = pre ++ post → pre.foldlM grow empty = some b →
        b.capacity ≤ 2 * b.size + 64) ↔ Lib.Along grow Modest empty ops) ∧
      (Lib.Along grow Tight empty ops → Lib.Along grow Modest empty ops) ∧
      (Lib.Along grow Modest empty ops → (ops.map fun a => a.2.bytes).sum ≤ 2 ^ 28 →
        ∃ b, ops.foldlM grow empty = some b) := by
  have hempty : empty.Proportionate := by unfold Proportionate; decide
  refine ⟨?_, Lib.Along.mono (fun _ _ => Tight.modest) ops,
    fun hmodest hsum => grow_run_total ops grown_empty hempty hmodest ?_⟩
  · exact (Lib.along_iff_of_step (fun b a c hb h => (grow_cases hb h).1)
      (fun b a hb hp => modest_iff hb hp a) ops grown_empty hempty).symm
  · rw [show empty.size = 0 from rfl, Nat.zero_add]
    exact hsum

/-- A `prepend` of five bytes to an empty buffer is in proportion. -/
theorem grow_run_five : ∃ b, [(ExactPool.zeroed, GrowthOp.prepend [1, 2, 3, 4, 5])].foldlM grow empty = some b :=
  (grow_run _).2.2 ((grow_run _).2.1 ⟨fun _ => by decide, fun _ _ => trivial⟩) (by decide)

/-! ### Prepends just above the headroom -/

/-- A `prepend` of 13 bytes, one more than the headroom. -/
def thirteen : ExactPool × GrowthOp := (ExactPool.zeroed, .prepend (List.replicate 13 7))

theorem Grown.movesFront_thirteen (hb : b.Grown) : thirteen.2.MovesFront b := by
  have hoff := hb.offset_le
  show b.offset < sizeofStorageHeader + (List.replicate 13 7).length
  rw [List.length_replicate, sizeofStorageHeader]
  omega

/-- Another 13 bytes go to the next size class. -/
theorem thirteen_step (hb : b.Grown) {k k' : ℕ} (hcap : b.capacity + 32 = k) (hlt : k < 2 ^ 30 + 19)
    (hk : IsLeastClass (k + 13) k') :
    ∃ c, b.grow thirteen = some c ∧ c.Grown ∧ c.size = b.size + 13 ∧ c.capacity + 32 = k' := by
  have hm := hb.movesFront_thirteen
  have hbytes : thirteen.2.bytes = 13 := rfl
  obtain ⟨c, hc⟩ := grow_total_of_movesFront ExactPool.zeroed hb hm (by rw [hbytes]; omega)
  obtain ⟨hgrown, hsize, hfront, -⟩ := grow_cases hb hc
  refine ⟨c, hc, hgrown, hsize, ?_⟩
  have hleast := isLeastClass_of_roundCapacityUp (hfront hm)
  rw [hbytes, show 13 + b.capacity + 32 = k + 13 by omega] at hleast
  exact hleast.unique hk

/-- Two more prepends double the allocation. -/
theorem isLeastClass_next (i : ℕ) :
    IsLeastClass (2 ^ (6 + i) + 13) (3 * 2 ^ (5 + i)) ∧ IsLeastClass (3 * 2 ^ (5 + i) + 13) (2 ^ (7 + i)) := by
  have h6 : 2 ^ (6 + i) = 2 * 2 ^ (5 + i) := by rw [← Nat.pow_succ']; congr 1; omega
  have h7 : 2 ^ (7 + i) = 4 * 2 ^ (5 + i) := by rw [show 7 + i = 5 + i + 2 by omega, Nat.pow_add]; omega
  have h5 : 32 ≤ 2 ^ (5 + i) := by
    have := Nat.pow_le_pow_right (show 0 < 2 by norm_num) (Nat.le_add_right 5 i)
    omega
  -- a class above a multiple of a quarter is at least the next multiple
  have hnext : ∀ {k j : ℕ}, k ∈ sizeClasses → 2 ≤ j → j * 2 ^ (5 + i) + 13 ≤ k →
      (j + 1) * 2 ^ (5 + i) ≤ k := by
    intro k j hk hj hle
    have h2 := Nat.mul_le_mul_right (2 ^ (5 + i)) hj
    obtain ⟨q, rfl⟩ := dvd_of_mem_sizeClasses (m := 5 + i) hk (.inl (by omega))
    have hq : j < q := Nat.lt_of_mul_lt_mul_left (a := 2 ^ (5 + i)) (by rw [Nat.mul_comm]; omega)
    rw [Nat.mul_comm]
    exact Nat.mul_le_mul_left _ hq
  constructor
  · refine ⟨⟨.inr (.inr ⟨6 + i, by omega, .inr ?_⟩), by omega⟩, fun k hk => hnext hk.1 le_rfl ?_⟩
    · rw [show 6 + i - 1 = 5 + i by omega]
    · rw [← h6]
      exact hk.2
  · refine ⟨⟨two_pow_mem_sizeClasses (by omega), by omega⟩, fun k hk => ?_⟩
    rw [h7]
    exact hnext hk.1 (by norm_num) hk.2

/-- A run that is one step longer. -/
theorem thirteen_succ (h : (List.replicate n thirteen).foldlM grow empty = some b) :
    (List.replicate (n + 1) thirteen).foldlM grow empty = b.grow thirteen := by
  rw [List.replicate_add, List.foldlM_append, h]
  simp [List.foldlM_cons]

/-- **Prepends just above the headroom double the capacity every second time.** -/
theorem prepend_thirteen {i : ℕ} (hi : i ≤ 24) :
    ∃ b, (List.replicate (2 * i + 2) thirteen).foldlM grow empty = some b ∧ b.Grown ∧
      b.size = 13 * (2 * i + 2) ∧ b.capacity + 32 = 3 * 2 ^ (5 + i) := by
  -- two steps, from one class by way of the next
  have htwo : ∀ {n k k' k'' : ℕ} {b : ByteBufferWritable},
      (List.replicate n thirteen).foldlM grow empty = some b → b.Grown → b.size = 13 * n →
      b.capacity + 32 = k → k < 2 ^ 30 + 19 → k' < 2 ^ 30 + 19 → IsLeastClass (k + 13) k' →
      IsLeastClass (k' + 13) k'' →
      ∃ d, (List.replicate (n + 2) thirteen).foldlM grow empty = some d ∧ d.Grown ∧
        d.size = 13 * (n + 2) ∧ d.capacity + 32 = k'' := by
    intro n k k' k'' b hrun hb hsize hcap hk hk' h₁ h₂
    obtain ⟨c, hc, hcgrown, hcsize, hccap⟩ := thirteen_step hb hcap hk h₁
    obtain ⟨d, hd, hdgrown, hdsize, hdcap⟩ := thirteen_step hcgrown hccap hk' h₂
    exact ⟨d, by rw [thirteen_succ ((thirteen_succ hrun).trans hc), hd], hdgrown, by omega, hdcap⟩
  induction i with
  | zero =>
    have hfirst : IsLeastClass (32 + 13) 64 := by
      obtain ⟨r, hr, hleast⟩ := roundCapacityUp_least (show 13 < 2 ^ 30 by norm_num)
      obtain rfl := Option.some.inj (hr.symm.trans (by decide +kernel : roundCapacityUp 13 = some 32))
      exact hleast
    exact htwo (n := 0) (k := 32) rfl grown_empty rfl rfl (by norm_num) (by norm_num) hfirst
      (isLeastClass_next 0).1
  | succ i ih =>
    obtain ⟨b, hrun, hb, hsize, hcap⟩ := ih (by omega)
    have hpow := Nat.pow_le_pow_right (show 0 < 2 by norm_num) (show 7 + i ≤ 30 by omega)
    have h7 : 2 ^ (7 + i) = 4 * 2 ^ (5 + i) := by
      rw [show 7 + i = 5 + i + 2 by omega, Nat.pow_add]
      omega
    have hnext := (isLeastClass_next (i + 1)).1
    rw [show 6 + (i + 1) = 7 + i by omega] at hnext
    exact htwo hrun hb hsize hcap (by omega) (by omega) (isLeastClass_next i).2 hnext

/-- **The assertion fails with 650 bytes in the buffer.**  Five prepends of 13 bytes make 224 bytes of
capacity for 65 bytes of content, and the fifty-first fails. -/
theorem prepend_thirteen_fails :
    ((List.replicate 5 thirteen).foldlM grow empty).map (fun b => (b.size, b.capacity)) = some (65, 224) ∧
      (∃ b, (List.replicate 50 thirteen).foldlM grow empty = some b ∧ b.size = 650) ∧
      (List.replicate 51 thirteen).foldlM grow empty = none := by
  obtain ⟨b, hrun, hb, hsize, hcap⟩ := prepend_thirteen (le_refl 24)
  refine ⟨by decide +kernel, ⟨b, hrun, hsize⟩, ?_⟩
  rw [thirteen_succ (n := 50) hrun, Option.eq_none_iff_forall_ne_some]
  intro c hc
  have hlt := lt_of_roundCapacityUp ((grow_cases hb hc).2.2.1 hb.movesFront_thirteen)
  have hbytes : GrowthOp.bytes (.prepend (List.replicate 13 7)) = 13 := rfl
  omega

end ByteBufferWritable
end Framing
end ICon7
