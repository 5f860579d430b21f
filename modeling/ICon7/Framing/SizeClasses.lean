/-
# Size classes

`round_capacity_up` works on the length of the allocation, headroom included.  It rounds to 32, to a
power of two from 64 on, or to three quarters of the next one: to the least of these that is large
enough (`roundCapacityUp_least`).  So it is monotone, and rounding a second time changes nothing as
long as the first result is below `2 ^ 30`, which is what the second call asserts.

`reserve_or_shrink` rounds and gives the result to the capacity constructor, which rounds again.  For
the last capacities below `2 ^ 30` the first result is `3 * 2 ^ 29 - 32`, and the second call fails its
assertion.  These are the only capacities that `reserve` accepts and cannot provide (`reserve_iff`),
for every buffer that the operations can make (`Reachable`).
-/

import Mathlib.Order.Bounds.Basic
import ICon7.Framing.StorageBytes

namespace ICon7
namespace Framing

/-- The lengths of allocations that are asked for. -/
def sizeClasses : Set ℕ := {k | k = 32 ∨ k = 64 ∨ ∃ j, 6 ≤ j ∧ (k = 2 ^ j ∨ k = 3 * 2 ^ (j - 1))}

/-- `k` is the least size class that is not below `n`. -/
def IsLeastClass (n k : ℕ) : Prop := IsLeast {k | k ∈ sizeClasses ∧ n ≤ k} k

variable {n n' k k' m : ℕ}

theorem two_pow_mem_sizeClasses (hm : 6 ≤ m) : 2 ^ m ∈ sizeClasses := .inr (.inr ⟨m, hm, .inl rfl⟩)

/-- Size classes from `2 ^ (m + 1)` on are multiples of `2 ^ m`; all are multiples of 32. -/
theorem dvd_of_mem_sizeClasses (hk : k ∈ sizeClasses) (hm : 2 * 2 ^ m ≤ k ∨ m = 5) : 2 ^ m ∣ k := by
  have hpow : ∀ {i}, 2 * 2 ^ m ≤ k → k < 2 ^ (i + 2) → 2 ^ m ∣ 2 ^ i := by
    intro i hle hlt
    have hexp : m + 1 < i + 2 := by
      rw [← Nat.pow_lt_pow_iff_right (a := 2) (by norm_num), Nat.pow_succ']
      exact hle.trans_lt hlt
    exact Nat.pow_dvd_pow 2 (by omega)
  rcases hm with hle | rfl
  · rcases hk with rfl | rfl | ⟨j, hj, rfl | rfl⟩
    · exact hpow (i := 5) hle (by norm_num)
    · exact hpow (i := 6) hle (by norm_num)
    · exact hpow hle (Nat.pow_lt_pow_right (by norm_num) (by omega))
    · refine (hpow (i := j - 1) hle ?_).mul_left 3
      rw [Nat.pow_add]
      have := Nat.two_pow_pos (j - 1)
      omega
  · rcases hk with rfl | rfl | ⟨j, hj, rfl | rfl⟩
    · norm_num
    · norm_num
    · exact Nat.pow_dvd_pow 2 (by omega)
    · exact (Nat.pow_dvd_pow 2 (by omega)).mul_left 3

namespace IsLeastClass

theorem mem (h : IsLeastClass n k) : k ∈ sizeClasses := h.1.1

theorem le (h : IsLeastClass n k) : n ≤ k := h.1.2

theorem le_of_mem (h : IsLeastClass n k) (hk : k' ∈ sizeClasses) (hn : n ≤ k') : k ≤ k' := h.2 ⟨hk, hn⟩

theorem mono (h : IsLeastClass n k) (h' : IsLeastClass n' k') (hn : n ≤ n') : k ≤ k' :=
  h.le_of_mem h'.mem (hn.trans h'.le)

theorem self (hk : k ∈ sizeClasses) : IsLeastClass k k := ⟨⟨hk, le_rfl⟩, fun _ h => h.2⟩

theorem unique (h : IsLeastClass n k) (h' : IsLeastClass n k') : k = k' := IsLeast.unique h h'

end IsLeastClass

namespace ByteBufferWritable

variable {c r : ℕ}

/-- **The least size class** that has room for the capacity and the headroom. -/
theorem roundCapacityUp_least (hc : c < 2 ^ 30) :
    ∃ r, roundCapacityUp c = some r ∧ IsLeastClass (c + 32) (r + 32) := by
  obtain ⟨m, j, hm, hlow, hhigh, hr, h1, h2⟩ := roundCapacityUp_eq hc
  have h32 : 32 ≤ (j + 1) * 2 ^ m := by omega
  refine ⟨_, hr, ?_⟩
  rw [Nat.sub_add_cancel h32]
  refine ⟨⟨?_, h2⟩, fun k hk => ?_⟩
  · -- below 64 the quarter is 32, and above it the capacity is at least half of the power of two
    have hj : j < 4 := by
      by_contra h
      have := Nat.mul_le_mul_right (2 ^ m) (Nat.not_lt.1 h)
      omega
    interval_cases j
    · have h64 : 2 ^ m = 2 ^ 5 := by
        have := Nat.pow_le_pow_right (show 0 < 2 by norm_num) hm
        omega
      exact .inl (by omega)
    · exact .inr (.inr ⟨m + 1, by omega, .inl (by rw [Nat.pow_succ'])⟩)
    · exact .inr (.inr ⟨m + 1, by omega, .inr (by rw [Nat.add_sub_cancel])⟩)
    · exact .inr (.inr ⟨m + 2, by omega, .inl (by rw [Nat.pow_add]; omega)⟩)
  · have hdvd : 2 ^ m ∣ k := by
      refine dvd_of_mem_sizeClasses hk.1 ?_
      by_cases h64 : c + 32 < 64
      · refine .inr (Nat.le_antisymm ?_ hm)
        rw [← Nat.pow_le_pow_iff_right (a := 2) (by norm_num)]
        omega
      · exact .inl (by have := hk.2; omega)
    obtain ⟨q, rfl⟩ := hdvd
    have hq : j < q := Nat.lt_of_mul_lt_mul_left (a := 2 ^ m) (by have := hk.2; rw [Nat.mul_comm]; omega)
    rw [Nat.mul_comm]
    exact Nat.mul_le_mul_left _ hq

/-- Nothing but the least size class is returned. -/
theorem isLeastClass_of_roundCapacityUp (hr : roundCapacityUp c = some r) :
    IsLeastClass (c + 32) (r + 32) := by
  obtain ⟨r', hr', hleast⟩ := roundCapacityUp_least (lt_of_roundCapacityUp hr)
  obtain rfl := Option.some.inj (hr.symm.trans hr')
  exact hleast

/-- The result can be rounded again exactly if the headroom also fits below the limit. -/
theorem lt_iff_of_roundCapacityUp (hr : roundCapacityUp c = some r) : r < 2 ^ 30 ↔ c ≤ 2 ^ 30 - 32 := by
  have hleast := isLeastClass_of_roundCapacityUp hr
  constructor
  · intro hlt
    by_contra hc
    have hle := hleast.le
    obtain ⟨q, hq⟩ := dvd_of_mem_sizeClasses (m := 29) hleast.mem (.inl (by omega))
    omega
  · intro hc
    have := hleast.le_of_mem (two_pow_mem_sizeClasses (m := 30) (by norm_num)) (by omega)
    omega

/-- Rounding what was rounded changes nothing, unless the assertion fails. -/
theorem roundCapacityUp_idem (hr : roundCapacityUp c = some r) :
    roundCapacityUp r = some r ↔ c ≤ 2 ^ 30 - 32 := by
  rw [← lt_iff_of_roundCapacityUp hr]
  constructor
  · exact lt_of_roundCapacityUp
  · intro hlt
    obtain ⟨r', hr', hleast⟩ := roundCapacityUp_least hlt
    have hself := IsLeastClass.self (isLeastClass_of_roundCapacityUp hr).mem
    rw [hr', show r' = r by have := hleast.unique hself; omega]

/-- **`round_capacity_up` picks the least size class.**  The first bit that is tried fits into 32 bits,
the loop ends without going below zero, the result is monotone, and rounding again gives the same
number exactly if it does not fail the assertion. -/
theorem roundCapacityUp_classes (hc : c < 2 ^ 30) :
    1 <<< (Nat.log2 (max (c + INITIAL_DATA_OFFSET) 64) + 1) < 2 ^ 32 ∧
    ∃ r, roundCapacityUp c = some r ∧ c ≤ r ∧ r < 2 ^ 32 ∧ IsLeastClass (c + 32) (r + 32) ∧
      (∀ c' r', c ≤ c' → roundCapacityUp c' = some r' → r ≤ r') ∧
      (roundCapacityUp r = some r ↔ c ≤ 2 ^ 30 - 32) := by
  obtain ⟨r, hr, hleast⟩ := roundCapacityUp_least hc
  refine ⟨?_, r, hr, by have := hleast.le; omega, ?_, hleast, fun c' r' hle hr' => ?_,
    roundCapacityUp_idem hr⟩
  · have hlog : Nat.log2 (max (c + INITIAL_DATA_OFFSET) 64) < 31 :=
      (Nat.log2_lt (by omega)).2 (by unfold INITIAL_DATA_OFFSET; omega)
    rw [Nat.one_shiftLeft]
    exact Nat.pow_lt_pow_right (by norm_num) (by omega)
  · have := hleast.le_of_mem (two_pow_mem_sizeClasses (m := 31) (by norm_num)) (by omega)
    omega
  · have := hleast.mono (isLeastClass_of_roundCapacityUp hr') (by omega)
    omega

/-- The classes of a capacity of 1000 bytes: `1000 + 32` is rounded to `1536`. -/
theorem roundCapacityUp_classes_thousand :
    (1000 : ℕ) < 2 ^ 30 ∧ ∃ r, roundCapacityUp 1000 = some r ∧ IsLeastClass 1032 (r + 32) :=
  ⟨by norm_num, let ⟨r, hr, _, _, hleast, _⟩ := (roundCapacityUp_classes (by norm_num)).2; ⟨r, hr, hleast⟩⟩

/-- The largest capacity that `round_capacity_up` accepts is rounded to one that it does not accept. -/
theorem roundCapacityUp_limit :
    roundCapacityUp (2 ^ 30 - 1) = some (3 * 2 ^ 29 - 32) ∧ roundCapacityUp (3 * 2 ^ 29 - 32) = none := by
  decide +kernel

/-! ### Buffers that the operations can make -/

variable {pool : MemoryPool32} {b c : ByteBufferWritable} {src : List UInt8}

/-- The buffers that can be made, each operation with an allocator of its own.  An operation that fails
an assertion makes none.  Moving hands a buffer on as it is.  Without a source `prepend` is called for
the few bytes of a header, and its sum does not wrap. -/
inductive Reachable : ByteBufferWritable → Prop
  | empty : Reachable .empty
  | construct {capacity : ℕ} (pool : MemoryPool32) {c : ByteBufferWritable}
      (h : ofCapacity pool.toMemoryPool capacity = some c) : Reachable c
  | append {b c : ByteBufferWritable} (hb : Reachable b) (pool : MemoryPool32) {src : List UInt8}
      (h : b.append pool.toMemoryPool src = some c) : Reachable c
  | prepend {b c : ByteBufferWritable} (hb : Reachable b) (pool : MemoryPool32) {src : List UInt8}
      (h : b.prepend pool.toMemoryPool (some src) src.length = some c) : Reachable c
  | prependNull {b c : ByteBufferWritable} (hb : Reachable b) (pool : MemoryPool32) {bytes : ℕ}
      (hwrap : bytes + b.capacity < 2 ^ 32)
      (h : b.prepend pool.toMemoryPool none bytes = some c) : Reachable c
  | pushBack {b c : ByteBufferWritable} (hb : Reachable b) (pool : MemoryPool32) {byte : UInt8}
      (h : b.pushBack pool.toMemoryPool byte = some c) : Reachable c
  | write {b c : ByteBufferWritable} (hb : Reachable b) (pool : MemoryPool32) {data : List UInt8}
      (h : b.write pool.toMemoryPool data = some c) : Reachable c
  | resize {b c : ByteBufferWritable} (hb : Reachable b) (pool : MemoryPool32) {newSize : ℕ}
      (h : b.resize pool.toMemoryPool newSize = some c) : Reachable c
  | reserve {b c : ByteBufferWritable} (hb : Reachable b) (pool : MemoryPool32) {newCapacity : ℕ}
      (h : b.reserve pool.toMemoryPool newCapacity = some c) : Reachable c
  | clear {b c : ByteBufferWritable} (hb : Reachable b) (h : b.clear = some c) : Reachable c
  | copy {b c : ByteBufferWritable} (hb : Reachable b) (pool : MemoryPool32)
      (h : b.copy pool.toMemoryPool = some c) : Reachable c
  /-- Writing through `data()`. -/
  | overwrite {b c : ByteBufferWritable} (hb : Reachable b) {pos : ℕ} {data : List UInt8}
      (h : b.memcpy pos data = some c) : Reachable c
  | setFlags {b : ByteBufferWritable} (hb : Reachable b) (flags : Flags) : Reachable { b with flags }
  /-- `TryRecycle` after the buffer was given to a `ByteBufferReadable` that has had `n` handles. -/
  | recycle {b b' c : ByteBufferWritable} {r r' : ByteBufferReadable} (hb : Reachable b)
      (hr : ByteBufferReadable.ofWritable b = some (r, b')) {n : ℕ} (hn : 0 < n ∧ n < 2 ^ 32)
      (h : (r.setRefCounter n).tryRecycle = some (r', c)) : Reachable c

/-- An operation that is known to succeed makes nothing else. -/
theorem of_some {α : Type} {o : Option α} {x : α} {P : α → Prop} (h : o = some x)
    (hspec : ∃ y, o = some y ∧ P y) : P x := by
  obtain ⟨y, hy, hP⟩ := hspec
  obtain rfl := Option.some.inj (h.symm.trans hy)
  exact hP

/-- A buffer that the capacity constructor makes is empty and has the capacity. -/
theorem ofCapacity_some {n : ℕ} (h : ofCapacity pool.toMemoryPool n = some c) :
    c.Good ∧ c.size = 0 ∧ n ≤ c.capacity ∧ n < 2 ^ 30 := by
  have hsized : c.Sized := Sized.of_ofCapacity h
  by_cases h0 : n = 0
  · rw [ofCapacity, if_pos h0] at h
    obtain rfl := Option.some.inj h
    exact ⟨good_empty, rfl, h0.le, by omega⟩
  · have hn : n < 2 ^ 30 := by
      rw [ofCapacity, if_neg h0, Option.bind_eq_bind, Option.bind_eq_some_iff] at h
      obtain ⟨r, hr, -⟩ := h
      exact lt_of_roundCapacityUp hr
    obtain ⟨hwf, -, hsize, hcap, -⟩ := of_some h (ofCapacity_spec pool.toMemoryPool h0 hn)
    exact ⟨⟨hwf, hsized⟩, hsize, hcap, hn⟩

/-- **Reserving**, up to the capacities whose size class is below the limit. -/
theorem Good.reserve_of_le_limit (hb : b.Good) (pool : MemoryPool32) {n : ℕ} (hn : n ≤ 2 ^ 30 - 32) :
    ∃ c, b.reserve pool.toMemoryPool n = some c ∧ c.Good ∧ c.data = b.data ∧ n ≤ c.capacity := by
  by_cases hcap : n ≤ b.capacity
  · exact ⟨b, reserve_of_le pool.toMemoryPool hb.wf hcap (by omega), hb, rfl, hcap⟩
  · obtain ⟨r, hr, hle, -⟩ := roundCapacityUp_spec (show n < 2 ^ 30 by omega)
    obtain ⟨c, hc, hwf, -, hdata, -, hcap', -⟩ := reserve_of_round pool.toMemoryPool hb.wf
      (Nat.not_le.1 hcap) hr hle ((lt_iff_of_roundCapacityUp hr).2 hn)
    exact ⟨c, hc, ⟨hwf, hb.sized.reserve hc⟩, hdata, hcap'⟩

/-- What is reserved is there already or has a size class below the limit. -/
theorem reserve_some {n : ℕ} (h : b.reserve pool.toMemoryPool n = some c) :
    n ≤ b.capacity ∧ n < 2 ^ 30 ∨ n ≤ 2 ^ 30 - 32 := by
  obtain ⟨hn, ⟨hcap, -⟩ | ⟨-, hc⟩⟩ := reserve_cases h
  · exact .inl ⟨hcap, hn⟩
  · obtain ⟨r, buf, hr, hbuf, -⟩ := reserveOrShrink_cases hc
    exact .inr ((lt_iff_of_roundCapacityUp hr).1 (ofCapacity_some hbuf).2.2.2)

namespace Good

theorem of_reserve {n : ℕ} (hb : b.Good) (h : b.reserve pool.toMemoryPool n = some c) :
    c.Good ∧ c.data = b.data ∧ n ≤ c.capacity := by
  rcases reserve_some h with ⟨hcap, hn⟩ | hn
  · obtain rfl := Option.some.inj ((reserve_of_le pool.toMemoryPool hb.wf hcap hn).symm.trans h)
    exact ⟨hb, rfl, hcap⟩
  · obtain ⟨hgood, hrest⟩ := of_some h (hb.reserve_of_le_limit pool hn)
    exact ⟨hgood, hrest⟩

theorem of_memcpy {pos : ℕ} (hb : b.Good) (h : b.memcpy pos src = some c) :
    c.Good ∧ pos + src.length ≤ b.capacity := by
  have hfit : pos + src.length ≤ b.capacity := by
    have hlen := hb.wf.length_mem
    unfold ByteBufferWritable.memcpy at h
    split_ifs at h
    omega
  exact ⟨⟨(of_some h (memcpy_spec hb.wf pos src hfit)).1, hb.sized.memcpy h⟩, hfit⟩

theorem of_appendReserved (hb : b.Good) (h : b.appendReserved src = some c) : c.Good := by
  have hfit : b.size + src.length ≤ b.capacity := by
    unfold ByteBufferWritable.appendReserved at h
    rw [Option.bind_eq_bind, Option.bind_eq_some_iff] at h
    obtain ⟨d, hd, -⟩ := h
    exact (hb.of_memcpy hd).2
  exact ⟨(of_some h (appendReserved_spec hb.wf hfit)).1, hb.sized.appendReserved h⟩

theorem of_append (hb : b.Good) (h : b.append pool.toMemoryPool src = some c) : c.Good := by
  unfold ByteBufferWritable.append at h
  rw [Option.bind_eq_bind, Option.bind_eq_some_iff] at h
  obtain ⟨d, hd, hc⟩ := h
  exact (hb.of_reserve hd).1.of_appendReserved hc

theorem of_resize {n : ℕ} (hb : b.Good) (h : b.resize pool.toMemoryPool n = some c) : c.Good := by
  unfold ByteBufferWritable.resize at h
  by_cases hn : b.capacity < n
  · rw [if_pos hn, Option.bind_eq_bind, Option.bind_eq_some_iff] at h
    obtain ⟨d, hd, hc⟩ := h
    obtain ⟨hgood, -, hcap⟩ := hb.of_reserve hd
    obtain rfl := Option.some.inj hc
    exact (hgood.setSize hcap).1
  · rw [if_neg hn] at h
    obtain rfl := Option.some.inj h
    exact (hb.setSize (Nat.not_lt.1 hn)).1

/-- Bytes from the headroom. -/
theorem shift {n : ℕ} (hb : b.Good) (hroom : sizeofStorageHeader + n ≤ b.offset) :
    Good { b with offset := b.offset - n, size := b.size + n, capacity := b.capacity + n } :=
  ⟨(hb.wf.shift hroom).2, hb.sized⟩

/-- The rest of `prepend` after its new buffer has got the new bytes. -/
theorem of_appendOld (hb : b.Good) {old : List UInt8} {size : ℕ}
    (h : (if size ≠ 0 then b.append pool.toMemoryPool old else pure b) = some c) : c.Good := by
  by_cases h0 : size = 0
  · rw [if_neg (by simpa using h0)] at h
    obtain rfl := Option.some.inj h
    exact hb
  · rw [if_pos h0] at h
    exact hb.of_append h

theorem of_prepend (hb : b.Good)
    (h : b.prepend pool.toMemoryPool (some src) src.length = some c) : c.Good := by
  simp only [ByteBufferWritable.prepend, guard_of hb.wf.null_or_capacity, Option.bind_eq_bind,
    Option.bind_some] at h
  by_cases hroom : b.offset < sizeofStorageHeader + src.length
  · simp only [if_pos hroom, Option.bind_eq_some_iff] at h
    obtain ⟨buf, hbuf, d, hd, hc⟩ := h
    exact ((ofCapacity_some hbuf).1.of_append hd).of_appendOld hc
  · rw [if_neg hroom, if_neg (hb.wf.shift (Nat.not_lt.1 hroom)).1] at h
    exact ((hb.shift (Nat.not_lt.1 hroom)).of_memcpy h).1

theorem of_prependNull {n : ℕ} (hb : b.Good) (hwrap : n + b.capacity < 2 ^ 32)
    (h : b.prepend pool.toMemoryPool none n = some c) : c.Good := by
  simp only [ByteBufferWritable.prepend, guard_of hb.wf.null_or_capacity, Option.bind_eq_bind,
    Option.bind_some, Option.pure_def] at h
  by_cases hroom : b.offset < sizeofStorageHeader + n
  · simp only [if_pos hroom, Option.bind_eq_some_iff, Nat.mod_eq_of_lt hwrap] at h
    obtain ⟨buf, hbuf, hc⟩ := h
    obtain ⟨hgood, hs0, hcap, -⟩ := ofCapacity_some hbuf
    exact (hgood.setSize (n := buf.size + n) (by omega)).1.of_appendOld hc
  · rw [if_neg hroom, if_neg (hb.wf.shift (Nat.not_lt.1 hroom)).1] at h
    obtain rfl := Option.some.inj h
    exact hb.shift (Nat.not_lt.1 hroom)

theorem of_copy (h : b.copy pool.toMemoryPool = some c) : c.Good := by
  unfold ByteBufferWritable.copy at h
  split_ifs at h with hmem
  · simp only [Option.bind_eq_bind, Option.bind_eq_some_iff] at h
    obtain ⟨d, hd, e, he, hc⟩ := h
    have hgood := (ofCapacity_some hd).1.of_append he
    obtain rfl := Option.some.inj hc
    exact ⟨⟨hgood.wf.size_le, hgood.wf.length_mem, hgood.wf.headroom⟩, hgood.sized⟩
  · obtain rfl := Option.some.inj h
    exact good_empty

theorem of_recycle {b' : ByteBufferWritable} {r r' : ByteBufferReadable} {n : ℕ} (hb : b.Good)
    (hr : ByteBufferReadable.ofWritable b = some (r, b')) (hn : 0 < n ∧ n < 2 ^ 32)
    (h : (r.setRefCounter n).tryRecycle = some (r', c)) : c.Good := by
  obtain ⟨r₁, b₁, hr₁, hintact, -⟩ := ByteBufferReadable.ofWritable_spec hb
  obtain ⟨rfl, rfl⟩ := Prod.mk.inj (Option.some.inj (hr.symm.trans hr₁))
  have hintact' : ∀ mem ∈ r.setRefCounter n, ∃ h, ByteBufferReadable.Intact mem h := by
    intro mem hmem
    cases r with
    | none => cases hmem
    | some old =>
      obtain ⟨header, hold⟩ := hintact old rfl
      obtain ⟨new, hnew, hnew', -⟩ := hold.setRefCounter hn
      rw [hnew] at hmem
      exact ⟨_, Option.some.inj hmem ▸ hnew'⟩
  obtain ⟨r₂, c₂, hr₂, hgood, -⟩ := ByteBufferReadable.tryRecycle_spec hintact'
  obtain ⟨-, rfl⟩ := Prod.mk.inj (Option.some.inj (h.symm.trans hr₂))
  exact hgood

end Good

/-- **Every buffer that can be made** has its bytes within its capacity and its capacity within its
allocation. -/
theorem Reachable.good (h : Reachable b) : b.Good := by
  induction h with
  | empty => exact good_empty
  | construct pool h => exact (ofCapacity_some h).1
  | append _ _ h hb => exact hb.of_append h
  | prepend _ _ h hb => exact hb.of_prepend h
  | prependNull _ _ hwrap h hb => exact hb.of_prependNull hwrap h
  | pushBack _ _ h hb => exact hb.of_append (pushBack_eq _ _ ▸ h)
  | write _ _ h hb => exact hb.of_append h
  | resize _ _ h hb => exact hb.of_resize h
  | reserve _ _ h hb => exact (hb.of_reserve h).1
  | clear _ h hb => exact (of_some h hb.clear).1
  | copy _ _ h => exact Good.of_copy h
  | overwrite _ h hb => exact (hb.of_memcpy h).1
  | setFlags _ _ hb => exact ⟨⟨hb.wf.size_le, hb.wf.length_mem, hb.wf.headroom⟩, hb.sized⟩
  | recycle _ hr hn h hb => exact hb.of_recycle hr hn h

/-- **What `reserve` accepts and what it provides.**  Of the capacities below `2 ^ 30`, `reserve`
provides those that the buffer has already and those that are at most `2 ^ 30 - 32`, and the bytes stay
the same.  For the others an assertion fails. -/
theorem reserve_iff {n : ℕ} (hb : Reachable b) (pool : MemoryPool32) (hn : n < 2 ^ 30) :
    (∃ c, b.reserve pool.toMemoryPool n = some c ∧ n ≤ c.capacity ∧ c.data = b.data) ↔
      n ≤ b.capacity ∨ n ≤ 2 ^ 30 - 32 := by
  constructor
  · rintro ⟨c, hc, -⟩
    exact (reserve_some hc).imp_left And.left
  · rintro (hcap | hlimit)
    · exact ⟨b, reserve_of_le pool.toMemoryPool hb.good.wf hcap hn, hcap, rfl⟩
    · obtain ⟨c, hc, -, hdata, hcap⟩ := hb.good.reserve_of_le_limit pool hlimit
      exact ⟨c, hc, hcap, hdata⟩

/-- The empty buffer can reserve 1000 bytes. -/
theorem reserve_iff_thousand :
    ∃ c, empty.reserve MemoryPool32.zeroed.toMemoryPool 1000 = some c ∧ 1000 ≤ c.capacity ∧
      c.data = empty.data :=
  (reserve_iff .empty MemoryPool32.zeroed (by norm_num)).2 (.inr (by norm_num))

/-- `reserve` accepts `2 ^ 30 - 1` and fails an assertion of `round_capacity_up` then, whatever the
allocator does. -/
theorem reserve_limit :
    Reachable empty ∧ ∀ pool : MemoryPool32, empty.reserve pool.toMemoryPool (2 ^ 30 - 1) = none := by
  refine ⟨.empty, fun pool => Option.eq_none_iff_forall_ne_some.2 fun c hc => ?_⟩
  rcases reserve_some hc with ⟨h, -⟩ | h
  · exact absurd h (by decide)
  · omega

end ByteBufferWritable
end Framing
end ICon7
