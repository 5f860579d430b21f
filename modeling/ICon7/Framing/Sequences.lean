/-
# Buffers are byte sequences

Any number of `ByteBufferWritable` and `ByteBufferReadable` objects, and any sequence of operations on
them.  A sequence of bytes stands for each object in the list model (`Sequences`), in which `append`
adds at the end, `prepend` at the front, and so on.  The code follows it, and every buffer keeps its
bytes behind the place of the storage header (`run_sequences`), as long as the capacities that are
asked for are below `2 ^ 29`.

Each operation has an allocator of its own: nothing is known of the allocations but that they are
large enough and that their length is a 32-bit number.  Without the latter `_capacity` is not
the rest of the allocation (`ofCapacity32_truncates`).
-/

import ICon7.Lib.Run
import ICon7.Framing.StorageBytes

namespace ICon7
namespace Framing

/-- An operation; `i` and `j` are writable buffers and `k` is a readable one.  Constructors replace the
object that was there, as the assignments do. -/
inductive BufferOp where
  | construct (i capacity : ℕ)
  | append (i : ℕ) (src : List UInt8)
  | prepend (i : ℕ) (src : List UInt8)
  | pushBack (i : ℕ) (byte : UInt8)
  | write (i : ℕ) (data : List UInt8)
  | resize (i newSize : ℕ)
  | reserve (i newCapacity : ℕ)
  | clear (i : ℕ)
  | copy (i j : ℕ)
  | move (i j : ℕ)
  /-- `ByteBufferReadable(std::move(i))`, assigned to `k`. -/
  | share (k i : ℕ)
  /-- Other handles come and go until the storage of `k` has `n` in all. -/
  | handles (k : ℕ) (n : { n : ℕ // 0 < n ∧ n < 2 ^ 32 })
  /-- `TryRecycle` of `k`, assigned to `i`. -/
  | tryRecycle (i k : ℕ)

/-- The objects, all of them null at first. -/
structure ByteBuffers where
  writable : ℕ → ByteBufferWritable := fun _ => .empty
  readable : ℕ → ByteBufferReadable := fun _ => none

namespace ByteBuffers

/-- Replace a writable buffer. -/
def setWritable (s : ByteBuffers) (i : ℕ) (b : ByteBufferWritable) : ByteBuffers :=
  { s with writable := Function.update s.writable i b }

/-- Replace a readable buffer. -/
def setReadable (s : ByteBuffers) (k : ℕ) (r : ByteBufferReadable) : ByteBuffers :=
  { s with readable := Function.update s.readable k r }

/-- One operation, with the allocator it calls.  Assigning an object to itself does nothing. -/
def step (s : ByteBuffers) : MemoryPool32 × BufferOp → Option ByteBuffers
  | (pool, .construct i capacity) => do
    return s.setWritable i (← ByteBufferWritable.ofCapacity pool.toMemoryPool capacity)
  | (pool, .append i src) => do return s.setWritable i (← (s.writable i).append pool.toMemoryPool src)
  | (pool, .prepend i src) => do
    return s.setWritable i (← (s.writable i).prepend pool.toMemoryPool (some src) src.length)
  | (pool, .pushBack i byte) => do
    return s.setWritable i (← (s.writable i).pushBack pool.toMemoryPool byte)
  | (pool, .write i data) => do return s.setWritable i (← (s.writable i).write pool.toMemoryPool data)
  | (pool, .resize i newSize) => do
    return s.setWritable i (← (s.writable i).resize pool.toMemoryPool newSize)
  | (pool, .reserve i newCapacity) => do
    return s.setWritable i (← (s.writable i).reserve pool.toMemoryPool newCapacity)
  | (_, .clear i) => do return s.setWritable i (← (s.writable i).clear)
  | (pool, .copy i j) =>
    if i = j then some s
    else do return s.setWritable i (← (s.writable j).copy pool.toMemoryPool)
  | (_, .move i j) =>
    if i = j then some s
    else
      let (new, old) := (s.writable j).moveConstruct
      some ((s.setWritable i new).setWritable j old)
  | (_, .share k i) => do
    let (r, b) ← ByteBufferReadable.ofWritable (s.writable i)
    return (s.setReadable k r).setWritable i b
  | (_, .handles k n) => some (s.setReadable k ((s.readable k).setRefCounter n))
  | (_, .tryRecycle i k) => do
    let (r, b) ← (s.readable k).tryRecycle
    return (s.setReadable k r).setWritable i b

/-- The capacities that an operation asks for: of `reserve`, of the capacity constructor and by the
reallocation in `prepend`. -/
def asked (s : ByteBuffers) : BufferOp → List ℕ
  | .construct _ capacity => [capacity]
  | .append i src | .write i src => [(s.writable i).size + src.length]
  | .prepend i src =>
    if (s.writable i).offset < sizeofStorageHeader + src.length then
      [src.length + (s.writable i).capacity]
    else []
  | .pushBack i _ => [(s.writable i).size + 1]
  | .resize i newSize => if (s.writable i).capacity < newSize then [newSize] else []
  | .reserve _ newCapacity => [newCapacity]
  | .copy i j => if i = j then [] else [(s.writable j).size]
  | .clear _ | .move _ _ | .share _ _ | .handles _ _ | .tryRecycle _ _ => []

/-- Every capacity that is asked for is below `2 ^ 29`. -/
def Asks (s : ByteBuffers) (a : MemoryPool32 × BufferOp) : Prop := ∀ c ∈ s.asked a.2, c < 2 ^ 29

instance (s : ByteBuffers) (a : MemoryPool32 × BufferOp) : Decidable (s.Asks a) :=
  inferInstanceAs (Decidable (∀ c ∈ s.asked a.2, c < 2 ^ 29))

/-- The layout of the buffers: `size()` is the number of bytes and within the capacity, the pointer is
null exactly if capacity and offset are zero, and otherwise they add up to the allocation and leave
room for the storage header.  A readable can be read, and its header is in front of its bytes. -/
structure Safe (s : ByteBuffers) : Prop where
  size_eq : ∀ i, (s.writable i).data.length = (s.writable i).size
  size_le : ∀ i, (s.writable i).size ≤ (s.writable i).capacity
  null_iff : ∀ i, (s.writable i).mem = [] ↔ (s.writable i).capacity = 0 ∧ (s.writable i).offset = 0
  allocated : ∀ i, (s.writable i).mem ≠ [] →
    (s.writable i).offset + (s.writable i).capacity = (s.writable i).mem.length ∧
      sizeofStorageHeader ≤ (s.writable i).offset
  readable : ∀ k, ∃ bytes, (s.readable k).data = some bytes ∧ (s.readable k).size = some bytes.length
  header : ∀ k mem, s.readable k = some mem → ∃ h, storageHeader mem = some h ∧
    sizeofStorageHeader ≤ h.offset ∧ h.offset + h.capacity = mem.length

end ByteBuffers

/-! ### The list model -/

/-- A sequence of bytes for each object. -/
structure Sequences where
  writable : ℕ → List UInt8
  readable : ℕ → List UInt8

namespace Sequences

def setWritable (t : Sequences) (i : ℕ) (l : List UInt8) : Sequences :=
  { t with writable := Function.update t.writable i l }

def setReadable (t : Sequences) (k : ℕ) (l : List UInt8) : Sequences :=
  { t with readable := Function.update t.readable k l }

/-- What an operation does to the sequences.  The bytes that `resize` adds are not determined, and
neither is whether `TryRecycle` finds other handles. -/
def Step (t : Sequences) : MemoryPool32 × BufferOp → Sequences → Prop
  | (_, .construct i _), t' => t' = t.setWritable i []
  | (_, .append i src), t' => t' = t.setWritable i (t.writable i ++ src)
  | (_, .prepend i src), t' => t' = t.setWritable i (src ++ t.writable i)
  | (_, .pushBack i byte), t' => t' = t.setWritable i (t.writable i ++ [byte])
  | (_, .write i data), t' => t' = t.setWritable i (t.writable i ++ data)
  | (_, .resize i n), t' => ∃ l, l.length = n ∧
      l.take (t.writable i).length = (t.writable i).take n ∧ t' = t.setWritable i l
  | (_, .reserve _ _), t' => t' = t
  | (_, .clear i), t' => t' = t.setWritable i []
  | (_, .copy i j), t' => t' = t.setWritable i (t.writable j)
  | (_, .move i j), t' =>
      if i = j then t' = t else t' = (t.setWritable i (t.writable j)).setWritable j []
  | (_, .share k i), t' => t' = (t.setReadable k (t.writable i)).setWritable i []
  | (_, .handles _ _), t' => t' = t
  | (_, .tryRecycle i k), t' =>
      t' = (t.setReadable k []).setWritable i [] ∨ t' = t.setWritable i []

end Sequences

/-- The bytes that the objects show. -/
def ByteBuffers.view (s : ByteBuffers) : Sequences where
  writable i := (s.writable i).data
  readable k := (s.readable k).data.getD []

namespace ByteBuffers

variable {s : ByteBuffers}

theorem view_setWritable (s : ByteBuffers) (i : ℕ) (b : ByteBufferWritable) :
    (s.setWritable i b).view = s.view.setWritable i b.data := by
  simp only [view, setWritable, Sequences.setWritable, Sequences.mk.injEq, and_true]
  exact Function.comp_update ByteBufferWritable.data s.writable i b

theorem view_setReadable (s : ByteBuffers) (k : ℕ) (r : ByteBufferReadable) :
    (s.setReadable k r).view = s.view.setReadable k (r.data.getD []) := by
  simp only [view, setReadable, Sequences.setReadable, Sequences.mk.injEq, true_and]
  exact Function.comp_update (fun r : ByteBufferReadable => r.data.getD []) s.readable k r

/-- What every operation keeps. -/
structure Inv (s : ByteBuffers) : Prop where
  writable : ∀ i, (s.writable i).Good
  readable : ∀ k, ∀ mem ∈ s.readable k, ∃ h, ByteBufferReadable.Intact mem h

theorem Inv.init : Inv {} := ⟨fun _ => ByteBufferWritable.good_empty, by simp⟩

theorem Inv.setWritable (h : s.Inv) (i : ℕ) {b : ByteBufferWritable} (hb : b.Good) :
    (s.setWritable i b).Inv := by
  refine ⟨fun j => ?_, h.readable⟩
  simp only [ByteBuffers.setWritable, Function.update_apply]
  split_ifs
  · exact hb
  · exact h.writable j

theorem Inv.setReadable (h : s.Inv) (k : ℕ) {r : ByteBufferReadable}
    (hr : ∀ mem ∈ r, ∃ h, ByteBufferReadable.Intact mem h) : (s.setReadable k r).Inv := by
  refine ⟨h.writable, fun j => ?_⟩
  simp only [ByteBuffers.setReadable, Function.update_apply]
  split_ifs
  · exact hr
  · exact h.readable j

/-- An operation on one writable buffer that does not fail. -/
theorem Inv.replace (h : s.Inv) (i : ℕ) {r : Option ByteBufferWritable} {l : List UInt8}
    (hr : ∃ c, r = some c ∧ c.Good ∧ c.data = l) :
    ∃ s', (r.bind fun c => some (s.setWritable i c)) = some s' ∧ s'.Inv ∧
      s'.view = s.view.setWritable i l := by
  obtain ⟨c, rfl, hgood, rfl⟩ := hr
  exact ⟨_, rfl, h.setWritable i hgood, view_setWritable s i c⟩

/-- Copying, of a buffer to itself too. -/
theorem Inv.copy (h : s.Inv) (pool : MemoryPool32) {i j : ℕ}
    (h29 : i ≠ j → (s.writable j).size < 2 ^ 29) :
    ∃ s', s.step (pool, .copy i j) = some s' ∧ s'.Inv ∧ s.view.Step (pool, .copy i j) s'.view := by
  by_cases hij : i = j
  · subst hij
    refine ⟨s, if_pos rfl, h, ?_⟩
    simp only [Sequences.Step, Sequences.setWritable, Function.update_eq_self]
  · obtain ⟨s', hs', hinv, hview⟩ := h.replace i ((h.writable j).copy pool (h29 hij))
    exact ⟨s', (if_neg hij).trans hs', hinv, hview⟩

/-- Moving leaves an empty buffer behind, unless it is from a buffer to itself. -/
theorem Inv.move (h : s.Inv) (pool : MemoryPool32) {i j : ℕ} :
    ∃ s', s.step (pool, .move i j) = some s' ∧ s'.Inv ∧ s.view.Step (pool, .move i j) s'.view := by
  by_cases hij : i = j
  · exact ⟨s, if_pos hij, h, by rw [Sequences.Step, if_pos hij]⟩
  · refine ⟨_, if_neg hij, (h.setWritable i (h.writable j)).setWritable j
      ByteBufferWritable.good_empty, ?_⟩
    rw [Sequences.Step, if_neg hij, view_setWritable, view_setWritable]
    rfl

/-- The readable shows the bytes of the buffer. -/
theorem Inv.share (h : s.Inv) (pool : MemoryPool32) {k i : ℕ} :
    ∃ s', s.step (pool, .share k i) = some s' ∧ s'.Inv ∧ s.view.Step (pool, .share k i) s'.view := by
  obtain ⟨r, b, hrb, hintact, hdata, hgood, hnil⟩ := ByteBufferReadable.ofWritable_spec (h.writable i)
  refine ⟨(s.setReadable k r).setWritable i b, ?_, (h.setReadable k hintact).setWritable i hgood, ?_⟩
  · simp only [ByteBuffers.step, hrb, Option.bind_eq_bind, Option.bind_some, Option.pure_def]
  · rw [Sequences.Step, view_setWritable, view_setReadable, hdata, hnil]
    rfl

/-- Other handles change nothing but the counter. -/
theorem Inv.handles (h : s.Inv) (pool : MemoryPool32) {k : ℕ} {n : { n : ℕ // 0 < n ∧ n < 2 ^ 32 }} :
    ∃ s', s.step (pool, .handles k n) = some s' ∧ s'.Inv ∧
      s.view.Step (pool, .handles k n) s'.view := by
  cases hk : s.readable k with
  | none =>
    refine ⟨s, ?_, h, rfl⟩
    simp only [ByteBuffers.step, hk, ByteBufferReadable.setRefCounter, ByteBuffers.setReadable]
    rw [← hk, Function.update_eq_self]
  | some mem =>
    obtain ⟨header, hm⟩ := h.readable k mem hk
    obtain ⟨mem', hmem', hm', hdrop⟩ := hm.setRefCounter n.2
    refine ⟨s.setReadable k (some mem'), by simp only [ByteBuffers.step, hk, hmem'],
      h.setReadable k fun _ hx => ⟨_, Option.some.inj hx ▸ hm'⟩, ?_⟩
    have hsame : ByteBufferReadable.data (some mem') = ByteBufferReadable.data (some mem) := by
      rw [hm'.data, hm.data, hdrop]
    rw [Sequences.Step, view_setReadable, hsame, ← hk]
    simp only [Sequences.setReadable, view, Function.update_eq_self]

/-- A buffer that was recycled is empty. -/
theorem Inv.tryRecycle (h : s.Inv) (pool : MemoryPool32) {i k : ℕ} :
    ∃ s', s.step (pool, .tryRecycle i k) = some s' ∧ s'.Inv ∧
      s.view.Step (pool, .tryRecycle i k) s'.view := by
  obtain ⟨r, b, hrb, hgood, hnil, hr⟩ := ByteBufferReadable.tryRecycle_spec (h.readable k)
  have hstep : s.step (pool, .tryRecycle i k) = some ((s.setReadable k r).setWritable i b) := by
    simp only [ByteBuffers.step, hrb, Option.bind_eq_bind, Option.bind_some, Option.pure_def]
  rcases hr with rfl | rfl
  · refine ⟨_, hstep, (h.setReadable k (by simp)).setWritable i hgood, .inl ?_⟩
    rw [view_setWritable, view_setReadable, hnil]
    rfl
  · refine ⟨_, hstep, (h.setReadable k (h.readable k)).setWritable i hgood, .inr ?_⟩
    rw [view_setWritable, view_setReadable, hnil]
    simp only [Sequences.setReadable, view, Function.update_eq_self]

/-- **One operation follows the list model.** -/
theorem Inv.step (h : s.Inv) (a : MemoryPool32 × BufferOp) (hasks : s.Asks a) :
    ∃ s', s.step a = some s' ∧ s'.Inv ∧ s.view.Step a s'.view := by
  obtain ⟨pool, op⟩ := a
  unfold Asks at hasks
  cases op with
  | construct i capacity =>
    obtain ⟨c, hc, hgood, hdata, -⟩ := ByteBufferWritable.ofCapacity_good pool (hasks capacity (by simp [asked]))
    exact h.replace i ⟨c, hc, hgood, hdata⟩
  | append i src =>
    obtain ⟨c, hc, hgood, hdata, -⟩ := (h.writable i).append pool src (hasks _ (by simp [asked]))
    exact h.replace i ⟨c, hc, hgood, hdata⟩
  | prepend i src =>
    exact h.replace i ((h.writable i).prepend pool src fun hroom => hasks _ (by simp [asked, hroom]))
  | pushBack i byte =>
    obtain ⟨c, hc, hgood, hdata, -⟩ := (h.writable i).append pool [byte] (hasks _ (by simp [asked]))
    rw [← ByteBufferWritable.pushBack_eq] at hc
    exact h.replace i ⟨c, hc, hgood, hdata⟩
  | write i data =>
    obtain ⟨c, hc, hgood, hdata, -⟩ := (h.writable i).append pool data (hasks _ (by simp [asked]))
    exact h.replace i ⟨c, hc, hgood, hdata⟩
  | resize i n =>
    obtain ⟨c, hc, hgood, hlen, hcommon⟩ :=
      (h.writable i).resize pool fun hlt => hasks n (by simp [asked, hlt])
    obtain ⟨s', hs', hinv, hview⟩ := h.replace i ⟨c, hc, hgood, rfl⟩
    exact ⟨s', hs', hinv, c.data, hlen, hcommon, hview⟩
  | reserve i n =>
    obtain ⟨s', hs', hinv, hview⟩ := h.replace i ((h.writable i).reserve pool (hasks n (by simp [asked])))
    refine ⟨s', hs', hinv, ?_⟩
    rw [hview]
    simp only [Sequences.Step, Sequences.setWritable, view, Function.update_eq_self]
  | clear i => exact h.replace i (h.writable i).clear
  | copy i j => exact h.copy pool fun hij => hasks _ (by simp [asked, hij])
  | move i j => exact h.move pool
  | share k i => exact h.share pool
  | handles k n => exact h.handles pool
  | tryRecycle i k => exact h.tryRecycle pool

/-- The layout of the buffers is safe. -/
theorem Inv.safe (h : s.Inv) : s.Safe := by
  constructor
  case size_eq => exact fun i => (h.writable i).wf.length_data
  case size_le => exact fun i => (h.writable i).wf.size_le
  case null_iff => exact fun i => (h.writable i).mem_eq_nil_iff
  case allocated =>
    intro i hmem
    exact ⟨(h.writable i).wf.length_mem.symm, ((h.writable i).wf.headroom hmem).1⟩
  case readable =>
    intro k
    cases hk : s.readable k with
    | none => exact ⟨[], rfl, rfl⟩
    | some mem =>
      obtain ⟨header, hm⟩ := h.readable k mem hk
      refine ⟨_, hm.data, ?_⟩
      have hlen := hm.length_eq
      have hsize := hm.size_le
      rw [hm.size, List.length_take, List.length_drop, Nat.min_eq_left (by omega)]
  case header =>
    intro k mem hk
    obtain ⟨header, hm⟩ := h.readable k mem hk
    exact ⟨header, hm.storageHeader, hm.headroom, hm.length_eq.symm⟩

/-- **Buffers are byte sequences with safe headroom.**  No operation fails or writes past an
allocation, the bytes follow the list model, and the layout stays safe, in every sequence of
operations that ask for capacities below `2 ^ 29`. -/
theorem run_sequences (actions : List (MemoryPool32 × BufferOp))
    (hasks : Lib.Along ByteBuffers.step Asks {} actions) :
    ∃ s, actions.foldlM ByteBuffers.step {} = some s ∧ s.Safe ∧
      Lib.Runs Sequences.Step (view {}) actions s.view := by
  obtain ⟨s, hrun, hinv, hruns⟩ := Lib.run_simulates
    (fun _ a h hasks => Inv.step h a hasks) actions Inv.init hasks
  exact ⟨s, hrun, hinv.safe, hruns⟩

/-- A buffer that is written at both ends, shared, recycled and copied. -/
theorem run_sequences_roundTrip :
    ∃ s, [(MemoryPool32.zeroed, BufferOp.construct 0 4), (.zeroed, .append 0 [1, 2]),
        (.zeroed, .prepend 0 [0]), (.zeroed, .pushBack 0 3), (.zeroed, .copy 1 0), (.zeroed, .share 0 0),
        (.zeroed, .tryRecycle 0 0), (.zeroed, .resize 1 2)].foldlM ByteBuffers.step {} = some s ∧ s.Safe ∧
      Lib.Runs Sequences.Step (view {}) [(MemoryPool32.zeroed, BufferOp.construct 0 4),
        (.zeroed, .append 0 [1, 2]), (.zeroed, .prepend 0 [0]), (.zeroed, .pushBack 0 3),
        (.zeroed, .copy 1 0), (.zeroed, .share 0 0), (.zeroed, .tryRecycle 0 0), (.zeroed, .resize 1 2)]
        s.view :=
  run_sequences _ (by decide +kernel)

end ByteBuffers

/-! ### Allocations of four gigabytes -/

namespace ByteBufferWritable

/-- `ByteBufferWritable(uint32_t capacity)` for any allocator: `_capacity` has 32 bits. -/
def ofCapacity32 (pool : MemoryPool) (capacity : ℕ) : Option ByteBufferWritable :=
  if capacity = 0 then some empty
  else do
    let capacity ← roundCapacityUp capacity
    let mem := pool.allocate (capacity + INITIAL_DATA_OFFSET)
    return ⟨mem, 0, (mem.length - INITIAL_DATA_OFFSET) % 2 ^ 32, INITIAL_DATA_OFFSET, 0⟩

/-- Nothing is lost if the allocations have 32-bit lengths. -/
theorem ofCapacity32_eq (pool : MemoryPool32) (capacity : ℕ) :
    ofCapacity32 pool.toMemoryPool capacity = ofCapacity pool.toMemoryPool capacity := by
  unfold ofCapacity32 ofCapacity
  by_cases h0 : capacity = 0
  · rw [if_pos h0, if_pos h0]
  · rw [if_neg h0, if_neg h0]
    cases hr : roundCapacityUp capacity with
    | none => rfl
    | some r =>
      have hlt := lt_of_roundCapacityUp hr
      obtain ⟨r', hr', -, hhalf⟩ := roundCapacityUp_spec hlt
      obtain rfl := Option.some.inj (hr.symm.trans hr')
      have hlen := pool.length_lt (r + INITIAL_DATA_OFFSET) (by unfold INITIAL_DATA_OFFSET; omega)
      simp only [Option.bind_eq_bind, Option.bind_some, Option.pure_def,
        Nat.mod_eq_of_lt ((Nat.sub_le _ INITIAL_DATA_OFFSET).trans_lt hlen)]

/-- What the constructor makes of an allocation that is too long. -/
theorem ofCapacity32_one (pool : MemoryPool) (h : 2 ^ 32 + 32 ≤ (pool.allocate 64).length) :
    ∃ b, ofCapacity32 pool 1 = some b ∧ b.mem ≠ [] ∧ b.offset + b.capacity ≠ b.mem.length := by
  have hround : roundCapacityUp 1 = some 32 := by decide
  have hmk : ofCapacity32 pool 1 =
      some ⟨pool.allocate 64, 0, ((pool.allocate 64).length - 32) % 2 ^ 32, 32, 0⟩ := by
    rw [ofCapacity32, if_neg (by norm_num), hround]
    rfl
  generalize pool.allocate 64 = mem at h hmk
  refine ⟨_, hmk, ?_, ?_⟩
  · rintro rfl
    rw [List.length_nil] at h
    omega
  · simp only
    omega

/-- An allocator that adds four gigabytes to every request. -/
def generous : MemoryPool where
  allocate n := List.replicate (2 ^ 32 + n) 0
  le_length n := (Nat.le_add_left n _).trans_eq List.length_replicate.symm

/-- **A longer allocation is not described by the buffer.**  The allocator returns more than was asked
for, and capacity and offset do not add up to the allocation. -/
theorem ofCapacity32_truncates :
    ∃ b, ofCapacity32 generous 1 = some b ∧ b.mem ≠ [] ∧ b.offset + b.capacity ≠ b.mem.length := by
  have hlen (n : ℕ) : (generous.allocate n).length = 2 ^ 32 + n := List.length_replicate
  exact ofCapacity32_one generous (by rw [hlen]; norm_num)

end ByteBufferWritable

end Framing
end ICon7
