/-
# Storages of frames

`ByteBufferStorageHeader`, `ByteBufferReadable` and the ownership of allocations in
`include/icon7/ByteBuffer.hpp`.  An allocation belongs to one `ByteBufferWritable`, which writes to
it, or it is shared by `ByteBufferReadable` handles, which count themselves in its header; a handle
that is the last one frees it or turns it back into a writable buffer.

A heap is the list of allocations, and the objects that point into it are two multisets: what the
handles hold and what the writable buffers hold.  `Sound` says of each address who may point to it.
Each operation is a lemma that takes the objects it consumes out of the multisets and puts those it
makes into them.

The heap also keeps the bytes of every frame at the time it came to be shared, and the frames that
have ended.  The code has neither.
-/

import ICon7.Framing.ByteBuffer

namespace ICon7
namespace Framing

/-- An allocation: its bytes, and the fields of the `ByteBufferStorageHeader` at its start, which
mean something as long as it is shared. -/
structure Allocation where
  mem : List UInt8
  refCounter : ℕ := 0
  size : ℕ := 0
  offset : ℕ := 0
  capacity : ℕ := 0
  flags : Flags := 0
  deriving DecidableEq

/-- The bytes `data()[0 .. size)` of a storage. -/
def Allocation.data (x : Allocation) : List UInt8 := (x.mem.drop x.offset).take x.size

/-- A `ByteBufferReadable` that is not null, with the number of its frame. -/
structure Handle where
  storage : ℕ
  frame : ℕ
  deriving DecidableEq

/-- A `ByteBufferWritable` that is not null, with the address of its allocation. -/
structure Owner where
  buffer : ℕ
  size : ℕ
  capacity : ℕ
  offset : ℕ
  flags : Flags
  deriving DecidableEq

/-- The allocations, `none` for one that was freed, the bytes of the frames and the frames that have
ended. -/
structure Heap where
  cells : List (Option Allocation) := []
  frames : List (List UInt8) := []
  ended : List ℕ := []
  deriving DecidableEq

/-- `++refCounter`. -/
def increment (n : ℕ) : ℕ := (n + 1) % 2 ^ 32

/-- `--refCounter`. -/
def decrement (n : ℕ) : ℕ := (2 ^ 32 - 1 + n) % 2 ^ 32

theorem increment_of_lt {n : ℕ} (h : n + 1 < 2 ^ 32) : increment n = n + 1 := by
  unfold increment
  exact Nat.mod_eq_of_lt h

theorem decrement_succ {n : ℕ} (h : n < 2 ^ 32) : decrement (n + 1) = n := by
  unfold decrement
  omega

namespace Heap

/-- The allocation at an address. -/
def get (m : Heap) (a : ℕ) : Option Allocation := m.cells[a]?.join

/-- Replace the allocation at an address, or free it. -/
def put (m : Heap) (a : ℕ) (x : Option Allocation) : Heap := { m with cells := m.cells.set a x }

/-- `MemoryPool::Allocate`. -/
def allocate (m : Heap) (mem : List UInt8) : Heap × ℕ :=
  ({ m with cells := m.cells ++ [some { mem := mem }] }, m.cells.length)

/-- `ref`. -/
def ref (m : Heap) (h : Handle) : Option Heap := do
  let x ← m.get h.storage
  return m.put h.storage (some { x with refCounter := increment x.refCounter })

/-- `unref`. -/
def unref (m : Heap) (h : Handle) : Option Heap := do
  let x ← m.get h.storage
  let n := decrement x.refCounter
  if n = 0 then return { m.put h.storage none with ended := m.ended ++ [h.frame] }
  else return m.put h.storage (some { x with refCounter := n })

/-- `ByteBufferReadable(ByteBufferWritable &&)`. -/
def share (m : Heap) : Option Owner → Option (Heap × Option Handle)
  | none => some (m, none)
  | some o => do
    let x ← m.get o.buffer
    let x : Allocation := ⟨x.mem, 1, o.size, o.offset, o.capacity, o.flags⟩
    return ({ m.put o.buffer (some x) with frames := m.frames ++ [x.data] }, some ⟨o.buffer, m.frames.length⟩)

/-- `TryRecycle`: what is left of the handle, and the writable buffer that is returned. -/
def tryRecycle (m : Heap) : Option Handle → Option (Heap × Option Handle × Option Owner)
  | none => some (m, none, none)
  | some h => do
    let x ← m.get h.storage
    if x.refCounter = 1 then
      return ({ m.put h.storage (some { x with refCounter := 0 }) with ended := m.ended ++ [h.frame] }, none,
        some ⟨h.storage, 0, x.offset + x.capacity - INITIAL_DATA_OFFSET, INITIAL_DATA_OFFSET, 0⟩)
    else
      guard (1 ≤ x.refCounter)
      return (m, some h, none)

/-- `~ByteBufferWritable`. -/
def release (m : Heap) : Option Owner → Option Heap
  | none => some m
  | some o => do
    let _ ← m.get o.buffer
    guard (o.capacity ≠ 0 ∧ o.offset ≠ 0)
    return m.put o.buffer none

/-- A writable buffer with its bytes. -/
def view (m : Heap) : Option Owner → Option ByteBufferWritable
  | none => some .empty
  | some o => do
    let x ← m.get o.buffer
    return ⟨x.mem, o.size, o.capacity, o.offset, o.flags⟩

/-- What an operation on a writable buffer leaves: the same allocation, or a new one and the old one
freed. -/
def place (m : Heap) (w : Option Owner) (moved : Bool) (b : ByteBufferWritable) :
    Option (Heap × Option Owner) :=
  if moved then do
    let m ← m.release w
    let (m, a) := m.allocate b.mem
    return (m, some ⟨a, b.size, b.capacity, b.offset, b.flags⟩)
  else
    match w with
    | none => some (m, none)
    | some o => do
      let x ← m.get o.buffer
      return (m.put o.buffer (some { x with mem := b.mem }),
        some ⟨o.buffer, b.size, b.capacity, b.offset, b.flags⟩)

/-- `append`. -/
def append (pool : MemoryPool) (m : Heap) (w : Option Owner) (src : List UInt8) :
    Option (Heap × Option Owner) := do
  let b ← m.view w
  m.place w (b.capacity < (b.size + src.length) % 2 ^ 32) (← b.append pool src)

/-- `reserve`. -/
def reserve (pool : MemoryPool) (m : Heap) (w : Option Owner) (n : ℕ) : Option (Heap × Option Owner) := do
  let b ← m.view w
  m.place w (b.capacity < n) (← b.reserve pool n)

/-! ### Who points to an address -/

/-- A storage with its count and the bytes of its frame. -/
structure Shares (x : Allocation) (n : ℕ) (frame : Option (List UInt8)) : Prop where
  refCounter : x.refCounter = n
  frame : frame = some x.data
  size_le : x.size ≤ x.capacity
  length_mem : x.mem.length = x.offset + x.capacity
  header : sizeofStorageHeader ≤ x.offset
  large : INITIAL_DATA_OFFSET < x.mem.length

/-- An allocation with the buffer that owns it. -/
structure Owns (x : Allocation) (o : Owner) : Prop where
  wf : ByteBufferWritable.WF ⟨x.mem, o.size, o.capacity, o.offset, o.flags⟩
  large : INITIAL_DATA_OFFSET < x.mem.length

/-- What there may be at an address, with the handles and the buffers that point to it. -/
inductive Cell (frames : List (List UInt8)) (a : ℕ) : Option Allocation → Multiset Handle → Multiset Owner → Prop
  | free : Cell frames a none 0 0
  | owned {x : Allocation} {o : Owner} (h : Owns x o) : Cell frames a (some x) 0 {o}
  | shared {x : Allocation} {n f : ℕ} (hn : 0 < n) (h32 : n < 2 ^ 32) (h : Shares x n frames[f]?) :
      Cell frames a (some x) (Multiset.replicate n ⟨a, f⟩) 0

/-- **The handles and the writable buffers agree with the heap.** -/
structure Sound (m : Heap) (H : Multiset Handle) (W : Multiset Owner) : Prop where
  cell : ∀ a, Cell m.frames a (m.get a) (H.filter (·.storage = a)) (W.filter (·.buffer = a))
  frame_inj : ∀ h ∈ H, ∀ h' ∈ H, h.frame = h'.frame → h.storage = h'.storage
  frame_lt : ∀ h ∈ H, h.frame < m.frames.length
  ended : ∀ f, m.ended.count f = if f < m.frames.length ∧ ∀ h ∈ H, h.frame ≠ f then 1 else 0

variable {m : Heap} {H : Multiset Handle} {W : Multiset Owner} {a : ℕ} {x : Option Allocation}

theorem get_put_self (h : a < m.cells.length) : (m.put a x).get a = x := by
  simp [get, put, h]

theorem get_put_of_ne {a' : ℕ} (h : a' ≠ a) : (m.put a x).get a' = m.get a' := by
  simp [get, put, List.getElem?_set_ne h.symm]

/-- Putting back what is there changes nothing. -/
theorem put_get {x : Allocation} (h : m.get a = some x) : m.put a (some x) = m := by
  obtain ⟨cells, frames, ended⟩ := m
  have hcell : cells[a]? = some (some x) := Option.join_eq_some_iff.1 h
  simp only [put, Heap.mk.injEq, and_true]
  obtain ⟨hlt, hcell⟩ := List.getElem?_eq_some_iff.1 hcell
  rw [← hcell, List.set_getElem_self]

theorem lt_of_get {x : Allocation} (h : m.get a = some x) : a < m.cells.length := by
  by_contra hle
  simp [get, List.getElem?_eq_none (Nat.not_lt.1 hle)] at h

theorem filter_cons_self {α : Type} (f : α → ℕ) (x : α) (s : Multiset α) :
    (x ::ₘ s).filter (f · = f x) = x ::ₘ s.filter (f · = f x) :=
  Multiset.filter_cons_of_pos s rfl

theorem filter_cons_of_ne {α : Type} (f : α → ℕ) {x : α} {b : ℕ} (s : Multiset α) (h : b ≠ f x) :
    (x ::ₘ s).filter (f · = b) = s.filter (f · = b) :=
  Multiset.filter_cons_of_neg s h.symm

/-- What is at an address does not depend on frames that come later. -/
theorem Cell.mono {frames frames' : List (List UInt8)} {P : Multiset Handle} {Q : Multiset Owner}
    (hmono : ∀ (f : ℕ) (d : List UInt8), frames[f]? = some d → frames'[f]? = some d) (h : Cell frames a x P Q) :
    Cell frames' a x P Q := by
  cases h with
  | free => exact .free
  | owned h => exact .owned h
  | shared hn h32 h => exact .shared hn h32 { h with frame := hmono _ _ h.frame }

/-- The handles of a storage are copies of one, and its count is how many there are. -/
theorem Sound.of_handle (hS : m.Sound H W) {h : Handle} (hh : h ∈ H) :
    ∃ x n, m.get h.storage = some x ∧ Shares x n m.frames[h.frame]? ∧ 0 < n ∧ n < 2 ^ 32 ∧
      H.filter (·.storage = h.storage) = Multiset.replicate n h ∧ W.filter (·.buffer = h.storage) = 0 := by
  have hmem : h ∈ H.filter (·.storage = h.storage) := Multiset.mem_filter.2 ⟨hh, rfl⟩
  have hcell := hS.cell h.storage
  generalize m.get h.storage = y at hcell
  generalize H.filter (·.storage = h.storage) = P at hcell hmem
  generalize W.filter (·.buffer = h.storage) = Q at hcell
  cases hcell with
  | free => simp at hmem
  | owned => simp at hmem
  | @shared x n f hn h32 hx =>
    obtain rfl : h.frame = f := by rw [Multiset.eq_of_mem_replicate hmem]
    exact ⟨x, n, rfl, hx, hn, h32, rfl, rfl⟩

/-- A writable buffer is the only object that points to its allocation. -/
theorem Sound.of_owner (hS : m.Sound H W) {o : Owner} (ho : o ∈ W) :
    ∃ x, m.get o.buffer = some x ∧ Owns x o ∧ H.filter (·.storage = o.buffer) = 0 ∧
      W.filter (·.buffer = o.buffer) = {o} := by
  have hmem : o ∈ W.filter (·.buffer = o.buffer) := Multiset.mem_filter.2 ⟨ho, rfl⟩
  have hcell := hS.cell o.buffer
  generalize m.get o.buffer = y at hcell
  generalize H.filter (·.storage = o.buffer) = P at hcell
  generalize W.filter (·.buffer = o.buffer) = Q at hcell hmem
  cases hcell with
  | free => simp at hmem
  | owned hx =>
    obtain rfl := Multiset.mem_singleton.1 hmem
    exact ⟨_, rfl, hx, rfl, rfl⟩
  | shared => simp at hmem

/-- No writable buffer points to an allocation that is shared. -/
theorem Sound.storage_ne_buffer (hS : m.Sound H W) {h : Handle} (hh : h ∈ H) {o : Owner} (ho : o ∈ W) :
    o.buffer ≠ h.storage := by
  intro heq
  obtain ⟨-, -, -, -, -, -, -, hnone⟩ := hS.of_handle hh
  exact Multiset.notMem_zero o (hnone ▸ Multiset.mem_filter.2 ⟨ho, heq⟩)

/-- A handle and the others of its storage. -/
theorem Sound.of_cons_handle {h : Handle} (hS : m.Sound (h ::ₘ H) W) :
    ∃ x k, m.get h.storage = some x ∧ Shares x (k + 1) m.frames[h.frame]? ∧ k + 1 < 2 ^ 32 ∧
      H.filter (·.storage = h.storage) = Multiset.replicate k h ∧ W.filter (·.buffer = h.storage) = 0 := by
  obtain ⟨x, n, hget, hx, hn, h32, hcopies, hnone⟩ := hS.of_handle (Multiset.mem_cons_self h H)
  obtain ⟨k, rfl⟩ : ∃ k, n = k + 1 := ⟨n - 1, by omega⟩
  rw [filter_cons_self Handle.storage, Multiset.replicate_succ, Multiset.cons_inj_right] at hcopies
  exact ⟨x, k, hget, hx, h32, hcopies, hnone⟩

/-- Without the last handle of a storage there is none of its frame. -/
theorem Sound.frame_ne_of_last {h : Handle} (hS : m.Sound (h ::ₘ H) W)
    (hlast : H.filter (·.storage = h.storage) = 0) : ∀ g ∈ H, g.frame ≠ h.frame := by
  intro g hg hgf
  have hstorage := hS.frame_inj g (Multiset.mem_cons_of_mem hg) h (Multiset.mem_cons_self h H) hgf
  exact Multiset.notMem_zero g (hlast ▸ Multiset.mem_filter.2 ⟨hg, hstorage⟩)

/-- A frame whose last handle goes away has ended. -/
theorem ended_of_last {n : ℕ} {ended : List ℕ} {h : Handle} (hlt : h.frame < n)
    (hlast : ∀ g ∈ H, g.frame ≠ h.frame)
    (hended : ∀ f, ended.count f = if f < n ∧ ∀ g ∈ h ::ₘ H, g.frame ≠ f then 1 else 0) (f : ℕ) :
    (ended ++ [h.frame]).count f = if f < n ∧ ∀ g ∈ H, g.frame ≠ f then 1 else 0 := by
  rw [List.count_append, hended, List.count_singleton]
  by_cases hf : h.frame = f
  · subst hf
    rw [if_neg (fun hall => hall.2 h (Multiset.mem_cons_self h H) rfl), if_pos (by simp), if_pos ⟨hlt, hlast⟩]
  · simp [hf, Multiset.mem_cons]

/-- A frame that keeps a handle has not ended, with or without another one. -/
theorem ended_of_mem {n : ℕ} {ended : List ℕ} {h : Handle} (hmem : h ∈ H) :
    (∀ f, ended.count f = if f < n ∧ ∀ g ∈ h ::ₘ H, g.frame ≠ f then 1 else 0) ↔
      ∀ f, ended.count f = if f < n ∧ ∀ g ∈ H, g.frame ≠ f then 1 else 0 := by
  have hiff : ∀ f, (∀ g ∈ h ::ₘ H, g.frame ≠ f) ↔ ∀ g ∈ H, g.frame ≠ f := by
    intro f
    constructor
    · exact fun hall g hg => hall g (Multiset.mem_cons_of_mem hg)
    · intro hall g hg
      rcases Multiset.mem_cons.1 hg with rfl | hg
      · exact hall g hmem
      · exact hall g hg
  simp only [hiff]

/-- The cells after the one at an address has been replaced. -/
theorem Sound.cell_put (hS : m.Sound H W) (ha : a < m.cells.length) {H' : Multiset Handle} {W' : Multiset Owner}
    {y : Option Allocation} {frames : List (List UInt8)}
    (hmono : ∀ (f : ℕ) (d : List UInt8), m.frames[f]? = some d → frames[f]? = some d)
    (hH : ∀ b ≠ a, H'.filter (·.storage = b) = H.filter (·.storage = b))
    (hW : ∀ b ≠ a, W'.filter (·.buffer = b) = W.filter (·.buffer = b))
    (hy : Cell frames a y (H'.filter (·.storage = a)) (W'.filter (·.buffer = a))) (b : ℕ) :
    Cell frames b ((m.put a y).get b) (H'.filter (·.storage = b)) (W'.filter (·.buffer = b)) := by
  by_cases hb : b = a
  · subst hb
    rwa [get_put_self ha]
  · rw [get_put_of_ne hb, hH b hb, hW b hb]
    exact (hS.cell b).mono hmono

theorem unref_eq {h : Handle} {x : Allocation} (hget : m.get h.storage = some x) :
    m.unref h = if decrement x.refCounter = 0 then
        some { m.put h.storage none with ended := m.ended ++ [h.frame] }
      else some (m.put h.storage (some { x with refCounter := decrement x.refCounter })) := by
  unfold Heap.unref
  rw [hget]
  rfl

theorem ref_eq {h : Handle} {x : Allocation} (hget : m.get h.storage = some x) :
    m.ref h = some (m.put h.storage (some { x with refCounter := increment x.refCounter })) := by
  unfold Heap.ref
  rw [hget]
  rfl

theorem share_eq {o : Owner} {x : Allocation} (hget : m.get o.buffer = some x) :
    m.share (some o) = some ({ m.put o.buffer (some ⟨x.mem, 1, o.size, o.offset, o.capacity, o.flags⟩) with
      frames := m.frames ++ [(x.mem.drop o.offset).take o.size] }, some ⟨o.buffer, m.frames.length⟩) := by
  simp only [Heap.share, hget, Option.bind_eq_bind, Option.bind_some, Option.pure_def, Allocation.data]

/-- **A handle that goes away** is uncounted, and its storage freed if it was the last one. -/
theorem Sound.unref {h : Handle} (hS : m.Sound (h ::ₘ H) W) :
    ∃ m', m.unref h = some m' ∧ m'.Sound H W ∧ m'.frames = m.frames ∧
      ∀ o ∈ W, m'.get o.buffer = m.get o.buffer := by
  have hself := Multiset.mem_cons_self h H
  obtain ⟨x, k, hget, hx, h32, hcopies, hnone⟩ := hS.of_cons_handle
  have hother : ∀ {y : Option Allocation}, ∀ o ∈ W, (m.put h.storage y).get o.buffer = m.get o.buffer :=
    fun o ho => get_put_of_ne (hS.storage_ne_buffer hself ho)
  have hcount : decrement x.refCounter = k := by
    rw [hx.refCounter]
    exact decrement_succ (by omega)
  have hcell : ∀ {y}, Cell m.frames h.storage y (Multiset.replicate k h) 0 →
      ∀ a, Cell m.frames a ((m.put h.storage y).get a) (H.filter (·.storage = a)) (W.filter (·.buffer = a)) := by
    intro y hy
    refine hS.cell_put (lt_of_get hget) (fun _ _ h => h) (fun b hb => ?_) (fun _ _ => rfl) (hcopies ▸ hnone ▸ hy)
    exact (filter_cons_of_ne Handle.storage H hb).symm
  have hinj : ∀ g ∈ H, ∀ g' ∈ H, g.frame = g'.frame → g.storage = g'.storage := fun g hg g' hg' =>
    hS.frame_inj g (Multiset.mem_cons_of_mem hg) g' (Multiset.mem_cons_of_mem hg')
  have hframe : ∀ g ∈ H, g.frame < m.frames.length := fun g hg => hS.frame_lt g (Multiset.mem_cons_of_mem hg)
  rw [unref_eq hget, hcount]
  by_cases hk : k = 0
  · subst hk
    rw [if_pos rfl]
    refine ⟨_, rfl, ⟨hcell .free, hinj, hframe, ?_⟩, rfl, hother⟩
    exact ended_of_last (hS.frame_lt h hself) (hS.frame_ne_of_last hcopies) hS.ended
  · have hmem : h ∈ H := by
      have hmem : h ∈ Multiset.replicate k h := Multiset.mem_replicate.2 ⟨hk, rfl⟩
      rw [← hcopies] at hmem
      exact (Multiset.mem_filter.1 hmem).1
    rw [if_neg hk]
    refine ⟨_, rfl, ⟨hcell (.shared (Nat.pos_of_ne_zero hk) (by omega) ?_), hinj, hframe, ?_⟩, rfl, hother⟩
    · exact { hx with refCounter := rfl }
    · exact (ended_of_mem hmem).1 hS.ended

/-- **A handle that is copied** is counted, as long as the count does not overflow. -/
theorem Sound.ref (hS : m.Sound H W) {h : Handle} (hh : h ∈ H)
    (h32 : (H.filter (·.storage = h.storage)).card + 1 < 2 ^ 32) :
    ∃ m', m.ref h = some m' ∧ m'.Sound (h ::ₘ H) W ∧ m'.frames = m.frames ∧
      ∀ o ∈ W, m'.get o.buffer = m.get o.buffer := by
  obtain ⟨x, n, hget, hx, hn, -, hcopies, hnone⟩ := hS.of_handle hh
  rw [hcopies, Multiset.card_replicate] at h32
  have hcount : increment x.refCounter = n + 1 := by
    rw [hx.refCounter]
    exact increment_of_lt h32
  rw [ref_eq hget, hcount]
  refine ⟨_, rfl, ⟨?_, ?_, ?_, (ended_of_mem hh).2 hS.ended⟩, rfl,
    fun o ho => get_put_of_ne (hS.storage_ne_buffer hh ho)⟩
  · refine hS.cell_put (lt_of_get hget) (fun _ _ h => h) (fun b hb => filter_cons_of_ne Handle.storage H hb)
      (fun _ _ => rfl) ?_
    rw [filter_cons_self Handle.storage, hcopies, hnone, ← Multiset.replicate_succ]
    exact .shared (Nat.succ_pos n) h32 { hx with refCounter := rfl }
  · intro g hg g' hg'
    have hsub : ∀ g ∈ h ::ₘ H, g ∈ H := by
      intro g hg
      rcases Multiset.mem_cons.1 hg with rfl | hg
      · exact hh
      · exact hg
    exact hS.frame_inj g (hsub g hg) g' (hsub g' hg')
  · intro g hg
    rcases Multiset.mem_cons.1 hg with rfl | hg
    · exact hS.frame_lt _ hh
    · exact hS.frame_lt g hg

/-- Flags are not part of a frame. -/
theorem Sound.setFlags (hS : m.Sound H W) {h : Handle} (hh : h ∈ H) (flags : Flags) :
    ∃ x, m.get h.storage = some x ∧ (m.put h.storage (some { x with flags := flags })).Sound H W ∧
      ∀ o ∈ W, (m.put h.storage (some { x with flags := flags })).get o.buffer = m.get o.buffer := by
  obtain ⟨x, n, hget, hx, hn, h32, hcopies, hnone⟩ := hS.of_handle hh
  refine ⟨x, hget, ⟨?_, hS.frame_inj, hS.frame_lt, hS.ended⟩,
    fun o ho => get_put_of_ne (hS.storage_ne_buffer hh ho)⟩
  refine hS.cell_put (lt_of_get hget) (fun _ _ h => h) (fun _ _ => rfl) (fun _ _ => rfl) ?_
  rw [hcopies, hnone]
  exact .shared hn h32 ⟨hx.refCounter, hx.frame, hx.size_le, hx.length_mem, hx.header, hx.large⟩

/-- Buffers with different allocations are different. -/
theorem Sound.buffer_ne {o : Owner} (hS : m.Sound H (o ::ₘ W)) : ∀ o' ∈ W, o'.buffer ≠ o.buffer := by
  intro o' ho' heq
  obtain ⟨-, -, -, -, hone⟩ := hS.of_owner (Multiset.mem_cons_self o W)
  rw [filter_cons_self Owner.buffer, ← Multiset.cons_zero, Multiset.cons_inj_right] at hone
  exact Multiset.notMem_zero o' (hone ▸ Multiset.mem_filter.2 ⟨ho', heq⟩)

/-- A buffer with its allocation, and without it. -/
theorem Sound.of_cons {o : Owner} (hS : m.Sound H (o ::ₘ W)) :
    ∃ x, m.get o.buffer = some x ∧ Owns x o ∧ H.filter (·.storage = o.buffer) = 0 ∧
      W.filter (·.buffer = o.buffer) = 0 := by
  obtain ⟨x, hget, hx, hnone, hone⟩ := hS.of_owner (Multiset.mem_cons_self o W)
  rw [filter_cons_self Owner.buffer, ← Multiset.cons_zero, Multiset.cons_inj_right] at hone
  exact ⟨x, hget, hx, hnone, hone⟩

/-- **A writable buffer that is destroyed** frees its allocation. -/
theorem Sound.release {o : Owner} (hS : m.Sound H (o ::ₘ W)) :
    ∃ m', m.release (some o) = some m' ∧ m'.Sound H W ∧ m'.frames = m.frames ∧
      ∀ o' ∈ W, m'.get o'.buffer = m.get o'.buffer := by
  obtain ⟨x, hget, hx, hnone, hone⟩ := hS.of_cons
  have hfull : o.capacity ≠ 0 ∧ o.offset ≠ 0 := by
    obtain ⟨hoff, hcap⟩ := hx.wf.headroom (List.ne_nil_of_length_pos (Nat.zero_lt_of_lt hx.large))
    unfold sizeofStorageHeader at hoff
    simp only at hoff hcap
    omega
  unfold Heap.release
  simp only [hget, Option.bind_eq_bind, Option.bind_some, ByteBufferWritable.guard_of hfull]
  refine ⟨_, rfl, ⟨?_, hS.frame_inj, hS.frame_lt, hS.ended⟩, rfl, fun o' ho' => get_put_of_ne (hS.buffer_ne o' ho')⟩
  refine hS.cell_put (lt_of_get hget) (fun _ _ h => h) (fun _ _ => rfl)
    (fun b hb => (filter_cons_of_ne Owner.buffer W hb).symm) ?_
  rw [hnone, hone]
  exact .free

/-- **A writable buffer that becomes a handle** begins a frame. -/
theorem Sound.share {o : Owner} (hS : m.Sound H (o ::ₘ W)) :
    ∃ m' x, m.get o.buffer = some x ∧ m.share (some o) = some (m', some ⟨o.buffer, m.frames.length⟩) ∧
      m'.Sound (⟨o.buffer, m.frames.length⟩ ::ₘ H) W ∧
      m'.frames = m.frames ++ [(x.mem.drop o.offset).take o.size] ∧
      ∀ o' ∈ W, m'.get o'.buffer = m.get o'.buffer := by
  obtain ⟨x, hget, hx, hnone, hone⟩ := hS.of_cons
  obtain ⟨hoff, -⟩ := hx.wf.headroom (List.ne_nil_of_length_pos (Nat.zero_lt_of_lt hx.large))
  have hmono : ∀ (f : ℕ) (d : List UInt8), m.frames[f]? = some d →
      (m.frames ++ [(x.mem.drop o.offset).take o.size])[f]? = some d := fun f d hf => by
    rw [List.getElem?_append_left (List.getElem?_eq_some_iff.1 hf).1, hf]
  refine ⟨_, x, hget, share_eq hget, ⟨?_, ?_, ?_, ?_⟩, rfl, ?_⟩
  · refine hS.cell_put (lt_of_get hget) hmono (fun b hb => filter_cons_of_ne Handle.storage H hb)
      (fun b hb => (filter_cons_of_ne Owner.buffer W hb).symm) ?_
    rw [hone, Multiset.filter_cons_of_pos (p := fun g : Handle => g.storage = o.buffer) H rfl, hnone,
      Multiset.cons_zero, ← Multiset.replicate_one]
    exact .shared one_pos (by norm_num)
      ⟨rfl, by simp [Allocation.data], hx.wf.size_le, hx.wf.length_mem, hoff, hx.large⟩
  · intro g hg g' hg' heq
    rcases Multiset.mem_cons.1 hg with rfl | hg₁ <;> rcases Multiset.mem_cons.1 hg' with rfl | hg₂
    · rfl
    · exact absurd heq (Nat.ne_of_gt (hS.frame_lt g' hg₂))
    · exact absurd heq (Nat.ne_of_lt (hS.frame_lt g hg₁))
    · exact hS.frame_inj g hg₁ g' hg₂ heq
  · intro g hg
    rw [List.length_append, List.length_singleton]
    rcases Multiset.mem_cons.1 hg with rfl | hg
    · exact Nat.lt_succ_self _
    · exact Nat.lt_succ_of_lt (hS.frame_lt g hg)
  · intro f
    show m.ended.count f = _
    rw [hS.ended f, List.length_append, List.length_singleton]
    refine if_congr ?_ rfl rfl
    simp only [Multiset.mem_cons, forall_eq_or_imp]
    constructor
    · exact fun h => ⟨by omega, by omega, h.2⟩
    · exact fun h => ⟨by omega, h.2.2⟩
  · exact fun o' ho' => get_put_of_ne (hS.buffer_ne o' ho')

theorem tryRecycle_eq {h : Handle} {x : Allocation} (hget : m.get h.storage = some x) (hpos : 1 ≤ x.refCounter) :
    m.tryRecycle (some h) = if x.refCounter = 1 then
        some ({ m.put h.storage (some { x with refCounter := 0 }) with ended := m.ended ++ [h.frame] }, none,
          some ⟨h.storage, 0, x.offset + x.capacity - INITIAL_DATA_OFFSET, INITIAL_DATA_OFFSET, 0⟩)
      else some (m, some h, none) := by
  simp only [Heap.tryRecycle, hget, Option.bind_eq_bind, Option.bind_some, Option.pure_def,
    ByteBufferWritable.guard_of hpos]

/-- What an object holds: itself, unless it is null. -/
def tokens {α : Type} : Option α → Multiset α
  | none => 0
  | some x => {x}

@[simp] theorem tokens_none {α : Type} : tokens (none : Option α) = 0 := rfl

@[simp] theorem tokens_some_add {α : Type} (x : α) (s : Multiset α) : tokens (some x) + s = x ::ₘ s :=
  Multiset.singleton_add x s

/-- **Recycling** ends the frame and makes a writable buffer of its storage if the handle is the only
one, and changes nothing otherwise. -/
theorem Sound.tryRecycle {h : Option Handle} (hS : m.Sound (tokens h + H) W) :
    ∃ m' h' w, m.tryRecycle h = some (m', h', w) ∧ m'.Sound (tokens h' + H) (tokens w + W) ∧
      m'.frames = m.frames ∧ (∀ o ∈ W, m'.get o.buffer = m.get o.buffer) ∧
      (∀ o ∈ w, o.size = 0) ∧ (h' = none ∨ h' = h) := by
  cases h with
  | none => exact ⟨m, none, none, rfl, by simpa using hS, rfl, fun _ _ => rfl, by simp, .inl rfl⟩
  | some h =>
    rw [tokens_some_add] at hS
    have hself := Multiset.mem_cons_self h H
    obtain ⟨x, k, hget, hx, h32, hcopies, hnone⟩ := hS.of_cons_handle
    rw [tryRecycle_eq hget (hx.refCounter ▸ Nat.succ_pos k), hx.refCounter]
    by_cases hone : k = 0
    · subst hone
      rw [if_pos rfl]
      refine ⟨_, none, _, rfl, ?_, rfl, ?_, by simp, .inl rfl⟩
      · rw [tokens_none, zero_add, tokens_some_add]
        refine ⟨?_, ?_, ?_, ?_⟩
        · refine hS.cell_put (lt_of_get hget) (fun _ _ h => h)
            (fun b hb => (filter_cons_of_ne Handle.storage H hb).symm)
            (fun b hb => filter_cons_of_ne Owner.buffer W hb) ?_
          rw [hcopies, Multiset.filter_cons_of_pos (p := fun g : Owner => g.buffer = h.storage) W rfl, hnone]
          have hlarge := hx.large
          have hlen := hx.length_mem
          refine .owned ⟨⟨Nat.zero_le _, ?_, fun _ => ?_⟩, hlarge⟩
          · simp only
            omega
          · simp only [INITIAL_DATA_OFFSET, sizeofStorageHeader] at hlarge ⊢
            omega
        · exact fun g hg g' hg' =>
            hS.frame_inj g (Multiset.mem_cons_of_mem hg) g' (Multiset.mem_cons_of_mem hg')
        · exact fun g hg => hS.frame_lt g (Multiset.mem_cons_of_mem hg)
        · exact ended_of_last (hS.frame_lt h hself) (hS.frame_ne_of_last hcopies) hS.ended
      · exact fun o ho => get_put_of_ne (hS.storage_ne_buffer hself ho)
    · rw [if_neg (by omega)]
      exact ⟨m, some h, none, rfl, by simpa using hS, rfl, fun _ _ => rfl, by simp, .inr rfl⟩

theorem get_allocate_of_ne {mem : List UInt8} (h : a ≠ m.cells.length) : (m.allocate mem).1.get a = m.get a := by
  unfold allocate get
  simp only
  rcases Nat.lt_or_gt_of_ne h with hlt | hgt
  · rw [List.getElem?_append_left hlt]
  · rw [List.getElem?_eq_none (by simp; omega), List.getElem?_eq_none (by omega)]

theorem get_allocate_self {mem : List UInt8} : (m.allocate mem).1.get m.cells.length = some { mem := mem } := by
  simp [allocate, get]

/-- **A new allocation** belongs to the buffer that asked for it. -/
theorem Sound.allocate (hS : m.Sound H W) {o : Owner} (hbuffer : o.buffer = m.cells.length) {mem : List UInt8}
    (ho : Owns { mem := mem } o) :
    (m.allocate mem).1.Sound H (o ::ₘ W) ∧ ∀ o' ∈ W, (m.allocate mem).1.get o'.buffer = m.get o'.buffer := by
  have hget : m.get m.cells.length = none := by simp [get]
  have hcell := hS.cell m.cells.length
  rw [hget] at hcell
  have hnone : H.filter (·.storage = m.cells.length) = 0 ∧ W.filter (·.buffer = m.cells.length) = 0 := by
    generalize H.filter (·.storage = m.cells.length) = P at hcell
    generalize W.filter (·.buffer = m.cells.length) = Q at hcell
    cases hcell
    exact ⟨rfl, rfl⟩
  refine ⟨⟨fun a => ?_, hS.frame_inj, hS.frame_lt, hS.ended⟩, fun o' ho' => get_allocate_of_ne fun heq => ?_⟩
  · by_cases ha : a = m.cells.length
    · subst ha
      rw [get_allocate_self, hnone.1, ← hbuffer, filter_cons_self Owner.buffer, hbuffer, hnone.2]
      exact .owned ho
    · rw [get_allocate_of_ne ha, filter_cons_of_ne Owner.buffer W (hbuffer ▸ ha)]
      exact hS.cell a
  · exact Multiset.notMem_zero o' (hnone.2 ▸ Multiset.mem_filter.2 ⟨ho', heq⟩)

/-- **Writing in place** touches the buffer's own allocation only. -/
theorem Sound.write {o o' : Owner} (hS : m.Sound H (o ::ₘ W)) (hbuffer : o'.buffer = o.buffer) {x : Allocation}
    (hget : m.get o.buffer = some x) {mem : List UInt8} (ho : Owns { x with mem := mem } o') :
    (m.put o.buffer (some { x with mem := mem })).Sound H (o' ::ₘ W) ∧
      ∀ o'' ∈ W, (m.put o.buffer (some { x with mem := mem })).get o''.buffer = m.get o''.buffer := by
  obtain ⟨-, -, -, hnone, hone⟩ := hS.of_cons
  refine ⟨⟨?_, hS.frame_inj, hS.frame_lt, hS.ended⟩, fun o'' ho'' => get_put_of_ne (hS.buffer_ne o'' ho'')⟩
  refine hS.cell_put (lt_of_get hget) (fun _ _ h => h) (fun _ _ => rfl) (fun b hb => ?_) ?_
  · rw [filter_cons_of_ne Owner.buffer W (hbuffer ▸ hb), filter_cons_of_ne Owner.buffer W hb]
  · rw [hnone, ← hbuffer, filter_cons_self Owner.buffer, hbuffer, hone]
    exact .owned ho

/-- A buffer's own numbers may change. -/
theorem Sound.reown {o o' : Owner} (hS : m.Sound H (o ::ₘ W)) (hbuffer : o'.buffer = o.buffer) {x : Allocation}
    (hget : m.get o.buffer = some x) (ho : Owns x o') : m.Sound H (o' ::ₘ W) := by
  have hwrite := (hS.write hbuffer hget ho).1
  rwa [show m.put o.buffer (some { x with mem := x.mem }) = m from put_get hget] at hwrite

/-! ### Writable buffers with their bytes -/

theorem view_some {o : Owner} {x : Allocation} (hget : m.get o.buffer = some x) :
    m.view (some o) = some ⟨x.mem, o.size, o.capacity, o.offset, o.flags⟩ := by
  simp only [view, hget, Option.bind_eq_bind, Option.bind_some, Option.pure_def]

/-- A buffer looks the same as long as its allocation does. -/
theorem view_congr {m' : Heap} {w : Option Owner} (h : ∀ o ∈ w, m'.get o.buffer = m.get o.buffer) :
    m'.view w = m.view w := by
  cases w with
  | none => rfl
  | some o =>
    unfold view
    simp only [h o rfl]

theorem Sound.view {w : Option Owner} (hS : m.Sound H (tokens w + W)) : ∃ b, m.view w = some b ∧ b.WF := by
  cases w with
  | none => exact ⟨.empty, rfl, ⟨le_rfl, rfl, fun h => absurd rfl h⟩⟩
  | some o =>
    rw [tokens_some_add] at hS
    obtain ⟨x, hget, hx, -⟩ := hS.of_cons
    exact ⟨_, view_some hget, hx.wf⟩

theorem Sound.releaseAny {w : Option Owner} (hS : m.Sound H (tokens w + W)) :
    ∃ m', m.release w = some m' ∧ m'.Sound H W ∧ m'.frames = m.frames ∧
      ∀ o ∈ W, m'.get o.buffer = m.get o.buffer := by
  cases w with
  | none => exact ⟨m, rfl, by simpa using hS, rfl, fun _ _ => rfl⟩
  | some o =>
    rw [tokens_some_add] at hS
    exact hS.release

/-- A buffer without room and flags is the empty one. -/
theorem eq_empty {b : ByteBufferWritable} (hwf : b.WF) (hcap : b.capacity = 0) (hoff : b.offset = 0)
    (hflags : b.flags = 0) : b = .empty := by
  obtain ⟨mem, size, capacity, offset, flags⟩ := b
  obtain rfl : capacity = 0 := hcap
  obtain rfl : offset = 0 := hoff
  obtain rfl : flags = 0 := hflags
  obtain rfl : mem = [] := List.eq_nil_of_length_eq_zero hwf.length_mem
  obtain rfl : size = 0 := Nat.le_zero.1 hwf.size_le
  rfl

/-- A buffer that kept its room, its headroom and its flags is where it was. -/
theorem stays_of_eq {w : Option Owner} {b b' : ByteBufferWritable} (hview : m.view w = some b) (hb : b.WF)
    (hwf : b'.WF) (hcap : b'.capacity = b.capacity) (hoff : b'.offset = b.offset) (hflags : b'.flags = b.flags) :
    b'.mem.length = b.mem.length ∧ (w = none → b' = .empty) := by
  refine ⟨by rw [hwf.length_mem, hb.length_mem, hcap, hoff], ?_⟩
  rintro rfl
  obtain rfl : ByteBufferWritable.empty = b := Option.some.inj hview
  exact eq_empty hwf hcap hoff hflags

/-- **What an operation on a writable buffer leaves** is a writable buffer, in place or elsewhere. -/
theorem Sound.place {w : Option Owner} (hS : m.Sound H (tokens w + W)) {b b' : ByteBufferWritable}
    (hview : m.view w = some b) (hwf : b'.WF) (moved : Bool)
    (hmoved : moved = true → INITIAL_DATA_OFFSET < b'.mem.length)
    (hstays : moved = false → b'.mem.length = b.mem.length ∧ (w = none → b' = .empty)) :
    ∃ m' w', m.place w moved b' = some (m', w') ∧ m'.Sound H (tokens w' + W) ∧ m'.view w' = some b' ∧
      m'.frames = m.frames ∧ ∀ o ∈ W, m'.get o.buffer = m.get o.buffer := by
  cases moved with
  | true =>
    obtain ⟨m₁, hrelease, hS₁, hframes, hother⟩ := hS.releaseAny
    have howns : Owns { mem := b'.mem } ⟨m₁.cells.length, b'.size, b'.capacity, b'.offset, b'.flags⟩ :=
      ⟨hwf, hmoved rfl⟩
    obtain ⟨hS', hother'⟩ := hS₁.allocate rfl howns
    refine ⟨(m₁.allocate b'.mem).1, some ⟨m₁.cells.length, b'.size, b'.capacity, b'.offset, b'.flags⟩,
      ?_, ?_, ?_, hframes, ?_⟩
    · simp only [Heap.place, if_true, hrelease, Option.bind_eq_bind, Option.bind_some, Option.pure_def]
      rfl
    · rwa [tokens_some_add]
    · rw [view_some get_allocate_self]
    · exact fun o ho => (hother' o ho).trans (hother o ho)
  | false =>
    obtain ⟨hlen, hnull⟩ := hstays rfl
    cases w with
    | none => exact ⟨m, none, rfl, hS, hnull rfl ▸ rfl, rfl, fun _ _ => rfl⟩
    | some o =>
      rw [tokens_some_add] at hS
      obtain ⟨x, hget, hx, -⟩ := hS.of_cons
      rw [view_some hget, Option.some.injEq] at hview
      have howns : Owns { x with mem := b'.mem } ⟨o.buffer, b'.size, b'.capacity, b'.offset, b'.flags⟩ :=
        ⟨hwf, by rw [hlen, ← hview]; exact hx.large⟩
      have hbuffer : (Owner.mk o.buffer b'.size b'.capacity b'.offset b'.flags).buffer = o.buffer := rfl
      obtain ⟨hS', hother⟩ := hS.write hbuffer hget howns
      refine ⟨m.put o.buffer (some { x with mem := b'.mem }),
        some ⟨o.buffer, b'.size, b'.capacity, b'.offset, b'.flags⟩, ?_, ?_, ?_, rfl, hother⟩
      · simp only [Heap.place, Bool.false_eq_true, if_false, hget, Option.bind_eq_bind, Option.bind_some,
          Option.pure_def]
      · rwa [tokens_some_add]
      · exact view_some (o := ⟨o.buffer, b'.size, b'.capacity, b'.offset, b'.flags⟩)
          (get_put_self (lt_of_get hget))

/-- **Appending** adds the bytes at the end and touches no other buffer and no frame. -/
theorem Sound.append (pool : MemoryPool) {w : Option Owner} (hS : m.Sound H (tokens w + W))
    {b : ByteBufferWritable} (hview : m.view w = some b) (src : List UInt8)
    (h29 : b.size + src.length < 2 ^ 29) :
    ∃ m' w' b', m.append pool w src = some (m', w') ∧ m'.Sound H (tokens w' + W) ∧ m'.view w' = some b' ∧
      b'.data = b.data ++ src ∧ m'.frames = m.frames ∧ ∀ o ∈ W, m'.get o.buffer = m.get o.buffer := by
  obtain ⟨b₀, hview₀, hwf₀⟩ := hS.view
  obtain rfl : b = b₀ := Option.some.inj (hview.symm.trans hview₀)
  obtain ⟨c, hc, hwf, hdata, hsize, hflags, hfit, hgrow⟩ := ByteBufferWritable.append_spec pool hwf₀ src h29
  have hmod : (b.size + src.length) % 2 ^ 32 = b.size + src.length := Nat.mod_eq_of_lt (by omega)
  obtain ⟨m', w', hplace, hS', hview', hframes, hother⟩ :=
    hS.place hview hwf (b.capacity < (b.size + src.length) % 2 ^ 32)
      (fun h => by
        obtain ⟨hoff, hcap⟩ := hgrow (by rw [hmod] at h; simpa using h)
        rw [hwf.length_mem]
        omega)
      (fun h => by
        obtain ⟨hcap, hoff⟩ := hfit (by rw [hmod] at h; simpa using h)
        exact stays_of_eq hview hwf₀ hwf hcap hoff hflags)
  refine ⟨m', w', c, ?_, hS', hview', hdata, hframes, hother⟩
  simp only [Heap.append, hview, hc, Option.bind_eq_bind, Option.bind_some]
  exact hplace

/-- **Reserving** keeps the bytes. -/
theorem Sound.reserve (pool : MemoryPool) {w : Option Owner} (hS : m.Sound H (tokens w + W))
    {b : ByteBufferWritable} (hview : m.view w = some b) {n : ℕ} (h29 : n < 2 ^ 29) :
    ∃ m' w' b', m.reserve pool w n = some (m', w') ∧ m'.Sound H (tokens w' + W) ∧ m'.view w' = some b' ∧
      b'.data = b.data ∧ m'.frames = m.frames ∧ ∀ o ∈ W, m'.get o.buffer = m.get o.buffer := by
  obtain ⟨b₀, hview₀, hwf₀⟩ := hS.view
  obtain rfl : b = b₀ := Option.some.inj (hview.symm.trans hview₀)
  obtain ⟨c, hc, hwf, hdata, hgrow, hfit⟩ : ∃ c, b.reserve pool n = some c ∧ c.WF ∧ c.data = b.data ∧
      (b.capacity < n → c.offset = INITIAL_DATA_OFFSET ∧ 0 < c.capacity) ∧
      (n ≤ b.capacity → c.capacity = b.capacity ∧ c.offset = b.offset ∧ c.flags = b.flags) := by
    by_cases hn : n ≤ b.capacity
    · exact ⟨b, ByteBufferWritable.reserve_of_le pool hwf₀ hn (by omega), hwf₀, rfl,
        fun h => absurd hn (Nat.not_le.2 h), fun _ => ⟨rfl, rfl, rfl⟩⟩
    · obtain ⟨c, hc, hwf, -, hdata, -, hcap, hoff, -⟩ :=
        ByteBufferWritable.reserve_of_lt pool hwf₀ (Nat.not_le.1 hn) h29
      exact ⟨c, hc, hwf, hdata, fun _ => ⟨hoff, by omega⟩, fun h => absurd h hn⟩
  obtain ⟨m', w', hplace, hS', hview', hframes, hother⟩ :=
    hS.place hview hwf (b.capacity < n)
      (fun h => by
        obtain ⟨hoff, hcap⟩ := hgrow (by simpa using h)
        rw [hwf.length_mem]
        omega)
      (fun h => by
        obtain ⟨hcap, hoff, hflags⟩ := hfit (by simpa using h)
        exact stays_of_eq hview hwf₀ hwf hcap hoff hflags)
  refine ⟨m', w', c, ?_, hS', hview', hdata, hframes, hother⟩
  simp only [Heap.reserve, hview, hc, Option.bind_eq_bind, Option.bind_some]
  exact hplace

end Heap
end Framing
end ICon7
