/-
# Who owns a command

Handles are moved between variables, into the queue by `EnqueueCommand` and out of it by
`TryDequeue` and by the dequeues of `CommandExecutionQueue::Execute`
(`src/CommandExecutionQueue.cpp`), and are executed or destroyed where they are.

All of this happens in any order: threads create and enqueue, calls of `Execute` fill
their 1024 slots and work through them, one inside the other or on different threads, and
a command may do anything while it is executed.  What is asked of the program is that it
leaves a variable alone while `Execute` runs on it (`Allowed`).

One equation is the invariant (`Inv.ledger`): the handles in the queue, in variables and
in slots are those of the objects that are alive, each once, with the number of times
that `Execute` was called.  The slots of a call are empty from where it has come to
(`Frame.Ok`).
-/

import ICon7.Lib.Holdings
import ICon7.Lib.ProducerQueue
import ICon7.Queue.CommandHeap

namespace ICon7
namespace Handles

/-! ### Holders of handles -/

/-- A `CommandHandle` variable, and whether its `Execute` is running. -/
structure Cell where
  handle : UInt64 := 0
  executing : Bool := false
deriving DecidableEq, Repr

/-- A call of `CommandExecutionQueue::Execute`: where its slots begin, the number of commands that
it has dequeued into them, and the one it has come to. -/
structure Frame where
  base : ℕ
  dequeued : ℕ := 0
  i : ℕ := 0
deriving DecidableEq, Repr

def elems : ℕ := 1024

/-- The heap, the queue with the producer of each handle, the variables and slots, the calls of
`Execute`, and the number of commands that a slot refused. -/
structure State where
  heap : Heap := {}
  queue : List (ℕ × UInt64) := []
  cells : List Cell := []
  frames : List Frame := []
  dropped : ℕ := 0
deriving DecidableEq, Repr

/-- What a program does with handles.  Variables are numbered as they come, calls of `Execute` too. -/
inductive Op where
  | create (address : UInt64) (commandSize : Option ℕ)
  | moveConstruct (c : ℕ)
  | moveAssign (c d : ℕ)
  | destroy (c : ℕ)
  | beginExecute (c : ℕ)
  | finishExecute (c : ℕ)
  | enqueue (producer c : ℕ)
  | tryDequeue (c : ℕ) (producer : Option ℕ)
  | callExecute
  | dequeue (f producer : ℕ)
  | beginSlot (f : ℕ)
  | finishSlot (f : ℕ)
  | nextBulk (f : ℕ)
  | deleteQueue
deriving DecidableEq, Repr

namespace State

/-- `Execute` of the handle in a cell begins. -/
def beginCell (s : State) (c : ℕ) : Option State := do
  let x ← s.cells[c]?
  let heap ← s.heap.beginExecute x.handle
  return { s with
    heap
    cells := s.cells.set c { x with executing := true } }

/-- It ends, and empties the handle. -/
def finishCell (s : State) (c : ℕ) : Option State := do
  let x ← s.cells[c]?
  let heap ← s.heap.finishExecute x.handle
  return { s with
    heap
    cells := s.cells.set c {} }

def destroyCell (s : State) (c : ℕ) : Option State := do
  let x ← s.cells[c]?
  let heap ← s.heap.destroy x.handle
  return { s with
    heap
    cells := s.cells.set c {} }

/-- One step; `none` is an access to memory that holds no such object. -/
def step (s : State) : Op → Option State
  | .create address commandSize =>
    let (heap, handle) := s.heap.create address commandSize
    some { s with
      heap
      cells := s.cells ++ [{ handle }] }
  | .moveConstruct c => do
    let x ← s.cells[c]?
    return { s with
      cells := s.cells.set c {} ++ [{ handle := x.handle }] }
  | .moveAssign c d => do
    let x ← s.cells[c]?
    let y ← s.cells[d]?
    -- a handle that is not empty refuses
    if x.handle ≠ 0 then return s
    else return { s with
      cells := (s.cells.set c { handle := y.handle }).set d {} }
  | .destroy c => s.destroyCell c
  | .beginExecute c => s.beginCell c
  | .finishExecute c => s.finishCell c
  | .enqueue producer c => do
    let x ← s.cells[c]?
    if x.handle = 0 then return s
    else return { s with
      queue := s.queue ++ [(producer, x.handle)]
      cells := s.cells.set c {} }
  | .tryDequeue c producer => do
    let s ← s.destroyCell c
    match producer with
    | none => return s
    | some producer => do
      let (e, queue) ← Lib.takeFirst Prod.fst producer s.queue
      return { s with
        queue
        cells := s.cells.set c { handle := e.2 } }
  | .callExecute =>
    some { s with
      cells := s.cells ++ List.replicate elems {}
      frames := s.frames ++ [{ base := s.cells.length }] }
  | .dequeue f producer => do
    let frame ← s.frames[f]?
    let (e, queue) ← Lib.takeFirst Prod.fst producer s.queue
    let x ← s.cells[frame.base + frame.dequeued]?
    let frames := s.frames.set f { frame with dequeued := frame.dequeued + 1 }
    -- moved into the slot, or refused by it and destroyed with the element of the queue
    if x.handle ≠ 0 then do
      let heap ← s.heap.destroy e.2
      return { s with
        heap
        queue
        frames
        dropped := s.dropped + 1 }
    else return { s with
      queue
      frames
      cells := s.cells.set (frame.base + frame.dequeued) { handle := e.2 } }
  | .beginSlot f => do
    let frame ← s.frames[f]?
    s.beginCell (frame.base + frame.i)
  | .finishSlot f => do
    let frame ← s.frames[f]?
    let s ← s.finishCell (frame.base + frame.i)
    return { s with
      frames := s.frames.set f { frame with i := frame.i + 1 } }
  | .nextBulk f => do
    let frame ← s.frames[f]?
    return { s with
      frames := s.frames.set f { frame with
        dequeued := 0
        i := 0 } }
  | .deleteQueue => do
    let heap ← s.queue.foldlM (fun m e => m.destroy e.2) s.heap
    return { s with
      heap
      queue := [] }

def run (s : State) (ops : List Op) : Option State := ops.foldlM step s

/-- A slot of a call of `Execute`; the others are variables. -/
def IsSlot (s : State) (c : ℕ) : Prop := ∃ f ∈ s.frames, f.base ≤ c ∧ c < f.base + elems

/-- A variable that is not being executed. -/
def Free (s : State) (c : ℕ) : Prop := ¬s.IsSlot c ∧ ∃ x ∈ s.cells[c]?, x.executing = false

/-- A call of `Execute`, and the slot that it has come to. -/
def current (s : State) (f : ℕ) : Option (Frame × Cell) := do
  let frame ← s.frames[f]?
  let x ← s.cells[frame.base + frame.i]?
  return (frame, x)

/-- What is asked of the program: addresses are new and aligned, a variable is left alone while it
is executed, and the slots belong to their call of `Execute`, which fills them, works through them
and starts again. -/
def Allowed (s : State) : Op → Prop
  | .create address _ => address ≠ 0 ∧ Aligned address ∧ ∀ o ∈ s.heap.objects, o.address ≠ address
  | .moveConstruct c | .destroy c | .beginExecute c | .enqueue _ c => s.Free c
  | .moveAssign c d => s.Free c ∧ s.Free d
  | .finishExecute c => ¬s.IsSlot c ∧ ∃ x ∈ s.cells[c]?, x.executing = true
  | .tryDequeue c producer => s.Free c ∧ ∀ p ∈ producer, ∃ e ∈ s.queue, e.1 = p
  | .callExecute | .deleteQueue => True
  | .dequeue f producer => (∃ e ∈ s.queue, e.1 = producer) ∧
      ∃ p ∈ s.current f, p.1.i = 0 ∧ p.1.dequeued < elems ∧ p.2.executing = false
  | .beginSlot f => ∃ p ∈ s.current f, p.1.i < p.1.dequeued ∧ p.2.executing = false
  | .finishSlot f => ∃ p ∈ s.current f, p.1.i < p.1.dequeued ∧ p.2.executing = true
  | .nextBulk f => ∃ frame ∈ s.frames[f]?, frame.i = frame.dequeued

instance (s : State) (c : ℕ) : Decidable (s.IsSlot c) :=
  inferInstanceAs (Decidable (∃ f ∈ s.frames, f.base ≤ c ∧ c < f.base + elems))

instance (s : State) (c : ℕ) : Decidable (s.Free c) :=
  inferInstanceAs (Decidable (¬s.IsSlot c ∧ ∃ x ∈ s.cells[c]?, x.executing = false))

instance (s : State) : (op : Op) → Decidable (s.Allowed op)
  | .create address _ => inferInstanceAs (Decidable
      (address ≠ 0 ∧ Aligned address ∧ ∀ o ∈ s.heap.objects, o.address ≠ address))
  | .moveConstruct c | .destroy c | .beginExecute c | .enqueue _ c => inferInstanceAs (Decidable (s.Free c))
  | .moveAssign c d => inferInstanceAs (Decidable (s.Free c ∧ s.Free d))
  | .finishExecute c => inferInstanceAs (Decidable (¬s.IsSlot c ∧ ∃ x ∈ s.cells[c]?, x.executing = true))
  | .tryDequeue c producer => inferInstanceAs (Decidable
      (s.Free c ∧ ∀ p ∈ producer, ∃ e ∈ s.queue, e.1 = p))
  | .callExecute | .deleteQueue => inferInstanceAs (Decidable True)
  | .dequeue f producer => inferInstanceAs (Decidable ((∃ e ∈ s.queue, e.1 = producer) ∧
      ∃ p ∈ s.current f, p.1.i = 0 ∧ p.1.dequeued < elems ∧ p.2.executing = false))
  | .beginSlot f => inferInstanceAs (Decidable
      (∃ p ∈ s.current f, p.1.i < p.1.dequeued ∧ p.2.executing = false))
  | .finishSlot f => inferInstanceAs (Decidable
      (∃ p ∈ s.current f, p.1.i < p.1.dequeued ∧ p.2.executing = true))
  | .nextBulk f => inferInstanceAs (Decidable (∃ frame ∈ s.frames[f]?, frame.i = frame.dequeued))

end State

/-! ### What the holders keep -/

/-- The object that a cell holds.  A coroutine that was resumed is nobody's. -/
def Cell.held (x : Cell) : Multiset (UInt64 × ℕ) :=
  if x.handle = 0 then 0 else if x.executing then Heap.running x.handle else {(x.handle, 0)}

namespace Cell

variable {x : Cell} {m : Heap}

theorem held_empty : Cell.held {} = 0 := rfl

theorem held_of_idle {h : UInt64} (hne : h ≠ 0) : Cell.held { handle := h } = {(h, 0)} := by
  simp [held, hne]

/-- `Destroy` of a handle that nobody executes. -/
theorem destroy_spec (hm : m.Inv) (hidle : x.executing = false) (hle : x.held ≤ m.live) :
    ∃ m', m.destroy x.handle = some m' ∧ m'.Inv ∧ m'.live + x.held = m.live := by
  by_cases hzero : x.handle = 0
  · exact ⟨m, by rw [hzero]; rfl, hm, by simp [held, hzero]⟩
  · have hheld : x.held = {(x.handle, 0)} := by simp [held, hzero, hidle]
    rw [hheld] at hle ⊢
    exact hm.destroy (Multiset.singleton_le.mp hle)

/-- `Execute` of a handle begins, unless it is running. -/
theorem begin_spec (hm : m.Inv) (hidle : x.executing = false) (hle : x.held ≤ m.live) :
    ∃ m', m.beginExecute x.handle = some m' ∧ m'.Inv ∧
      m'.live + x.held = m.live + Cell.held { x with executing := true } := by
  by_cases hzero : x.handle = 0
  · exact ⟨m, by rw [hzero]; rfl, hm, by simp [held, hzero]⟩
  · have hheld : x.held = {(x.handle, 0)} := by simp [held, hzero, hidle]
    rw [hheld] at hle ⊢
    simpa [held, hzero] using hm.beginExecute (Multiset.singleton_le.mp hle)

/-- `Execute` of a handle ends. -/
theorem finish_spec (hm : m.Inv) (hbusy : x.executing = true) (hle : x.held ≤ m.live) :
    ∃ m', m.finishExecute x.handle = some m' ∧ m'.Inv ∧ m'.live + x.held = m.live := by
  by_cases hzero : x.handle = 0
  · exact ⟨m, by rw [hzero]; rfl, hm, by simp [held, hzero]⟩
  · by_cases htype : typeOf x.handle = COROUTINE_HANDLE
    · exact ⟨m, Heap.finishExecute_coroutine m htype, hm, by simp [held, hbusy, Heap.running, htype]⟩
    · have hheld : x.held = {(x.handle, 1)} := by simp [held, hzero, hbusy, Heap.running, htype]
      rw [hheld] at hle ⊢
      exact hm.finishExecute (Multiset.singleton_le.mp hle) htype

end Cell

/-- The slots of a call of `Execute`: those that it has filled and not come to hold handles, the
others are empty, and only the one it has come to is executed. -/
structure Frame.Ok (cells : List Cell) (f : Frame) : Prop where
  range : f.base + elems ≤ cells.length
  come : f.i ≤ f.dequeued
  filled : f.dequeued ≤ elems
  slot : ∀ j x, j < elems → cells[f.base + j]? = some x →
    (x.handle ≠ 0 ↔ f.i ≤ j ∧ j < f.dequeued) ∧ (x.executing = true → j = f.i ∧ j < f.dequeued)

namespace Frame.Ok

variable {cells : List Cell} {f : Frame}

/-- The cells of others do not matter. -/
theorem set (h : f.Ok cells) {c : ℕ} (hc : ¬(f.base ≤ c ∧ c < f.base + elems)) (x : Cell) :
    f.Ok (cells.set c x) where
  range := by simpa using h.range
  come := h.come
  filled := h.filled
  slot := by
    intro j y hj hy
    rw [List.getElem?_set_ne (by omega)] at hy
    exact h.slot j y hj hy

theorem append (h : f.Ok cells) (others : List Cell) : f.Ok (cells ++ others) where
  range := by
    have := h.range
    simp only [List.length_append]
    omega
  come := h.come
  filled := h.filled
  slot := by
    intro j y hj hy
    have := h.range
    rw [List.getElem?_append_left (by omega)] at hy
    exact h.slot j y hj hy

/-- The call changes one of its slots, and goes on. -/
theorem update (h : f.Ok cells) {j₀ : ℕ} {x y : Cell} (hx : cells[f.base + j₀]? = some x)
    (dequeued i : ℕ) (hcome : i ≤ dequeued) (hfilled : dequeued ≤ elems)
    (hself : y.handle ≠ 0 ↔ i ≤ j₀ ∧ j₀ < dequeued)
    (hexec : y.executing = true → j₀ = i ∧ j₀ < dequeued)
    (hother : ∀ j, j ≠ j₀ → (f.i ≤ j ∧ j < f.dequeued ↔ i ≤ j ∧ j < dequeued) ∧
      (j = f.i ∧ j < f.dequeued → j = i ∧ j < dequeued)) :
    Frame.Ok (cells.set (f.base + j₀) y) ⟨f.base, dequeued, i⟩ where
  range := by simpa using h.range
  come := hcome
  filled := hfilled
  slot := by
    intro j z hj hz
    change (cells.set (f.base + j₀) y)[f.base + j]? = some z at hz
    by_cases hjj : j = j₀
    · subst hjj
      obtain ⟨hlt, -⟩ := List.getElem?_eq_some_iff.mp hx
      rw [List.getElem?_set_self hlt] at hz
      obtain rfl := Option.some.inj hz
      exact ⟨hself, hexec⟩
    · rw [List.getElem?_set_ne (by omega)] at hz
      obtain ⟨hslot, hrun⟩ := h.slot j z hj hz
      obtain ⟨hsame, hcame⟩ := hother j hjj
      exact ⟨hslot.trans hsame, fun he => hcame (hrun he)⟩

end Frame.Ok

namespace State

/-- **What every step keeps,** and within a step the objects whose handles are being moved. -/
structure Inv (s : State) (moved : Multiset (UInt64 × ℕ)) : Prop where
  heap : s.heap.Inv
  ledger : Heap.entries s.queue + (s.cells.map Cell.held).sum + moved = s.heap.live
  frames : ∀ f ∈ s.frames, f.Ok s.cells
  apart : (s.frames.map Frame.base).Pairwise fun a b => a + elems ≤ b
  dropped : s.dropped = 0

variable {s : State} {moved moved' : Multiset (UInt64 × ℕ)} {c : ℕ} {x y : Cell}

theorem Inv.init : Inv {} 0 where
  heap := .empty
  ledger := rfl
  frames := by simp
  apart := .nil
  dropped := rfl

/-- What a cell holds is alive. -/
theorem Inv.held_le (hI : s.Inv moved) (hx : s.cells[c]? = some x) : x.held ≤ s.heap.live := by
  have hset := Lib.sum_map_set Cell.held hx {}
  rw [Cell.held_empty, add_zero] at hset
  rw [← hI.ledger, ← hset]
  exact le_add_right (le_add_left (le_add_left le_rfl))

/-- **One cell changes,** and with it the heap, in balance. -/
theorem Inv.ledger_set (hI : s.Inv moved) (hx : s.cells[c]? = some x) {heap : Heap}
    (hbalance : y.held + moved' + s.heap.live = x.held + moved + heap.live) :
    Heap.entries s.queue + ((s.cells.set c y).map Cell.held).sum + moved' = heap.live := by
  have hset := Lib.sum_map_set Cell.held hx y
  apply add_right_cancel (b := x.held + s.heap.live)
  calc Heap.entries s.queue + ((s.cells.set c y).map Cell.held).sum + moved' + (x.held + s.heap.live)
      = Heap.entries s.queue + (((s.cells.set c y).map Cell.held).sum + x.held) +
          (moved' + s.heap.live) := by abel
    _ = Heap.entries s.queue + (s.cells.map Cell.held).sum + (y.held + moved' + s.heap.live) := by
        rw [hset]
        abel
    _ = Heap.entries s.queue + (s.cells.map Cell.held).sum + moved + x.held + heap.live := by
        rw [hbalance]
        abel
    _ = heap.live + (x.held + s.heap.live) := by
        rw [hI.ledger]
        abel

/-- A variable changes. -/
theorem Inv.setVariable (hI : s.Inv moved) (hx : s.cells[c]? = some x) (hslot : ¬s.IsSlot c) (heap : Heap)
    (hheap : heap.Inv) (hbalance : y.held + moved' + s.heap.live = x.held + moved + heap.live) :
    Inv { s with
      heap
      cells := s.cells.set c y } moved' where
  heap := hheap
  ledger := hI.ledger_set hx hbalance
  frames := fun f hf => (hI.frames f hf).set (fun hc => hslot ⟨f, hf, hc⟩) y
  apart := hI.apart
  dropped := hI.dropped

/-- A new variable. -/
theorem Inv.addCell (hI : s.Inv moved) (heap : Heap) (hheap : heap.Inv)
    (hlive : heap.live + moved = s.heap.live + y.held + moved') :
    Inv { s with
      heap
      cells := s.cells ++ [y] } moved' where
  heap := hheap
  ledger := by
    apply add_right_cancel (b := moved)
    rw [hlive, ← hI.ledger]
    simp only [List.map_append, List.map_cons, List.map_nil, List.sum_append, List.sum_cons, List.sum_nil,
      add_zero]
    abel
  frames := fun f hf => (hI.frames f hf).append [y]
  apart := hI.apart
  dropped := hI.dropped

/-- The queue changes. -/
theorem Inv.setQueue (hI : s.Inv moved) {queue : List (ℕ × UInt64)} (heap : Heap) (hheap : heap.Inv)
    (hbalance : Heap.entries queue + moved' + s.heap.live =
      Heap.entries s.queue + moved + heap.live) :
    Inv { s with
      heap
      queue } moved' where
  heap := hheap
  ledger := by
    apply add_right_cancel (b := s.heap.live)
    calc Heap.entries queue + (s.cells.map Cell.held).sum + moved' + s.heap.live
        = Heap.entries queue + moved' + s.heap.live + (s.cells.map Cell.held).sum := by abel
      _ = Heap.entries s.queue + (s.cells.map Cell.held).sum + moved + heap.live := by
          rw [hbalance]
          abel
      _ = heap.live + s.heap.live := by
          rw [hI.ledger]
          abel
  frames := hI.frames
  apart := hI.apart
  dropped := hI.dropped

/-- The slots of two calls are apart. -/
theorem Inv.slots_apart (hI : s.Inv moved) {j k : ℕ} {f g : Frame} (hf : s.frames[j]? = some f)
    (hg : s.frames[k]? = some g) (hne : j ≠ k) :
    f.base + elems ≤ g.base ∨ g.base + elems ≤ f.base := by
  have hbase : ∀ {n : ℕ} {fr : Frame}, s.frames[n]? = some fr →
      ∃ hn : n < (s.frames.map Frame.base).length, (s.frames.map Frame.base)[n] = fr.base := by
    intro n fr hfr
    obtain ⟨hn, rfl⟩ := List.getElem?_eq_some_iff.mp hfr
    exact ⟨by simpa using hn, by simp⟩
  obtain ⟨hj, hfj⟩ := hbase hf
  obtain ⟨hk, hgk⟩ := hbase hg
  have hpair := List.pairwise_iff_getElem.mp hI.apart
  rcases Nat.lt_or_gt_of_ne hne with hlt | hlt
  · have := hpair j k hj hk hlt
    omega
  · have := hpair k j hk hj hlt
    omega

/-- A call of `Execute` changes one of its slots. -/
theorem Inv.setSlot (hI : s.Inv moved) {k : ℕ} {f : Frame} (hf : s.frames[k]? = some f) (f' : Frame)
    (hbase : f'.base = f.base) (hx : s.cells[c]? = some x) (hc : f.base ≤ c ∧ c < f.base + elems)
    (hok : f'.Ok (s.cells.set c y)) (heap : Heap) (hheap : heap.Inv)
    (hbalance : y.held + moved' + s.heap.live = x.held + moved + heap.live) :
    Inv { s with
      heap
      cells := s.cells.set c y
      frames := s.frames.set k f' } moved' where
  heap := hheap
  ledger := hI.ledger_set hx hbalance
  frames := by
    intro g hg
    obtain ⟨j, hj⟩ := List.mem_iff_getElem?.mp hg
    by_cases hjk : k = j
    · subst hjk
      obtain ⟨hlt, -⟩ := List.getElem?_eq_some_iff.mp hf
      rw [List.getElem?_set_self hlt] at hj
      exact Option.some.inj hj ▸ hok
    · rw [List.getElem?_set_ne hjk] at hj
      have hapart := hI.slots_apart hf hj hjk
      exact (hI.frames g (List.mem_of_getElem? hj)).set (by omega) y
  apart := by
    have hsame : (s.frames.set k f').map Frame.base = s.frames.map Frame.base := by
      refine List.ext_getElem? fun j => ?_
      rw [List.getElem?_map, List.getElem?_map]
      by_cases hjk : k = j
      · subst hjk
        obtain ⟨hlt, -⟩ := List.getElem?_eq_some_iff.mp hf
        rw [List.getElem?_set_self hlt, hf, Option.map_some, Option.map_some, hbase]
      · rw [List.getElem?_set_ne hjk]
    change ((s.frames.set k f').map Frame.base).Pairwise _
    rw [hsame]
    exact hI.apart
  dropped := hI.dropped

end State

end Handles
end ICon7
