/-
# Commands are neither lost nor used after their release

Every step that is allowed keeps the ledger of `ICon7.Queue.Handles`: a move takes a
handle out of one holder and puts it into another (`Inv.takeOut`, `Inv.putIn`,
`Inv.takeFirst`), `Execute` and `Destroy` change the holder and the heap in balance.  So
no step accesses what was released (`step_total`).

The slots of a call of `Execute` are empty whenever it dequeues (`step_dequeue`), or else
the move into a slot would be refused and the command destroyed without being executed.
-/

import ICon7.Lib.Run
import ICon7.Queue.Handles

namespace ICon7
namespace Handles
namespace State

variable {s : State} {moved : Multiset (UInt64 × ℕ)} {c : ℕ} {x y : Cell}

/-! ### One step -/

theorem set_self {α : Type} {l : List α} {i : ℕ} {a : α} (h : l[i]? = some a) : l.set i a = l := by
  obtain ⟨hi, rfl⟩ := List.getElem?_eq_some_iff.mp h
  exact List.set_getElem_self hi

theorem current_eq_some {k : ℕ} {f : Frame} (h : (f, x) ∈ s.current k) :
    s.frames[k]? = some f ∧ s.cells[f.base + f.i]? = some x := by
  obtain ⟨f', hf, hbind⟩ := Option.bind_eq_some_iff.mp h
  obtain ⟨x', hx, heq⟩ := Option.bind_eq_some_iff.mp hbind
  obtain ⟨rfl, rfl⟩ := Prod.mk.inj (Option.some.inj heq)
  exact ⟨hf, hx⟩

/-- A free variable is its handle. -/
theorem Free.cell (h : s.Free c) : ¬s.IsSlot c ∧ ∃ handle, s.cells[c]? = some { handle } := by
  obtain ⟨hslot, ⟨handle, executing⟩, hx, hidle⟩ := h
  obtain rfl : executing = false := hidle
  exact ⟨hslot, handle, hx⟩

/-- A free variable gives up what it holds. -/
theorem Inv.takeOut (hI : s.Inv moved) (hslot : ¬s.IsSlot c) (hx : s.cells[c]? = some x) :
    Inv { s with cells := s.cells.set c {} } (moved + x.held) := by
  refine hI.setVariable hx hslot s.heap hI.heap ?_
  rw [Cell.held_empty]
  abel

/-- An empty variable takes it over. -/
theorem Inv.putIn (hI : s.Inv (moved + y.held)) (hslot : ¬s.IsSlot c) (hx : s.cells[c]? = some x)
    (hempty : x.held = 0) : Inv { s with cells := s.cells.set c y } moved := by
  refine hI.setVariable hx hslot s.heap hI.heap ?_
  rw [hempty]
  abel

/-- The oldest handle of a producer is taken from the queue. -/
theorem Inv.takeFirst (hI : s.Inv moved) {producer : ℕ} (h : ∃ e ∈ s.queue, e.1 = producer) :
    ∃ e queue, Lib.takeFirst Prod.fst producer s.queue = some (e, queue) ∧ e.2 ≠ 0 ∧
      Inv { s with queue } (moved + Cell.held { handle := e.2 }) := by
  obtain ⟨e, queue, htake⟩ := Lib.exists_takeFirst h
  have hentries := Heap.entries_perm (Lib.perm_takeFirst htake)
  rw [Heap.entries_cons] at hentries
  have hmem : (e.2, 0) ∈ s.heap.live := by
    rw [← hI.ledger, hentries]
    simp
  have hne := hI.heap.ne_zero hmem
  refine ⟨e, queue, htake, hne, ?_⟩
  refine hI.setQueue s.heap hI.heap ?_
  rw [hentries, Cell.held_of_idle hne]
  abel

theorem Inv.destroyCell (hI : s.Inv 0) (hfree : s.Free c) :
    ∃ heap, s.destroyCell c = some { s with
        heap
        cells := s.cells.set c {} } ∧
      Inv { s with
        heap
        cells := s.cells.set c {} } 0 := by
  obtain ⟨hslot, x, (hx : s.cells[c]? = some x), hidle⟩ := hfree
  obtain ⟨heap, hdestroy, hheap, hlive⟩ := Cell.destroy_spec hI.heap hidle (hI.held_le hx)
  refine ⟨heap, by simp [State.destroyCell, hx, hdestroy], ?_⟩
  refine hI.setVariable hx hslot heap hheap ?_
  rw [Cell.held_empty, ← hlive]
  abel

theorem step_create (hI : s.Inv 0) {address : UInt64} {commandSize : Option ℕ}
    (hok : s.Allowed (.create address commandSize)) :
    ∃ s', s.step (.create address commandSize) = some s' ∧ s'.Inv 0 := by
  obtain ⟨hne, hal, hfresh⟩ := hok
  obtain ⟨hheap, hhandle, hlive⟩ := hI.heap.create hne hal hfresh commandSize
  refine ⟨_, rfl, hI.addCell (s.heap.create address commandSize).1 hheap ?_⟩
  exact congrArg (· + 0) (hlive.trans (by rw [← Cell.held_of_idle hhandle]; rfl))

theorem step_moveConstruct (hI : s.Inv 0) (hfree : s.Free c) :
    ∃ s', s.step (.moveConstruct c) = some s' ∧ s'.Inv 0 := by
  obtain ⟨hslot, handle, hx⟩ := hfree.cell
  refine ⟨_, by simp only [step, hx, Option.bind_eq_bind, Option.bind_some]; rfl, ?_⟩
  have hout := hI.takeOut hslot hx
  refine hout.addCell s.heap hI.heap ?_
  abel

theorem step_moveAssign (hI : s.Inv 0) {d : ℕ} (hc : s.Free c) (hd : s.Free d) :
    ∃ s', s.step (.moveAssign c d) = some s' ∧ s'.Inv 0 := by
  obtain ⟨hslotc, handle, hx⟩ := hc.cell
  obtain ⟨hslotd, handle', hy⟩ := hd.cell
  by_cases hzero : handle = 0
  · subst hzero
    refine ⟨{ s with cells := (s.cells.set c { handle := handle' }).set d {} }, ?_, ?_⟩
    · simp [step, hx, hy]
    by_cases hcd : c = d
    · subst hcd
      obtain rfl : handle' = 0 := by simpa using hy.symm.trans hx
      rw [set_self hx, set_self hx]
      exact hI
    · have hout := hI.takeOut hslotd hy
      have hx' : (s.cells.set d {})[c]? = some {} := by rw [List.getElem?_set_ne (Ne.symm hcd), hx]
      have hin := hout.putIn (y := { handle := handle' }) hslotc hx' Cell.held_empty
      rwa [List.set_comm _ _ (Ne.symm hcd)] at hin
  · exact ⟨s, by simp [step, hx, hy, hzero], hI⟩

theorem step_enqueue (hI : s.Inv 0) {producer : ℕ} (hfree : s.Free c) :
    ∃ s', s.step (.enqueue producer c) = some s' ∧ s'.Inv 0 := by
  obtain ⟨hslot, handle, hx⟩ := hfree.cell
  by_cases hzero : handle = 0
  · exact ⟨s, by simp [step, hx, hzero], hI⟩
  · refine ⟨_, by simp only [step, hx, hzero, Option.bind_eq_bind, Option.bind_some, if_false]; rfl, ?_⟩
    have hout := hI.takeOut hslot hx
    refine hout.setQueue s.heap hI.heap ?_
    rw [Heap.entries_append, Heap.entries_cons, Cell.held_of_idle hzero]
    simp only [Heap.entries, List.map_nil, Multiset.coe_nil]
    abel

theorem step_tryDequeue (hI : s.Inv 0) {producer : Option ℕ} (hfree : s.Free c)
    (hqueue : ∀ p ∈ producer, ∃ e ∈ s.queue, e.1 = p) :
    ∃ s', s.step (.tryDequeue c producer) = some s' ∧ s'.Inv 0 := by
  obtain ⟨heap, hdestroy, hI'⟩ := hI.destroyCell hfree
  cases producer with
  | none => exact ⟨_, by simp only [step, hdestroy, Option.bind_eq_bind, Option.bind_some]; rfl, hI'⟩
  | some p =>
    obtain ⟨hslot, handle, hx⟩ := hfree.cell
    obtain ⟨e, queue, htake, -, htaken⟩ := hI'.takeFirst (hqueue p rfl)
    refine ⟨_, by simp only [step, hdestroy, htake, Option.bind_eq_bind, Option.bind_some]; rfl, ?_⟩
    obtain ⟨hlt, -⟩ := List.getElem?_eq_some_iff.mp hx
    exact htaken.putIn hslot (List.getElem?_set_self hlt) Cell.held_empty

theorem step_callExecute (hI : s.Inv 0) : ∃ s', s.step .callExecute = some s' ∧ s'.Inv 0 := by
  refine ⟨_, rfl, hI.heap, ?_, ?_, ?_, hI.dropped⟩
  · rw [← hI.ledger]
    simp [Cell.held_empty]
  · intro f hf
    rcases List.mem_append.mp hf with hf | hf
    · exact (hI.frames f hf).append _
    · obtain rfl := List.mem_singleton.mp hf
      refine ⟨by simp, le_rfl, Nat.zero_le _, fun j x hj hx => ?_⟩
      rw [List.getElem?_append_right (Nat.le_add_right ..), Nat.add_sub_cancel_left,
        List.getElem?_replicate_of_lt hj] at hx
      obtain rfl := Option.some.inj hx
      simp
  · rw [List.map_append, List.pairwise_append]
    refine ⟨hI.apart, by simp, fun a ha b hb => ?_⟩
    obtain ⟨f, hf, rfl⟩ := List.mem_map.mp ha
    obtain rfl : b = s.cells.length := by simpa using hb
    exact (hI.frames f hf).range

/-- **A dequeue finds its slot empty.** -/
theorem step_dequeue (hI : s.Inv 0) {k producer : ℕ} (hok : s.Allowed (.dequeue k producer)) :
    ∃ s', s.step (.dequeue k producer) = some s' ∧ s'.Inv 0 := by
  obtain ⟨hqueue, ⟨f, _⟩, hcurrent, (hi : f.i = 0), (hlt : f.dequeued < elems), -⟩ := hok
  obtain ⟨hf, -⟩ := current_eq_some hcurrent
  have hf' := hI.frames f (List.mem_of_getElem? hf)
  obtain ⟨e, queue, htake, hne, hI'⟩ := hI.takeFirst hqueue
  obtain ⟨x, hx⟩ : ∃ x, s.cells[f.base + f.dequeued]? = some x := by
    have := hf'.range
    exact ⟨_, List.getElem?_eq_getElem (by omega)⟩
  have hzero : x.handle = 0 := by
    have := (hf'.slot f.dequeued x hlt hx).1
    by_contra hne
    exact absurd (this.mp hne).2 (lt_irrefl _)
  refine ⟨_, by simp only [step, hf, htake, hx, hzero, Option.bind_eq_bind, Option.bind_some]; rfl, ?_⟩
  refine hI'.setSlot hf { f with dequeued := f.dequeued + 1 } rfl hx ⟨by omega, by omega⟩ ?_ s.heap
    hI.heap ?_
  · refine hf'.update hx (f.dequeued + 1) f.i (Nat.le_succ_of_le hf'.come) hlt ?_ (by simp) (by omega)
    simpa [hne] using hf'.come
  · rw [show x.held = 0 by simp [Cell.held, hzero]]
    abel

theorem step_beginSlot (hI : s.Inv 0) {k : ℕ} (hok : s.Allowed (.beginSlot k)) :
    ∃ s', s.step (.beginSlot k) = some s' ∧ s'.Inv 0 := by
  obtain ⟨⟨f, x⟩, hcurrent, (hlt : f.i < f.dequeued), hidle⟩ := hok
  obtain ⟨hf, hx⟩ := current_eq_some hcurrent
  have hf' := hI.frames f (List.mem_of_getElem? hf)
  have hfilled := hf'.filled
  obtain ⟨heap, hbegin, hheap, hlive⟩ := Cell.begin_spec hI.heap hidle (hI.held_le hx)
  refine ⟨_, by simp only [step, hf, beginCell, hx, hbegin, Option.bind_eq_bind, Option.bind_some]; rfl, ?_⟩
  have hset : Inv _ 0 := hI.setSlot (y := { x with executing := true }) hf f rfl hx ⟨by omega, by omega⟩ ?_
    heap hheap (by rw [add_zero, add_zero, add_comm, ← hlive]; abel)
  · rwa [set_self hf] at hset
  · exact hf'.update hx f.dequeued f.i hf'.come hfilled (hf'.slot f.i x (by omega) hx).1
      (fun _ => ⟨rfl, hlt⟩) (by omega)

theorem step_finishSlot (hI : s.Inv 0) {k : ℕ} (hok : s.Allowed (.finishSlot k)) :
    ∃ s', s.step (.finishSlot k) = some s' ∧ s'.Inv 0 := by
  obtain ⟨⟨f, x⟩, hcurrent, (hlt : f.i < f.dequeued), hbusy⟩ := hok
  obtain ⟨hf, hx⟩ := current_eq_some hcurrent
  have hf' := hI.frames f (List.mem_of_getElem? hf)
  have hfilled := hf'.filled
  obtain ⟨heap, hfinish, hheap, hlive⟩ := Cell.finish_spec hI.heap hbusy (hI.held_le hx)
  refine ⟨_, by
    simp only [step, hf, finishCell, hx, hfinish, Option.bind_eq_bind, Option.bind_some]; rfl, ?_⟩
  refine hI.setSlot hf { f with i := f.i + 1 } rfl hx ⟨by omega, by omega⟩ ?_ heap hheap ?_
  · exact hf'.update hx f.dequeued (f.i + 1) hlt hfilled (by simp) (by simp) (by omega)
  · rw [Cell.held_empty, ← hlive]
    abel

theorem step_nextBulk (hI : s.Inv 0) {k : ℕ} (hok : s.Allowed (.nextBulk k)) :
    ∃ s', s.step (.nextBulk k) = some s' ∧ s'.Inv 0 := by
  obtain ⟨f, (hf : s.frames[k]? = some f), hi⟩ := hok
  have hf' := hI.frames f (List.mem_of_getElem? hf)
  obtain ⟨x, hx⟩ : ∃ x, s.cells[f.base]? = some x := by
    have := hf'.range
    exact ⟨_, List.getElem?_eq_getElem (by unfold elems at this; omega)⟩
  refine ⟨_, by simp only [step, hf, Option.bind_eq_bind, Option.bind_some]; rfl, ?_⟩
  have hset : Inv _ 0 := hI.setSlot (y := x) hf { f with
      dequeued := 0
      i := 0 } rfl hx ⟨le_rfl, by unfold elems; omega⟩ ?_ s.heap hI.heap rfl
  · rwa [set_self hx] at hset
  · rw [set_self hx]
    refine ⟨hf'.range, le_rfl, Nat.zero_le _, fun j y hj hy => ?_⟩
    obtain ⟨hhandle, hexec⟩ := hf'.slot j y hj hy
    constructor
    · rw [hhandle]
      change _ ↔ 0 ≤ j ∧ j < 0
      omega
    · intro h
      obtain ⟨hji, hjd⟩ := hexec h
      omega

theorem step_deleteQueue (hI : s.Inv 0) : ∃ s', s.step .deleteQueue = some s' ∧ s'.Inv 0 := by
  have hledger := hI.ledger
  rw [add_zero] at hledger
  obtain ⟨heap, hfold, hheap, hrest⟩ := hI.heap.foldlM_destroy s.queue hledger
  refine ⟨_, by simp only [step, hfold, Option.bind_eq_bind, Option.bind_some]; rfl, ?_⟩
  refine hI.setQueue heap hheap ?_
  rw [← hledger, hrest]
  simp [Heap.entries]

/-- **No step of an allowed program uses what was released,** and every one keeps the invariant. -/
theorem step_total (hI : s.Inv 0) {op : Op} (hok : s.Allowed op) :
    ∃ s', s.step op = some s' ∧ s'.Inv 0 := by
  cases op with
  | create address commandSize => exact step_create hI hok
  | moveConstruct c => exact step_moveConstruct hI hok
  | moveAssign c d => exact step_moveAssign hI hok.1 hok.2
  | destroy c =>
    obtain ⟨heap, hdestroy, hI'⟩ := hI.destroyCell hok
    exact ⟨_, hdestroy, hI'⟩
  | beginExecute c =>
    obtain ⟨hslot, x, (hx : s.cells[c]? = some x), hidle⟩ := hok
    obtain ⟨heap, hbegin, hheap, hlive⟩ := Cell.begin_spec hI.heap hidle (hI.held_le hx)
    refine ⟨_, by simp only [step, beginCell, hx, hbegin, Option.bind_eq_bind, Option.bind_some]; rfl, ?_⟩
    refine hI.setVariable hx hslot heap hheap ?_
    rw [add_zero, add_zero, add_comm, ← hlive]
    abel
  | finishExecute c =>
    obtain ⟨hslot, x, (hx : s.cells[c]? = some x), hbusy⟩ := hok
    obtain ⟨heap, hfinish, hheap, hlive⟩ := Cell.finish_spec hI.heap hbusy (hI.held_le hx)
    refine ⟨_, by simp only [step, finishCell, hx, hfinish, Option.bind_eq_bind, Option.bind_some]; rfl, ?_⟩
    refine hI.setVariable hx hslot heap hheap ?_
    rw [Cell.held_empty, ← hlive]
    abel
  | enqueue producer c => exact step_enqueue hI hok
  | tryDequeue c producer => exact step_tryDequeue hI hok.1 hok.2
  | callExecute => exact step_callExecute hI
  | dequeue f producer => exact step_dequeue hI hok
  | beginSlot f => exact step_beginSlot hI hok
  | finishSlot f => exact step_finishSlot hI hok
  | nextBulk f => exact step_nextBulk hI hok
  | deleteQueue => exact step_deleteQueue hI

/-! ### Whole runs -/

/-- The handles that are not empty, but for those of coroutines that have been resumed and are about
to be emptied. -/
def handles (s : State) : List UInt64 :=
  s.queue.map Prod.snd ++ ((s.cells.filter fun x =>
    x.handle ≠ 0 ∧ ¬(x.executing = true ∧ typeOf x.handle = COROUTINE_HANDLE)).map Cell.handle)

/-- **Every command is owned by one handle until it ends, once.** -/
structure Exact (s : State) : Prop where
  /-- every object that was created is alive or has ended, once -/
  accounted : (s.heap.objects.map Object.id ++ s.heap.ended.map (·.1.id)).Perm
    (List.range s.heap.created)
  /-- what was released had been executed once; what was destroyed or resumed had not -/
  once : ∀ e ∈ s.heap.ended, e.1.executions = if e.2 = .released then 1 else 0
  /-- what is alive has been executed at most once -/
  alive : ∀ o ∈ s.heap.objects, o.executions ≤ 1
  /-- what is alive has exactly one handle -/
  owned : s.handles.Perm (s.heap.objects.map Object.handle)
  unique : s.handles.Nodup
  /-- no slot has refused a command -/
  dropped : s.dropped = 0
  /-- a call of `Execute` that has worked through its commands leaves none behind -/
  emptied : ∀ f ∈ s.frames, f.i = f.dequeued → ∀ j < elems,
    (s.cells[f.base + j]?).map Cell.handle = some 0

/-- The handles are those of the ledger. -/
theorem coe_handles (s : State) : (s.handles : Multiset UInt64) =
    (Heap.entries s.queue + (s.cells.map Cell.held).sum).map Prod.fst := by
  have hcells : ∀ cells : List Cell, (((cells.filter fun x =>
      x.handle ≠ 0 ∧ ¬(x.executing = true ∧ typeOf x.handle = COROUTINE_HANDLE)).map Cell.handle :
        List UInt64) : Multiset UInt64) = ((cells.map Cell.held).sum).map Prod.fst := by
    intro cells
    induction cells with
    | nil => rfl
    | cons x cells ih =>
      rw [List.map_cons, List.sum_cons, Multiset.map_add, ← ih, List.filter_cons]
      by_cases hzero : x.handle = 0
      · simp [Cell.held, hzero]
      · by_cases hexec : x.executing = true
        · by_cases htype : typeOf x.handle = COROUTINE_HANDLE
          · simp [Cell.held, Heap.running, hexec, htype]
          · simp [Cell.held, Heap.running, hzero, hexec, htype]
        · simp [Cell.held, hzero, hexec]
  rw [handles, ← Multiset.coe_add, hcells, Multiset.map_add]
  simp [Heap.entries, Function.comp_def]

/-- What the cells hold was executed at most once. -/
theorem le_one_of_mem_held {cells : List Cell} {e : UInt64 × ℕ} (h : e ∈ (cells.map Cell.held).sum) :
    e.2 ≤ 1 := by
  induction cells with
  | nil => simp at h
  | cons x cells ih =>
    rw [List.map_cons, List.sum_cons] at h
    rcases Multiset.mem_add.mp h with hx | hcells
    · unfold Cell.held Heap.running at hx
      split_ifs at hx
      · simp at hx
      · simp at hx
      · rw [Multiset.mem_singleton.mp hx]
      · rw [Multiset.mem_singleton.mp hx]
        exact Nat.zero_le 1
    · exact ih hcells

theorem Inv.exact (hI : s.Inv 0) : s.Exact := by
  have hledger := hI.ledger
  rw [add_zero] at hledger
  have howned : s.handles.Perm (s.heap.objects.map Object.handle) := by
    rw [← Multiset.coe_eq_coe, coe_handles, hledger]
    simp [Heap.live, Function.comp_def, Object.entry]
  constructor
  · exact hI.heap.ids
  · exact hI.heap.fates
  · intro o ho
    have hmem : o.entry ∈ s.heap.live := Multiset.mem_coe.mpr (List.mem_map_of_mem ho)
    rw [← hledger] at hmem
    rcases Multiset.mem_add.mp hmem with hq | hc
    · obtain ⟨e, -, he⟩ := List.mem_map.mp (Multiset.mem_coe.mp hq)
      rw [← show (e.2, 0).2 = o.executions from congrArg Prod.snd he]
      exact Nat.zero_le 1
    · exact le_one_of_mem_held hc
  · exact howned
  · rw [howned.nodup_iff]
    refine List.Nodup.of_map pointer ?_
    have haddress : (s.heap.objects.map Object.handle).map pointer = s.heap.objects.map Object.address := by
      rw [List.map_map]
      exact List.map_congr_left fun o ho => Object.pointer_handle (hI.heap.valid o ho).2
    rw [haddress]
    exact hI.heap.addresses
  · exact hI.dropped
  · intro f hf hi j hj
    have hf' := hI.frames f hf
    have hrange := hf'.range
    have hlt : f.base + j < s.cells.length := by omega
    rw [List.getElem?_eq_getElem hlt, Option.map_some]
    have hslot := (hf'.slot j _ hj (List.getElem?_eq_getElem hlt)).1
    by_contra hne
    have := hslot.mp fun hzero => hne (by rw [hzero])
    omega

/-- Two threads enqueue a command, a coroutine and a command; a call of `Execute` takes the first
two, the first of which calls `Execute` in turn; the last one is destroyed with the queue. -/
def nestedCalls : List Op :=
  [.create 64 (some 40), .create 128 none, .create 192 (some 48), .enqueue 0 0, .enqueue 1 1,
    .enqueue 1 2, .callExecute, .dequeue 0 0, .dequeue 0 1, .beginSlot 0, .callExecute, .nextBulk 1,
    .finishSlot 0, .beginSlot 0, .create 128 none, .finishSlot 0, .nextBulk 0, .deleteQueue]

end State

end Handles
end ICon7
