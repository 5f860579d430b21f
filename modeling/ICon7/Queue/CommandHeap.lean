/-
# What command handles point to

`CommandHandle` (`include/icon7/Command.hpp`) is the address of a command or of a
suspended coroutine, with the kind in its low three bits.  `Create` makes the object and
its handle; what the handle points to is released by `Execute` or by `Destroy`.

The heap here is the objects that handles stand for, with the number of times that
`Execute` was called on each.  An access to an address at which no such object lives is
`none`.  As long as every handle that is used has an entry in `live`, no access fails and
every object that was created is alive or has ended, once (`Heap.Inv`).
-/

import Mathlib.Tactic

namespace ICon7
namespace Handles

/-! ### Handles -/

def REGULAR_COMMAND : UInt64 := 0
def COROUTINE_HANDLE : UInt64 := 1
def COMMAND_BITS_MASK : UInt64 := 7

/-- The kind in the low bits. -/
def typeOf (handle : UInt64) : UInt64 := handle &&& COMMAND_BITS_MASK

/-- The address. -/
def pointer (handle : UInt64) : UInt64 := handle &&& ~~~COMMAND_BITS_MASK

/-- An address that leaves the low bits to the kind. -/
def Aligned (address : UInt64) : Prop := address &&& COMMAND_BITS_MASK = 0

instance (address : UInt64) : Decidable (Aligned address) := inferInstanceAs (Decidable (_ = _))

/-- What is in memory: a command with its `_commandSize` and the number of calls of its `Execute`,
or, without a size, the frame of a suspended coroutine. -/
structure Object where
  address : UInt64
  id : ℕ
  commandSize : Option ℕ
  executions : ℕ := 0
deriving DecidableEq, Repr

/-- The handle of an object. -/
def Object.handle (o : Object) : UInt64 :=
  if o.commandSize.isSome then o.address else o.address ||| COROUTINE_HANDLE

/-- How an object has ended: released behind its execution, destroyed, or resumed, from where on
the coroutine is on its own. -/
inductive Fate where
  | released
  | destroyed
  | resumed
deriving DecidableEq, Repr

/-! ### The heap -/

/-- The objects that handles stand for, the number of objects that were created, and what became
of those that are gone. -/
structure Heap where
  objects : List Object := []
  created : ℕ := 0
  ended : List (Object × Fate) := []
deriving DecidableEq, Repr

namespace Heap

/-- An access to memory; `none` if nothing lives there. -/
def objectAt (m : Heap) (address : UInt64) : Option Object :=
  m.objects.find? fun o => o.address = address

def release (m : Heap) (o : Object) (fate : Fate) : Heap :=
  { m with
    objects := m.objects.erase o
    ended := m.ended ++ [(o, fate)] }

/-- `CommandHandle::Create`, for a command or for a coroutine. -/
def create (m : Heap) (address : UInt64) (commandSize : Option ℕ) : Heap × UInt64 :=
  let o : Object := { address, id := m.created, commandSize }
  ({ m with
    objects := o :: m.objects
    created := m.created + 1 }, o.handle)

/-- `Destroy`.  A command is accessed as a command and a coroutine as a coroutine. -/
def destroy (m : Heap) (handle : UInt64) : Option Heap :=
  if pointer handle = 0 then some m
  else if typeOf handle = REGULAR_COMMAND then do
    let o ← m.objectAt (pointer handle)
    guard o.commandSize.isSome
    return m.release o .destroyed
  else if typeOf handle = COROUTINE_HANDLE then do
    let o ← m.objectAt (pointer handle)
    guard o.commandSize.isNone
    return m.release o .destroyed
  else some m

/-- `Execute`, up to the call of the command or of the coroutine. -/
def beginExecute (m : Heap) (handle : UInt64) : Option Heap :=
  if pointer handle = 0 then some m
  else if typeOf handle = REGULAR_COMMAND then do
    let o ← m.objectAt (pointer handle)
    guard o.commandSize.isSome
    return { m with
      objects := { o with executions := o.executions + 1 } :: m.objects.erase o }
  else if typeOf handle = COROUTINE_HANDLE then do
    let o ← m.objectAt (pointer handle)
    guard o.commandSize.isNone
    return m.release o .resumed
  else some m

/-- `Execute`, behind that call. -/
def finishExecute (m : Heap) (handle : UInt64) : Option Heap :=
  if pointer handle = 0 then some m
  else if typeOf handle = REGULAR_COMMAND then do
    let o ← m.objectAt (pointer handle)
    guard o.commandSize.isSome
    return m.release o .released
  else some m

end Heap

/-! ### Addresses and kinds -/

theorem pointer_of_aligned {a : UInt64} (h : Aligned a) : pointer a = a := by
  have hsplit : a &&& (COMMAND_BITS_MASK ||| ~~~COMMAND_BITS_MASK) =
      (a &&& COMMAND_BITS_MASK) ||| (a &&& ~~~COMMAND_BITS_MASK) :=
    UInt64.toBitVec_inj.mp BitVec.and_or_distrib_left
  rw [show a &&& COMMAND_BITS_MASK = 0 from h, UInt64.zero_or] at hsplit
  rw [pointer, ← hsplit]
  exact UInt64.and_neg_one

theorem or_and (a b m : UInt64) : (a ||| b) &&& m = (a &&& m) ||| (b &&& m) :=
  UInt64.toBitVec_inj.mp BitVec.and_or_distrib_right

namespace Object

variable {o : Object}

theorem pointer_handle (h : Aligned o.address) : pointer o.handle = o.address := by
  unfold handle
  split_ifs
  · exact pointer_of_aligned h
  · rw [pointer, or_and]
    exact (congrArg (· ||| (COROUTINE_HANDLE &&& ~~~COMMAND_BITS_MASK)) (pointer_of_aligned h)).trans
      UInt64.or_zero

theorem typeOf_handle (h : Aligned o.address) :
    typeOf o.handle = if o.commandSize.isSome then REGULAR_COMMAND else COROUTINE_HANDLE := by
  unfold handle
  split_ifs
  · exact h
  · rw [typeOf, or_and, show o.address &&& COMMAND_BITS_MASK = 0 from h]
    rfl

end Object

/-! ### What the heap keeps -/

/-- An object as its holder sees it. -/
def Object.entry (o : Object) : UInt64 × ℕ := (o.handle, o.executions)

namespace Heap

/-- The objects that are alive. -/
def live (m : Heap) : Multiset (UInt64 × ℕ) := m.objects.map Object.entry

/-- **Every object that was created is alive or has ended, once;** it was executed before it was
released, and not at all before it was destroyed or resumed. -/
structure Inv (m : Heap) : Prop where
  addresses : (m.objects.map Object.address).Nodup
  valid : ∀ o ∈ m.objects, o.address ≠ 0 ∧ Aligned o.address
  ids : (m.objects.map Object.id ++ m.ended.map (·.1.id)).Perm (List.range m.created)
  fates : ∀ e ∈ m.ended, e.1.executions = if e.2 = .released then 1 else 0

variable {m : Heap} {o : Object} {h : UInt64} {n : ℕ}

theorem Inv.empty : Inv {} where
  addresses := List.nodup_nil
  valid := by simp
  ids := .nil
  fates := by simp

/-- An entry is that of an object, which is found at its address. -/
theorem Inv.objectAt (hm : m.Inv) (hmem : (h, n) ∈ m.live) :
    ∃ o ∈ m.objects, o.entry = (h, n) ∧ m.objectAt (pointer h) = some o ∧ pointer h ≠ 0 ∧
      typeOf h = if o.commandSize.isSome then REGULAR_COMMAND else COROUTINE_HANDLE := by
  obtain ⟨o, ho, hentry⟩ := List.mem_map.mp (Multiset.mem_coe.mp hmem)
  obtain ⟨hne, hal⟩ := hm.valid o ho
  obtain rfl : o.handle = h := congrArg Prod.fst hentry
  have hfind : ∀ l : List Object, (l.map Object.address).Nodup → o ∈ l →
      l.find? (fun x => x.address = o.address) = some o := by
    intro l hnodup hmem
    induction l with
    | nil => cases hmem
    | cons x l ih =>
      obtain ⟨hx, hl⟩ := List.nodup_cons.mp hnodup
      rcases List.mem_cons.mp hmem with rfl | hmem
      · simp
      · have hxo : x.address ≠ o.address := fun heq => hx (heq ▸ List.mem_map_of_mem hmem)
        simpa [hxo] using ih hl hmem
  refine ⟨o, ho, hentry, ?_, ?_, Object.typeOf_handle hal⟩
  · rw [Heap.objectAt, Object.pointer_handle hal]
    exact hfind m.objects hm.addresses ho
  · rwa [Object.pointer_handle hal]

/-- The entry of an object that is released is gone. -/
theorem live_release (ho : o ∈ m.objects) (fate : Fate) :
    (m.release o fate).live + {o.entry} = m.live := by
  have hperm := (List.perm_cons_erase ho).map Object.entry
  rw [live, live, Multiset.coe_eq_coe.mpr hperm, add_comm]
  rfl

theorem Inv.release (hm : m.Inv) (ho : o ∈ m.objects) {fate : Fate}
    (hfate : o.executions = if fate = .released then 1 else 0) : (m.release o fate).Inv where
  addresses := hm.addresses.sublist (List.erase_sublist.map _)
  valid := fun x hx => hm.valid x (List.mem_of_mem_erase hx)
  ids := by
    have hperm := (List.perm_cons_erase ho).map Object.id
    refine List.Perm.trans ?_ ((hperm.append_right _).symm.trans hm.ids)
    simp only [Heap.release, List.map_append, List.map_cons, List.map_nil, ← List.append_assoc]
    exact (List.perm_append_singleton _ _)
  fates := by
    intro e he
    rcases List.mem_append.mp he with he | he
    · exact hm.fates e he
    · obtain rfl := List.mem_singleton.mp he
      exact hfate

/-- `Destroy`, on the handle of an object that was not executed. -/
theorem Inv.destroy (hm : m.Inv) (hmem : (h, 0) ∈ m.live) :
    ∃ m', m.destroy h = some m' ∧ m'.Inv ∧ m'.live + {(h, 0)} = m.live := by
  obtain ⟨o, ho, hentry, hat, hne, htype⟩ := hm.objectAt hmem
  have hzero : o.executions = 0 := congrArg Prod.snd hentry
  refine ⟨m.release o .destroyed, ?_, hm.release ho (by simp [hzero]), hentry ▸ live_release ho _⟩
  cases hsize : o.commandSize with
  | none => simp [Heap.destroy, hne, htype, hsize, hat, guard, COROUTINE_HANDLE, REGULAR_COMMAND]
  | some size => simp [Heap.destroy, hne, htype, hsize, hat, guard]

/-- What `Execute` leaves of the entry of its handle while it runs: a command that was executed
once, and nothing of a coroutine. -/
def running (h : UInt64) : Multiset (UInt64 × ℕ) :=
  if typeOf h = COROUTINE_HANDLE then 0 else {(h, 1)}

/-- `Execute` begins, on the handle of an object that was not executed. -/
theorem Inv.beginExecute (hm : m.Inv) (hmem : (h, 0) ∈ m.live) :
    ∃ m', m.beginExecute h = some m' ∧ m'.Inv ∧ m'.live + {(h, 0)} = m.live + running h := by
  obtain ⟨o, ho, hentry, hat, hne, htype⟩ := hm.objectAt hmem
  have hzero : o.executions = 0 := congrArg Prod.snd hentry
  cases hsize : o.commandSize with
  | none =>
    refine ⟨m.release o .resumed, ?_, hm.release ho (by simp [hzero]), ?_⟩
    · simp [Heap.beginExecute, hne, htype, hsize, hat, guard, COROUTINE_HANDLE, REGULAR_COMMAND]
    · rw [← hentry, live_release ho]
      simp [running, htype, hsize]
  | some size =>
    set o' : Object := { o with executions := o.executions + 1 } with ho'
    refine ⟨{ m with objects := o' :: m.objects.erase o }, ?_, ?_, ?_⟩
    · simp [Heap.beginExecute, hne, htype, hsize, hat, guard, ho']
    · -- the object is the same, but for the count
      have hperm : (o :: m.objects.erase o).Perm m.objects := (List.perm_cons_erase ho).symm
      constructor
      · exact (hperm.map Object.address).nodup_iff.mpr hm.addresses
      · intro x hx
        rcases List.mem_cons.mp hx with rfl | hx
        · exact hm.valid o ho
        · exact hm.valid x (List.mem_of_mem_erase hx)
      · exact ((hperm.map Object.id).append_right _).trans hm.ids
      · exact hm.fates
    · have hlive : m.live = {o.entry} + (m.objects.erase o).map Object.entry :=
        Multiset.coe_eq_coe.mpr ((List.perm_cons_erase ho).map Object.entry)
      have hlive' : live { m with objects := o' :: m.objects.erase o } =
          {(h, 1)} + (m.objects.erase o).map Object.entry := by
        have hentry' : o'.entry = (h, 1) := by
          rw [show o'.entry = (o.entry.1, o.entry.2 + 1) from rfl, hentry]
        rw [← hentry']
        rfl
      have hrunning : running h = {(h, 1)} := by
        simp [running, htype, hsize, REGULAR_COMMAND, COROUTINE_HANDLE]
      rw [hlive, hlive', hrunning, hentry]
      abel

/-- `Execute` ends, on the handle of a command that was executed once. -/
theorem Inv.finishExecute (hm : m.Inv) (hmem : (h, 1) ∈ m.live) (htype : typeOf h ≠ COROUTINE_HANDLE) :
    ∃ m', m.finishExecute h = some m' ∧ m'.Inv ∧ m'.live + {(h, 1)} = m.live := by
  obtain ⟨o, ho, hentry, hat, hne, hsize⟩ := hm.objectAt hmem
  have hone : o.executions = 1 := congrArg Prod.snd hentry
  refine ⟨m.release o .released, ?_, hm.release ho (by simp [hone]), hentry ▸ live_release ho _⟩
  have hcommand : o.commandSize.isSome := by
    by_contra hnone
    rw [if_neg hnone] at hsize
    exact htype hsize
  simp [Heap.finishExecute, hne, hsize, hcommand, hat, guard]

/-- `Execute` of a coroutine ends. -/
theorem finishExecute_coroutine (m : Heap) (htype : typeOf h = COROUTINE_HANDLE) :
    m.finishExecute h = some m := by
  simp [Heap.finishExecute, htype, COROUTINE_HANDLE, REGULAR_COMMAND]

theorem Inv.create (hm : m.Inv) {address : UInt64} (hne : address ≠ 0) (hal : Aligned address)
    (hfresh : ∀ o ∈ m.objects, o.address ≠ address) (commandSize : Option ℕ) :
    (m.create address commandSize).1.Inv ∧ (m.create address commandSize).2 ≠ 0 ∧
      (m.create address commandSize).1.live = m.live + {((m.create address commandSize).2, 0)} := by
  refine ⟨?_, ?_, ?_⟩
  · constructor
    · refine List.nodup_cons.mpr ⟨fun hmem => ?_, hm.addresses⟩
      obtain ⟨o, ho, heq⟩ := List.mem_map.mp hmem
      exact hfresh o ho heq
    · intro x hx
      rcases List.mem_cons.mp hx with rfl | hx
      · exact ⟨hne, hal⟩
      · exact hm.valid x hx
    · change (m.created :: (m.objects.map Object.id ++ m.ended.map _)).Perm (List.range (m.created + 1))
      rw [List.range_succ]
      exact (hm.ids.cons _).trans (List.perm_append_singleton _ _).symm
    · exact hm.fates
  · intro hzero
    have hpointer : pointer (m.create address commandSize).2 = address := Object.pointer_handle hal
    rw [hzero] at hpointer
    exact hne hpointer.symm
  · rw [add_comm]
    rfl

theorem Inv.ne_zero (hm : m.Inv) (hmem : (h, n) ∈ m.live) : h ≠ 0 := by
  rintro rfl
  obtain ⟨-, -, -, -, hne, -⟩ := hm.objectAt hmem
  exact hne rfl

/-- The objects that a queue holds. -/
def entries (queue : List (ℕ × UInt64)) : Multiset (UInt64 × ℕ) := queue.map fun e => (e.2, 0)

theorem entries_cons (e : ℕ × UInt64) (queue : List (ℕ × UInt64)) :
    entries (e :: queue) = {(e.2, 0)} + entries queue := rfl

theorem entries_append (q r : List (ℕ × UInt64)) : entries (q ++ r) = entries q + entries r := by
  simp [entries]

theorem entries_perm {q r : List (ℕ × UInt64)} (h : q.Perm r) : entries q = entries r :=
  Multiset.coe_eq_coe.mpr (h.map _)

/-- Destroying the handles of a queue takes their objects out. -/
theorem Inv.foldlM_destroy (queue : List (ℕ × UInt64)) {rest : Multiset (UInt64 × ℕ)} (hm : m.Inv)
    (hlive : entries queue + rest = m.live) :
    ∃ m', queue.foldlM (fun m e => m.destroy e.2) m = some m' ∧ m'.Inv ∧ rest = m'.live := by
  induction queue generalizing m with
  | nil => exact ⟨m, rfl, hm, by simpa [entries] using hlive⟩
  | cons e queue ih =>
    rw [entries_cons] at hlive
    obtain ⟨m₁, hdestroy, hm₁, hlive₁⟩ := hm.destroy (h := e.2) (by rw [← hlive]; simp)
    have heq : entries queue + rest = m₁.live := by
      apply add_right_cancel (b := {(e.2, 0)})
      rw [hlive₁, ← hlive]
      abel
    obtain ⟨m₂, hfold, hm₂⟩ := ih hm₁ heq
    exact ⟨m₂, by simp [hdestroy, hfold], hm₂⟩

end Heap

end Handles
end ICon7
