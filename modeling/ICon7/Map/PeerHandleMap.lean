/-
# The map from peer handles to values

`MapPeerHandleInLoop` of `include/icon7/MapPeerHandle.hpp`: a sparse vector of
offsets by peer id, and two dense vectors with the ids and the values.

`Get` and `Remove` give up when `entityDataOffsets.size() >= id`, and otherwise read
`entityDataOffsets[id]`: they give up wherever there is something to read, and read
where there is nothing (`get_eq`).  So no value is ever found, and a `Set` or `Access`
never finds one to return; behind the insertion there is no return statement.

An access out of range and a failed assertion are `none`.  A reference is the place in
`denseData` that it refers to, and `none` where the function ends without returning one.
-/

import Mathlib.Data.List.AList
import ICon7.Peer.Manager
import ICon7.Lib.Run

namespace ICon7

open Lib

/-- `MapPeerHandleInLoop`. -/
structure MapPeerHandleInLoop (T : Type) where
  entityDataOffsets : List ℕ := []
  denseDataEntityIds : List PeerId := []
  denseData : List T := []
  loop : ℕ
deriving DecidableEq, Repr

namespace MapPeerHandleInLoop

variable {T : Type}

/-- What both `Get`s do first: the offset at which the handle is found, `0` where it is not. -/
def offsetOf (m : MapPeerHandleInLoop T) (handle : PeerHandle) : Option ℕ := do
  guard (handle.loop = some m.loop)
  guard (m.denseData.length = m.denseDataEntityIds.length)
  if m.entityDataOffsets.length ≥ handle.id then return 0
  let offset ← m.entityDataOffsets[handle.id]?
  if offset = 0 then return 0
  guard (m.denseDataEntityIds.length > offset)
  let id ← m.denseDataEntityIds[offset - 1]?
  if id ≠ handle.peerId then return 0
  return offset

/-- `Get`, as a place; the inner `none` is the null pointer. -/
def get (m : MapPeerHandleInLoop T) (handle : PeerHandle) : Option (Option ℕ) := do
  let offset ← m.offsetOf handle
  if offset = 0 then return none
  guard (offset - 1 < m.denseData.length)
  return some (offset - 1)

/-- The `Get` of a constant map, which does not subtract. -/
def getConst (m : MapPeerHandleInLoop T) (handle : PeerHandle) : Option (Option ℕ) := do
  let offset ← m.offsetOf handle
  if offset = 0 then return none
  guard (offset < m.denseData.length)
  return some offset

/-- `std::vector::resize`. -/
def resize {α : Type} (l : List α) (n : ℕ) (a : α) : List α := l.take n ++ List.replicate (n - l.length) a

/-- `Set` and, with a default value, `Access`: the map and the reference that is returned. -/
def set (m : MapPeerHandleInLoop T) (handle : PeerHandle) (value : T) :
    Option (MapPeerHandleInLoop T × Option ℕ) := do
  guard (handle.loop = some m.loop)
  guard (m.denseData.length = m.denseDataEntityIds.length)
  match ← m.get handle with
  | some place => return (m, some place)
  | none =>
    let entityDataOffsets :=
      if m.entityDataOffsets.length ≤ handle.id then
        resize m.entityDataOffsets ((handle.id + 1) % 2 ^ 32) 0
      else m.entityDataOffsets
    let offset := m.denseData.length % 2 ^ 32
    guard (handle.id < entityDataOffsets.length)
    -- no return statement follows
    return ({ m with
      entityDataOffsets := entityDataOffsets.set handle.id offset
      denseDataEntityIds := m.denseDataEntityIds ++ [handle.peerId]
      denseData := m.denseData ++ [value] }, none)

/-- `Access`. -/
def access [Inhabited T] (m : MapPeerHandleInLoop T) (handle : PeerHandle) :
    Option (MapPeerHandleInLoop T × Option ℕ) :=
  m.set handle default

/-- `Remove`. -/
def remove (m : MapPeerHandleInLoop T) (handle : PeerHandle) : Option (MapPeerHandleInLoop T) := do
  let offset ← m.offsetOf handle
  if offset = 0 then return m
  let last := (2 ^ 32 - 1 + m.denseData.length) % 2 ^ 32
  let moved := (2 ^ 32 - 1 + last) % 2 ^ 32
  let (m, id) ←
    if last ≠ offset then do
      let value ← m.denseData[moved]?
      let peerId ← m.denseDataEntityIds[moved]?
      pure ({ m with
        denseData := m.denseData.set (offset - 1) value
        denseDataEntityIds := m.denseDataEntityIds.set (offset - 1) peerId }, peerId.1)
    else pure (m, handle.id)
  guard (id < m.entityDataOffsets.length)
  return { m with
    entityDataOffsets := m.entityDataOffsets.set id offset
    denseDataEntityIds := m.denseDataEntityIds.dropLast
    denseData := m.denseData.dropLast }

/-- `Size`. -/
def size (m : MapPeerHandleInLoop T) : ℕ := m.denseData.length % 2 ^ 32

/-- What a program calls. -/
inductive Op (T : Type) where
  | set (handle : PeerHandle) (value : T)
  | access (handle : PeerHandle)
  | remove (handle : PeerHandle)
deriving DecidableEq, Repr

/-- The handle that an operation is about. -/
def Op.handle : Op T → PeerHandle
  | set handle _ | access handle | remove handle => handle

variable [Inhabited T]

/-- An operation; one that has to return a reference does. -/
def step (m : MapPeerHandleInLoop T) : Op T → Option (MapPeerHandleInLoop T)
  | .set handle value => do
    let (m, reference) ← m.set handle value
    let _ ← reference
    return m
  | .access handle => do
    let (m, reference) ← m.access handle
    let _ ← reference
    return m
  | .remove handle => m.remove handle

def run (m : MapPeerHandleInLoop T) (ops : List (Op T)) : Option (MapPeerHandleInLoop T) :=
  ops.foldlM step m

/-- The operation on the associations. -/
def Op.spec (f : AList fun _ : PeerId => T) : Op T → AList fun _ : PeerId => T
  | set handle value => f.insert handle.peerId value
  | access handle => if handle.peerId ∈ f then f else f.insert handle.peerId default
  | remove handle => f.erase handle.peerId

/-- The associations after the operations. -/
def associations (ops : List (Op T)) : AList fun _ : PeerId => T := ops.foldl Op.spec ∅

/-- **The map is one from ids and versions to values,** as far as the operations and a lookup
show: every access is in range, both `Get`s return the value of the handle, and `Size` is the
number of associations. -/
def IsMap (loop : ℕ) (ops : List (Op T)) (h : PeerHandle) : Prop :=
  ∃ m, run { loop } ops = some m ∧
    (m.get h).map (·.bind (m.denseData[·]?)) = some ((associations ops).lookup h.peerId) ∧
    (m.getConst h).map (·.bind (m.denseData[·]?)) = some ((associations ops).lookup h.peerId) ∧
    m.size = (associations ops).entries.length

variable {m : MapPeerHandleInLoop T} {h : PeerHandle}

section Lookup

variable (hl : h.loop = some m.loop) (hd : m.denseData.length = m.denseDataEntityIds.length)
include hl hd

omit [Inhabited T] in
/-- **No handle is ever found:** its id is below the size of the sparse vector, or behind the end
of it. -/
theorem offsetOf_eq :
    m.offsetOf h = if h.id ≤ m.entityDataOffsets.length then some 0 else none := by
  simp only [offsetOf, guard, hl, hd, if_true, Option.bind_eq_bind, Option.pure_def, Option.bind_some]
  split_ifs with hle
  · rfl
  · rw [List.getElem?_eq_none (Nat.le_of_not_le hle)]
    rfl

omit [Inhabited T] in
theorem get_eq : m.get h = if h.id ≤ m.entityDataOffsets.length then some none else none := by
  rw [get, offsetOf_eq hl hd]
  split_ifs <;> rfl

omit [Inhabited T] in
theorem getConst_eq : m.getConst h = if h.id ≤ m.entityDataOffsets.length then some none else none := by
  rw [getConst, offsetOf_eq hl hd]
  split_ifs <;> rfl

omit [Inhabited T] in
/-- `Remove` removes nothing. -/
theorem remove_eq : m.remove h = if h.id ≤ m.entityDataOffsets.length then some m else none := by
  rw [remove, offsetOf_eq hl hd]
  split_ifs <;> rfl

omit [Inhabited T] in
/-- `Set` never returns a reference. -/
theorem set_returns_none (value : T) {m' : MapPeerHandleInLoop T} {reference : Option ℕ}
    (hs : m.set h value = some (m', reference)) : reference = none := by
  simp only [set, get_eq hl hd, Option.bind_eq_bind, Option.bind_eq_some_iff, Option.pure_def] at hs
  obtain ⟨-, -, -, -, place, hget, hs⟩ := hs
  split_ifs at hget
  obtain rfl := Option.some.inj hget
  obtain ⟨-, -, hs⟩ := Option.bind_eq_some_iff.mp hs
  exact (Prod.mk.inj (Option.some.inj hs)).2.symm

end Lookup

/-- The operation is the removal of a handle of the peer with id `0`. -/
def Op.Idle (op : Op T) : Prop := ∃ g, op = .remove g ∧ g.id = 0

/-- **A step of the map without entries** fails, or is idle and changes nothing. -/
theorem step_empty_iff {loop : ℕ} {op : Op T} (hl : op.handle.loop = some loop) :
    step { loop } op = some m ↔ op.Idle ∧ m = { loop } := by
  cases op with
  | set g value =>
    refine ⟨fun hs => ?_, fun h => by obtain ⟨⟨g, hg, -⟩, -⟩ := h; simp at hg⟩
    simp only [step, Option.bind_eq_bind, Option.bind_eq_some_iff, Prod.exists] at hs
    obtain ⟨m', reference, hset, place, hplace, -⟩ := hs
    rw [set_returns_none hl rfl value hset] at hplace
    simp at hplace
  | access g =>
    refine ⟨fun hs => ?_, fun h => by obtain ⟨⟨g, hg, -⟩, -⟩ := h; simp at hg⟩
    simp only [step, access, Option.bind_eq_bind, Option.bind_eq_some_iff, Prod.exists] at hs
    obtain ⟨m', reference, hset, place, hplace, -⟩ := hs
    rw [set_returns_none hl rfl default hset] at hplace
    simp at hplace
  | remove g =>
    have hidle : (Op.remove g : Op T).Idle ↔ g.id = 0 :=
      ⟨fun ⟨g', hg, h0⟩ => by obtain rfl := Op.remove.inj hg; exact h0, fun h0 => ⟨g, rfl, h0⟩⟩
    rw [step, remove_eq hl rfl, hidle]
    simp only [List.length_nil, Nat.le_zero]
    split_ifs with h0
    · simp [h0, eq_comm]
    · simp [h0]

/-- **A run of the map without entries** is idle throughout, or fails. -/
theorem run_empty_iff {loop : ℕ} {ops : List (Op T)} (hl : ∀ op ∈ ops, op.handle.loop = some loop) :
    run { loop } ops = some m ↔ (∀ op ∈ ops, op.Idle) ∧ m = { loop } := by
  induction ops with
  | nil => simp [run, eq_comm]
  | cons op ops ih =>
    have ih := ih fun op hop => hl op (List.mem_cons_of_mem _ hop)
    rw [run, foldlM_cons_eq_some, List.forall_mem_cons]
    constructor
    · rintro ⟨m₁, hstep, hrun⟩
      obtain ⟨hidle, rfl⟩ := (step_empty_iff (hl op List.mem_cons_self)).mp hstep
      obtain ⟨hrest, rfl⟩ := ih.mp hrun
      exact ⟨⟨hidle, hrest⟩, rfl⟩
    · rintro ⟨⟨hidle, hrest⟩, rfl⟩
      exact ⟨{ loop }, (step_empty_iff (hl op List.mem_cons_self)).mpr ⟨hidle, rfl⟩,
        ih.mpr ⟨hrest, rfl⟩⟩

/-- Idle operations make no associations. -/
theorem associations_of_idle {ops : List (Op T)} (h : ∀ op ∈ ops, op.Idle) : associations ops = ∅ := by
  induction ops with
  | nil => rfl
  | cons op ops ih =>
    obtain ⟨⟨g, rfl, -⟩, hrest⟩ := List.forall_mem_cons.mp h
    exact ih hrest

/-- **When the map is a map:** when nothing is ever put into it, and nothing but the peer id `0`
is removed or looked up. -/
theorem isMap_iff (loop : ℕ) (ops : List (Op T)) (h : PeerHandle)
    (hops : ∀ op ∈ ops, op.handle.loop = some loop) (hl : h.loop = some loop) :
    IsMap loop ops h ↔ (∀ op ∈ ops, op.Idle) ∧ h.id = 0 := by
  have hget : ({ loop } : MapPeerHandleInLoop T).get h = if h.id = 0 then some none else none := by
    rw [get_eq hl rfl]
    exact if_congr (Nat.le_zero) rfl rfl
  have hconst : ({ loop } : MapPeerHandleInLoop T).getConst h = if h.id = 0 then some none else none := by
    rw [getConst_eq hl rfl]
    exact if_congr (Nat.le_zero) rfl rfl
  constructor
  · rintro ⟨m, hrun, hval, -⟩
    obtain ⟨hidle, rfl⟩ := (run_empty_iff hops).mp hrun
    refine ⟨hidle, ?_⟩
    by_contra h0
    rw [hget, if_neg h0] at hval
    simp at hval
  · rintro ⟨hidle, h0⟩
    refine ⟨{ loop }, (run_empty_iff hops).mpr ⟨hidle, rfl⟩, ?_, ?_, ?_⟩
    · rw [hget, if_pos h0, associations_of_idle hidle]
      rfl
    · rw [hconst, if_pos h0, associations_of_idle hidle]
      rfl
    · rw [associations_of_idle hidle]
      rfl

/-- `isMap_iff` on the removal of a handle with id `0`. -/
theorem isMap_iff_idle : IsMap (T := ℕ) 7 [.remove ⟨0, 1, some 7⟩] ⟨0, 2, some 7⟩ :=
  (isMap_iff 7 _ _ (by decide) rfl).mpr ⟨by simp [Op.Idle], rfl⟩

/-- A value that is set is not found, and a handle with id `1` is looked for behind the end of
the empty vector. -/
theorem set_not_found : ∃ m : MapPeerHandleInLoop ℕ,
    set { loop := 7 } ⟨0, 1, some 7⟩ 5 = some (m, none) ∧ m.size = 1 ∧
      m.get ⟨0, 1, some 7⟩ = some none ∧ m.getConst ⟨0, 1, some 7⟩ = some none ∧
      ({ loop := 7 } : MapPeerHandleInLoop ℕ).get ⟨1, 1, some 7⟩ = none := by
  refine ⟨_, rfl, ?_⟩
  decide

end MapPeerHandleInLoop
end ICon7
