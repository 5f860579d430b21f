/-
# The set of peers to flush

`PeersToFlush` of `src/PeersToFlush.cpp`: the ids of the peers that may have
something to send, in a vector, and for every id its position there or `-1`.
An id is removed by moving the last one into its place.  `WF` says that the
second vector is the table of positions of the first, and both operations keep
it (`insertPeerToFlush_spec`, `removePeerToFlush_spec`).

Ids are `uint32_t` and offsets `int32_t` in the source, natural numbers and integers
here.  With ids below `2 ^ 31` no offset is beyond its type (`run_offsets_fit`).
-/

import ICon7.Lib.Run
import ICon7.Lib.SwapRemove

namespace ICon7

structure PeersToFlush where
  peers : List ℕ := []
  offsets : List ℤ := []
deriving DecidableEq, Repr

namespace PeersToFlush

open Lib

/-- `InsertPeerToFlush`. -/
def insertPeerToFlush (f : PeersToFlush) (peer : ℕ) : PeersToFlush :=
  let offsets := f.offsets ++ List.replicate (peer + 1 - f.offsets.length) (-1)
  if 0 ≤ offsets.getD peer (-1) then { f with offsets }
  else { peers := f.peers ++ [peer], offsets := offsets.set peer f.peers.length }

/-- `RemovePeerToFlush`; `none` is a failed assertion or an access out of range. -/
def removePeerToFlush (f : PeersToFlush) (peer : ℕ) : Option PeersToFlush := do
  if f.offsets.length ≤ peer then return f
  let off ← f.offsets[peer]?
  if off < 0 then return f
  guard (0 < f.peers.length)
  let off := off.toNat
  let offsets := f.offsets.set peer (-1)
  if off + 1 ≠ f.peers.length then
    let last ← f.peers.getLast?
    guard (off < f.peers.length ∧ last < offsets.length)
    return { peers := (f.peers.set off last).dropLast, offsets := offsets.set last off }
  else
    return { peers := f.peers.dropLast, offsets }

/-- The position of an id according to `offsets`. -/
def pos (f : PeersToFlush) (peer : ℕ) : Option ℕ :=
  match f.offsets[peer]? with
  | some (.ofNat i) => some i
  | _ => none

/-- **The invariant:** `offsets[p] = i ≥ 0` exactly when `peers[i] = p`. -/
def WF (f : PeersToFlush) : Prop := Positions f.peers f.pos

variable {f : PeersToFlush} {p i : ℕ}

theorem pos_eq_some_iff : f.pos p = some i ↔ f.offsets[p]? = some (i : ℤ) := by
  unfold pos
  split <;> simp_all

theorem WF.nodup (h : f.WF) : f.peers.Nodup := Positions.nodup h

/-- Membership can be read off the offset. -/
theorem WF.mem_iff (h : f.WF) : p ∈ f.peers ↔ ∃ i : ℕ, f.offsets[p]? = some (i : ℤ) := by
  rw [Positions.mem_iff h]
  simp only [pos_eq_some_iff]

theorem wf_empty : WF {} := by
  intro a i
  simp [pos]

/-- Writing an offset is writing the table of positions. -/
theorem pos_set {o : ℤ} {peers : List ℕ} {q : Option ℕ} (hp : p < f.offsets.length)
    (ho : pos ⟨[], [o]⟩ 0 = q) :
    pos ⟨peers, f.offsets.set p o⟩ = Function.update f.pos p q := by
  funext q
  rcases eq_or_ne q p with rfl | hne
  · rw [Function.update_self, ← ho]
    simp [pos, hp]
  · simp [pos, Function.update_of_ne hne, List.getElem?_set_ne hne.symm]

/-- Padding `offsets` with `-1` does not change the table of positions. -/
theorem pos_pad (n : ℕ) : pos ⟨f.peers, f.offsets ++ List.replicate n (-1)⟩ = f.pos := by
  funext q
  rcases lt_or_ge q f.offsets.length with hq | hq
  · simp [pos, List.getElem?_append_left hq]
  · simp only [pos, List.getElem?_append_right hq, List.getElem?_eq_none hq, List.getElem?_replicate]
    split_ifs <;> rfl

/-- **Inserting an id** adds it and nothing else. -/
theorem insertPeerToFlush_spec (h : f.WF) (p : ℕ) :
    (f.insertPeerToFlush p).WF ∧ ∀ q, q ∈ (f.insertPeerToFlush p).peers ↔ q ∈ f.peers ∨ q = p := by
  set g : PeersToFlush :=
    ⟨f.peers, f.offsets ++ List.replicate (p + 1 - f.offsets.length) (-1)⟩ with hg
  have hgpos : g.pos = f.pos := pos_pad _
  have hgwf : g.WF := by rw [WF, hgpos]; exact h
  have hlt : p < g.offsets.length := by simp [hg]; omega
  obtain ⟨o, ho⟩ : ∃ o, g.offsets[p]? = some o := ⟨_, List.getElem?_eq_getElem hlt⟩
  have heq : f.insertPeerToFlush p = if 0 ≤ o then g else
      ⟨f.peers ++ [p], g.offsets.set p f.peers.length⟩ := by
    rw [insertPeerToFlush, List.getD_eq_getElem?_getD, ho]
    rfl
  rw [heq]
  split_ifs with hpos
  · have hmem : p ∈ f.peers := by
      rw [← show g.peers = f.peers from rfl, hgwf.mem_iff]
      exact ⟨o.toNat, by rw [ho, Int.toNat_of_nonneg hpos]⟩
    refine ⟨hgwf, fun q => ⟨.inl, ?_⟩⟩
    rintro (hq | rfl)
    · exact hq
    · exact hmem
  · have hnone : f.pos p = none := by
      rw [← hgpos, pos, ho]
      rcases o with n | n
      · exact absurd (Int.natCast_nonneg n) hpos
      · rfl
    refine ⟨?_, fun q => by simp⟩
    rw [WF, pos_set hlt rfl, hgpos]
    exact Positions.concat h hnone

/-- Removing an id that is not there does nothing. -/
theorem removePeerToFlush_of_not_mem (h : f.WF) (hp : p ∉ f.peers) :
    f.removePeerToFlush p = some f := by
  unfold removePeerToFlush
  rcases hlt : f.offsets[p]? with _ | o
  · rw [List.getElem?_eq_none_iff] at hlt
    rw [if_pos hlt]
    rfl
  · obtain ⟨hlen, -⟩ := List.getElem?_eq_some_iff.mp hlt
    have hneg : o < 0 := by
      by_contra hpos
      exact hp (h.mem_iff.mpr ⟨o.toNat, by rw [hlt, Int.toNat_of_nonneg (by omega)]⟩)
    rw [if_neg (by omega)]
    simp [hneg]

/-- **Removing an id** moves the last one into its place. -/
theorem removePeerToFlush_of_mem (h : f.WF) (hp : f.peers[i]? = some p) :
    ∃ f', f.removePeerToFlush p = some f' ∧ f'.WF ∧ f'.peers = swapRemove f.peers i := by
  have hpos : f.pos p = some i := (h p i).mpr hp
  have hoff := pos_eq_some_iff.mp hpos
  obtain ⟨hi, -⟩ := List.getElem?_eq_some_iff.mp hp
  obtain ⟨hlen, -⟩ := List.getElem?_eq_some_iff.mp hoff
  obtain ⟨last, hlast⟩ : ∃ b, f.peers.getLast? = some b :=
    ⟨_, List.getLast?_eq_getElem?.trans (List.getElem?_eq_getElem (by omega))⟩
  have hwf := Positions.swapRemove h hpos hlast
  have hlastpos : f.pos last = some (f.peers.length - 1) := by
    rw [h last, ← List.getLast?_eq_getElem?, hlast]
  have hset : (f.peers.set i last).dropLast = swapRemove f.peers i := by simp [swapRemove, hlast]
  have hhead : f.removePeerToFlush p = (do
      if i + 1 ≠ f.peers.length then
        guard (i < f.peers.length ∧ last < (f.offsets.set p (-1)).length)
        return { peers := swapRemove f.peers i
                 offsets := (f.offsets.set p (-1)).set last i : PeersToFlush }
      else return { peers := f.peers.dropLast, offsets := f.offsets.set p (-1) }) := by
    simp only [removePeerToFlush, hoff, if_neg (by omega : ¬f.offsets.length ≤ p), guard,
      if_pos (by omega : 0 < f.peers.length), hlast, Int.toNat_natCast, hset, Option.bind_eq_bind,
      Option.bind_some, Option.pure_def, if_neg (by omega : ¬(i : ℤ) < 0)]
  rw [hhead]
  have hpl : f.offsets[last]? = some ((f.peers.length - 1 : ℕ) : ℤ) := pos_eq_some_iff.mp hlastpos
  obtain ⟨hlastlt, -⟩ := List.getElem?_eq_some_iff.mp hpl
  split_ifs with hne
  · refine ⟨⟨swapRemove f.peers i, (f.offsets.set p (-1)).set last i⟩, ?_, ?_, rfl⟩
    · simp [guard, hi, hlastlt]
    · rw [WF, pos_set (f := ⟨f.peers, f.offsets.set p (-1)⟩) (by simpa using hlastlt) rfl,
        pos_set hlen rfl]
      rwa [Function.update_comm]
      rintro rfl
      rw [hpos, Option.some.injEq] at hlastpos
      omega
  · obtain rfl : last = p := by
      rw [List.getLast?_eq_getElem?, show f.peers.length - 1 = i by omega, hp] at hlast
      exact (Option.some.inj hlast).symm
    have hdrop : swapRemove f.peers i = f.peers.dropLast := by
      rw [← hset, show f.peers.set i last = f.peers from ?_]
      rw [show last = f.peers[i] by exact (List.getElem?_eq_some_iff.mp hp).2.symm,
        List.set_getElem_self]
    refine ⟨⟨f.peers.dropLast, f.offsets.set last (-1)⟩, rfl, ?_, hdrop.symm⟩
    rw [WF, pos_set hlen rfl]
    rwa [hdrop, Function.update_idem] at hwf

/-- After a removal the others are still there. -/
theorem removePeerToFlush_spec (h : f.WF) (p : ℕ) :
    ∃ f', f.removePeerToFlush p = some f' ∧ f'.WF ∧ ∀ q, q ∈ f'.peers ↔ q ∈ f.peers ∧ q ≠ p := by
  by_cases hp : p ∈ f.peers
  · obtain ⟨i, hi⟩ := List.mem_iff_getElem?.mp hp
    obtain ⟨f', hrun, hwf, hpeers⟩ := removePeerToFlush_of_mem h hi
    exact ⟨f', hrun, hwf, fun q => by rw [hpeers, Positions.mem_swapRemove h ((h p i).mpr hi)]⟩
  · refine ⟨f, removePeerToFlush_of_not_mem h hp, h, fun q => ⟨fun hq => ⟨hq, ?_⟩, And.left⟩⟩
    rintro rfl
    exact hp hq

/-! ### Offsets fit their type -/

/-- What a loop does to the set. -/
inductive Op where
  | insert (peer : ℕ)
  | remove (peer : ℕ)
deriving DecidableEq, Repr

def Op.peer : Op → ℕ
  | insert peer => peer
  | remove peer => peer

def step (f : PeersToFlush) : Op → Option PeersToFlush
  | .insert peer => some (f.insertPeerToFlush peer)
  | .remove peer => f.removePeerToFlush peer

def run (f : PeersToFlush) (ops : List Op) : Option PeersToFlush := ops.foldlM step f

/-- The ids are below the bound, and no offset is below `-1`. -/
structure Within (n : ℕ) (f : PeersToFlush) : Prop where
  wf : f.WF
  ids : ∀ p ∈ f.peers, p < n
  offsets : ∀ o ∈ f.offsets, -1 ≤ o

/-- Distinct ids below the bound are no more than it. -/
theorem Within.length_le {n : ℕ} (h : Within n f) : f.peers.length ≤ n := by
  have hsub : f.peers ⊆ List.range n := fun p hp => List.mem_range.mpr (h.ids p hp)
  simpa using (List.subperm_of_subset h.wf.nodup hsub).length_le

/-- An offset that is not `-1` is a position. -/
theorem Within.offset_lt {n : ℕ} (h : Within n f) : ∀ o ∈ f.offsets, -1 ≤ o ∧ o < n := by
  intro o ho
  refine ⟨h.offsets o ho, ?_⟩
  rcases lt_or_ge o 0 with hneg | hpos
  · omega
  · obtain ⟨p, hp⟩ := List.mem_iff_getElem?.mp ho
    rw [← Int.toNat_of_nonneg hpos, ← pos_eq_some_iff, h.wf p o.toNat] at hp
    have hlt := (List.getElem?_eq_some_iff.mp hp).1
    have hle := h.length_le
    omega

theorem mem_set_offsets {offsets : List ℤ} {o v : ℤ} (hle : ∀ o ∈ offsets, -1 ≤ o) (hv : -1 ≤ v)
    (ho : o ∈ offsets.set p v) : -1 ≤ o := by
  rcases List.mem_or_eq_of_mem_set ho with ho | rfl
  · exact hle o ho
  · exact hv

theorem Within.insert {n : ℕ} (h : Within n f) (hp : p < n) : Within n (f.insertPeerToFlush p) := by
  obtain ⟨hw, hmem⟩ := insertPeerToFlush_spec h.wf p
  refine ⟨hw, fun q hq => ?_, fun o ho => ?_⟩
  · rcases (hmem q).mp hq with hq | rfl
    · exact h.ids q hq
    · exact hp
  · have hpad : ∀ o ∈ f.offsets ++ List.replicate (p + 1 - f.offsets.length) (-1), -1 ≤ o := by
      intro o ho
      rcases List.mem_append.mp ho with ho | ho
      · exact h.offsets o ho
      · rw [List.eq_of_mem_replicate ho]
    unfold insertPeerToFlush at ho
    simp only at ho
    split_ifs at ho
    · exact hpad o ho
    · exact mem_set_offsets hpad (by omega) ho

theorem Within.remove {n : ℕ} (h : Within n f) {f' : PeersToFlush}
    (hrun : f.removePeerToFlush p = some f') : Within n f' := by
  obtain ⟨g, hg, hw, hmem⟩ := removePeerToFlush_spec h.wf p
  obtain rfl := Option.some.inj (hg.symm.trans hrun)
  refine ⟨hw, fun q hq => h.ids q ((hmem q).mp hq).1, ?_⟩
  have hclear : ∀ o ∈ f.offsets.set p (-1), -1 ≤ o := fun o ho => mem_set_offsets h.offsets le_rfl ho
  unfold removePeerToFlush at hrun
  split_ifs at hrun
  · obtain rfl := Option.some.inj hrun
    exact h.offsets
  obtain ⟨off, -, hrun⟩ := Option.bind_eq_some_iff.mp hrun
  split_ifs at hrun with hneg
  · obtain rfl := Option.some.inj hrun
    exact h.offsets
  simp only [Option.bind_eq_bind, Option.bind_eq_some_iff] at hrun
  obtain ⟨-, -, hrun⟩ := hrun
  split_ifs at hrun
  · obtain ⟨last, -, hrun⟩ := Option.bind_eq_some_iff.mp hrun
    obtain ⟨-, -, hrun⟩ := Option.bind_eq_some_iff.mp hrun
    obtain rfl := Option.some.inj hrun
    exact fun o ho => mem_set_offsets hclear (by omega) ho
  · obtain rfl := Option.some.inj hrun
    exact hclear

/-- **Offsets fit their type.**  After every sequence of insertions and removals of ids below a bound,
the set has no more ids than the bound, and every offset is `-1` or below it.  At the bound `2 ^ 31`
these are values of `int32_t`. -/
theorem run_offsets_fit (n : ℕ) (ops : List Op) (hids : ∀ op ∈ ops, op.peer < n) :
    ∃ f, run {} ops = some f ∧ f.WF ∧ f.peers.length ≤ n ∧ ∀ o ∈ f.offsets, -1 ≤ o ∧ o < n := by
  have hstep (f : PeersToFlush) (op : Op) (h : Within n f) (hop : op.peer < n) :
      ∃ f', f.step op = some f' ∧ Within n f' := by
    cases op with
    | insert peer => exact ⟨_, rfl, h.insert hop⟩
    | remove peer =>
      obtain ⟨f', hrun, -⟩ := removePeerToFlush_spec h.wf peer
      exact ⟨f', hrun, h.remove hrun⟩
  have hinit : Within n {} := ⟨wf_empty, by simp, by simp⟩
  obtain ⟨f, hrun, h⟩ := run_total hstep ops hinit hids
  exact ⟨f, hrun, h.wf, h.length_le, h.offset_lt⟩

end PeersToFlush
end ICon7
