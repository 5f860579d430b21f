/-
# Queued frames

`SendFrameStruct` of `include/icon7/SendFrameStruct.hpp`: a handle of a frame and how many of its bytes
have been sent.  Its move assignment moves the handle and then sets the source's `storage` to
`nullptr`.  The move assignment of `ByteBufferReadable` leaves both handles as they are when they point
to the same storage, so that the source is still counted when its pointer is overwritten.  A frame that
is queued twice and moved onto itself is then counted once too often and never freed
(`moveAssign_leaks`).  In all other cases the count is right (`moveAssign_iff`).
-/

import ICon7.Framing.Exactness

namespace ICon7
namespace Framing

/-- `SendFrameStruct`; `data` is the number of its `ByteBufferReadable` among the objects. -/
structure SendFrameStruct where
  data : ℕ
  bytesSent : ℕ

namespace SendFrameStruct

open Sharing

/-- `operator=(SendFrameStruct &&)`: the objects, the target and the source afterwards. -/
def moveAssign (s : Sharing) (target o : SendFrameStruct) :
    Option (Sharing × SendFrameStruct × SendFrameStruct) := do
  let s ← s.moveAssign target.data o.data
  -- `o.data.storage = nullptr`, without `unref`
  let s := { s with handles := s.handles.set o.data none }
  return (s, { target with bytesSent := o.bytesSent }, o)

/-- Both hold the same storage. -/
def SameFrame (s : Sharing) (target o : SendFrameStruct) : Prop :=
  ∃ h ∈ s.handle target.data, ∃ h' ∈ s.handle o.data, h.storage = h'.storage

variable {s s' : Sharing} {i j : ℕ} {h : Handle}

/-- Handles of one storage are equal. -/
theorem handle_eq_of_sameStorage (hs : s.Core) (hi : s.handle i = some h)
    (hsame : s.sameStorage i j = true) : s.handle j = some h := by
  unfold sameStorage at hsame
  rw [hi, decide_eq_true_iff, Option.map_some, eq_comm, Option.map_eq_some_iff] at hsame
  obtain ⟨h', hj, hstorage⟩ := hsame
  have hframe := (hs.exact.frame_iff i j h hi h' hj).2 hstorage.symm
  rw [hj]
  obtain ⟨a, f⟩ := h
  obtain ⟨a', f'⟩ := h'
  simp only at hstorage hframe
  rw [hstorage, hframe]

/-- Where the handles do not point to one storage, moving assigns the handle and leaves a null one. -/
theorem moveAssign_of_ne (hs : s.Core) (hij : i ≠ j) (hi : i < s.handles.length)
    (hsame : s.sameStorage i j = false) :
    ∃ s', s.moveAssign i j = some s' ∧ s'.Core ∧ s'.handle i = s.handle j ∧ s'.handle j = none := by
  obtain ⟨s', hmove, hcore, -⟩ := hs.moveAssign hi j
  refine ⟨s', hmove, hcore, ?_⟩
  unfold Sharing.moveAssign at hmove
  rw [hsame, if_neg (by decide), Option.bind_eq_bind, Option.bind_eq_some_iff] at hmove
  obtain ⟨s₁, hdestroy, hmove⟩ := hmove
  obtain ⟨_, hdestroy', -, -, hnull, hset⟩ := hs.destroy i
  obtain rfl := Option.some.inj (hdestroy.symm.trans hdestroy')
  have hj : s₁.handle j = s.handle j := by
    unfold handle
    rw [hset, handle_set_of_ne hij.symm]
  cases hcase : s.handle j with
  | none =>
    rw [hj, hcase] at hmove
    obtain rfl := Option.some.inj hmove
    exact ⟨hnull, hj.trans hcase⟩
  | some h =>
    rw [hj, hcase] at hmove
    obtain rfl := Option.some.inj hmove
    have hlen : i < s₁.handles.length := by rwa [hset, List.length_set]
    have hlen' : j < s₁.handles.length := by rw [hset, List.length_set]; exact lt_of_handle hcase
    constructor
    · simp only [handle]
      rw [handle_set_of_ne hij, List.getElem?_set_self hlen]
      rfl
    · simp only [handle]
      rw [List.getElem?_set_self (by rwa [List.length_set])]
      rfl

/-- A handle that is nulled and not uncounted. -/
theorem not_exact_of_nulled (hs : s.Core) (hij : i ≠ j) (hi : s.handle i = some h)
    (hj : s.handle j = some h) : ¬Exact { s with handles := s.handles.set j none } := by
  intro hexact
  have hlen := lt_of_handle hj
  have hi' : ({ s with handles := s.handles.set j none } : Sharing).handle i = some h :=
    (handle_set_of_ne hij none s.handles).trans hi
  obtain ⟨x, hget, hcount⟩ := hs.exact.refCounter i h hi
  obtain ⟨x', hget', hcount'⟩ := hexact.refCounter i h hi'
  obtain rfl := Option.some.inj (hget.symm.trans hget')
  have hcell : s.handles[j] = some h := by
    have hjoin : s.handles[j]?.join = some h := hj
    rwa [List.getElem?_eq_getElem hlen, Option.join_some] at hjoin
  -- the counter says that no handle has gone
  have hsame : s.count h.storage = (s.handles.set j none).countP fun o => o.any (·.storage = h.storage) :=
    hcount.symm.trans hcount'
  have hpos : 0 < s.count h.storage :=
    List.countP_pos_iff.2 ⟨some h, hcell ▸ List.getElem_mem hlen, by simp⟩
  rw [List.countP_set hlen, hcell] at hsame
  simp only [Option.any_some, decide_true, if_true, Option.any_none, Bool.false_eq_true, if_false] at hsame
  unfold count at hsame hpos
  omega

/-- **Moving a queued frame.**  The target gets the source's frame and `bytesSent` and the source is
empty, in every case.  The storages are counted exactly afterwards if and only if the two frames did not
hold the same storage before. -/
theorem moveAssign_iff (hs : s.Core) {target o : SendFrameStruct} (hne : target.data ≠ o.data)
    (htarget : target.data < s.handles.length) :
    ∃ (s' : Sharing) (target' o' : SendFrameStruct), moveAssign s target o = some (s', target', o') ∧
      s'.handle target.data = s.handle o.data ∧ target'.bytesSent = o.bytesSent ∧
      s'.handle o.data = none ∧ (s'.Exact ↔ ¬SameFrame s target o) := by
  cases hsame : s.sameStorage target.data o.data with
  | false =>
    obtain ⟨s', hmove, hcore, htarget', ho'⟩ := moveAssign_of_ne hs hne htarget hsame
    refine ⟨s', { target with bytesSent := o.bytesSent }, o, ?_, htarget', rfl, ho', fun _ => ?_,
      fun _ => hcore.exact⟩
    · rw [moveAssign, hmove]
      simp only [Option.bind_eq_bind, Option.bind_some, Option.pure_def]
      rw [set_none_of_join ho']
    · rintro ⟨h, hh, h', hh', hstorage⟩
      rw [Option.mem_def] at hh hh'
      rw [sameStorage, hh, hh', decide_eq_false_iff_not] at hsame
      exact hsame (congrArg some hstorage)
  | true =>
    have hmove : s.moveAssign target.data o.data = some s := by rw [Sharing.moveAssign, if_pos hsame]
    refine ⟨{ s with handles := s.handles.set o.data none }, { target with bytesSent := o.bytesSent }, o,
      by rw [moveAssign, hmove]; rfl, ?_⟩
    have hset : ({ s with handles := s.handles.set o.data none } : Sharing).handle target.data =
        s.handle target.data := handle_set_of_ne hne none s.handles
    cases hcase : s.handle target.data with
    | none =>
      have ho : s.handle o.data = none := by
        rw [sameStorage, hcase, decide_eq_true_iff, Option.map_none, eq_comm, Option.map_eq_none_iff] at hsame
        exact hsame
      have hjoin : s.handles[o.data]?.join = none := ho
      rw [set_none_of_join hjoin]
      refine ⟨hcase.trans ho.symm, rfl, ho, fun _ => ?_, fun _ => hs.exact⟩
      rintro ⟨h, hh, -⟩
      rw [hcase] at hh
      cases hh
    | some h =>
      have ho := handle_eq_of_sameStorage hs hcase hsame
      refine ⟨hset.trans (hcase.trans ho.symm), rfl, ?_, ?_⟩
      · simp only [handle]
        rw [List.getElem?_set_self (lt_of_handle ho)]
        rfl
      · refine ⟨fun hexact => absurd hexact (not_exact_of_nulled hs hne hcase ho), fun hno => ?_⟩
        exact absurd ⟨h, hcase, h, ho, rfl⟩ hno

/-- Two frames are made and shared, as handles `2` and `3`. -/
def shareTwo : List Action :=
  shareOne ++ [.newWritable,
    .write 1 ⟨⟨List.replicate 100 0, 2, 64, 36, 0⟩, ⟨by decide, by decide, by decide⟩, by decide⟩,
    .construct 1]

/-- One queued frame replaces another. -/
theorem moveAssign_iff_two : ∃ (s s' : Sharing) (target' o' : SendFrameStruct),
    Sharing.run .zeroed {} shareTwo = some s ∧ moveAssign s ⟨2, 0⟩ ⟨3, 7⟩ = some (s', target', o') ∧
      s'.handle 2 = s.handle 3 ∧ target'.bytesSent = 7 ∧ s'.Exact := by
  obtain ⟨s, hrun, hI, -⟩ := inv_start.run .zeroed shareTwo (by decide +kernel)
  have hdistinct : ∀ s ∈ Sharing.run .zeroed {} shareTwo, 2 < s.handles.length ∧
      s.handle 2 = some ⟨0, 0⟩ ∧ s.handle 3 = some ⟨1, 1⟩ := by
    decide +kernel
  obtain ⟨hlen, h2, h3⟩ := hdistinct s hrun
  obtain ⟨s', target', o', hmove, hframe, hsent, -, hexact⟩ :=
    @moveAssign_iff s hI.core ⟨2, 0⟩ ⟨3, 7⟩ (by decide) hlen
  refine ⟨s, s', target', o', hrun, hmove, hframe, hsent, hexact.2 ?_⟩
  rintro ⟨h, hh, h', hh', hstorage⟩
  obtain rfl := Option.some.inj (h2.symm.trans hh)
  obtain rfl := Option.some.inj (h3.symm.trans hh')
  exact absurd hstorage (by decide)

/-- **A frame that is queued twice is counted once too often** when one is moved onto the other: one
handle is left, and the counter is `2`. -/
theorem moveAssign_leaks : ∃ (s s' : Sharing) (target' o' : SendFrameStruct) (x : Allocation),
    Sharing.run .zeroed {} (shareOne ++ [.copyConstruct (.kept 0)]) = some s ∧
      moveAssign s ⟨2, 0⟩ ⟨3, 7⟩ = some (s', target', o') ∧ s'.handle 2 = some ⟨0, 0⟩ ∧
      s'.handle 3 = none ∧ s'.heap.get 0 = some x ∧ x.refCounter = 2 ∧ s'.count 0 = 1 := by
  have hrun : ∃ s ∈ Sharing.run .zeroed {} (shareOne ++ [.copyConstruct (.kept 0)]),
      ∃ r ∈ moveAssign s ⟨2, 0⟩ ⟨3, 7⟩, r.1.handle 2 = some ⟨0, 0⟩ ∧ r.1.handle 3 = none ∧
        (r.1.heap.get 0).map Allocation.refCounter = some 2 ∧ r.1.count 0 = 1 := by
    decide +kernel
  obtain ⟨s, hs, ⟨s', target', o'⟩, hmove, h2, h3, href, hcount⟩ := hrun
  obtain ⟨x, hget, href⟩ := Option.map_eq_some_iff.1 href
  exact ⟨s, s', target', o', x, hs, hmove, h2, h3, hget, href, hcount⟩

end SendFrameStruct
end Framing
end ICon7
