/-
# Indices of loops

`LoopAutoIndexImpl` in `src/LoopAutoIndex.cpp`, which gives every `Loop` object an index
while it lives, and `LoopAutoIndex`, the member of `Loop` whose constructor and destructor
call it.

`NewId` looks for slots that were released but returns none of them: the loop that would
reuse a slot stores the new pointer in every free slot and goes on, and then a slot is
appended after all.  So ids are never reused and a released index never resolves again
(`Inv`), but from the first construction after a destruction on there are slots whose
pointer nobody will ever clear (`run_sound_iff`).

Loops are known by their address.
-/

import ICon7.Lib.Run

namespace ICon7

/-- `LoopIndex`. -/
structure LoopIndex where
  version : UInt32
  id : ℕ
deriving DecidableEq, Repr

/-- `LoopAutoIndexImpl::Data`. -/
structure LoopSlot where
  loop : Option ℕ
  version : UInt32
deriving DecidableEq, Repr

namespace LoopAutoIndex

/-- The loop over the slots in `NewId`: every free slot but the first gets the pointer. -/
def fillFree (data : List LoopSlot) (loop : ℕ) : List LoopSlot :=
  data.mapIdx fun i slot => if 1 ≤ i ∧ slot.loop = none then { slot with loop := some loop } else slot

/-- `NewId`.  A `uint32_t` does not count to `2 ^ 32`, so with as many slots the loop over them
does not end. -/
def newId (data : List LoopSlot) (loop : ℕ) : Option (LoopIndex × List LoopSlot) :=
  if data.length < 2 ^ 32 then
    some (⟨0, data.length⟩, fillFree data loop ++ [⟨some loop, 0⟩])
  else none

/-- `ReleaseId`. -/
def releaseId (data : List LoopSlot) (index : LoopIndex) : List LoopSlot :=
  match data[index.id]? with
  | none => data
  | some slot =>
    if index.id = 0 then data
    else if slot.version ≠ index.version then data
    else if slot.loop = none then data
    else data.set index.id ⟨none, slot.version + 1⟩

/-- `GetLoop`. -/
def getLoop (data : List LoopSlot) (index : LoopIndex) : Option ℕ :=
  match data[index.id]? with
  | none => none
  | some slot =>
    if index.id = 0 then none
    else if slot.version ≠ index.version then none
    else slot.loop

end LoopAutoIndex

open LoopAutoIndex

/-- The slots, the index of each loop that lives, and the indices of those that do not. -/
structure Loops where
  data : List LoopSlot := [⟨none, 0⟩]
  loopIndex : ℕ → Option LoopIndex := fun _ => none
  released : List LoopIndex := []

namespace Loops

/-- A `Loop` object begins or ends. -/
inductive Op where
  | construct (loop : ℕ)
  | destroy (loop : ℕ)
deriving DecidableEq, Repr

/-- The constructor and the destructor of `LoopAutoIndex`. -/
def step (s : Loops) : Op → Option Loops
  | .construct loop => do
    let (index, data) ← newId s.data loop
    return { s with data, loopIndex := Function.update s.loopIndex loop (some index) }
  | .destroy loop => do
    let index ← s.loopIndex loop
    return {
      data := releaseId s.data index
      loopIndex := Function.update s.loopIndex loop none
      released := index :: s.released }

def run (s : Loops) (ops : List Op) : Option Loops := ops.foldlM step s

/-- Objects are constructed where none lives and destroyed where one does, from the given ones on. -/
def Matches : Finset ℕ → List Op → Prop
  | _, [] => True
  | live, .construct loop :: ops => loop ∉ live ∧ Matches (insert loop live) ops
  | live, .destroy loop :: ops => loop ∈ live ∧ Matches (live.erase loop) ops

/-- Indices are unique, resolve while their loop lives and only then, and no slot points to a loop
but the slot of its index. -/
structure Sound (s : Loops) : Prop where
  ids_ne : ∀ l l' i i', s.loopIndex l = some i → s.loopIndex l' = some i' → l ≠ l' → i.id ≠ i'.id
  getLoop_live : ∀ l i, s.loopIndex l = some i → getLoop s.data i = some l
  getLoop_released : ∀ i ∈ s.released, getLoop s.data i = none
  slot_owned : ∀ (n : ℕ) slot l, s.data[n]? = some slot → slot.loop = some l →
    ∃ i, s.loopIndex l = some i ∧ i.id = n
  unpointed : ∀ l, s.loopIndex l = none → ∀ slot ∈ s.data, slot.loop ≠ some l

/-! ### What every run keeps -/

/-- The slot of a live loop holds its pointer and the version `0`, a released slot has the version
`1`, and every slot but the first is one or the other. -/
structure Inv (s : Loops) : Prop where
  live : ∀ l i, s.loopIndex l = some i →
    i.version = 0 ∧ i.id ≠ 0 ∧ s.data[i.id]? = some ⟨some l, 0⟩
  released : ∀ i ∈ s.released, i.version = 0 ∧ i.id ≠ 0 ∧ ∃ loop, s.data[i.id]? = some ⟨loop, 1⟩
  slots : ∀ (n : ℕ) slot, s.data[n]? = some slot → (n = 0 ∧ slot.loop = none) ∨
    (∃ l i, s.loopIndex l = some i ∧ i.id = n) ∨ ∃ i ∈ s.released, i.id = n
  length_pos : 0 < s.data.length

theorem init_inv : Inv {} := by
  refine ⟨by simp, by simp, fun n slot h => Or.inl ?_, by simp⟩
  cases n with
  | zero =>
    obtain rfl : (⟨none, 0⟩ : LoopSlot) = slot := by simpa using h
    exact ⟨rfl, rfl⟩
  | succ n => simp at h

variable {s t : Loops}

/-- Filling the free slots leaves the others and the versions. -/
theorem getElem?_fillFree (data : List LoopSlot) (loop n : ℕ) :
    (fillFree data loop)[n]? = data[n]?.map fun slot =>
      if 1 ≤ n ∧ slot.loop = none then { slot with loop := some loop } else slot := by
  rw [fillFree, List.getElem?_mapIdx]

/-- What a construction does: the new slot is behind the others, whose free ones are filled. -/
theorem construct_cases {l : ℕ} (h : s.step (.construct l) = some t) :
    s.data.length < 2 ^ 32 ∧
      t = { s with
        data := fillFree s.data l ++ [⟨some l, 0⟩]
        loopIndex := Function.update s.loopIndex l (some ⟨0, s.data.length⟩) } := by
  simp only [step, newId] at h
  split_ifs at h with hlt
  · exact ⟨hlt, (Option.some.inj h).symm⟩
  · cases h

/-- What a destruction does: the slot is emptied and gets the next version. -/
theorem destroy_cases (hs : s.Inv) {l : ℕ} (h : s.step (.destroy l) = some t) :
    ∃ i, s.loopIndex l = some i ∧
      t = {
        data := s.data.set i.id ⟨none, 1⟩
        loopIndex := Function.update s.loopIndex l none
        released := i :: s.released } := by
  obtain ⟨i, hi, h⟩ := Option.bind_eq_some_iff.1 h
  obtain ⟨hv, h0, hslot⟩ := hs.live l i hi
  refine ⟨i, hi, ?_⟩
  have hrel : releaseId s.data i = s.data.set i.id ⟨none, 1⟩ := by
    simp only [releaseId, hslot, h0, if_false, hv, ne_eq, not_true_eq_false, reduceCtorEq]
    rfl
  rw [← Option.some.inj h, hrel]

/-- The slots that are there stay where they are, with their versions. -/
theorem getElem?_construct (data : List LoopSlot) (l : ℕ) {n : ℕ} {slot : LoopSlot}
    (h : data[n]? = some slot) :
    (fillFree data l ++ [⟨some l, 0⟩])[n]? =
      some (if 1 ≤ n ∧ slot.loop = none then { slot with loop := some l } else slot) := by
  have hn : n < (fillFree data l).length := by
    rw [fillFree, List.length_mapIdx]
    exact (List.getElem?_eq_some_iff.1 h).1
  rw [List.getElem?_append_left hn, getElem?_fillFree, h, Option.map_some]

/-- The last slot is the new one. -/
theorem getElem?_construct_length (data : List LoopSlot) (l : ℕ) :
    (fillFree data l ++ [⟨some l, 0⟩])[data.length]? = some ⟨some l, 0⟩ := by
  rw [List.getElem?_append_right (by simp [fillFree])]
  simp [fillFree]

theorem construct_inv (hs : s.Inv) {l : ℕ} (hl : s.loopIndex l = none)
    (h : s.step (.construct l) = some t) : t.Inv := by
  obtain ⟨-, rfl⟩ := construct_cases h
  have hpos := hs.length_pos
  refine ⟨?_, ?_, ?_, by simp⟩
  · intro l' i hi
    by_cases hll : l' = l
    · subst hll
      obtain rfl : (⟨0, s.data.length⟩ : LoopIndex) = i := by simpa using hi
      exact ⟨rfl, by simp only; omega, getElem?_construct_length _ _⟩
    · simp only [Function.update_of_ne hll] at hi
      obtain ⟨hv, h0, hslot⟩ := hs.live l' i hi
      exact ⟨hv, h0, by simp [getElem?_construct _ l hslot]⟩
  · intro i hi
    obtain ⟨hv, h0, loop, hslot⟩ := hs.released i hi
    refine ⟨hv, h0, ?_⟩
    rw [getElem?_construct _ l hslot]
    split_ifs
    · exact ⟨some l, rfl⟩
    · exact ⟨loop, rfl⟩
  · intro n slot hn
    rcases Nat.lt_trichotomy n s.data.length with hlt | rfl | hgt
    · obtain ⟨old, hold⟩ : ∃ old, s.data[n]? = some old := ⟨_, List.getElem?_eq_getElem hlt⟩
      rcases hs.slots n old hold with ⟨rfl, hnone⟩ | ⟨l', i, hi, hin⟩ | hrel
      · rw [getElem?_construct _ l hold, if_neg (by omega), Option.some.injEq] at hn
        exact Or.inl ⟨rfl, hn ▸ hnone⟩
      · have hll : l' ≠ l := by
          rintro rfl
          rw [hl] at hi
          cases hi
        exact Or.inr (Or.inl ⟨l', i, (Function.update_of_ne hll ..).trans hi, hin⟩)
      · exact Or.inr (Or.inr hrel)
    · exact Or.inr (Or.inl ⟨l, _, Function.update_self .., rfl⟩)
    · rw [List.getElem?_eq_none (by simp [fillFree]; omega)] at hn
      cases hn

theorem destroy_inv (hs : s.Inv) {l : ℕ} (h : s.step (.destroy l) = some t) : t.Inv := by
  obtain ⟨i, hi, rfl⟩ := destroy_cases hs h
  obtain ⟨hv, h0, hslot⟩ := hs.live l i hi
  have hlt : i.id < s.data.length := (List.getElem?_eq_some_iff.1 hslot).1
  refine ⟨?_, ?_, ?_, by simpa using hs.length_pos⟩
  · intro l' i' hi'
    have hll : l' ≠ l := by
      rintro rfl
      simp at hi'
    simp only [Function.update_of_ne hll] at hi'
    obtain ⟨hv', h0', hslot'⟩ := hs.live l' i' hi'
    refine ⟨hv', h0', ?_⟩
    rw [List.getElem?_set_ne, hslot']
    intro heq
    rw [heq, hslot'] at hslot
    simp_all
  · intro i' hi'
    rcases List.mem_cons.1 hi' with rfl | hi'
    · exact ⟨hv, h0, none, List.getElem?_set_self hlt⟩
    · obtain ⟨hv', h0', loop, hslot'⟩ := hs.released i' hi'
      refine ⟨hv', h0', loop, ?_⟩
      rw [List.getElem?_set_ne, hslot']
      intro heq
      rw [heq, hslot'] at hslot
      simp at hslot
  · intro n slot hn
    by_cases hin : i.id = n
    · exact Or.inr (Or.inr ⟨i, List.mem_cons_self, hin⟩)
    · rw [List.getElem?_set_ne hin] at hn
      rcases hs.slots n slot hn with hfirst | ⟨l', i', hi', hin'⟩ | ⟨i', hi', hin'⟩
      · exact Or.inl hfirst
      · have hll : l' ≠ l := by
          rintro rfl
          rw [hi, Option.some.injEq] at hi'
          exact hin (hi' ▸ hin')
        exact Or.inr (Or.inl ⟨l', i', (Function.update_of_ne hll ..).trans hi', hin'⟩)
      · exact Or.inr (Or.inr ⟨i', List.mem_cons_of_mem _ hi', hin'⟩)

/-- **Indices are unique and released ones never resolve,** in every state with the invariant; it is
the slots of released indices that may be wrong. -/
theorem Inv.sound_iff (hs : s.Inv) :
    s.Sound ↔ ∀ i ∈ s.released, s.data[i.id]? = some ⟨none, 1⟩ := by
  constructor
  · intro hsound i hi
    obtain ⟨-, -, loop, hslot⟩ := hs.released i hi
    cases loop with
    | none => exact hslot
    | some l =>
      obtain ⟨i', hi', hid⟩ := hsound.slot_owned _ _ l hslot rfl
      obtain ⟨-, -, hslot'⟩ := hs.live l i' hi'
      rw [hid, hslot] at hslot'
      simp at hslot'
  · intro hclean
    have howned : ∀ (n : ℕ) slot l, s.data[n]? = some slot → slot.loop = some l →
        ∃ i, s.loopIndex l = some i ∧ i.id = n := by
      intro n slot l hn hl
      rcases hs.slots n slot hn with ⟨-, hnone⟩ | ⟨l', i, hi, rfl⟩ | ⟨i, hi, rfl⟩
      · rw [hnone] at hl
        cases hl
      · obtain ⟨-, -, hslot⟩ := hs.live l' i hi
        rw [hslot, Option.some.injEq] at hn
        obtain rfl : l' = l := by simpa [← hn] using hl
        exact ⟨i, hi, rfl⟩
      · rw [hclean i hi, Option.some.injEq] at hn
        rw [← hn] at hl
        cases hl
    refine ⟨?_, ?_, ?_, howned, ?_⟩
    · intro l l' i i' hi hi' hne heq
      obtain ⟨-, -, hslot⟩ := hs.live l i hi
      obtain ⟨-, -, hslot'⟩ := hs.live l' i' hi'
      rw [heq, hslot'] at hslot
      exact hne (by simpa using hslot.symm)
    · intro l i hi
      obtain ⟨hv, h0, hslot⟩ := hs.live l i hi
      simp [getLoop, hslot, h0, hv]
    · intro i hi
      obtain ⟨hv, h0, loop, hslot⟩ := hs.released i hi
      simp [getLoop, hslot, h0, hv]
    · intro l hl slot hslot hloop
      obtain ⟨n, hn⟩ := List.mem_iff_getElem?.1 hslot
      obtain ⟨i, hi, -⟩ := howned n slot l hn hloop
      rw [hl] at hi
      cases hi

/-! ### Runs -/

/-- Every construction comes before every destruction, and there are slots left for it. -/
def ConstructedFirst (s : Loops) (ops : List Op) : Prop :=
  ∀ pre l post, ops = pre ++ .construct l :: post →
    s.released = [] ∧ (∀ k, .destroy k ∉ pre) ∧ s.data.length + pre.length < 2 ^ 32

theorem constructedFirst_construct (hr : t.released = s.released)
    (hlen : t.data.length = s.data.length + 1) (l : ℕ) (ops : List Op) :
    s.ConstructedFirst (.construct l :: ops) ↔
      s.released = [] ∧ s.data.length < 2 ^ 32 ∧ t.ConstructedFirst ops := by
  constructor
  · intro h
    obtain ⟨h1, -, h2⟩ := h [] l ops rfl
    refine ⟨h1, by simpa using h2, fun pre k post hops => ?_⟩
    obtain ⟨-, hno, hbound⟩ := h (.construct l :: pre) k post (by rw [hops]; rfl)
    refine ⟨hr.trans h1, fun j hj => hno j (List.mem_cons_of_mem _ hj), ?_⟩
    rw [List.length_cons] at hbound
    omega
  · rintro ⟨h1, h2, h3⟩ pre k post hops
    cases pre with
    | nil => exact ⟨h1, by simp, by simpa using h2⟩
    | cons op pre =>
      obtain ⟨rfl, hrest⟩ := List.cons.inj hops
      obtain ⟨-, hno, hbound⟩ := h3 pre k post hrest
      refine ⟨h1, fun j hj => ?_, by rw [List.length_cons]; omega⟩
      rcases List.mem_cons.1 hj with hj | hj
      · cases hj
      · exact hno j hj

theorem constructedFirst_destroy (ht : t.released ≠ []) (l : ℕ) (ops : List Op) :
    s.ConstructedFirst (.destroy l :: ops) ↔ t.ConstructedFirst ops := by
  constructor
  · intro h pre k post hops
    obtain ⟨-, hno, -⟩ := h (.destroy l :: pre) k post (by rw [hops]; rfl)
    exact absurd List.mem_cons_self (hno l)
  · intro h pre k post hops
    cases pre with
    | nil => cases hops
    | cons op pre =>
      obtain ⟨rfl, hrest⟩ := List.cons.inj hops
      exact absurd (h pre k post hrest).1 ht

/-- After a construction the slots are as they should be only if no slot was free. -/
theorem construct_sound_iff (hs : s.Inv) {l : ℕ} (hl : s.loopIndex l = none) (hsound : s.Sound)
    (h : s.step (.construct l) = some t) : t.Sound ↔ s.released = [] := by
  rw [(construct_inv hs hl h).sound_iff]
  obtain ⟨-, rfl⟩ := construct_cases h
  constructor
  · intro hclean
    -- a released slot was free, and now it holds the new pointer
    refine List.eq_nil_iff_forall_not_mem.2 fun i hi => ?_
    obtain ⟨-, h0, -⟩ := hs.released i hi
    have hfilled := getElem?_construct s.data l (hs.sound_iff.1 hsound i hi)
    rw [if_pos ⟨Nat.one_le_iff_ne_zero.2 h0, rfl⟩, hclean i hi] at hfilled
    simp at hfilled
  · intro hnil i hi
    simp only [hnil, List.not_mem_nil] at hi

theorem destroy_sound (hs : s.Inv) (hsound : s.Sound) {l : ℕ} (h : s.step (.destroy l) = some t) :
    t.Sound := by
  rw [(destroy_inv hs h).sound_iff]
  obtain ⟨i, hi, rfl⟩ := destroy_cases hs h
  obtain ⟨-, -, hslot⟩ := hs.live l i hi
  have hlt : i.id < s.data.length := (List.getElem?_eq_some_iff.1 hslot).1
  intro i' hi'
  rcases List.mem_cons.1 hi' with rfl | hi'
  · exact List.getElem?_set_self hlt
  · have hslot' := hs.sound_iff.1 hsound i' hi'
    rw [List.getElem?_set_ne, hslot']
    intro heq
    rw [heq, hslot'] at hslot
    simp at hslot

/-- All states of a run are sound: the first one, and those of the run from the next one on. -/
theorem forall_prefix_cons {op : Op} {ops : List Op} :
    (∀ pre, pre <+: op :: ops → ∃ u, s.run pre = some u ∧ u.Sound) ↔
      s.Sound ∧ ∃ t, s.step op = some t ∧ ∀ pre, pre <+: ops → ∃ u, t.run pre = some u ∧ u.Sound := by
  constructor
  · intro h
    obtain ⟨u, hu, hsound⟩ := h [] List.nil_prefix
    obtain rfl := Option.some.inj hu
    obtain ⟨v, hv, -⟩ := h [op] (List.prefix_append [op] ops)
    obtain ⟨t, ht, -⟩ := Lib.foldlM_cons_eq_some.1 hv
    refine ⟨hsound, t, ht, fun pre hpre => ?_⟩
    obtain ⟨w, hw, hwsound⟩ := h (op :: pre) (List.cons_prefix_cons.2 ⟨rfl, hpre⟩)
    obtain ⟨t', ht', hw⟩ := Lib.foldlM_cons_eq_some.1 hw
    obtain rfl := Option.some.inj (ht.symm.trans ht')
    exact ⟨w, hw, hwsound⟩
  · rintro ⟨hsound, t, ht, h⟩ pre hpre
    cases pre with
    | nil => exact ⟨s, rfl, hsound⟩
    | cons op' pre =>
      obtain ⟨rfl, hrest⟩ := List.cons_prefix_cons.1 hpre
      obtain ⟨u, hu, husound⟩ := h pre hrest
      exact ⟨u, Lib.foldlM_cons_eq_some.2 ⟨t, ht, hu⟩, husound⟩

/-- From any state with the invariant. -/
theorem forall_prefix_sound_iff (ops : List Op) (live : Finset ℕ) (hs : s.Inv)
    (hlive : ∀ l, l ∈ live ↔ s.loopIndex l ≠ none) (hm : Matches live ops) :
    (∀ pre, pre <+: ops → ∃ u, s.run pre = some u ∧ u.Sound) ↔ s.Sound ∧ s.ConstructedFirst ops := by
  induction ops generalizing s live with
  | nil =>
    refine ⟨fun h => ⟨?_, fun pre l post hops => by simp at hops⟩, fun h pre hpre => ?_⟩
    · obtain ⟨u, hu, hsound⟩ := h [] List.nil_prefix
      obtain rfl := Option.some.inj hu
      exact hsound
    · obtain rfl := List.prefix_nil.1 hpre
      exact ⟨s, rfl, h.1⟩
  | cons op ops ih =>
    rw [forall_prefix_cons]
    refine and_congr_right fun hsound => ?_
    cases op with
    | construct l =>
      obtain ⟨hnew, hm⟩ := hm
      have hl : s.loopIndex l = none := by
        by_contra hne
        exact hnew ((hlive l).2 hne)
      by_cases hlt : s.data.length < 2 ^ 32
      · obtain ⟨t, ht⟩ : ∃ t, s.step (.construct l) = some t := by
          simp only [step, newId, if_pos hlt]
          exact ⟨_, rfl⟩
        have htc := (construct_cases ht).2
        have hlive' : ∀ k, k ∈ insert l live ↔ t.loopIndex k ≠ none := by
          intro k
          rw [Finset.mem_insert, hlive, htc]
          by_cases hk : k = l <;> simp [hk]
        rw [constructedFirst_construct (t := t) (by rw [htc]) (by simp [htc, fillFree]) l ops, ht]
        simp only [Option.some.injEq, exists_eq_left', hlt, true_and]
        rw [ih _ (construct_inv hs hl ht) hlive' hm, construct_sound_iff hs hl hsound ht]
      · have hnone : s.step (.construct l) = none := by
          simp only [step, newId, if_neg hlt]
          rfl
        rw [hnone]
        refine ⟨by simp, fun h => absurd (h [] l ops rfl).2.2 (by simpa using hlt)⟩
    | destroy l =>
      obtain ⟨hold, hm⟩ := hm
      obtain ⟨i, hi⟩ := Option.ne_none_iff_exists'.1 ((hlive l).1 hold)
      obtain ⟨t, ht⟩ : ∃ t, s.step (.destroy l) = some t := by
        simp only [step, hi]
        exact ⟨_, rfl⟩
      obtain ⟨j, -, htc⟩ := destroy_cases hs ht
      have hlive' : ∀ k, k ∈ live.erase l ↔ t.loopIndex k ≠ none := by
        intro k
        rw [Finset.mem_erase, hlive, htc]
        by_cases hk : k = l <;> simp [hk]
      rw [constructedFirst_destroy (t := t) (by rw [htc]; simp) l ops, ht]
      simp only [Option.some.injEq, exists_eq_left']
      rw [ih _ (destroy_inv hs ht) hlive' hm, and_iff_right (destroy_sound hs hsound ht)]

/-- **Slots belong to live loops exactly as long as no loop is constructed after one was
destroyed.**  For constructions and destructions that match, every state is sound if and only if
each construction comes before all destructions and finds fewer than `2 ^ 32` slots. -/
theorem run_sound_iff (ops : List Op) (hm : Matches ∅ ops) :
    (∀ pre, pre <+: ops → ∃ s, Loops.run {} pre = some s ∧ s.Sound) ↔
      ∀ pre l post, ops = pre ++ .construct l :: post →
        (∀ k, .destroy k ∉ pre) ∧ pre.length + 1 < 2 ^ 32 := by
  have hsound : Sound {} := init_inv.sound_iff.2 (by simp)
  rw [forall_prefix_sound_iff ops ∅ init_inv (by simp) hm, and_iff_right hsound]
  unfold ConstructedFirst
  simp only [true_and, List.length_singleton, Nat.add_comm 1]

/-- Two loops that are constructed and then destroyed. -/
theorem run_sound_iff_two_loops :
    ∃ s, Loops.run {} [.construct 1, .construct 2, .destroy 1, .destroy 2] = some s ∧ s.Sound := by
  have hall := (run_sound_iff [.construct 1, .construct 2, .destroy 1, .destroy 2] (by simp [Matches])).2
  refine hall (fun pre l post hops => ?_) _ List.prefix_rfl
  match pre, hops with
  | [], _ => exact ⟨by simp, by decide⟩
  | [op], hops =>
    obtain ⟨rfl, -⟩ := List.cons.inj hops
    exact ⟨by simp, by decide⟩
  | [_, _], hops => simp at hops
  | [_, _, _], hops => simp at hops
  | _ :: _ :: _ :: _ :: _, hops => simp at hops

/-- **A pointer that outlives its loop.**  After the loop `1` is destroyed, the loop `3` is stored in
its slot and in one of its own; destroying it clears only the latter. -/
theorem run_dangling :
    ∃ s, Loops.run {} [.construct 1, .construct 2, .destroy 1, .construct 3, .destroy 3] = some s ∧
      s.loopIndex 3 = none ∧ s.data[1]? = some ⟨some 3, 1⟩ ∧ ¬s.Sound := by
  refine ⟨_, rfl, rfl, rfl, fun h => ?_⟩
  exact h.unpointed 3 rfl ⟨some 3, 1⟩ (by decide) rfl

end Loops
end ICon7
