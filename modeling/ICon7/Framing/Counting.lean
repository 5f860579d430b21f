/-
# What the operations on shared frames keep

The handles and the writable buffers of a program hold tokens, and the heap is sound for all of
them together (`Core`).  Each operation of `Framing.Sharing` takes the tokens of the objects it
names out of the sum and puts others in, so it never fails, it keeps `Core`, and nothing else changes
(`Frame`).  Only a copy has a condition: the counter has 32 bits.
-/

import ICon7.Framing.Sharing
import ICon7.Lib.Holdings

namespace ICon7
namespace Framing
namespace Sharing

/-! ### What the objects hold -/

/-- What a list of objects holds together. -/
abbrev Holds {α : Type} (l : List (Option α)) (M : Multiset α) : Prop :=
  Lib.Holdings (fun o p => p = Heap.tokens o) l M

/-- One object and the others. -/
theorem Holds.split {α : Type} {l : List (Option α)} {M : Multiset α} (h : Holds l M) {i : ℕ}
    (hi : i < l.length) :
    ∃ rest, M = Heap.tokens l[i]?.join + rest ∧ ∀ y, Holds (l.set i y) (Heap.tokens y + rest) := by
  obtain ⟨p, rest, rfl, hM, hset⟩ := h.replace (List.getElem?_eq_getElem hi)
  rw [List.getElem?_eq_getElem hi]
  exact ⟨rest, hM, fun y => hset y _ rfl⟩

theorem Holds.mem {α : Type} {l : List (Option α)} {M : Multiset α} (h : Holds l M) {i : ℕ} {x : α}
    (hx : l[i]?.join = some x) : x ∈ M := by
  have hi : i < l.length := by
    by_contra hle
    simp [List.getElem?_eq_none (Nat.not_lt.1 hle)] at hx
  obtain ⟨rest, rfl, -⟩ := h.split hi
  rw [hx, Heap.tokens_some_add]
  exact Multiset.mem_cons_self x rest

theorem Holds.exists_of_mem {α : Type} {l : List (Option α)} {M : Multiset α} (h : Holds l M) {x : α}
    (hx : x ∈ M) : ∃ i : ℕ, l[i]?.join = some x := by
  induction l generalizing M with
  | nil =>
    obtain ⟨ps, hall, rfl⟩ := h
    cases hall
    simp at hx
  | cons o l ih =>
    obtain ⟨p, rest, rfl, hl, rfl⟩ := Lib.Holdings.cons_iff.1 h
    rcases Multiset.mem_add.1 hx with hx | hx
    · cases o with
      | none => simp at hx
      | some y =>
        obtain rfl := Multiset.mem_singleton.1 hx
        exact ⟨0, rfl⟩
    · obtain ⟨i, hi⟩ := ih hl hx
      exact ⟨i + 1, hi⟩

theorem Holds.push {α : Type} {l : List (Option α)} {M : Multiset α} (h : Holds l M) (y : Option α) :
    Holds (l ++ [y]) (Heap.tokens y + M) :=
  add_comm M _ ▸ h.append_singleton rfl

/-- The objects agree with the heap. -/
def Core (s : Sharing) : Prop :=
  ∃ H W, Holds s.handles H ∧ Holds s.writables W ∧ s.heap.Sound H W

/-- Nothing changes but the handles `I`, the writable buffers `K`, new objects and new frames. -/
structure Frame (I K : ℕ → Prop) (s s' : Sharing) : Prop where
  handles_length : s.handles.length ≤ s'.handles.length
  handles : ∀ i < s.handles.length, ¬I i → s'.handle i = s.handle i
  writables_length : s.writables.length ≤ s'.writables.length
  writables : ∀ k < s.writables.length, ¬K k → s'.writable k = s.writable k
  views : ∀ k, ¬K k → ∀ o ∈ s.writable k, s'.heap.get o.buffer = s.heap.get o.buffer
  frames : s.heap.frames <+: s'.heap.frames
  decoder : (s'.headerSize, s'.frameSize, s'.data, s'.pieces, s'.onPacket, s'.handling) =
    (s.headerSize, s.frameSize, s.data, s.pieces, s.onPacket, s.handling)

variable {s s' s'' : Sharing} {I K : ℕ → Prop} {i j k : ℕ} {h : Handle}

theorem Frame.refl (I K : ℕ → Prop) (s : Sharing) : Frame I K s s :=
  ⟨le_rfl, fun _ _ _ => rfl, le_rfl, fun _ _ _ => rfl, fun _ _ _ _ => rfl, List.prefix_rfl, rfl⟩

theorem lt_of_writable {o : Owner} (ho : s.writable k = some o) : k < s.writables.length := by
  by_contra hle
  simp [writable, List.getElem?_eq_none (Nat.not_lt.1 hle)] at ho

theorem lt_of_handle (hh : s.handle i = some h) : i < s.handles.length := by
  by_contra hle
  simp [handle, List.getElem?_eq_none (Nat.not_lt.1 hle)] at hh

theorem Frame.trans (h₁ : Frame I K s s') (h₂ : Frame I K s' s'') : Frame I K s s'' where
  handles_length := h₁.handles_length.trans h₂.handles_length
  handles i hi hI := (h₂.handles i (hi.trans_le h₁.handles_length) hI).trans (h₁.handles i hi hI)
  writables_length := h₁.writables_length.trans h₂.writables_length
  writables k hk hK := (h₂.writables k (hk.trans_le h₁.writables_length) hK).trans (h₁.writables k hk hK)
  views k hK o ho := by
    have hk : s'.writable k = some o := (h₁.writables k (lt_of_writable ho) hK).trans ho
    exact (h₂.views k hK o hk).trans (h₁.views k hK o ho)
  frames := h₁.frames.trans h₂.frames
  decoder := h₂.decoder.trans h₁.decoder

theorem Frame.mono {I' K' : ℕ → Prop} (h₁ : Frame I K s s') (hI : ∀ i < s.handles.length, I i → I' i)
    (hK : ∀ k < s.writables.length, K k → K' k) :
    Frame I' K' s s' where
  handles_length := h₁.handles_length
  handles i hi hI' := h₁.handles i hi fun h => hI' (hI i hi h)
  writables_length := h₁.writables_length
  writables k hk hK' := h₁.writables k hk fun h => hK' (hK k hk h)
  views k hK' o ho := h₁.views k (fun h => hK' (hK k (lt_of_writable ho) h)) o ho
  frames := h₁.frames
  decoder := h₁.decoder

theorem handle_set_of_ne (hne : i ≠ j) (x : Option Handle) (l : List (Option Handle)) :
    (l.set j x)[i]?.join = l[i]?.join := by
  rw [List.getElem?_set_ne hne.symm]

/-- Nulling a null object changes nothing. -/
theorem set_none_of_join {α : Type} {l : List (Option α)} (hl : l[i]?.join = none) : l.set i none = l := by
  by_cases hi : i < l.length
  · rw [List.getElem?_eq_getElem hi] at hl
    have hget : l[i] = none := hl
    rw [← hget, List.set_getElem_self]
  · exact List.set_eq_of_length_le (Nat.not_lt.1 hi)

/-- **The destructor of a handle** leaves a null one. -/
theorem Core.destroy (hs : s.Core) (i : ℕ) :
    ∃ s', s.destroy i = some s' ∧ s'.Core ∧ Frame (· = i) (fun _ => False) s s' ∧ s'.handle i = none ∧
      s'.handles = s.handles.set i none := by
  unfold Sharing.destroy
  cases hi : s.handle i with
  | none =>
    exact ⟨s, rfl, hs, .refl _ _ s, hi, (set_none_of_join hi).symm⟩
  | some h =>
    obtain ⟨H, W, hH, hW, hS⟩ := hs
    obtain ⟨rest, rfl, hset⟩ := hH.split (lt_of_handle hi)
    have htok : s.handles[i]?.join = some h := hi
    rw [htok, Heap.tokens_some_add] at hS
    obtain ⟨m, hunref, hS', hframes, hother⟩ := hS.unref
    refine ⟨{ s with heap := m, handles := s.handles.set i none },
      by simp only [hunref, Option.bind_eq_bind, Option.bind_some, Option.pure_def],
      ⟨rest, W, by simpa using hset none, hW, hS'⟩,
      ⟨by simp, ?_, le_rfl, fun _ _ _ => rfl, ?_, ?_, rfl⟩, ?_, rfl⟩
    · exact fun j _ hj => handle_set_of_ne hj none s.handles
    · exact fun k _ o ho => hother o (hW.mem ho)
    · rw [hframes]
    · simp [handle, lt_of_handle hi]

/-- The handles that point to a storage, counted in the list and in the multiset. -/
theorem card_filter_storage {H : Multiset Handle} (hH : Holds s.handles H) (a : ℕ) :
    (H.filter (·.storage = a)).card = s.count a := by
  unfold count
  generalize s.handles = l at hH
  induction l generalizing H with
  | nil =>
    obtain ⟨ps, hall, rfl⟩ := hH
    cases hall
    rfl
  | cons o l ih =>
    obtain ⟨p, rest, rfl, hl, rfl⟩ := Lib.Holdings.cons_iff.1 hH
    rw [Multiset.filter_add, Multiset.card_add, ih hl, List.countP_cons, add_comm]
    congr 1
    cases o with
    | none => rfl
    | some h =>
      by_cases ha : h.storage = a
      · simp [Heap.tokens, Multiset.filter_singleton, ha]
      · simp [Heap.tokens, Multiset.filter_singleton, ha]

/-- **A null handle becomes a copy.** -/
theorem Core.setRef (hs : s.Core) (hi : i < s.handles.length) (hnull : s.handle i = none)
    (hj : s.handle j = some h) (h32 : s.count h.storage + 1 < 2 ^ 32) :
    ∃ m, s.heap.ref h = some m ∧ Core { s with heap := m, handles := s.handles.set i (some h) } ∧
      Frame (· = i) (fun _ => False) s { s with heap := m, handles := s.handles.set i (some h) } := by
  obtain ⟨H, W, hH, hW, hS⟩ := hs
  obtain ⟨m, href, hS', hframes, hother⟩ := hS.ref (hH.mem hj) (by rwa [card_filter_storage hH])
  obtain ⟨rest, hrest, hset⟩ := hH.split hi
  have htok : s.handles[i]?.join = none := hnull
  rw [htok, Heap.tokens_none, zero_add] at hrest
  subst hrest
  refine ⟨m, href, ⟨_, W, hset (some h), hW, by rwa [Heap.tokens_some_add]⟩,
    ⟨by simp, ?_, le_rfl, fun _ _ _ => rfl, ?_, ?_, rfl⟩⟩
  · exact fun j _ hj => handle_set_of_ne hj _ s.handles
  · exact fun k _ o ho => hother o (hW.mem ho)
  · rw [hframes]

/-- **A new handle is a copy.** -/
theorem Core.pushRef (hs : s.Core) (hj : s.handle j = some h) (h32 : s.count h.storage + 1 < 2 ^ 32) :
    ∃ m, s.heap.ref h = some m ∧ Core { s with heap := m, handles := s.handles ++ [some h] } ∧
      Frame (fun _ => False) (fun _ => False) s { s with heap := m, handles := s.handles ++ [some h] } := by
  obtain ⟨H, W, hH, hW, hS⟩ := hs
  obtain ⟨m, href, hS', hframes, hother⟩ := hS.ref (hH.mem hj) (by rwa [card_filter_storage hH])
  refine ⟨m, href, ⟨_, W, hH.push (some h), hW, by rwa [Heap.tokens_some_add]⟩,
    ⟨by simp, ?_, le_rfl, fun _ _ _ => rfl, ?_, ?_, rfl⟩⟩
  · intro i hi _
    simp only [handle, List.getElem?_append_left hi]
  · exact fun k _ o ho => hother o (hW.mem ho)
  · rw [hframes]

/-- **A handle moves to a null one.** -/
theorem Core.setMove (hs : s.Core) (hi : i < s.handles.length) (hnull : s.handle i = none)
    (hj : s.handle j = some h) :
    Core { s with handles := (s.handles.set i (some h)).set j none } ∧
      Frame (fun n => n = i ∨ n = j) (fun _ => False) s
        { s with handles := (s.handles.set i (some h)).set j none } := by
  obtain ⟨H, W, hH, hW, hS⟩ := hs
  have hij : j ≠ i := by
    rintro rfl
    rw [hnull] at hj
    cases hj
  obtain ⟨rest, hrest, hset⟩ := hH.split hi
  have htok : s.handles[i]?.join = none := hnull
  rw [htok, Heap.tokens_none, zero_add] at hrest
  subst hrest
  have hj' : j < (s.handles.set i (some h)).length := by
    rw [List.length_set]
    exact lt_of_handle hj
  obtain ⟨rest, hrest, hset'⟩ := (hset (some h)).split hj'
  have htok' : (s.handles.set i (some h))[j]?.join = some h := (handle_set_of_ne hij _ s.handles).trans hj
  rw [htok', Heap.tokens_some_add, Heap.tokens_some_add, Multiset.cons_inj_right] at hrest
  subst hrest
  refine ⟨⟨H, W, by simpa using hset' none, hW, hS⟩,
    ⟨by simp, ?_, le_rfl, fun _ _ _ => rfl, fun _ _ _ _ => rfl, List.prefix_rfl, rfl⟩⟩
  intro n _ hn
  obtain ⟨hni, hnj⟩ := not_or.1 hn
  exact (handle_set_of_ne hnj _ _).trans (handle_set_of_ne hni _ _)

/-! ### What each operation keeps -/

theorem count_set_none_le (l : List (Option Handle)) (i a : ℕ) :
    (l.set i none).countP (fun o => o.any (·.storage = a)) ≤ l.countP fun o => o.any (·.storage = a) := by
  induction l generalizing i with
  | nil => simp
  | cons o l ih =>
    cases i with
    | zero => simp [List.countP_cons]
    | succ i =>
      rw [List.set_cons_succ, List.countP_cons, List.countP_cons]
      have := ih i
      omega

theorem Core.copyConstruct (hs : s.Core) (j : ℕ) (h32 : s.CanCount j) :
    ∃ s', s.copyConstruct j = some s' ∧ s'.Core ∧ Frame (fun _ => False) (fun _ => False) s s' := by
  unfold Sharing.copyConstruct
  cases hj : s.handle j with
  | none =>
    obtain ⟨H, W, hH, hW, hS⟩ := hs
    refine ⟨_, rfl, ⟨H, W, by simpa using hH.push none, hW, hS⟩,
      ⟨by simp, ?_, le_rfl, fun _ _ _ => rfl, fun _ _ _ _ => rfl, List.prefix_rfl, rfl⟩⟩
    intro i hi _
    simp only [handle, List.getElem?_append_left hi]
  | some h =>
    obtain ⟨m, href, hcore, hframe⟩ := hs.pushRef hj (h32 h hj)
    exact ⟨_, by simp only [href, Option.bind_eq_bind, Option.bind_some, Option.pure_def], hcore, hframe⟩

theorem Core.moveConstruct (hs : s.Core) (hj : j < s.handles.length) :
    (s.moveConstruct j).Core ∧ Frame (· = j) (fun _ => False) s (s.moveConstruct j) := by
  obtain ⟨H, W, hH, hW, hS⟩ := hs
  obtain ⟨rest, rfl, hset⟩ := hH.split hj
  refine ⟨⟨_, W, (hset none).push (s.handle j), hW, by rw [Heap.tokens_none, zero_add]; exact hS⟩,
    ⟨by simp [Sharing.moveConstruct], ?_, le_rfl, fun _ _ _ => rfl, fun _ _ _ _ => rfl, List.prefix_rfl, rfl⟩⟩
  intro i hi hij
  simp only [handle, Sharing.moveConstruct]
  rw [List.getElem?_append_left (by simpa using hi)]
  exact handle_set_of_ne hij none s.handles

theorem Core.copyAssign (hs : s.Core) (hi : i < s.handles.length)
    (h32 : s.sameStorage i j = false → s.CanCount j) :
    ∃ s', s.copyAssign i j = some s' ∧ s'.Core ∧ Frame (· = i) (fun _ => False) s s' := by
  unfold Sharing.copyAssign
  by_cases hsame : s.sameStorage i j = true
  · rw [if_pos hsame]
    exact ⟨s, rfl, hs, .refl _ _ s⟩
  · rw [if_neg hsame]
    obtain ⟨s₁, hdestroy, hcore, hframe, hnull, hset⟩ := hs.destroy i
    simp only [hdestroy, Option.bind_eq_bind, Option.bind_some]
    cases hj : s₁.handle j with
    | none => exact ⟨s₁, rfl, hcore, hframe⟩
    | some h =>
      have hij : j ≠ i := by
        rintro rfl
        rw [hnull] at hj
        cases hj
      have hj₀ : s.handle j = some h := by
        unfold handle at hj
        rw [hset, handle_set_of_ne hij] at hj
        exact hj
      have h32' : s₁.count h.storage + 1 < 2 ^ 32 := by
        have hle := count_set_none_le s.handles i h.storage
        rw [← hset] at hle
        exact lt_of_le_of_lt (Nat.succ_le_succ hle) (h32 (Bool.eq_false_of_not_eq_true hsame) h hj₀)
      have hi₁ : i < s₁.handles.length := by rwa [hset, List.length_set]
      obtain ⟨m, href, hcore', hframe'⟩ := hcore.setRef hi₁ hnull hj h32'
      exact ⟨_, by simp only [href, Option.bind_some, Option.pure_def], hcore', hframe.trans hframe'⟩

theorem Core.moveAssign (hs : s.Core) (hi : i < s.handles.length) (j : ℕ) :
    ∃ s', s.moveAssign i j = some s' ∧ s'.Core ∧ Frame (fun n => n = i ∨ n = j) (fun _ => False) s s' := by
  unfold Sharing.moveAssign
  by_cases hsame : s.sameStorage i j = true
  · rw [if_pos hsame]
    exact ⟨s, rfl, hs, .refl _ _ s⟩
  · rw [if_neg hsame]
    obtain ⟨s₁, hdestroy, hcore, hframe, hnull, hset⟩ := hs.destroy i
    have hframe₁ : Frame (fun n => n = i ∨ n = j) (fun _ => False) s s₁ :=
      hframe.mono (fun _ _ h => .inl h) fun _ _ h => h
    simp only [hdestroy, Option.bind_eq_bind, Option.bind_some]
    cases hj : s₁.handle j with
    | none => exact ⟨s₁, rfl, hcore, hframe₁⟩
    | some h =>
      have hi₁ : i < s₁.handles.length := by rwa [hset, List.length_set]
      obtain ⟨hcore', hframe'⟩ := hcore.setMove hi₁ hnull hj
      exact ⟨_, rfl, hcore', hframe₁.trans hframe'⟩

theorem Core.swap (hs : s.Core) (hi : i < s.handles.length) (hj : j < s.handles.length) :
    ∃ s', s.swap i j = some s' ∧ s'.Core ∧ Frame (fun n => n = i ∨ n = j) (fun _ => False) s s' := by
  have hlen : (s.moveConstruct i).handles.length = s.handles.length + 1 := by simp [Sharing.moveConstruct]
  obtain ⟨hcore₁, hframe₁⟩ := hs.moveConstruct hi
  obtain ⟨s₂, hstep₂, hcore₂, hframe₂⟩ := hcore₁.moveAssign (i := i) (by omega) j
  have hlen₂ := hframe₂.handles_length
  obtain ⟨s₃, hstep₃, hcore₃, hframe₃⟩ := hcore₂.moveAssign (i := j) (by omega) s.handles.length
  obtain ⟨s₄, hstep₄, hcore₄, hframe₄, -⟩ := hcore₃.destroy s.handles.length
  refine ⟨s₄, ?_, hcore₄, ?_⟩
  · simp only [Sharing.swap, hstep₂, hstep₃, hstep₄, Option.bind_eq_bind, Option.bind_some]
  · -- the temporary is not among the handles there were
    let I : ℕ → Prop := fun n => n = i ∨ n = j ∨ n = s.handles.length
    have hall : Frame I (fun _ => False) s s₄ :=
      (((hframe₁.mono (fun n _ h => .inl h) fun _ _ h => h).trans
        (hframe₂.mono (fun n _ h => h.elim .inl fun h => .inr (.inl h)) fun _ _ h => h)).trans
        (hframe₃.mono (fun n _ h => .inr h) fun _ _ h => h)).trans
        (hframe₄.mono (fun n _ h => .inr (.inr h)) fun _ _ h => h)
    refine hall.mono (fun n hn h => ?_) fun _ _ h => h
    rcases h with h | h | h
    · exact .inl h
    · exact .inr h
    · omega

theorem writable_set_of_ne {l : List (Option Owner)} {n : ℕ} (hne : n ≠ k) (x : Option Owner) :
    (l.set k x)[n]?.join = l[n]?.join := by
  rw [List.getElem?_set_ne hne.symm]

/-- The other buffers are among the rest. -/
theorem mem_rest {l : List (Option Owner)} {rest : Multiset Owner}
    (hset : ∀ y, Holds (l.set k y) (Heap.tokens y + rest)) {n : ℕ} (hne : n ≠ k) {o : Owner}
    (ho : l[n]?.join = some o) : o ∈ rest := by
  have hmem := (hset none).mem ((writable_set_of_ne hne none).trans ho)
  simpa using hmem

/-- **A writable buffer becomes a handle**, a new one or a null one there is. -/
theorem Core.share (hs : s.Core) (hk : k < s.writables.length) :
    ∃ m h, s.heap.share (s.writable k) = some (m, h) ∧
      (∀ {l : List (Option Handle)}, (∀ H, Holds s.handles H → Holds l (Heap.tokens h + H)) →
        Core { s with heap := m, writables := s.writables.set k none, handles := l }) ∧
      s.heap.frames <+: m.frames ∧
      ∀ n ≠ k, ∀ o ∈ s.writable n, m.get o.buffer = s.heap.get o.buffer := by
  obtain ⟨H, W, hH, hW, hS⟩ := hs
  obtain ⟨rest, rfl, hset⟩ := hW.split hk
  have htok : s.writables[k]?.join = s.writable k := rfl
  rw [htok] at hS
  cases hw : s.writable k with
  | none =>
    rw [hw, Heap.tokens_none, zero_add] at hS
    refine ⟨s.heap, none, rfl, fun hl => ⟨H, rest, by simpa using hl H hH, by simpa using hset none, hS⟩,
      List.prefix_rfl, fun _ _ _ _ => rfl⟩
  | some o =>
    rw [hw, Heap.tokens_some_add] at hS
    obtain ⟨m, x, -, hshare, hS', hframes, hother⟩ := hS.share
    refine ⟨m, _, hshare, fun hl => ⟨_, rest, hl H hH, by simpa using hset none, by rwa [Heap.tokens_some_add]⟩,
      hframes ▸ List.prefix_append _ _, fun n hn o' ho' => hother o' (mem_rest hset hn ho')⟩

theorem Core.construct (hs : s.Core) (hk : k < s.writables.length) :
    ∃ s', s.construct k = some s' ∧ s'.Core ∧ Frame (fun _ => False) (· = k) s s' := by
  obtain ⟨m, h, hshare, hcore, hframes, hother⟩ := hs.share hk
  refine ⟨{ s with heap := m, writables := s.writables.set k none, handles := s.handles ++ [h] },
    by simp only [Sharing.construct, hshare, Option.bind_eq_bind, Option.bind_some, Option.pure_def],
    hcore fun H hH => hH.push h, ⟨by simp, ?_, by simp, ?_, hother, hframes, rfl⟩⟩
  · intro i hi _
    simp only [handle, List.getElem?_append_left hi]
  · exact fun n _ hn => writable_set_of_ne hn none

/-- **`TryRecycle` into a writable buffer**, which is empty then. -/
theorem Core.tryRecycle (hs : s.Core) (hi : i < s.handles.length) (hk : k < s.writables.length) :
    ∃ s', s.tryRecycle i k = some s' ∧ s'.Core ∧ Frame (· = i) (· = k) s s' ∧
      ∀ o ∈ s'.writable k, o.size = 0 := by
  obtain ⟨H, W, hH, hW, hS⟩ := hs
  obtain ⟨restH, rfl, hsetH⟩ := hH.split hi
  obtain ⟨restW, rfl, hsetW⟩ := hW.split hk
  obtain ⟨m, h', w, hrecycle, hS', hframes, hother, hsize, -⟩ := hS.tryRecycle
  have hS'' : m.Sound (Heap.tokens h' + restH) (Heap.tokens (s.writable k) + (Heap.tokens w + restW)) := by
    rw [add_left_comm]
    exact hS'
  obtain ⟨m', hrelease, hS₃, hframes', hother'⟩ := hS''.releaseAny
  refine ⟨{ s with heap := m', handles := s.handles.set i h', writables := s.writables.set k w }, ?_,
    ⟨_, _, hsetH h', hsetW w, hS₃⟩, ⟨by simp, ?_, by simp, ?_, ?_, ?_, rfl⟩, ?_⟩
  · simp only [Sharing.tryRecycle, show s.heap.tryRecycle (s.handle i) = some (m, h', w) from hrecycle, hrelease,
      Option.bind_eq_bind, Option.bind_some, Option.pure_def]
  · exact fun n _ hn => handle_set_of_ne hn _ s.handles
  · exact fun n _ hn => writable_set_of_ne hn _
  · intro n hn o ho
    have hmem := mem_rest hsetW hn ho
    rw [hother' o (Multiset.mem_add.2 (.inr hmem)), hother o (Multiset.mem_add.2 (.inr hmem))]
  · simp only [hframes', hframes]
    exact List.prefix_rfl
  · intro o ho
    simp only [writable, List.getElem?_set_self hk] at ho
    exact hsize o ho

theorem Core.setFlags (hs : s.Core) (i : ℕ) (flags : Flags) :
    ∃ s', s.setFlags i flags = some s' ∧ s'.Core ∧ Frame (fun _ => False) (fun _ => False) s s' := by
  unfold Sharing.setFlags
  cases hi : s.handle i with
  | none => exact ⟨s, rfl, hs, .refl _ _ s⟩
  | some h =>
    obtain ⟨H, W, hH, hW, hS⟩ := hs
    obtain ⟨x, hget, hS', hother⟩ := hS.setFlags (hH.mem hi) flags
    refine ⟨{ s with heap := s.heap.put h.storage (some { x with flags := flags }) },
      by simp only [hget, Option.bind_eq_bind, Option.bind_some, Option.pure_def], ⟨H, W, hH, hW, hS'⟩,
      ⟨le_rfl, fun _ _ _ => rfl, le_rfl, fun _ _ _ => rfl, fun k _ o ho => hother o (hW.mem ho),
        List.prefix_rfl, rfl⟩⟩

theorem Core.write (hs : s.Core) (hk : k < s.writables.length) (b : FilledBuffer) :
    ∃ s', s.write k b = some s' ∧ s'.Core ∧ Frame (fun _ => False) (· = k) s s' := by
  obtain ⟨H, W, hH, hW, hS⟩ := hs
  obtain ⟨rest, rfl, hset⟩ := hW.split hk
  obtain ⟨old, hview, -⟩ := hS.view
  have hlarge := b.2.2
  have hmoved : s.writable k = none → old.mem.length ≠ b.1.mem.length := by
    intro hnone
    have hempty : s.heap.view none = some old := hnone ▸ hview
    obtain rfl : ByteBufferWritable.empty = old := Option.some.inj hempty
    exact Nat.ne_of_lt (Nat.zero_lt_of_lt hlarge)
  obtain ⟨m, w, hplace, hS', -, hframes, hother⟩ :=
    hS.place hview b.2.1 (old.mem.length ≠ b.1.mem.length) (fun _ => hlarge)
      (fun h => ⟨(not_ne_iff.1 (of_decide_eq_false h)).symm,
        fun hnone => absurd (hmoved hnone) (of_decide_eq_false h)⟩)
  refine ⟨{ s with heap := m, writables := s.writables.set k w }, ?_, ⟨H, _, hH, hset w, hS'⟩,
    ⟨le_rfl, fun _ _ _ => rfl, by simp, fun n _ hn => writable_set_of_ne hn w,
      fun n hn o ho => hother o (mem_rest hset hn ho), by rw [hframes], rfl⟩⟩
  simp only [Sharing.write, show s.heap.view (s.writable k) = some old from hview,
    show s.heap.place (s.writable k) _ _ = some (m, w) from hplace, Option.bind_eq_bind, Option.bind_some,
    Option.pure_def]

theorem Core.destroyWritable (hs : s.Core) (hk : k < s.writables.length) :
    ∃ s', s.destroyWritable k = some s' ∧ s'.Core ∧ Frame (fun _ => False) (· = k) s s' := by
  obtain ⟨H, W, hH, hW, hS⟩ := hs
  obtain ⟨rest, rfl, hset⟩ := hW.split hk
  obtain ⟨m, hrelease, hS', hframes, hother⟩ := hS.releaseAny
  refine ⟨{ s with heap := m, writables := s.writables.set k none }, ?_,
    ⟨H, rest, hH, by simpa using hset none, hS'⟩,
    ⟨le_rfl, fun _ _ _ => rfl, by simp, fun n _ hn => writable_set_of_ne hn none,
      fun n hn o ho => hother o (mem_rest hset hn ho), by rw [hframes], rfl⟩⟩
  simp only [Sharing.destroyWritable, show s.heap.release (s.writable k) = some m from hrelease, Option.bind_eq_bind,
    Option.bind_some, Option.pure_def]

theorem Core.moveWritable (hs : s.Core) {l : ℕ} (hk : k < s.writables.length) (hl : l < s.writables.length) :
    ∃ s', s.moveWritable k l = some s' ∧ s'.Core ∧ Frame (fun _ => False) (fun n => n = k ∨ n = l) s s' := by
  unfold Sharing.moveWritable
  by_cases hkl : k = l
  · rw [if_pos hkl]
    exact ⟨s, rfl, hs, .refl _ _ s⟩
  · rw [if_neg hkl]
    obtain ⟨H, W, hH, hW, hS⟩ := hs
    obtain ⟨rest, rfl, hset⟩ := hW.split hk
    obtain ⟨m, hrelease, hS', hframes, hother⟩ := hS.releaseAny
    obtain ⟨rest', hrest, hset'⟩ := (hset (s.writable l)).split (i := l) (by simpa using hl)
    have htok : (s.writables.set k (s.writable l))[l]?.join = s.writable l :=
      writable_set_of_ne (Ne.symm hkl) _
    rw [htok, add_right_inj] at hrest
    subst hrest
    refine ⟨{ s with heap := m, writables := (s.writables.set k (s.writable l)).set l none }, ?_,
      ⟨H, rest, hH, by simpa using hset' none, hS'⟩,
      ⟨le_rfl, fun _ _ _ => rfl, by simp, fun n _ hn => ?_, fun n hn o ho => ?_, by rw [hframes], rfl⟩⟩
    · simp only [show s.heap.release (s.writable k) = some m from hrelease, Option.bind_eq_bind, Option.bind_some,
        Option.pure_def]
    · obtain ⟨hnk, hnl⟩ := not_or.1 hn
      exact (writable_set_of_ne hnl none).trans (writable_set_of_ne hnk _)
    · exact hother o (mem_rest hset (not_or.1 hn).1 ho)

theorem Core.newWritable (hs : s.Core) :
    Core { s with writables := s.writables ++ [none] } ∧
      Frame (fun _ => False) (fun _ => False) s { s with writables := s.writables ++ [none] } := by
  obtain ⟨H, W, hH, hW, hS⟩ := hs
  refine ⟨⟨H, W, hH, by simpa using hW.push none, hS⟩,
    ⟨le_rfl, fun _ _ _ => rfl, by simp, ?_, fun _ _ _ _ => rfl, List.prefix_rfl, rfl⟩⟩
  intro k hk _
  simp only [writable, List.getElem?_append_left hk]

end Sharing
end Framing
end ICon7
