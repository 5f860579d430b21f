/-
# The chains of the flat hash map

The invariant of `FlatHashMap`: the number of heads is a power of two, keys are
distinct, and every bucket index lies on exactly one chain, that of its key
(`WF`).  A chain is a path of the links (`Lib.Path`), hence acyclic, so that
`GetElement` ends and finds the index of a key that is present
(`getElement_of_mem`, `getElement_of_not_mem`).

`Remove` passes through states in which one bucket is on no chain: the removed
one between the unlinking and the move of the last bucket into its place.
`Linked T m chain dead` describes these too, `dead` being that index and `0` when
there is none.
-/

import ICon7.Map.FlatHashMap

namespace ICon7
namespace FlatHashMap

open Lib

variable {K V : Type}

/-- The pairs in the order of the buckets, without their links. -/
def entries (m : FlatHashMap K V) : List (K × V) := m.buckets.map fun p => (p.key, p.v)

/-- The `next` of a bucket index. -/
def link (m : FlatHashMap K V) : ℕ → ℕ
  | 0 => 0
  | i + 1 => (m.buckets[i]?.map Pair.next).getD 0

/-- The key of a bucket index. -/
def keyAt (m : FlatHashMap K V) : ℕ → Option K
  | 0 => none
  | i + 1 => m.entries[i]?.map Prod.fst

@[simp] theorem length_entries (m : FlatHashMap K V) : m.entries.length = m.buckets.length := by
  simp [entries]

/-- An index has a key when it is one of `1..Size`. -/
theorem keyAt_isSome_iff {m : FlatHashMap K V} {i : ℕ} :
    (m.keyAt i).isSome ↔ 1 ≤ i ∧ i ≤ m.buckets.length := by
  cases i with
  | zero => simp [keyAt]
  | succ i => simp [keyAt]

/-- What the bucket at a valid index is. -/
theorem bucket_of_keyAt {m : FlatHashMap K V} {i : ℕ} {k : K} (h : m.keyAt i = some k) :
    ∃ j p, i = j + 1 ∧ m.buckets[j]? = some p ∧ p.key = k ∧ m.link i = p.next ∧
      m.entries[j]? = some (k, p.v) := by
  cases i with
  | zero => simp [keyAt] at h
  | succ i =>
    simp only [keyAt, entries, List.getElem?_map, Option.map_map, Option.map_eq_some_iff] at h
    obtain ⟨p, hp, rfl⟩ := h
    exact ⟨i, p, rfl, hp, rfl, by simp [link, hp], by simp [entries, hp]⟩

/-- Distinct keys: an index is determined by its key. -/
theorem keyAt_inj {m : FlatHashMap K V} (hnd : (m.entries.map Prod.fst).Nodup) {i j : ℕ} {k : K}
    (hi : m.keyAt i = some k) (hj : m.keyAt j = some k) : i = j := by
  cases i with
  | zero => simp [keyAt] at hi
  | succ i =>
    cases j with
    | zero => simp [keyAt] at hj
    | succ j =>
      have hi' : (m.entries.map Prod.fst)[i]? = some k := by simpa [keyAt] using hi
      have hj' : (m.entries.map Prod.fst)[j]? = some k := by simpa [keyAt] using hj
      have hlt := (List.getElem?_eq_some_iff.mp hi').1
      rw [(List.getElem?_inj hlt hnd).mp (hi'.trans hj'.symm)]

variable (T : MapTraits K V)

/-- The chain of a key. -/
def slot (m : FlatHashMap K V) (key : K) : ℕ := (T.hash key m.baseHash).toNat % m.heads.length

/-- The number of heads is a power of two that a `uint32_t` holds. -/
def Sized (m : FlatHashMap K V) : Prop := ∃ e, 4 ≤ e ∧ e ≤ 31 ∧ m.heads.length = 2 ^ e

/-- The index is not `dead`, and `h` is the chain of its key. -/
def Home (m : FlatHashMap K V) (dead a h : ℕ) : Prop :=
  a ≠ dead ∧ ∃ k, m.keyAt a = some k ∧ m.slot T k = h

/-- The links and heads make the given chains, and every index but `dead` is on
the chain of its key and on no other. -/
def Linked (m : FlatHashMap K V) (chain : ℕ → List ℕ) (dead : ℕ) : Prop :=
  ∀ h i, m.heads[h]? = some i → Path m.link i (chain h) ∧ ∀ a, a ∈ chain h ↔ m.Home T dead a h

/-- **The invariant of the map.** -/
structure WF (m : FlatHashMap K V) : Prop where
  sized : m.Sized
  nodup : (m.entries.map Prod.fst).Nodup
  linked : ∃ chain, m.Linked T chain 0

variable {T} {m : FlatHashMap K V}

theorem Sized.pos (hs : m.Sized) : 0 < m.heads.length := by
  obtain ⟨e, -, -, he⟩ := hs
  rw [he]
  positivity

theorem Sized.slot_lt (hs : m.Sized) (key : K) : m.slot T key < m.heads.length :=
  Nat.mod_lt _ hs.pos

/-- The head of a key's chain exists. -/
theorem Sized.head (hs : m.Sized) (key : K) : ∃ i, m.heads[m.slot T key]? = some i :=
  ⟨_, List.getElem?_eq_getElem (hs.slot_lt key)⟩

/-- Masking with a power of two less one is the remainder. -/
theorem Sized.bucket_eq (hs : m.Sized) (key : K) : m.bucket T key = some (m.slot T key) := by
  obtain ⟨e, -, he, hlen⟩ := hs
  have hpos : 0 < 2 ^ e := by positivity
  have hlt : 2 ^ e < 2 ^ 32 := Nat.pow_lt_pow_right (by norm_num) (by omega)
  have hmask : (UInt32.ofNat (2 ^ e) - 1).toNat = 2 ^ e - 1 := by
    have hto : (UInt32.ofNat (2 ^ e)).toNat = 2 ^ e := UInt32.toNat_ofNat_of_lt' hlt
    rw [UInt32.toNat_sub_of_le _ _ (by rw [UInt32.le_iff_toNat_le, hto]; exact hpos), hto]
    rfl
  have hguard : 2 ^ e &&& (2 ^ e - 1) = 0 := by rw [Nat.and_two_pow_sub_one_eq_mod, Nat.mod_self]
  simp only [bucket, slot, hlen, hguard, guard, if_true, Option.bind_eq_bind, Option.pure_def,
    Option.bind_some, UInt32.toNat_and, hmask, Nat.and_two_pow_sub_one_eq_mod]

/-- The chain of a key, and the path it is. -/
theorem Linked.path {chain : ℕ → List ℕ} {dead : ℕ} (hl : m.Linked T chain dead) (hs : m.Sized)
    (key : K) : ∃ i, m.heads[m.slot T key]? = some i ∧ Path m.link i (chain (m.slot T key)) := by
  obtain ⟨i, hi⟩ := hs.head (T := T) key
  exact ⟨i, hi, (hl _ _ hi).1⟩

/-- A chain has at most as many indices as there are buckets. -/
theorem length_le_of_path {i : ℕ} {l : List ℕ} (hp : Path m.link i l)
    (hkeys : ∀ a ∈ l, (m.keyAt a).isSome) : l.length ≤ m.buckets.length := by
  have hsub : l ⊆ (List.range m.buckets.length).map (· + 1) := fun a ha => by
    obtain ⟨h1, h2⟩ := keyAt_isSome_iff.mp (hkeys a ha)
    exact List.mem_map.mpr ⟨a - 1, List.mem_range.mpr (by omega), by omega⟩
  simpa using (List.subperm_of_subset hp.nodup hsub).length_le

variable {chain : ℕ → List ℕ} {dead : ℕ}

/-- Every index of a chain has a key. -/
theorem Linked.keyAt_isSome (hl : m.Linked T chain dead) {h i a : ℕ} (hi : m.heads[h]? = some i)
    (ha : a ∈ chain h) : (m.keyAt a).isSome := by
  obtain ⟨-, k, hk, -⟩ := ((hl h i hi).2 a).mp ha
  rw [hk]
  rfl

variable [DecidableEq K]

/-- One step of the walk of `GetElement`. -/
theorem getElementLoop_step {key k : K} {fuel prev i : ℕ} (hk : m.keyAt i = some k) :
    getElementLoop m.buckets key (fuel + 1) prev i =
      if k = key then some ⟨i, prev⟩ else getElementLoop m.buckets key fuel i (m.link i) := by
  obtain ⟨j, p, rfl, hp, rfl, hnext, -⟩ := bucket_of_keyAt hk
  rw [getElementLoop, hp, hnext]
  rfl

/-- The walk of a chain without the key ends at `0`. -/
theorem getElementLoop_absent {key : K} {l : List ℕ} {i fuel prev : ℕ} (hp : Path m.link i l)
    (hkeys : ∀ a ∈ l, ∃ k, m.keyAt a = some k ∧ k ≠ key) (hfuel : l.length ≤ fuel) :
    getElementLoop m.buckets key fuel prev i = some ⟨0, 0⟩ := by
  induction l generalizing i fuel prev with
  | nil =>
    obtain rfl : i = 0 := hp
    rw [getElementLoop]
  | cons a l ih =>
    obtain ⟨rfl, -, hp⟩ := hp
    obtain ⟨k, hk, hne⟩ := hkeys i List.mem_cons_self
    obtain ⟨fuel, rfl⟩ : ∃ f, fuel = f + 1 := ⟨fuel - 1, by simp at hfuel; omega⟩
    rw [getElementLoop_step hk, if_neg hne]
    exact ih hp (fun b hb => hkeys b (List.mem_cons_of_mem _ hb)) (by simpa using hfuel)

/-- The walk of a chain stops at the first index with the key. -/
theorem getElementLoop_present {key : K} {l₁ l₂ : List ℕ} {i c fuel prev : ℕ}
    (hp : Path m.link i (l₁ ++ c :: l₂)) (hc : m.keyAt c = some key)
    (hkeys : ∀ a ∈ l₁, ∃ k, m.keyAt a = some k ∧ k ≠ key) (hfuel : l₁.length < fuel) :
    getElementLoop m.buckets key fuel prev i = some ⟨c, l₁.getLastD prev⟩ := by
  induction l₁ generalizing i fuel prev with
  | nil =>
    obtain ⟨rfl, -, -⟩ := hp
    obtain ⟨fuel, rfl⟩ : ∃ f, fuel = f + 1 := ⟨fuel - 1, by omega⟩
    rw [getElementLoop_step hc, if_pos rfl]
    rfl
  | cons a l₁ ih =>
    obtain ⟨rfl, -, hp⟩ := hp
    obtain ⟨k, hk, hne⟩ := hkeys i List.mem_cons_self
    obtain ⟨fuel, rfl⟩ : ∃ f, fuel = f + 1 := ⟨fuel - 1, by omega⟩
    rw [getElementLoop_step hk, if_neg hne,
      ih hp (fun b hb => hkeys b (List.mem_cons_of_mem _ hb)) (by simpa using hfuel)]
    rcases l₁ with _ | _ <;> simp [List.getLastD]

theorem getElement_eq (hs : m.Sized) {key : K} {i : ℕ} (hi : m.heads[m.slot T key]? = some i) :
    m.getElement T key (m.slot T key) =
      getElementLoop m.buckets key m.buckets.length 0 i := by
  simp only [getElement, hs.bucket_eq, hi, guard, if_true, Option.bind_eq_bind, Option.pure_def,
    Option.bind_some]

/-- **`GetElement` reports a missing key.** -/
theorem getElement_of_not_mem (hs : m.Sized) (hl : m.Linked T chain dead) {key : K}
    (habs : ∀ i, i ≠ dead → m.keyAt i ≠ some key) :
    m.getElement T key (m.slot T key) = some ⟨0, 0⟩ := by
  obtain ⟨i, hi, hp⟩ := hl.path hs key
  rw [getElement_eq hs hi]
  refine getElementLoop_absent hp (fun a ha => ?_)
    (length_le_of_path hp fun a ha => hl.keyAt_isSome hi ha)
  obtain ⟨hne, k, hk, -⟩ := ((hl _ _ hi).2 a).mp ha
  exact ⟨k, hk, by rintro rfl; exact habs a hne hk⟩

/-- **`GetElement` finds the index of a key that is there,** and the predecessor of
the index on its chain. -/
theorem getElement_of_mem (hs : m.Sized) (hnd : (m.entries.map Prod.fst).Nodup)
    (hl : m.Linked T chain dead) {key : K} {c : ℕ} (hc : m.keyAt c = some key) (hne : c ≠ dead) :
    ∃ l₁ l₂, chain (m.slot T key) = l₁ ++ c :: l₂ ∧
      m.getElement T key (m.slot T key) = some ⟨c, Path.prevOf l₁⟩ := by
  obtain ⟨i, hi, hp⟩ := hl.path hs key
  obtain ⟨l₁, l₂, heq⟩ := List.append_of_mem (((hl _ _ hi).2 c).mpr ⟨hne, key, hc, rfl⟩)
  have hlen := length_le_of_path hp fun a ha => hl.keyAt_isSome hi ha
  rw [heq, List.length_append, List.length_cons] at hlen
  have hnodup := hp.nodup
  rw [heq] at hp hnodup
  refine ⟨l₁, l₂, heq, ?_⟩
  rw [getElement_eq hs hi, getElementLoop_present hp hc (fun a ha => ?_) (by omega)]
  · rfl
  · obtain ⟨-, k, hk, -⟩ := ((hl _ _ hi).2 a).mp (by rw [heq]; exact List.mem_append_left _ ha)
    refine ⟨k, hk, ?_⟩
    rintro rfl
    obtain rfl := keyAt_inj hnd hk hc
    exact (List.nodup_append.mp hnodup).2.2 _ ha _ List.mem_cons_self rfl

end FlatHashMap
end ICon7
