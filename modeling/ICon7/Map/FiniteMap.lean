/-
# The flat hash map is a finite map

The purpose of `FlatHashMap`: a function from keys to values, defined on finitely
many keys.  `Represents` relates a map to such a function, every operation keeps
the relation (`Op.run_spec`), and so does every sequence of operations
(`runOps_represents`).  The result for fresh maps is `runOps_eq_spec`.
-/

import ICon7.Map.Operations

namespace ICon7
namespace FlatHashMap

open Lib

variable {K V : Type} [DecidableEq K]

/-- The operations that change a map. -/
inductive Op (K V : Type) where
  | insertOrSet (k : K) (v : V)
  | remove (k : K)
  | clear
deriving DecidableEq, Repr

/-- The operation on the map. -/
def Op.run (T : MapTraits K V) : Op K V → FlatHashMap K V → Option (FlatHashMap K V)
  | insertOrSet k v, m => m.insertOrSet T k v
  | remove k, m => m.remove T k
  | clear, m => some m.clear

/-- The operation on a partial function. -/
def Op.spec : Op K V → (K → Option V) → K → Option V
  | insertOrSet k v, f => Function.update f k (some v)
  | remove k, f => Function.update f k none
  | clear, _ => fun _ => none

/-- A sequence of operations on the map. -/
def runOps (T : MapTraits K V) (ops : List (Op K V)) (m : FlatHashMap K V) :
    Option (FlatHashMap K V) :=
  ops.foldlM (fun m op => op.run T m) m

/-- A sequence of operations on a partial function: the last value set for a key since
its last removal. -/
def specOps (ops : List (Op K V)) (f : K → Option V) : K → Option V :=
  ops.foldl (fun f op => op.spec f) f

/-- The map satisfies its invariant and its pairs are the graph of the function. -/
structure Represents (T : MapTraits K V) (m : FlatHashMap K V) (f : K → Option V) : Prop where
  wf : m.WF T
  graph : ∀ k v, (k, v) ∈ m.entries ↔ f k = some v

variable {T : MapTraits K V} {m : FlatHashMap K V} {f : K → Option V}

/-- **`Get` is application.** -/
theorem Represents.get (h : Represents T m f) (k : K) : m.get T k = some (f k) := by
  rcases hk : f k with _ | v
  · exact get_of_not_mem h.wf fun v hv => by simp [(h.graph k v).mp hv] at hk
  · exact get_of_mem h.wf ((h.graph k v).mpr hk)

/-- `Has` is definedness. -/
theorem Represents.has (h : Represents T m f) (k : K) : m.has T k = some (f k).isSome := by
  simp only [FlatHashMap.has, h.get, Option.bind_eq_bind, Option.bind_some, Option.pure_def]

/-- The keys on which the function is defined are those of the pairs. -/
theorem Represents.support (h : Represents T m f) :
    {k | (f k).isSome} = ((m.entries.map Prod.fst).toFinset : Set K) := by
  ext k
  simp only [Set.mem_ofPred_eq, Option.isSome_iff_exists, ← h.graph, List.coe_toFinset,
    List.mem_map, Prod.exists, exists_and_right, exists_eq_right]

/-- **`Size` counts the keys that are present.** -/
theorem Represents.card (h : Represents T m f) :
    {k | (f k).isSome}.Finite ∧ {k | (f k).isSome}.ncard = m.buckets.length := by
  rw [h.support]
  refine ⟨Finset.finite_toSet _, ?_⟩
  rw [Set.ncard_coe_finset, List.toFinset_card_of_nodup h.wf.nodup, List.length_map,
    length_entries]

/-- Setting a key, new or not. -/
theorem Represents.insertOrSet (hT : ∀ w v, T.assign w v = v) (h : Represents T m f)
    (hn : m.buckets.length < 2 ^ 30) (k : K) (v : V) :
    ∃ m', m.insertOrSet T k v = some m' ∧ Represents T m' (Function.update f k (some v)) ∧
      m'.buckets.length ≤ m.buckets.length + 1 := by
  rcases hk : f k with _ | w
  · have habs : ∀ w, (k, w) ∉ m.entries := fun w hw => by simp [(h.graph k w).mp hw] at hk
    obtain ⟨m', hrun, hw', he'⟩ := insertOrSet_of_not_mem h.wf v habs (room_of_lt hn)
    refine ⟨m', hrun, ⟨hw', fun k' v' => ?_⟩, by rw [← length_entries, he']; simp⟩
    rw [he', List.mem_append, List.mem_singleton, Prod.mk.injEq, h.graph]
    rcases eq_or_ne k' k with rfl | hne
    · simp [hk, eq_comm]
    · simp [hne]
  · obtain ⟨m', hrun, hw', hlen, hmem⟩ := insertOrSet_of_mem h.wf v ((h.graph k w).mpr hk)
    refine ⟨m', hrun, ⟨hw', fun k' v' => ?_⟩, by omega⟩
    rw [hmem, hT, Prod.mk.injEq, h.graph]
    rcases eq_or_ne k' k with rfl | hne
    · simp [eq_comm]
    · simp [hne]

/-- Removing a key, present or not. -/
theorem Represents.remove (hT : ∀ w v, T.assign w v = v) (h : Represents T m f) (k : K) :
    ∃ m', m.remove T k = some m' ∧ Represents T m' (Function.update f k none) ∧
      m'.buckets.length ≤ m.buckets.length := by
  rcases hk : f k with _ | w
  · have habs : ∀ w, (k, w) ∉ m.entries := fun w hw => by simp [(h.graph k w).mp hw] at hk
    refine ⟨m, remove_of_not_mem h.wf habs, ⟨h.wf, fun k' v' => ?_⟩, le_rfl⟩
    rw [h.graph, Function.update_eq_self_iff.mpr hk.symm]
  · obtain ⟨j, m', hj, hrun, hw', he'⟩ := remove_of_mem h.wf ((h.graph k w).mpr hk) (hT w)
    obtain ⟨hlt, -⟩ := List.getElem?_eq_some_iff.mp hj
    refine ⟨m', hrun, ⟨hw', fun k' v' => ?_⟩, ?_⟩
    · rw [he', (swapRemove_perm hlt).mem_iff, mem_eraseIdx_of_nodup h.wf.nodup hj, h.graph]
      rcases eq_or_ne k' k with rfl | hne
      · simp
      · simp [hne]
    · rw [← length_entries, he', length_swapRemove, length_entries]
      omega

omit [DecidableEq K] in
/-- Clearing leaves empty chains, also when there was nothing to clear. -/
theorem WF.clear (hw : m.WF T) : m.clear.WF T ∧ m.clear.buckets = [] := by
  unfold FlatHashMap.clear
  split_ifs with hlen
  · exact ⟨hw, List.eq_nil_of_length_eq_zero hlen⟩
  · obtain ⟨e, h4, h31, he⟩ := hw.sized
    have hheads : m.heads.map (fun _ => 0) = List.replicate (2 ^ e) 0 := by
      rw [List.map_const', he]
    rw [hheads]
    exact ⟨wf_empty h4 h31 m.baseHash, rfl⟩

omit [DecidableEq K] in
/-- Clearing makes the function undefined everywhere. -/
theorem Represents.clear (h : Represents T m f) : Represents T m.clear (fun _ => none) :=
  ⟨h.wf.clear.1, by simp [entries, h.wf.clear.2]⟩

/-- **One operation** returns, keeps the relation and adds at most one pair. -/
theorem Op.run_spec (hT : ∀ w v, T.assign w v = v) (h : Represents T m f)
    (hn : m.buckets.length < 2 ^ 30) (op : Op K V) :
    ∃ m', op.run T m = some m' ∧ Represents T m' (op.spec f) ∧
      m'.buckets.length ≤ m.buckets.length + 1 := by
  cases op with
  | insertOrSet k v => exact h.insertOrSet hT hn k v
  | remove k =>
    obtain ⟨m', hrun, hr, hle⟩ := h.remove hT k
    exact ⟨m', hrun, hr, by omega⟩
  | clear => exact ⟨m.clear, rfl, h.clear, by rw [h.wf.clear.2]; simp⟩

/-- **Every sequence of operations** during which `Size` stays below `2 ^ 30` returns and
keeps the relation. -/
theorem runOps_represents (hT : ∀ w v, T.assign w v = v) (ops : List (Op K V))
    (h : Represents T m f) (hle : m.buckets.length ≤ 2 ^ 30)
    (hsize : ∀ pre, pre <+: ops → ∀ m', runOps T pre m = some m' → m'.size < 2 ^ 30) :
    ∃ m', runOps T ops m = some m' ∧ Represents T m' (specOps ops f) ∧
      m'.buckets.length < 2 ^ 30 := by
  have hn : m.buckets.length < 2 ^ 30 := by
    have := hsize [] List.nil_prefix m rfl
    rwa [size, Nat.mod_eq_of_lt (by omega)] at this
  induction ops generalizing m f with
  | nil => exact ⟨m, rfl, h, hn⟩
  | cons op ops ih =>
    obtain ⟨m₁, hrun, h₁, hle₁⟩ := Op.run_spec hT h hn op
    have hcons : ∀ pre, runOps T (op :: pre) m = runOps T pre m₁ := fun pre => by
      rw [runOps, List.foldlM_cons, hrun]
      rfl
    have hsize₁ : ∀ pre, pre <+: ops → ∀ m', runOps T pre m₁ = some m' → m'.size < 2 ^ 30 :=
      fun pre hpre m' hm' => hsize (op :: pre) ((List.prefix_cons_inj op).mpr hpre) m'
        (by rw [hcons, hm'])
    have hn₁ : m₁.buckets.length < 2 ^ 30 := by
      have := hsize₁ [] List.nil_prefix m₁ rfl
      rwa [size, Nat.mod_eq_of_lt (by omega)] at this
    rw [hcons]
    exact ih h₁ (by omega) hsize₁ hn₁

omit [DecidableEq K] in
/-- A fresh map of any admissible initial capacity is empty. -/
theorem ofCapacity_represents {base : UInt64} {c : UInt32}
    (h : (ofCapacity base c : Option (FlatHashMap K V)) = some m) :
    Represents T m (fun _ => none) ∧ m.buckets = [] := by
  simp only [ofCapacity, guard, Option.bind_eq_bind, Option.pure_def] at h
  set c' : UInt32 := if c < 16 then 16 else c with hc'
  have h16 : 16 ≤ c'.toNat := by
    rw [hc']
    split_ifs with hlt
    · rfl
    · exact UInt32.le_iff_toNat_le.mp (UInt32.not_lt.mp hlt)
  split_ifs at h with hpow
  · obtain rfl : ⟨List.replicate c'.toNat 0, [], base⟩ = m := Option.some.inj h
    have hand : c'.toNat &&& (c'.toNat - 1) = 0 := by
      have := congrArg UInt32.toNat hpow
      rwa [UInt32.toNat_and, UInt32.toNat_sub_of_le _ _ (UInt32.le_iff_toNat_le.mpr
        (show (1 : UInt32).toNat ≤ _ by show 1 ≤ _; omega))] at this
    obtain ⟨e, he⟩ := (Nat.and_sub_one_eq_zero_iff_isPowerOfTwo (by omega)).mp hand
    have h4 : 4 ≤ e := (Nat.pow_le_pow_iff_right (by norm_num : 1 < 2)).mp (by rw [← he]; omega)
    have h31 : e < 32 := (Nat.pow_lt_pow_iff_right (by norm_num : 1 < 2)).mp
      (by rw [← he]; exact c'.toNat_lt)
    rw [he]
    exact ⟨⟨wf_empty h4 (by omega) base, by simp [entries]⟩, rfl⟩
  · simp at h

/-- **`FlatHashMap` is a finite map.**  Whatever the hash function and its base, from a
fresh map of any admissible capacity and over every sequence of `InsertOrSet`, `Remove` and
`Clear` during which `Size` stays below `2 ^ 30`, every operation returns, the invariant
holds, `Get` is the last value set since the last removal, `Has` agrees with it and `Size`
is the number of present keys. -/
theorem runOps_eq_spec (hash : K → UInt64 → UInt32) (base : UInt64) (c : UInt32)
    {m₀ : FlatHashMap K V} (h₀ : ofCapacity base c = some m₀) (ops : List (Op K V))
    (hsize : ∀ pre, pre <+: ops → ∀ m, runOps (.regular hash) pre m₀ = some m → m.size < 2 ^ 30) :
    ∃ m, runOps (.regular hash) ops m₀ = some m ∧ m.WF (.regular hash) ∧
      (∀ k, m.get (.regular hash) k = some (specOps ops (fun _ => none) k)) ∧
      (∀ k, m.has (.regular hash) k = some (specOps ops (fun _ => none) k).isSome) ∧
      {k | (specOps ops (fun _ => none) k).isSome}.Finite ∧
      m.size = {k | (specOps ops (fun _ => none) k).isSome}.ncard := by
  obtain ⟨hr₀, hnil⟩ := ofCapacity_represents (T := .regular hash) h₀
  obtain ⟨m, hrun, hr, hn⟩ := runOps_represents (fun _ _ => rfl) ops hr₀ (by rw [hnil]; simp) hsize
  obtain ⟨hfin, hcard⟩ := hr.card
  refine ⟨m, hrun, hr.wf, hr.get, hr.has, hfin, ?_⟩
  rw [hcard, size, Nat.mod_eq_of_lt (by omega)]

/-- Three keys of one chain, and the removal of the one in the middle of it. -/
def collidingOps : List (Op ℕ ℕ) :=
  [.insertOrSet 1 10, .insertOrSet 17 20, .insertOrSet 33 30, .remove 17]

/-- `runOps_eq_spec` on colliding keys, the identity as hash function. -/
theorem runOps_eq_spec_colliding :
    ∃ m, runOps (.regular fun k _ => UInt32.ofNat k) collidingOps ⟨List.replicate 16 0, [], 0⟩ =
        some m ∧ m.get (.regular fun k _ => UInt32.ofNat k) 33 = some (some 30) ∧
      m.get (.regular fun k _ => UInt32.ofNat k) 17 = some none := by
  have hsizes : ∀ pre ∈ collidingOps.inits, (runOps (.regular fun k _ => UInt32.ofNat k) pre
      ⟨List.replicate 16 0, [], 0⟩).all (fun m => decide (m.size < 2 ^ 30)) := by decide
  obtain ⟨m, hrun, -, hget, -⟩ := runOps_eq_spec (fun k _ => UInt32.ofNat k) 0 16
    (show ofCapacity 0 16 = some ⟨List.replicate 16 0, [], 0⟩ from rfl) collidingOps
    (fun pre hpre m hm => by
      have := hsizes pre ((List.mem_inits _ _).mpr hpre)
      rw [hm] at this
      simpa using this)
  exact ⟨m, hrun, hget 33, hget 17⟩

end FlatHashMap
end ICon7
