/-
# Rehashing a map from outside

`Rehash` is public.  `_Insert` calls it to double the capacity; anyone else may ask
for any capacity.  The vector of chains is resized first and then cleared by a loop
over the old size, so that a call which comes to a smaller capacity writes behind the
end of the vector, and a capacity above `2 ^ 31` is never reached by doubling.

`rehash_preserves_iff` says of every map that a program can come to, and of every
capacity, whether `Rehash` keeps the map.
-/

import ICon7.Lib.Run
import ICon7.Map.FiniteMap

namespace ICon7
namespace FlatHashMap

variable {K V : Type} [DecidableEq K]

/-- `Capacity`. -/
def capacity (m : FlatHashMap K V) : ℕ := m.heads.length % 2 ^ 32

/-- What a user calls on a map: an operation or `Rehash`. -/
inductive Call (K V : Type) where
  | op (o : Op K V)
  | rehash (newCapacity : UInt32)
deriving DecidableEq, Repr

/-- The call on the map. -/
def Call.run (T : MapTraits K V) : Call K V → FlatHashMap K V → Option (FlatHashMap K V)
  | op o, m => o.run T m
  | rehash newCapacity, m => m.rehash T newCapacity.toNat

/-- A sequence of calls on the map. -/
def runCalls (T : MapTraits K V) (calls : List (Call K V)) (m : FlatHashMap K V) :
    Option (FlatHashMap K V) :=
  calls.foldlM (fun m call => call.run T m) m

variable {T : MapTraits K V} {m m' : FlatHashMap K V}

omit [DecidableEq K] in
theorem capacity_eq (hw : m.WF T) : m.capacity = m.heads.length := by
  obtain ⟨e, -, h31, he⟩ := hw.sized
  exact Nat.mod_eq_of_lt (by rw [he]; exact Nat.pow_lt_pow_right (by norm_num) (by omega))

omit [DecidableEq K] in
theorem size_eq (hn : m.buckets.length < 2 ^ 31) : m.size = m.buckets.length :=
  Nat.mod_eq_of_lt (by omega)

/-- Two maps with the invariant and the same pairs answer alike. -/
theorem get_congr (hw : m.WF T) (hw' : m'.WF T) (he : m'.entries = m.entries) (k : K) :
    m'.get T k = m.get T k := by
  by_cases hk : ∃ v, (k, v) ∈ m.entries
  · obtain ⟨v, hv⟩ := hk
    rw [get_of_mem hw hv, get_of_mem hw' (by rwa [he])]
  · have habs : ∀ v, (k, v) ∉ m.entries := fun v hv => hk ⟨v, hv⟩
    rw [get_of_not_mem hw habs, get_of_not_mem hw' (by rwa [he])]

/-- The capacity that `Rehash` is asked for, and the one it needs for the pairs. -/
def wanted (m : FlatHashMap K V) (newCapacity : ℕ) : ℕ :=
  max newCapacity (m.buckets.length + m.buckets.length / 2 + 5)

/-- `Rehash` comes to a capacity, and not to one below the present one. -/
def Grows (m : FlatHashMap K V) (newCapacity : ℕ) : Prop :=
  m.wanted newCapacity ≤ 2 ^ 31 ∧ (m.heads.length = 16 ∨ m.heads.length < 2 * m.wanted newCapacity)

omit [DecidableEq K] in
/-- A power of two is not above the rounded capacity if and only if it is 16 or less than
twice the capacity that is rounded. -/
theorem pow_le_pow_of_least {e f w : ℕ} (hf : 4 ≤ f) (hw : w ≤ 2 ^ e)
    (hleast : e = 4 ∨ 2 ^ e < 2 * w) (h4 : 4 ≤ e) : 2 ^ f ≤ 2 ^ e ↔ 2 ^ f = 16 ∨ 2 ^ f < 2 * w := by
  constructor
  · intro hle
    rcases hleast with rfl | hlt
    · have : f ≤ 4 := (Nat.pow_le_pow_iff_right (by norm_num)).mp hle
      obtain rfl : f = 4 := le_antisymm this hf
      exact .inl (by norm_num)
    · exact .inr (by omega)
  · rintro (h16 | hlt)
    · rw [h16]
      exact Nat.pow_le_pow_right (by norm_num : 0 < 2) h4
    · refine Nat.pow_le_pow_right (by norm_num) ?_
      have : 2 ^ f < 2 ^ (e + 1) := by
        rw [pow_succ]
        omega
      exact Nat.lt_succ_iff.mp ((Nat.pow_lt_pow_iff_right (by norm_num)).mp this)

omit [DecidableEq K] in
/-- **A `Rehash` that grows** keeps the pairs and comes to the capacity that is wanted. -/
theorem rehash_of_grows (hw : m.WF T) {c : ℕ} (h : m.Grows c) :
    ∃ m', m.rehash T c = some m' ∧ m'.WF T ∧ m'.entries = m.entries ∧
      m.wanted c ≤ m'.heads.length := by
  obtain ⟨hle31, hgrow⟩ := h
  obtain ⟨hc, hn⟩ := max_le_iff.mp hle31
  obtain ⟨e, h4, h31, hle, hleast, hround⟩ := roundCapacity_spec hc hn
  obtain ⟨f, hf4, -, hf⟩ := hw.sized
  rw [hf] at hgrow
  obtain ⟨m', hre, hw', he', hh'⟩ := rehashNested_of_round hw 0 h4 h31 hround
    (by rw [hf]; exact (pow_le_pow_of_least hf4 hle hleast h4).mpr hgrow) (by omega)
  exact ⟨m', hre, hw', he', by rw [hh']; exact hle⟩

omit [DecidableEq K] in
/-- **A `Rehash` that does not grow** does not return, or writes outside of the chains. -/
theorem rehash_of_not_grows (hw : m.WF T) (hn : m.buckets.length < 2 ^ 31) {c : ℕ} (h : ¬m.Grows c) :
    m.rehash T c = none := by
  have hmod : m.buckets.length % 2 ^ 32 = m.buckets.length := Nat.mod_eq_of_lt (by omega)
  by_cases hle31 : m.wanted c ≤ 2 ^ 31
  · obtain ⟨hc, hn⟩ := max_le_iff.mp hle31
    obtain ⟨e, h4, h31, hle, hleast, hround⟩ := roundCapacity_spec hc hn
    obtain ⟨f, hf4, -, hf⟩ := hw.sized
    have hgt : ¬m.heads.length ≤ 2 ^ e := fun hfe => by
      rw [hf] at hfe
      exact h ⟨hle31, by rw [hf]; exact (pow_le_pow_of_least hf4 hle hleast h4).mp hfe⟩
    simp only [rehash, rehashNested, hmod, hround, guard, hgt, if_false, Option.bind_eq_bind,
      Option.bind_some, failure, Option.bind_none]
  · simp only [rehash, rehashNested, hmod, roundCapacity_eq_none hn (Nat.lt_of_not_le hle31),
      Option.bind_eq_bind, Option.bind_none]

/-- What a call that returns has done: the invariant holds, and there are not more pairs than
a capacity can be found for. -/
theorem Call.run_wf (hT : ∀ w v, T.assign w v = v) (hw : m.WF T) (hn : m.buckets.length < 2 ^ 31)
    (call : Call K V) (hrun : call.run T m = some m') : m'.WF T ∧ m'.buckets.length < 2 ^ 31 := by
  cases call with
  | op o =>
    cases o with
    | insertOrSet k v =>
      by_cases hk : ∃ w, (k, w) ∈ m.entries
      · obtain ⟨w, hmem⟩ := hk
        obtain ⟨m₁, hins, hw₁, hlen, -⟩ := insertOrSet_of_mem hw v hmem
        obtain rfl := Option.some.inj (hins.symm.trans hrun)
        exact ⟨hw₁, by omega⟩
      · obtain ⟨hw', -, hn'⟩ := insertOrSet_eq_some hw (fun w hmem => hk ⟨w, hmem⟩) hn hrun
        exact ⟨hw', hn'⟩
    | remove k =>
      by_cases hk : ∃ w, (k, w) ∈ m.entries
      · obtain ⟨w, hmem⟩ := hk
        obtain ⟨j, m₁, -, hrem, hw₁, he₁⟩ := remove_of_mem hw hmem (hT w)
        obtain rfl := Option.some.inj (hrem.symm.trans hrun)
        refine ⟨hw₁, ?_⟩
        rw [← length_entries, he₁, Lib.length_swapRemove, length_entries]
        omega
      · obtain rfl := Option.some.inj
          ((remove_of_not_mem hw fun w hmem => hk ⟨w, hmem⟩).symm.trans hrun)
        exact ⟨hw, hn⟩
    | clear =>
      obtain rfl := Option.some.inj hrun
      exact ⟨hw.clear.1, by rw [hw.clear.2]; norm_num⟩
  | rehash c =>
    have hg : m.Grows c.toNat := by
      by_contra hg
      rw [Call.run, rehash_of_not_grows hw hn hg] at hrun
      simp at hrun
    obtain ⟨m₁, hre, hw₁, he₁, -⟩ := rehash_of_grows hw hg
    obtain rfl := Option.some.inj (hre.symm.trans hrun)
    exact ⟨hw₁, by rw [← length_entries, he₁, length_entries]; exact hn⟩

/-- **Whether `Rehash` keeps the map.**  For every map that calls on a fresh one come to and
every `uint32_t` capacity, `Rehash` returns with every access in range, `Get` and `Size` as
before and a power of two for a capacity, at least the one asked for and
`Size + Size / 2 + 5`, if and only if neither of these two exceeds `2 ^ 31` and the present
capacity is 16 or less than twice the larger of them. -/
theorem rehash_preserves_iff (hash : K → UInt64 → UInt32) (base : UInt64) (c : UInt32)
    {m₀ m : FlatHashMap K V} (h₀ : ofCapacity base c = some m₀) (calls : List (Call K V))
    (hrun : runCalls (.regular hash) calls m₀ = some m) (newCapacity : UInt32) :
    (∃ m', m.rehash (.regular hash) newCapacity.toNat = some m' ∧
      (∀ k, m'.get (.regular hash) k = m.get (.regular hash) k) ∧ m'.size = m.size ∧
      (∃ e, m'.capacity = 2 ^ e) ∧ newCapacity.toNat ≤ m'.capacity ∧
      m.size + m.size / 2 + 5 ≤ m'.capacity) ↔
    max newCapacity.toNat (m.size + m.size / 2 + 5) ≤ 2 ^ 31 ∧
      (m.capacity = 16 ∨ m.capacity < 2 * max newCapacity.toNat (m.size + m.size / 2 + 5)) := by
  obtain ⟨hr₀, hnil⟩ := ofCapacity_represents (T := .regular hash) h₀
  have hinv : m.WF (.regular hash) ∧ m.buckets.length < 2 ^ 31 :=
    Lib.run_invariant (I := fun m => m.WF (.regular hash) ∧ m.buckets.length < 2 ^ 31)
      (fun s a s' h hs => Call.run_wf (fun _ _ => rfl) h.1 h.2 a hs) calls
      ⟨hr₀.wf, by rw [hnil]; norm_num⟩ hrun
  obtain ⟨hw, hn⟩ := hinv
  rw [capacity_eq hw, size_eq hn]
  constructor
  · rintro ⟨m', hre, -⟩
    by_contra hg
    rw [rehash_of_not_grows hw hn hg] at hre
    simp at hre
  · intro hg
    obtain ⟨m', hre, hw', he', hwanted⟩ := rehash_of_grows hw hg
    have hn' : m'.buckets.length = m.buckets.length := by
      rw [← length_entries, he', length_entries]
    have hle := max_le_iff.mp hwanted
    obtain ⟨e, -, -, he⟩ := hw'.sized
    refine ⟨m', hre, get_congr hw hw' he', ?_, ⟨e, ?_⟩, ?_, ?_⟩
    · rw [size_eq (by omega), hn']
    · rw [capacity_eq hw', he]
    · rw [capacity_eq hw']
      exact hle.1
    · rw [capacity_eq hw']
      exact hle.2

/-- A map of 16 chains with the pair of 1 and 10. -/
def onePair : FlatHashMap ℕ ℕ := ⟨(List.replicate 16 0).set 1 1, [⟨1, 10, 0⟩], 0⟩

/-- `rehash_preserves_iff` on that map, from 16 chains to 64. -/
theorem rehash_preserves_iff_onePair :
    ∃ m', onePair.rehash (.regular fun k _ => UInt32.ofNat k) 64 = some m' ∧
      m'.get (.regular fun k _ => UInt32.ofNat k) 1 = some (some 10) ∧ 64 ≤ m'.capacity := by
  obtain ⟨m', hre, hget, -, -, hcap, -⟩ := (rehash_preserves_iff (fun k _ => UInt32.ofNat k) 0 16
    (show ofCapacity 0 16 = some ⟨List.replicate 16 0, [], 0⟩ from rfl)
    [.op (.insertOrSet 1 10)] (show _ = some onePair from by decide) 64).mpr (by decide)
  exact ⟨m', hre, (hget 1).trans (by decide), hcap⟩

/-- An empty map of 32 chains that is asked for 16: the loop clears 32 heads of 16. -/
theorem rehash_shrinking_out_of_range :
    (ofCapacity 0 32 : Option (FlatHashMap ℕ ℕ)) = some ⟨List.replicate 32 0, [], 0⟩ ∧
      (⟨List.replicate 32 0, [], 0⟩ : FlatHashMap ℕ ℕ).rehash
        (.regular fun k _ => UInt32.ofNat k) 16 = none := by
  decide

end FlatHashMap
end ICon7
