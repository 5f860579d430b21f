/-
# What the operations of the flat hash map do

One specification for each operation on a map that satisfies the invariant: it
returns (no assertion fails, no index is out of range, no loop runs on), keeps
the invariant, and does to the pairs what its name says.  `_Insert` may rehash;
the rehash reinserts the pairs in order into empty chains, and finds room for
each (`reinsert_spec`), so that no rehash nests in another.
-/

import ICon7.Map.Edits

namespace ICon7
namespace FlatHashMap

open Lib

variable {K V : Type} {T : MapTraits K V} {m m' : FlatHashMap K V}

/-- The pairs of the map are those at its indices. -/
theorem mem_entries_iff {k : K} {v : V} :
    (k, v) ∈ m.entries ↔ ∃ j, m.keyAt (j + 1) = some k ∧ m.entries[j]? = some (k, v) := by
  rw [List.mem_iff_getElem?]
  constructor
  · rintro ⟨j, hj⟩
    exact ⟨j, by simp [keyAt, hj], hj⟩
  · rintro ⟨j, -, hj⟩
    exact ⟨j, hj⟩

/-- A key without a pair is the key of no index. -/
theorem keyAt_ne_of_not_mem {k : K} (h : ∀ v, (k, v) ∉ m.entries) (i : ℕ) : m.keyAt i ≠ some k := by
  intro hk
  obtain ⟨j, p, rfl, -, -, -, hp⟩ := bucket_of_keyAt hk
  exact h p.v (List.mem_of_getElem? hp)

theorem not_mem_keys {k : K} (h : ∀ v, (k, v) ∉ m.entries) : k ∉ m.entries.map Prod.fst := by
  rintro hk
  obtain ⟨⟨k', v⟩, hmem, rfl⟩ := List.mem_map.mp hk
  exact h v hmem

/-- Doubling from a power of two below `2 ^ 31` reaches every capacity up to `2 ^ 31`, and
stops at the first power that does. -/
theorem roundCapacityLoop_spec {c : ℕ} (hc : c ≤ 2 ^ 31) : ∀ fuel e : ℕ, e ≤ 31 → 31 < fuel + e →
    ∃ e', e ≤ e' ∧ e' ≤ 31 ∧ c ≤ 2 ^ e' ∧ (e' = e ∨ 2 ^ e' < 2 * c) ∧
      roundCapacityLoop c fuel (2 ^ e) = some (2 ^ e')
  | 0, e, he, hf => by omega
  | fuel + 1, e, he, hf => by
    rw [roundCapacityLoop]
    split_ifs with hlt
    · have he' : e < 31 := by
        by_contra hge
        obtain rfl : e = 31 := by omega
        omega
      have hshift : (2 ^ e <<< 1) % 2 ^ 32 = 2 ^ (e + 1) := by
        rw [Nat.shiftLeft_eq, ← pow_succ]
        exact Nat.mod_eq_of_lt (Nat.pow_lt_pow_right (by norm_num) (by omega))
      rw [hshift]
      obtain ⟨e', h1, h2, h3, h4, h5⟩ := roundCapacityLoop_spec hc fuel (e + 1) he' (by omega)
      refine ⟨e', by omega, h2, h3, .inr ?_, h5⟩
      rcases h4 with rfl | h4
      · rw [pow_succ]
        omega
      · exact h4
    · exact ⟨e, le_rfl, he, by omega, .inl rfl, rfl⟩

/-- The least capacity for the pairs, without a wrap. -/
theorem minCapacity_eq {n : ℕ} (hn : n < 2 ^ 31) : (n + n >>> 1 + 5) % 2 ^ 32 = n + n / 2 + 5 := by
  rw [Nat.shiftRight_eq_div_pow]
  omega

/-- `RoundCapacity` returns the least power of two, from 16 on, that is at least both of its
bounds. -/
theorem roundCapacity_spec {c n : ℕ} (hc : c ≤ 2 ^ 31) (hn : n + n / 2 + 5 ≤ 2 ^ 31) :
    ∃ e, 4 ≤ e ∧ e ≤ 31 ∧ max c (n + n / 2 + 5) ≤ 2 ^ e ∧
      (e = 4 ∨ 2 ^ e < 2 * max c (n + n / 2 + 5)) ∧ roundCapacity c n = some (2 ^ e) := by
  have hmax : (if c < n + n / 2 + 5 then n + n / 2 + 5 else c) = max c (n + n / 2 + 5) := by
    split_ifs <;> omega
  unfold roundCapacity
  simp only [minCapacity_eq (show n < 2 ^ 31 by omega), hmax]
  obtain ⟨e, h4, h31, hle, hleast, heq⟩ := roundCapacityLoop_spec
    (max_le hc hn) 32 4 (by omega) (by omega)
  exact ⟨e, h4, h31, hle, hleast, heq⟩

/-- Doubling never reaches a capacity above `2 ^ 31`: it comes to `0` and stays there. -/
theorem roundCapacityLoop_eq_none {c : ℕ} (hc : 2 ^ 31 < c) (fuel : ℕ) :
    roundCapacityLoop c fuel 0 = none ∧ ∀ e ≤ 31, roundCapacityLoop c fuel (2 ^ e) = none := by
  induction fuel with
  | zero => exact ⟨rfl, fun _ _ => rfl⟩
  | succ fuel ih =>
    refine ⟨by rw [roundCapacityLoop, if_pos (by omega)]; exact ih.1, fun e he => ?_⟩
    have hle : 2 ^ e ≤ 2 ^ 31 := Nat.pow_le_pow_right (by norm_num) he
    rw [roundCapacityLoop, if_pos (by omega), Nat.shiftLeft_eq, ← pow_succ]
    rcases Nat.lt_or_ge e 31 with hlt | hge
    · rw [Nat.mod_eq_of_lt (Nat.pow_lt_pow_right (by norm_num) (by omega))]
      exact ih.2 (e + 1) hlt
    · obtain rfl : e = 31 := le_antisymm he hge
      exact ih.1

/-- There is no capacity above `2 ^ 31`, asked for or needed for the pairs. -/
theorem roundCapacity_eq_none {c n : ℕ} (hn : n < 2 ^ 31)
    (hbig : 2 ^ 31 < max c (n + n / 2 + 5)) : roundCapacity c n = none := by
  unfold roundCapacity
  simp only [minCapacity_eq hn]
  exact (roundCapacityLoop_eq_none (by split_ifs <;> omega) 32).2 4 (by norm_num)

/-- A map of empty chains satisfies the invariant. -/
theorem wf_empty {e : ℕ} (h4 : 4 ≤ e) (h31 : e ≤ 31) (base : UInt64) :
    (⟨List.replicate (2 ^ e) 0, [], base⟩ : FlatHashMap K V).WF T where
  sized := ⟨e, h4, h31, List.length_replicate⟩
  nodup := List.nodup_nil
  linked := by
    refine ⟨fun _ => [], fun h i hi => ⟨?_, fun a => ?_⟩⟩
    · exact (List.eq_of_mem_replicate (List.mem_of_getElem? hi))
    · constructor
      · rintro ⟨⟩
      · rintro ⟨-, k, hk, -⟩
        have := keyAt_isSome_iff.mp (by rw [hk]; rfl)
        simp only [List.length_nil] at this
        omega

/-- `_Insert` with room for one more pair. -/
theorem insertWith_of_room (rehash : FlatHashMap K V → ℕ → Option (FlatHashMap K V))
    (hw : m.WF T) {key : K} (v : V) (hnew : key ∉ m.entries.map Prod.fst)
    (hroom : m.buckets.length + m.buckets.length / 2 ≤ m.heads.length)
    (hlen : m.buckets.length + 1 < 2 ^ 32) :
    ∃ m', insertWith T rehash m key v (m.slot T key) = some m' ∧ m'.WF T ∧
      m'.entries = m.entries ++ [(key, v)] ∧ m'.heads.length = m.heads.length := by
  obtain ⟨chain, hl⟩ := hw.linked
  obtain ⟨i, hi⟩ := hw.sized.head (T := T) key
  refine ⟨⟨m.heads.set (m.slot T key) (m.buckets.length + 1), m.buckets ++ [⟨key, v, i⟩],
    m.baseHash⟩, ?_, ⟨?_, ?_, ?_⟩, by simp [entries], by simp⟩
  · have hgrow : ¬m.heads.length < m.buckets.length + m.buckets.length >>> 1 := by
      rw [Nat.shiftRight_eq_div_pow]
      omega
    simp only [insertWith, hgrow, if_false, Option.bind_eq_bind, Option.pure_def, Option.bind_some,
      hi, Nat.mod_eq_of_lt hlen]
  · obtain ⟨e, h4, h31, he⟩ := hw.sized
    exact ⟨e, h4, h31, by simpa using he⟩
  · simp only [entries, List.map_append, List.map_map, List.map_cons, List.map_nil]
    rw [List.nodup_append_comm]
    simpa [entries] using ⟨by simpa [entries] using hnew, by simpa [entries] using hw.nodup⟩
  · exact ⟨_, hl.push rfl hi⟩

/-- **Reinserting pairs with distinct keys into a map with room for all of them** appends
them.  No rehash happens on the way, whatever rehash there is to call. -/
theorem reinsert_spec (rehash : FlatHashMap K V → ℕ → Option (FlatHashMap K V))
    (ps : List (Pair K V)) (hw : m.WF T)
    (hnd : ((m.entries ++ ps.map fun p => (p.key, p.v)).map Prod.fst).Nodup)
    (hroom : m.buckets.length + ps.length + (m.buckets.length + ps.length) / 2 ≤ m.heads.length)
    (hlen : m.buckets.length + ps.length < 2 ^ 32) :
    ∃ m', ps.foldlM (fun m p => do
        let bucketHead ← m.bucket T p.key
        insertWith T rehash m p.key p.v bucketHead) m = some m' ∧ m'.WF T ∧
      m'.entries = m.entries ++ ps.map (fun p => (p.key, p.v)) ∧
      m'.heads.length = m.heads.length := by
  induction ps generalizing m with
  | nil => exact ⟨m, rfl, hw, by simp, rfl⟩
  | cons p ps ih =>
    simp only [List.length_cons] at hroom hlen
    have hnew : p.key ∉ m.entries.map Prod.fst := fun hmem => by
      rw [List.map_append, List.nodup_append] at hnd
      exact hnd.2.2 _ hmem p.key (by simp) rfl
    obtain ⟨m₁, hins, hw₁, he₁, hh₁⟩ :=
      insertWith_of_room rehash hw p.v hnew (by omega) (by omega)
    have hn₁ : m₁.buckets.length = m.buckets.length + 1 := by
      rw [← length_entries, he₁]
      simp
    obtain ⟨m', hfold, hw', he', hh'⟩ := ih hw₁ (by rw [he₁]; simpa using hnd)
      (by rw [hn₁, hh₁]; omega) (by rw [hn₁]; omega)
    refine ⟨m', ?_, hw', by rw [he', he₁]; simp, hh'.trans hh₁⟩
    rw [List.foldlM_cons]
    simp only [hw.sized.bucket_eq, Option.bind_eq_bind, Option.bind_some, hins]
    simpa only [Option.bind_eq_bind] using hfold

/-- **`Rehash` keeps the pairs** when the capacity it comes to is not below the present one.
The chains are then as many as that capacity says. -/
theorem rehashNested_of_round (hw : m.WF T) (d : ℕ) {c e : ℕ} (h4 : 4 ≤ e) (h31 : e ≤ 31)
    (hround : roundCapacity c m.buckets.length = some (2 ^ e)) (hle : m.heads.length ≤ 2 ^ e)
    (hne : m.buckets.length + m.buckets.length / 2 ≤ 2 ^ e) :
    ∃ m', rehashNested T (d + 1) m c = some m' ∧ m'.WF T ∧ m'.entries = m.entries ∧
      m'.heads.length = 2 ^ e := by
  have hlt : 2 ^ e ≤ 2 ^ 31 := Nat.pow_le_pow_right (by norm_num) h31
  have hmod : m.buckets.length % 2 ^ 32 = m.buckets.length := Nat.mod_eq_of_lt (by omega)
  have hheads : List.replicate m.heads.length 0 ++ List.replicate (2 ^ e - m.heads.length) 0 =
      List.replicate (2 ^ e) 0 := by
    rw [List.replicate_append_replicate, Nat.add_sub_cancel' hle]
  obtain ⟨m', hfold, hw', he', hh'⟩ := reinsert_spec (rehashNested T d) m.buckets
    (wf_empty (T := T) h4 h31 m.baseHash) (by simpa [entries] using hw.nodup)
    (by simpa using hne) (by simp; omega)
  refine ⟨m', ?_, hw', by simpa [entries] using he', by simpa using hh'⟩
  simp only [rehashNested, hmod, hround, guard, hle, if_true, Option.bind_eq_bind, Option.pure_def,
    Option.bind_some, hheads]
  simpa only [Option.bind_eq_bind] using hfold

/-- **`Rehash` at a growth keeps the pairs** and leaves room for one more. -/
theorem rehashNested_spec (hw : m.WF T) (d : ℕ) {c : ℕ} (hc : c ≤ 2 ^ 31) (hgrow : m.heads.length ≤ c)
    (hn : m.buckets.length + m.buckets.length / 2 + 5 ≤ 2 ^ 31) :
    ∃ m', rehashNested T (d + 1) m c = some m' ∧ m'.WF T ∧ m'.entries = m.entries ∧
      m'.buckets.length + m'.buckets.length / 2 ≤ m'.heads.length := by
  obtain ⟨e, h4, h31, hle, -, hround⟩ := roundCapacity_spec hc hn
  obtain ⟨m', hre, hw', he', hh'⟩ := rehashNested_of_round hw d h4 h31 hround
    (hgrow.trans ((le_max_left _ _).trans hle)) (by omega)
  have hn' : m'.buckets.length = m.buckets.length := by
    rw [← length_entries, he', length_entries]
  exact ⟨m', hre, hw', he', by omega⟩

/-- There is room for one more pair, or a capacity at which there is. -/
def Room (m : FlatHashMap K V) : Prop :=
  m.buckets.length + m.buckets.length / 2 ≤ m.heads.length ∨
    m.buckets.length + m.buckets.length / 2 + 5 ≤ 2 ^ 31

theorem room_of_lt (hn : m.buckets.length < 2 ^ 30) : m.Room := .inr (by omega)

theorem Room.length_le (hr : m.Room) (hw : m.WF T) :
    m.buckets.length + m.buckets.length / 2 ≤ 2 ^ 31 := by
  obtain ⟨e, -, h31, he⟩ := hw.sized
  have : 2 ^ e ≤ 2 ^ 31 := Nat.pow_le_pow_right (by norm_num) h31
  rcases hr with hr | hr <;> omega

/-- **`_Insert` appends a pair with a new key,** growing the map first when it is full. -/
theorem _insert_spec (hw : m.WF T) {key : K} (v : V) (hnew : key ∉ m.entries.map Prod.fst)
    (hr : m.Room) :
    ∃ m', m._insert T key v (m.slot T key) = some m' ∧ m'.WF T ∧
      m'.entries = m.entries ++ [(key, v)] := by
  have hlen := hr.length_le hw
  rcases le_or_gt (m.buckets.length + m.buckets.length / 2) m.heads.length with hroom | hfull
  · obtain ⟨m', hins, hw', he', -⟩ := insertWith_of_room (rehash T) hw v hnew hroom (by omega)
    exact ⟨m', hins, hw', he'⟩
  · have hn : m.buckets.length + m.buckets.length / 2 + 5 ≤ 2 ^ 31 :=
      hr.resolve_left (Nat.not_le_of_gt hfull)
    obtain ⟨e, h4, -, he⟩ := hw.sized
    have he31 : e < 31 := (Nat.pow_lt_pow_iff_right (by norm_num : 1 < 2)).mp (by omega)
    have hdouble : (m.heads.length <<< 1) % 2 ^ 32 = 2 ^ (e + 1) := by
      rw [he, Nat.shiftLeft_eq, ← pow_succ]
      exact Nat.mod_eq_of_lt (Nat.pow_lt_pow_right (by norm_num) (by omega))
    obtain ⟨m₁, hre, hw₁, he₁, hroom₁⟩ := rehashNested_spec hw 0 (c := 2 ^ (e + 1))
      (Nat.pow_le_pow_right (by norm_num) (by omega)) (by rw [he, pow_succ]; omega) hn
    have hn₁ : m₁.buckets.length = m.buckets.length := by
      rw [← length_entries, he₁, length_entries]
    obtain ⟨m', hins, hw', he', -⟩ := insertWith_of_room (rehash T) hw₁ v (by rwa [he₁]) hroom₁
      (by omega)
    refine ⟨m', ?_, hw', by rw [he', he₁]⟩
    rw [← hins, _insert, insertWith, insertWith]
    have hfull' : m.heads.length < m.buckets.length + m.buckets.length >>> 1 := by
      rwa [Nat.shiftRight_eq_div_pow, pow_one]
    have hroom' : ¬m₁.heads.length < m₁.buckets.length + m₁.buckets.length >>> 1 := by
      rw [Nat.shiftRight_eq_div_pow, pow_one]
      omega
    simp only [hfull', hroom', if_true, if_false, hdouble, rehash, hre, hw₁.sized.bucket_eq,
      Option.bind_eq_bind, Option.pure_def, Option.bind_some]

/-- **Without room `_Insert` does not return.** -/
theorem _insert_of_not_room (hr : ¬m.Room) (hn : m.buckets.length < 2 ^ 31) (key : K) (v : V)
    (bucketHead : ℕ) : m._insert T key v bucketHead = none := by
  obtain ⟨hfull, hbig⟩ := not_or.mp hr
  have hfull' : m.heads.length < m.buckets.length + m.buckets.length >>> 1 := by
    rw [Nat.shiftRight_eq_div_pow, pow_one]
    omega
  have hmod : m.buckets.length % 2 ^ 32 = m.buckets.length := Nat.mod_eq_of_lt (by omega)
  simp only [_insert, insertWith, hfull', if_true, rehash, rehashNested, hmod,
    roundCapacity_eq_none hn (lt_max_of_lt_right (by omega)), Option.bind_eq_bind, Option.bind_none]

/-- The invariant depends on heads, links and keys only. -/
theorem WF.congr (hw : m.WF T) (hh : m'.heads = m.heads) (hb : m'.baseHash = m.baseHash)
    (hlink : m'.link = m.link) (hkeys : m'.entries.map Prod.fst = m.entries.map Prod.fst) :
    m'.WF T := by
  obtain ⟨chain, hl⟩ := hw.linked
  have hkey : ∀ a, m'.keyAt a = m.keyAt a := by
    rintro (_ | a)
    · rfl
    · rw [keyAt, keyAt, ← List.getElem?_map, ← List.getElem?_map, hkeys]
  refine ⟨?_, by rw [hkeys]; exact hw.nodup, chain, fun h i hi => ?_⟩
  · rw [Sized, hh]
    exact hw.sized
  · rw [hh] at hi
    obtain ⟨hp, hmem⟩ := hl h i hi
    refine ⟨by rwa [hlink], fun a => (hmem a).trans ?_⟩
    simp only [Home, hkey, slot_of_heads hb (congrArg List.length hh)]

/-- With distinct keys, taking out one pair takes out exactly its key. -/
theorem mem_eraseIdx_of_nodup {l : List (K × V)} (hnd : (l.map Prod.fst).Nodup) {j : ℕ} {k : K}
    {w : V} (hj : l[j]? = some (k, w)) (x : K × V) : x ∈ l.eraseIdx j ↔ x ∈ l ∧ x.1 ≠ k := by
  obtain ⟨hlt, hget⟩ := List.getElem?_eq_some_iff.mp hj
  have hperm := List.getElem_cons_eraseIdx_perm hlt
  rw [hget] at hperm
  have hnot : k ∉ (l.eraseIdx j).map Prod.fst :=
    (List.nodup_cons.mp ((hperm.map Prod.fst).nodup_iff.mpr hnd)).1
  rw [← hperm.mem_iff, List.mem_cons]
  constructor
  · intro hx
    exact ⟨.inr hx, by rintro rfl; exact hnot (List.mem_map_of_mem hx)⟩
  · rintro ⟨rfl | hx, hne⟩
    · exact absurd rfl hne
    · exact hx

/-- The last bucket of a map, when there is one. -/
theorem exists_concat (h : m.buckets.length ≠ 0) : ∃ bs q, m.buckets = bs ++ [q] := by
  rcases List.eq_nil_or_concat' m.buckets with hnil | ⟨bs, q, hbs⟩
  · exact absurd (by rw [hnil]; rfl) h
  · exact ⟨bs, q, hbs⟩

variable [DecidableEq K]

/-- **`Get` returns the value of a key that is there.** -/
theorem get_of_mem (hw : m.WF T) {k : K} {v : V} (h : (k, v) ∈ m.entries) :
    m.get T k = some (some v) := by
  obtain ⟨chain, hl⟩ := hw.linked
  obtain ⟨j, hk, hj⟩ := mem_entries_iff.mp h
  obtain ⟨l₁, l₂, -, hget⟩ := getElement_of_mem hw.sized hw.nodup hl hk (by omega)
  simp only [entries, List.getElem?_map, Option.map_eq_some_iff] at hj
  obtain ⟨p, hp, heq⟩ := hj
  simp only [get, hw.sized.bucket_eq, hget, Option.bind_eq_bind, Option.bind_some, Nat.succ_ne_zero,
    if_false, Nat.add_sub_cancel, hp, Option.pure_def, ← (Prod.mk.inj heq).2]

/-- **`Get` returns the null pointer for a key that is not.** -/
theorem get_of_not_mem (hw : m.WF T) {k : K} (h : ∀ v, (k, v) ∉ m.entries) :
    m.get T k = some none := by
  obtain ⟨chain, hl⟩ := hw.linked
  have hget := getElement_of_not_mem hw.sized hl fun i _ => keyAt_ne_of_not_mem h i
  simp only [get, hw.sized.bucket_eq, hget, Option.bind_eq_bind, Option.bind_some, if_true,
    Option.pure_def]

/-- `InsertOrSet` of a new key inserts. -/
theorem insertOrSet_eq_insert (hw : m.WF T) {k : K} (v : V) (h : ∀ w, (k, w) ∉ m.entries) :
    m.insertOrSet T k v = m._insert T k v (m.slot T k) := by
  obtain ⟨chain, hl⟩ := hw.linked
  have hget := getElement_of_not_mem hw.sized hl fun i _ => keyAt_ne_of_not_mem h i
  simp only [insertOrSet, hw.sized.bucket_eq, hget, Option.bind_eq_bind, Option.bind_some, if_true]

/-- **`InsertOrSet` of a new key appends the pair.** -/
theorem insertOrSet_of_not_mem (hw : m.WF T) {k : K} (v : V) (h : ∀ w, (k, w) ∉ m.entries)
    (hr : m.Room) :
    ∃ m', m.insertOrSet T k v = some m' ∧ m'.WF T ∧ m'.entries = m.entries ++ [(k, v)] := by
  obtain ⟨m', hins, hw', he'⟩ := _insert_spec hw v (not_mem_keys h) hr
  exact ⟨m', (insertOrSet_eq_insert hw v h).trans hins, hw', he'⟩

/-- **What `InsertOrSet` of a new key has done when it returns,** however many pairs there are. -/
theorem insertOrSet_eq_some (hw : m.WF T) {k : K} {v : V} (h : ∀ w, (k, w) ∉ m.entries)
    (hn : m.buckets.length < 2 ^ 31) (hins : m.insertOrSet T k v = some m') :
    m'.WF T ∧ m'.entries = m.entries ++ [(k, v)] ∧ m'.buckets.length < 2 ^ 31 := by
  by_cases hr : m.Room
  · obtain ⟨m₁, hins₁, hw₁, he₁⟩ := insertOrSet_of_not_mem hw v h hr
    obtain rfl := Option.some.inj (hins₁.symm.trans hins)
    have hlen := hr.length_le hw
    refine ⟨hw₁, he₁, ?_⟩
    rw [← length_entries, he₁, List.length_append, length_entries, List.length_singleton]
    omega
  · rw [insertOrSet_eq_insert hw v h, _insert_of_not_room hr hn] at hins
    simp at hins

/-- **`Get` points to the pair of a key that is there.** -/
theorem find_of_mem (hw : m.WF T) {k : K} {v : V} (h : (k, v) ∈ m.entries) :
    ∃ j p, m.find T k = some (some j) ∧ m.buckets[j]? = some p ∧ p.key = k ∧ p.v = v := by
  obtain ⟨chain, hl⟩ := hw.linked
  obtain ⟨j, hk, hj⟩ := mem_entries_iff.mp h
  obtain ⟨l₁, l₂, -, hget⟩ := getElement_of_mem hw.sized hw.nodup hl hk (by omega)
  simp only [entries, List.getElem?_map, Option.map_eq_some_iff] at hj
  obtain ⟨p, hp, heq⟩ := hj
  refine ⟨j, p, ?_, hp, (Prod.mk.inj heq).1, (Prod.mk.inj heq).2⟩
  simp only [find, hw.sized.bucket_eq, hget, Option.bind_eq_bind, Option.bind_some, Nat.succ_ne_zero,
    if_false, Nat.add_sub_cancel, Option.pure_def]

/-- It is the null pointer for a key that is not. -/
theorem find_of_not_mem (hw : m.WF T) {k : K} (h : ∀ v, (k, v) ∉ m.entries) :
    m.find T k = some none := by
  obtain ⟨chain, hl⟩ := hw.linked
  have hget := getElement_of_not_mem hw.sized hl fun i _ => keyAt_ne_of_not_mem h i
  simp only [find, hw.sized.bucket_eq, hget, Option.bind_eq_bind, Option.bind_some, if_true,
    Option.pure_def]

omit [DecidableEq K] in
/-- **A write through a pointer** changes the value of its pair and keeps the other pairs. -/
theorem store_spec (hw : m.WF T) {j : ℕ} {p : Pair K V} (hp : m.buckets[j]? = some p) (v : V) :
    (m.store j v).WF T ∧ (m.store j v).buckets.length = m.buckets.length ∧
      ∀ x, x ∈ (m.store j v).entries ↔ x = (p.key, v) ∨ (x ∈ m.entries ∧ x.1 ≠ p.key) := by
  obtain ⟨hlt, hpj⟩ := List.getElem?_eq_some_iff.mp hp
  have hstore : m.store j v = { m with buckets := m.buckets.set j { p with v } } := by
    rw [store, List.modify_eq_set_getElem?, hp]
    rfl
  have hj : m.entries[j]? = some (p.key, p.v) := by simp [entries, hp]
  have hentries : (m.store j v).entries = m.entries.set j (p.key, v) := by
    rw [hstore]
    exact List.map_set
  refine ⟨?_, by rw [hstore]; simp, fun x => ?_⟩
  · refine hw.congr rfl rfl (funext fun a => ?_) ?_
    · rw [hstore, link_set hlt]
      split_ifs with ha
      · rw [ha, link, hp]
        rfl
      · rfl
    · rw [hentries, List.map_set]
      have hlt' : j < (m.entries.map Prod.fst).length := by simpa using hlt
      have hkey : p.key = (m.entries.map Prod.fst)[j] := by simp [entries, hpj]
      rw [hkey, List.set_getElem_self]
  · rw [hentries, (List.set_perm_cons_eraseIdx (by simpa using hlt) _).mem_iff, List.mem_cons,
      mem_eraseIdx_of_nodup hw.nodup hj]

/-- **`InsertOrSet` of a key that is there assigns to its value** and keeps the other pairs. -/
theorem insertOrSet_of_mem (hw : m.WF T) {k : K} {w : V} (v : V) (h : (k, w) ∈ m.entries) :
    ∃ m', m.insertOrSet T k v = some m' ∧ m'.WF T ∧ m'.buckets.length = m.buckets.length ∧
      ∀ x, x ∈ m'.entries ↔ x = (k, T.assign w v) ∨ (x ∈ m.entries ∧ x.1 ≠ k) := by
  obtain ⟨chain, hl⟩ := hw.linked
  obtain ⟨j, hk, hj⟩ := mem_entries_iff.mp h
  obtain ⟨l₁, l₂, -, hget⟩ := getElement_of_mem hw.sized hw.nodup hl hk (by omega)
  obtain ⟨j', p, heq, hp, rfl, -, hp'⟩ := bucket_of_keyAt hk
  obtain rfl : j = j' := by omega
  obtain rfl : p.v = w := by simpa [hp'] using hj
  refine ⟨m.store j (T.assign p.v v), ?_, store_spec hw hp _⟩
  simp only [insertOrSet, hw.sized.bucket_eq, hget, Option.bind_eq_bind, Option.bind_some,
    Nat.succ_ne_zero, if_false, Nat.add_sub_cancel, hp, Option.pure_def, store,
    List.modify_eq_set_getElem?]
  rfl

/-- `Remove` of a key that is not there does nothing. -/
theorem remove_of_not_mem (hw : m.WF T) {k : K} (h : ∀ w, (k, w) ∉ m.entries) :
    m.remove T k = some m := by
  obtain ⟨chain, hl⟩ := hw.linked
  have hget := getElement_of_not_mem hw.sized hl fun i _ => keyAt_ne_of_not_mem h i
  rcases hb : m.buckets with _ | ⟨p, _ | ⟨p', ps⟩⟩
  · simp [remove, hb]
  · have hne : p.key ≠ k := by
      rintro rfl
      exact h p.v (by simp [entries, hb])
    simp [remove, hb, hne]
  · have h0 : m.buckets.length ≠ 0 := by simp [hb]
    have h1 : m.buckets.length ≠ 1 := by simp [hb]
    simp only [remove, h0, h1, if_false, hw.sized.bucket_eq, hget, if_true, Option.bind_eq_bind,
      Option.bind_some, Option.pure_def]

/-- `Remove` of the only key. -/
theorem remove_single (hw : m.WF T) {p : Pair K V} (hb : m.buckets = [p]) :
    ∃ m', m.remove T p.key = some m' ∧ m'.WF T ∧ m'.entries = [] := by
  obtain ⟨chain, hl⟩ := hw.linked
  have hk : m.keyAt 1 = some p.key := by simp [keyAt, entries, hb]
  obtain ⟨i, hi, hpath⟩ := hl.path hw.sized p.key
  have hmem : 1 ∈ chain (m.slot T p.key) := ((hl _ _ hi).2 1).mpr ⟨by omega, _, hk, rfl⟩
  have hchain : chain (m.slot T p.key) = [] ++ 1 :: [] := by
    have hlen := length_le_of_path hpath fun a ha => hl.keyAt_isSome hi ha
    obtain ⟨a, ha⟩ := List.length_eq_one_iff.mp
      (le_antisymm (by simpa [hb] using hlen) (List.length_pos_of_mem hmem))
    rw [ha, List.mem_singleton] at hmem
    rw [ha, ← hmem, List.nil_append]
  rw [hchain] at hpath
  obtain ⟨rfl, -, hlink⟩ := hpath
  have hlink : m.link 1 = 0 := hlink
  obtain ⟨m', hset, -, -, -, hl'⟩ := hl.unlink (hw.sized.slot_lt p.key) hchain
  obtain rfl : m' = ⟨m.heads.set (m.slot T p.key) 0, [p], m.baseHash⟩ := by
    have hb' : ({ m with heads := m.heads.set (m.slot T p.key) 0 } : FlatHashMap K V) =
        ⟨m.heads.set (m.slot T p.key) 0, [p], m.baseHash⟩ := by rw [← hb]
    rw [← hb']
    simpa [setLink, hlink, guard, hw.sized.slot_lt] using hset.symm
  refine ⟨⟨m.heads.set (m.slot T p.key) 0, [], m.baseHash⟩, ?_, ⟨?_, List.nodup_nil, ?_⟩, rfl⟩
  · simp [remove, hb, hw.sized.bucket_eq, hi, guard]
  · obtain ⟨e, h4, h31, he⟩ := hw.sized
    exact ⟨e, h4, h31, by simpa using he⟩
  · exact ⟨_, Linked.dropLast [] rfl hl'⟩

/-- The second half of `Remove`, from a state in which bucket `j` is on no chain: the
last bucket goes into its place. -/
theorem moveLast_spec (hs : m.Sized) (hnd : (m.entries.map Prod.fst).Nodup)
    {chain : ℕ → List ℕ} {j : ℕ} (hl : m.Linked T chain (j + 1)) {bs : List (Pair K V)}
    {q target : Pair K V} (hbs : m.buckets = bs ++ [q]) (hj : bs[j]? = some target)
    (hassign : T.assign target.v q.v = q.v) :
    ∃ prev, m.getElement T q.key (m.slot T q.key) = some ⟨bs.length + 1, prev⟩ ∧ prev ≠ j + 1 ∧
      ∃ m₁ m', m.moveLast T j = some m₁ ∧ m₁.setLink (m.slot T q.key) prev (j + 1) = some m' ∧
        m'.baseHash = m.baseHash ∧ m'.heads.length = m.heads.length ∧
        m'.entries = swapRemove m.entries j ∧ ∃ chain', m'.Linked T chain' 0 := by
  obtain ⟨hlt, -⟩ := List.getElem?_eq_some_iff.mp hj
  have hk : m.keyAt (bs.length + 1) = some q.key := by rw [keyAt_concat hbs, if_pos rfl]
  obtain ⟨l₁, l₂, hch, hget⟩ := getElement_of_mem hs hnd hl hk (by omega)
  obtain ⟨i, hi, hpath⟩ := hl.path hs q.key
  refine ⟨Path.prevOf l₁, hget, ?_, ?_⟩
  · rcases Path.prevOf_mem l₁ with rfl | hin
    · simp
    · exact (((hl _ _ hi).2 _).mp (by rw [hch]; exact List.mem_append_left _ hin)).1
  · obtain ⟨m', hset, hb, he, hh, hl'⟩ := hl.moveLast hbs hlt (hs.slot_lt q.key) hch
      (q := ⟨q.key, T.assign target.v q.v, q.next⟩) rfl rfl
    refine ⟨_, m', ?_, hset, hb, hh, ?_, _, hl'⟩
    · simp [FlatHashMap.moveLast, hbs, List.getElem?_append_left hlt, hj,
        List.set_append_left _ _ hlt]
    · rw [he]
      simp [entries, hbs, hassign]

/-- `Remove` once its pair is found and off its chain: the last pair is dropped, or moved into the
place. -/
theorem remove_found (hs : m.Sized) (hlen : 1 < m.buckets.length) {k : K} {j prev : ℕ} {p q : Pair K V}
    {bs : List (Pair K V)} {m₁ : FlatHashMap K V}
    (hget : m.getElement T k (m.slot T k) = some ⟨j + 1, prev⟩) (hp : m.buckets[j]? = some p)
    (hset : m.setLink (m.slot T k) prev p.next = some m₁) (hbs : m₁.buckets = bs ++ [q]) :
    m.remove T k = (if j + 1 = m₁.buckets.length then some { m₁ with buckets := bs } else do
      let bucketHeadLast ← m₁.bucket T q.key
      let pairLast ← m₁.getElement T q.key bucketHeadLast
      let m₂ ← m₁.moveLast T j
      m₂.setLink bucketHeadLast (if pairLast.prev = j + 1 then prev else pairLast.prev) (j + 1)) := by
  have h0 : m.buckets.length ≠ 0 := by omega
  have h1 : m.buckets.length ≠ 1 := by omega
  have hdrop : m₁.buckets.dropLast = bs := by rw [hbs, List.dropLast_concat]
  have hlast : m₁.buckets.getLast? = some q := by rw [hbs, List.getLast?_concat]
  simp only [remove, h0, h1, if_false, hs.bucket_eq, hget, Nat.add_one_ne_zero, Nat.add_sub_cancel, hp,
    hset, hdrop, hlast, Option.bind_eq_bind, Option.bind_some, Option.pure_def]

/-- **`Remove` of a key that is there removes its pair,** the last pair moving into its place. -/
theorem remove_of_mem (hw : m.WF T) {k : K} {w : V} (h : (k, w) ∈ m.entries)
    (hassign : ∀ v, T.assign w v = v) :
    ∃ j m', m.entries[j]? = some (k, w) ∧ m.remove T k = some m' ∧ m'.WF T ∧
      m'.entries = swapRemove m.entries j := by
  obtain ⟨j, hk, hj⟩ := mem_entries_iff.mp h
  obtain ⟨hjlt, -⟩ := List.getElem?_eq_some_iff.mp hj
  rw [length_entries] at hjlt
  refine ⟨j, ?_⟩
  obtain ⟨j', p, heq, hp, rfl, hnext, hp'⟩ := bucket_of_keyAt hk
  obtain rfl : j = j' := by omega
  rcases Nat.lt_or_ge 1 m.buckets.length with hmany | hone
  · obtain ⟨chain, hl⟩ := hw.linked
    obtain ⟨l₁, l₂, hch, hget⟩ := getElement_of_mem hw.sized hw.nodup hl hk (by omega)
    obtain ⟨m₁, hset, hb₁, he₁, hh₁, hl₁⟩ := hl.unlink (hw.sized.slot_lt p.key) hch
    rw [hnext] at hset
    have hn₁ : m₁.buckets.length = m.buckets.length := by
      rw [← length_entries, he₁, length_entries]
    have hs₁ : m₁.Sized := by
      rw [Sized, hh₁]
      exact hw.sized
    obtain ⟨bs, q, hbs⟩ := exists_concat (m := m₁) (by omega)
    have hbslen : bs.length + 1 = m.buckets.length := by rw [← hn₁, hbs]; simp
    have hentries : m.entries = (bs.map fun p => (p.key, p.v)) ++ [(q.key, q.v)] := by
      rw [← he₁]
      simp [entries, hbs]
    rw [remove_found hw.sized hmany hget hp hset hbs]
    split_ifs with hlast
    · obtain rfl : j = bs.length := by omega
      refine ⟨_, hj, rfl, ⟨hs₁, ?_, _, Linked.dropLast bs hbs hl₁⟩, ?_⟩
      · exact (hentries ▸ hw.nodup).sublist (by simp [entries])
      · rw [hentries, swapRemove_concat, List.set_eq_of_length_le (by simp)]
        rfl
    · have hjbs : j < bs.length := by omega
      obtain ⟨target, htarget⟩ : ∃ t, bs[j]? = some t := ⟨_, List.getElem?_eq_getElem hjbs⟩
      have hv : target.v = w := by
        rw [hentries, List.getElem?_append_left (by simpa using hjbs)] at hj
        simp only [List.getElem?_map, htarget, Option.map_some, Option.some.injEq,
          Prod.mk.injEq] at hj
        exact hj.2
      obtain ⟨prev, hgetLast, hprev, m₂, m', hmove, hset', hb', hh', he', hl'⟩ :=
        moveLast_spec hs₁ (by rw [he₁]; exact hw.nodup) hl₁ hbs htarget (by rw [hv, hassign])
      refine ⟨m', hj, ?_, ⟨?_, ?_, hl'⟩, by rw [he', he₁]⟩
      · simp only [hs₁.bucket_eq, hgetLast, hprev, if_false, hmove, hset', Option.bind_eq_bind,
          Option.bind_some]
      · rw [Sized, hh']
        exact hs₁
      · rw [he', he₁, map_swapRemove]
        exact nodup_swapRemove hw.nodup (by simpa using hjlt)
  · obtain ⟨p₀, hb⟩ := List.length_eq_one_iff.mp (by omega : m.buckets.length = 1)
    obtain rfl : j = 0 := by omega
    obtain rfl : p₀ = p := by simpa [hb] using hp
    obtain ⟨m', hrem, hw', he'⟩ := remove_single hw hb
    exact ⟨m', hj, hrem, hw', by rw [he']; simp [entries, hb, swapRemove]⟩

/-- **Taking a value out:** its pair is left with a value that can be assigned to, and
removed. -/
theorem store_remove_spec (hw : m.WF T) {j : ℕ} {p : Pair K V} (hp : m.buckets[j]? = some p) {v : V}
    (hassign : ∀ u, T.assign v u = u) :
    ∃ m', (m.store j v).remove T p.key = some m' ∧ m'.WF T ∧
      m'.buckets.length ≤ m.buckets.length ∧
      ∀ x, x ∈ m'.entries ↔ x ∈ m.entries ∧ x.1 ≠ p.key := by
  obtain ⟨hw₁, hlen, hmem⟩ := store_spec hw hp v
  obtain ⟨i, m', hi, hrun, hw', he'⟩ := remove_of_mem hw₁ ((hmem _).mpr (.inl rfl)) hassign
  obtain ⟨hlt, -⟩ := List.getElem?_eq_some_iff.mp hi
  refine ⟨m', hrun, hw', ?_, fun x => ?_⟩
  · rw [← length_entries, he', length_swapRemove, length_entries]
    omega
  · rw [he', (swapRemove_perm hlt).mem_iff, mem_eraseIdx_of_nodup hw₁.nodup hi, hmem]
    constructor
    · rintro ⟨rfl | hx, hne⟩
      · exact absurd rfl hne
      · exact hx
    · exact fun hx => ⟨.inr hx, hx.2⟩

end FlatHashMap
end ICon7
