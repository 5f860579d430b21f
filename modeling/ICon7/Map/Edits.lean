/-
# Edits of the chains

Inserting a bucket, unlinking one and moving the last bucket into the freed
place each replace the end of one chain by writing one link.  `Linked.relink`
says once what such a write does to all chains, and the three edits of
`FlatHashMap` are instances (`Linked.push`, `Linked.unlink`, `Linked.moveLast`).
-/

import ICon7.Map.Chains

namespace ICon7
namespace FlatHashMap

open Lib

variable {K V : Type} {T : MapTraits K V} {m m' : FlatHashMap K V}
variable {chain : ℕ → List ℕ} {dead dead' h t : ℕ} {l l₁ l₂ : List ℕ}

/-- An index has one home. -/
theorem Home.unique {a h h' : ℕ} (hh : m.Home T dead a h) (hh' : m.Home T dead a h') : h = h' := by
  obtain ⟨-, k, hk, rfl⟩ := hh
  obtain ⟨-, k', hk', rfl⟩ := hh'
  rw [hk] at hk'
  rw [Option.some.inj hk']

/-- No index with a home is `0`. -/
theorem Home.ne_zero {a : ℕ} (hh : m.Home T dead a h) : a ≠ 0 := by
  obtain ⟨-, k, hk, -⟩ := hh
  rintro rfl
  simp [keyAt] at hk

/-- **Writing one link edits one chain.**  `m'` differs from `m` in the head of chain
`h` or in the link of the last index of `l₁`, which now lead to `t`, and `l` is the
path from there.  Every index whose home is another chain is where it was. -/
theorem Linked.relink (hl : m.Linked T chain dead) (hlt : h < m.heads.length)
    (hch : chain h = l₁ ++ l₂)
    (hheads : m'.heads = if l₁ = [] then m.heads.set h t else m.heads)
    (hlink : ∀ a ∈ l₁, a ≠ Path.prevOf l₁ → m'.link a = m.link a)
    (hprev : l₁ ≠ [] → m'.link (Path.prevOf l₁) = t) (hpath : Path m'.link t l)
    (hfar : ∀ a h', h' ≠ h → m.Home T dead a h' → m'.link a = m.link a)
    (hnear : ∀ a, a ∈ l₁ ++ l ↔ m'.Home T dead' a h)
    (hhome : ∀ a h', h' ≠ h → (m'.Home T dead' a h' ↔ m.Home T dead a h')) :
    m'.Linked T (Function.update chain h (l₁ ++ l)) dead' := by
  intro h' i hi
  rcases eq_or_ne h' h with rfl | hne
  · rw [Function.update_self]
    refine ⟨?_, hnear⟩
    have hold := (hl h' _ (List.getElem?_eq_getElem hlt)).1
    rw [hch] at hold
    have := hold.relink hpath hlink hprev
    rw [hheads] at hi
    split_ifs at hi this with hnil
    · rw [List.getElem?_set_self hlt] at hi
      rwa [← Option.some.inj hi]
    · rw [List.getElem?_eq_getElem hlt] at hi
      rwa [← Option.some.inj hi]
  · rw [Function.update_of_ne hne]
    have hi' : m.heads[h']? = some i := by
      rw [hheads] at hi
      split_ifs at hi
      · rwa [List.getElem?_set_ne hne.symm] at hi
      · exact hi
    obtain ⟨hp, hmem⟩ := hl h' i hi'
    exact ⟨hp.congr fun a ha => hfar a h' hne ((hmem a).mp ha),
      fun a => (hmem a).trans (hhome a h' hne).symm⟩

/-- An index with a home on a chain of another key is not on this one. -/
theorem Linked.ne_of_home (hl : m.Linked T chain dead) {i a b h' : ℕ} (hi : m.heads[h]? = some i)
    (hb : b ∈ chain h) (hne : h' ≠ h) (ha : m.Home T dead a h') : a ≠ b := by
  rintro rfl
  exact hne (ha.unique (((hl h i hi).2 a).mp hb))

/-- An index of another chain is not where the link to `l₂` is written. -/
theorem Linked.ne_prevOf_of_home (hl : m.Linked T chain dead) {a h' : ℕ} (hlt : h < m.heads.length)
    (hch : chain h = l₁ ++ l₂) (hne : h' ≠ h) (ha : m.Home T dead a h') : a ≠ Path.prevOf l₁ := by
  rcases Path.prevOf_mem l₁ with rfl | hin
  · exact ha.ne_zero
  · exact hl.ne_of_home (List.getElem?_eq_getElem hlt) (by rw [hch]; exact List.mem_append_left _ hin) hne ha

theorem keyAt_of_entries {i : ℕ} (he : m'.entries = m.entries) : m'.keyAt i = m.keyAt i := by
  rcases i with _ | i
  · rfl
  · simp [keyAt, he]

theorem slot_of_heads {k : K} (hb : m'.baseHash = m.baseHash)
    (hh : m'.heads.length = m.heads.length) : m'.slot T k = m.slot T k := by
  rw [slot, slot, hb, hh]

/-- `setLink` writes one link and nothing else. -/
theorem setLink_spec {b prev t : ℕ} (hb : b < m.heads.length)
    (hp : prev = 0 ∨ (m.keyAt prev).isSome) :
    ∃ m', m.setLink b prev t = some m' ∧ m'.baseHash = m.baseHash ∧ m'.entries = m.entries ∧
      m'.heads = (if prev = 0 then m.heads.set b t else m.heads) ∧
      ∀ i, m'.link i = if prev ≠ 0 ∧ i = prev then t else m.link i := by
  rcases hp with rfl | hp
  · exact ⟨{ m with heads := m.heads.set b t }, by simp [setLink, guard, hb], rfl, rfl, by simp,
      fun i => by simp [link.eq_def]⟩
  · obtain ⟨k, hk⟩ := Option.isSome_iff_exists.mp hp
    obtain ⟨j, p, rfl, hj, -, -, -⟩ := bucket_of_keyAt hk
    obtain ⟨hlt, hget⟩ := List.getElem?_eq_some_iff.mp hj
    refine ⟨{ m with buckets := m.buckets.set j { p with next := t } }, ?_, rfl, ?_, by simp,
      fun i => ?_⟩
    · simp [setLink, hj]
    · have hlt' : j < m.entries.length := by simpa using hlt
      have hentry : (p.key, p.v) = m.entries[j] := by simp [entries, hget]
      change ((m.buckets.set j { p with next := t }).map fun p => (p.key, p.v)) = m.entries
      rw [List.map_set]
      change m.entries.set j (p.key, p.v) = m.entries
      rw [hentry, List.set_getElem_self]
    · rcases i with _ | i
      · simp [link]
      · rcases eq_or_ne i j with rfl | hne
        · simp [link, hlt]
        · simp [link, hne, hne.symm]

theorem home_congr (he : m'.entries = m.entries) (hb : m'.baseHash = m.baseHash)
    (hh : m'.heads.length = m.heads.length) {a h : ℕ} :
    m'.Home T dead a h ↔ m.Home T dead a h := by
  simp only [Home, keyAt_of_entries he, slot_of_heads hb hh]

theorem home_dead {a c h : ℕ} : m.Home T c a h ↔ a ≠ c ∧ m.Home T 0 a h := by
  constructor
  · intro hh
    exact ⟨hh.1, hh.ne_zero, hh.2⟩
  · rintro ⟨hne, -, hh⟩
    exact ⟨hne, hh⟩

/-- **Unlinking takes one index off its chain.** -/
theorem Linked.unlink (hl : m.Linked T chain 0) (hlt : h < m.heads.length) {c : ℕ}
    (hch : chain h = l₁ ++ c :: l₂) :
    ∃ m', m.setLink h (Path.prevOf l₁) (m.link c) = some m' ∧ m'.baseHash = m.baseHash ∧
      m'.entries = m.entries ∧ m'.heads.length = m.heads.length ∧
      m'.Linked T (Function.update chain h (l₁ ++ l₂)) c := by
  have hi := List.getElem?_eq_getElem hlt
  obtain ⟨hp, hmem⟩ := hl h _ hi
  have hpath := hp
  rw [hch] at hpath
  have hvalid : Path.prevOf l₁ = 0 ∨ (m.keyAt (Path.prevOf l₁)).isSome := by
    rcases Path.prevOf_mem l₁ with rfl | hin
    · exact .inl rfl
    · exact .inr (hl.keyAt_isSome hi (by rw [hch]; exact List.mem_append_left _ hin))
  obtain ⟨m', hset, hb, he, hheads, hlink⟩ := setLink_spec (t := m.link c) hlt hvalid
  have hlen : m'.heads.length = m.heads.length := by rw [hheads]; split_ifs <;> simp
  have hsame : ∀ a, a ≠ Path.prevOf l₁ → m'.link a = m.link a := fun a ha => by
    rw [hlink, if_neg fun hc => ha hc.2]
  refine ⟨m', hset, hb, he, hlen, hl.relink (t := m.link c) hlt hch ?_ (fun a _ => hsame a) ?_ ?_ ?_ ?_ ?_⟩
  · simp only [hheads, hpath.prevOf_eq_zero]
  · intro hne
    rw [hlink, if_pos ⟨fun h0 => hne (hpath.prevOf_eq_zero.mp h0), rfl⟩]
  · exact hpath.of_append.2.2.congr fun a ha => hsame a (hpath.ne_prevOf (List.mem_cons_of_mem _ ha))
  · exact fun a h' hne ha => hsame a (hl.ne_prevOf_of_home hlt hch hne ha)
  · intro a
    rw [home_congr he hb hlen, home_dead, ← hmem a, hch]
    exact hpath.mem_append_iff
  · intro a h' hne
    rw [home_congr he hb hlen, home_dead]
    refine ⟨fun ha => ha.2, fun ha => ⟨?_, ha⟩⟩
    exact hl.ne_of_home hi (by rw [hch]; simp) hne ha

section Buckets

variable {bs : List (Pair K V)} {p : Pair K V} {j : ℕ}

theorem link_concat (hbs : m.buckets = bs ++ [p]) (a : ℕ) :
    m.link a = if a = bs.length + 1 then p.next else { m with buckets := bs }.link a := by
  rcases a with _ | a
  · simp [link]
  · rcases lt_trichotomy a bs.length with ha | rfl | ha
    · simp [link, hbs, List.getElem?_append_left ha, ha.ne]
    · simp [link, hbs]
    · simp [link, hbs, ha, ha.ne', ha.le]

theorem keyAt_concat (hbs : m.buckets = bs ++ [p]) (a : ℕ) :
    m.keyAt a = if a = bs.length + 1 then some p.key else { m with buckets := bs }.keyAt a := by
  rcases a with _ | a
  · simp [keyAt]
  · rcases lt_trichotomy a bs.length with ha | rfl | ha
    · simp [keyAt, entries, hbs, ha.ne, List.getElem?_append, ha]
    · simp [keyAt, entries, hbs]
    · simp [keyAt, entries, hbs, ha, ha.ne', ha.le]

theorem link_set (hj : j < bs.length) (a : ℕ) :
    { m with buckets := bs.set j p }.link a =
      if a = j + 1 then p.next else { m with buckets := bs }.link a := by
  rcases a with _ | a
  · simp [link]
  · rcases eq_or_ne a j with rfl | hne
    · simp [link, hj]
    · simp [link, hne, hne.symm]

theorem keyAt_set (hj : j < bs.length) (a : ℕ) :
    { m with buckets := bs.set j p }.keyAt a =
      if a = j + 1 then some p.key else { m with buckets := bs }.keyAt a := by
  rcases a with _ | a
  · simp [keyAt]
  · rcases eq_or_ne a j with rfl | hne
    · simp [keyAt, entries, hj]
    · simp [keyAt, entries, hne, hne.symm]

/-- Dropping the last bucket when it is on no chain. -/
theorem Linked.dropLast (bs : List (Pair K V)) (hbs : m.buckets = bs ++ [p]) (hl : m.Linked T chain (bs.length + 1)) :
    { m with buckets := bs }.Linked T chain 0 := by
  intro h i hi
  obtain ⟨hp, hmem⟩ := hl h i hi
  have hkey : ∀ a, a ≠ bs.length + 1 → { m with buckets := bs }.keyAt a = m.keyAt a :=
    fun a ha => by rw [keyAt_concat hbs, if_neg ha]
  refine ⟨hp.congr fun a ha => ?_, fun a => (hmem a).trans ?_⟩
  · rw [link_concat hbs, if_neg ((hmem a).mp ha).1]
  · constructor
    · rintro ⟨hne, k, hk, hs⟩
      exact ⟨hp.ne_zero ((hmem a).mpr ⟨hne, k, hk, hs⟩), k, by rw [hkey a hne, hk], hs⟩
    · rintro ⟨-, k, hk, hs⟩
      have hne : a ≠ bs.length + 1 := by
        have := (keyAt_isSome_iff (m := { m with buckets := bs })).mp (by rw [hk]; rfl)
        simp only at this
        omega
      exact ⟨hne, k, by rw [← hkey a hne, hk], hs⟩

/-- **A new bucket is the first of its chain.** -/
theorem Linked.push (hl : m.Linked T chain 0) {key : K} {v : V} {i : ℕ} (hh : m.slot T key = h)
    (hi : m.heads[h]? = some i) :
    Linked T ⟨m.heads.set h (m.buckets.length + 1), m.buckets ++ [⟨key, v, i⟩], m.baseHash⟩
      (Function.update chain h ((m.buckets.length + 1) :: chain h)) 0 := by
  set m' : FlatHashMap K V :=
    ⟨m.heads.set h (m.buckets.length + 1), m.buckets ++ [⟨key, v, i⟩], m.baseHash⟩ with hm'
  have hlink : ∀ a, m'.link a = if a = m.buckets.length + 1 then i else m.link a :=
    link_concat (m := m') rfl
  have hkey : ∀ a, m'.keyAt a = if a = m.buckets.length + 1 then some key else m.keyAt a :=
    keyAt_concat (m := m') rfl
  have hslot : ∀ k, m'.slot T k = m.slot T k := fun k => slot_of_heads rfl (by simp [hm'])
  have hold : ∀ {a h'}, m.Home T 0 a h' → a ≠ m.buckets.length + 1 := by
    rintro a h' ⟨-, k, hk, -⟩
    have := keyAt_isSome_iff.mp (by rw [hk]; rfl : (m.keyAt a).isSome)
    omega
  obtain ⟨hp, hmem⟩ := hl h i hi
  have hhome : ∀ a h', m'.Home T 0 a h' ↔
      (a = m.buckets.length + 1 ∧ h' = h) ∨ m.Home T 0 a h' := by
    intro a h'
    simp only [Home, hkey, hslot]
    split_ifs with ha
    · subst ha
      constructor
      · rintro ⟨-, k, hk, hs⟩
        obtain rfl := Option.some.inj hk
        exact .inl ⟨rfl, hs.symm.trans hh⟩
      · rintro (⟨-, rfl⟩ | hb)
        · exact ⟨by omega, key, rfl, hh⟩
        · exact absurd rfl (hold hb)
    · simp [ha]
  refine hl.relink (t := m.buckets.length + 1) (List.getElem?_eq_some_iff.mp hi).1
    (show chain h = [] ++ chain h from rfl) (if_pos rfl).symm (by simp) (fun h => absurd rfl h)
    ?_ ?_ ?_ ?_
  · refine ⟨rfl, by omega, ?_⟩
    rw [hlink, if_pos rfl]
    exact hp.congr fun a ha => by rw [hlink, if_neg (hold ((hmem a).mp ha))]
  · intro a h' _ ha
    rw [hlink, if_neg (hold ha)]
  · intro a
    rw [hhome, List.nil_append, List.mem_cons, hmem]
    simp
  · intro a h' hne
    rw [hhome]
    simp [hne]

/-- The homes when the last bucket is put into place `j`: its key has its home at `j + 1`, and
the last index has none. -/
theorem home_set (hbs : m.buckets = bs ++ [p]) (hj : j < bs.length) {q : Pair K V}
    (hkey : q.key = p.key) (hslot : m.slot T p.key = h) (a h' : ℕ) :
    { m with buckets := bs.set j q }.Home T 0 a h' ↔
      (a = j + 1 ∧ h' = h) ∨ (a ≠ bs.length + 1 ∧ m.Home T (j + 1) a h') := by
  rcases eq_or_ne a (j + 1) with rfl | h1
  · constructor
    · rintro ⟨-, k, hk, hs⟩
      rw [keyAt_set hj, if_pos rfl, hkey] at hk
      exact .inl ⟨rfl, by rw [← hslot, Option.some.inj hk]; exact hs.symm⟩
    · rintro (⟨-, rfl⟩ | ⟨-, hdead, -⟩)
      · exact ⟨by omega, p.key, by rw [keyAt_set hj, if_pos rfl, hkey], hslot⟩
      · exact absurd rfl hdead
  rcases eq_or_ne a (bs.length + 1) with rfl | h2
  · constructor
    · rintro ⟨-, k, hk, -⟩
      have hle := (keyAt_isSome_iff.mp (Option.isSome_of_eq_some hk)).2
      simp at hle
    · rintro (⟨h', -⟩ | ⟨h', -⟩)
      · exact absurd h' h1
      · exact absurd rfl h'
  -- away from the hole and the last index the move changes nothing
  have hkeyAt : { m with buckets := bs.set j q }.keyAt a = m.keyAt a := by
    rw [keyAt_concat hbs, if_neg h2, keyAt_set hj, if_neg h1]
  constructor
  · rintro ⟨-, k, hk, hs⟩
    exact .inr ⟨h2, h1, k, by rw [← hkeyAt, hk], hs⟩
  · rintro (⟨h', -⟩ | ⟨-, hh⟩)
    · exact absurd h' h1
    · obtain ⟨-, k, hk, hs⟩ := hh
      exact ⟨Home.ne_zero ⟨h1, k, hk, hs⟩, k, by rw [hkeyAt, hk], hs⟩

/-- **The last bucket takes the freed place.**  `j + 1` is on no chain, `q` has the key
and the link of the last bucket, and the link that led to the last bucket now leads to
`j + 1`: the chain of the moved bucket has `j + 1` where it had the last index. -/
theorem Linked.moveLast (hl : m.Linked T chain (j + 1)) (hbs : m.buckets = bs ++ [p])
    (hj : j < bs.length) (hlt : h < m.heads.length) (hch : chain h = l₁ ++ (bs.length + 1) :: l₂)
    {q : Pair K V} (hkey : q.key = p.key) (hnext : q.next = p.next) :
    ∃ m', { m with buckets := bs.set j q }.setLink h (Path.prevOf l₁) (j + 1) = some m' ∧
      m'.baseHash = m.baseHash ∧ m'.entries = { m with buckets := bs.set j q }.entries ∧
      m'.heads.length = m.heads.length ∧
      m'.Linked T (Function.update chain h (l₁ ++ (j + 1) :: l₂)) 0 := by
  set m₁ : FlatHashMap K V := { m with buckets := bs.set j q } with hm₁
  have hi := List.getElem?_eq_getElem hlt
  obtain ⟨hpath, hmem⟩ := hl h _ hi
  rw [hch] at hpath hmem
  have hlast : m.Home T (j + 1) (bs.length + 1) h := (hmem _).mp (by simp)
  have hslot : m.slot T p.key = h := by
    obtain ⟨-, k, hk, hs⟩ := hlast
    rw [keyAt_concat hbs, if_pos rfl] at hk
    rw [Option.some.inj hk, hs]
  -- away from the hole and the last index the move changes nothing
  have hlink₁ : ∀ a, a ≠ j + 1 → a ≠ bs.length + 1 → m₁.link a = m.link a := fun a h1 h2 => by
    rw [link_concat hbs, if_neg h2, hm₁, link_set hj, if_neg h1]
  have hkey₁ : ∀ a, a ≠ j + 1 → a ≠ bs.length + 1 → m₁.keyAt a = m.keyAt a := fun a h1 h2 => by
    rw [keyAt_concat hbs, if_neg h2, hm₁, keyAt_set hj, if_neg h1]
  have hfront : ∀ a ∈ l₁, m.Home T (j + 1) a h ∧ a ≠ bs.length + 1 := fun a ha => by
    refine ⟨(hmem a).mp (List.mem_append_left _ ha), ?_⟩
    exact (List.nodup_append.mp hpath.nodup).2.2 a ha _ List.mem_cons_self
  have hvalid : Path.prevOf l₁ = 0 ∨ (m₁.keyAt (Path.prevOf l₁)).isSome := by
    rcases Path.prevOf_mem l₁ with rfl | hin
    · exact .inl rfl
    · obtain ⟨⟨hne, k, hk, -⟩, hne'⟩ := hfront _ hin
      rw [hkey₁ _ hne hne', hk]
      exact .inr rfl
  obtain ⟨m', hset, hb, he, hheads, hlink⟩ := setLink_spec (t := j + 1) (m := m₁) hlt hvalid
  have hlen : m'.heads.length = m.heads.length := by rw [hheads]; split_ifs <;> simp [hm₁]
  have hsame : ∀ a, a ≠ Path.prevOf l₁ → a ≠ j + 1 → a ≠ bs.length + 1 → m'.link a = m.link a :=
    fun a h0 h1 h2 => by rw [hlink, if_neg fun hc => h0 hc.2, hlink₁ a h1 h2]
  have hhome : ∀ a h', m'.Home T 0 a h' ↔
      (a = j + 1 ∧ h' = h) ∨ (a ≠ bs.length + 1 ∧ m.Home T (j + 1) a h') := by
    intro a h'
    rw [home_congr he hb hlen]
    exact home_set hbs hj hkey hslot a h'
  refine ⟨m', hset, hb, he, hlen, hl.relink (t := j + 1) hlt hch ?_ ?_ ?_ ?_ ?_ ?_ ?_⟩
  · rw [hheads]
    simp only [hpath.prevOf_eq_zero]
    rfl
  · intro a ha hne
    exact hsame a hne (hfront a ha).1.1 (hfront a ha).2
  · intro hne
    rw [hlink, if_pos ⟨fun h0 => hne (hpath.prevOf_eq_zero.mp h0), rfl⟩]
  · have hhole : j + 1 ≠ Path.prevOf l₁ := by
      rcases Path.prevOf_mem l₁ with rfl | hin
      · simp
      · exact (hfront _ hin).1.1.symm
    have hrest : m'.link (j + 1) = m.link (bs.length + 1) := by
      rw [hlink, if_neg fun hc => hhole hc.2, hm₁, link_set hj, if_pos rfl, hnext,
        link_concat hbs, if_pos rfl]
    refine ⟨rfl, by omega, ?_⟩
    rw [hrest]
    refine hpath.of_append.2.2.congr fun a ha => hsame a ?_ ?_ ?_
    · exact hpath.ne_prevOf (List.mem_cons_of_mem _ ha)
    · exact ((hmem a).mp (by simp [ha])).1
    · rintro rfl
      exact (List.nodup_cons.mp (List.nodup_append.mp hpath.nodup).2.1).1 ha
  · intro a h' hne ha
    refine hsame a (hl.ne_prevOf_of_home hlt hch hne ha) ha.1 ?_
    rintro rfl
    exact hne (ha.unique hlast)
  · intro a
    rw [hhome, ← hmem a, ← hpath.mem_append_iff, List.mem_append, List.mem_cons, List.mem_append]
    tauto
  · intro a h' hne
    rw [hhome]
    constructor
    · rintro (⟨-, h0⟩ | ⟨-, ha⟩)
      · exact absurd h0 hne
      · exact ha
    · intro ha
      exact .inr ⟨by rintro rfl; exact hne (ha.unique hlast), ha⟩

end Buckets

end FlatHashMap
end ICon7
