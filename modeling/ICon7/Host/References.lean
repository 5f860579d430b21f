/-
# The peer lists of hosts

`PeerReferences` of `src/PeerManager.cpp`: every host keeps a vector of its own
peers, and `perHostOffset` of the shared `PeerManager` holds, for every slot, the
place of its peer in the vector of its host.  A release moves the last peer of the
vector into the hole, and finds the slot of that peer in the handle it knows.

The lists mirror the manager (`Mirrors`): a peer stands at a place of a host's list
exactly when it is a live peer of that host and its offset is that place.
-/

import ICon7.Peer.Manager

namespace ICon7
namespace PeerReferences

open Lib

variable {P : Type}

/-- `PeerReferences::Alloc` of a peer whose `peerHandle` is the given one. -/
def alloc (m : PeerManager P) (peers : List P) (peerData : P) (peerHandle : PeerHandle) :
    Option (PeerManager P × List P × PeerHandle) := do
  let (m, handle) ← m.alloc peerData peerHandle
  guard (handle.id < m.perHostOffset.length)
  return ({ m with perHostOffset := m.perHostOffset.set handle.id peers.length },
    peers ++ [peerData], handle)

/-- The removal of the peer at `off` from the vector: the last peer moves into the hole and
its slot, given by `idOf`, gets the offset. -/
def removeAt (idOf : P → ℕ) (m : PeerManager P) (peers : List P) (off : ℤ) :
    Option (PeerManager P × List P) := do
  let last ← peers.getLast?
  if off + 1 ≠ peers.length then
    guard (0 ≤ off ∧ off < peers.length ∧ idOf last < m.perHostOffset.length)
    return ({ m with perHostOffset := m.perHostOffset.set (idOf last) off },
      (peers.set off.toNat last).dropLast)
  return (m, peers.dropLast)

/-- `PeerReferences::Release` on the host, with the hosts of the peers and the slots in the
handles they know; the inner `none` is the null pointer. -/
def release (hostOf idOf : P → ℕ) (host : ℕ) (m : PeerManager P) (peers : List P)
    (handle : PeerHandle) : Option (PeerManager P × List P × Option P) := do
  let (m, data) ← m.release handle
  match data with
  | none => return (m, peers, none)
  | some data =>
    guard (hostOf data = host)
    let off ← m.perHostOffset[handle.id]?
    let m := { m with perHostOffset := m.perHostOffset.set handle.id (-1) }
    let (m, peers) ← removeAt idOf m peers off
    return (m, peers, some data)

variable [DecidableEq P]

/-- The place that the manager gives to a peer in the list of a host. -/
def hostOffset (m : PeerManager P) (hostOf idOf : P → ℕ) (host : ℕ) (p : P) : Option ℕ :=
  if hostOf p = host ∧ m.peers[idOf p]? = some (some p) then
    (m.perHostOffset[idOf p]?).bind fun off => if 0 ≤ off then some off.toNat else none
  else none

/-- **The lists of the hosts mirror the manager.** -/
structure Mirrors (m : PeerManager P) (hostOf idOf : P → ℕ) (peers : ℕ → List P) : Prop where
  positions : ∀ host, Positions (peers host) (hostOffset m hostOf idOf host)
  offset : ∀ p, m.peers[idOf p]? = some (some p) → ∃ k : ℕ, m.perHostOffset[idOf p]? = some (k : ℤ)
  own : ∀ (i : ℕ) (p : P), m.peers[i]? = some (some p) → idOf p = i

variable {m m' : PeerManager P} {hostOf idOf : P → ℕ} {peers : ℕ → List P} {host : ℕ}
  {h : PeerHandle} {p q : P}

theorem hostOffset_of_live {k : ℕ} (hp : m.peers[idOf p]? = some (some p))
    (hk : m.perHostOffset[idOf p]? = some (k : ℤ)) :
    hostOffset m hostOf idOf host p = if hostOf p = host then some k else none := by
  by_cases hh : hostOf p = host
  · simp [hostOffset, hh, hp, hk]
  · simp [hostOffset, hh]

theorem hostOffset_of_free (hp : m.peers[idOf p]? ≠ some (some p)) :
    hostOffset m hostOf idOf host p = none := by
  simp [hostOffset, hp]

/-- The list of a host holds its live peers. -/
theorem Mirrors.mem_iff (hm : Mirrors m hostOf idOf peers) :
    p ∈ peers host ↔ hostOf p = host ∧ m.peers[idOf p]? = some (some p) := by
  rw [(hm.positions host).mem_iff]
  constructor
  · rintro ⟨i, hi⟩
    by_contra hno
    simp [hostOffset, hno] at hi
  · rintro ⟨hh, hp⟩
    obtain ⟨k, hk⟩ := hm.offset p hp
    exact ⟨k, by rw [hostOffset_of_live hp hk, if_pos hh]⟩

/-- Only what the live peers know matters. -/
theorem Mirrors.congr (hm : Mirrors m hostOf idOf peers) {hostOf' idOf' : P → ℕ}
    (hsame : ∀ (i : ℕ) (p : P), m.peers[i]? = some (some p) →
      hostOf' p = hostOf p ∧ idOf' p = idOf p) :
    Mirrors m hostOf' idOf' peers := by
  have hoff : ∀ host, hostOffset m hostOf' idOf' host = hostOffset m hostOf idOf host := by
    intro host
    funext p
    by_cases hp : ∃ i : ℕ, m.peers[i]? = some (some p)
    · obtain ⟨i, hi⟩ := hp
      rw [hostOffset, (hsame i p hi).1, (hsame i p hi).2, hostOffset]
    · have hp := not_exists.mp hp
      rw [hostOffset_of_free (hp _), hostOffset_of_free (hp _)]
  refine ⟨fun host => by rw [hoff]; exact hm.positions host, fun p hp => ?_, fun i p hp => ?_⟩
  · rw [(hsame _ p hp).2] at hp ⊢
    exact hm.offset p hp
  · rw [(hsame i p hp).2]
    exact hm.own i p hp

/-- No host has peers yet. -/
theorem Mirrors.empty (hm : m.peers = []) (hostOf idOf : P → ℕ) :
    Mirrors m hostOf idOf fun _ => [] := by
  refine ⟨fun host p i => ?_, fun p hp => ?_, fun i p hp => ?_⟩
  · rw [hostOffset_of_free (by simp [hm])]
    simp
  · simp [hm] at hp
  · simp [hm] at hp

/-- The table of a host after an allocation. -/
theorem hostOffset_alloc (hostOf idOf : P → ℕ) (hw' : m'.WF) (hf : m.Fills m' h p)
    (hnew : ∀ i : ℕ, m.peers[i]? ≠ some (some p)) (host host' n : ℕ) :
    hostOffset { m' with perHostOffset := m'.perHostOffset.set h.id (n : ℤ) }
        (Function.update hostOf p host) (Function.update idOf p h.id) host' =
      if host' = host then Function.update (hostOffset m hostOf idOf host') p (some n)
      else hostOffset m hostOf idOf host' := by
  have hlt : h.id < m'.perHostOffset.length := by
    rw [hw'.perHostOffset_length]
    exact (List.getElem?_eq_some_iff.mp ((hf.peers h.id).trans (if_pos rfl))).1
  have hother : ∀ q, q ≠ p → hostOffset { m' with perHostOffset := m'.perHostOffset.set h.id (n : ℤ) }
      (Function.update hostOf p host) (Function.update idOf p h.id) host' q =
        hostOffset m hostOf idOf host' q := by
    intro q hq
    simp only [hostOffset, Function.update_of_ne hq, hf.peers]
    rcases eq_or_ne (idOf q) h.id with hid | hid
    · have hempty : m.peers[idOf q]? ≠ some (some q) := by
        rw [hid]
        rcases hf.empty with he | he <;> simp [he]
      rw [if_neg (by simp [hid, hq.symm]), if_neg (by simp [hempty])]
    · rw [if_neg hid, List.getElem?_set_ne hid.symm, hf.perHostOffset _ hid]
  funext q
  rcases eq_or_ne q p with rfl | hq
  · have hfree : hostOffset m hostOf idOf host' q = none := hostOffset_of_free (hnew _)
    rw [hostOffset_of_live (k := n) (by simp [hf.peers]) (by simp [hlt]), Function.update_self]
    rcases eq_or_ne host' host with rfl | hne
    · simp
    · rw [if_neg hne.symm, if_neg hne, hfree]
  · rw [hother q hq]
    split_ifs
    · rw [Function.update_of_ne hq]
    · rfl

/-- **`Alloc`** puts a new peer at the end of the list of its host. -/
theorem alloc_spec (hw : m.WF) (hm : Mirrors m hostOf idOf peers)
    (hnew : ∀ i : ℕ, m.peers[i]? ≠ some (some p)) (hh : h.toBool = false) (host : ℕ) :
    ∃ m' h', alloc m (peers host) p h = some (m', peers host ++ [p], h') ∧ m'.WF ∧
      m.Fills m' h' p ∧
      Mirrors m' (Function.update hostOf p host) (Function.update idOf p h'.id)
        (Function.update peers host (peers host ++ [p])) := by
  obtain ⟨m₁, h', hal, hw₁, hf⟩ := PeerManager.alloc_spec hw p hh
  have hlt : h'.id < m₁.perHostOffset.length := by
    rw [hw₁.perHostOffset_length]
    exact (List.getElem?_eq_some_iff.mp ((hf.peers h'.id).trans (if_pos rfl))).1
  have hoff := hostOffset_alloc hostOf idOf hw₁ hf hnew host
  refine ⟨{ m₁ with perHostOffset := m₁.perHostOffset.set h'.id (peers host).length }, h', ?_,
    ⟨hw₁.versions_length, by simp [hw₁.perHostOffset_length], hw₁.freeIds_nodup, hw₁.mem_freeIds,
      hw₁.version_ne_zero, hw₁.peersToFlush⟩,
    ⟨hf.loop, hf.handle_loop, hf.empty, hf.version_ne_zero, hf.version_eq, hf.peers, hf.versions,
      fun i hi => ?_, hf.peersToFlush⟩, fun host' => ?_, fun q hq => ?_, fun i q hq => ?_⟩
  · simp [alloc, hal, guard, hlt]
  · rw [List.getElem?_set_ne hi.symm, hf.perHostOffset i hi]
  · rw [hoff]
    rcases eq_or_ne host' host with rfl | hne
    · rw [if_pos rfl, Function.update_self]
      exact (hm.positions host').concat (hostOffset_of_free (hnew _))
    · rw [if_neg hne, Function.update_of_ne hne]
      exact hm.positions host'
  · rcases eq_or_ne q p with rfl | hne
    · exact ⟨_, by rw [Function.update_self, List.getElem?_set_self hlt]⟩
    · rw [Function.update_of_ne hne] at hq ⊢
      simp only [hf.peers] at hq
      split_ifs at hq with hid
      · exact absurd (Option.some.inj (Option.some.inj hq)).symm hne
      · obtain ⟨k, hk⟩ := hm.offset q hq
        exact ⟨k, by rw [List.getElem?_set_ne (Ne.symm hid), hf.perHostOffset _ hid, hk]⟩
  · simp only [hf.peers] at hq
    split_ifs at hq with hid
    · obtain rfl := Option.some.inj (Option.some.inj hq)
      rw [Function.update_self, hid]
    · have hne : q ≠ p := by
        rintro rfl
        exact hnew i hq
      rw [Function.update_of_ne hne]
      exact hm.own i q hq

omit [DecidableEq P] in
/-- The removal of the peer at a place of the vector. -/
theorem removeAt_spec {l : List P} {k : ℕ} (hk : l[k]? = some p) (hlast : l.getLast? = some q)
    (hid : idOf q < m.perHostOffset.length) :
    removeAt idOf m l k = some ({ m with
      perHostOffset := if k + 1 = l.length then m.perHostOffset
        else m.perHostOffset.set (idOf q) k }, swapRemove l k) := by
  obtain ⟨hlt, -⟩ := List.getElem?_eq_some_iff.mp hk
  have hremove : swapRemove l k = (l.set k q).dropLast := by rw [swapRemove, hlast]
  rcases eq_or_ne (k + 1) l.length with heq | hne
  · have hcast : (k : ℤ) + 1 = l.length := by omega
    have hset : l.set k q = l := by
      have hq : l[k]? = some q := by
        rw [← hlast, List.getLast?_eq_getElem?, ← heq, Nat.add_sub_cancel]
      obtain ⟨_, rfl⟩ := List.getElem?_eq_some_iff.mp hq
      exact List.set_getElem_self _
    simp only [removeAt, hlast, hcast, heq, hremove, hset, ne_eq, not_true_eq_false, if_false, if_true,
      Option.bind_eq_bind, Option.bind_some, Option.pure_def]
  · have hcast : (k : ℤ) + 1 ≠ l.length := by omega
    have hguard : (0 : ℤ) ≤ k ∧ (k : ℤ) < l.length ∧ idOf q < m.perHostOffset.length :=
      ⟨by omega, by omega, hid⟩
    simp only [removeAt, hlast, hcast, hne, hremove, hguard, guard, ne_eq, not_false_eq_true, if_true,
      if_false, Option.bind_eq_bind, Option.bind_some, Option.pure_def, Int.toNat_natCast,
      and_self]

omit [DecidableEq P] in
/-- Live peers have different ids. -/
theorem idOf_ne {r : P} (hr : m.peers[idOf r]? = some (some r)) (hp : m.peers[idOf p]? = some (some p))
    (hne : r ≠ p) : idOf r ≠ idOf p := by
  intro hid
  rw [hid, hp] at hr
  exact hne (Option.some.inj (Option.some.inj hr)).symm

section Release

variable (hm : Mirrors m hostOf idOf peers) (hp : m.peers[idOf p]? = some (some p)) {k : ℕ}
  (hk : m.perHostOffset[idOf p]? = some (k : ℤ)) (hq : (peers (hostOf p)).getLast? = some q)
  (hoffs : m'.perHostOffset = if k + 1 = (peers (hostOf p)).length
    then m.perHostOffset.set (idOf p) (-1)
    else (m.perHostOffset.set (idOf p) (-1)).set (idOf q) k)
include hm hp hk hq hoffs

/-- The places that the manager gives to the other peers: the last one has moved. -/
theorem perHostOffset_release {r : P} (hr : m.peers[idOf r]? = some (some r)) (hrp : r ≠ p) :
    m'.perHostOffset[idOf r]? = if r = q then some (k : ℤ) else m.perHostOffset[idOf r]? := by
  have hpk : (peers (hostOf p))[k]? = some p := by
    rw [← (hm.positions (hostOf p)) p k, hostOffset_of_live hp hk, if_pos rfl]
  obtain ⟨-, hqp⟩ := hm.mem_iff.mp (List.mem_of_getLast? hq)
  have hid := idOf_ne hr hp hrp
  obtain ⟨kr, hkr⟩ := hm.offset r hr
  have hlen : idOf r < m.perHostOffset.length := (List.getElem?_eq_some_iff.mp hkr).1
  rw [hoffs]
  rcases eq_or_ne r q with rfl | hrq
  · -- the last peer is not the released one
    have hne : k + 1 ≠ (peers (hostOf p)).length := by
      intro heq
      rw [List.getLast?_eq_getElem?, ← heq, Nat.add_sub_cancel, hpk] at hq
      exact hrp (Option.some.inj hq).symm
    rw [if_pos rfl, if_neg hne, List.getElem?_set_self (by simpa using hlen)]
  · rw [if_neg hrq]
    split_ifs
    · rw [List.getElem?_set_ne hid.symm]
    · rw [List.getElem?_set_ne (idOf_ne hr hqp hrq).symm, List.getElem?_set_ne hid.symm]

/-- The table of a host after a release. -/
theorem hostOffset_release (hpeers : m'.peers = m.peers.set (idOf p) none) (host : ℕ) :
    hostOffset m' hostOf idOf host = if host = hostOf p
      then Function.update (Function.update (hostOffset m hostOf idOf host) q (some k)) p none
      else hostOffset m hostOf idOf host := by
  obtain ⟨hlt, -⟩ := List.getElem?_eq_some_iff.mp hp
  obtain ⟨hqh, hqp⟩ := hm.mem_iff.mp (List.mem_of_getLast? hq)
  have hsame : ∀ r, r ≠ p → r ≠ q → (if host = hostOf p
      then Function.update (Function.update (hostOffset m hostOf idOf host) q (some k)) p none
      else hostOffset m hostOf idOf host) r = hostOffset m hostOf idOf host r := by
    intro r hrp hrq
    split_ifs
    · rw [Function.update_of_ne hrp, Function.update_of_ne hrq]
    · rfl
  funext r
  rcases eq_or_ne r p with rfl | hrp
  · have hnone : hostOffset m' hostOf idOf host r = none := by
      refine hostOffset_of_free ?_
      rw [hpeers, List.getElem?_set_self hlt]
      simp
    rw [hnone]
    split_ifs with hhost
    · rw [Function.update_self]
    · rw [hostOffset_of_live hp hk, if_neg (Ne.symm hhost)]
  by_cases hr : m.peers[idOf r]? = some (some r)
  · have hr' : m'.peers[idOf r]? = some (some r) := by
      rw [hpeers, List.getElem?_set_ne (idOf_ne hr hp hrp).symm, hr]
    have hoff := perHostOffset_release hm hp hk hq hoffs hr hrp
    obtain ⟨kr, hkr⟩ := hm.offset r hr
    rcases eq_or_ne r q with rfl | hrq
    · rw [if_pos rfl] at hoff
      rw [hostOffset_of_live hr' hoff, hqh]
      split_ifs with h1 h2 h2
      · rw [Function.update_of_ne hrp, Function.update_self]
      · exact absurd h1.symm h2
      · exact absurd h2.symm h1
      · rw [hostOffset_of_live hr hkr, hqh, if_neg h1]
    · rw [if_neg hrq, hkr] at hoff
      rw [hostOffset_of_live hr' hoff, hsame r hrp hrq, hostOffset_of_live hr hkr]
  · have hr' : m'.peers[idOf r]? ≠ some (some r) := by
      rw [hpeers]
      rcases eq_or_ne (idOf p) (idOf r) with hid | hid
      · rw [← hid, List.getElem?_set_self hlt]
        simp
      · rwa [List.getElem?_set_ne hid]
    have hrq : r ≠ q := by
      rintro rfl
      exact hr hqp
    rw [hostOffset_of_free hr', hsame r hrp hrq, hostOffset_of_free hr]

end Release

/-- What `Release` of a live peer on its own host computes: the manager frees the slot, the
peer at `k`, the last one of the list, is exchanged for it, and the offsets follow. -/
theorem release_eq (hw : m.WF) (hm : Mirrors m hostOf idOf peers) (hl : m.Live h p) :
    ∃ (m₁ : PeerManager P) (k : ℕ) (q : P), m₁.WF ∧ m.Frees m₁ h ∧ idOf p = h.id ∧ m.perHostOffset[idOf p]? = some (k : ℤ) ∧
      (peers (hostOf p)).getLast? = some q ∧
      release hostOf idOf (hostOf p) m (peers (hostOf p)) h = some ({ m₁ with
        perHostOffset := if k + 1 = (peers (hostOf p)).length
          then m.perHostOffset.set (idOf p) (-1)
          else (m.perHostOffset.set (idOf p) (-1)).set (idOf q) k },
        swapRemove (peers (hostOf p)) k, some p) := by
  obtain ⟨m₁, hrel, hw₁, hf, hoffs₁⟩ := PeerManager.release_of_live hw hl
  have hid : idOf p = h.id := hm.own _ _ hl.2.1
  have hp : m.peers[idOf p]? = some (some p) := hid ▸ hl.2.1
  obtain ⟨k, hk⟩ := hm.offset p hp
  have hpk : (peers (hostOf p))[k]? = some p := by
    rw [← (hm.positions (hostOf p)) p k, hostOffset_of_live hp hk, if_pos rfl]
  obtain ⟨q, hq⟩ : ∃ q, (peers (hostOf p)).getLast? = some q := by
    cases hlast : (peers (hostOf p)).getLast? with
    | none =>
      rw [List.getLast?_eq_none_iff.mp hlast] at hpk
      simp at hpk
    | some q => exact ⟨q, rfl⟩
  obtain ⟨-, hqp⟩ := hm.mem_iff.mp (List.mem_of_getLast? hq)
  obtain ⟨kq, hkq⟩ := hm.offset q hqp
  refine ⟨m₁, k, q, hw₁, hf, hid, hk, hq, ?_⟩
  have hremove := removeAt_spec
    (m := { m₁ with perHostOffset := m₁.perHostOffset.set h.id (-1) }) hpk hq
    (by
      rw [hoffs₁, List.length_set]
      exact (List.getElem?_eq_some_iff.mp hkq).1)
  rw [hoffs₁, ← hid] at hremove
  simp only [release, hrel, guard, hoffs₁, ← hid, hk, Option.bind_eq_bind, Option.bind_some,
    Option.pure_def, if_true]
  exact congrArg (Option.bind · _) hremove

/-- **`Release`** of a live peer on its own host removes it from the manager and from the list
of the host. -/
theorem release_spec (hw : m.WF) (hm : Mirrors m hostOf idOf peers) (hl : m.Live h p) :
    ∃ m' l, release hostOf idOf (hostOf p) m (peers (hostOf p)) h = some (m', l, some p) ∧ m'.WF ∧
      m.Frees m' h ∧ Mirrors m' hostOf idOf (Function.update peers (hostOf p) l) := by
  obtain ⟨m₁, k, q, hw₁, hf, hid, hk, hq, hrel⟩ := release_eq hw hm hl
  have hp : m.peers[idOf p]? = some (some p) := hid ▸ hl.2.1
  set m' : PeerManager P := { m₁ with
    perHostOffset := if k + 1 = (peers (hostOf p)).length
      then m.perHostOffset.set (idOf p) (-1)
      else (m.perHostOffset.set (idOf p) (-1)).set (idOf q) k } with hm'
  have hoffs : m'.perHostOffset = if k + 1 = (peers (hostOf p)).length
      then m.perHostOffset.set (idOf p) (-1)
      else (m.perHostOffset.set (idOf p) (-1)).set (idOf q) k := rfl
  have hpeers : m'.peers = m.peers.set (idOf p) none := hf.peers.trans (by rw [hid])
  have hwlen : m'.perHostOffset.length = m'.peers.length := by
    have := hw.perHostOffset_length
    rw [hoffs, hpeers]
    split_ifs <;> simpa using this
  have hlive : ∀ (i : ℕ) (r : P), m'.peers[i]? = some (some r) →
      i ≠ h.id ∧ m.peers[i]? = some (some r) := fun i r hr => hf.peers_eq hr
  refine ⟨m', swapRemove (peers (hostOf p)) k, hrel, ⟨hw₁.versions_length, hwlen, hw₁.freeIds_nodup,
    hw₁.mem_freeIds, hw₁.version_ne_zero, hw₁.peersToFlush⟩,
    ⟨hf.loop, hf.live_iff, hf.versionAt_eq, hf.peers, hf.mem_peersToFlush⟩, fun host => ?_,
    fun r hr => ?_, fun i r hr => ?_⟩
  · rw [hostOffset_release hm hp hk hq hoffs hpeers]
    rcases eq_or_ne host (hostOf p) with rfl | hne
    · rw [if_pos rfl, Function.update_self]
      exact (hm.positions _).swapRemove (by rw [hostOffset_of_live hp hk, if_pos rfl]) hq
    · rw [if_neg hne, Function.update_of_ne hne]
      exact hm.positions host
  · obtain ⟨hne, hr⟩ := hlive _ r hr
    have hrp : r ≠ p := by
      rintro rfl
      exact hne hid
    obtain ⟨kr, hkr⟩ := hm.offset r hr
    rw [perHostOffset_release hm hp hk hq hoffs hr hrp, hkr]
    split_ifs
    · exact ⟨k, rfl⟩
    · exact ⟨kr, rfl⟩
  · exact hm.own i r (hlive i r hr).2

end PeerReferences
end ICon7
