/-
# The peer lists of all hosts, over whole runs

Any number of hosts share the `PeerManager` of their loop.  Each allocates peers
through its own `PeerReferences` and releases handles through it, in any order: a
handle that resolves on the host of its peer, a stale one on any host.

A host's vector is a list of peers and not of pointers: `Release` sets its last
place to null only to drop it in the same call.  Offsets are `int32_t` in the
source and integers here; with fewer than `2 ^ 31` allocations they are the same
(`run_offsets_fit`).
-/

import ICon7.Host.References
import ICon7.Lib.Run

namespace ICon7

open Lib

namespace PeerReferences

variable {P : Type} [DecidableEq P] {m m' : PeerManager P} {hostOf idOf : P → ℕ}
  {peers : ℕ → List P} {h : PeerHandle} {p : P}

/-- Every free slot has the offset `-1`. -/
def Vacant (m : PeerManager P) : Prop :=
  ∀ i : ℕ, m.peers[i]? = some none → m.perHostOffset[i]? = some (-1)

omit [DecidableEq P] in
/-- An allocation leaves the other slots alone. -/
theorem Vacant.fills (hv : Vacant m) (hf : m.Fills m' h p) : Vacant m' := by
  intro i hi
  rw [hf.peers] at hi
  split_ifs at hi with hid
  · simp at hi
  · rw [hf.perHostOffset i hid, hv i hi]

/-- A release makes one more slot free, and gives it the offset `-1`. -/
theorem Vacant.release (hv : Vacant m) (hw : m.WF) (hm : Mirrors m hostOf idOf peers)
    (hl : m.Live h p) {l : List P}
    (hrel : release hostOf idOf (hostOf p) m (peers (hostOf p)) h = some (m', l, some p)) :
    Vacant m' := by
  obtain ⟨m₁, k, q, -, hf, hid, hk, hq, heq⟩ := release_eq hw hm hl
  have hp : m.peers[idOf p]? = some (some p) := hid ▸ hl.2.1
  have hpk : (peers (hostOf p))[k]? = some p := by
    rw [← (hm.positions (hostOf p)) p k, hostOffset_of_live hp hk, if_pos rfl]
  obtain ⟨-, hqp⟩ := hm.mem_iff.mp (List.mem_of_getLast? hq)
  have hlt : idOf p < m.perHostOffset.length := (List.getElem?_eq_some_iff.mp hk).1
  obtain ⟨rfl, -⟩ := Prod.mk.inj (Option.some.inj (heq.symm.trans hrel))
  intro i hi
  simp only [hf.peers, ← hid] at hi
  rcases eq_or_ne i (idOf p) with rfl | hne
  · split_ifs with hlast
    · rw [List.getElem?_set_self hlt]
    · -- the peer that has moved is another one, in another slot
      have hqne : q ≠ p := by
        rintro rfl
        have hnd : (peers (hostOf q)).Nodup := (hm.positions (hostOf q)).nodup
        rw [List.getLast?_eq_getElem?] at hq
        have := (List.getElem?_inj (List.getElem?_eq_some_iff.mp hpk).1 hnd).mp (hpk.trans hq.symm)
        have := (List.getElem?_eq_some_iff.mp hpk).1
        omega
      rw [List.getElem?_set_ne (idOf_ne hqp hp hqne), List.getElem?_set_self hlt]
  · rw [List.getElem?_set_ne hne.symm] at hi
    have hqi : idOf q ≠ i := by
      rintro rfl
      rw [hqp] at hi
      simp at hi
    split_ifs
    · rw [List.getElem?_set_ne hne.symm, hv i hi]
    · rw [List.getElem?_set_ne hqi, List.getElem?_set_ne hne.symm, hv i hi]

end PeerReferences

/-- The `host` and the `peerHandle` of a `PeerData`. -/
structure ListedPeer where
  host : ℕ
  peerHandle : PeerHandle
deriving DecidableEq, Repr

/-- The manager of a loop, every peer that was ever allocated, by number, and the vector of
each host. -/
structure HostLists where
  peerManager : PeerManager ℕ
  peerData : List ListedPeer := []
  peers : ℕ → List ℕ := fun _ => []

namespace HostLists

/-- `host` of a peer. -/
def hostOf (s : HostLists) (q : ℕ) : ℕ := ((s.peerData[q]?).map ListedPeer.host).getD 0

/-- `peerHandle.id.id` of a peer. -/
def idOf (s : HostLists) (q : ℕ) : ℕ := ((s.peerData[q]?).map fun p => p.peerHandle.id).getD 0

/-- `PeerReferences::Alloc` of a new peer on a host. -/
def alloc (s : HostLists) (host : ℕ) : Option (HostLists × PeerHandle) := do
  let (peerManager, peers, handle) ←
    PeerReferences.alloc s.peerManager (s.peers host) s.peerData.length {}
  return ({ s with
    peerManager
    peerData := s.peerData ++ [⟨host, handle⟩]
    peers := Function.update s.peers host peers }, handle)

/-- `PeerReferences::Release` on a host; the inner `none` is the null pointer. -/
def release (s : HostLists) (host : ℕ) (h : PeerHandle) : Option (HostLists × Option ℕ) := do
  let (peerManager, peers, data) ←
    PeerReferences.release s.hostOf s.idOf host s.peerManager (s.peers host) h
  return ({ s with peerManager, peers := Function.update s.peers host peers }, data)

/-- What the hosts do. -/
inductive Op where
  | alloc (host : ℕ)
  | release (host : ℕ) (h : PeerHandle)
deriving DecidableEq, Repr

def step (s : HostLists) : Op → Option HostLists
  | .alloc host => (s.alloc host).map Prod.fst
  | .release host h => (s.release host h).map Prod.fst

def run (s : HostLists) (ops : List Op) : Option HostLists := ops.foldlM step s

/-- A loop whose hosts have no peers. -/
def init (loop : ℕ) : HostLists := { peerManager := { loop } }

/-- The peer that the handle names, if any. -/
def named (s : HostLists) (h : PeerHandle) : Option ℕ := (s.peerManager.getLocalPeerData h).join

/-- A handle of the loop is released: on the host of the peer that it names, on any host if
it names none. -/
def Proper (s : HostLists) : Op → Prop
  | .alloc _ => True
  | .release host h => h.loop = some s.peerManager.loop ∧ ∀ q ∈ s.named h, s.hostOf q = host

instance (s : HostLists) : (op : Op) → Decidable (s.Proper op)
  | .alloc _ => isTrue trivial
  | .release host h =>
    inferInstanceAs (Decidable (h.loop = some s.peerManager.loop ∧ ∀ q ∈ s.named h, s.hostOf q = host))

/-- **The lists mirror the manager.**  The vector of a host has its live peers, each once; the
offset of a live peer is its place there, that of a free slot is `-1`; and a handle that is
released returns the peer that it names and takes no other peer out of a list. -/
structure MirrorsManager (s : HostLists) : Prop where
  mem_iff : ∀ host q, q ∈ s.peers host ↔ s.hostOf q = host ∧ ∃ h, s.named h = some q
  nodup : ∀ host, (s.peers host).Nodup
  offset : ∀ h q, s.named h = some q →
    ∃ k : ℕ, s.peerManager.perHostOffset[h.id]? = some (k : ℤ) ∧ (s.peers (s.hostOf q))[k]? = some q
  vacant : ∀ i : ℕ, s.peerManager.peers[i]? = some none → s.peerManager.perHostOffset[i]? = some (-1)
  release : ∀ host h, s.Proper (.release host h) → ∃ s', s.release host h = some (s', s.named h) ∧
    ∀ host' q, q ∈ s'.peers host' ↔ q ∈ s.peers host' ∧ s.named h ≠ some q

/-- What holds between two operations. -/
structure Inv (loop : ℕ) (s : HostLists) : Prop where
  manager : s.peerManager.WF
  loop_eq : s.peerManager.loop = loop
  mirrors : PeerReferences.Mirrors s.peerManager s.hostOf s.idOf s.peers
  vacant : PeerReferences.Vacant s.peerManager
  born : ∀ (i q : ℕ), s.peerManager.peers[i]? = some (some q) → q < s.peerData.length

variable {s s' : HostLists} {loop host q : ℕ} {h : PeerHandle}

theorem init_inv (loop : ℕ) : (init loop).Inv loop :=
  ⟨⟨rfl, rfl, List.nodup_nil, by simp [init], by simp [init], PeersToFlush.wf_empty⟩, rfl,
    PeerReferences.Mirrors.empty rfl _ _, by simp [PeerReferences.Vacant, init], by simp [init]⟩

/-- The peer that a handle names is the one it resolves to. -/
theorem Inv.named_eq_some_iff (hs : s.Inv loop) : s.named h = some q ↔ s.peerManager.Live h q := by
  rw [named, Option.join_eq_some_iff, PeerManager.getLocalPeerData_iff hs.manager]

/-- A handle that names no peer resolves to none. -/
theorem Inv.not_live (hs : s.Inv loop) (hn : s.named h = none) (q : ℕ) : ¬s.peerManager.Live h q :=
  fun hl => by simp [hs.named_eq_some_iff.mpr hl] at hn

/-- A peer in a slot is named by the handle with the version of the slot. -/
theorem Inv.exists_named_iff (hs : s.Inv loop) :
    (∃ h, s.named h = some q) ↔ s.peerManager.peers[s.idOf q]? = some (some q) := by
  constructor
  · rintro ⟨h, hn⟩
    have hl := hs.named_eq_some_iff.mp hn
    rw [hs.mirrors.own _ _ hl.2.1]
    exact hl.2.1
  · intro hq
    have hlt : s.idOf q < s.peerManager.versions.length := by
      rw [hs.manager.versions_length]
      exact (List.getElem?_eq_some_iff.mp hq).1
    exact ⟨⟨s.idOf q, s.peerManager.versions[s.idOf q], some s.peerManager.loop⟩,
      hs.named_eq_some_iff.mpr ⟨rfl, hq, List.getElem?_eq_getElem hlt⟩⟩

/-- **`Alloc`** keeps the invariant. -/
theorem Inv.alloc (hs : s.Inv loop) (host : ℕ) :
    ∃ s' h, s.alloc host = some (s', h) ∧ s'.Inv loop := by
  have hnew : ∀ i : ℕ, s.peerManager.peers[i]? ≠ some (some s.peerData.length) := fun i hi =>
    lt_irrefl _ (hs.born i _ hi)
  obtain ⟨m, h, hal, hw, hf, hm⟩ :=
    PeerReferences.alloc_spec (h := {}) hs.manager hs.mirrors hnew rfl host
  refine ⟨{ s with
    peerManager := m
    peerData := s.peerData ++ [⟨host, h⟩]
    peers := Function.update s.peers host (s.peers host ++ [s.peerData.length]) }, h,
    by simp [HostLists.alloc, hal], hw, hf.loop.trans hs.loop_eq, ?_, hs.vacant.fills hf,
    fun i q hi => ?_⟩
  · refine hm.congr fun i q hi => ?_
    rcases eq_or_ne q s.peerData.length with rfl | hne
    · simp [hostOf, idOf]
    · simp [hostOf, idOf, getElem?_concat_eq, hne]
  · rw [List.length_append, List.length_singleton]
    rw [hf.peers] at hi
    split_ifs at hi
    · obtain rfl := Option.some.inj (Option.some.inj hi)
      omega
    · have := hs.born i q hi
      omega

/-- **`Release` of a handle that names no peer** changes nothing. -/
theorem Inv.release_stale (hs : s.Inv loop) (hl : h.loop = some s.peerManager.loop)
    (hn : s.named h = none) (host : ℕ) : s.release host h = some (s, none) := by
  have hrel := PeerManager.release_of_stale hs.manager hl (hs.not_live hn)
  simp [HostLists.release, PeerReferences.release, hrel]

/-- **`Release` on the host of the peer** keeps the invariant and takes the peer out of its
list. -/
theorem Inv.release_named (hs : s.Inv loop) (hn : s.named h = some q) :
    ∃ s', s.release (s.hostOf q) h = some (s', some q) ∧ s'.Inv loop ∧
      ∀ host' r, r ∈ s'.peers host' ↔ r ∈ s.peers host' ∧ r ≠ q := by
  have hlive := hs.named_eq_some_iff.mp hn
  obtain ⟨m, l, hrel, hw, hf, hm⟩ := PeerReferences.release_spec hs.manager hs.mirrors hlive
  set s' : HostLists := { s with
    peerManager := m, peers := Function.update s.peers (s.hostOf q) l } with hs'
  have hpeers : ∀ (i r : ℕ), m.peers[i]? = some (some r) →
      i ≠ h.id ∧ s.peerManager.peers[i]? = some (some r) := fun i r hi => hf.peers_eq hi
  refine ⟨s', by simp [HostLists.release, hrel, hs'], ⟨hw, hf.loop.trans hs.loop_eq, hm,
    hs.vacant.release hs.manager hs.mirrors hlive hrel,
    fun i r hi => hs.born i r (hpeers i r hi).2⟩, fun host' r => ?_⟩
  have hid : s.idOf q = h.id := hs.mirrors.own _ _ hlive.2.1
  have hmem : r ∈ s'.peers host' ↔ s.hostOf r = host' ∧ m.peers[s.idOf r]? = some (some r) := hm.mem_iff
  rw [hmem, hs.mirrors.mem_iff, and_assoc]
  refine and_congr_right fun _ => ?_
  constructor
  · intro hr
    obtain ⟨hne, hr⟩ := hpeers _ r hr
    exact ⟨hr, by rintro rfl; exact hne hid⟩
  · rintro ⟨hr, hne⟩
    have hq : s.peerManager.peers[s.idOf q]? = some (some q) := hid ▸ hlive.2.1
    rw [hf.peers, List.getElem?_set_ne, hr]
    rw [← hid]
    exact (PeerReferences.idOf_ne hr hq hne).symm

/-- **`Release` as it is called** keeps the invariant, returns the peer that the handle names
and takes that peer, and no other, out of the lists. -/
theorem Inv.release (hs : s.Inv loop) (hp : s.Proper (.release host h)) :
    ∃ s', s.release host h = some (s', s.named h) ∧ s'.Inv loop ∧
      ∀ host' q, q ∈ s'.peers host' ↔ q ∈ s.peers host' ∧ s.named h ≠ some q := by
  obtain ⟨hl, hhost⟩ := hp
  cases hn : s.named h with
  | none => exact ⟨s, hs.release_stale hl hn host, hs, by simp⟩
  | some q =>
    obtain rfl := hhost q (Option.mem_def.mpr hn)
    obtain ⟨s', hrel, hs', hmem⟩ := hs.release_named hn
    refine ⟨s', hrel, hs', fun host' r => ?_⟩
    rw [hmem]
    simp [eq_comm]

/-- One step keeps the invariant. -/
theorem Inv.step (hs : s.Inv loop) {op : Op} (hp : s.Proper op) :
    ∃ s', s.step op = some s' ∧ s'.Inv loop := by
  cases op with
  | alloc host =>
    obtain ⟨s', h, hal, hs'⟩ := hs.alloc host
    exact ⟨s', by simp [HostLists.step, hal], hs'⟩
  | release host h =>
    obtain ⟨s', hrel, hs', -⟩ := hs.release hp
    exact ⟨s', by simp [HostLists.step, hrel], hs'⟩

/-- The invariant says that the lists mirror the manager. -/
theorem Inv.mirrorsManager (hs : s.Inv loop) : s.MirrorsManager := by
  refine ⟨fun host q => ?_, fun host => (hs.mirrors.positions host).nodup, fun h q hn => ?_, hs.vacant,
    fun host h hp => ?_⟩
  · rw [hs.mirrors.mem_iff, hs.exists_named_iff]
  · have hl := hs.named_eq_some_iff.mp hn
    have hid : s.idOf q = h.id := hs.mirrors.own _ _ hl.2.1
    have hq : s.peerManager.peers[s.idOf q]? = some (some q) := hid ▸ hl.2.1
    obtain ⟨k, hk⟩ := hs.mirrors.offset q hq
    refine ⟨k, hid ▸ hk, ?_⟩
    rw [← (hs.mirrors.positions (s.hostOf q)) q k, PeerReferences.hostOffset_of_live hq hk, if_pos rfl]
  · obtain ⟨s', hrel, -, hmem⟩ := hs.release hp
    exact ⟨s', hrel, hmem⟩

/-- **The lists of the hosts mirror the manager of their loop,** after every interleaving of
`Alloc` on any host and of `Release` as it is called. -/
theorem run_mirrorsManager (loop : ℕ) (ops : List Op) (hp : Along step Proper (init loop) ops) :
    ∃ s, (init loop).run ops = some s ∧ s.MirrorsManager := by
  obtain ⟨s, hrun, hs⟩ := run_total_along (fun s op hs hp => hs.step hp) ops (init_inv loop) hp
  exact ⟨s, hrun, hs.mirrorsManager⟩

/-- A list has no more places than peers were ever allocated. -/
theorem Inv.length_peers_le (hs : s.Inv loop) (host : ℕ) : (s.peers host).length ≤ s.peerData.length := by
  have hsub : s.peers host ⊆ List.range s.peerData.length := fun q hq =>
    List.mem_range.mpr (hs.born _ q (hs.mirrors.mem_iff.mp hq).2)
  simpa using (List.subperm_of_subset (hs.mirrors.positions host).nodup hsub).length_le

/-- **Offsets fit their type:** after every such run with fewer than `2 ^ 31` allocations every offset is a
value of `int32_t`. -/
theorem run_offsets_fit (loop : ℕ) (ops : List Op) (hp : Along step Proper (init loop) ops)
    (hrun : (init loop).run ops = some s) (hfew : s.peerData.length < 2 ^ 31) :
    ∀ o ∈ s.peerManager.perHostOffset, -1 ≤ o ∧ o < 2 ^ 31 := by
  obtain ⟨s', hrun', hs⟩ := run_total_along (fun s op hs hp => hs.step hp) ops (init_inv loop) hp
  obtain rfl := Option.some.inj (hrun'.symm.trans hrun)
  intro o ho
  obtain ⟨i, hi⟩ := List.mem_iff_getElem?.mp ho
  have hlt : i < s'.peerManager.peers.length := by
    rw [← hs.manager.perHostOffset_length]
    exact (List.getElem?_eq_some_iff.mp hi).1
  cases hq : s'.peerManager.peers[i] with
  | none =>
    have hfree := hs.vacant i (by rw [List.getElem?_eq_getElem hlt, hq])
    obtain rfl := Option.some.inj (hi.symm.trans hfree)
    omega
  | some q =>
    have hlive : s'.peerManager.peers[i]? = some (some q) := by rw [List.getElem?_eq_getElem hlt, hq]
    obtain rfl := hs.mirrors.own i q hlive
    obtain ⟨k, hk⟩ := hs.mirrors.offset q hlive
    obtain rfl := Option.some.inj (hi.symm.trans hk)
    have hplace : (s'.peers (s'.hostOf q))[k]? = some q := by
      rw [← (hs.mirrors.positions (s'.hostOf q)) q k, PeerReferences.hostOffset_of_live hlive hk, if_pos rfl]
    have hle := (List.getElem?_eq_some_iff.mp hplace).1.trans_le (hs.length_peers_le _)
    omega

/-- Three peers on two hosts; the first is released twice, the second time on the other host,
and its slot is used again there. -/
def twoHosts : List Op :=
  [.alloc 0, .alloc 1, .alloc 0, .release 0 ⟨0, 1, some 7⟩, .release 1 ⟨0, 1, some 7⟩, .alloc 1]

/-- `run_mirrorsManager` on these operations. -/
theorem run_mirrorsManager_twoHosts : Along step Proper (init 7) twoHosts ∧
    ∃ s, (init 7).run twoHosts = some s ∧ s.MirrorsManager := by
  have hp : Along step Proper (init 7) twoHosts := by decide
  exact ⟨hp, run_mirrorsManager 7 twoHosts hp⟩

example : ((init 7).run twoHosts).map (fun s => (s.peers 0, s.peers 1)) = some ([2], [1, 3]) := by
  decide

end HostLists
end ICon7
