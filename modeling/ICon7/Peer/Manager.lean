/-
# The peer manager

`PeerManager` of `src/PeerManager.cpp`: three parallel vectors of slots, a stack
of the ids of the empty ones and the set of peers to flush.  A handle is the id
of a slot and the version the slot had when the handle was made; a release makes
the version of the slot move on, past `0`.

A failed assertion and an access out of range are `none`.  Ids are natural
numbers: with at most `2 ^ 32` allocations they are values of `uint32_t`
(`run_ids_fit` in `Peer.Generations`).  Versions are `uint32_t` and wrap.  `P` stands for `std::shared_ptr<PeerData>`; the field `peerHandle` of the
peer, which `Alloc` reads and then overwrites with its result, is an argument.
-/

import ICon7.Peer.ToFlush

namespace ICon7

/-- `PeerHandle` with its `PeerId`; a loop is its number, `none` the null pointer. -/
structure PeerHandle where
  id : ℕ := 0
  version : UInt32 := 0
  loop : Option ℕ := none
deriving DecidableEq, Repr

/-- `PeerId`. -/
structure PeerId where
  id : ℕ
  version : UInt32
deriving DecidableEq, Repr

def PeerHandle.peerId (h : PeerHandle) : PeerId := ⟨h.id, h.version⟩

/-- `PeerHandle::operator bool`. -/
def PeerHandle.toBool (h : PeerHandle) : Bool := h.version != 0 && h.loop.isSome

structure PeerManager (P : Type) where
  peers : List (Option P) := []
  versions : List UInt32 := []
  freeIds : List ℕ := []
  perHostOffset : List ℤ := []
  peersToFlush : PeersToFlush := {}
  loop : ℕ
deriving DecidableEq, Repr

namespace PeerManager

open Lib

variable {P : Type}

/-- `Alloc` of a peer whose `peerHandle` is the given one. -/
def alloc (m : PeerManager P) (peerData : P) (peerHandle : PeerHandle) :
    Option (PeerManager P × PeerHandle) := do
  guard (peerHandle.toBool = false)
  match m.freeIds.getLast? with
  | some id =>
    let version ← m.versions[id]?
    let slot ← m.peers[id]?
    guard (slot.isNone ∧ version ≠ 0)
    return ({ m with freeIds := m.freeIds.dropLast, peers := m.peers.set id (some peerData) },
      ⟨id, version, some m.loop⟩)
  | none =>
    return ({ m with
      peers := m.peers ++ [some peerData]
      versions := m.versions ++ [1]
      perHostOffset := m.perHostOffset ++ [-1] }, ⟨m.peers.length, 1, some m.loop⟩)

/-- `ExistsLocal`. -/
def existsLocal (m : PeerManager P) (handle : PeerHandle) : Option Bool := do
  guard (m.peers.length = m.versions.length)
  guard (handle.loop = some m.loop)
  if m.versions.length ≤ handle.id then return false
  let slot ← m.peers[handle.id]?
  if slot.isNone then return false
  let version ← m.versions[handle.id]?
  return handle.version == version

/-- The version after `version`, in `Release`. -/
def bumpVersion (version : UInt32) : UInt32 := if version + 1 = 0 then version + 1 + 1 else version + 1

/-- `Release`; the inner `none` is the null pointer. -/
def release (m : PeerManager P) (handle : PeerHandle) : Option (PeerManager P × Option P) := do
  if (← m.existsLocal handle) = false then return (m, none)
  let data ← m.peers[handle.id]?
  let version ← m.versions[handle.id]?
  let peersToFlush ← m.peersToFlush.removePeerToFlush handle.id
  return ({ m with
    freeIds := m.freeIds ++ [handle.id]
    peers := m.peers.set handle.id none
    versions := m.versions.set handle.id (bumpVersion version)
    peersToFlush }, data)

/-- `GetLocalPeerData`; the inner `none` is the null pointer. -/
def getLocalPeerData (m : PeerManager P) (handle : PeerHandle) : Option (Option P) := do
  if ← m.existsLocal handle then m.peers[handle.id]? else return none

/-- `GetLocalPeerDataValid`, which asserts that the id is one of a slot. -/
def getLocalPeerDataValid (m : PeerManager P) (peerId : ℕ) : Option (Option P) := m.peers[peerId]?

/-- **The invariant.**  The vectors are parallel, the free ids are those of the empty slots,
each once, and no slot has version `0`. -/
structure WF (m : PeerManager P) : Prop where
  versions_length : m.versions.length = m.peers.length
  perHostOffset_length : m.perHostOffset.length = m.peers.length
  freeIds_nodup : m.freeIds.Nodup
  mem_freeIds : ∀ i, i ∈ m.freeIds ↔ m.peers[i]? = some none
  version_ne_zero : ∀ (i : ℕ) (v : UInt32), m.versions[i]? = some v → v ≠ 0
  peersToFlush : m.peersToFlush.WF

/-- The handle resolves to the peer. -/
def Live (m : PeerManager P) (h : PeerHandle) (p : P) : Prop :=
  h.loop = some m.loop ∧ m.peers[h.id]? = some (some p) ∧ m.versions[h.id]? = some h.version

/-- The version of a slot; one that does not exist yet will start with version `1`. -/
def versionAt (m : PeerManager P) (i : ℕ) : UInt32 := m.versions.getD i 1

variable {m m' : PeerManager P} {h h' : PeerHandle} {p p' : P}

/-- A handle resolves to one peer. -/
theorem Live.unique (hl : m.Live h p) (hl' : m.Live h p') : p = p' :=
  Option.some.inj (Option.some.inj (hl.2.1.symm.trans hl'.2.1))

/-- A slot has one live handle. -/
theorem Live.handle_eq (hl : m.Live h p) (hl' : m.Live h' p') (hid : h.id = h'.id) : h = h' := by
  obtain ⟨id, version, loop⟩ := h
  obtain ⟨id', version', loop'⟩ := h'
  obtain ⟨hloop, -, hver⟩ := hl
  obtain ⟨hloop', -, hver'⟩ := hl'
  simp only at *
  subst hid
  rw [hver, Option.some.injEq] at hver'
  rw [hver', hloop, hloop']

theorem Live.version_eq (hl : m.Live h p) : h.version = m.versionAt h.id := by
  rw [versionAt, List.getD_eq_getElem?_getD, hl.2.2]
  rfl

/-- `ExistsLocal` is whether the handle resolves. -/
theorem existsLocal_eq (hw : m.WF) (hloop : h.loop = some m.loop) :
    (∃ p, m.Live h p ∧ m.existsLocal h = some true) ∨
      ((∀ p, ¬m.Live h p) ∧ m.existsLocal h = some false) := by
  have hguard : m.existsLocal h = (if m.versions.length ≤ h.id then some false else do
      let slot ← m.peers[h.id]?
      if slot.isNone then return false
      let version ← m.versions[h.id]?
      return h.version == version) := by
    simp [existsLocal, guard, hw.versions_length, hloop]
  rw [hguard]
  rcases lt_or_ge h.id m.versions.length with hlt | hge
  · rw [if_neg (by omega)]
    have hver := List.getElem?_eq_getElem hlt
    have hlt' : h.id < m.peers.length := by rw [← hw.versions_length]; exact hlt
    rcases hslot : m.peers[h.id] with _ | p
    · refine .inr ⟨fun p hl => ?_, by simp [List.getElem?_eq_getElem hlt', hslot]⟩
      have := hl.2.1
      rw [List.getElem?_eq_getElem hlt', hslot] at this
      simp at this
    · have hpeer : m.peers[h.id]? = some (some p) := by rw [List.getElem?_eq_getElem hlt', hslot]
      rcases eq_or_ne h.version m.versions[h.id] with heq | hne
      · exact .inl ⟨p, ⟨hloop, hpeer, by rw [hver, heq]⟩, by simp [hpeer, hver, heq]⟩
      · refine .inr ⟨fun q hl => ?_, by simp [hpeer, hver, hne]⟩
        have := hl.2.2
        rw [hver, Option.some.injEq] at this
        exact hne this.symm
  · refine .inr ⟨fun p hl => ?_, by rw [if_pos hge]⟩
    have := hl.2.2
    rw [List.getElem?_eq_none hge] at this
    simp at this

/-- **`GetLocalPeerData` returns the peer the handle resolves to.** -/
theorem getLocalPeerData_of_live (hw : m.WF) (hl : m.Live h p) :
    m.getLocalPeerData h = some (some p) := by
  rcases existsLocal_eq hw hl.1 with ⟨-, -, hex⟩ | ⟨hno, -⟩
  · simp only [getLocalPeerData, hex, Option.bind_eq_bind, Option.bind_some, if_true, hl.2.1]
  · exact absurd hl (hno p)

/-- It returns the null pointer for a handle that does not. -/
theorem getLocalPeerData_of_stale (hw : m.WF) (hloop : h.loop = some m.loop)
    (hno : ∀ p, ¬m.Live h p) : m.getLocalPeerData h = some none := by
  rcases existsLocal_eq hw hloop with ⟨p, hl, -⟩ | ⟨-, hex⟩
  · exact absurd hl (hno p)
  · simp [getLocalPeerData, hex]

theorem getLocalPeerData_iff (hw : m.WF) :
    m.getLocalPeerData h = some (some p) ↔ m.Live h p := by
  refine ⟨fun hget => ?_, getLocalPeerData_of_live hw⟩
  by_cases hloop : h.loop = some m.loop
  · by_cases hex : ∃ q, m.Live h q
    · obtain ⟨q, hq⟩ := hex
      rw [getLocalPeerData_of_live hw hq, Option.some.injEq, Option.some.injEq] at hget
      exact hget ▸ hq
    · rw [getLocalPeerData_of_stale hw hloop (not_exists.mp hex)] at hget
      simp at hget
  · simp [getLocalPeerData, existsLocal, guard, hloop] at hget

/-- **Releasing a stale or unknown handle** returns the null pointer and changes nothing. -/
theorem release_of_stale (hw : m.WF) (hloop : h.loop = some m.loop) (hno : ∀ p, ¬m.Live h p) :
    m.release h = some (m, none) := by
  rcases existsLocal_eq hw hloop with ⟨p, hl, -⟩ | ⟨-, hex⟩
  · exact absurd hl (hno p)
  · simp [release, hex]

theorem bumpVersion_ne_zero (v : UInt32) : bumpVersion v ≠ 0 := by
  unfold bumpVersion
  split_ifs with hz
  · rw [hz]
    decide
  · exact hz

/-- Below the wrap the next version is one more. -/
theorem bumpVersion_toNat {v : UInt32} (hv : v.toNat + 1 < 2 ^ 32) :
    (bumpVersion v).toNat = v.toNat + 1 := by
  have hadd : (v + 1).toNat = v.toNat + 1 := by
    rw [UInt32.toNat_add]
    exact Nat.mod_eq_of_lt hv
  have hne : v + 1 ≠ 0 := fun hz => by
    rw [hz] at hadd
    simp at hadd
  rw [bumpVersion, if_neg hne, hadd]

/-- What the release of a live handle does: its slot is empty, has the next version and is
not to be flushed, only this handle stops resolving, and nothing else changes. -/
structure Frees (m m' : PeerManager P) (h : PeerHandle) : Prop where
  loop : m'.loop = m.loop
  live_iff : ∀ g q, m'.Live g q ↔ m.Live g q ∧ g ≠ h
  versionAt_eq : ∀ i, m'.versionAt i =
    if i = h.id then bumpVersion (m.versionAt i) else m.versionAt i
  peers : m'.peers = m.peers.set h.id none
  mem_peersToFlush : ∀ i, i ∈ m'.peersToFlush.peers ↔ i ∈ m.peersToFlush.peers ∧ i ≠ h.id

/-- What is still in a slot was there, in another slot than the freed one. -/
theorem Frees.peers_eq {i : ℕ} {r : P} (hf : m.Frees m' h) (hr : m'.peers[i]? = some (some r)) :
    i ≠ h.id ∧ m.peers[i]? = some (some r) := by
  rw [hf.peers, List.getElem?_set] at hr
  split_ifs at hr with hi
  · simp at hr
  · exact ⟨Ne.symm hi, hr⟩

/-- **Releasing a live handle** returns its peer and frees its slot. -/
theorem release_of_live (hw : m.WF) (hl : m.Live h p) :
    ∃ m', m.release h = some (m', some p) ∧ m'.WF ∧ m.Frees m' h ∧
      m'.perHostOffset = m.perHostOffset := by
  obtain ⟨hloop, hpeer, hver⟩ := id hl
  obtain ⟨hlt, -⟩ := List.getElem?_eq_some_iff.mp hpeer
  obtain ⟨hltv, -⟩ := List.getElem?_eq_some_iff.mp hver
  obtain ⟨f, hrem, hf, hmem⟩ := PeersToFlush.removePeerToFlush_spec hw.peersToFlush h.id
  have hex : m.existsLocal h = some true := by
    rcases existsLocal_eq hw hl.1 with ⟨-, -, hex⟩ | ⟨hno, -⟩
    · exact hex
    · exact absurd hl (hno p)
  refine ⟨{ m with
    freeIds := m.freeIds ++ [h.id]
    peers := m.peers.set h.id none
    versions := m.versions.set h.id (bumpVersion h.version)
    peersToFlush := f }, ?_, ⟨?_, ?_, ?_, ?_, ?_, hf⟩, ⟨rfl, ?_, ?_, rfl, hmem⟩, rfl⟩
  · simp [release, hex, hpeer, hver, hrem]
  · simp [hw.versions_length]
  · simp [hw.perHostOffset_length]
  · refine List.nodup_append.mpr ⟨hw.freeIds_nodup, List.nodup_singleton _, ?_⟩
    rintro a ha b hb rfl
    rw [List.mem_singleton] at hb
    rw [hb, hw.mem_freeIds, hpeer] at ha
    simp at ha
  · intro i
    rw [List.mem_append, List.mem_singleton, hw.mem_freeIds, List.getElem?_set]
    split_ifs with hi
    · simp [hi]
    · simp [Ne.symm hi]
  · intro i v hv
    rw [List.getElem?_set] at hv
    split_ifs at hv
    · rw [← Option.some.inj hv]
      exact bumpVersion_ne_zero _
    · exact hw.version_ne_zero i v hv
  · intro h' p'
    rcases eq_or_ne h'.id h.id with hid | hid
    · constructor
      · rintro ⟨-, hp', -⟩
        rw [hid, List.getElem?_set_self hlt] at hp'
        simp at hp'
      · rintro ⟨hl', hne⟩
        exact absurd (hl'.handle_eq hl hid) hne
    · have hne : h' ≠ h := fun heq => hid (congrArg PeerHandle.id heq)
      simp [Live, List.getElem?_set_ne hid.symm, hne]
  · intro i
    simp only [versionAt, List.getD_eq_getElem?_getD, List.getElem?_set]
    split_ifs with hi hi' hi'
    · rw [← hi, hver]
      rfl
    · exact absurd hi.symm hi'
    · exact absurd hi'.symm hi
    · rfl

/-- What an allocation does: an empty slot, or a new one behind the others, holds the peer,
the handle carries the version of the slot, and nothing else changes. -/
structure Fills (m m' : PeerManager P) (h : PeerHandle) (p : P) : Prop where
  loop : m'.loop = m.loop
  handle_loop : h.loop = some m.loop
  empty : m.peers[h.id]? = some none ∨ h.id = m.peers.length
  version_ne_zero : h.version ≠ 0
  version_eq : h.version = m.versionAt h.id
  peers : ∀ i : ℕ, m'.peers[i]? = if i = h.id then some (some p) else m.peers[i]?
  versions : ∀ i : ℕ, m'.versions[i]? = if i = h.id then some h.version else m.versions[i]?
  perHostOffset : ∀ i : ℕ, i ≠ h.id → m'.perHostOffset[i]? = m.perHostOffset[i]?
  peersToFlush : m'.peersToFlush = m.peersToFlush

namespace Fills

variable (hf : m.Fills m' h p)
include hf

theorem toBool : h.toBool = true := by
  simp [PeerHandle.toBool, hf.version_ne_zero, hf.handle_loop]

/-- The slot was empty. -/
theorem not_live (g : PeerHandle) (q : P) (hg : m.Live g q) : g.id ≠ h.id := by
  rintro hid
  have hq := hg.2.1
  rw [hid] at hq
  rcases hf.empty with he | he
  · simp [he] at hq
  · simp [he] at hq

/-- The new handle resolves to the peer, the others as before. -/
theorem live_iff (g : PeerHandle) (q : P) : m'.Live g q ↔ (g = h ∧ q = p) ∨ m.Live g q := by
  constructor
  · rintro ⟨hloop, hpeer, hver⟩
    rw [hf.peers] at hpeer
    rw [hf.versions] at hver
    rw [hf.loop] at hloop
    split_ifs at hpeer hver with hid
    · left
      obtain ⟨id, version, loop⟩ := g
      obtain ⟨id', version', loop'⟩ := h
      obtain rfl : id = id' := hid
      obtain rfl : version' = version := Option.some.inj hver
      obtain rfl : loop = loop' := hloop.trans hf.handle_loop.symm
      exact ⟨rfl, (Option.some.inj (Option.some.inj hpeer)).symm⟩
    · exact .inr ⟨hloop, hpeer, hver⟩
  · rintro (⟨rfl, rfl⟩ | hg)
    · exact ⟨by rw [hf.loop, hf.handle_loop], by rw [hf.peers, if_pos rfl],
        by rw [hf.versions, if_pos rfl]⟩
    · have hid := hf.not_live g q hg
      exact ⟨by rw [hf.loop, hg.1], by rw [hf.peers, if_neg hid, hg.2.1],
        by rw [hf.versions, if_neg hid, hg.2.2]⟩

theorem versionAt_eq (i : ℕ) : m'.versionAt i = m.versionAt i := by
  rw [versionAt, List.getD_eq_getElem?_getD, hf.versions]
  split_ifs with hi
  · rw [hi]
    exact hf.version_eq
  · rw [versionAt, List.getD_eq_getElem?_getD]

end Fills

/-- Without a free slot, `Alloc` makes one behind the others. -/
theorem alloc_of_nil (hw : m.WF) (p : P) (hnew : h.toBool = false) (hfree : m.freeIds = []) :
    ∃ m' h', m.alloc p h = some (m', h') ∧ m'.WF ∧ m.Fills m' h' p := by
  refine ⟨{ m with
    peers := m.peers ++ [some p]
    versions := m.versions ++ [1]
    perHostOffset := m.perHostOffset ++ [-1] }, ⟨m.peers.length, 1, some m.loop⟩, ?_,
    ⟨?_, ?_, hw.freeIds_nodup, ?_, ?_, hw.peersToFlush⟩,
    ⟨rfl, rfl, .inr rfl, (by decide : (1 : UInt32) ≠ 0), ?_, fun i => getElem?_concat_eq _ _ _, fun i => ?_,
      fun i hi => ?_, rfl⟩⟩
  · simp [alloc, guard, hnew, hfree]
  · simp [hw.versions_length]
  · simp [hw.perHostOffset_length]
  · intro i
    rw [hw.mem_freeIds, getElem?_concat_eq]
    split_ifs with hi
    · simp [hi]
    · rfl
  · intro i v hv
    rw [getElem?_concat_eq] at hv
    split_ifs at hv
    · rw [← Option.some.inj hv]
      decide
    · exact hw.version_ne_zero i v hv
  · simp [versionAt, hw.versions_length]
  · rw [getElem?_concat_eq, hw.versions_length]
  · rw [getElem?_concat_eq, hw.perHostOffset_length, if_neg hi]

/-- With free slots, `Alloc` takes the last of them, with the version it has. -/
theorem alloc_of_concat (hw : m.WF) (p : P) (hnew : h.toBool = false) {fs : List ℕ} {id : ℕ}
    (hfs : m.freeIds = fs ++ [id]) :
    ∃ m' h', m.alloc p h = some (m', h') ∧ m'.WF ∧ m.Fills m' h' p := by
  have hslot : m.peers[id]? = some none := (hw.mem_freeIds id).mp (by simp [hfs])
  obtain ⟨hlt, -⟩ := List.getElem?_eq_some_iff.mp hslot
  have hver : m.versions[id]? = some (m.versionAt id) := by
    rw [versionAt, List.getD_eq_getElem?_getD,
      List.getElem?_eq_getElem (by rw [hw.versions_length]; exact hlt)]
    rfl
  have hnd := hw.freeIds_nodup
  rw [hfs, List.nodup_append] at hnd
  refine ⟨{ m with freeIds := fs, peers := m.peers.set id (some p) },
    ⟨id, m.versionAt id, some m.loop⟩, ?_, ⟨?_, ?_, hnd.1, ?_, hw.version_ne_zero,
    hw.peersToFlush⟩, ⟨rfl, rfl, .inl hslot, hw.version_ne_zero id _ hver, rfl, fun i => ?_,
    fun i => ?_, fun _ _ => rfl, rfl⟩⟩
  · simp [alloc, guard, hnew, hver, hslot, hfs, hw.version_ne_zero id _ hver]
  · simp [hw.versions_length]
  · simp [hw.perHostOffset_length]
  · intro i
    have hi := hw.mem_freeIds i
    rw [hfs, List.mem_append, List.mem_singleton] at hi
    rw [List.getElem?_set]
    split_ifs with hid
    · subst hid
      simp only [Option.some.injEq, reduceCtorEq, iff_false]
      exact fun hmem => hnd.2.2 _ hmem id (by simp) rfl
    · rw [← hi]
      simp [Ne.symm hid]
  · rw [List.getElem?_set]
    split_ifs with h1 h2 h2
    · rfl
    · exact absurd h1.symm h2
    · exact absurd h2.symm h1
    · rfl
  · split_ifs with hi
    · rw [hi, hver]
    · rfl

/-- **`Alloc` of a peer without a handle** fills a slot with it. -/
theorem alloc_spec (hw : m.WF) (p : P) (hnew : h.toBool = false) :
    ∃ m' h', m.alloc p h = some (m', h') ∧ m'.WF ∧ m.Fills m' h' p := by
  rcases List.eq_nil_or_concat' m.freeIds with hnil | ⟨fs, id, hfs⟩
  · exact alloc_of_nil hw p hnew hnil
  · exact alloc_of_concat hw p hnew hfs

end PeerManager
end ICon7
