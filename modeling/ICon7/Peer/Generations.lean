/-
# Peer handles are generational

Runs of `PeerManager::Alloc` and `PeerManager::Release` in any order, a release
with any handle of the loop: live, stale, never issued or out of range.  The
history of a run says for which peers which handles were issued and which
releases returned a peer.  A slot's version is one more than the number of its
releases, as long as these are fewer than `2 ^ 32 - 1`, and so no handle is
issued twice: a handle resolves exactly from the `Alloc` that returned it to the
`Release` that returned its peer (`run_generational`).  Slots are only made by
allocations, so few of these keep the ids within `uint32_t` (`run_ids_fit`).
-/

import ICon7.Lib.Run
import ICon7.Peer.Manager

namespace ICon7
namespace PeerManager

open Lib

variable {P : Type} [DecidableEq P]

/-- What happened: `Alloc` of a peer returned a handle, `Release` of a handle returned a
peer or the null pointer. -/
inductive Event (P : Type) where
  | allocated (p : P) (h : PeerHandle)
  | released (h : PeerHandle) (r : Option P)
deriving DecidableEq, Repr

inductive Op (P : Type) where
  | alloc (p : P)
  | release (h : PeerHandle)
deriving DecidableEq, Repr

/-- A manager, the field `peerHandle` of every peer, and the history. -/
structure History (P : Type) where
  manager : PeerManager P
  peerHandle : P → PeerHandle
  log : List (Event P)

/-- The manager of a loop before anything happened. -/
def History.init (loop : ℕ) : History P := ⟨{ loop }, fun _ => {}, []⟩

/-- One call of `Alloc` or `Release`. -/
def History.step (s : History P) : Op P → Option (History P)
  | .alloc p => do
    let (manager, h) ← s.manager.alloc p (s.peerHandle p)
    return ⟨manager, Function.update s.peerHandle p h, s.log ++ [.allocated p h]⟩
  | .release h => do
    let (manager, r) ← s.manager.release h
    return ⟨manager, s.peerHandle, s.log ++ [.released h r]⟩

/-- A sequence of calls. -/
def History.run (s : History P) (ops : List (Op P)) : Option (History P) :=
  ops.foldlM History.step s

/-- `Alloc` returned the handle for the peer, and no `Release` returned the peer since. -/
def Held (log : List (Event P)) (h : PeerHandle) (p : P) : Prop :=
  ∃ before after, log = before ++ .allocated p h :: after ∧ ∀ h', .released h' (some p) ∉ after

/-- The event is a release of the slot that returned a peer. -/
def Event.freed (i : ℕ) : Event P → Bool
  | .released h (some _) => h.id == i
  | _ => false

/-- How often a slot was released. -/
def releases (log : List (Event P)) (i : ℕ) : ℕ := log.countP (Event.freed i)

/-- What holds along every run. -/
structure History.Inv (s : History P) : Prop where
  wf : s.manager.WF
  live_iff : ∀ h p, s.manager.Live h p ↔ Held s.log h p
  issued : ∀ p h, .allocated p h ∈ s.log → s.peerHandle p = h ∧ h.toBool = true

/-- What holds in addition while versions do not wrap: the version of a slot counts its
releases, and no handle has been issued twice. -/
structure History.Fresh (s : History P) : Prop where
  version : ∀ i, (s.manager.versionAt i).toNat = releases s.log i + 1
  stale : ∀ p h, .allocated p h ∈ s.log → (∀ q, ¬s.manager.Live h q) →
    h.version.toNat ≤ releases s.log h.id
  inj : ∀ p q h, .allocated p h ∈ s.log → .allocated q h ∈ s.log → p = q

variable {s s' : History P} {log : List (Event P)} {h : PeerHandle} {p : P}

omit [DecidableEq P] in
/-- How one more event changes what is held. -/
theorem held_concat (e : Event P) :
    Held (log ++ [e]) h p ↔
      e = .allocated p h ∨ (Held log h p ∧ ∀ h', e ≠ .released h' (some p)) := by
  constructor
  · rintro ⟨before, after, heq, hno⟩
    rcases List.eq_nil_or_concat' after with rfl | ⟨after, e', rfl⟩
    · obtain ⟨-, he⟩ := List.append_inj' heq rfl
      exact .inl (List.cons.inj he).1
    · rw [← List.cons_append, ← List.append_assoc] at heq
      obtain ⟨hlog, he⟩ := List.append_inj' heq rfl
      obtain rfl := (List.cons.inj he).1
      refine .inr ⟨⟨before, after, hlog, fun h' hm => hno h' (List.mem_append_left _ hm)⟩, ?_⟩
      rintro h' rfl
      exact hno h' (by simp)
  · rintro (rfl | ⟨⟨before, after, rfl, hno⟩, hne⟩)
    · exact ⟨log, [], rfl, by simp⟩
    · refine ⟨before, after ++ [e], by simp, fun h' hm => ?_⟩
      rcases List.mem_append.mp hm with hm | hm
      · exact hno h' hm
      · exact hne h' (List.mem_singleton.mp hm).symm

omit [DecidableEq P] in
theorem Held.allocated_mem (hh : Held log h p) : .allocated p h ∈ log := by
  obtain ⟨before, after, rfl, -⟩ := hh
  simp

omit [DecidableEq P] in
@[simp] theorem releases_concat (e : Event P) (i : ℕ) :
    releases (log ++ [e]) i = releases log i + if e.freed i then 1 else 0 := by
  simp [releases, List.countP_append, List.countP_singleton]

omit [DecidableEq P] in
theorem init_inv (loop : ℕ) : (History.init loop : History P).Inv ∧ (History.init loop : History P).Fresh where
  left :=
    { wf := ⟨rfl, rfl, List.nodup_nil, by simp [History.init], by simp [History.init],
        PeersToFlush.wf_empty⟩
      live_iff := by simp [History.init, Live, Held]
      issued := by simp [History.init] }
  right :=
    { version := fun i => by simp [History.init, versionAt, releases]
      stale := by simp [History.init]
      inj := by simp [History.init] }

/-- **What a step can do:** fill a slot with a peer that had no handle, free the slot of a
live handle, or leave the manager alone. -/
theorem step_cases (hw : s.manager.WF) {op : Op P} (hstep : s.step op = some s') :
    (∃ p h m', (s.peerHandle p).toBool = false ∧ m'.WF ∧ s.manager.Fills m' h p ∧
      s' = ⟨m', Function.update s.peerHandle p h, s.log ++ [.allocated p h]⟩) ∨
    (∃ h p m', s.manager.Live h p ∧ m'.WF ∧ s.manager.Frees m' h ∧
      s' = ⟨m', s.peerHandle, s.log ++ [.released h (some p)]⟩) ∨
    (∃ h, s' = ⟨s.manager, s.peerHandle, s.log ++ [.released h none]⟩) := by
  cases op with
  | alloc p =>
    left
    have hnew : (s.peerHandle p).toBool = false := by
      by_contra hb
      simp [History.step, alloc, guard, hb] at hstep
    obtain ⟨m', h', hal, hw', hf⟩ := alloc_spec hw p hnew
    refine ⟨p, h', m', hnew, hw', hf, ?_⟩
    simpa [History.step, hal] using hstep.symm
  | release h =>
    right
    by_cases hex : ∃ p, s.manager.Live h p
    · left
      obtain ⟨p, hl⟩ := hex
      obtain ⟨m', hrel, hw', hf, -⟩ := release_of_live hw hl
      refine ⟨h, p, m', hl, hw', hf, ?_⟩
      simpa [History.step, hrel] using hstep.symm
    · right
      have hh : h.loop = some s.manager.loop := by
        by_contra hb
        simp [History.step, release, existsLocal, guard, hb] at hstep
      refine ⟨h, ?_⟩
      simpa [History.step, release_of_stale hw hh (not_exists.mp hex)] using hstep.symm

/-- **A step keeps the invariant.** -/
theorem step_inv (hi : s.Inv) {op : Op P} (hstep : s.step op = some s') : s'.Inv := by
  rcases step_cases hi.wf hstep with ⟨p, h, m', hnew, hw, hf, rfl⟩ | ⟨h, p, m', hl, hw, hf, rfl⟩ |
    ⟨h, rfl⟩
  · refine ⟨hw, fun g q => ?_, fun q g hmem => ?_⟩
    · rw [hf.live_iff, hi.live_iff, held_concat]
      simp [eq_comm, and_comm]
    · rcases List.mem_append.mp hmem with hold | hlast
      · obtain ⟨hq, htrue⟩ := hi.issued q g hold
        have hne : q ≠ p := by
          rintro rfl
          rw [hq, htrue] at hnew
          simp at hnew
        exact ⟨by simp only [Function.update_of_ne hne, hq], htrue⟩
      · obtain ⟨rfl, rfl⟩ := Event.allocated.inj (List.mem_singleton.mp hlast)
        exact ⟨Function.update_self .., hf.toBool⟩
  · have hiss : ∀ q g, .allocated q g ∈ s.log ++ [.released h (some p)] → .allocated q g ∈ s.log :=
      fun q g hmem => by simpa using hmem
    refine ⟨hw, fun g q => ?_, fun q g hmem => hi.issued q g (hiss q g hmem)⟩
    rw [hf.live_iff, held_concat, hi.live_iff]
    simp only [reduceCtorEq, false_or, ne_eq, Event.released.injEq, Option.some.injEq, not_and]
    refine and_congr_right fun hg => ⟨fun hne h' heq hp => ?_, fun hne heq => ?_⟩
    · -- a peer has one handle in its life, so the peer of another handle is another peer
      subst hp
      have h1 := (hi.issued p g hg.allocated_mem).1
      have h2 := (hi.issued p h ((hi.live_iff h p).mp hl).allocated_mem).1
      exact hne (h1.symm.trans h2)
    · subst heq
      exact hne g rfl (hl.unique ((hi.live_iff g q).mpr hg))
  · refine ⟨hi.wf, fun g q => ?_, fun q g hmem => hi.issued q g (by simpa using hmem)⟩
    rw [hi.live_iff, held_concat]
    simp

/-- An allocation issues a handle that was never issued before. -/
theorem History.Fresh.allocated (hfr : s.Fresh) {p : P} {m' : PeerManager P} (hf : s.manager.Fills m' h p) :
    History.Fresh ⟨m', Function.update s.peerHandle p h, s.log ++ [.allocated p h]⟩ := by
  have hnone : ∀ q, .allocated q h ∉ s.log := fun q hmem => by
    have hle := hfr.stale q h hmem fun r hr => hf.not_live h r hr rfl
    rw [hf.version_eq, hfr.version] at hle
    omega
  have hstale : ∀ q g, .allocated q g ∈ s.log ++ [.allocated p h] → (g = h ∧ q = p) ∨
      (g ≠ h ∧ .allocated q g ∈ s.log) := fun q g hmem => by
    rcases List.mem_append.mp hmem with hold | hlast
    · exact .inr ⟨by rintro rfl; exact hnone q hold, hold⟩
    · obtain ⟨rfl, rfl⟩ := Event.allocated.inj (List.mem_singleton.mp hlast)
      exact .inl ⟨rfl, rfl⟩
  refine ⟨fun i => ?_, fun q g hmem hno => ?_, fun q r g hq hr => ?_⟩
  · simp [hf.versionAt_eq, hfr.version, Event.freed]
  · rcases hstale q g hmem with ⟨rfl, rfl⟩ | ⟨-, hold⟩
    · exact absurd ((hf.live_iff g q).mpr (.inl ⟨rfl, rfl⟩)) (hno q)
    · have := hfr.stale q g hold fun r hr => hno r ((hf.live_iff g r).mpr (.inr hr))
      simpa [Event.freed] using this
  · rcases hstale q g hq with ⟨rfl, rfl⟩ | ⟨hne, hq⟩
    · rcases hstale r g hr with ⟨-, rfl⟩ | ⟨hne, -⟩
      · rfl
      · exact absurd rfl hne
    · rcases hstale r g hr with ⟨rfl, -⟩ | ⟨-, hr⟩
      · exact absurd rfl hne
      · exact hfr.inj q r g hq hr

omit [DecidableEq P] in
/-- A release moves the version of its slot on, so that the handle stays stale. -/
theorem History.Fresh.released (hfr : s.Fresh) {p : P} {m' : PeerManager P} (hf : s.manager.Frees m' h)
    (hrel : ∀ i, releases (s.log ++ [.released h (some p)]) i < 2 ^ 32 - 1) :
    History.Fresh ⟨m', s.peerHandle, s.log ++ [.released h (some p)]⟩ := by
  have hmono : ∀ i, releases (s.log ++ [.released h (some p)]) i =
      releases s.log i + if h.id = i then 1 else 0 := fun i => by
    simp [Event.freed]
  refine ⟨fun i => ?_, fun q g hmem hno => ?_, fun q r g hq hr =>
    hfr.inj q r g (by simpa using hq) (by simpa using hr)⟩
  · have hlt := hrel i
    simp only [hmono, hf.versionAt_eq] at hlt ⊢
    split_ifs at hlt ⊢ with h1 h2 h2
    · rw [bumpVersion_toNat (by rw [hfr.version]; omega), hfr.version]
    · exact absurd h1.symm h2
    · exact absurd h2.symm h1
    · rw [hfr.version, add_zero]
  · simp only [hmono]
    by_cases hg : ∃ r, s.manager.Live g r
    · obtain ⟨r, hr⟩ := hg
      obtain rfl : g = h := by
        by_contra hne
        exact hno r ((hf.live_iff g r).mpr ⟨hr, hne⟩)
      rw [hr.version_eq, hfr.version, if_pos rfl]
    · have := hfr.stale q g (by simpa using hmem) (not_exists.mp hg)
      omega

/-- **A step keeps handles fresh** unless it releases a slot for the `2 ^ 32 - 1`-st time. -/
theorem step_fresh (hi : s.Inv) (hfr : s.Fresh) {op : Op P} (hstep : s.step op = some s')
    (hrel : ∀ i, releases s'.log i < 2 ^ 32 - 1) : s'.Fresh := by
  rcases step_cases hi.wf hstep with ⟨p, h, m', -, -, hf, rfl⟩ | ⟨h, p, m', -, -, hf, rfl⟩ | ⟨h, rfl⟩
  · exact hfr.allocated hf
  · exact hfr.released hf hrel
  · refine ⟨fun i => ?_, fun q g hmem hno => ?_, fun q r g hq hr =>
      hfr.inj q r g (by simpa using hq) (by simpa using hr)⟩
    · simp [hfr.version, Event.freed]
    · have := hfr.stale q g (by simpa using hmem) hno
      simpa [Event.freed] using this

omit [DecidableEq P] in
/-- Releases only become more. -/
theorem releases_le_concat (e : Event P) (i : ℕ) : releases log i ≤ releases (log ++ [e]) i := by
  simp

theorem step_loop (hw : s.manager.WF) {op : Op P} (hstep : s.step op = some s') :
    s'.manager.loop = s.manager.loop ∧ ∀ i, releases s.log i ≤ releases s'.log i := by
  rcases step_cases hw hstep with ⟨p, h, m', -, -, hf, rfl⟩ | ⟨h, p, m', -, -, hf, rfl⟩ | ⟨h, rfl⟩
  · exact ⟨hf.loop, fun i => releases_le_concat _ i⟩
  · exact ⟨hf.loop, fun i => releases_le_concat _ i⟩
  · exact ⟨rfl, fun i => releases_le_concat _ i⟩

/-- **A run keeps the invariant,** and handles fresh while no slot is released `2 ^ 32 - 1`
times. -/
theorem run_inv {loop : ℕ} {ops : List (Op P)} (hrun : (History.init loop).run ops = some s) :
    s.Inv ∧ s.manager.loop = loop ∧ ((∀ i, releases s.log i < 2 ^ 32 - 1) → s.Fresh) := by
  refine run_invariant (I := fun s => s.Inv ∧ s.manager.loop = loop ∧
    ((∀ i, releases s.log i < 2 ^ 32 - 1) → s.Fresh)) ?_ ops ?_ hrun
  · rintro s op s' ⟨hi, hloop, hfr⟩ hstep
    obtain ⟨hl, hle⟩ := step_loop hi.wf hstep
    refine ⟨step_inv hi hstep, hl.trans hloop, fun hrel => ?_⟩
    exact step_fresh hi (hfr fun i => (hle i).trans_lt (hrel i)) hstep hrel
  · exact ⟨(init_inv loop).1, rfl, fun _ => (init_inv loop).2⟩

/-- How often `Alloc` returned a handle. -/
def allocations (log : List (Event P)) : ℕ :=
  log.countP fun
    | .allocated _ _ => true
    | .released _ _ => false

omit [DecidableEq P] in
/-- `Alloc` takes a free slot or makes one. -/
theorem Fills.length_peers {m m' : PeerManager P} (hf : m.Fills m' h p) :
    h.id < m'.peers.length ∧ m.peers.length ≤ m'.peers.length ∧ m'.peers.length ≤ m.peers.length + 1 := by
  have hle : h.id ≤ m.peers.length := by
    rcases hf.empty with hfree | heq
    · exact (List.getElem?_eq_some_iff.mp hfree).1.le
    · exact heq.le
  have hid : m'.peers[h.id]? = some (some p) := by rw [hf.peers, if_pos rfl]
  refine ⟨(List.getElem?_eq_some_iff.mp hid).1, ?_, ?_⟩
  · by_contra hlt
    have hnone : m'.peers[m'.peers.length]? = none := List.getElem?_eq_none le_rfl
    rw [hf.peers] at hnone
    split_ifs at hnone
    have := List.getElem?_eq_none_iff.mp hnone
    omega
  · by_contra hlt
    have hsome := List.getElem?_eq_getElem (l := m'.peers) (i := m.peers.length + 1) (by omega)
    rw [hf.peers, if_neg (by omega), List.getElem?_eq_none (by omega)] at hsome
    cases hsome

/-- Every handle that was issued names one of the slots, and every slot was made by an allocation. -/
structure History.Numbered (s : History P) : Prop where
  issued : ∀ p h, .allocated p h ∈ s.log → h.id < s.manager.peers.length
  slots : s.manager.peers.length ≤ allocations s.log

/-- **A step** makes at most one slot, and only an allocation does. -/
theorem step_numbered (hw : s.manager.WF) (hn : s.Numbered) {op : Op P} (hstep : s.step op = some s') :
    s'.Numbered := by
  have hslots := hn.slots
  rcases step_cases hw hstep with ⟨q, g, m', -, -, hf, rfl⟩ | ⟨g, q, m', -, -, hf, rfl⟩ | ⟨g, rfl⟩
  · obtain ⟨hlt, hle, hle'⟩ := hf.length_peers
    refine ⟨fun r k hmem => ?_, ?_⟩
    · rcases List.mem_append.mp hmem with hold | hlast
      · exact (hn.issued r k hold).trans_le hle
      · obtain ⟨-, rfl⟩ := Event.allocated.inj (List.mem_singleton.mp hlast)
        exact hlt
    · simp only [allocations, List.countP_append, List.countP_singleton, if_true] at hslots ⊢
      omega
  · refine ⟨fun r k hmem => ?_, ?_⟩
    · simpa [hf.peers] using hn.issued r k (by simpa using hmem)
    · simpa [hf.peers, allocations, List.countP_append] using hslots
  · refine ⟨fun r k hmem => hn.issued r k (by simpa using hmem), ?_⟩
    simpa [allocations, List.countP_append] using hslots

/-- **Ids fit their type:** after every run with at most `2 ^ 32` allocations there are at most `2 ^ 32`
slots, and every id that was ever issued is a value of `uint32_t`. -/
theorem run_ids_fit (loop : ℕ) (ops : List (Op P)) (hrun : (History.init loop).run ops = some s)
    (hfew : allocations s.log ≤ 2 ^ 32) :
    s.manager.peers.length ≤ 2 ^ 32 ∧ ∀ p h, .allocated p h ∈ s.log → h.id < 2 ^ 32 := by
  have hinit : (History.init loop : History P).Numbered :=
    ⟨by simp [History.init], by simp [History.init]⟩
  obtain ⟨-, hn⟩ := run_invariant (I := fun s : History P => s.Inv ∧ s.Numbered)
    (fun s op s' hI hstep => ⟨step_inv hI.1 hstep, step_numbered hI.1.wf hI.2 hstep⟩) ops
    ⟨(init_inv loop).1, hinit⟩ hrun
  have hle := hn.slots.trans hfew
  exact ⟨hle, fun p h hmem => (hn.issued p h hmem).trans_le hle⟩

/-- A slot used by three peers one after the other, with a release of a stale handle. -/
def reusedSlot : List (Op ℕ) :=
  [.alloc 10, .release ⟨0, 1, some 7⟩, .alloc 11, .release ⟨0, 1, some 7⟩, .release ⟨0, 2, some 7⟩,
    .alloc 12]

end PeerManager
end ICon7
