/-
# The state between two events

Between two events of a loop every peer is either open or closed for good, and its
log says which (`Settled`).  No function is running, so that no local owns a peer and a
closed peer is destroyed.  A nest of closings keeps that (`Settled.closes`), and so
do a new peer (`makePeer_spec`) and the changes that close nothing.
-/

import ICon7.Host.Closing

namespace ICon7

open Framing Lib

namespace HostLoop

variable {w w' w₁ : HostLoop} {loop hosts q r s : ℕ} {p : PeerData} {h : PeerHandle}

/-- What is logged when a peer is closed. -/
def closing (q : ℕ) : List Event := [.disconnected q, .released q false false false]

/-- **The state between two events.** -/
structure Settled (loop hosts : ℕ) (w : HostLoop) : Prop where
  wf : w.WF
  holders : w.holders = []
  loop_eq : w.peerManager.loop = loop
  hosts_eq : w.peerReferences.length = hosts
  isOpen : ∀ (q : ℕ) (p : PeerData), w.peerData[q]? = some p → p.sharedPeer ≠ none → w.IsOpen q
  ext : ∀ (s : ℕ) (k : Socket), w.sockets[s]? = some k → k.isClosed = false → k.ext ≠ none
  held : ∀ (q : ℕ) (p : PeerData), w.peerData[q]? = some p → p.sharedPeer ≠ none →
    ∃ held, p.frameDecoder = .ofHeld held ∧ ∀ n, FrameDecoder.frameLen held = some n → held.length < n
  opened : ∀ (q : ℕ) (p : PeerData), w.peerData[q]? = some p → p.sharedPeer ≠ none →
    ∃ n, w.history q = List.replicate n (.packet q)
  closed : ∀ (q : ℕ) (p : PeerData), w.peerData[q]? = some p → p.sharedPeer = none →
    ∃ n, w.history q = List.replicate n (.packet q) ++ closing q
  unborn : ∀ q : ℕ, w.peerData.length ≤ q → w.history q = []

/-- An open peer is alive. -/
theorem WF.sharedPeer_of_isOpen (hw : w.WF) (hp : w.peerData[q]? = some p) (ho : w.IsOpen q) :
    p.sharedPeer ≠ none := fun hn => hw.not_isOpen hp hn ho

/-- **A nest of closings leads from settled states to settled ones.** -/
theorem Settled.closes (hw : w.Settled loop hosts) (hc : Closes w w') : w'.Settled loop hosts := by
  have hpeer : ∀ (q : ℕ) (p' : PeerData), w'.peerData[q]? = some p' → ∃ p, w.peerData[q]? = some p :=
    fun q p' hp' => ⟨_, List.getElem?_eq_getElem (by
      rw [← hc.peers]
      exact (List.getElem?_eq_some_iff.mp hp').1)⟩
  -- what is alive after the closings has been left alone
  have halive : ∀ (q : ℕ) (p' : PeerData), w'.peerData[q]? = some p' → p'.sharedPeer ≠ none →
      ∃ p, w.peerData[q]? = some p ∧ p.sharedPeer ≠ none ∧ Kept p p' ∧
        (w'.IsOpen q ↔ w.IsOpen q) ∧ w'.history q = w.history q := by
    intro q p' hp' hsh
    obtain ⟨p, hp⟩ := hpeer q p' hp'
    rcases hc.peer q p p' hp hp' with ⟨hk, hrest⟩ | ⟨-, hcl, -⟩
    · exact ⟨p, hp, fun hn => hsh (hk.sharedPeer.mpr hn), hk, hrest⟩
    · exact absurd hcl hsh
  refine ⟨hc.wf, hc.holders.trans hw.holders, hc.loop.trans hw.loop_eq, hc.hosts.trans hw.hosts_eq, fun q p' hp' hsh => ?_,
    fun s k hk ho => hw.ext s k (hc.socket s k hk ho) ho, fun q p' hp' hsh => ?_,
    fun q p' hp' hsh => ?_, fun q p' hp' hsh => ?_, fun q hq => ?_⟩
  · obtain ⟨p, hp, hsp, -, hiff, -⟩ := halive q p' hp' hsh
    exact hiff.mpr (hw.isOpen q p hp hsp)
  · obtain ⟨p, hp, hsp, hk, -⟩ := halive q p' hp' hsh
    rw [hk.frameDecoder]
    exact hw.held q p hp hsp
  · obtain ⟨p, hp, hsp, -, -, hh⟩ := halive q p' hp' hsh
    rw [hh]
    exact hw.opened q p hp hsp
  · obtain ⟨p, hp⟩ := hpeer q p' hp'
    rcases hc.peer q p p' hp hp' with ⟨hk, -, hh⟩ | ⟨ho, -, hh⟩
    · rw [hh]
      exact hw.closed q p hp (hk.sharedPeer.mp hsh)
    · obtain ⟨n, hn⟩ := hw.opened q p hp (hw.wf.sharedPeer_of_isOpen hp ho)
      exact ⟨n, by rw [hh, hn]; rfl⟩
  · rw [hc.peers] at hq
    rw [hc.unborn q hq, hw.unborn q hq]

/-! ### New peers -/

/-- A loop without peers. -/
theorem init_settled (loop hosts : ℕ) : (init loop hosts).Settled loop hosts := by
  have hpeers : (init loop hosts).peersOf = fun _ => [] := by
    funext host
    simp only [peersOf, init, List.getD_eq_getElem?_getD, List.getElem?_replicate]
    split_ifs <;> rfl
  refine ⟨⟨⟨rfl, rfl, List.nodup_nil, by simp [init], by simp [init], PeersToFlush.wf_empty⟩,
    by rw [hpeers]; exact PeerReferences.Mirrors.empty rfl _ _, by simp [init], by simp [init],
    by simp [init], by simp [init]⟩, rfl, rfl, List.length_replicate, by simp [init], by simp [init],
    by simp [init], by simp [init], by simp [init], fun q _ => rfl⟩

/-- What `makePeer` adds: a peer, and a socket that holds it. -/
structure Adds (w w' : HostLoop) (p : PeerData) : Prop where
  holders : w'.holders = w.holders
  peerData : w'.peerData = w.peerData ++ [p]
  sockets : w'.sockets = w.sockets ++ [{ host := p.host, ext := some w.peerData.length }]
  events : w'.events = w.events
  sharedPeer : p.sharedPeer = some {}
  socket : p.socket = some w.sockets.length
  frameDecoder : p.frameDecoder = .fresh

theorem Adds.peer (ha : Adds w w' p) (r : ℕ) :
    w'.peerData[r]? = if r = w.peerData.length then some p else w.peerData[r]? := by
  rw [ha.peerData, getElem?_concat_eq]

theorem Adds.socket_eq (ha : Adds w w' p) (t : ℕ) :
    w'.sockets[t]? = if t = w.sockets.length then
      some { host := p.host, ext := some w.peerData.length } else w.sockets[t]? := by
  rw [ha.sockets, getElem?_concat_eq]

/-- The old peers are as open as they were. -/
theorem Adds.isOpen (ha : Adds w w' p) (ho : w.IsOpen q) : w'.IsOpen q := by
  obtain ⟨pq, t, k, hpq, ht, hk, hkc⟩ := ho
  have hq : q ≠ w.peerData.length := by
    rintro rfl
    simp at hpq
  have hts : t ≠ w.sockets.length := by
    rintro rfl
    simp at hk
  exact ⟨pq, t, k, by rw [ha.peer, if_neg hq, hpq], ht, by rw [ha.socket_eq, if_neg hts, hk], hkc⟩

/-- A new peer keeps the state settled. -/
theorem Settled.adds (hw : w.Settled loop hosts) (ha : Adds w w' p) (hwf : w'.WF)
    (hloop : w'.peerManager.loop = w.peerManager.loop)
    (hhosts : w'.peerReferences.length = w.peerReferences.length) : w'.Settled loop hosts := by
  have hhist : ∀ r, w'.history r = w.history r := fun r => by rw [history, ha.events, history]
  have hsh : p.sharedPeer ≠ none := by simp [ha.sharedPeer]
  refine ⟨hwf, ha.holders.trans hw.holders, hloop.trans hw.loop_eq, hhosts.trans hw.hosts_eq, fun r pr hr hrs => ?_,
    fun t k hk hkc => ?_, fun r pr hr hrs => ?_, fun r pr hr hrs => ?_, fun r pr hr hrs => ?_,
    fun r hr => ?_⟩
  · rw [ha.peer] at hr
    split_ifs at hr with hq
    · refine ⟨p, _, { host := p.host, ext := some w.peerData.length }, ?_, ha.socket, ?_, rfl⟩
      · rw [ha.peer, if_pos hq]
      · rw [ha.socket_eq, if_pos rfl]
    · exact ha.isOpen (hw.isOpen r pr hr hrs)
  · rw [ha.socket_eq] at hk
    split_ifs at hk
    · rw [← Option.some.inj hk]
      simp
    · exact hw.ext t k hk hkc
  · rw [ha.peer] at hr
    split_ifs at hr
    · rw [← Option.some.inj hr]
      exact ⟨[], ha.frameDecoder, by simp [FrameDecoder.frameLen]⟩
    · exact hw.held r pr hr hrs
  · rw [ha.peer] at hr
    rw [hhist]
    split_ifs at hr with hq
    · exact ⟨0, hw.unborn r hq.ge⟩
    · exact hw.opened r pr hr hrs
  · rw [ha.peer] at hr
    rw [hhist]
    split_ifs at hr
    · exact absurd (Option.some.inj hr ▸ hrs) hsh
    · exact hw.closed r pr hr hrs
  · rw [ha.peerData, List.length_append, List.length_singleton] at hr
    rw [hhist, hw.unborn r (by omega)]

theorem Adds.hostOf (ha : Adds w w' p) :
    w'.hostOf = Function.update w.hostOf w.peerData.length p.host := by
  funext r
  rw [HostLoop.hostOf, ha.peer]
  rcases eq_or_ne r w.peerData.length with rfl | hne
  · simp
  · rw [if_neg hne, Function.update_of_ne hne, HostLoop.hostOf]

theorem Adds.idOf (ha : Adds w w' p) :
    w'.idOf = Function.update w.idOf w.peerData.length p.peerHandle.id := by
  funext r
  rw [HostLoop.idOf, ha.peer]
  rcases eq_or_ne r w.peerData.length with rfl | hne
  · simp
  · rw [if_neg hne, Function.update_of_ne hne, HostLoop.idOf]

/-- The invariant with the new peer, which the manager has a slot for. -/
theorem Adds.wf (ha : Adds w w' p) (hw : w.WF) (hm : w'.peerManager.WF)
    (hf : w.peerManager.Fills w'.peerManager p.peerHandle w.peerData.length)
    (hmir : PeerReferences.Mirrors w'.peerManager w'.hostOf w'.idOf w'.peersOf)
    (hlt : p.host < w.peerReferences.length)
    (hlen : w'.peerReferences.length = w.peerReferences.length) : w'.WF := by
  refine ⟨hm, hmir, fun r pr hr hrs => ?_, fun r pr hr hrs => ?_, fun i r hi => ?_,
    fun t k r hk hkr => ?_⟩
  · rw [ha.peer] at hr
    split_ifs at hr with hq
    · obtain rfl := Option.some.inj hr
      exact ⟨(hf.live_iff _ _).mpr (.inl ⟨rfl, hq⟩), hlt.trans_eq hlen.symm, w.sockets.length, _,
        ha.socket, (ha.socket_eq _).trans (if_pos rfl), congrArg some hq.symm, rfl⟩
    · obtain ⟨hlive, hrlt, t, k, ht, hk, hkr, hkh⟩ := hw.alive r pr hr hrs
      have hts : t ≠ w.sockets.length := by
        rintro rfl
        simp at hk
      exact ⟨(hf.live_iff _ _).mpr (.inr hlive), hrlt.trans_eq hlen.symm, t, k, ht,
        by rw [ha.socket_eq, if_neg hts, hk], hkr, hkh⟩
  · rw [ha.peer] at hr
    split_ifs at hr
    · rw [← Option.some.inj hr, ha.sharedPeer] at hrs
      simp at hrs
    · exact hw.cleared r pr hr hrs
  · rw [hf.peers i] at hi
    rw [ha.peer]
    split_ifs at hi
    · obtain rfl := Option.some.inj (Option.some.inj hi)
      exact ⟨p, if_pos rfl, by simp [ha.sharedPeer]⟩
    · obtain ⟨pr, hr, hrs⟩ := hw.slot i r hi
      refine ⟨pr, ?_, hrs⟩
      rw [if_neg (by rintro rfl; simp at hr), hr]
  · rw [ha.socket_eq] at hk
    rw [ha.peer]
    split_ifs at hk with hts
    · rw [← Option.some.inj hk] at hkr
      obtain rfl := Option.some.inj hkr
      exact ⟨p, if_pos rfl, by rw [ha.socket, hts]⟩
    · obtain ⟨pr, hr, hrt⟩ := hw.ext t k r hk hkr
      refine ⟨pr, ?_, hrt⟩
      rw [if_neg (by rintro rfl; simp at hr), hr]

/-- **`MakePeer`** adds a peer that its handle resolves to, and keeps the state settled. -/
theorem makePeer_adds (hw : w.Settled loop hosts) {host : ℕ} (hh : host < hosts) (onDisconnect : List ℕ) :
    ∃ w' p, w.makePeer host onDisconnect = some (w', p.peerHandle) ∧ Adds w w' p ∧
      w'.Settled loop hosts ∧ w'.peerManager.Live p.peerHandle w.peerData.length := by
  have hnew : ∀ i : ℕ, w.peerManager.peers[i]? ≠ some (some w.peerData.length) := by
    intro i hi
    obtain ⟨p, hp, -⟩ := hw.wf.slot i _ hi
    simp at hp
  obtain ⟨m, h, hal, hm, hf, hmir⟩ := PeerReferences.alloc_spec (h := {}) hw.wf.manager hw.wf.mirrors hnew
    rfl host
  have hlt : host < w.peerReferences.length := by rw [hw.hosts_eq]; exact hh
  set p : PeerData := { host, socket := some w.sockets.length, onDisconnect, peerHandle := h } with hp
  set w' : HostLoop := { w with
    peerManager := m
    peerData := w.peerData ++ [p]
    sockets := w.sockets ++ [{ host, ext := some w.peerData.length }]
    peerReferences := w.peerReferences.set host (w.peersOf host ++ [w.peerData.length]) } with hw'
  have ha : Adds w w' p := ⟨rfl, rfl, rfl, rfl, rfl, rfl, rfl⟩
  have hlen : w'.peerReferences.length = w.peerReferences.length := List.length_set
  have hpeers : w'.peersOf =
      Function.update w.peersOf host (w.peersOf host ++ [w.peerData.length]) := peersOf_of_set hlt rfl
  have hmir' : PeerReferences.Mirrors w'.peerManager w'.hostOf w'.idOf w'.peersOf := by
    rw [ha.hostOf, ha.idOf, hpeers]
    exact hmir
  exact ⟨w', p, by simp [makePeer, guard, hlt, hal, hw', hp], ha,
    hw.adds ha (ha.wf hw.wf hm hf hmir' hlt hlen) hf.loop hlen, (hf.live_iff _ _).mpr (.inl ⟨rfl, rfl⟩)⟩

theorem makePeer_spec (hw : w.Settled loop hosts) {host : ℕ} (hh : host < hosts) (onDisconnect : List ℕ) :
    ∃ w' h, w.makePeer host onDisconnect = some (w', h) ∧ w'.Settled loop hosts ∧
      h.loop = some loop := by
  obtain ⟨w', p, hmake, -, hw', hlive⟩ := makePeer_adds hw hh onDisconnect
  exact ⟨w', p.peerHandle, hmake, hw', hlive.1.trans (congrArg some hw'.loop_eq)⟩

/-! ### Events that close nothing, or only by `us_socket_close` -/

/-- What a handle of the loop resolves to. -/
theorem Settled.getLocalPeerData (hw : w.Settled loop hosts) (hl : h.loop = some loop) :
    w.peerManager.getLocalPeerData h = some none ∨
      ∃ r p, w.peerManager.getLocalPeerData h = some (some r) ∧ w.peerData[r]? = some p ∧
        p.sharedPeer ≠ none ∧ p.peerHandle = h := by
  by_cases hlive : ∃ r, w.peerManager.Live h r
  · obtain ⟨r, hr⟩ := hlive
    obtain ⟨p, hp, hs⟩ := hw.wf.slot _ r hr.2.1
    have hown := hw.wf.mirrors.own _ r hr.2.1
    simp only [idOf, hp, Option.map_some, Option.getD_some] at hown
    exact .inr ⟨r, p, PeerManager.getLocalPeerData_of_live hw.wf.manager hr, hp, hs,
      (hw.wf.alive r p hp hs).live.handle_eq hr hown⟩
  · exact .inl (PeerManager.getLocalPeerData_of_stale hw.wf.manager
      (hl.trans (congrArg some hw.loop_eq.symm)) (not_exists.mp hlive))

/-- The peer of an open socket. -/
theorem Settled.peer_of_socket (hw : w.Settled loop hosts) {k : Socket} (hk : w.sockets[s]? = some k)
    (ho : k.isClosed = false) :
    ∃ q p, k.ext = some q ∧ w.peerData[q]? = some p ∧ p.socket = some s ∧ p.sharedPeer ≠ none ∧
      w.IsOpen q ∧ p.peerHandle.loop = some loop := by
  obtain ⟨q, hq⟩ := Option.ne_none_iff_exists'.mp (hw.ext s k hk ho)
  obtain ⟨p, hp, hs⟩ := hw.wf.ext s k q hk hq
  have hsh := hw.wf.sharedPeer_ne hp hs
  exact ⟨q, p, hq, hp, hs, hsh, hw.isOpen q p hp hsh,
    (hw.wf.alive q p hp hsh).live.1.trans (congrArg some hw.loop_eq)⟩

/-- A change of a peer that neither the invariant nor its decoder sees. -/
theorem Settled.modifyPeer (hw : w.Settled loop hosts) (q : ℕ) {f : PeerData → PeerData}
    (hf : ∀ p, PeerData.links (f p) = PeerData.links p)
    (hd : ∀ p : PeerData, w.peerData[q]? = some p → p.sharedPeer ≠ none →
      ∃ held, (f p).frameDecoder = .ofHeld held ∧
        ∀ n, FrameDecoder.frameLen held = some n → held.length < n) :
    (w.modifyPeer q f).Settled loop hosts := by
  have hlinks := links_modifyPeer hf w q
  have hopen := isOpen_modifyPeer hf w q
  -- a peer is alive when it was
  have halive : ∀ (r : ℕ) (p' : PeerData), (w.modifyPeer q f).peerData[r]? = some p' →
      ∃ p, w.peerData[r]? = some p ∧ p' = (if q = r then f p else p) ∧
        (p'.sharedPeer = none ↔ p.sharedPeer = none) := by
    intro r p' hp'
    rw [peerData_modifyPeer] at hp'
    obtain ⟨p, hp, rfl⟩ := Option.map_eq_some_iff.mp hp'
    refine ⟨p, hp, rfl, ?_⟩
    split_ifs
    · exact (links_eq_iff.mp (hf p)).1
    · rfl
  refine ⟨hw.wf.congr rfl rfl hlinks fun _ => rfl, hw.holders, hw.loop_eq, hw.hosts_eq, fun r p' hp' hs => ?_,
    hw.ext, fun r p' hp' hs => ?_, fun r p' hp' hs => ?_, fun r p' hp' hs => ?_, fun r hr => ?_⟩
  · obtain ⟨p, hp, -, hiff⟩ := halive r p' hp'
    exact (hopen r).mpr (hw.isOpen r p hp fun hn => hs (hiff.mpr hn))
  · obtain ⟨p, hp, rfl, hiff⟩ := halive r p' hp'
    have hsp : p.sharedPeer ≠ none := fun hn => hs (hiff.mpr hn)
    rcases eq_or_ne q r with rfl | hne
    · rw [if_pos rfl]
      exact hd p hp hsp
    · rw [if_neg hne]
      exact hw.held r p hp hsp
  · obtain ⟨p, hp, -, hiff⟩ := halive r p' hp'
    exact hw.opened r p hp fun hn => hs (hiff.mpr hn)
  · obtain ⟨p, hp, -, hiff⟩ := halive r p' hp'
    exact hw.closed r p hp (hiff.mp hs)
  · exact hw.unborn r (by rwa [HostLoop.modifyPeer, List.length_modify] at hr)

/-- `us_socket_close` keeps the state settled. -/
theorem Settled.usSocketClose (hw : w.Settled loop hosts) (hs : s < w.sockets.length) :
    ∃ w', w.usSocketClose s = some w' ∧ w'.Settled loop hosts := by
  obtain ⟨w', hcl, hc, -⟩ := usSocketClose_spec _ w s hw.wf le_rfl hs
  exact ⟨w', hcl, hw.closes hc⟩

/-- `_InternalDisconnect` keeps the state settled. -/
theorem Settled.internalDisconnect (hw : w.Settled loop hosts) (hp : w.peerData[q]? = some p)
    (hs : p.sharedPeer ≠ none) :
    ∃ w', w.internalDisconnect HostLoop.usSocketClose q = some w' ∧ w'.Settled loop hosts ∧
      w'.sockets.length = w.sockets.length := by
  obtain ⟨w', hd, hc, -⟩ := internalDisconnect_spec (usSocketClose_spec _) hw.wf le_rfl
    (hw.wf.deref_of_alive hp hs)
  exact ⟨w', hd, hw.closes hc, hc.sockets⟩

/-- **`_Internal_on_open_Finish`**, whatever `onConnect` does, while `peer` owns the peer: a nest of
closings, and a flag of the peer if that is still there. -/
theorem Settled.onOpenFinish (hw : w.Settled loop hosts) (hl : h.loop = some loop) (q : ℕ)
    (onConnect : List ℕ) :
    ∃ w', (w.holding [q] fun w => w.onOpenFinish h onConnect) = some w' ∧ Closes w w' := by
  obtain ⟨w₁, hcb, hc, -⟩ := callback_spec (usSocketClose_spec _) onConnect
    (hw.wf.holders ([q] ++ w.holders)) le_rfl
  have hw₁ := hw.closes hc.holding
  rcases hw₁.getLocalPeerData hl with hget | ⟨r, p, hget, hp, hs, -⟩
  · refine ⟨_, Option.bind_eq_some_iff.mpr ⟨w₁, ?_, rfl⟩, hc.holding⟩
    simp only [HostLoop.onOpenFinish, hcb, hget, Option.bind_eq_bind, Option.bind_some, Option.pure_def]
  · obtain ⟨f, hf⟩ := Option.ne_none_iff_exists'.mp hs
    refine ⟨_, Option.bind_eq_some_iff.mpr ⟨w₁.setFlags r fun f => { f with ready := true }, ?_, rfl⟩,
      (hc.trans (hw.wf.holders _) (setFlags_closes hc.wf r _)).holding⟩
    simp only [HostLoop.onOpenFinish, hcb, hget, hc.wf.deref_of_alive hp hs, hf, Option.bind_eq_bind,
      Option.bind_some, Option.pure_def]

/-- `_Internal_on_timeout`, whatever the socket says of itself. -/
theorem Settled.onTimeout (hw : w.Settled loop hosts) {k : Socket} (hk : w.sockets[s]? = some k)
    (ho : k.isClosed = false) (isEstablished isShutDown : Bool) :
    ∃ w', w.onTimeout s isEstablished isShutDown = some w' ∧ w'.Settled loop hosts := by
  obtain ⟨q, p, hext, hp, -, hs, -⟩ := hw.peer_of_socket hk ho
  obtain ⟨w₁, hd, hw₁, hlen⟩ := hw.internalDisconnect hp hs
  by_cases hc : isEstablished = false ∨ isShutDown = true
  · obtain ⟨w', hcl, hw'⟩ := hw₁.usSocketClose (s := s)
      (by rw [hlen]; exact (List.getElem?_eq_some_iff.mp hk).1)
    exact ⟨w', by simp only [HostLoop.onTimeout, hk, hext, hd, Option.bind_eq_bind,
      Option.bind_some, if_pos hc, hcl], hw'⟩
  · exact ⟨w₁, by simp only [HostLoop.onTimeout, hk, hext, hd, Option.bind_eq_bind,
      Option.bind_some, if_neg hc, Option.pure_def], hw₁⟩

/-- `SetOnDisconnect`. -/
theorem Settled.setOnDisconnect (hw : w.Settled loop hosts) (hl : h.loop = some loop)
    (onDisconnect : List ℕ) :
    ∃ w', w.setOnDisconnect h onDisconnect = some w' ∧ w'.Settled loop hosts := by
  rcases hw.getLocalPeerData hl with hget | ⟨r, p, hget, hp, hs, -⟩
  · exact ⟨w, by simp [HostLoop.setOnDisconnect, hget], hw⟩
  · refine ⟨w.modifyPeer r fun p => { p with onDisconnect }, ?_,
      hw.modifyPeer r (fun _ => rfl) fun p hp hs => hw.held r p hp hs⟩
    simp only [HostLoop.setOnDisconnect, hget, hw.wf.deref_of_alive hp hs, Option.bind_eq_bind,
      Option.bind_some, Option.pure_def]

/-- Putting a peer into `peersToFlush`. -/
theorem Settled.send (hw : w.Settled loop hosts) (hl : h.loop = some loop) :
    ∃ w', w.send h = some w' ∧ w'.Settled loop hosts := by
  rcases hw.getLocalPeerData hl with hget | ⟨r, p, hget, hp, hs, -⟩
  · exact ⟨w, by simp [HostLoop.send, hget], hw⟩
  · obtain ⟨f, hf⟩ := Option.ne_none_iff_exists'.mp hs
    have hr := hw.wf.deref_of_alive hp hs
    cases hd : f.disconnecting with
    | false =>
      refine ⟨{ w with peerManager := { w.peerManager with
          peersToFlush := w.peerManager.peersToFlush.insertPeerToFlush h.id } }, ?_, ?_⟩
      · simp [HostLoop.send, hget, hr, hf, hd]
      · have hm := hw.wf.manager
        have hwf := hw.wf
        exact ⟨⟨⟨hm.versions_length, hm.perHostOffset_length, hm.freeIds_nodup, hm.mem_freeIds,
          hm.version_ne_zero, (PeersToFlush.insertPeerToFlush_spec hm.peersToFlush h.id).1⟩,
          ⟨hwf.mirrors.positions, hwf.mirrors.offset, hwf.mirrors.own⟩,
          fun r p hp hs => ⟨(hwf.alive r p hp hs).live, (hwf.alive r p hp hs).host_lt,
            (hwf.alive r p hp hs).socket⟩, hwf.cleared, hwf.slot, hwf.ext⟩, hw.holders, hw.loop_eq, hw.hosts_eq,
          hw.isOpen, hw.ext, hw.held, hw.opened, hw.closed, hw.unborn⟩
    | true => exact ⟨w, by simp [HostLoop.send, hget, hr, hf, hd], hw⟩

/-- `ExecuteDisconnect`. -/
theorem Settled.executeDisconnect (hw : w.Settled loop hosts) (hl : h.loop = some loop) :
    ∃ w', w.executeDisconnect h = some w' ∧ w'.Settled loop hosts := by
  rcases hb : h.toBool with _ | _
  · exact ⟨w, by simp [HostLoop.executeDisconnect, hb], hw⟩
  rcases hw.getLocalPeerData hl with hget | ⟨r, p, hget, hp, hs, -⟩
  · exact ⟨w, by simp [HostLoop.executeDisconnect, hb, hget], hw⟩
  · obtain ⟨w', hd, hw', -⟩ := hw.internalDisconnect hp hs
    exact ⟨w', by simp [HostLoop.executeDisconnect, hb, hget, hd], hw'⟩

end HostLoop
end ICon7
