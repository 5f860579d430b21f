/-
# Nested closing

What `us_socket_close` does with everything that it calls in turn.  However deep the
callbacks nest, an open peer is either left alone or closed for good: its callback has
run once, it is released, and nothing of it is left (`Closes.peer`); and when it is
closed, so are all peers of the hosts that its callback disconnects
(`Closes.callback`).  A peer whose closing is in progress is left alone.

Who owns a peer only matters where one is looked at.  A live peer is owned by its slot
(`WF.deref_of_alive`), the peers that a function has in a local are owned by that
(`deref_of_held`), and a closed peer that no local owns is gone
(`WF.deref_of_cleared`).  `Closes` does not see the locals (`Closes.holding`).

The specifications of the functions are about any `close` that does what
`us_socket_close` does from states with at most `n` open sockets (`CloseSpec`), so that
the recursion is one induction on `n` (`usSocketCloseNested_spec`).
-/

import ICon7.Host.Events
import ICon7.Lib.Run

namespace ICon7

/-- What the invariant sees of a peer. -/
def PeerData.links (p : PeerData) : Bool × PeerHandle × ℕ × Option ℕ :=
  (p.sharedPeer.isSome, p.peerHandle, p.host, p.socket)

/-- What the invariant sees of a socket. -/
def Socket.links (k : Socket) : ℕ × Option ℕ := (k.host, k.ext)

/-- What is left of a peer that is cleared. -/
def PeerData.clear (p : PeerData) : PeerData :=
  { p with sharedPeer := none, peerHandle := {}, socket := none }

namespace HostLoop

variable {w w' w₁ w₂ : HostLoop} {q r s : ℕ} {p : PeerData} {h : PeerHandle}

/-- The peer has an open socket. -/
def IsOpen (w : HostLoop) (q : ℕ) : Prop :=
  ∃ (p : PeerData) (s : ℕ) (k : Socket), w.peerData[q]? = some p ∧ p.socket = some s ∧
    w.sockets[s]? = some k ∧ k.isClosed = false

/-- Everything that a live peer is connected to. -/
structure Alive (w : HostLoop) (q : ℕ) (p : PeerData) : Prop where
  live : w.peerManager.Live p.peerHandle q
  host_lt : p.host < w.peerReferences.length
  socket : ∃ (s : ℕ) (k : Socket), p.socket = some s ∧ w.sockets[s]? = some k ∧ k.ext = some q ∧
    k.host = p.host

/-- **The invariant.**  A peer is alive as long as `sharedPeer` is not empty; afterwards it
has no socket, and neither the manager nor a socket refers to it. -/
structure WF (w : HostLoop) : Prop where
  manager : w.peerManager.WF
  mirrors : PeerReferences.Mirrors w.peerManager w.hostOf w.idOf w.peersOf
  alive : ∀ (q : ℕ) (p : PeerData), w.peerData[q]? = some p → p.sharedPeer ≠ none → w.Alive q p
  cleared : ∀ (q : ℕ) (p : PeerData), w.peerData[q]? = some p → p.sharedPeer = none → p.socket = none
  slot : ∀ (i q : ℕ), w.peerManager.peers[i]? = some (some q) →
    ∃ p, w.peerData[q]? = some p ∧ p.sharedPeer ≠ none
  ext : ∀ (s : ℕ) (k : Socket) (q : ℕ), w.sockets[s]? = some k → k.ext = some q →
    ∃ p, w.peerData[q]? = some p ∧ p.socket = some s

/-- The events of one peer. -/
def history (w : HostLoop) (q : ℕ) : List Event := w.events.filter fun e => e.peer = q

/-- The number of open sockets. -/
def openCount (w : HostLoop) : ℕ := w.sockets.countP fun k => k.isClosed = false

/-- What stays of a peer that is not closed: everything but its flags. -/
structure Kept (p p' : PeerData) : Prop where
  sharedPeer : p'.sharedPeer = none ↔ p.sharedPeer = none
  peerHandle : p'.peerHandle = p.peerHandle
  host : p'.host = p.host
  socket : p'.socket = p.socket
  onDisconnect : p'.onDisconnect = p.onDisconnect
  frameDecoder : p'.frameDecoder = p.frameDecoder

/-- **What any nest of closings does.** -/
structure Closes (w w' : HostLoop) : Prop where
  wf : w'.WF
  holders : w'.holders = w.holders
  loop : w'.peerManager.loop = w.peerManager.loop
  hosts : w'.peerReferences.length = w.peerReferences.length
  peers : w'.peerData.length = w.peerData.length
  sockets : w'.sockets.length = w.sockets.length
  openCount_le : w'.openCount ≤ w.openCount
  socket : ∀ (s : ℕ) (k : Socket), w'.sockets[s]? = some k → k.isClosed = false → w.sockets[s]? = some k
  peer : ∀ (q : ℕ) (p p' : PeerData), w.peerData[q]? = some p → w'.peerData[q]? = some p' →
    (Kept p p' ∧ (w'.IsOpen q ↔ w.IsOpen q) ∧ w'.history q = w.history q) ∨
    (w.IsOpen q ∧ p'.sharedPeer = none ∧
      w'.history q = w.history q ++ [.disconnected q, .released q false false false])
  callback : ∀ (q : ℕ) (p : PeerData), w.peerData[q]? = some p → w.IsOpen q → ¬w'.IsOpen q →
    ∀ host ∈ p.onDisconnect, ∀ r ∈ w.peersOf host, ¬w'.IsOpen r
  unborn : ∀ q : ℕ, w.peerData.length ≤ q → w'.history q = w.history q

theorem Kept.refl (p : PeerData) : Kept p p := ⟨Iff.rfl, rfl, rfl, rfl, rfl, rfl⟩

theorem Kept.trans {p p' p'' : PeerData} (h : Kept p p') (h' : Kept p' p'') : Kept p p'' :=
  ⟨h'.sharedPeer.trans h.sharedPeer, h'.peerHandle.trans h.peerHandle, h'.host.trans h.host,
    h'.socket.trans h.socket, h'.onDisconnect.trans h.onDisconnect,
    h'.frameDecoder.trans h.frameDecoder⟩

/-- A cleared peer is not open. -/
theorem WF.not_isOpen (hw : w.WF) (hp : w.peerData[q]? = some p) (hc : p.sharedPeer = none) :
    ¬w.IsOpen q := by
  rintro ⟨p', s, k, hp', hs, -⟩
  obtain rfl := Option.some.inj (hp.symm.trans hp')
  rw [hw.cleared q p hp hc] at hs
  simp at hs

/-- A peer of the list of a host is alive. -/
theorem WF.of_mem_peersOf (hw : w.WF) {host : ℕ} (hq : q ∈ w.peersOf host) :
    ∃ p, w.peerData[q]? = some p ∧ p.host = host ∧ p.sharedPeer ≠ none := by
  obtain ⟨hh, hslot⟩ := hw.mirrors.mem_iff.mp hq
  obtain ⟨p, hp, hs⟩ := hw.slot _ q hslot
  refine ⟨p, hp, ?_, hs⟩
  simpa [hostOf, hp] using hh

/-- A live peer is in the list of its host. -/
theorem WF.mem_peersOf (hw : w.WF) (hp : w.peerData[q]? = some p) (hs : p.sharedPeer ≠ none) :
    q ∈ w.peersOf p.host := by
  refine hw.mirrors.mem_iff.mpr ⟨by simp [hostOf, hp], ?_⟩
  have hl := (hw.alive q p hp hs).live
  simpa [idOf, hp] using hl.2.1

/-- A peer with a socket is alive. -/
theorem WF.sharedPeer_ne (hw : w.WF) (hp : w.peerData[q]? = some p) (hs : p.socket = some s) :
    p.sharedPeer ≠ none := by
  intro hn
  rw [hw.cleared q p hp hn] at hs
  simp at hs

/-- The socket of a peer holds it. -/
theorem WF.socket_of_peer (hw : w.WF) (hp : w.peerData[q]? = some p) (hs : p.socket = some s) :
    ∃ k, w.sockets[s]? = some k ∧ k.ext = some q ∧ k.host = p.host := by
  obtain ⟨-, -, t, k, ht, hk, hkq, hkh⟩ := hw.alive q p hp (hw.sharedPeer_ne hp hs)
  obtain rfl := Option.some.inj (hs.symm.trans ht)
  exact ⟨k, hk, hkq, hkh⟩

/-- A socket has only one peer. -/
theorem WF.socket_unique (hw : w.WF) {p' : PeerData} (hp : w.peerData[q]? = some p)
    (hs : p.socket = some s) (hp' : w.peerData[r]? = some p') (hs' : p'.socket = some s) : r = q := by
  obtain ⟨k, hk, hkq, -⟩ := hw.socket_of_peer hp hs
  obtain ⟨k', hk', hkr, -⟩ := hw.socket_of_peer hp' hs'
  obtain rfl := Option.some.inj (hk.symm.trans hk')
  exact Option.some.inj (hkr.symm.trans hkq)

/-! ### Who owns a peer -/

theorem peerData_of_deref (hd : w.deref q = some p) : w.peerData[q]? = some p := by
  unfold deref at hd
  split_ifs at hd
  exact hd

theorem deref_of_held (hq : q ∈ w.holders) : w.deref q = w.peerData[q]? :=
  if_pos (by simp [isOwned, hq])

/-- A live peer has not been destroyed: its slot owns it. -/
theorem WF.deref_of_alive (hw : w.WF) (hp : w.peerData[q]? = some p) (hs : p.sharedPeer ≠ none) :
    w.deref q = some p := by
  have hslot := List.mem_of_getElem? (hw.alive q p hp hs).live.2.1
  rw [deref, if_pos (by simp [isOwned, hslot]), hp]

/-- **A closed peer is destroyed** as soon as no local owns it. -/
theorem WF.deref_of_cleared (hw : w.WF) (hp : w.peerData[q]? = some p) (hs : p.sharedPeer = none)
    (hh : q ∉ w.holders) : w.deref q = none := by
  have hslot : some q ∉ w.peerManager.peers := by
    intro hmem
    obtain ⟨i, hi⟩ := List.mem_iff_getElem?.mp hmem
    obtain ⟨p', hp', hs'⟩ := hw.slot i q hi
    exact hs' (Option.some.inj (hp.symm.trans hp') ▸ hs)
  have hlist : ∀ l ∈ w.peerReferences, q ∉ l := by
    intro l hl hq
    obtain ⟨host, hhost⟩ := List.mem_iff_getElem?.mp hl
    have hmem : q ∈ w.peersOf host := by
      rw [peersOf, List.getD_eq_getElem?_getD, hhost]
      exact hq
    obtain ⟨p', hp', -, hs'⟩ := hw.of_mem_peersOf hmem
    exact hs' (Option.some.inj (hp.symm.trans hp') ▸ hs)
  rw [deref, if_neg (by simpa [isOwned, hslot, hh] using hlist)]

/-- The invariant does not see the locals. -/
theorem WF.holders (hw : w.WF) (l : List ℕ) : WF { w with holders := l } :=
  ⟨hw.manager, hw.mirrors, fun q p hp hs => ⟨(hw.alive q p hp hs).live, (hw.alive q p hp hs).host_lt,
    (hw.alive q p hp hs).socket⟩, hw.cleared, hw.slot, hw.ext⟩

namespace Closes

/-- **What closes while a local owns some peers** closes the same without it. -/
theorem holding {l : List ℕ} (hc : Closes { w with holders := l } w') :
    Closes w { w' with holders := w.holders } :=
  ⟨hc.wf.holders _, rfl, hc.loop, hc.hosts, hc.peers, hc.sockets, hc.openCount_le, hc.socket, hc.peer,
    hc.callback, hc.unborn⟩

theorem refl (hw : w.WF) : Closes w w := by
  refine ⟨hw, rfl, rfl, rfl, rfl, rfl, le_rfl, fun _ _ hk _ => hk, fun q p p' hp hp' => ?_,
    fun _ _ _ ho hn => absurd ho hn, fun _ _ => rfl⟩
  obtain rfl := Option.some.inj (hp.symm.trans hp')
  exact .inl ⟨Kept.refl p, Iff.rfl, rfl⟩

/-- A closed peer stays closed. -/
theorem isOpen (hc : Closes w w') (ho : w'.IsOpen q) : w.IsOpen q := by
  obtain ⟨p', s, k, hp', hs, hk, hkc⟩ := ho
  have hlt : q < w.peerData.length := by
    rw [← hc.peers]
    exact (List.getElem?_eq_some_iff.mp hp').1
  have hp := List.getElem?_eq_getElem hlt
  rcases hc.peer q _ p' hp hp' with ⟨-, hiff, -⟩ | ⟨ho, -⟩
  · exact hiff.mp ⟨p', s, k, hp', hs, hk, hkc⟩
  · exact ho

/-- A peer that is still alive is still in the list of its host. -/
theorem mem_peersOf (hc : Closes w w') (hw : w.WF) {host : ℕ} (hq : q ∈ w.peersOf host)
    (ho : w'.IsOpen q) : q ∈ w'.peersOf host := by
  obtain ⟨p, hp, rfl, hs⟩ := hw.of_mem_peersOf hq
  obtain ⟨p', s, k, hp', hrest⟩ := ho
  rcases hc.peer q p p' hp hp' with ⟨hk, -⟩ | ⟨-, hcl, -⟩
  · rw [← hk.host]
    exact hc.wf.mem_peersOf hp' (fun hn => hs (hk.sharedPeer.mp hn))
  · exact absurd ⟨p', s, k, hp', hrest⟩ (hc.wf.not_isOpen hp' hcl)

theorem trans (hw : w.WF) (hc : Closes w w₁) (hc' : Closes w₁ w₂) : Closes w w₂ := by
  refine ⟨hc'.wf, hc'.holders.trans hc.holders, hc'.loop.trans hc.loop, hc'.hosts.trans hc.hosts, hc'.peers.trans hc.peers,
    hc'.sockets.trans hc.sockets, hc'.openCount_le.trans hc.openCount_le,
    fun s k hk ho => hc.socket s k (hc'.socket s k hk ho) ho, fun q p p₂ hp hp₂ => ?_,
    fun q p hp ho hno host hh r hr hro => ?_,
    fun q hq => (hc'.unborn q (hc.peers.symm ▸ hq)).trans (hc.unborn q hq)⟩
  · have hlt : q < w₁.peerData.length := by
      rw [← hc'.peers]
      exact (List.getElem?_eq_some_iff.mp hp₂).1
    have hp₁ := List.getElem?_eq_getElem hlt
    rcases hc.peer q p _ hp hp₁ with ⟨hk, ho, hh⟩ | ⟨ho, hcl, hh⟩
    · rcases hc'.peer q _ p₂ hp₁ hp₂ with ⟨hk', ho', hh'⟩ | ⟨ho', hcl', hh'⟩
      · exact .inl ⟨hk.trans hk', ho'.trans ho, hh'.trans hh⟩
      · exact .inr ⟨ho.mp ho', hcl', by rw [hh', hh]⟩
    · rcases hc'.peer q _ p₂ hp₁ hp₂ with ⟨hk', -, hh'⟩ | ⟨ho', -⟩
      · exact .inr ⟨ho, hk'.sharedPeer.mpr hcl, by rw [hh', hh]⟩
      · exact absurd ho' (hc.wf.not_isOpen hp₁ hcl)
  · have hr₁ := hc'.isOpen hro
    by_cases ho₁ : w₁.IsOpen q
    · obtain ⟨p₁, s, k, hp₁, -⟩ := id ho₁
      rcases hc.peer q p p₁ hp hp₁ with ⟨hk, -⟩ | ⟨-, hcl, -⟩
      · exact hc'.callback q p₁ hp₁ ho₁ hno host (hk.onDisconnect ▸ hh) r
          (hc.mem_peersOf hw hr hr₁) hro
      · exact hc.wf.not_isOpen hp₁ hcl ho₁
    · exact hc.callback q p hp ho ho₁ host hh r hr hr₁

end Closes

/-! ### Changes that the invariant does not see -/

theorem links_eq_iff {p p' : PeerData} : PeerData.links p' = PeerData.links p ↔
    (p'.sharedPeer = none ↔ p.sharedPeer = none) ∧ p'.peerHandle = p.peerHandle ∧
      p'.host = p.host ∧ p'.socket = p.socket := by
  rw [PeerData.links, PeerData.links, Prod.mk.injEq, Prod.mk.injEq, Prod.mk.injEq]
  rcases p.sharedPeer with _ | f <;> rcases p'.sharedPeer with _ | f' <;> simp

/-- The peer of one loop with the links of a peer of another. -/
theorem exists_of_links {g : Option PeerData} {p : PeerData}
    (h : g.map PeerData.links = (some p).map PeerData.links) :
    ∃ p', g = some p' ∧ PeerData.links p' = PeerData.links p := by
  obtain ⟨p', rfl, hp'⟩ := Option.map_eq_some_iff.mp h
  exact ⟨p', rfl, hp'⟩

theorem WF.congr (hw : w.WF) (hm : w'.peerManager = w.peerManager)
    (hr : w'.peerReferences = w.peerReferences)
    (hp : ∀ q : ℕ, (w'.peerData[q]?).map PeerData.links = (w.peerData[q]?).map PeerData.links)
    (hs : ∀ s : ℕ, (w'.sockets[s]?).map Socket.links = (w.sockets[s]?).map Socket.links) :
    w'.WF := by
  have hhost : w'.hostOf = w.hostOf := by
    funext q
    have := congrArg (Option.map fun l : Bool × PeerHandle × ℕ × Option ℕ => l.2.2.1) (hp q)
    simp only [Option.map_map] at this
    exact congrArg (Option.getD · 0) this
  have hid : w'.idOf = w.idOf := by
    funext q
    have := congrArg (Option.map fun l : Bool × PeerHandle × ℕ × Option ℕ => l.2.1.id) (hp q)
    simp only [Option.map_map] at this
    exact congrArg (Option.getD · 0) this
  have hpeers : w'.peersOf = w.peersOf := by
    funext host
    rw [peersOf, hr]
    rfl
  refine ⟨hm ▸ hw.manager, by rw [hm, hhost, hid, hpeers]; exact hw.mirrors, fun q p' hp' hs' => ?_,
    fun q p' hp' hs' => ?_, fun i q hq => ?_, fun s k' q hk' hq => ?_⟩
  · obtain ⟨p, hpq, hl⟩ := exists_of_links ((hp q).symm.trans (congrArg _ hp'))
    obtain ⟨h1, h2, h3, h4⟩ := links_eq_iff.mp hl
    obtain ⟨hlive, hlt, s, k, hps, hk, hext, hh⟩ := hw.alive q p hpq (fun hn => hs' (h1.mp hn))
    have hsk := hs s
    rw [hk] at hsk
    obtain ⟨k', hk', hkl⟩ := Option.map_eq_some_iff.mp hsk
    obtain ⟨hkh, hke⟩ := Prod.mk.inj hkl
    exact ⟨by rw [hm, ← h2]; exact hlive, by rw [hr, ← h3]; exact hlt, s, k', h4.symm.trans hps, hk',
      hke.trans hext, by rw [hkh, hh, h3]⟩
  · obtain ⟨p, hpq, hl⟩ := exists_of_links ((hp q).symm.trans (congrArg _ hp'))
    obtain ⟨h1, -, -, h4⟩ := links_eq_iff.mp hl
    rw [← h4]
    exact hw.cleared q p hpq (h1.mpr hs')
  · obtain ⟨p, hpq, hsh⟩ := hw.slot i q (hm ▸ hq)
    obtain ⟨p', hp', hl⟩ := exists_of_links ((hp q).trans (congrArg _ hpq))
    exact ⟨p', hp', fun hn => hsh ((links_eq_iff.mp hl).1.mp hn)⟩
  · have hsk := hs s
    rw [hk'] at hsk
    obtain ⟨k, hk, hkl⟩ := Option.map_eq_some_iff.mp hsk.symm
    obtain ⟨-, hke⟩ := Prod.mk.inj hkl
    obtain ⟨p, hpq, hps⟩ := hw.ext s k q hk (hke.trans hq)
    obtain ⟨p', hp', hl⟩ := exists_of_links ((hp q).trans (congrArg _ hpq))
    exact ⟨p', hp', (links_eq_iff.mp hl).2.2.2.trans hps⟩

theorem peerData_modifyPeer (w : HostLoop) (q : ℕ) (f : PeerData → PeerData) (r : ℕ) :
    (w.modifyPeer q f).peerData[r]? = (w.peerData[r]?).map fun p => if q = r then f p else p :=
  List.getElem?_modify f q w.peerData r

theorem sockets_modifySocket (w : HostLoop) (s : ℕ) (f : Socket → Socket) (t : ℕ) :
    (w.modifySocket s f).sockets[t]? = (w.sockets[t]?).map fun k => if s = t then f k else k :=
  List.getElem?_modify f s w.sockets t

/-- Whether a peer is open depends on its socket. -/
theorem isOpen_congr (hp : ∀ q : ℕ, (w'.peerData[q]?).map PeerData.links = (w.peerData[q]?).map PeerData.links)
    (hs : w'.sockets = w.sockets) (q : ℕ) : w'.IsOpen q ↔ w.IsOpen q := by
  have h : ∀ {v v' : HostLoop},
      (∀ q : ℕ, (v'.peerData[q]?).map PeerData.links = (v.peerData[q]?).map PeerData.links) →
      v'.sockets = v.sockets → v.IsOpen q → v'.IsOpen q := by
    rintro v v' hp hs ⟨p, s, k, hpq, hps, hk, hc⟩
    obtain ⟨p', hp', hl⟩ := exists_of_links ((hp q).trans (congrArg _ hpq))
    exact ⟨p', s, k, hp', (links_eq_iff.mp hl).2.2.2.trans hps, by rw [hs]; exact hk, hc⟩
  exact ⟨h (fun q => (hp q).symm) hs.symm, h hp hs⟩

theorem links_modifyPeer {f : PeerData → PeerData}
    (hf : ∀ p, PeerData.links (f p) = PeerData.links p) (w : HostLoop) (q r : ℕ) :
    ((w.modifyPeer q f).peerData[r]?).map PeerData.links = (w.peerData[r]?).map PeerData.links := by
  rw [peerData_modifyPeer, Option.map_map]
  congr 1
  funext p
  simp only [Function.comp_apply]
  split_ifs
  · exact hf p
  · rfl

theorem isOpen_modifyPeer {f : PeerData → PeerData}
    (hf : ∀ p, PeerData.links (f p) = PeerData.links p) (w : HostLoop) (q r : ℕ) :
    (w.modifyPeer q f).IsOpen r ↔ w.IsOpen r :=
  isOpen_congr (links_modifyPeer hf w q) rfl r

theorem isOpen_setFlags (w : HostLoop) (q : ℕ) (f : PeerFlags → PeerFlags) (r : ℕ) :
    (w.setFlags q f).IsOpen r ↔ w.IsOpen r :=
  isOpen_modifyPeer (fun p => by simp [PeerData.links]) w q r

/-- The lists of the hosts after one of them is replaced. -/
theorem peersOf_of_set {host : ℕ} {l : List ℕ} (hlt : host < w.peerReferences.length)
    (hrefs : w'.peerReferences = w.peerReferences.set host l) :
    w'.peersOf = Function.update w.peersOf host l := by
  funext host'
  rw [peersOf, hrefs, List.getD_eq_getElem?_getD]
  rcases eq_or_ne host' host with rfl | hne
  · rw [Function.update_self, List.getElem?_set_self hlt]
    rfl
  · rw [Function.update_of_ne hne, List.getElem?_set_ne hne.symm, peersOf, List.getD_eq_getElem?_getD]

/-- A change of flags. -/
theorem setFlags_closes (hw : w.WF) (q : ℕ) (f : PeerFlags → PeerFlags) :
    Closes w (w.setFlags q f) := by
  have hlinks := links_modifyPeer (f := fun p => { p with sharedPeer := p.sharedPeer.map f })
    (fun p => by simp [PeerData.links]) w q
  have hopen := isOpen_setFlags w q f
  refine ⟨hw.congr rfl rfl hlinks fun _ => rfl, rfl, rfl, rfl, List.length_modify _ _ _, rfl, le_rfl,
    fun _ _ hk _ => hk, fun r p p' hp hp' => .inl ⟨?_, hopen r, rfl⟩,
    fun r p _ ho hno => absurd ((hopen r).mpr ho) hno, fun _ _ => rfl⟩
  rw [setFlags, peerData_modifyPeer, hp, Option.map_some, Option.some.injEq] at hp'
  rw [← hp']
  split_ifs
  · exact ⟨by simp, rfl, rfl, rfl, rfl, rfl⟩
  · exact Kept.refl p

/-- Recording an event. -/
theorem record_wf (hw : w.WF) (e : Event) : (w.record e).WF :=
  hw.congr rfl rfl (fun _ => rfl) fun _ => rfl

theorem history_record (w : HostLoop) (e : Event) (q : ℕ) :
    (w.record e).history q = if e.peer = q then w.history q ++ [e] else w.history q := by
  unfold history record
  split_ifs with h <;> simp [h]

/-- Marking an open socket closed leaves one open socket less. -/
theorem openCount_modifySocket {k : Socket} (hk : w.sockets[s]? = some k) (ho : k.isClosed = false) :
    (w.modifySocket s fun k => { k with isClosed := true }).openCount + 1 = w.openCount := by
  obtain ⟨hlt, hget⟩ := List.getElem?_eq_some_iff.mp hk
  have hset : (w.modifySocket s fun k => { k with isClosed := true }).sockets =
      w.sockets.set s { k with isClosed := true } := by
    rw [modifySocket, List.modify_eq_set_getElem?, hk]
    rfl
  have hperm := List.set_perm_cons_eraseIdx hlt { k with isClosed := true }
  have hperm' := List.getElem_cons_eraseIdx_perm hlt
  rw [openCount, openCount, hset, hperm.countP_eq, ← hperm'.countP_eq, hget]
  simp [ho]

/-! ### The second half of `_Internal_on_close_Finish` -/

/-- What `finish` does to a peer with the given socket. -/
structure Finishes (w w' : HostLoop) (q s : ℕ) : Prop where
  wf : w'.WF
  holders : w'.holders = w.holders
  loop : w'.peerManager.loop = w.peerManager.loop
  hosts : w'.peerReferences.length = w.peerReferences.length
  peerData : w'.peerData = w.peerData.modify q PeerData.clear
  sockets : w'.sockets = w.sockets.modify s fun k => { k with ext := none }
  events : w'.events = w.events ++ [.released q false false false]

/-- What the release of a peer leaves. -/
structure Released (w w₁ : HostLoop) (q : ℕ) (h : PeerHandle) : Prop where
  holders : w₁.holders = w.holders
  peerData : w₁.peerData = w.peerData
  sockets : w₁.sockets = w.sockets
  events : w₁.events = w.events
  hosts : w₁.peerReferences.length = w.peerReferences.length
  manager : w₁.peerManager.WF
  frees : w.peerManager.Frees w₁.peerManager h
  mirrors : PeerReferences.Mirrors w₁.peerManager w.hostOf w.idOf w₁.peersOf
  gone : ∀ i : ℕ, w₁.peerManager.peers[i]? ≠ some (some q)

/-- The release of a live peer. -/
theorem release_spec (hw : w.WF) (hp : w.peerData[q]? = some p) (hs : p.sharedPeer ≠ none) :
    ∃ w₁, w.release p.host p.peerHandle = some (w₁, some q) ∧ Released w w₁ q p.peerHandle := by
  obtain ⟨hlive, hlt, -⟩ := hw.alive q p hp hs
  have hhost : w.hostOf q = p.host := by simp [hostOf, hp]
  obtain ⟨m', l, hrel, hw', hf, hm'⟩ := PeerReferences.release_spec hw.manager hw.mirrors hlive
  rw [hhost] at hrel hm'
  have hpeers : peersOf { w with peerManager := m', peerReferences := w.peerReferences.set p.host l } =
      Function.update w.peersOf p.host l := peersOf_of_set hlt rfl
  refine ⟨{ w with peerManager := m', peerReferences := w.peerReferences.set p.host l }, ?_, rfl, rfl,
    rfl, rfl, List.length_set, hw', hf, by rw [hpeers]; exact hm', fun i hi => ?_⟩
  · simp only [release, hrel, Option.bind_eq_bind, Option.bind_some, Option.pure_def]
  · obtain ⟨hne, hi'⟩ := hf.peers_eq hi
    have hid := hw.mirrors.own i q hi'
    simp only [idOf, hp, Option.map_some, Option.getD_some] at hid
    exact hne hid.symm

/-- What `_InternalClearInternalDataOnClose` leaves of a peer with a socket. -/
def emptied (w : HostLoop) (q s : ℕ) : HostLoop := { w with
  peerData := w.peerData.modify q PeerData.clear
  sockets := w.sockets.modify s fun k => { k with ext := none } }

/-- `_InternalClearInternalDataOnClose` on a peer that `peerDataHolder` owns. -/
theorem clearInternalDataOnClose_eq (hp : w.peerData[q]? = some p) (hsh : p.sharedPeer ≠ none)
    (hs : p.socket = some s) :
    (w.holding [q] fun w => w.clearInternalDataOnClose q) = some (w.emptied q s) := by
  obtain ⟨f, hf⟩ := Option.ne_none_iff_exists'.mp hsh
  have hd : deref { w with holders := q :: w.holders } q = some p :=
    (deref_of_held List.mem_cons_self).trans hp
  simp only [HostLoop.holding, List.cons_append, List.nil_append, clearInternalDataOnClose, hd, hf, hs,
    Option.bind_eq_bind, Option.bind_some, Option.pure_def, modifyPeer, modifySocket,
    List.modify_modify_eq, emptied]
  rfl

namespace Released

variable (hr : Released w w₁ q p.peerHandle)
include hr

theorem peer_of_ne {r : ℕ} (hne : r ≠ q) : (w₁.emptied q s).peerData[r]? = w.peerData[r]? := by
  rw [emptied, List.getElem?_modify_ne _ _ hne.symm, hr.peerData]

theorem socket_of_ne {t : ℕ} (hne : t ≠ s) : (w₁.emptied q s).sockets[t]? = w.sockets[t]? := by
  rw [emptied, List.getElem?_modify_ne _ _ hne.symm, hr.sockets]

/-- The lists of the hosts mirror the manager without the peer. -/
theorem emptied_mirrors : PeerReferences.Mirrors (w₁.emptied q s).peerManager (w₁.emptied q s).hostOf
    (w₁.emptied q s).idOf (w₁.emptied q s).peersOf := by
  refine hr.mirrors.congr fun i r hi => ?_
  have hne : r ≠ q := by
    rintro rfl
    exact hr.gone i hi
  rw [hostOf, hr.peer_of_ne hne, idOf, hr.peer_of_ne hne]
  exact ⟨rfl, rfl⟩

/-- **Nothing refers to the peer any more:** its handle does not resolve, it is in no list, and
its id is not in `peersToFlush`. -/
theorem emptied_look (hlive : w.peerManager.Live p.peerHandle q) :
    (w₁.emptied q s).look q p.peerHandle = .released q false false false := by
  have hget := PeerManager.getLocalPeerData_of_stale hr.manager
    (hlive.1.trans (congrArg some hr.frees.loop.symm)) fun r hl => ((hr.frees.live_iff _ r).mp hl).2 rfl
  have hlist : (w₁.emptied q s).peerReferences.any (fun l => l.contains q) = false := by
    rw [List.any_eq_false]
    intro l hl hq
    obtain ⟨host, hhost⟩ := List.mem_iff_getElem?.mp hl
    have hmem : q ∈ (w₁.emptied q s).peersOf host := by
      rw [peersOf, List.getD_eq_getElem?_getD, hhost]
      simpa using hq
    exact hr.gone _ (hr.emptied_mirrors.mem_iff.mp hmem).2
  have hflush : w₁.peerManager.peersToFlush.peers.contains p.peerHandle.id = false := by
    rw [List.contains_eq_mem, decide_eq_false_iff_not, hr.frees.mem_peersToFlush]
    exact fun hn => hn.2 rfl
  simp only [look, hlist]
  rw [show (w₁.emptied q s).peerManager = w₁.peerManager from rfl, hget, hflush]
  rfl

/-- The invariant, without the peer. -/
theorem emptied_wf (hw : w.WF) (hp : w.peerData[q]? = some p) (hs : p.socket = some s) :
    (w₁.emptied q s).WF := by
  have hpeerq : (w₁.emptied q s).peerData[q]? = some (PeerData.clear p) := by
    rw [emptied, List.getElem?_modify_eq, hr.peerData, hp]
    rfl
  refine ⟨hr.manager, hr.emptied_mirrors, fun r pr hpr hrs => ?_, fun r pr hpr hrs => ?_,
    fun i r hi => ?_, fun t k r hk hkr => ?_⟩
  · have hne : r ≠ q := by
      rintro rfl
      obtain rfl := Option.some.inj (hpeerq.symm.trans hpr)
      exact hrs rfl
    rw [hr.peer_of_ne hne] at hpr
    obtain ⟨hrl, hrlt, t, k, ht, hk, hkr, hkh⟩ := hw.alive r pr hpr hrs
    have htne : t ≠ s := by
      rintro rfl
      exact hne (hw.socket_unique hp hs hpr ht)
    refine ⟨(hr.frees.live_iff _ _).mpr ⟨hrl, fun heq => ?_⟩, hrlt.trans_eq hr.hosts.symm, t, k, ht,
      by rw [hr.socket_of_ne htne, hk], hkr, hkh⟩
    have hlive := (hw.alive q p hp (hw.sharedPeer_ne hp hs)).live
    exact hne (PeerManager.Live.unique (heq ▸ hrl) hlive)
  · rcases eq_or_ne r q with rfl | hne
    · obtain rfl := Option.some.inj (hpeerq.symm.trans hpr)
      rfl
    · exact hw.cleared r pr (hr.peer_of_ne hne ▸ hpr) hrs
  · have hne : r ≠ q := by
      rintro rfl
      exact hr.gone i hi
    rw [hr.peer_of_ne hne]
    exact hw.slot i r (hr.frees.peers_eq hi).2
  · have htne : t ≠ s := by
      rintro rfl
      rw [emptied, List.getElem?_modify_eq] at hk
      obtain ⟨k₀, -, rfl⟩ := Option.map_eq_some_iff.mp hk
      simp at hkr
    rw [hr.socket_of_ne htne] at hk
    obtain ⟨pr, hpr, hrt⟩ := hw.ext t k r hk hkr
    have hne : r ≠ q := by
      rintro rfl
      obtain rfl := Option.some.inj (hp.symm.trans hpr)
      exact htne (Option.some.inj (hrt.symm.trans hs))
    exact ⟨pr, by rw [hr.peer_of_ne hne, hpr], hrt⟩

end Released

/-- **The second half of `_Internal_on_close_Finish`** on a live peer: afterwards its handle
does not resolve, it is in no list, and its id is not in `peersToFlush`. -/
theorem finish_spec (hw : w.WF) (hp : w.peerData[q]? = some p) (hsh : p.sharedPeer ≠ none)
    (hs : p.socket = some s) :
    ∃ w', w.finish p.host p.peerHandle q = some w' ∧ Finishes w w' q s := by
  obtain ⟨w₁, hrel, hr⟩ := release_spec hw hp hsh
  have hclear := clearInternalDataOnClose_eq (hr.peerData.symm ▸ hp) hsh hs
  have hlook := hr.emptied_look (s := s) (hw.alive q p hp hsh).live
  refine ⟨(w₁.emptied q s).record (.released q false false false), ?_,
    record_wf (hr.emptied_wf hw hp hs) _, hr.holders, hr.frees.loop, hr.hosts, ?_, ?_, ?_⟩
  · simp only [finish, hrel, Option.toList_some, hclear, hlook, Option.bind_eq_bind, Option.bind_some,
      Option.pure_def]
  · rw [record, emptied, hr.peerData]
  · rw [record, emptied, hr.sockets]
  · rw [record, emptied, hr.events]

/-! ### The closing of one peer, around its callback -/

/-- The state in which the callback of a peer runs: only its flags and its socket may differ. -/
structure Begins (w w₁ : HostLoop) (q s : ℕ) : Prop where
  loop : w₁.peerManager.loop = w.peerManager.loop
  hosts : w₁.peerReferences = w.peerReferences
  peers : w₁.peerData.length = w.peerData.length
  peer : ∀ r, r ≠ q → w₁.peerData[r]? = w.peerData[r]?
  sockets : w₁.sockets.length = w.sockets.length
  socket : ∀ t, t ≠ s → w₁.sockets[t]? = w.sockets[t]?
  events : w₁.events = w.events ++ [.disconnected q]

/-- The peer is cleared and its socket closed after the callback. -/
structure Ends (w₂ w' : HostLoop) (q s : ℕ) : Prop where
  wf : w'.WF
  loop : w'.peerManager.loop = w₂.peerManager.loop
  hosts : w'.peerReferences.length = w₂.peerReferences.length
  peerData : w'.peerData = w₂.peerData.modify q PeerData.clear
  sockets : w'.sockets.length = w₂.sockets.length
  socket : ∀ t, t ≠ s → w'.sockets[t]? = w₂.sockets[t]?
  isClosed : ∀ k, w'.sockets[s]? = some k → k.isClosed = true
  events : w'.events = w₂.events ++ [.released q false false false]

theorem history_append {e : Event} (he : w'.events = w.events ++ [e]) (q : ℕ) :
    w'.history q = if e.peer = q then w.history q ++ [e] else w.history q := by
  rw [← history_record, history, history, he]
  rfl

/-- Whether a peer is open depends on nothing but itself and its socket. -/
theorem isOpen_iff_of_ne (hr : w'.peerData[r]? = w.peerData[r]?)
    (hsock : ∀ t, t ≠ s → w'.sockets[t]? = w.sockets[t]?)
    (hne : ∀ p, w.peerData[r]? = some p → p.socket ≠ some s) : w'.IsOpen r ↔ w.IsOpen r := by
  constructor
  · rintro ⟨p, t, k, hp, ht, hk, hkc⟩
    rw [hr] at hp
    have hts : t ≠ s := fun heq => hne p hp (heq ▸ ht)
    exact ⟨p, t, k, hp, ht, hsock t hts ▸ hk, hkc⟩
  · rintro ⟨p, t, k, hp, ht, hk, hkc⟩
    have hts : t ≠ s := fun heq => hne p hp (heq ▸ ht)
    exact ⟨p, t, k, hr.trans hp, ht, (hsock t hts).trans hk, hkc⟩

/-- Away from the peer, the callback begins with the peers that were open. -/
theorem Begins.isOpen_iff (hb : Begins w w₁ q s) (hw : w.WF) (hp : w.peerData[q]? = some p)
    (hs : p.socket = some s) (hr : r ≠ q) : w₁.IsOpen r ↔ w.IsOpen r :=
  isOpen_iff_of_ne (hb.peer r hr) hb.socket fun _ hpr hps => hr (hw.socket_unique hp hs hpr hps)

theorem Ends.peer_of_ne (he : Ends w₂ w' q s) (hr : r ≠ q) : w'.peerData[r]? = w₂.peerData[r]? := by
  rw [he.peerData, List.getElem?_modify_ne _ _ hr.symm]

theorem Ends.sharedPeer_eq (he : Ends w₂ w' q s) (hp : w'.peerData[q]? = some p) :
    p.sharedPeer = none := by
  rw [he.peerData, List.getElem?_modify_eq] at hp
  obtain ⟨p₂, -, rfl⟩ := Option.map_eq_some_iff.mp hp
  rfl

/-- A socket that is open in the end is another one. -/
theorem Ends.ne_of_open (he : Ends w₂ w' q s) {t : ℕ} {k : Socket} (hk : w'.sockets[t]? = some k)
    (ho : k.isClosed = false) : t ≠ s := by
  rintro rfl
  rw [he.isClosed k hk] at ho
  simp at ho

/-- Away from the peer, what is open after the callback is open in the end. -/
theorem Ends.isOpen_iff (he : Ends w₂ w' q s) (hw : w₂.WF) (hp : w₂.peerData[q]? = some p)
    (hs : p.socket = some s) (hr : r ≠ q) : w'.IsOpen r ↔ w₂.IsOpen r :=
  isOpen_iff_of_ne (he.peer_of_ne hr) he.socket fun _ hpr hps => hr (hw.socket_unique hp hs hpr hps)

/-- What is open in the end, the callback left open: it is not the peer, which is cleared. -/
theorem Ends.isOpen_of (he : Ends w₂ w' q s) (ho : w'.IsOpen r) : w₂.IsOpen r := by
  obtain ⟨p', t, k, hp', ht, hk, hkc⟩ := ho
  have hne : r ≠ q := by
    rintro rfl
    exact he.wf.not_isOpen hp' (he.sharedPeer_eq hp') ⟨p', t, k, hp', ht, hk, hkc⟩
  exact ⟨p', t, k, (he.peer_of_ne hne).symm.trans hp', ht,
    (he.socket t (he.ne_of_open hk hkc)).symm.trans hk, hkc⟩

/-- **Closing one peer** around a callback that leaves it alone is a nest of closings. -/
theorem Closes.of_callback (hw : w.WF) (hp : w.peerData[q]? = some p) (hs : p.socket = some s)
    (hopen : w.IsOpen q) (hb : Begins w w₁ q s) (hc : Closes w₁ w₂)
    (hswept : ∀ host ∈ p.onDisconnect, ∀ r ∈ w.peersOf host, ¬w₂.IsOpen r)
    {p₂ : PeerData} (hp₂ : w₂.peerData[q]? = some p₂) (hs₂ : p₂.socket = some s)
    (hkept : w₂.history q = w₁.history q) (he : Ends w₂ w' q s)
    (hheld : w'.holders = w.holders) (hcount : w'.openCount ≤ w.openCount) : Closes w w' := by
  have hlen : w'.peerData.length = w₂.peerData.length := by rw [he.peerData, List.length_modify]
  refine ⟨he.wf, hheld, he.loop.trans (hc.loop.trans hb.loop), ?_, hlen.trans (hc.peers.trans hb.peers),
    he.sockets.trans (hc.sockets.trans hb.sockets), hcount, fun t k hk hkc => ?_,
    fun r pr pr' hr hr' => ?_, fun r pr hr ho hno host hh x hx hxo => ?_, fun r hr => ?_⟩
  · rw [he.hosts, hc.hosts, hb.hosts]
  · have hts : t ≠ s := he.ne_of_open hk hkc
    rw [← hb.socket t hts]
    exact hc.socket t k (he.socket t hts ▸ hk) hkc
  · rcases eq_or_ne r q with rfl | hne
    · refine .inr ⟨hopen, he.sharedPeer_eq hr', ?_⟩
      simp only [history_append he.events, hkept, history_append hb.events, Event.peer, if_true,
        List.append_assoc, List.cons_append, List.nil_append]
    · rw [he.peer_of_ne hne] at hr'
      rw [← hb.peer r hne] at hr
      have hh' : w'.history r = w₂.history r := (history_append he.events r).trans (if_neg hne.symm)
      have hh : w₁.history r = w.history r := (history_append hb.events r).trans (if_neg hne.symm)
      rw [hh', he.isOpen_iff hc.wf hp₂ hs₂ hne, ← hh, ← hb.isOpen_iff hw hp hs hne]
      exact hc.peer r pr pr' hr hr'
  · have hxo₂ := he.isOpen_of hxo
    rcases eq_or_ne r q with rfl | hne
    · obtain rfl := Option.some.inj (hp.symm.trans hr)
      exact hswept host hh x hx hxo₂
    · rw [he.isOpen_iff hc.wf hp₂ hs₂ hne] at hno
      rw [← hb.isOpen_iff hw hp hs hne] at ho
      refine hc.callback r pr (by rw [hb.peer r hne, hr]) ho hno host hh x ?_ hxo₂
      rw [peersOf, hb.hosts]
      exact hx
  · have hne : q ≠ r := fun heq => absurd (List.getElem?_eq_some_iff.mp hp).1 (by omega)
    calc w'.history r = w₂.history r := (history_append he.events r).trans (if_neg hne)
      _ = w₁.history r := hc.unborn r (hb.peers.symm ▸ hr)
      _ = w.history r := (history_append hb.events r).trans (if_neg hne)

/-! ### Which peers a callback closes -/

/-- A callback that disconnects the hosts comes to disconnect the host, itself or by the
callback of an open peer that it closes. -/
inductive Reaches (w : HostLoop) : List ℕ → ℕ → Prop
  | here {hosts : List ℕ} {host : ℕ} (h : host ∈ hosts) : Reaches w hosts host
  | there {hosts : List ℕ} {host via q : ℕ} {p : PeerData} (h : via ∈ hosts) (hq : q ∈ w.peersOf via)
      (hp : w.peerData[q]? = some p) (ho : w.IsOpen q) (hr : Reaches w p.onDisconnect host) :
      Reaches w hosts host

theorem Reaches.mono_hosts {hosts hosts' : List ℕ} {host : ℕ} (hsub : hosts ⊆ hosts')
    (h : w.Reaches hosts host) : w.Reaches hosts' host := by
  cases h with
  | here h => exact .here (hsub h)
  | there h hq hp ho hr => exact .there (hsub h) hq hp ho hr

/-- What is reached does not depend on the locals. -/
theorem reaches_holders {l hosts : List ℕ} {host : ℕ} :
    Reaches { w with holders := l } hosts host ↔ w.Reaches hosts host := by
  constructor
  · intro h
    induction h with
    | here h => exact .here h
    | there h hq hp ho _ ih => exact .there h hq hp ho ih
  · intro h
    induction h with
    | here h => exact .here h
    | there h hq hp ho _ ih => exact .there h hq hp ho ih

/-- What is reached when fewer peers are open is reached when more are. -/
theorem Reaches.mono {hosts : List ℕ} {host : ℕ}
    (hopen : ∀ (q : ℕ) (p₁ : PeerData), w₁.peerData[q]? = some p₁ → w₁.IsOpen q →
      w.IsOpen q ∧ ∃ p, w.peerData[q]? = some p ∧ p.onDisconnect = p₁.onDisconnect)
    (hpeers : ∀ (q host : ℕ), w₁.IsOpen q → q ∈ w₁.peersOf host → q ∈ w.peersOf host)
    (h : w₁.Reaches hosts host) : w.Reaches hosts host := by
  induction h with
  | here h => exact .here h
  | there h hq hp ho _ ih =>
    obtain ⟨ho', p, hp', hd⟩ := hopen _ _ hp ho
    exact .there h (hpeers _ _ ho hq) hp' ho' (hd ▸ ih)

/-- An open peer is what it was. -/
theorem Closes.kept (hc : Closes w w') {p' : PeerData} (hp' : w'.peerData[q]? = some p')
    (ho : w'.IsOpen q) : ∃ p, w.peerData[q]? = some p ∧ Kept p p' := by
  have hlt : q < w.peerData.length := by
    rw [← hc.peers]
    exact (List.getElem?_eq_some_iff.mp hp').1
  have hp := List.getElem?_eq_getElem hlt
  rcases hc.peer q _ p' hp hp' with ⟨hk, -⟩ | ⟨-, hcleared, -⟩
  · exact ⟨_, hp, hk⟩
  · exact absurd ho (hc.wf.not_isOpen hp' hcleared)

/-- A peer that a nest of closings does not close is left alone. -/
theorem Closes.left_alone (hc : Closes w w') (hp : w.peerData[q]? = some p)
    (ho : w.IsOpen q → w'.IsOpen q) :
    ∃ p', w'.peerData[q]? = some p' ∧ Kept p p' ∧ w'.history q = w.history q := by
  have hlt : q < w'.peerData.length := by
    rw [hc.peers]
    exact (List.getElem?_eq_some_iff.mp hp).1
  have hp' := List.getElem?_eq_getElem hlt
  rcases hc.peer q p _ hp hp' with ⟨hk, -, hh⟩ | ⟨hopen, hcleared, -⟩
  · exact ⟨_, hp', hk, hh⟩
  · exact absurd (ho hopen) (hc.wf.not_isOpen hp' hcleared)

theorem Closes.hostOf (hc : Closes w w') (ho : w'.IsOpen q) : w'.hostOf q = w.hostOf q := by
  obtain ⟨p', s, k, hp', hrest⟩ := id ho
  obtain ⟨p, hp, hk⟩ := hc.kept hp' ho
  simp [HostLoop.hostOf, hp, hp', hk.host]

theorem Closes.reaches (hc : Closes w w₁) (hw : w.WF) {hosts : List ℕ} {host : ℕ}
    (h : w₁.Reaches hosts host) : w.Reaches hosts host := by
  refine h.mono (fun q p₁ hp₁ ho => ⟨hc.isOpen ho, ?_⟩) fun q host ho hq => ?_
  · obtain ⟨p, hp, hk⟩ := hc.kept hp₁ ho
    exact ⟨p, hp, hk.onDisconnect.symm⟩
  · obtain ⟨p₁, hp₁, rfl, -⟩ := hc.wf.of_mem_peersOf hq
    obtain ⟨p, hp, hk⟩ := hc.kept hp₁ ho
    obtain ⟨p', s, k, hp', hs, -⟩ := hc.isOpen ho
    obtain rfl := Option.some.inj (hp.symm.trans hp')
    rw [hk.host]
    exact hw.mem_peersOf hp (hw.sharedPeer_ne hp hs)

/-- **Everything that is reached is closed** by a nest of closings that closes the peers of
the hosts it starts from. -/
theorem Reaches.closed {hosts : List ℕ} {host : ℕ} (h : w.Reaches hosts host) (hc : Closes w w')
    (hswept : ∀ host ∈ hosts, ∀ r ∈ w.peersOf host, ¬w'.IsOpen r) :
    ∀ r ∈ w.peersOf host, ¬w'.IsOpen r := by
  induction h with
  | here h => exact hswept _ h
  | there h hq hp ho _ ih => exact ih (hc.callback _ _ hp ho (hswept _ h _ hq))

/-! ### The functions that close -/

/-- The peer is closed with the given one, by its callback. -/
def ClosedWith (w : HostLoop) (q r : ℕ) : Prop :=
  ∃ p, w.peerData[q]? = some p ∧ w.IsOpen q ∧ (r = q ∨ w.Reaches p.onDisconnect (w.hostOf r))

theorem Closes.closedWith (hc : Closes w w₁) (hw : w.WF) (ho : w₁.IsOpen r)
    (h : w₁.ClosedWith q r) : w.ClosedWith q r := by
  obtain ⟨p₁, hp₁, hqo, h⟩ := h
  obtain ⟨p, hp, hk⟩ := hc.kept hp₁ hqo
  refine ⟨p, hp, hc.isOpen hqo, h.imp id fun h => ?_⟩
  rw [← hk.onDisconnect, ← hc.hostOf ho]
  exact hc.reaches hw h

/-- The peers that are closed around the callback of a peer are closed with it. -/
theorem closedWith_of_callback (hw : w.WF) (hp : w.peerData[q]? = some p) (hs : p.socket = some s)
    (hopen : w.IsOpen q) (hb : Begins w w₁ q s) {p₁ p₂ : PeerData}
    (hp₁ : w₁.peerData[q]? = some p₁) (hk₁ : Kept p p₁) (hw₂ : w₂.WF)
    (hp₂ : w₂.peerData[q]? = some p₂) (hs₂ : p₂.socket = some s) (he : Ends w₂ w' q s)
    (honly : ∀ r, w₁.IsOpen r → ¬w₂.IsOpen r → w₁.Reaches p.onDisconnect (w₁.hostOf r))
    (ho : w.IsOpen r) (hno : ¬w'.IsOpen r) : w.ClosedWith q r := by
  refine ⟨p, hp, hopen, or_iff_not_imp_left.mpr fun hne => ?_⟩
  have hreach := honly r ((hb.isOpen_iff hw hp hs hne).mpr ho)
    fun ho₂ => hno ((he.isOpen_iff hw₂ hp₂ hs₂ hne).mpr ho₂)
  rw [HostLoop.hostOf, hb.peer r hne] at hreach
  refine hreach.mono (fun x px hpx hx => ?_) fun x host _ hx => ?_
  · rcases eq_or_ne x q with rfl | hxq
    · obtain rfl := Option.some.inj (hp₁.symm.trans hpx)
      exact ⟨hopen, p, hp, hk₁.onDisconnect.symm⟩
    · exact ⟨(hb.isOpen_iff hw hp hs hxq).mp hx, px, hb.peer x hxq ▸ hpx, rfl⟩
  · rw [peersOf, hb.hosts] at hx
    exact hx

/-- What `close` does to states with at most `n` open sockets. -/
def CloseSpec (close : HostLoop → ℕ → Option HostLoop) (n : ℕ) : Prop :=
  ∀ (w : HostLoop) (s : ℕ), w.WF → w.openCount ≤ n → s < w.sockets.length →
    ∃ w', close w s = some w' ∧ Closes w w' ∧
      (∀ k : Socket, w'.sockets[s]? = some k → k.isClosed = true) ∧
      ∀ r, w.IsOpen r → ¬w'.IsOpen r →
        ∃ q p, w.peerData[q]? = some p ∧ p.socket = some s ∧ w.ClosedWith q r

variable {close : HostLoop → ℕ → Option HostLoop} {n : ℕ}

/-- `_InternalDisconnect`. -/
theorem internalDisconnect_spec (hclose : CloseSpec close n) (hw : w.WF) (hn : w.openCount ≤ n)
    (hd : w.deref q = some p) :
    ∃ w', w.internalDisconnect close q = some w' ∧ Closes w w' ∧ ¬w'.IsOpen q ∧
      ∀ r, w.IsOpen r → ¬w'.IsOpen r → w.ClosedWith q r := by
  have hp := peerData_of_deref hd
  have hc := setFlags_closes hw q fun f => { f with disconnecting := true }
  cases hs : p.socket with
  | none =>
    have hc' := hc.trans hw (setFlags_closes hc.wf q fun f => { f with closed := true })
    refine ⟨_, by simp only [internalDisconnect, hd, hs, Option.bind_eq_bind, Option.bind_some,
      Option.pure_def], hc', fun ho => ?_, fun r ho hno => ?_⟩
    · obtain ⟨p', s, k, hp', hs', -⟩ := hc'.isOpen ho
      obtain rfl := Option.some.inj (hp.symm.trans hp')
      rw [hs] at hs'
      simp at hs'
    · exact absurd ((isOpen_setFlags _ _ _ r).mpr ((isOpen_setFlags _ _ _ r).mpr ho)) hno
  | some s =>
    obtain ⟨-, -, t, k, ht, hk, -⟩ := hw.alive q p hp (hw.sharedPeer_ne hp hs)
    obtain rfl := Option.some.inj (hs.symm.trans ht)
    obtain ⟨w', hcl, hc', hclosed, honly⟩ := hclose _ s hc.wf (hc.openCount_le.trans hn)
      (by rw [hc.sockets]; exact (List.getElem?_eq_some_iff.mp hk).1)
    have hcc := hc.trans hw hc'
    refine ⟨w', by simp only [internalDisconnect, hd, hs, Option.bind_eq_bind, Option.bind_some, hcl],
      hcc, fun ho => ?_, fun r ho hno => ?_⟩
    · obtain ⟨p', t, k', hp', ht', hk', hkc⟩ := id ho
      rcases hcc.peer q p p' hp hp' with ⟨hkept, -⟩ | ⟨-, hcleared, -⟩
      · obtain rfl : s = t := Option.some.inj (hs.symm.trans (hkept.socket.symm.trans ht'))
        rw [hclosed k' hk'] at hkc
        simp at hkc
      · exact hc'.wf.not_isOpen hp' hcleared ho
    · have ho₁ := (isOpen_setFlags w q (fun f => { f with disconnecting := true }) r).mpr ho
      obtain ⟨q', p₁, hp₁, hs₁, hwith⟩ := honly r ho₁ hno
      obtain ⟨p', hp', hk'⟩ := hc.kept hp₁ (by obtain ⟨-, -, hqo, -⟩ := hwith; exact hqo)
      obtain rfl := hw.socket_unique hp hs hp' (hk'.socket.symm.trans hs₁)
      exact hc.closedWith hw ho₁ hwith

/-- The loop of `DisconnectAll`, over peers that `copy` owns. -/
theorem foldlM_internalDisconnect_spec (hclose : CloseSpec close n) (l : List ℕ) (hw : w.WF)
    (hn : w.openCount ≤ n) (hl : ∀ q ∈ l, q < w.peerData.length) (hh : ∀ q ∈ l, q ∈ w.holders) :
    ∃ w', l.foldlM (internalDisconnect close) w = some w' ∧ Closes w w' ∧
      (∀ q ∈ l, ¬w'.IsOpen q) ∧
      ∀ r, w.IsOpen r → ¬w'.IsOpen r → ∃ q ∈ l, w.ClosedWith q r := by
  induction l generalizing w with
  | nil => exact ⟨w, rfl, Closes.refl hw, by simp, fun r ho hno => absurd ho hno⟩
  | cons q l ih =>
    obtain ⟨w₁, hd, hc, hq, honly⟩ := internalDisconnect_spec hclose hw hn
      ((deref_of_held (hh q List.mem_cons_self)).trans (List.getElem?_eq_getElem (hl q List.mem_cons_self)))
    obtain ⟨w', hrun, hc', hl', honly'⟩ := ih hc.wf (hc.openCount_le.trans hn)
      (fun r hr => hc.peers.symm ▸ hl r (List.mem_cons_of_mem _ hr))
      fun r hr => hc.holders.symm ▸ hh r (List.mem_cons_of_mem _ hr)
    refine ⟨w', Lib.foldlM_cons_eq_some.mpr ⟨w₁, hd, hrun⟩, hc.trans hw hc', fun r hr => ?_,
      fun r ho hno => ?_⟩
    · rcases List.mem_cons.mp hr with rfl | hr
      · exact fun ho => hq (hc'.isOpen ho)
      · exact hl' r hr
    · by_cases ho₁ : w₁.IsOpen r
      · obtain ⟨q', hq', hwith⟩ := honly' r ho₁ hno
        exact ⟨q', List.mem_cons_of_mem _ hq', hc.closedWith hw ho₁ hwith⟩
      · exact ⟨q, List.mem_cons_self, honly r ho ho₁⟩

/-- **`DisconnectAll`** leaves no peer of the host open. -/
theorem disconnectAll_spec (hclose : CloseSpec close n) (hw : w.WF) (hn : w.openCount ≤ n)
    (host : ℕ) :
    ∃ w', w.disconnectAll close host = some w' ∧ Closes w w' ∧
      (∀ q ∈ w.peersOf host, ¬w'.IsOpen q) ∧
      ∀ r, w.IsOpen r → ¬w'.IsOpen r → w.Reaches [host] (w.hostOf r) := by
  have hlt : ∀ q ∈ w.peersOf host, q < w.peerData.length := by
    intro q hq
    obtain ⟨p, hp, -⟩ := hw.of_mem_peersOf hq
    exact (List.getElem?_eq_some_iff.mp hp).1
  obtain ⟨w', hrun, hc, hall, honly⟩ := foldlM_internalDisconnect_spec hclose (w.peersOf host)
    (hw.holders (w.peersOf host ++ w.holders)) hn hlt fun q hq => List.mem_append_left _ hq
  refine ⟨{ w' with holders := w.holders }, ?_, hc.holding, hall, fun r ho hno => ?_⟩
  · exact Option.bind_eq_some_iff.mpr ⟨w', hrun, rfl⟩
  obtain ⟨q, hq, p, hp, hqo, rfl | hreach⟩ := honly r ho hno
  · exact .here (by rw [(hw.mirrors.mem_iff.mp hq).1]; exact List.mem_singleton_self host)
  · exact .there (List.mem_singleton_self host) hq hp hqo (reaches_holders.mp hreach)

/-- **A callback** leaves no peer of the hosts that it disconnects open, and closes only peers
of hosts that it reaches. -/
theorem callback_spec (hclose : CloseSpec close n) (hosts : List ℕ) (hw : w.WF)
    (hn : w.openCount ≤ n) :
    ∃ w', w.callback close hosts = some w' ∧ Closes w w' ∧
      (∀ host ∈ hosts, ∀ q ∈ w.peersOf host, ¬w'.IsOpen q) ∧
      ∀ r, w.IsOpen r → ¬w'.IsOpen r → w.Reaches hosts (w.hostOf r) := by
  induction hosts generalizing w with
  | nil => exact ⟨w, rfl, Closes.refl hw, by simp, fun r ho hno => absurd ho hno⟩
  | cons host hosts ih =>
    obtain ⟨w₁, hd, hc, hq, honly⟩ := disconnectAll_spec hclose hw hn host
    obtain ⟨w', hrun, hc', hl', honly'⟩ := ih hc.wf (hc.openCount_le.trans hn)
    refine ⟨w', Lib.foldlM_cons_eq_some.mpr ⟨w₁, hd, hrun⟩, hc.trans hw hc', fun host' hh r hr ho => ?_,
      fun r ho hno => ?_⟩
    · have ho₁ := hc'.isOpen ho
      rcases List.mem_cons.mp hh with rfl | hh
      · exact hq r hr ho₁
      · exact hl' host' hh r (hc.mem_peersOf hw hr ho₁) ho
    · by_cases ho₁ : w₁.IsOpen r
      · have hreach := hc.reaches hw (honly' r ho₁ hno)
        rw [hc.hostOf ho₁] at hreach
        exact hreach.mono_hosts (List.subset_cons_self host hosts)
      · exact (honly r ho ho₁).mono_hosts (by simp)

/-- The state in which the callback of a peer runs. -/
def disconnecting (w : HostLoop) (q : ℕ) : HostLoop :=
  (w.setFlags q fun f => { f with disconnecting := true }).record (.disconnected q)

theorem disconnecting_wf (hw : w.WF) (q : ℕ) : (w.disconnecting q).WF :=
  record_wf (setFlags_closes hw q _).wf _

theorem disconnecting_begins (w : HostLoop) (q s : ℕ) : Begins w (w.disconnecting q) q s := by
  refine ⟨rfl, rfl, List.length_modify _ _ _, fun r hr => ?_, rfl, fun _ _ => rfl, rfl⟩
  exact List.getElem?_modify_ne _ _ hr.symm

/-- The peer itself, before its callback. -/
theorem disconnecting_peer (hp : w.peerData[q]? = some p) :
    ∃ p₁, (w.disconnecting q).peerData[q]? = some p₁ ∧ Kept p p₁ := by
  refine ⟨{ p with sharedPeer := p.sharedPeer.map fun f => { f with disconnecting := true } }, ?_,
    by simp, rfl, rfl, rfl, rfl, rfl⟩
  rw [disconnecting, record, setFlags, peerData_modifyPeer, hp, Option.map_some, if_pos rfl]

/-- **`_Internal_on_close_Finish`** on a live peer is its callback and its second half. -/
theorem onCloseFinish_eq (hw : w.WF) (hp : w.peerData[q]? = some p) (hsh : p.sharedPeer ≠ none)
    (host : ℕ) :
    w.onCloseFinish close host p.peerHandle =
      ((w.disconnecting q).callback close p.onDisconnect).bind fun w =>
        w.finish host p.peerHandle q := by
  have hget := PeerManager.getLocalPeerData_of_live hw.manager (hw.alive q p hp hsh).live
  obtain ⟨f, hf⟩ := Option.ne_none_iff_exists'.mp hsh
  have hp₁ : (w.setFlags q fun f => { f with disconnecting := true }).peerData[q]? =
      some { p with sharedPeer := p.sharedPeer.map fun f => { f with disconnecting := true } } := by
    rw [setFlags, peerData_modifyPeer, hp, Option.map_some, if_pos rfl]
  have hd₁ := (setFlags_closes hw q fun f => { f with disconnecting := true }).wf.deref_of_alive hp₁
    (by simp [hf])
  simp only [onCloseFinish, hget, hw.deref_of_alive hp hsh, hf, onDisconnect, hd₁, Option.bind_eq_bind,
    Option.bind_some]
  rfl

/-- Marking a socket closed keeps the invariant. -/
theorem markClosed_wf (hw : w.WF) (s : ℕ) :
    (w.modifySocket s fun k => { k with isClosed := true }).WF := by
  refine hw.congr rfl rfl (fun _ => rfl) fun t => ?_
  rw [sockets_modifySocket, Option.map_map]
  congr 1
  funext k
  simp only [Function.comp_apply]
  split_ifs <;> rfl

/-- No peer is on a socket that has none. -/
theorem isOpen_markClosed (hw : w.WF) {k : Socket} (hk : w.sockets[s]? = some k)
    (hext : k.ext = none) (r : ℕ) :
    (w.modifySocket s fun k => { k with isClosed := true }).IsOpen r ↔ w.IsOpen r := by
  refine isOpen_iff_of_ne rfl (fun t ht => List.getElem?_modify_ne _ _ ht.symm) fun pr hpr hps => ?_
  obtain ⟨k', hk', hkr, -⟩ := hw.socket_of_peer hpr hps
  obtain rfl := Option.some.inj (hk.symm.trans hk')
  rw [hext] at hkr
  simp at hkr

/-- Closing a socket that has no peer. -/
theorem markClosed_closes (hw : w.WF) {k : Socket} (hk : w.sockets[s]? = some k)
    (ho : k.isClosed = false) (hext : k.ext = none) :
    Closes w (w.modifySocket s fun k => { k with isClosed := true }) := by
  have hopen := isOpen_markClosed hw hk hext
  have hcount := openCount_modifySocket hk ho
  refine ⟨markClosed_wf hw s, rfl, rfl, rfl, rfl, List.length_modify _ _ _, by omega, fun t k' hk' hkc => ?_,
    fun r pr pr' hr hr' => .inl ⟨?_, hopen r, rfl⟩, fun r pr _ ho hno => absurd ((hopen r).mpr ho) hno,
    fun _ _ => rfl⟩
  · rw [sockets_modifySocket] at hk'
    obtain ⟨k₀, hk₀, rfl⟩ := Option.map_eq_some_iff.mp hk'
    rcases eq_or_ne s t with rfl | hne
    · rw [if_pos rfl] at hkc
      simp at hkc
    · rw [if_neg hne]
      exact hk₀
  · obtain rfl := Option.some.inj (hr.symm.trans hr')
    exact Kept.refl pr

/-- The second half after a callback that has left the peer alone. -/
theorem finish_of_kept (hw : w.WF) (hp : w.peerData[q]? = some p) {p₀ : PeerData} (hk : Kept p₀ p)
    (hs : p₀.socket = some s) :
    ∃ w', w.finish p₀.host p₀.peerHandle q = some w' ∧ Finishes w w' q s := by
  have hs' : p.socket = some s := hk.socket.trans hs
  rw [← hk.host, ← hk.peerHandle]
  exact finish_spec hw hp (hw.sharedPeer_ne hp hs') hs'

theorem Finishes.openCount_eq (hf : Finishes w w' q s) : w'.openCount = w.openCount := by
  have hmap : w'.sockets.map Socket.isClosed = w.sockets.map Socket.isClosed := by
    rw [hf.sockets]
    refine List.ext_getElem? fun t => ?_
    rw [List.getElem?_map, List.getElem?_modify, List.getElem?_map, Option.map_eq_map, Option.map_map]
    congr 1
    funext k
    simp only [Function.comp_apply]
    split_ifs <;> rfl
  have hcount : ∀ v : HostLoop, v.openCount = (v.sockets.map Socket.isClosed).countP (· = false) :=
    fun v => by rw [openCount, List.countP_map]; rfl
  rw [hcount, hcount, hmap]

/-- `onDisconnect` of a peer begins once its socket is marked as closed and `_peer` owns it. -/
theorem markClosed_begins (q : ℕ) (l : List ℕ) :
    Begins w (disconnecting { w.modifySocket s fun k => { k with isClosed := true } with
      holders := l } q) q s := by
  obtain ⟨hl, hh, hpl, hpr, hsl, hst, he⟩ := disconnecting_begins
    { w.modifySocket s fun k => { k with isClosed := true } with holders := l } q s
  refine ⟨hl, hh, hpl, hpr, ?_, fun t ht => ?_, he⟩
  · rw [hsl]
    exact List.length_modify _ _ _
  · rw [hst t ht]
    exact List.getElem?_modify_ne _ _ ht.symm

/-- A peer whose socket is closed is not open. -/
theorem not_isOpen_of_closed {v : HostLoop} {q : ℕ} {p : PeerData} {k : Socket} (hp : v.peerData[q]? = some p)
    (hs : p.socket = some s) (hk : v.sockets[s]? = some k) (hc : k.isClosed = true) : ¬v.IsOpen q := by
  rintro ⟨p', t, k', hp', ht, hk', hkc⟩
  obtain rfl := Option.some.inj (hp.symm.trans hp')
  obtain rfl : s = t := Option.some.inj (hs.symm.trans ht)
  obtain rfl := Option.some.inj (hk.symm.trans hk')
  rw [hc] at hkc
  cases hkc

/-- **Closing an open socket:** the step of the recursion of `us_socket_close`. -/
theorem close_step (hclose : CloseSpec close n) (hw : w.WF) {k : Socket}
    (hk : w.sockets[s]? = some k) (ho : k.isClosed = false) (hn : w.openCount ≤ n + 1) :
    ∃ w', (w.modifySocket s fun k => { k with isClosed := true }).onClose close s = some w' ∧
      Closes w w' ∧ (∀ k : Socket, w'.sockets[s]? = some k → k.isClosed = true) ∧
      ∀ r, w.IsOpen r → ¬w'.IsOpen r →
        ∃ q p, w.peerData[q]? = some p ∧ p.socket = some s ∧ w.ClosedWith q r := by
  set v := w.modifySocket s fun k => { k with isClosed := true } with hv
  have hcount : v.openCount + 1 = w.openCount := openCount_modifySocket hk ho
  have hvw : v.WF := markClosed_wf hw s
  have hvk : v.sockets[s]? = some { k with isClosed := true } := by
    rw [hv, sockets_modifySocket, hk, Option.map_some, if_pos rfl]
  cases hext : k.ext with
  | none =>
    refine ⟨v, by simp [onClose, hvk, hext], markClosed_closes hw hk ho hext, fun k' hk' => ?_,
      fun r hr hno => absurd ((isOpen_markClosed hw hk hext r).mpr hr) hno⟩
    obtain rfl := Option.some.inj (hvk.symm.trans hk')
    rfl
  | some q =>
    obtain ⟨p, hp, hs⟩ := hw.ext s k q hk hext
    have hsh := hw.sharedPeer_ne hp hs
    have hkh : k.host = p.host := by
      obtain ⟨k', hk', -, hkh⟩ := hw.socket_of_peer hp hs
      obtain rfl := Option.some.inj (hk.symm.trans hk')
      exact hkh
    -- the callback and what follows it run while `_peer` owns the peer
    set u : HostLoop := { v with holders := [q] ++ v.holders } with hu
    have huw : u.WF := hvw.holders _
    have hw₁ := disconnecting_wf huw q
    obtain ⟨p₁, hp₁, hk₁⟩ := disconnecting_peer (w := u) hp
    obtain ⟨w₂, hcb, hc, hswept, honly⟩ := callback_spec hclose p.onDisconnect hw₁
      (show v.openCount ≤ n by omega)
    -- the socket is closed already, so that the callback leaves the peer alone
    have hnot : ¬(u.disconnecting q).IsOpen q := not_isOpen_of_closed hp₁ (hk₁.socket.trans hs) hvk rfl
    obtain ⟨p₂, hp₂, hk₂, hh₂⟩ := hc.left_alone hp₁ fun hopen => absurd hopen hnot
    have hs₂ := (hk₁.trans hk₂).socket.trans hs
    obtain ⟨w', hfin, hf⟩ := finish_of_kept hc.wf hp₂ (hk₁.trans hk₂) hs
    have hclosed : ∀ k' : Socket, w'.sockets[s]? = some k' → k'.isClosed = true := by
      intro k' hk'
      rw [hf.sockets, List.getElem?_modify_eq] at hk'
      obtain ⟨k₂, hk₂, rfl⟩ := Option.map_eq_some_iff.mp hk'
      by_contra hopen
      have hkv := hc.socket s k₂ hk₂ (Bool.eq_false_of_not_eq_true hopen)
      obtain rfl := Option.some.inj (hvk.symm.trans hkv)
      simp at hopen
    have hb : Begins w (u.disconnecting q) q s := markClosed_begins q _
    have he : Ends w₂ { w' with holders := v.holders } q s := by
      refine ⟨hf.wf.holders _, hf.loop, hf.hosts, hf.peerData, ?_, fun t ht => ?_, hclosed, hf.events⟩
      · rw [hf.sockets, List.length_modify]
      · rw [hf.sockets, List.getElem?_modify_ne _ _ ht.symm]
    have hopen : w.IsOpen q := ⟨p, s, k, hp, hs, hk, ho⟩
    refine ⟨{ w' with holders := v.holders }, ?_,
      Closes.of_callback hw hp hs hopen hb hc hswept hp₂ hs₂ hh₂ he rfl ?_, hclosed,
      fun r hr hno => ⟨q, p, hp, hs,
        closedWith_of_callback hw hp hs hopen hb hp₁ hk₁ hc.wf hp₂ hs₂ he honly hr hno⟩⟩
    · simp only [onClose, hvk, hext, hvw.deref_of_alive hp hsh, HostLoop.holding, ← hu,
        Option.bind_eq_bind, Option.bind_some, onCloseFinish_eq huw hp hsh, hcb, hkh, hfin,
        Option.pure_def]
    · have hle : w₂.openCount ≤ v.openCount := hc.openCount_le
      have heq : w'.openCount = w₂.openCount := hf.openCount_eq
      show w'.openCount ≤ w.openCount
      omega

/-- Closing a closed socket does nothing. -/
theorem usSocketCloseNested_of_closed (n : ℕ) (hw : w.WF) {k : Socket} (hk : w.sockets[s]? = some k)
    (hc : k.isClosed = true) :
    ∃ w', usSocketCloseNested (n + 1) w s = some w' ∧ Closes w w' ∧
      (∀ k : Socket, w'.sockets[s]? = some k → k.isClosed = true) ∧
      ∀ r, w.IsOpen r → ¬w'.IsOpen r →
        ∃ q p, w.peerData[q]? = some p ∧ p.socket = some s ∧ w.ClosedWith q r := by
  refine ⟨w, by simp [usSocketCloseNested, hk, hc], Closes.refl hw, fun k' hk' => ?_,
    fun r ho hno => absurd ho hno⟩
  rwa [← Option.some.inj (hk.symm.trans hk')]

/-- **`us_socket_close`** never recurses deeper than there are open sockets. -/
theorem usSocketCloseNested_spec (n : ℕ) : CloseSpec (usSocketCloseNested (n + 1)) n := by
  induction n with
  | zero =>
    intro w s hw hn hs
    have hk := List.getElem?_eq_getElem hs
    cases hc : w.sockets[s].isClosed with
    | false =>
      have := openCount_modifySocket hk hc
      omega
    | true => exact usSocketCloseNested_of_closed 0 hw hk hc
  | succ n ih =>
    intro w s hw hn hs
    have hk := List.getElem?_eq_getElem hs
    cases hc : w.sockets[s].isClosed with
    | false =>
      obtain ⟨w', hcl, hspec⟩ := close_step ih hw hk hc hn
      exact ⟨w', by simp [usSocketCloseNested, hk, hc, ← hcl], hspec⟩
    | true => exact usSocketCloseNested_of_closed (n + 1) hw hk hc

/-- `us_socket_close`, from any state. -/
theorem usSocketClose_spec (n : ℕ) : CloseSpec usSocketClose n := fun w s hw _ hs =>
  usSocketCloseNested_spec w.sockets.length w s hw List.countP_le_length hs

end HostLoop
end ICon7
