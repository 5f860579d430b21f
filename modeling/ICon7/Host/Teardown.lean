/-
# Taking down the hosts

A host listens (`_InternalListen`), stops listening (`_InternalStopListening`), and is destroyed
(`_InternalDestroy`), by the command of `Loop::Destroy` or on its own; in between its peers
come and go as in `ICon7.Host.Events`.

Destroying a host disconnects its peers, with callbacks that may disconnect the peers of any host,
and no peer of it is left open for `us_socket_context_close` (`destroyHost_spec`).  Nobody else makes
a peer of a host that is gone (`Follows`).  So the loop of `CommandDestroyHosts` ends, and leaves every
peer closed once, every listening socket closed once and every context freed once (`teardown`).

A host is in `hosts` as long as its `socketContext` is not null.  The order in which the set `hosts`
is walked through is that of a list.  Of uSockets it is assumed that `us_socket_context_close` closes
the open sockets of the context, and that a context that is freed accepts nothing.
-/

import ICon7.Host.Once

namespace ICon7

open Lib

namespace HostLoop

variable {w w' w₁ : HostLoop} {loop hosts q r s : ℕ} {p : PeerData} {h : PeerHandle} {new : Option ℕ}

/-! ### Who makes peers -/

/-- The host on which an event makes a peer. -/
def Op.newHost : Op → Option ℕ
  | .accept host _ _ => some host
  | .connect host _ => some host
  | _ => none

/-- **What an event does to live peers:** a live peer was alive before, on the same host, or is new. -/
structure Follows (new : Option ℕ) (w w' : HostLoop) : Prop where
  wf : w'.WF
  alive : ∀ (q : ℕ) (p' : PeerData), w'.peerData[q]? = some p' → p'.sharedPeer ≠ none →
    (∃ p, w.peerData[q]? = some p ∧ p.sharedPeer ≠ none ∧ p.host = p'.host) ∨ some p'.host = new

theorem Follows.refl (hw : w.WF) : Follows new w w := ⟨hw, fun _ p' hp' hs => .inl ⟨p', hp', hs, rfl⟩⟩

theorem Follows.trans (hf : Follows new w w₁) (hf' : Follows new w₁ w') : Follows new w w' := by
  refine ⟨hf'.wf, fun q p' hp' hs => ?_⟩
  rcases hf'.alive q p' hp' hs with ⟨p, hp, hsp, hh⟩ | hnew
  · rw [← hh]
    exact hf.alive q p hp hsp
  · exact .inr hnew

/-- A peer that is alive after a nest of closings was alive before. -/
theorem Closes.alive_before {p' : PeerData} (hc : Closes w w') (hp' : w'.peerData[q]? = some p')
    (hs : p'.sharedPeer ≠ none) : ∃ p, w.peerData[q]? = some p ∧ p.sharedPeer ≠ none ∧ p.host = p'.host := by
  have hlt : q < w.peerData.length := by
    rw [← hc.peers]
    exact (List.getElem?_eq_some_iff.mp hp').1
  rcases hc.peer q _ p' (List.getElem?_eq_getElem hlt) hp' with ⟨hk, -⟩ | ⟨-, hcl, -⟩
  · exact ⟨_, List.getElem?_eq_getElem hlt, fun hn => hs (hk.sharedPeer.mpr hn), hk.host.symm⟩
  · exact absurd hcl hs

theorem Closes.follows (hc : Closes w w') : Follows new w w' :=
  ⟨hc.wf, fun _ _ hp' hs => .inl (hc.alive_before hp' hs)⟩

/-- A change of one peer that keeps what the invariant sees of it. -/
theorem follows_modifyPeer (hw : w.WF) (q : ℕ) {f : PeerData → PeerData}
    (hf : ∀ p, PeerData.links (f p) = PeerData.links p) : Follows new w (w.modifyPeer q f) := by
  refine ⟨hw.congr rfl rfl (links_modifyPeer hf w q) fun _ => rfl, fun r p' hp' hs => ?_⟩
  rw [peerData_modifyPeer] at hp'
  obtain ⟨p, hp, rfl⟩ := Option.map_eq_some_iff.mp hp'
  refine .inl ⟨p, hp, ?_⟩
  split_ifs at hs ⊢
  · obtain ⟨h1, -, h3, -⟩ := links_eq_iff.mp (hf p)
    exact ⟨fun hn => hs (h1.mpr hn), h3.symm⟩
  · exact ⟨hs, rfl⟩

theorem follows_callback (hw : w.WF) {hs : List ℕ} (hcb : w.callback usSocketClose hs = some w') :
    Follows new w w' := by
  obtain ⟨w₁, hcb', hc, -⟩ := callback_spec (usSocketClose_spec _) hs hw le_rfl
  obtain rfl := Option.some.inj (hcb.symm.trans hcb')
  exact hc.follows

theorem follows_usSocketClose (hw : w.WF) (hlt : s < w.sockets.length)
    (hcl : w.usSocketClose s = some w') : Follows new w w' := by
  obtain ⟨w₁, hcl', hc, -⟩ := usSocketClose_spec _ w s hw le_rfl hlt
  obtain rfl := Option.some.inj (hcl.symm.trans hcl')
  exact hc.follows

theorem follows_internalDisconnect (hw : w.WF) (hd : w.internalDisconnect usSocketClose q = some w') :
    Follows new w w' ∧ w'.sockets.length = w.sockets.length := by
  obtain ⟨p, hp, -⟩ := Option.bind_eq_some_iff.mp hd
  obtain ⟨w₁, hd', hc, -⟩ := internalDisconnect_spec (usSocketClose_spec _) hw le_rfl hp
  obtain rfl := Option.some.inj (hd.symm.trans hd')
  exact ⟨hc.follows, hc.sockets⟩

/-- `_InternalOnPacket`, any number of times. -/
theorem follows_onPackets (hw : w.WF) {ds : List (List ℕ)} (ho : w.onPackets q ds = some w') :
    Follows new w w' := by
  refine run_invariant (I := Follows new w) (fun v hosts v' hI hstep => ?_) ds (Follows.refl hw) ho
  obtain ⟨v₁, hpacket, hstep⟩ := Option.bind_eq_some_iff.mp hstep
  obtain ⟨-, -, hret⟩ := Option.bind_eq_some_iff.mp hstep
  obtain rfl := Option.some.inj hret
  obtain ⟨p, -, hpacket⟩ := Option.bind_eq_some_iff.mp hpacket
  obtain ⟨f, -, hcb⟩ := Option.bind_eq_some_iff.mp hpacket
  have hrec : Follows new v (v.record (.packet q)) :=
    ⟨record_wf hI.wf _, fun _ p' hp' hs => .inl ⟨p', hp', hs, rfl⟩⟩
  exact hI.trans (hrec.trans (follows_callback hrec.wf hcb))

/-- A new peer. -/
theorem follows_makePeer (hw : w.Settled loop hosts) {host : ℕ} (hh : host < hosts)
    {onDisconnect : List ℕ} (hm : w.makePeer host onDisconnect = some (w', h)) :
    Follows (some host) w w' := by
  obtain ⟨w₁, p, hmake, ha, hw₁, -⟩ := makePeer_adds hw hh onDisconnect
  obtain ⟨rfl, rfl⟩ := Prod.mk.inj (Option.some.inj (hm.symm.trans hmake))
  have hhost : p.host = host := by
    obtain ⟨-, -, hm⟩ := Option.bind_eq_some_iff.mp hm
    obtain ⟨⟨m, peers, handle⟩, -, hm⟩ := Option.bind_eq_some_iff.mp hm
    obtain ⟨rfl, -⟩ := Prod.mk.inj (Option.some.inj hm)
    obtain ⟨-, hlast⟩ := List.append_inj' ha.peerData rfl
    rw [← (List.cons.inj hlast).1]
  refine ⟨hw₁.wf, fun r p' hp' hs => ?_⟩
  rw [ha.peer] at hp'
  split_ifs at hp' with hr
  · right
    rw [← Option.some.inj hp', hhost]
  · exact .inl ⟨p', hp', hs, rfl⟩

/-- An event of a socket. -/
theorem follows_onSocket (hw : w.WF) {f : HostLoop → Option HostLoop}
    (hstep : w.onSocket s f = some w')
    (hf : ∀ k, w.sockets[s]? = some k → k.isClosed = false → f w = some w' → Follows new w w') :
    Follows new w w' := by
  rcases onSocket_cases w s f with ⟨k, hk, ho, heq⟩ | ⟨-, heq⟩
  · exact hf k hk ho (heq ▸ hstep)
  · obtain rfl := Option.some.inj (heq.symm.trans hstep)
    exact Follows.refl hw

/-- **Every event** makes peers of one host at most. -/
theorem step_follows {op : Op} (hw : w.Settled loop hosts) (hok : op.Ok loop hosts)
    (hstep : w.step op = some w') : Follows op.newHost w w' := by
  have hsafe : w.Safe op := by
    by_contra hno
    rw [step_of_not_safe w op hw hno] at hstep
    cases hstep
  cases op with
  | accept host onDisconnect onConnect =>
    obtain ⟨w₁, h, hmake, hw₁, hl⟩ := makePeer_spec hw hok onDisconnect
    obtain ⟨w₂, hopen, hc⟩ := hw₁.onOpenFinish hl w.peerData.length onConnect
    simp only [step, onAccept, hmake, Option.bind_eq_bind, Option.bind_some] at hstep
    obtain rfl := Option.some.inj (hstep.symm.trans hopen)
    exact (follows_makePeer hw hok hmake).trans hc.follows
  | connect host onDisconnect =>
    obtain ⟨⟨w₁, h⟩, hmake, hret⟩ := Option.bind_eq_some_iff.mp hstep
    obtain rfl := Option.some.inj hret
    exact follows_makePeer hw hok hmake
  | opened s onConnect =>
    rw [step] at hstep
    refine follows_onSocket hw.wf hstep fun k hk ho hopen => ?_
    obtain ⟨w₁, hopen', hc⟩ := hw.onOpen hk ho onConnect
    obtain rfl := Option.some.inj (hopen.symm.trans hopen')
    exact hc.follows
  | ended s =>
    rw [step] at hstep
    refine follows_onSocket hw.wf hstep fun k hk ho hend => ?_
    obtain ⟨q, p, hext, hp, -⟩ := hw.peer_of_socket hk ho
    obtain ⟨w₁, hend', hc⟩ := onEnd_of_not_reaches hw hk ho hext hp (hsafe k q p hk ho hext hp)
    obtain rfl := Option.some.inj (hend.symm.trans hend')
    exact hc.follows
  | closed s =>
    rw [step] at hstep
    exact follows_onSocket hw.wf hstep fun k hk ho hcl =>
      follows_usSocketClose hw.wf (List.getElem?_eq_some_iff.mp hk).1 hcl
  | timeout s isEstablished isShutDown =>
    rw [step] at hstep
    refine follows_onSocket hw.wf hstep fun k hk ho ht => ?_
    have hlt := (List.getElem?_eq_some_iff.mp hk).1
    obtain ⟨q, p, hext, -⟩ := hw.peer_of_socket hk ho
    simp only [onTimeout, hk, hext, Option.bind_eq_bind, Option.bind_some] at ht
    obtain ⟨w₁, hd, ht⟩ := Option.bind_eq_some_iff.mp ht
    obtain ⟨hf, hlen⟩ : Follows none w w₁ ∧ _ := follows_internalDisconnect hw.wf hd
    split_ifs at ht
    · exact hf.trans (follows_usSocketClose hf.wf (hlen ▸ hlt) ht)
    · obtain rfl := Option.some.inj ht
      exact hf
  | longTimeout s =>
    rw [step] at hstep
    refine follows_onSocket hw.wf hstep fun k hk ho ht => ?_
    obtain ⟨q, p, hext, -⟩ := hw.peer_of_socket hk ho
    simp only [onLongTimeout, hk, hext, Option.bind_eq_bind, Option.bind_some] at ht
    exact (follows_internalDisconnect hw.wf ht).1
  | data s chunk handlers =>
    rw [step] at hstep
    refine follows_onSocket hw.wf hstep fun k hk ho hdata => ?_
    obtain ⟨q, p, hext, hp, -, hs, -⟩ := hw.peer_of_socket hk ho
    simp only [onData, hk, hext, hw.wf.deref_of_alive hp hs, Option.bind_eq_bind, Option.bind_some] at hdata
    obtain ⟨f, -, hdata⟩ := Option.bind_eq_some_iff.mp hdata
    obtain ⟨⟨dec, packets⟩, -, hdata⟩ := Option.bind_eq_some_iff.mp hdata
    have hf : Follows none w (w.modifyPeer q fun p => { p with frameDecoder := dec }) :=
      follows_modifyPeer hw.wf q fun _ => rfl
    exact hf.trans (follows_onPackets hf.wf hdata)
  | executeDisconnect h =>
    rw [step, executeDisconnect] at hstep
    split_ifs at hstep
    · obtain rfl := Option.some.inj hstep
      exact Follows.refl hw.wf
    · obtain ⟨d, -, hd⟩ := Option.bind_eq_some_iff.mp hstep
      cases d with
      | none =>
        obtain rfl := Option.some.inj hd
        exact Follows.refl hw.wf
      | some q => exact (follows_internalDisconnect hw.wf hd).1
  | disconnectAll host =>
    obtain ⟨w₁, hd, hc, -⟩ := disconnectAll_spec (usSocketClose_spec _) hw.wf le_rfl host
    obtain rfl := Option.some.inj (hstep.symm.trans hd)
    exact hc.follows
  | setOnDisconnect h onDisconnect =>
    obtain ⟨d, -, hd⟩ := Option.bind_eq_some_iff.mp hstep
    cases d with
    | none =>
      obtain rfl := Option.some.inj hd
      exact Follows.refl hw.wf
    | some q =>
      obtain ⟨-, -, hd⟩ := Option.bind_eq_some_iff.mp hd
      obtain rfl := Option.some.inj hd
      exact follows_modifyPeer hw.wf q fun _ => rfl
  | send h =>
    obtain ⟨w₁, hs, hw₁⟩ := hw.send (h := h) hok
    obtain rfl := Option.some.inj (hstep.symm.trans hs)
    refine ⟨hw₁.wf, fun q p' hp' hsh => .inl ⟨p', ?_, hsh, rfl⟩⟩
    obtain ⟨d, -, hd⟩ := Option.bind_eq_some_iff.mp hstep
    cases d with
    | none =>
      obtain rfl := Option.some.inj hd
      exact hp'
    | some q =>
      obtain ⟨p, -, hd⟩ := Option.bind_eq_some_iff.mp hd
      obtain ⟨f, -, hd⟩ := Option.bind_eq_some_iff.mp hd
      split_ifs at hd <;> obtain rfl := Option.some.inj hd <;> exact hp'

/-! ### Contexts -/

/-- `us_socket_context_close`: every open socket of the context of the host is closed. -/
def usSocketContextClose (w : HostLoop) (host : ℕ) : Option HostLoop :=
  (List.range w.sockets.length).foldlM (fun w s =>
    match w.sockets[s]? with
    | some k => if k.host = host then w.usSocketClose s else some w
    | none => some w) w

/-- An open socket is that of a live peer of its host. -/
theorem Settled.mem_peersOf_of_open (hw : w.Settled loop hosts) {k : Socket} (hk : w.sockets[s]? = some k)
    (ho : k.isClosed = false) : ∃ q ∈ w.peersOf k.host, w.IsOpen q := by
  obtain ⟨q, p, -, hp, hs, hsh, hopen, -⟩ := hw.peer_of_socket hk ho
  obtain ⟨k', hk', -, hh⟩ := hw.wf.socket_of_peer hp hs
  obtain rfl := Option.some.inj (hk.symm.trans hk')
  exact ⟨q, hh ▸ hw.wf.mem_peersOf hp hsh, hopen⟩

/-- Where no peer of a host is left, `us_socket_context_close` finds nothing to close. -/
theorem Settled.usSocketContextClose (hw : w.Settled loop hosts) {host : ℕ} (hno : w.peersOf host = []) :
    w.usSocketContextClose host = some w := by
  have hone (s : ℕ) : (match w.sockets[s]? with
      | some k => if k.host = host then w.usSocketClose s else some w
      | none => some w) = some w := by
    cases hk : w.sockets[s]? with
    | none => rfl
    | some k =>
      by_cases hh : k.host = host
      · cases ho : k.isClosed with
        | false =>
          obtain ⟨q, hq, -⟩ := hw.mem_peersOf_of_open hk ho
          rw [hh, hno] at hq
          cases hq
        | true => simp [hh, HostLoop.usSocketClose, usSocketCloseNested, hk, ho]
      · simp [hh]
  unfold HostLoop.usSocketContextClose
  generalize List.range w.sockets.length = l
  induction l with
  | nil => rfl
  | cons s l ih => exact foldlM_cons_eq_some.mpr ⟨w, hone s, ih⟩

/-- `DisconnectAll` leaves no peer of the host. -/
theorem Settled.disconnectAll_empties (hw : w.Settled loop hosts) (host : ℕ) :
    ∃ w', w.disconnectAll HostLoop.usSocketClose host = some w' ∧ Closes w w' ∧ w'.peersOf host = [] := by
  obtain ⟨w', hd, hc, hall, -⟩ := disconnectAll_spec (usSocketClose_spec _) hw.wf le_rfl host
  refine ⟨w', hd, hc, List.eq_nil_iff_forall_not_mem.mpr fun q hq => ?_⟩
  have hw' := hw.closes hc
  obtain ⟨p', hp', hh, hs⟩ := hw'.wf.of_mem_peersOf hq
  have hopen := hw'.isOpen q p' hp' hs
  obtain ⟨p, hp, hsp, hhost⟩ := hc.alive_before hp' hs
  exact hall q (by rw [← hh, ← hhost]; exact hw.wf.mem_peersOf hp hsp) hopen

end HostLoop

/-! ### Hosts that listen and are destroyed -/

inductive IPProto where
  | IPv4
  | IPv6
deriving DecidableEq, Repr

/-- The hosts of a loop.  `listenSockets` has the listening sockets of all hosts, each with its host,
and a socket is the number of those opened before it.  `closedListens` are the calls of
`us_listen_socket_close`, and `freed` those of `us_socket_context_free`, by host. -/
structure Hosting where
  w : HostLoop
  hosts : List ℕ
  listenSockets : List (ℕ × ℕ) := []
  opened : ℕ := 0
  closedListens : List ℕ := []
  freed : List ℕ := []

namespace Hosting

/-- A loop with hosts that have no peers. -/
def init (loop n : ℕ) : Hosting := { w := .init loop n, hosts := List.range n }

/-- The address that `_InternalListen` gives to `us_socket_context_listen`. -/
def listenAddress (address : String) (ipProto : IPProto) : String :=
  if address.isEmpty then
    match ipProto with
    | .IPv4 => "127.0.0.1"
    | .IPv6 => "::1"
  else address

/-- `_InternalListen`, with what `us_socket_context_listen` answers; the result is `com->result`. -/
def internalListen (s : Hosting) (host : ℕ) (address : String) (ipProto : IPProto) (port : UInt16)
    (listens : String → UInt16 → Bool) : Option (Hosting × Bool) := do
  guard (host ∈ s.hosts)
  if listens (listenAddress address ipProto) port then
    return ({ s with
      listenSockets := s.listenSockets ++ [(host, s.opened)]
      opened := s.opened + 1 }, true)
  else return (s, false)

/-- `_InternalStopListening`. -/
def internalStopListening (s : Hosting) (host : ℕ) : Hosting :=
  { s with
    closedListens := s.closedListens ++ (s.listenSockets.filter (·.1 = host)).map Prod.snd
    listenSockets := s.listenSockets.filter (·.1 ≠ host) }

/-- `_InternalDestroy`. -/
def internalDestroy (s : Hosting) (host : ℕ) : Option Hosting := do
  guard (host ∈ s.hosts)
  let s := s.internalStopListening host
  let w ← s.w.disconnectAll HostLoop.usSocketClose host
  let w ← w.usSocketContextClose host
  return { s with
    w
    freed := s.freed ++ [host]
    hosts := s.hosts.erase host }

/-- `while (loop->hosts.empty() == false)` of `CommandDestroyHosts`, at most `fuel` turns. -/
def destroyLoop : ℕ → Hosting → Option Hosting
  | 0, s => if s.hosts.isEmpty then some s else none
  | fuel + 1, s =>
    match s.hosts with
    | [] => some s
    | host :: _ => do
      let s ← s.internalDestroy host
      destroyLoop fuel s

/-- The hosts are destroyed by `CommandDestroyHosts`. -/
def destroyHosts (s : Hosting) : Option Hosting := destroyLoop s.hosts.length s

/-- What can happen: an event, and the functions above. -/
inductive Op where
  | event (op : HostLoop.Op)
  | listen (host : ℕ) (address : String) (ipProto : IPProto) (port : UInt16)
      (listens : String → UInt16 → Bool)
  | stopListening (host : ℕ)
  | destroy (host : ℕ)

/-- One step.  A context that is freed accepts no connection; connecting needs one. -/
def step (s : Hosting) : Op → Option Hosting
  | .event (.accept host onDisconnect onConnect) =>
    if host ∈ s.hosts then do
      let w ← s.w.step (.accept host onDisconnect onConnect)
      return { s with w }
    else some s
  | .event (.connect host onDisconnect) => do
    guard (host ∈ s.hosts)
    let w ← s.w.step (.connect host onDisconnect)
    return { s with w }
  | .event op => do
    let w ← s.w.step op
    return { s with w }
  | .listen host address ipProto port listens =>
    (s.internalListen host address ipProto port listens).map Prod.fst
  | .stopListening host => some (s.internalStopListening host)
  | .destroy host => s.internalDestroy host

def run (s : Hosting) (ops : List Op) : Option Hosting := ops.foldlM step s

/-- What callers promise. -/
def Op.Ok (loop n : ℕ) : Op → Prop
  | .event op => op.Ok loop n
  | _ => True

variable {s s' : Hosting} {loop n host : ℕ}

/-- **The invariant.**  A live peer has a host that is not destroyed; every host is there or its context
has been freed, once; and every listening socket is one of a host that is there, or has been
closed, once. -/
structure Inv (loop n : ℕ) (s : Hosting) : Prop where
  settled : s.w.Settled loop n
  alive : ∀ (q : ℕ) (p : PeerData), s.w.peerData[q]? = some p → p.sharedPeer ≠ none → p.host ∈ s.hosts
  contexts : (s.freed ++ s.hosts).Perm (List.range n)
  listening : ∀ x ∈ s.listenSockets, x.1 ∈ s.hosts
  listens : (s.closedListens ++ s.listenSockets.map Prod.snd).Perm (List.range s.opened)

theorem init_inv (loop n : ℕ) : (init loop n).Inv loop n :=
  ⟨HostLoop.init_settled loop n, by simp [init, HostLoop.init], List.Perm.refl _, by simp [init],
    List.Perm.refl _⟩

/-- `_InternalStopListening` closes the sockets of the host. -/
theorem Inv.internalStopListening (h : s.Inv loop n) (host : ℕ) :
    (s.internalStopListening host).Inv loop n ∧
      ∀ x ∈ (s.internalStopListening host).listenSockets, x.1 ≠ host := by
  refine ⟨⟨h.settled, h.alive, h.contexts, fun x hx => h.listening x (List.mem_of_mem_filter hx), ?_⟩,
    fun x hx => ?_⟩
  · refine List.Perm.trans ?_ h.listens
    rw [Hosting.internalStopListening, List.append_assoc, ← List.map_append]
    refine List.Perm.append_left _ (List.Perm.map _ ?_)
    have hperm := List.filter_append_perm (fun x : ℕ × ℕ => decide (x.1 = host)) s.listenSockets
    simpa using hperm
  · simpa using (List.mem_filter.mp hx).2

/-- **`_InternalDestroy`** of a host that is there takes it out, with its peers and sockets. -/
theorem Inv.internalDestroy (h : s.Inv loop n) (hmem : host ∈ s.hosts) :
    ∃ s', s.internalDestroy host = some s' ∧ s'.Inv loop n ∧ s'.hosts = s.hosts.erase host ∧
      s'.opened = s.opened := by
  obtain ⟨h₁, hnot⟩ := h.internalStopListening host
  obtain ⟨w', hd, hc, hempty⟩ := h₁.settled.disconnectAll_empties host
  have hw' := h₁.settled.closes hc
  have hrun : s.internalDestroy host = some { s.internalStopListening host with
      w := w'
      freed := s.freed ++ [host]
      hosts := s.hosts.erase host } := by
    simp only [Hosting.internalDestroy, guard, hmem, if_true, Option.bind_eq_bind, hd,
      hw'.usSocketContextClose hempty, Option.pure_def, Option.bind_some]
    rfl
  refine ⟨_, hrun, ⟨hw', fun q p' hp' hs => ?_, ?_, fun x hx => ?_, h₁.listens⟩, rfl, rfl⟩
  · -- a peer that is left is of another host, and was there before
    have hq := hw'.wf.mem_peersOf hp' hs
    obtain ⟨p, hp, hsp, hhost⟩ := hc.alive_before hp' hs
    have hne : p'.host ≠ host := by
      rintro rfl
      rw [hempty] at hq
      cases hq
    exact (List.mem_erase_of_ne hne).mpr (hhost ▸ h.alive q p hp hsp)
  · refine List.Perm.trans ?_ h.contexts
    rw [List.append_assoc, List.singleton_append]
    exact List.Perm.append_left _ (List.perm_cons_erase hmem).symm
  · exact (List.mem_erase_of_ne (hnot x hx)).mpr (h₁.listening x hx)

/-- **An event of the loop keeps the invariant**, if the host on which it makes a peer is there: every
other peer that is alive afterwards was alive before, on a host that is there. -/
theorem Inv.event (h : s.Inv loop n) {op : HostLoop.Op} {w : HostLoop} (hstep : s.w.step op = some w)
    (hok : op.Ok loop n) (hnew : ∀ host, op.newHost = some host → host ∈ s.hosts) :
    Inv loop n { s with w } := by
  have hf := HostLoop.step_follows h.settled hok hstep
  have hrun : s.w.run [op] = some w := foldlM_cons_eq_some.mpr ⟨w, hstep, rfl⟩
  have hw : w.Settled loop n := h.settled.run (by simpa using hok) hrun
  refine ⟨hw, fun q p' hp' hs => ?_, h.contexts, h.listening, h.listens⟩
  rcases hf.alive q p' hp' hs with ⟨p, hp, hsp, hhost⟩ | heq
  · rw [← hhost]
    exact h.alive q p hp hsp
  · exact hnew _ heq.symm

/-- **Everything that can happen keeps the invariant.** -/
theorem step_inv (h : s.Inv loop n) {op : Op} (hok : op.Ok loop n) (hstep : s.step op = some s') :
    s'.Inv loop n := by
  cases op with
  | event op =>
    cases op with
    | accept host onDisconnect onConnect =>
      rw [step] at hstep
      split_ifs at hstep with hmem
      · obtain ⟨w, hw, hs⟩ := Option.bind_eq_some_iff.mp hstep
        obtain rfl := Option.some.inj hs
        exact h.event hw hok fun host' heq => Option.some.inj heq ▸ hmem
      · obtain rfl := Option.some.inj hstep
        exact h
    | connect host onDisconnect =>
      obtain ⟨_, hguard, hstep⟩ := Option.bind_eq_some_iff.mp hstep
      obtain ⟨w, hw, hs⟩ := Option.bind_eq_some_iff.mp hstep
      obtain rfl := Option.some.inj hs
      have hmem : host ∈ s.hosts := by
        by_contra hno
        simp [guard, hno] at hguard
      exact h.event hw hok fun host' heq => Option.some.inj heq ▸ hmem
    | _ =>
      obtain ⟨w, hw, hs⟩ := Option.bind_eq_some_iff.mp hstep
      obtain rfl := Option.some.inj hs
      exact h.event hw hok fun host' heq => by cases heq
  | listen host address ipProto port listens =>
    obtain ⟨⟨s₁, result⟩, hl, rfl⟩ := Option.map_eq_some_iff.mp hstep
    obtain ⟨_, hguard, hl⟩ := Option.bind_eq_some_iff.mp hl
    have hmem : host ∈ s.hosts := by
      by_contra hno
      simp [guard, hno] at hguard
    split_ifs at hl
    · obtain ⟨rfl, -⟩ := Prod.mk.inj (Option.some.inj hl)
      refine ⟨h.settled, h.alive, h.contexts, fun x hx => ?_, ?_⟩
      · rcases List.mem_append.mp hx with hx | hx
        · exact h.listening x hx
        · rw [List.mem_singleton.mp hx]
          exact hmem
      · rw [List.map_append, ← List.append_assoc, List.range_succ]
        exact h.listens.append_right _
    · obtain ⟨rfl, -⟩ := Prod.mk.inj (Option.some.inj hl)
      exact h
  | stopListening host =>
    obtain rfl := Option.some.inj hstep
    exact (h.internalStopListening host).1
  | destroy host =>
    have hmem : host ∈ s.hosts := by
      by_contra hno
      simp [step, Hosting.internalDestroy, guard, hno] at hstep
    obtain ⟨s₁, hd, hs₁, -⟩ := h.internalDestroy hmem
    obtain rfl := Option.some.inj (hstep.symm.trans hd)
    exact hs₁

theorem run_inv (ops : List Op) (hok : ∀ op ∈ ops, op.Ok loop n) (hrun : (init loop n).run ops = some s) :
    s.Inv loop n :=
  run_invariant_along (fun _ _ _ hI (hop : Op.Ok loop n _) hstep => step_inv hI hop hstep) ops
    (init_inv loop n) (Along.of_forall_mem _ hok) hrun

/-- **The loop of `CommandDestroyHosts`.** -/
theorem Inv.destroyLoop (k : ℕ) (h : s.Inv loop n) (hk : s.hosts.length = k) :
    ∃ s', destroyLoop k s = some s' ∧ s'.Inv loop n ∧ s'.hosts = [] ∧ s'.opened = s.opened := by
  induction k generalizing s with
  | zero =>
    have hnil := List.length_eq_zero_iff.mp hk
    exact ⟨s, by simp [Hosting.destroyLoop, hnil], h, hnil, rfl⟩
  | succ k ih =>
    cases hhosts : s.hosts with
    | nil => simp [hhosts] at hk
    | cons host rest =>
      obtain ⟨s₁, hd, h₁, hs₁, hop₁⟩ := h.internalDestroy (hhosts ▸ List.mem_cons_self)
      obtain ⟨s', hloop, h', hnil, hop'⟩ := ih h₁ (by
        rw [hs₁, List.length_erase_of_mem (by simp [hhosts]), hk, Nat.add_sub_cancel])
      refine ⟨s', ?_, h', hnil, hop'.trans hop₁⟩
      simp only [Hosting.destroyLoop, hhosts, hd, Option.bind_eq_bind, Option.bind_some, hloop]

/-- **Taking down the hosts.**  Peers have come and gone on the hosts of a loop, with any callbacks, and
hosts have listened, stopped and been destroyed, in any order.  Then `CommandDestroyHosts` comes to
its end, and afterwards there is no host; every peer that ever existed has had its packets, then its
disconnect callback once and then its release once; no handle resolves to a peer and no host lists
one; every socket is closed; every listening socket that was ever opened has been closed exactly
once; and the context of every host has been freed exactly once. -/
theorem teardown (loop n : ℕ) (ops : List Op) (hok : ∀ op ∈ ops, op.Ok loop n)
    (hrun : (init loop n).run ops = some s) :
    ∃ s', s.destroyHosts = some s' ∧ s'.hosts = [] ∧
      (∀ q < s'.w.peerData.length, ∃ m,
        s'.w.history q = List.replicate m (.packet q) ++ HostLoop.closing q) ∧
      (∀ h q, s'.w.peerManager.getLocalPeerData h ≠ some (some q)) ∧
      (∀ host, s'.w.peersOf host = []) ∧ (∀ k ∈ s'.w.sockets, k.isClosed = true) ∧
      s'.listenSockets = [] ∧ s'.closedListens.Perm (List.range s.opened) ∧
      s'.freed.Perm (List.range n) := by
  obtain ⟨s', hd, h', hnil, hop⟩ := (run_inv ops hok hrun).destroyLoop _ rfl
  have hdead : ∀ (q : ℕ) (p : PeerData), s'.w.peerData[q]? = some p → p.sharedPeer = none := by
    intro q p hp
    by_contra hs
    have := h'.alive q p hp hs
    rw [hnil] at this
    cases this
  have hlist : ∀ host, s'.w.peersOf host = [] := by
    intro host
    refine List.eq_nil_iff_forall_not_mem.mpr fun q hq => ?_
    obtain ⟨p, hp, -, hs⟩ := h'.settled.wf.of_mem_peersOf hq
    exact hs (hdead q p hp)
  have hlisten : s'.listenSockets = [] := by
    refine List.eq_nil_iff_forall_not_mem.mpr fun x hx => ?_
    have := h'.listening x hx
    rw [hnil] at this
    cases this
  refine ⟨s', hd, hnil, fun q hq => ?_, fun h q hget => ?_, hlist, fun k hk => ?_, hlisten, ?_, ?_⟩
  · have hp := List.getElem?_eq_getElem hq
    exact h'.settled.closed q _ hp (hdead q _ hp)
  · obtain ⟨p, hp, hs⟩ := h'.settled.wf.slot _ q ((PeerManager.getLocalPeerData_iff h'.settled.wf.manager).mp hget).2.1
    exact hs (hdead q p hp)
  · obtain ⟨i, hi⟩ := List.mem_iff_getElem?.mp hk
    by_contra hopen
    obtain ⟨q, hq, -⟩ := h'.settled.mem_peersOf_of_open hi (Bool.eq_false_of_not_eq_true hopen)
    rw [hlist] at hq
    cases hq
  · have hl := h'.listens
    rwa [hlisten, List.map_nil, List.append_nil, hop] at hl
  · have hc := h'.contexts
    rwa [hnil, List.append_nil] at hc

/-- Two hosts that listen, the second on two ports; a peer whose callback disconnects the other host,
and one of the other host whose callback disconnects both; the second host is destroyed before. -/
def twoHosts : List Op :=
  [.listen 0 "" .IPv4 80 fun _ _ => true, .listen 1 "" .IPv6 80 fun _ _ => true,
    .event (.accept 0 [1] []), .event (.accept 1 [0, 1] []), .listen 1 "::" .IPv6 81 fun _ _ => true,
    .stopListening 1, .listen 0 "::" .IPv6 81 fun _ port => port == 81, .destroy 1]

theorem teardown_two :
    ∃ s s', (init 0 2).run twoHosts = some s ∧ s.destroyHosts = some s' ∧ s'.hosts = [] ∧
      (∀ q < s'.w.peerData.length, ∃ m,
        s'.w.history q = List.replicate m (.packet q) ++ HostLoop.closing q) ∧
      s'.closedListens.Perm [0, 1, 2, 3] ∧ s'.freed.Perm [0, 1] := by
  obtain ⟨s', hd, hnil, hpeers, -, -, -, -, hlisten, hfreed⟩ := teardown 0 2 twoHosts
    (by simp [twoHosts, Op.Ok, HostLoop.Op.Ok]) rfl
  exact ⟨_, s', rfl, hd, hnil, hpeers, hlisten, hfreed⟩

end Hosting
end ICon7
