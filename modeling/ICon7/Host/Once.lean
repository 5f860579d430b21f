/-
# Each peer is closed once

Every event of a loop leads from settled states to settled ones, but for two.  An end
of the stream, `_Internal_on_end`, calls the callback of the peer while its socket is
still open, so that a callback that comes to disconnect the host of its own peer
closes the peer a second time (`onEnd_of_reaches`); all other events close the socket
first.  Received data is cut into frames that are dispatched one after the other, and
nothing looks at the peer in between.  `_Internal_on_data` does not own the peer, so that
a handler that closes it destroys it, with the decoder that `PushData` goes on with,
after the last frame of the chunk as after any other (`pushPacket_spec`,
`onPackets_of_reaches`).

Both happen just when the callback or the handler reaches the host of the peer
(`Reaches`), so that the runs without them are those in which each peer is closed once
(`run_closedOnce_iff`), and the data events without them those in which nothing of a
closed peer is used (`data_dispatch_iff`).
-/

import ICon7.Host.Settled

namespace ICon7

open Framing Lib

/-- The event is a run of the second half of `_Internal_on_close_Finish` on the peer. -/
def Event.isRelease (q : ℕ) : Event → Bool
  | .released peer _ _ _ => peer == q
  | _ => false

namespace HostLoop

variable {w w' w₁ : HostLoop} {loop hosts q r s : ℕ} {p : PeerData} {h : PeerHandle}

/-! ### What is reached -/

/-- What is reached depends on the open peers, their callbacks and the lists of the hosts. -/
theorem reaches_congr {hs : List ℕ} {host : ℕ}
    (hp : ∀ q : ℕ, (w'.peerData[q]?).map PeerData.onDisconnect = (w.peerData[q]?).map PeerData.onDisconnect)
    (ho : ∀ q, w'.IsOpen q ↔ w.IsOpen q) (hr : w'.peerReferences = w.peerReferences) :
    w'.Reaches hs host ↔ w.Reaches hs host := by
  have hpeers : ∀ host, w'.peersOf host = w.peersOf host := fun host => by rw [peersOf, hr, peersOf]
  constructor
  · refine Reaches.mono (fun q p' hp' ho' => ⟨(ho q).mp ho', ?_⟩) fun q host _ hq => hpeers host ▸ hq
    exact Option.map_eq_some_iff.mp ((hp q).symm.trans (by rw [hp', Option.map_some]))
  · refine Reaches.mono (fun q p' hp' ho' => ⟨(ho q).mpr ho', ?_⟩) fun q host _ hq => hpeers host ▸ hq
    exact Option.map_eq_some_iff.mp ((hp q).trans (by rw [hp', Option.map_some]))

theorem isOpen_disconnecting (w : HostLoop) (q r : ℕ) : (w.disconnecting q).IsOpen r ↔ w.IsOpen r :=
  isOpen_setFlags w q _ r

theorem reaches_disconnecting {hs : List ℕ} {host : ℕ} :
    (w.disconnecting q).Reaches hs host ↔ w.Reaches hs host := by
  refine reaches_congr (fun r => ?_) (isOpen_disconnecting w q) rfl
  rw [disconnecting, record, setFlags, peerData_modifyPeer, Option.map_map]
  congr 1
  funext p
  simp only [Function.comp_apply]
  split_ifs <;> rfl

/-- While a peer of the host is open, a nest of closings has closed nothing on a way to the
host. -/
theorem Closes.reaches_iff (hc : Closes w w') (hw : w.WF) {hs : List ℕ} {host : ℕ}
    (hq : q ∈ w.peersOf host) (ho : w'.IsOpen q) : w'.Reaches hs host ↔ w.Reaches hs host := by
  refine ⟨hc.reaches hw, fun h => ?_⟩
  induction h with
  | here h => exact .here h
  | @there hs host via x px h hx hpx hxo hr ih =>
    by_cases hxo' : w'.IsOpen x
    · obtain ⟨px', t, k, hpx', -⟩ := id hxo'
      obtain ⟨px₀, hpx₀, hk⟩ := hc.kept hpx' hxo'
      obtain rfl := Option.some.inj (hpx.symm.trans hpx₀)
      exact .there h (hc.mem_peersOf hw hx hxo') hpx' hxo' (hk.onDisconnect.symm ▸ ih hq)
    · exact absurd ho (hr.closed hc (hc.callback x px hpx hxo hxo') q hq)

/-! ### The end of a stream -/

/-- The second half of `_Internal_on_close_Finish` on a cleared peer uses `sharedPeer`. -/
theorem finish_of_cleared (hp : w.peerData[q]? = some p) (hc : p.sharedPeer = none) (host : ℕ)
    (h : PeerHandle) : w.finish host h q = none := by
  have hclear : ∀ v : HostLoop, v.peerData = w.peerData → v.clearInternalDataOnClose q = none := by
    intro v hv
    cases hd : v.deref q with
    | none => simp [clearInternalDataOnClose, hd]
    | some p' =>
      obtain rfl := Option.some.inj ((peerData_of_deref hd).symm.trans (hv ▸ hp))
      simp [clearInternalDataOnClose, hd, hc]
  cases hrel : PeerReferences.release w.hostOf w.idOf host w.peerManager (w.peersOf host) h with
  | none => simp [finish, release, hrel]
  | some r => simp [finish, release, hrel, holding, hclear]

section End

variable {k : Socket} (hw : w.Settled loop hosts) (hk : w.sockets[s]? = some k)
  (ho : k.isClosed = false) (hext : k.ext = some q) (hp : w.peerData[q]? = some p)
include hw hk ho hext hp

/-- `_Internal_on_end` runs the callback on a peer that is open, and that `_peer` owns. -/
theorem onEnd_eq : p.socket = some s ∧ p.sharedPeer ≠ none ∧ w.IsOpen q ∧
    w.onEnd s = ((disconnecting { w with holders := [q] ++ w.holders } q).callback usSocketClose
      p.onDisconnect).bind fun w₂ => (w₂.finish p.host p.peerHandle q).bind fun w₃ =>
        (w₃.usSocketClose s).bind fun w' => some { w' with holders := w.holders } := by
  obtain ⟨q', p', hext', hp', hs, hsh, hopen, -⟩ := hw.peer_of_socket hk ho
  obtain rfl := Option.some.inj (hext.symm.trans hext')
  obtain rfl := Option.some.inj (hp.symm.trans hp')
  have hkh : k.host = p.host := by
    obtain ⟨k', hk', -, hkh⟩ := hw.wf.socket_of_peer hp hs
    obtain rfl := Option.some.inj (hk.symm.trans hk')
    exact hkh
  refine ⟨hs, hsh, hopen, ?_⟩
  simp only [onEnd, hk, hext, hw.wf.deref_of_alive hp hsh, HostLoop.holding, Option.bind_eq_bind,
    Option.bind_some, onCloseFinish_eq (hw.wf.holders ([q] ++ w.holders)) hp hsh, hkh, Option.bind_assoc,
    Option.pure_def]

/-- **An end of the stream closes the peer a second time** when its callback reaches its own
host: the second half of `_Internal_on_close_Finish` then finds it cleared. -/
theorem onEnd_of_reaches (hreach : w.Reaches p.onDisconnect p.host) : w.onEnd s = none := by
  obtain ⟨hs, hsh, hopen, heq⟩ := onEnd_eq hw hk ho hext hp
  set u : HostLoop := { w with holders := [q] ++ w.holders } with hu
  have huw : u.WF := hw.wf.holders _
  obtain ⟨w₂, hcb, hc, hswept, -⟩ := callback_spec (usSocketClose_spec _) p.onDisconnect
    (disconnecting_wf huw q) le_rfl
  obtain ⟨p₁, hp₁, -⟩ := disconnecting_peer (w := u) hp
  have hclosed := (reaches_disconnecting.mpr (reaches_holders.mpr hreach)).closed hc hswept q
    (hw.wf.mem_peersOf hp hsh)
  have hp₂ := List.getElem?_eq_getElem (l := w₂.peerData) (i := q) (by
    rw [hc.peers]
    exact (List.getElem?_eq_some_iff.mp hp₁).1)
  rcases hc.peer q p₁ _ hp₁ hp₂ with ⟨-, hiff, -⟩ | ⟨-, hcl, -⟩
  · exact absurd (hiff.mpr ((isOpen_disconnecting u q q).mpr hopen)) hclosed
  · rw [heq, hcb, Option.bind_some, finish_of_cleared hp₂ hcl, Option.bind_none]

/-- **Otherwise it is a nest of closings.** -/
theorem onEnd_of_not_reaches (hno : ¬w.Reaches p.onDisconnect p.host) :
    ∃ w', w.onEnd s = some w' ∧ Closes w w' := by
  obtain ⟨hs, hsh, hopen, heq⟩ := onEnd_eq hw hk ho hext hp
  set u : HostLoop := { w with holders := [q] ++ w.holders } with hu
  have huw : u.WF := hw.wf.holders _
  obtain ⟨w₂, hcb, hc, hswept, honly⟩ := callback_spec (usSocketClose_spec _) p.onDisconnect
    (disconnecting_wf huw q) le_rfl
  obtain ⟨p₁, hp₁, hk₁⟩ := disconnecting_peer (w := u) hp
  have hopen₁ : (u.disconnecting q).IsOpen q := (isOpen_disconnecting u q q).mpr hopen
  have hopen₂ : w₂.IsOpen q := by
    by_contra hclosed
    have hreach := reaches_holders.mp (reaches_disconnecting.mp (honly q hopen₁ hclosed))
    rw [HostLoop.hostOf, hp₁, Option.map_some, Option.getD_some, hk₁.host] at hreach
    exact hno hreach
  obtain ⟨p₂, hp₂, hk₂, hh₂⟩ := hc.left_alone hp₁ fun _ => hopen₂
  obtain ⟨p₂', t, k₂, hp₂', ht, hkt, hkc⟩ := id hopen₂
  obtain rfl := Option.some.inj (hp₂.symm.trans hp₂')
  have hkept := hk₁.trans hk₂
  obtain rfl : s = t := Option.some.inj (hs.symm.trans (hkept.socket.symm.trans ht))
  obtain ⟨w₃, hfin, hf⟩ := finish_of_kept hc.wf hp₂ hkept hs
  -- the socket is open still, and has no peer any more
  have hk₃ : w₃.sockets[s]? = some { k₂ with ext := none } := by
    rw [hf.sockets, List.getElem?_modify_eq, hkt]
    rfl
  have hcl : w₃.usSocketClose s = some (w₃.modifySocket s fun k => { k with isClosed := true }) := by
    have hk₃' : (w₃.modifySocket s fun k => { k with isClosed := true }).sockets[s]? =
        some { k₂ with isClosed := true, ext := none } := by
      rw [sockets_modifySocket, hk₃, Option.map_some, if_pos rfl]
    simp [usSocketClose, usSocketCloseNested, hk₃, hkc, onClose, hk₃']
  have he : Ends w₂ (w₃.modifySocket s fun k => { k with isClosed := true }) q s := by
    refine ⟨markClosed_wf hf.wf s, hf.loop, hf.hosts, hf.peerData, ?_, fun t ht => ?_,
      fun k' hk' => ?_, hf.events⟩
    · rw [modifySocket, List.length_modify, hf.sockets, List.length_modify]
    · rw [modifySocket, List.getElem?_modify_ne _ _ ht.symm, hf.sockets,
        List.getElem?_modify_ne _ _ ht.symm]
    · rw [sockets_modifySocket, hk₃, Option.map_some, if_pos rfl] at hk'
      rw [← Option.some.inj hk']
  have hcount := openCount_modifySocket hk₃ hkc
  have hle : w₂.openCount ≤ u.openCount := hc.openCount_le
  have := hf.openCount_eq
  have hcc : Closes u (w₃.modifySocket s fun k => { k with isClosed := true }) :=
    Closes.of_callback huw hp hs hopen (disconnecting_begins u q s) hc hswept hp₂ ht hh₂ he
      (hf.holders.trans hc.holders) (by omega)
  exact ⟨_, by rw [heq, hcb, Option.bind_some, hfin, Option.bind_some, hcl, Option.bind_some], hcc.holding⟩

end End

/-! ### Received data -/

/-- The dispatch of a frame to an open peer is logged. -/
theorem Settled.packet (hw : w.Settled loop hosts) (ho : w.IsOpen q) :
    (w.record (.packet q)).Settled loop hosts := by
  have hhist : ∀ r, (w.record (.packet q)).history r =
      if q = r then w.history r ++ [.packet q] else w.history r := history_record w (.packet q)
  refine ⟨record_wf hw.wf _, hw.holders, hw.loop_eq, hw.hosts_eq, hw.isOpen, hw.ext, hw.held, fun r p hp hs => ?_,
    fun r p hp hs => ?_, fun r hr => ?_⟩
  · obtain ⟨n, hn⟩ := hw.opened r p hp hs
    rw [hhist]
    rcases eq_or_ne q r with rfl | hne
    · exact ⟨n + 1, by rw [if_pos rfl, hn, List.replicate_succ']⟩
    · exact ⟨n, by rw [if_neg hne, hn]⟩
  · have hne : q ≠ r := by
      rintro rfl
      exact hw.wf.not_isOpen hp hs ho
    rw [hhist, if_neg hne]
    exact hw.closed r p hp hs
  · have hne : q ≠ r := by
      rintro rfl
      obtain ⟨p, t, k, hp, -⟩ := ho
      have hr : w.peerData.length ≤ q := hr
      simp [List.getElem?_eq_none hr] at hp
    rw [hhist, if_neg hne]
    exact hw.unborn r hr

/-- **The dispatch of a frame** to an open peer closes the peer just when it reaches its host. -/
theorem onPacket_spec (hw : w.Settled loop hosts) (ho : w.IsOpen q) {host : ℕ}
    (hq : q ∈ w.peersOf host) (d : List ℕ) :
    ∃ w', w.onPacket q d = some w' ∧ w'.Settled loop hosts ∧ (w.Reaches d host → ¬w'.IsOpen q) ∧
      (¬w.Reaches d host → w'.IsOpen q ∧ q ∈ w'.peersOf host ∧
        ∀ d', w'.Reaches d' host ↔ w.Reaches d' host) := by
  have hw₁ := hw.packet ho
  have hreaches : ∀ d, (w.record (.packet q)).Reaches d host ↔ w.Reaches d host := fun d =>
    reaches_congr (fun _ => rfl) (fun _ => Iff.rfl) rfl
  obtain ⟨w', hcb, hc, hswept, honly⟩ := callback_spec (usSocketClose_spec _) d hw₁.wf le_rfl
  obtain ⟨p, hp, rfl, hs⟩ := hw.wf.of_mem_peersOf hq
  obtain ⟨f, hf⟩ := Option.ne_none_iff_exists'.mp hs
  refine ⟨w', by simp only [onPacket, hw.wf.deref_of_alive hp hs, hf, Option.bind_eq_bind, Option.bind_some, hcb],
    hw₁.closes hc, fun hreach => ?_, fun hno => ?_⟩
  · exact ((hreaches d).mpr hreach).closed hc hswept q hq
  · have ho' : w'.IsOpen q := by
      by_contra hclosed
      have hreach := (honly q ho hclosed)
      rw [HostLoop.hostOf, show (w.record (.packet q)).peerData[q]? = some p from hp, Option.map_some,
        Option.getD_some] at hreach
      exact hno ((hreaches d).mp hreach)
    exact ⟨ho', hc.mem_peersOf hw₁.wf hq ho', fun d' =>
      (hc.reaches_iff hw₁.wf hq ho').trans (hreaches d')⟩

/-- **A frame in `PushData`:** a handler that reaches the host of the peer leaves `PushData` with a
decoder that is destroyed, and any other leaves the peer open. -/
theorem pushPacket_spec (hw : w.Settled loop hosts) (ho : w.IsOpen q) {host : ℕ}
    (hq : q ∈ w.peersOf host) (d : List ℕ) :
    (w.Reaches d host → w.pushPacket q d = none) ∧
      (¬w.Reaches d host → ∃ w', w.pushPacket q d = some w' ∧ w'.Settled loop hosts ∧ w'.IsOpen q ∧
        q ∈ w'.peersOf host ∧ ∀ d', w'.Reaches d' host ↔ w.Reaches d' host) := by
  obtain ⟨w', hpk, hw', hclosed, hopen⟩ := onPacket_spec hw ho hq d
  constructor
  · intro hreach
    have hdead : w'.deref q = none := by
      cases hp : w'.peerData[q]? with
      | none => simp [deref, hp]
      | some p =>
        refine hw'.wf.deref_of_cleared hp ?_ (by simp [hw'.holders])
        by_contra hs
        exact hclosed hreach (hw'.isOpen q p hp hs)
    simp only [pushPacket, hpk, hdead, Option.bind_eq_bind, Option.bind_some, Option.bind_none]
  · intro hno
    obtain ⟨ho', hq', hiff⟩ := hopen hno
    obtain ⟨p, hp, -, hs⟩ := hw'.wf.of_mem_peersOf hq'
    refine ⟨w', ?_, hw', ho', hq', hiff⟩
    simp only [pushPacket, hpk, hw'.wf.deref_of_alive hp hs, Option.bind_eq_bind, Option.bind_some,
      Option.pure_def]

/-- **Dispatching the frames of a chunk** while none reaches the host of the peer. -/
theorem onPackets_of_not_reaches (ds : List (List ℕ)) (hw : w.Settled loop hosts) (ho : w.IsOpen q)
    {host : ℕ} (hq : q ∈ w.peersOf host) (hno : ∀ d ∈ ds, ¬w.Reaches d host) :
    ∃ w', w.onPackets q ds = some w' ∧ w'.Settled loop hosts := by
  induction ds generalizing w with
  | nil => exact ⟨w, rfl, hw⟩
  | cons d ds ih =>
    obtain ⟨w₁, hpk, hw₁, ho₁, hq₁, hreach⟩ :=
      (pushPacket_spec hw ho hq d).2 (hno d List.mem_cons_self)
    obtain ⟨w', hrun, hw'⟩ := ih hw₁ ho₁ hq₁ fun d' hd' => by
      rw [hreach]
      exact hno d' (List.mem_cons_of_mem _ hd')
    exact ⟨w', foldlM_cons_eq_some.mpr ⟨w₁, hpk, hrun⟩, hw'⟩

/-- **A frame that reaches the host of the peer**, the last one too, is followed by a use of the
destroyed decoder. -/
theorem onPackets_of_reaches (ds : List (List ℕ)) (hw : w.Settled loop hosts) (ho : w.IsOpen q)
    {host : ℕ} (hq : q ∈ w.peersOf host) {d : List ℕ} (hd : d ∈ ds) (hreach : w.Reaches d host) :
    w.onPackets q ds = none := by
  induction ds generalizing w with
  | nil => cases hd
  | cons d₀ ds ih =>
    obtain ⟨hnone, hsome⟩ := pushPacket_spec hw ho hq d₀
    by_cases hreach₀ : w.Reaches d₀ host
    · simp only [onPackets, List.foldlM_cons, hnone hreach₀, Option.bind_eq_bind, Option.bind_none]
    · obtain ⟨w₁, hpk, hw₁, ho₁, hq₁, hiff⟩ := hsome hreach₀
      have heq : w.onPackets q (d₀ :: ds) = w₁.onPackets q ds := by
        simp only [onPackets, List.foldlM_cons, hpk, Option.bind_eq_bind, Option.bind_some]
      rcases List.mem_cons.mp hd with rfl | hd
      · exact absurd hreach hreach₀
      · exact heq.trans (ih hw₁ ho₁ hq₁ hd ((hiff d).mpr hreach))

/-- What `_Internal_on_data` dispatches, and from which state. -/
theorem onData_eq {k : Socket} (hw : w.Settled loop hosts) (hk : w.sockets[s]? = some k)
    (ho : k.isClosed = false) (hext : k.ext = some q) (hp : w.peerData[q]? = some p) (chunk : Chunk)
    (handlers : ℕ → List ℕ) :
    ∃ (dec : FrameDecoder) (packets : List Packet) (w₁ : HostLoop),
      p.frameDecoder.pushData chunk = some (dec, packets) ∧
      w.onData s chunk handlers =
        w₁.onPackets q (packets.mapIdx fun i packet => dispatched packet (handlers i)) ∧
      w₁.Settled loop hosts ∧ w₁.IsOpen q ∧ q ∈ w₁.peersOf p.host ∧
      ∀ d, w₁.Reaches d p.host ↔ w.Reaches d p.host := by
  obtain ⟨q', p', hext', hp', -, hsh, hopen, -⟩ := hw.peer_of_socket hk ho
  obtain rfl := Option.some.inj (hext.symm.trans hext')
  obtain rfl := Option.some.inj (hp.symm.trans hp')
  obtain ⟨f, hf⟩ := Option.ne_none_iff_exists'.mp hsh
  obtain ⟨held, hheld, hlen⟩ := hw.held q p hp hsh
  have hpush := FrameDecoder.pushData_eq_cut held chunk hlen
  rw [← hheld] at hpush
  have hopen₁ := isOpen_modifyPeer (f := fun p : PeerData =>
    { p with frameDecoder := (FrameDecoder.cut (held ++ chunk.1)).1 }) (fun _ => rfl) w q
  refine ⟨_, _, w.modifyPeer q fun p => { p with frameDecoder := (FrameDecoder.cut (held ++ chunk.1)).1 },
    hpush, ?_, hw.modifyPeer q (fun _ => rfl) fun _ _ _ => ⟨_, rfl, fun n hn =>
      Lib.Delimiter.parse_rest_lt _ hn⟩,
    (hopen₁ q).mpr hopen, hw.wf.mem_peersOf hp hsh, fun d => reaches_congr (fun r => ?_) hopen₁ rfl⟩
  · simp only [onData, hk, hext, hw.wf.deref_of_alive hp hsh, hf, hpush, Option.bind_eq_bind, Option.bind_some]
    rfl
  · rw [peerData_modifyPeer, Option.map_map]
    congr 1
    funext p
    simp only [Function.comp_apply]
    split_ifs <;> rfl

/-! ### Runs -/

/-- The hosts are those of the loop, and so are the handles. -/
def Op.Ok (loop hosts : ℕ) : Op → Prop
  | .accept host _ _ | .connect host _ => host < hosts
  | .executeDisconnect h | .setOnDisconnect h _ | .send h => h.loop = some loop
  | _ => True

/-- No callback of an ended stream reaches the host of its own peer, and no handler of a complete
frame of a received chunk does. -/
def Safe (w : HostLoop) : Op → Prop
  | .ended s => ∀ (k : Socket) (q : ℕ) (p : PeerData), w.sockets[s]? = some k → k.isClosed = false →
      k.ext = some q → w.peerData[q]? = some p → ¬w.Reaches p.onDisconnect p.host
  | .data s chunk handlers => ∀ (k : Socket) (q : ℕ) (p : PeerData) (dec : FrameDecoder)
      (packets : List Packet), w.sockets[s]? = some k → k.isClosed = false → k.ext = some q →
      w.peerData[q]? = some p → p.frameDecoder.pushData chunk = some (dec, packets) →
      ∀ d ∈ packets.mapIdx fun i packet => dispatched packet (handlers i), ¬w.Reaches d p.host
  | _ => True

/-- An event on a socket that is open or not. -/
theorem onSocket_cases (w : HostLoop) (s : ℕ) (f : HostLoop → Option HostLoop) :
    (∃ k, w.sockets[s]? = some k ∧ k.isClosed = false ∧ w.onSocket s f = f w) ∨
      ((∀ k, w.sockets[s]? = some k → k.isClosed = true) ∧ w.onSocket s f = some w) := by
  cases hk : w.sockets[s]? with
  | none => exact .inr ⟨by simp, by simp [onSocket, hk]⟩
  | some k =>
    cases hc : k.isClosed with
    | false => exact .inl ⟨k, rfl, hc, by simp [onSocket, hk, hc]⟩
    | true => exact .inr ⟨fun k' hk' => Option.some.inj hk' ▸ hc, by simp [onSocket, hk, hc]⟩

/-- An event on a socket keeps the state settled when it does on an open one. -/
theorem Settled.onSocket (hw : w.Settled loop hosts) {f : HostLoop → Option HostLoop}
    (hf : ∀ k, w.sockets[s]? = some k → k.isClosed = false →
      ∃ w', f w = some w' ∧ w'.Settled loop hosts) :
    ∃ w', w.onSocket s f = some w' ∧ w'.Settled loop hosts := by
  rcases onSocket_cases w s f with ⟨k, hk, ho, heq⟩ | ⟨-, heq⟩
  · rw [heq]
    exact hf k hk ho
  · exact ⟨w, heq, hw⟩

/-- The opening of a socket is a nest of closings. -/
theorem Settled.onOpen (hw : w.Settled loop hosts) {k : Socket} (hk : w.sockets[s]? = some k)
    (ho : k.isClosed = false) (onConnect : List ℕ) :
    ∃ w', w.onOpen s onConnect = some w' ∧ Closes w w' := by
  obtain ⟨q, p, hext, hp, -, hsh, -, hl⟩ := hw.peer_of_socket hk ho
  obtain ⟨w', hopen, hc⟩ := hw.onOpenFinish hl q onConnect
  exact ⟨w', by simp only [HostLoop.onOpen, hk, hext, hw.wf.deref_of_alive hp hsh, Option.bind_eq_bind,
    Option.bind_some, hopen], hc⟩

/-- **Safe events keep the state settled.** -/
theorem step_of_safe (w : HostLoop) (op : Op) (hw : w.Settled loop hosts) (hok : op.Ok loop hosts)
    (hsafe : w.Safe op) :
    ∃ w', w.step op = some w' ∧ w'.Settled loop hosts := by
  cases op with
  | accept host onDisconnect onConnect =>
    obtain ⟨w₁, h, hmake, hw₁, hl⟩ := makePeer_spec hw hok onDisconnect
    obtain ⟨w', hopen, hc⟩ := hw₁.onOpenFinish hl w.peerData.length onConnect
    exact ⟨w', by simp only [step, onAccept, hmake, Option.bind_eq_bind, Option.bind_some, hopen],
      hw₁.closes hc⟩
  | connect host onDisconnect =>
    obtain ⟨w₁, h, hmake, hw₁, -⟩ := makePeer_spec hw hok onDisconnect
    exact ⟨w₁, by simp only [step, hmake, Option.bind_eq_bind, Option.bind_some, Option.pure_def], hw₁⟩
  | opened s onConnect =>
    simp only [step]
    refine hw.onSocket fun k hk ho => ?_
    obtain ⟨w', hopen, hc⟩ := hw.onOpen hk ho onConnect
    exact ⟨w', hopen, hw.closes hc⟩
  | ended s =>
    simp only [step]
    refine hw.onSocket fun k hk ho => ?_
    obtain ⟨q, p, hext, hp, -⟩ := hw.peer_of_socket hk ho
    obtain ⟨w', hend, hc⟩ := onEnd_of_not_reaches hw hk ho hext hp (hsafe k q p hk ho hext hp)
    exact ⟨w', hend, hw.closes hc⟩
  | closed s =>
    simp only [step]
    exact hw.onSocket fun k hk _ => hw.usSocketClose (List.getElem?_eq_some_iff.mp hk).1
  | timeout s isEstablished isShutDown =>
    simp only [step]
    exact hw.onSocket fun k hk ho => hw.onTimeout hk ho isEstablished isShutDown
  | longTimeout s =>
    simp only [step]
    refine hw.onSocket fun k hk ho => ?_
    obtain ⟨q, p, hext, hp, -, hs, -⟩ := hw.peer_of_socket hk ho
    obtain ⟨w', hd, hw', -⟩ := hw.internalDisconnect hp hs
    exact ⟨w', by simp only [onLongTimeout, hk, hext, Option.bind_eq_bind, Option.bind_some, hd], hw'⟩
  | data s chunk handlers =>
    simp only [step]
    refine hw.onSocket fun k hk ho => ?_
    obtain ⟨q, p, hext, hp, -⟩ := hw.peer_of_socket hk ho
    obtain ⟨dec, packets, w₁, hpush, heq, hw₁, ho₁, hq₁, hreach⟩ :=
      onData_eq hw hk ho hext hp chunk handlers
    rw [heq]
    exact onPackets_of_not_reaches _ hw₁ ho₁ hq₁ fun d hd => by
      rw [hreach]
      exact hsafe k q p dec packets hk ho hext hp hpush d hd
  | executeDisconnect h => exact hw.executeDisconnect hok
  | disconnectAll host =>
    obtain ⟨w', hd, hc, -⟩ := disconnectAll_spec (usSocketClose_spec _) hw.wf le_rfl host
    exact ⟨w', hd, hw.closes hc⟩
  | setOnDisconnect h onDisconnect => exact hw.setOnDisconnect hok onDisconnect
  | send h => exact hw.send hok

/-- **Events that are not safe** use `sharedPeer` after it is emptied, or a destroyed peer. -/
theorem step_of_not_safe (w : HostLoop) (op : Op) (hw : w.Settled loop hosts) (hno : ¬w.Safe op) :
    w.step op = none := by
  cases op with
  | ended s =>
    simp only [Safe, not_forall, not_not] at hno
    obtain ⟨k, q, p, hk, ho, hext, hp, hreach⟩ := hno
    simp only [step, onSocket, hk, ho, Bool.false_eq_true, if_false]
    exact onEnd_of_reaches hw hk ho hext hp hreach
  | data s chunk handlers =>
    simp only [Safe, not_forall, not_not] at hno
    obtain ⟨k, q, p, dec, packets, hk, ho, hext, hp, hpush, d, hd, hreach⟩ := hno
    obtain ⟨dec', packets', w₁, hpush', heq, hw₁, ho₁, hq₁, hiff⟩ :=
      onData_eq hw hk ho hext hp chunk handlers
    obtain ⟨-, rfl⟩ := Prod.mk.inj (Option.some.inj (hpush.symm.trans hpush'))
    simp only [step, onSocket, hk, ho, Bool.false_eq_true, if_false]
    rw [heq]
    exact onPackets_of_reaches _ hw₁ ho₁ hq₁ hd ((hiff d).mpr hreach)
  | _ => exact absurd trivial hno

/-- Every state that a run reaches is settled. -/
theorem Settled.run {w₀ : HostLoop} (hw : w₀.Settled loop hosts) {ops : List Op}
    (hok : ∀ op ∈ ops, op.Ok loop hosts) (hrun : w₀.run ops = some w) : w.Settled loop hosts :=
  run_inv_of_safe step_of_safe (fun w op hw _ => step_of_not_safe w op hw) ops hw hok hrun

theorem run_settled {ops : List Op} (hok : ∀ op ∈ ops, op.Ok loop hosts)
    (hrun : (init loop hosts).run ops = some w) : w.Settled loop hosts :=
  (init_settled loop hosts).run hok hrun

/-! ### Closed once -/

/-- **Each peer is closed at most once:** its callback has run at most once, and so has the
second half of `_Internal_on_close_Finish`, right after which its handle does not resolve, it is
in no list, and its id is not in `peersToFlush`; and no host or handle finds it again. -/
def ClosedOnce (w : HostLoop) : Prop :=
  ∀ q, w.events.count (.disconnected q) ≤ 1 ∧ w.events.countP (Event.isRelease q) ≤ 1 ∧
    ∀ resolves listed toFlush, .released q resolves listed toFlush ∈ w.events →
      resolves = false ∧ listed = false ∧ toFlush = false ∧ (∀ host, q ∉ w.peersOf host) ∧
        ∀ h, w.peerManager.getLocalPeerData h ≠ some (some q)

/-- What has been logged of a peer. -/
theorem Settled.history_cases (hw : w.Settled loop hosts) (q : ℕ) :
    (∃ n, w.history q = List.replicate n (.packet q)) ∨
      ∃ n p, w.history q = List.replicate n (.packet q) ++ closing q ∧ w.peerData[q]? = some p ∧
        p.sharedPeer = none := by
  cases hp : w.peerData[q]? with
  | none => exact .inl ⟨0, hw.unborn q (List.getElem?_eq_none_iff.mp hp)⟩
  | some p =>
    by_cases hs : p.sharedPeer = none
    · obtain ⟨n, hn⟩ := hw.closed q p hp hs
      exact .inr ⟨n, p, hn, rfl, hs⟩
    · exact .inl (hw.opened q p hp hs)

theorem count_disconnected (w : HostLoop) (q : ℕ) :
    w.events.count (.disconnected q) = (w.history q).count (.disconnected q) := by
  rw [history, List.count_filter (by simp [Event.peer])]

theorem countP_isRelease (w : HostLoop) (q : ℕ) :
    w.events.countP (Event.isRelease q) = (w.history q).countP (Event.isRelease q) := by
  rw [history, List.countP_filter]
  refine List.countP_congr fun e _ => ?_
  cases e with
  | released peer resolves listed toFlush =>
    simp only [Event.isRelease, Event.peer, beq_iff_eq, Bool.and_eq_true]
    exact ⟨fun h => ⟨h, decide_eq_true h⟩, And.left⟩
  | _ => simp [Event.isRelease]

theorem Settled.closedOnce (hw : w.Settled loop hosts) : w.ClosedOnce := by
  intro q
  rw [count_disconnected, countP_isRelease]
  have hmem : ∀ a b c, .released q a b c ∈ w.events → .released q a b c ∈ w.history q :=
    fun a b c he => List.mem_filter.mpr ⟨he, by simp [Event.peer]⟩
  rcases hw.history_cases q with ⟨n, hn⟩ | ⟨n, p, hn, hp, hs⟩
  · rw [hn]
    refine ⟨by simp [List.count_replicate], by simp [List.countP_replicate, Event.isRelease],
      fun a b c he => ?_⟩
    have := hmem a b c he
    rw [hn] at this
    simp [List.mem_replicate] at this
  · rw [hn]
    refine ⟨by simp [List.count_replicate, closing],
      by simp [List.countP_replicate, Event.isRelease, closing], fun a b c he => ?_⟩
    have := hmem a b c he
    rw [hn] at this
    obtain ⟨rfl, rfl, rfl⟩ : a = false ∧ b = false ∧ c = false := by
      simpa [List.mem_replicate, closing] using this
    refine ⟨rfl, rfl, rfl, fun host hq => ?_, fun h hget => ?_⟩
    · obtain ⟨p', hp', -, hs'⟩ := hw.wf.of_mem_peersOf hq
      exact hs' (Option.some.inj (hp.symm.trans hp') ▸ hs)
    · obtain ⟨p', hp', hs'⟩ := hw.wf.slot _ q ((PeerManager.getLocalPeerData_iff hw.wf.manager).mp hget).2.1
      exact hs' (Option.some.inj (hp.symm.trans hp') ▸ hs)

/-- **Each peer is closed once if and only if no callback of an ended stream comes to disconnect
the host of its own peer** (and no handler of a received frame does), over every run of the events
and commands of a loop. -/
theorem run_closedOnce_iff (loop hosts : ℕ) (ops : List Op) (hok : ∀ op ∈ ops, op.Ok loop hosts) :
    (∃ w, (init loop hosts).run ops = some w ∧ w.ClosedOnce) ↔
      ∀ pre op post u, ops = pre ++ op :: post → (init loop hosts).run pre = some u → u.Safe op := by
  have hiff := run_iff_safe step_of_safe (fun w op hw _ => step_of_not_safe w op hw) ops
    (init_settled loop hosts) hok
  refine Iff.trans ⟨?_, ?_⟩ hiff
  · rintro ⟨w, hrun, -⟩
    exact ⟨w, hrun, run_settled hok hrun⟩
  · rintro ⟨w, hrun, hw⟩
    exact ⟨w, hrun, hw.closedOnce⟩

/-- Two hosts with a peer each, and a callback that disconnects the other host. -/
def crossOps : List Op := [.accept 0 [1] [], .accept 1 [] [], .ended 0, .closed 1]

theorem run_closedOnce_iff_cross :
    (∀ op ∈ crossOps, op.Ok 0 2) ∧ ((init 0 2).run crossOps).isSome ∧
      ∀ pre op post u, crossOps = pre ++ op :: post → (init 0 2).run pre = some u → u.Safe op := by
  have hok : ∀ op ∈ crossOps, op.Ok 0 2 := by simp [crossOps, Op.Ok]
  have hsome : ((init 0 2).run crossOps).isSome := by decide
  obtain ⟨w, hw⟩ := Option.isSome_iff_exists.mp hsome
  exact ⟨hok, hsome, (run_closedOnce_iff 0 2 crossOps hok).mp ⟨w, hw, (run_settled hok hw).closedOnce⟩⟩

/-- One peer whose callback disconnects its own host: when its stream ends, the callback runs
twice, and the second half of `_Internal_on_close_Finish` is left with an empty `sharedPeer`. -/
theorem end_closes_twice :
    (∃ u v, (init 0 1).run [.accept 0 [0] []] = some u ∧
      (u.disconnecting 0).callback usSocketClose [0] = some v ∧
      v.events = [.disconnected 0, .disconnected 0, .released 0 false false false] ∧
      (v.peerData[0]?).map PeerData.sharedPeer = some none) ∧
    (init 0 1).run [.accept 0 [0] [], .ended 0] = none := by
  refine ⟨⟨_, _, rfl, rfl, ?_, ?_⟩, ?_⟩ <;> decide

/-! ### No dispatch after close -/

/-- **No frame is dispatched to a peer after it has been closed.** -/
def DispatchesBeforeClose (w : HostLoop) : Prop :=
  ∀ q, w.events.Pairwise fun e e' => e.isRelease q = true → e' ≠ .packet q

theorem Settled.dispatchesBeforeClose (hw : w.Settled loop hosts) : w.DispatchesBeforeClose := by
  intro q
  have hpeer : ∀ e : Event, e.isRelease q = true → e.peer = q := by
    intro e he
    cases e <;> simp_all [Event.isRelease, Event.peer]
  have hhist : (w.history q).Pairwise fun e e' => e.isRelease q = true → e' ≠ .packet q := by
    rcases hw.history_cases q with ⟨n, hn⟩ | ⟨n, p, hn, -⟩
    · rw [hn]
      exact List.pairwise_replicate.mpr (.inr (by simp [Event.isRelease]))
    · rw [hn, List.pairwise_append]
      refine ⟨List.pairwise_replicate.mpr (.inr (by simp [Event.isRelease])), by simp [closing],
        fun e he e' _ hr => ?_⟩
      rw [List.eq_of_mem_replicate he] at hr
      simp [Event.isRelease] at hr
  rw [history, List.pairwise_filter] at hhist
  refine hhist.imp fun {e e'} himp hr heq => ?_
  exact himp (by simpa using hpeer e hr) (by simp [heq, Event.peer]) hr heq

/-- **Nothing of a closed peer is used if and only if no handler closes the peer:** in every state
that a run reaches and for every chunk that an open socket receives, all frames are dispatched, to
a peer that is not closed, and `PushData` returns just when the handlers of all complete frames of
the chunk leave the host of the peer alone. -/
theorem data_dispatch_iff {ops : List Op} (hok : ∀ op ∈ ops, op.Ok loop hosts)
    (hrun : (init loop hosts).run ops = some w) {k : Socket} (hk : w.sockets[s]? = some k)
    (ho : k.isClosed = false) (hext : k.ext = some q) (hp : w.peerData[q]? = some p) (chunk : Chunk)
    (handlers : ℕ → List ℕ) :
    ∃ (dec : FrameDecoder) (packets : List Packet),
      p.frameDecoder.pushData chunk = some (dec, packets) ∧
      ((∃ w', w.step (.data s chunk handlers) = some w' ∧ w'.DispatchesBeforeClose) ↔
        ∀ (i : ℕ) (packet : Packet), packets[i]? = some packet →
          ¬w.Reaches (dispatched packet (handlers i)) p.host) := by
  have hw := run_settled hok hrun
  obtain ⟨dec, packets, w₁, hpush, heq, hw₁, ho₁, hq₁, hiff⟩ :=
    onData_eq hw hk ho hext hp chunk handlers
  have hstep : w.step (.data s chunk handlers) = w.onData s chunk handlers := by
    simp only [step, onSocket, hk, ho, Bool.false_eq_true, if_false]
  have hmem : ∀ d, d ∈ packets.mapIdx (fun i packet => dispatched packet (handlers i)) ↔
      ∃ (i : ℕ) (packet : Packet), packets[i]? = some packet ∧ dispatched packet (handlers i) = d := by
    intro d
    rw [List.mem_iff_getElem?]
    refine exists_congr fun i => ?_
    rw [List.getElem?_mapIdx, Option.map_eq_some_iff]
  refine ⟨dec, packets, hpush, ?_⟩
  rw [hstep, heq]
  constructor
  · rintro ⟨w', hrun', -⟩ i packet hi hreach
    have hd := (hmem _).mpr ⟨i, packet, hi, rfl⟩
    rw [onPackets_of_reaches _ hw₁ ho₁ hq₁ hd ((hiff _).mpr hreach)] at hrun'
    simp at hrun'
  · intro hno
    obtain ⟨w', hrun', hw'⟩ := onPackets_of_not_reaches _ hw₁ ho₁ hq₁ fun d hd => by
      obtain ⟨i, packet, hi, rfl⟩ := (hmem d).mp hd
      rw [hiff]
      exact hno i packet hi
    exact ⟨w', hrun', hw'.dispatchesBeforeClose⟩

/-- A chunk with two frames, each with a body of three bytes. -/
def twoFrames : Chunk := ⟨[0x20, 7, 8, 9, 0x20, 7, 8, 9], by decide⟩

/-- The first of them. -/
def oneFrame : Chunk := ⟨[0x20, 7, 8, 9], by decide⟩

/-- Two hosts with a peer each. -/
def twoPeers : List Op := [.accept 0 [] [], .accept 1 [] []]

/-- A handler of the first frame that disconnects the other host. -/
theorem data_dispatch_iff_cross :
    ∃ w p, (init 0 2).run twoPeers = some w ∧ w.peerData[0]? = some p ∧
      (w.step (.data 0 twoFrames fun i => if i = 0 then [1] else [])).isSome ∧
      ∃ (dec : FrameDecoder) (packets : List Packet),
        p.frameDecoder.pushData twoFrames = some (dec, packets) ∧
        ((∃ w', w.step (.data 0 twoFrames fun i => if i = 0 then [1] else []) = some w' ∧
            w'.DispatchesBeforeClose) ↔
          ∀ (i : ℕ) (packet : Packet), packets[i]? = some packet →
            ¬w.Reaches (dispatched packet (if i = 0 then [1] else [])) p.host) := by
  have hok : ∀ op ∈ twoPeers, op.Ok 0 2 := by simp [twoPeers, Op.Ok]
  exact ⟨_, _, rfl, rfl, by decide +kernel, data_dispatch_iff hok rfl rfl rfl rfl rfl twoFrames _⟩

/-- A handler of the first frame that disconnects its own host: the peer is closed, its `sharedPeer`
empty and its object destroyed when `PushData` goes on, to the dispatch of a second frame or to the end
of the chunk. -/
theorem data_dispatch_after_close :
    (∃ u v, (init 0 1).run [.accept 0 [] []] = some u ∧ u.onPacket 0 [0] = some v ∧
      v.events = [.packet 0, .disconnected 0, .released 0 false false false] ∧
      (v.peerData[0]?).map PeerData.sharedPeer = some none ∧ v.deref 0 = none ∧
      v.onPacket 0 [] = none) ∧
    (init 0 1).run [.accept 0 [] [], .data 0 twoFrames fun i => if i = 0 then [0] else []] = none ∧
    (init 0 1).run [.accept 0 [] [], .data 0 oneFrame fun _ => [0]] = none := by
  refine ⟨⟨_, _, rfl, rfl, ?_, ?_, ?_, ?_⟩, ?_, ?_⟩ <;> decide +kernel

end HostLoop
end ICon7
