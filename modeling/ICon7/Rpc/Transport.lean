/-
# Calls and returns over tcp peers

`Connection` puts the frames that a side sends on a wire from which the other side reads.
Here the wire is what the library makes of it: a frame goes through `PeerData::Send` into
the queues of a tcp peer, leaves them when the socket is writable, directly or through the
write buffer and in as many pieces as the socket likes, and arrives at the other side in
pieces again (`Link`).

The bytes in the queues, in the buffer and on their way are the wire (`Station.view`).  A
writable event does not change it, and everything else does to it what it does in
`Connection` (`step_refines`), so that every run of a link is a run of a connection
(`run_refines`) and what is known of connections holds of links (`link_returnsAgree`).
-/

import ICon7.Loop.Progress
import ICon7.Rpc.Agreement

namespace ICon7

open Framing Lib

namespace Endpoint

variable {V : Type} {C : Codec V} {E : RPCEnvironment} {T : MapTraits UInt32 OnReturnCallback}
  {f g : Endpoint V → Option (Endpoint V)}

/-! ### Nothing that an endpoint does depends on its wire -/

/-- The endpoint with other bytes on its wire. -/
def withWire (e : Endpoint V) (wire : List UInt8) : Endpoint V := { e with wire }

/-- The function does not look at the wire, and puts the frames on it that it adds to `sent`. -/
def Local (f : Endpoint V → Option (Endpoint V)) : Prop :=
  ∀ e : Endpoint V, (∀ wire, f (e.withWire wire) = none) ∨
    ∃ (e' : Endpoint V) (frames : List SentFrame), e'.sent = e.sent ++ frames ∧
      ∀ wire, f (e.withWire wire) =
        some (e'.withWire (wire ++ (frames.map SentFrame.bytes).flatten))

/-- What has been sent stays sent. -/
theorem Local.sent_prefix (hf : Local f) {e e' : Endpoint V} (h : f e = some e') : e.sent <+: e'.sent := by
  rcases hf e with hnone | ⟨e₁, frames, hsent, hsome⟩
  · exact absurd (h.symm.trans (hnone e.wire)) (by simp)
  · obtain rfl := Option.some.inj (h.symm.trans (hsome e.wire))
    exact ⟨frames, hsent.symm⟩

/-- A function that sends nothing. -/
theorem Local.silent {g : Endpoint V → Endpoint V}
    (hwire : ∀ e wire, g (e.withWire wire) = (g e).withWire wire) (hsent : ∀ e, (g e).sent = e.sent) :
    Local fun e => some (g e) := by
  intro e
  refine .inr ⟨g e, [], by simp [hsent], fun wire => ?_⟩
  simp only [hwire, List.map_nil, List.flatten_nil, List.append_nil]

theorem Local.fail : Local fun _ : Endpoint V => none := fun _ => .inl fun _ => rfl

/-- One function after the other. -/
theorem Local.bind (hf : Local f) (hg : Local g) : Local fun e => (f e).bind g := by
  intro e
  rcases hf e with hnone | ⟨e₁, frames, hsent, hsome⟩
  · exact .inl fun wire => by simp only [hnone, Option.bind_none]
  rcases hg e₁ with hnone | ⟨e₂, frames', hsent', hsome'⟩
  · exact .inl fun wire => by simp only [hsome, Option.bind_some, hnone]
  · refine .inr ⟨e₂, frames ++ frames', by rw [hsent', hsent, List.append_assoc], fun wire => ?_⟩
    simp only [hsome, Option.bind_some, hsome', List.map_append, List.flatten_append, List.append_assoc]

/-- For each endpoint it is enough to do what a function does that is local. -/
theorem Local.of_pointwise
    (h : ∀ e : Endpoint V, ∃ g, Local g ∧ ∀ wire, f (e.withWire wire) = g (e.withWire wire)) : Local f := by
  intro e
  obtain ⟨g, hg, heq⟩ := h e
  simpa only [heq] using hg e

/-- A value that is computed without the wire, and what is done with it. -/
theorem Local.compute {α : Type} {x : Endpoint V → Option α} {k : α → Endpoint V → Option (Endpoint V)}
    (hx : ∀ e wire, x (e.withWire wire) = x e) (hk : ∀ a, Local (k a)) :
    Local fun e => (x e).bind fun a => k a e := by
  refine Local.of_pointwise fun e => ?_
  cases ha : x e with
  | none => exact ⟨_, Local.fail, fun wire => by simp only [hx, ha, Option.bind_none]⟩
  | some a => exact ⟨_, hk a, fun wire => by simp only [hx, ha, Option.bind_some]⟩

theorem Local.foldlM {α : Type} {k : Endpoint V → α → Option (Endpoint V)}
    (hk : ∀ a, Local fun e => k e a) (as : List α) : Local fun e => as.foldlM k e := by
  induction as with
  | nil => exact Local.silent (fun _ _ => rfl) fun _ => rfl
  | cons a as ih =>
    have hcons : (fun e => (a :: as).foldlM k e) = fun e => (k e a).bind fun e => as.foldlM k e := by
      funext e
      rw [List.foldlM_cons]
      rfl
    rw [hcons]
    exact (hk a).bind ih

/-- **`PeerData::Send`** puts one frame on the wire. -/
theorem send_local (kind : FrameKind) (bytes : List UInt8) :
    Local fun e : Endpoint V => some (e.send kind bytes) := by
  intro e
  exact .inr ⟨{ e with sent := e.sent ++ [⟨kind, bytes⟩] }, [⟨kind, bytes⟩], rfl,
    fun wire => by simp [send, withWire]⟩

/-- **`CommandCallSend::Execute`.** -/
theorem callSend_local (executionQueue : Bool) (timeoutTimePoint : ℕ) (payload : List UInt8)
    (flags : Flags) :
    Local fun e => e.callSend C T executionQueue timeoutTimePoint payload flags := by
  refine Local.compute (x := fun e => e.getNextValidReturnCallbackId T) (fun _ _ => rfl) fun id => ?_
  refine Local.compute (x := fun e => e.returningCallbacks.insertOrSet T id
    ⟨some e.ids.length, executionQueue, timeoutTimePoint⟩) (fun _ _ => rfl) fun m => ?_
  refine Local.compute (x := fun _ => frame _ _) (fun _ _ => rfl) fun bytes e => ?_
  refine .inr ⟨{ e with
    returnIdGen := id
    returningCallbacks := m
    ids := e.ids ++ [id]
    sent := e.sent ++ [⟨.call e.ids.length, bytes⟩] }, [⟨.call e.ids.length, bytes⟩], rfl, fun wire => ?_⟩
  simp [send, withWire]

/-- **`OnReturnCallback::Execute`** and `ExecuteTimeout`. -/
theorem finishCallback_local (cb : OnReturnCallback) (outcome : Option (UInt32 × List UInt8)) :
    Local fun e => e.finishCallback C cb outcome := by
  refine Local.compute (x := fun _ => cb.callback) (fun _ _ => rfl) fun call => ?_
  cases cb.executionQueue with
  | true => exact Local.silent (fun _ _ => rfl) fun _ => rfl
  | false => exact Local.silent (fun _ _ => rfl) fun _ => rfl

/-- An entry is stored and removed. -/
theorem remove_local (j : ℕ) (cb : OnReturnCallback) (id : UInt32) (k : Endpoint V → Option (Endpoint V))
    (hk : Local k) :
    Local fun e => ((e.returningCallbacks.store j cb).remove T id).bind fun returningCallbacks =>
      k { e with returningCallbacks } := by
  refine Local.compute (x := fun e => (e.returningCallbacks.store j cb).remove T id) (fun _ _ => rfl)
    fun m => ?_
  exact (Local.silent (g := fun e => { e with returningCallbacks := m }) (fun _ _ => rfl)
    fun _ => rfl).bind hk

/-- **`OnReceiveReturn`.** -/
theorem onReceiveReturn_local (body : List UInt8) : Local fun e => e.onReceiveReturn C T body := by
  refine Local.compute (x := fun e => e.returningCallbacks.find T (C.decodeUint body).1)
    (fun _ _ => rfl) fun place => ?_
  cases place with
  | none => exact Local.silent (fun _ _ => rfl) fun _ => rfl
  | some j =>
    refine Local.compute (x := fun e => e.returningCallbacks.buckets[j]?) (fun _ _ => rfl) fun pair => ?_
    exact remove_local j _ _ _ (finishCallback_local pair.v _)

/-- **`CheckForTimeoutFunctionCalls`.** -/
theorem checkForTimeoutFunctionCalls_local (random now : ℕ) :
    Local fun e => e.checkForTimeoutFunctionCalls C T random now := by
  refine Local.of_pointwise fun e => ?_
  by_cases hempty : e.returningCallbacks.buckets.length = 0
  · exact ⟨some, Local.silent (fun _ _ => rfl) fun _ => rfl, fun wire => if_pos hempty⟩
  set j := random % e.returningCallbacks.buckets.length with hj
  refine ⟨fun e => e.returningCallbacks.buckets[j]?.bind fun pair =>
    if pair.v.isExpired now then (finishCallback C e pair.v none).bind fun e =>
      ((e.returningCallbacks.store j pair.v.emptied).remove T pair.key).bind fun returningCallbacks =>
        some { e with returningCallbacks }
    else some e, ?_, fun wire => if_neg hempty⟩
  refine Local.compute (x := fun e => e.returningCallbacks.buckets[j]?) (fun _ _ => rfl) fun pair => ?_
  by_cases hexp : pair.v.isExpired now
  · simp only [hexp, if_true]
    exact (finishCallback_local pair.v none).bind
      (remove_local j _ _ some (Local.silent (fun _ _ => rfl) fun _ => rfl))
  · simp only [hexp, Bool.false_eq_true, if_false]
    exact Local.silent (fun _ _ => rfl) fun _ => rfl

/-- **`DeserializeAndExecute`.** -/
theorem deserializeAndExecute_local (origin : ℕ) (rpc : ExecuteRPC) (v : V) :
    Local fun e => e.deserializeAndExecute C origin rpc v := by
  by_cases hruns : rpc.runs
  swap
  · simp only [deserializeAndExecute, hruns]
    exact Local.silent (fun _ _ => rfl) fun _ => rfl
  have hrun : Local fun e : Endpoint V => some { e with runs := e.runs ++ [(origin, v)] } :=
    Local.silent (fun _ _ => rfl) fun _ => rfl
  by_cases hreplies : rpc.replies
  · simp only [deserializeAndExecute, hruns, hreplies, if_true]
    exact hrun.bind (Local.compute (x := fun _ => rpc.replyFrame C v) (fun _ _ => rfl)
      fun bytes => send_local (.reply origin) bytes)
  · simp only [deserializeAndExecute, hruns, hreplies, if_true]
    exact hrun

/-- **`OnReceiveCall`.** -/
theorem onReceiveCall_local (origin : ℕ) (body : List UInt8) (flags : Flags) (v : V) :
    Local fun e => e.onReceiveCall C E origin body flags v := by
  unfold onReceiveCall
  cases E.readCall C body flags with
  | none => exact Local.silent (fun _ _ => rfl) fun _ => rfl
  | some rpc =>
    by_cases hqueue : rpc.messageConverter.executeGetQueue rpc.reader flags
    · simp only [hqueue, if_true]
      exact Local.silent (fun _ _ => rfl) fun _ => rfl
    · simp only [hqueue, Bool.false_eq_true, if_false]
      exact deserializeAndExecute_local origin rpc v

/-- **`OnReceive`.** -/
theorem onReceive_local (origin : ℕ) (body : List UInt8) (flags : Flags) (v : V) :
    Local fun e => e.onReceive C E T origin body flags v := by
  unfold onReceive
  split_ifs
  · exact onReceiveCall_local origin body flags v
  · exact onReceiveReturn_local body
  · exact Local.silent (fun _ _ => rfl) fun _ => rfl

/-- **`_InternalOnPacket`.** -/
theorem onPacket_local (packet : Packet) (values : ℕ → V) :
    Local fun e => e.onPacket C E T packet (values e.framesReceived) := by
  refine Local.of_pointwise fun e => ?_
  have hreceived : Local fun e : Endpoint V => some { e with framesReceived := e.framesReceived + 1 } :=
    Local.silent (fun _ _ => rfl) fun _ => rfl
  have hskip : Local (some : Endpoint V → Option (Endpoint V)) :=
    Local.silent (fun _ _ => rfl) fun _ => rfl
  -- what is done with a frame once it has been counted
  set k : Endpoint V → Option (Endpoint V) := fun e' =>
    if packet.buffer.length = packet.headerSize then some e'
    else (getPacketFlags packet.buffer 0).bind fun kind =>
      if kind &&& FLAGS_PROTOCOL_CONTROLL_SEQUENCE = FLAGS_PROTOCOL_CONTROLL_SEQUENCE then some e'
      else (getPacketFlags packet.buffer FLAG_RELIABLE).bind fun flags =>
        e'.onReceive C E T e.framesReceived (packet.buffer.drop packet.headerSize) flags
          (values e.framesReceived)
  refine ⟨_, hreceived.bind (g := k) ?_, fun wire => rfl⟩
  simp only [k]
  split_ifs
  · exact hskip
  refine Local.compute (x := fun _ => getPacketFlags packet.buffer 0) (fun _ _ => rfl) fun kind => ?_
  split_ifs
  · exact hskip
  · exact Local.compute (x := fun _ => getPacketFlags packet.buffer FLAG_RELIABLE) (fun _ _ => rfl)
      fun flags => onReceive_local _ _ flags _

/-- **`_InternalOnData`.** -/
theorem onData_local (chunk : Chunk) (values : ℕ → V) :
    Local fun e => e.onData C E T chunk values := by
  refine Local.compute (x := fun e => e.frameDecoder.pushData chunk) (fun _ _ => rfl) fun r => ?_
  exact (Local.silent (g := fun e => { e with frameDecoder := r.1 }) (fun _ _ => rfl) fun _ => rfl).bind
    (Local.foldlM (fun packet => onPacket_local packet values) r.2)

/-- The execution of a queued call. -/
theorem executeRPC_local (i : ℕ) (v : V) : Local fun e => e.executeRPC C i v := by
  refine Local.of_pointwise fun e => ?_
  cases hi : e.rpcQueue[i]? with
  | none =>
    refine ⟨some, Local.silent (fun _ _ => rfl) fun _ => rfl, fun wire => ?_⟩
    simp [executeRPC, withWire, hi]
  | some entry =>
    refine ⟨_, (Local.silent (g := fun e => { e with rpcQueue := e.rpcQueue.eraseIdx i })
      (fun _ _ => rfl) fun _ => rfl).bind (deserializeAndExecute_local (C := C) entry.1 entry.2 v), fun wire => ?_⟩
    simp [executeRPC, withWire, hi]

/-- The execution of a queued callback. -/
theorem executeCallback_local (i : ℕ) : Local fun e => some (e.executeCallback C i) := by
  refine Local.of_pointwise fun e => ?_
  cases hi : e.callbackQueue[i]? with
  | none =>
    refine ⟨some, Local.silent (fun _ _ => rfl) fun _ => rfl, fun wire => ?_⟩
    simp [executeCallback, withWire, hi]
  | some x =>
    refine ⟨fun e => some { e with
      callbackQueue := e.callbackQueue.eraseIdx i
      executed := e.executed ++ [executeReturn C x] }, Local.silent (fun _ _ => rfl) fun _ => rfl,
      fun wire => ?_⟩
    simp [executeCallback, withWire, hi]

end Endpoint

/-! ### Two tcp peers -/

/-- One side of a link: its calls, its tcp peer, and how many of the bytes that its socket has
taken have come out at the other side. -/
structure Station (V : Type) where
  rpc : Endpoint V
  tcp : TcpPeer
  arrived : ℕ := 0

namespace Station

variable {V : Type} {s : Station V} {f : Endpoint V → Option (Endpoint V)}

/-- The side has become `e`, and has given `PeerData::Send` the frames that it made on the way. -/
def hand (s : Station V) (e : Endpoint V) : Station V :=
  { s with
    rpc := e.withWire []
    tcp := (e.sent.drop s.rpc.sent.length).foldl (fun p f => p.send f.bytes) s.tcp }

/-- The bytes that the other side can read. -/
def readable (s : Station V) : List UInt8 := s.tcp.accepted.drop s.arrived

/-- The side as a side of a `Connection`: its wire holds what has not arrived, wherever it waits. -/
def view (s : Station V) : Endpoint V := s.rpc.withWire (s.tcp.stream.drop s.arrived)

/-- The tcp peer is connected and well formed, it was given the bytes of the frames that the side has
sent and no others, and no byte arrives before the socket has taken it. -/
structure Sound (s : Station V) : Prop where
  wf : s.tcp.WF
  connected : s.tcp.isDisconnecting = false
  stream : s.tcp.stream = (s.rpc.sent.map SentFrame.bytes).flatten
  arrived_le : s.arrived ≤ s.tcp.accepted.length

theorem stream_eq_accepted (p : TcpPeer) :
    p.stream = p.accepted ++ (p.writeBuffer.drop p.writeBufferOffset ++ p.localRest ++ p.globalRest) := by
  simp only [TcpPeer.stream, TcpPeer.out, List.append_assoc]

/-- Frames that are given to a connected peer one after the other. -/
theorem sends_spec (frames : List SentFrame) {p : TcpPeer} (hw : p.WF) (hc : p.isDisconnecting = false) :
    let q := frames.foldl (fun p f => p.send f.bytes) p
    q.WF ∧ q.isDisconnecting = false ∧ q.socket = p.socket ∧
      q.stream = p.stream ++ (frames.map SentFrame.bytes).flatten := by
  induction frames generalizing p with
  | nil => exact ⟨hw, hc, rfl, (List.append_nil _).symm⟩
  | cons f frames ih =>
    have hsend : p.send f.bytes = p.enqueue f.bytes := by simp [TcpPeer.send, hc]
    obtain ⟨hw', hstream⟩ := TcpPeer.enqueue_spec hw f.bytes
    obtain ⟨hwq, hcq, hsock, hq⟩ := ih hw' hc
    simp only [List.foldl_cons, hsend]
    refine ⟨hwq, hcq, hsock, ?_⟩
    rw [hq, hstream, List.map_cons, List.flatten_cons, List.append_assoc]

/-- **What a side does is what it does with all its bytes on a wire.** -/
theorem view_hand (hs : s.Sound) (hf : Endpoint.Local f) :
    f s.view = (f s.rpc).map fun e => (s.hand e).view := by
  have hself : s.rpc.withWire s.rpc.wire = s.rpc := rfl
  rcases hf s.rpc with hnone | ⟨e, frames, hsent, hsome⟩
  · have hrpc := hnone s.rpc.wire
    rw [hself] at hrpc
    rw [hrpc, view, hnone, Option.map_none]
  · have hrpc := hsome s.rpc.wire
    rw [hself] at hrpc
    have hframes : (e.withWire (s.rpc.wire ++ (frames.map SentFrame.bytes).flatten)).sent.drop
        s.rpc.sent.length = frames := by
      show e.sent.drop _ = _
      rw [hsent, List.drop_left]
    obtain ⟨-, -, -, hstream⟩ := sends_spec frames hs.wf hs.connected
    have hle : s.arrived ≤ s.tcp.stream.length := by
      rw [TcpPeer.length_stream]
      exact hs.arrived_le.trans (Nat.le_add_right _ _)
    rw [hrpc, Option.map_some, view, hsome, view, hand, hframes, hstream,
      List.drop_append_of_le_length hle]
    rfl

/-- A side that has done something is as sound as before. -/
theorem Sound.hand (hs : s.Sound) {e : Endpoint V} (hpre : s.rpc.sent <+: e.sent) : (s.hand e).Sound := by
  obtain ⟨hw, hc, hsock, hstream⟩ := sends_spec (e.sent.drop s.rpc.sent.length) hs.wf hs.connected
  obtain ⟨frames, hframes⟩ := hpre
  refine ⟨hw, hc, ?_, ?_⟩
  · show TcpPeer.stream _ = (e.sent.map SentFrame.bytes).flatten
    rw [Station.hand, hstream, hs.stream, ← hframes, List.drop_left, List.map_append, List.flatten_append]
  · rw [TcpPeer.accepted, Station.hand, hsock]
    exact hs.arrived_le

/-- **A writable event** changes nothing that the calls can see. -/
theorem Sound.writable (hs : s.Sound) : ∃ p b, s.tcp.onWritable = some (p, b) ∧
    ({ s with tcp := p } : Station V).Sound ∧ ({ s with tcp := p } : Station V).view = s.view := by
  obtain ⟨p, b, hp, hsends⟩ := TcpPeer.onWritable_spec hs.wf
  have hlen := (TcpPeer.onWritable_accounts hs.wf hp).accepted_le
  refine ⟨p, b, hp, ⟨hsends.wf, hsends.same.isDisconnecting.trans hs.connected,
    hsends.stream.trans hs.stream, ?_⟩, ?_⟩
  · show s.arrived ≤ p.accepted.length
    have := hs.arrived_le
    omega
  · show s.rpc.withWire (p.stream.drop s.arrived) = _
    rw [hsends.stream, view]

/-- The bytes that arrive are the next ones of the wire. -/
theorem chunk_readable (s : Station V) (n : UInt32) :
    ∃ m : UInt32, Connection.chunkOf s.readable n = Connection.chunkOf s.view.wire m ∧
      m.toNat = (Connection.chunkOf s.readable n).1.length := by
  set chunk := (Connection.chunkOf s.readable n).1 with hchunk
  have hlt : chunk.length < UInt32.size := (Connection.chunkOf s.readable n).2
  refine ⟨UInt32.ofNatLT chunk.length hlt, Subtype.ext ?_, by simp⟩
  have hpre : s.readable <+: s.view.wire := by
    show s.tcp.accepted.drop s.arrived <+: s.tcp.stream.drop s.arrived
    rw [stream_eq_accepted]
    exact (List.prefix_append _ _).drop _
  have hpre' : chunk <+: s.view.wire := (List.take_prefix _ _).trans hpre
  show chunk = s.view.wire.take (UInt32.ofNatLT chunk.length hlt).toNat
  rw [UInt32.toNat_ofNatLT]
  exact List.prefix_iff_eq_take.mp hpre'

end Station

/-- The two sides of a link. -/
abbrev Link (V : Type) := Bool → Station V

namespace Link

open Connection (chunkOf)

variable {V : Type} (C : Codec V) (E : Bool → RPCEnvironment) (T : MapTraits UInt32 OnReturnCallback)

/-- Two peers that have just been connected. -/
def init (baseHash : Bool → UInt64) (socket : Bool → UsSocket) (capacity : Bool → ℕ) : Link V :=
  fun side => ⟨.init (baseHash side), { TcpPeer.ofSocket (socket side) (capacity side) with
    isReadyToUse := true }, 0⟩

/-- What can happen: what can happen to a connection, and a socket that can be written to.  What
is delivered are bytes that the socket of the other side has taken. -/
inductive Op (V : Type) where
  | act (op : Connection.Op V)
  | writable (side : Bool)

/-- One side does something. -/
def act (s : Link V) (side : Bool) (f : Endpoint V → Option (Endpoint V)) : Option (Link V) := do
  let e ← f (s side).rpc
  return Function.update s side ((s side).hand e)

def step (s : Link V) : Op V → Option (Link V)
  | .act (.call side executionQueue timeoutTimePoint payload flags) =>
    s.act side fun e => e.callSend C T executionQueue timeoutTimePoint payload flags
  | .act (.deliver side n values) =>
    let chunk := chunkOf (s !side).readable n
    Link.act (Function.update s (!side) { s !side with arrived := (s !side).arrived + chunk.1.length }) side
      fun e => e.onData C (E side) T chunk values
  | .act (.executeRPC side i v) => s.act side fun e => e.executeRPC C i v
  | .act (.executeCallback side i) => s.act side fun e => some (e.executeCallback C i)
  | .act (.checkTimeout side random now) => s.act side fun e => e.checkForTimeoutFunctionCalls C T random now
  | .writable side => do
    let (tcp, _) ← (s side).tcp.onWritable
    return Function.update s side { s side with tcp }

def run (s : Link V) (ops : List (Op V)) : Option (Link V) := ops.foldlM (step C E T) s

/-- The link as a connection. -/
def view (s : Link V) : Connection V := fun side => (s side).view

/-- Both sides are sound. -/
def Sound (s : Link V) : Prop := ∀ side, (s side).Sound

variable {C E T} {s s' : Link V}

theorem Sound.update (hs : s.Sound) {side : Bool} {t : Station V} (ht : t.Sound) :
    Sound (Function.update s side t) := by
  intro side'
  rcases eq_or_ne side' side with rfl | hne
  · rwa [Function.update_self]
  · rw [Function.update_of_ne hne]
    exact hs side'

theorem view_update (s : Link V) (side : Bool) (t : Station V) :
    view (Function.update s side t) = Function.update (view s) side t.view := by
  funext side'
  rcases eq_or_ne side' side with rfl | hne
  · rw [view, Function.update_self, Function.update_self]
  · rw [view, Function.update_of_ne hne, Function.update_of_ne hne]
    rfl

/-- **What one side does is what it does in a connection.** -/
theorem act_refines (hs : s.Sound) (side : Bool) {f : Endpoint V → Option (Endpoint V)}
    (hf : Endpoint.Local f) :
    (∀ s', s.act side f = some s' → s'.Sound) ∧
      (s.act side f).map view = (f (view s side)).map (Function.update (view s) side) := by
  constructor
  · intro s' h
    obtain ⟨e, hfe, he⟩ := Option.bind_eq_some_iff.mp h
    obtain rfl := Option.some.inj he
    exact hs.update ((hs side).hand (hf.sent_prefix hfe))
  · rw [view, Station.view_hand (hs side) hf, act, Option.map_map]
    cases f (s side).rpc with
    | none => rfl
    | some e =>
      show some (view _) = some _
      rw [view_update]
      rfl

/-- The side from which bytes have arrived. -/
theorem deliver_view (hs : s.Sound) (side : Bool) (n m : UInt32)
    (hm : m.toNat = (chunkOf (s side).readable n).1.length) :
    let t : Station V := { s side with arrived := (s side).arrived + (chunkOf (s side).readable n).1.length }
    t.Sound ∧ t.view = (s side).view.withWire ((s side).view.wire.drop m.toNat) := by
  refine ⟨⟨(hs side).wf, (hs side).connected, (hs side).stream, ?_⟩, ?_⟩
  · have hle := (hs side).arrived_le
    have hlen : (chunkOf (s side).readable n).1.length ≤ (s side).tcp.accepted.length - (s side).arrived := by
      rw [← List.length_drop]
      exact List.length_take_le' _ _
    show (s side).arrived + (chunkOf (s side).readable n).1.length ≤ (s side).tcp.accepted.length
    omega
  · rw [hm]
    show (s side).rpc.withWire _ = (s side).rpc.withWire (((s side).tcp.stream.drop _).drop _)
    rw [List.drop_drop]

theorem map_update (s : Connection V) (x : Option (Endpoint V)) (side : Bool) :
    x.map (Function.update s side) = x.bind fun e => some (Function.update s side e) := by
  cases x <;> rfl

/-- **Bytes that arrive** are the first of the wire: those of `n` that the socket has taken. -/
theorem deliver_refines (hs : s.Sound) (side : Bool) (n : UInt32) (values : ℕ → V) :
    (∀ s', step C E T s (.act (.deliver side n values)) = some s' → s'.Sound) ∧
      ∃ m : UInt32, m.toNat = min n.toNat (s !side).readable.length ∧
        (step C E T s (.act (.deliver side n values))).map view =
          Connection.step C E T (view s) (.deliver side m values) := by
  have hne : side ≠ !side := by cases side <;> decide
  obtain ⟨m, hchunk, hm⟩ := (s !side).chunk_readable n
  obtain ⟨ht, hview⟩ := deliver_view hs (!side) n m hm
  obtain ⟨hsound, heq⟩ := act_refines (hs.update ht) side (Endpoint.onData_local (C := C) (E := E side)
    (T := T) (chunkOf (s !side).readable n) values)
  refine ⟨hsound, m, hm.trans (List.length_take ..), ?_⟩
  rw [step, heq, map_update, view_update, Function.update_of_ne hne, hview, hchunk]
  rfl

/-- The calls of an action, and what it needs, are those of a connection. -/
def Op.isCall (side : Bool) : Op V → Bool
  | .act op => op.isCall side
  | .writable _ => false

def Op.Fits (C : Codec V) : Op V → Prop
  | .act op => op.Fits C
  | .writable _ => True

/-- The action, whatever number of bytes it asks for. -/
def anySize : Connection.Op V → Connection.Op V
  | .deliver side _ values => .deliver side 0 values
  | op => op

/-- The actions of the connection. -/
def Op.action : Op V → Option (Connection.Op V)
  | .act op => some op
  | .writable _ => none

/-- A run of the connection does what the link does, perhaps with other bytes delivered. -/
structure Refines (ops : List (Op V)) (cops : List (Connection.Op V)) : Prop where
  acts : cops.map anySize = (ops.filterMap Op.action).map anySize

/-- What does not depend on numbers of bytes is the same. -/
theorem Refines.filterMap {ops : List (Op V)} {cops : List (Connection.Op V)} (h : Refines ops cops)
    {β : Type} {f : Connection.Op V → Option β} (hf : ∀ op, f (anySize op) = f op) :
    cops.filterMap f = (ops.filterMap Op.action).filterMap f := by
  have hcomp : f ∘ anySize = f := funext hf
  rw [← hcomp, ← List.filterMap_map, h.acts, List.filterMap_map]

theorem Refines.calls {ops : List (Op V)} {cops : List (Connection.Op V)} (h : Refines ops cops)
    (side : Bool) : cops.countP (Connection.Op.isCall side) = ops.countP (Op.isCall side) := by
  have hsize : Connection.Op.isCall side ∘ anySize = Connection.Op.isCall (V := V) side := by
    funext op
    cases op <;> rfl
  have hwritable : ∀ ops : List (Op V),
      (ops.filterMap Op.action).countP (Connection.Op.isCall side) = ops.countP (Op.isCall side) := by
    intro ops
    rw [List.countP_filterMap]
    congr 1
    funext op
    cases op <;> rfl
  rw [← hsize, ← List.countP_map, h.acts, List.countP_map, hsize, hwritable]

theorem Refines.fits {ops : List (Op V)} {cops : List (Connection.Op V)} (h : Refines ops cops)
    (hfits : ∀ op ∈ ops, op.Fits C) : ∀ op ∈ cops, op.Fits C := by
  have hsize : ∀ op : Connection.Op V, (anySize op).Fits C ↔ op.Fits C := by
    intro op
    cases op <;> rfl
  intro op hop
  have hmem := List.mem_map_of_mem (f := anySize) hop
  rw [h.acts] at hmem
  obtain ⟨op', hop', heq⟩ := List.mem_map.mp hmem
  obtain ⟨lop, hlop, hact⟩ := List.mem_filterMap.mp hop'
  rw [← hsize, ← heq, hsize]
  cases lop with
  | act lop =>
    obtain rfl := Option.some.inj hact
    exact hfits _ hlop
  | writable side => cases hact

theorem Refines.append {ops ops' : List (Op V)} {cops cops' : List (Connection.Op V)}
    (h : Refines ops cops) (h' : Refines ops' cops') : Refines (ops ++ ops') (cops ++ cops') :=
  ⟨by rw [List.map_append, h.acts, h'.acts, List.filterMap_append, List.map_append]⟩

theorem Refines.nil : Refines ([] : List (Op V)) [] := ⟨rfl⟩

theorem Refines.writable {side : Bool} : Refines [(.writable side : Op V)] [] := ⟨rfl⟩

theorem Refines.act {op op' : Connection.Op V} (h : anySize op' = anySize op) :
    Refines [.act op] [op'] :=
  ⟨by simpa [Op.action] using h⟩

/-- Every list of actions is refined by one, whether or not it does the same. -/
theorem exists_refines (ops : List (Op V)) : ∃ cops, Refines ops cops := ⟨_, ⟨rfl⟩⟩

/-- **Everything that can happen to a link happens to a connection,** or cannot be seen there. -/
theorem step_refines (hs : s.Sound) (op : Op V) :
    (∀ s', step C E T s op = some s' → s'.Sound) ∧
      ∃ cops, Refines [op] cops ∧ (step C E T s op).map view = Connection.run C E T (view s) cops := by
  have hone : ∀ (s : Connection V) op, Connection.run C E T s [op] = Connection.step C E T s op := by
    intro s op
    rw [Connection.run, List.foldlM_cons]
    cases Connection.step C E T s op <;> rfl
  cases op with
  | act op =>
    cases op with
    | call side executionQueue timeoutTimePoint payload flags =>
      obtain ⟨hsound, heq⟩ := act_refines hs side (Endpoint.callSend_local (C := C) (T := T)
        executionQueue timeoutTimePoint payload flags)
      exact ⟨hsound, [_], .act rfl, by rw [hone, step, heq, map_update]; rfl⟩
    | deliver side n values =>
      obtain ⟨hsound, m, -, heq⟩ := deliver_refines (C := C) (E := E) (T := T) hs side n values
      exact ⟨hsound, [.deliver side m values], .act rfl, by rw [hone, heq]⟩
    | executeRPC side i v =>
      obtain ⟨hsound, heq⟩ := act_refines hs side (Endpoint.executeRPC_local (C := C) i v)
      exact ⟨hsound, [_], .act rfl, by rw [hone, step, heq, map_update]; rfl⟩
    | executeCallback side i =>
      obtain ⟨hsound, heq⟩ := act_refines hs side (Endpoint.executeCallback_local (C := C) i)
      exact ⟨hsound, [_], .act rfl, by rw [hone, step, heq, map_update]; rfl⟩
    | checkTimeout side random now =>
      obtain ⟨hsound, heq⟩ := act_refines hs side
        (Endpoint.checkForTimeoutFunctionCalls_local (C := C) (T := T) random now)
      exact ⟨hsound, [_], .act rfl, by rw [hone, step, heq, map_update]; rfl⟩
  | writable side =>
    obtain ⟨p, b, hp, ht, hview⟩ := (hs side).writable
    have hstep : step C E T s (.writable side) = some (Function.update s side { s side with tcp := p }) := by
      rw [step, hp]
      rfl
    refine ⟨fun s' h => ?_, [], .writable, ?_⟩
    · obtain rfl := Option.some.inj (hstep.symm.trans h)
      exact hs.update ht
    · rw [hstep, Option.map_some, view_update, hview]
      exact congrArg some (Function.update_eq_self side (view s))

/-- **Every run of a link is a run of a connection,** with the same calls. -/
theorem run_refines (ops : List (Op V)) (hs : s.Sound) :
    (∀ s', run C E T s ops = some s' → s'.Sound) ∧
      ∃ cops, Refines ops cops ∧ (run C E T s ops).map view = Connection.run C E T (view s) cops := by
  induction ops generalizing s with
  | nil => exact ⟨fun s' h => Option.some.inj h ▸ hs, [], .nil, rfl⟩
  | cons op ops ih =>
    obtain ⟨hsound, cops, hrefines, heq⟩ := step_refines (C := C) (E := E) (T := T) hs op
    rw [run, List.foldlM_cons]
    cases hstep : step C E T s op with
    | none =>
      obtain ⟨rest, hrest⟩ := exists_refines ops
      refine ⟨fun s' h => (by cases h), cops ++ rest, hrefines.append hrest, ?_⟩
      rw [hstep] at heq
      rw [Connection.run, List.foldlM_append, ← Connection.run, ← heq]
      rfl
    | some s₁ =>
      obtain ⟨hsound₁, rest, hrest, heq₁⟩ := ih (hsound s₁ hstep)
      refine ⟨hsound₁, cops ++ rest, hrefines.append hrest, ?_⟩
      rw [hstep] at heq
      rw [Connection.run, List.foldlM_append, ← Connection.run, ← heq]
      exact heq₁

/-- Nothing has been sent in the beginning. -/
theorem init_stream (baseHash : Bool → UInt64) {socket : Bool → UsSocket} (capacity : Bool → ℕ)
    (hsock : ∀ side, (socket side).accepted = []) (side : Bool) :
    (init baseHash socket capacity side : Station V).tcp.stream = [] := by
  simp [init, TcpPeer.stream, TcpPeer.out, TcpPeer.accepted, TcpPeer.localRest, TcpPeer.globalRest,
    TcpPeer.ofSocket, hsock]

theorem init_sound (baseHash : Bool → UInt64) {socket : Bool → UsSocket} {capacity : Bool → ℕ}
    (hsock : ∀ side, (socket side).accepted = []) (hcap : ∀ side, 0 < capacity side) :
    (init baseHash socket capacity : Link V).Sound :=
  fun side => ⟨⟨⟨rfl, hcap side, le_rfl, Nat.zero_le _, fun _ => rfl⟩, le_rfl,
    fun _ hf => absurd hf List.not_mem_nil⟩, rfl, init_stream baseHash capacity hsock side, Nat.zero_le _⟩

theorem view_init (baseHash : Bool → UInt64) {socket : Bool → UsSocket} (capacity : Bool → ℕ)
    (hsock : ∀ side, (socket side).accepted = []) :
    view (init baseHash socket capacity : Link V) = Connection.init baseHash := by
  funext side
  rw [view, Station.view, init_stream baseHash capacity hsock side]
  rfl

/-- **Every run of a link keeps the agreement of its calls.** -/
theorem run_agrees (hT : ∀ cb v, cb.callback = none → T.assign cb v = v) (baseHash : Bool → UInt64)
    {socket : Bool → UsSocket} {capacity : Bool → ℕ} (hsock : ∀ side, (socket side).accepted = [])
    (hcap : ∀ side, 0 < capacity side) (ops : List (Op V))
    (hcalls : ∀ side, ops.countP (Op.isCall side) < 2 ^ 32 - 1) :
    Yields (run C E T (init baseHash socket capacity) ops)
      ((∀ side, ops.countP (Op.isCall side) ≤ 2 ^ 30) ∧ ∀ op ∈ ops, op.Fits C)
      fun s => s.Sound ∧ Connection.Agrees C T (view s) := by
  obtain ⟨hsound, cops, hrefines, heq⟩ := run_refines (C := C) (E := E) (T := T) ops
    (init_sound (V := V) baseHash hsock hcap)
  rw [view_init baseHash capacity hsock] at heq
  have hzero : ∀ side, (Connection.init baseHash side : Endpoint V).ids.length = 0 := fun _ => rfl
  have hrun := Connection.run_agrees (E := E) hT cops (Connection.init_agrees (C := C) baseHash)
    fun side => by rw [hzero, Nat.zero_add, hrefines.calls]; exact hcalls side
  rw [← heq] at hrun
  refine ⟨fun s hs => ⟨hsound s hs, hrun.1 _ (by rw [hs]; rfl)⟩, fun hfits => ?_⟩
  obtain ⟨c, hc⟩ := hrun.2 ⟨fun side => by rw [hzero, Nat.zero_add, hrefines.calls]; exact hfits.1 side,
    hrefines.fits hfits.2⟩
  obtain ⟨s, hs, -⟩ := Option.map_eq_some_iff.mp hc
  exact ⟨s, hs⟩

/-- What agrees with all bytes on a wire agrees as it is. -/
theorem returnsAgree_rpc {a b : Station V} (h : Connection.ReturnsAgree C T a.view b.view)
    (ho : Endpoint.Own T a.view) : Connection.ReturnsAgree C T a.rpc b.rpc := by
  have ho' : Endpoint.Own T a.rpc :=
    ho.of_origins rfl rfl rfl rfl ho.origins_nodup ho.origins_lt
  exact ⟨h.once, h.ids_nodup, h.runs_once, h.returned,
    fun body => Endpoint.onReceiveReturn_of_not_pending ho'⟩

/-- **Calls and returns agree over tcp peers.**  Two peers call each other; their frames go through
the send queues and the write buffers, the sockets take what they like of every write, fail or
are full as they like, and the bytes arrive in any pieces.  Along every run with fewer than
`2 ^ 32 - 1` calls per side a callback is executed at most once, with the value of its own call
if it is executed as a return.  A run with at most `2 ^ 30` calls per side stops only at a frame that
is too long for a header, never in the transport. -/
theorem link_returnsAgree (C : Codec V) (E : Bool → RPCEnvironment) (hash : UInt32 → UInt64 → UInt32)
    (baseHash : Bool → UInt64) (socket : Bool → UsSocket) (capacity : Bool → ℕ)
    (hsock : ∀ side, (socket side).accepted = []) (hcap : ∀ side, 0 < capacity side)
    (ops : List (Op V)) (hcalls : ∀ side, ops.countP (Op.isCall side) < 2 ^ 32 - 1) :
    (∀ s, run C E (OnReturnCallback.traits hash) (init baseHash socket capacity) ops = some s →
      ∀ side, Connection.ReturnsAgree C (OnReturnCallback.traits hash) (s side).rpc (s !side).rpc) ∧
    ((∀ side, ops.countP (Op.isCall side) ≤ 2 ^ 30) → (∀ op ∈ ops, op.Fits C) →
      ∃ s, run C E (OnReturnCallback.traits hash) (init baseHash socket capacity) ops = some s) := by
  have hrun := run_agrees (C := C) (E := E) (OnReturnCallback.traits_assign hash) baseHash hsock hcap ops hcalls
  refine ⟨fun s hs side => ?_, fun hfew hfits => hrun.2 ⟨hfew, hfits⟩⟩
  have hagree := (hrun.1 s hs).2
  have hother := hagree (!side)
  rw [Bool.not_not] at hother
  exact returnsAgree_rpc ((hagree side).returnsAgree hother) (hagree side).own

/-- Two sides whose sockets take one byte at a time: a call and its answer. -/
theorem link_returnsAgree_creeping :
    let E : Bool → RPCEnvironment := fun _ => ⟨fun body => some (⟨fun _ _ => false, fun _ => true⟩, body)⟩
    let ops : List (Op UInt8) := [.act (.call true false 10 [7] 0), .writable true, .writable true,
      .act (.deliver false 9 fun _ => 0), .writable true, .writable true, .writable true, .writable true,
      .act (.deliver false 9 fun _ => 42)] ++ List.replicate 6 (.writable false) ++
      [.act (.deliver true 9 fun _ => 0)]
    let r := run .bytes E (OnReturnCallback.traits fun k _ => k)
      (init (fun _ => 0) (fun _ => Loop.creepingSocket) fun _ => 4) ops
    (r.map fun s => (s true).rpc.executed.map fun x => (x.call, x.outcome)) = some [(0, some (1, 42))] ∧
      ∀ s, r = some s → ∀ side, Connection.ReturnsAgree .bytes (OnReturnCallback.traits fun k _ => k)
        (s side).rpc (s !side).rpc := by
  intro E ops r
  exact ⟨by decide +kernel, (link_returnsAgree .bytes E _ _ _ _ (fun _ => rfl) (by decide) ops (by decide)).1⟩

/-! ### Everything that is sent arrives -/

/-- A side that has read the whole wire has received every frame. -/
theorem received_of_wire_nil {a b : Endpoint V} (h : Connection.Knows C T a b) (hwire : a.wire = []) :
    b.framesReceived = a.sent.length := by
  obtain ⟨held, hst⟩ := h.streams
  have hframes : ∀ f ∈ (a.sent.drop b.framesReceived).map SentFrame.bytes,
      FrameDecoder.delimiter.len f = some f.length := by
    intro f hf
    obtain ⟨g, hg, rfl⟩ := List.mem_map.mp hf
    exact (h.about.sent g (List.mem_of_mem_drop hg)).frameLen
  -- what is held is cut into the frames that are missing, and holds no whole frame
  have hcut := Delimiter.parse_frames hframes
  rw [← hst.bytes, hwire, List.append_nil, Delimiter.parse_of_lt hst.unfinished] at hcut
  have hnil := (Prod.mk.inj hcut).1
  have hlen := congrArg List.length hnil
  have hle := hst.le
  simp only [List.length_nil, List.length_map, List.length_drop] at hlen
  omega

/-- Writable events of one side. -/
theorem run_writables (s : Link V) (side : Bool) (k : ℕ) :
    run C E T s (List.replicate k (.writable side)) =
      ((s side).tcp.run (List.replicate k .writable)).map fun tcp =>
        Function.update s side { s side with tcp } := by
  induction k generalizing s with
  | zero => exact congrArg some (Function.update_eq_self side s).symm
  | succ k ih =>
    rw [run, List.replicate_succ, List.replicate_succ, List.foldlM_cons, TcpPeer.run, List.foldlM_cons]
    cases hon : (s side).tcp.onWritable with
    | none => simp [step, TcpPeer.step, hon]
    | some r =>
      have hstep : step C E T s (.writable side) =
          some (Function.update s side { s side with tcp := r.1 }) := by
        rw [step, hon]
        rfl
      have htcp : (s side).tcp.step .writable = some r.1 := by
        rw [TcpPeer.step, hon]
        rfl
      rw [hstep, htcp]
      show run C E T _ _ = (TcpPeer.run r.1 _).map _
      rw [ih, Function.update_self]
      simp only [Function.update_idem]

/-- A side that can write is drained by writable events, and nothing else changes. -/
theorem writables_drain (hs : s.Sound) {side : Bool} (hsend : (s side).tcp.Sending) {k : ℕ}
    (hk : (s side).tcp.backlog ≤ k) :
    ∃ s', run C E T s (List.replicate k (.writable side)) = some s' ∧ s'.Sound ∧ view s' = view s ∧
      (s' side).readable = (view s side).wire ∧ (s' side).tcp.pending = false := by
  obtain ⟨p, hp, hw, hsp, hidle, hacc, hstr⟩ := TcpPeer.writable_drains k (hs side).wf hsend hk
  refine ⟨Function.update s side { s side with tcp := p }, by rw [run_writables, hp]; rfl, hs.update ?_, ?_,
    ?_, by rw [Function.update_self]; exact hidle⟩
  · refine ⟨hw, hsp.connected, hstr.trans (hs side).stream, ?_⟩
    show (s side).arrived ≤ p.accepted.length
    rw [hacc, TcpPeer.length_stream]
    exact (hs side).arrived_le.trans (Nat.le_add_right _ _)
  · have hview : ({ s side with tcp := p } : Station V).view = view s side := by
      show (s side).rpc.withWire (p.stream.drop (s side).arrived) = _
      rw [hstr]
      rfl
    rw [view_update, hview]
    exact Function.update_eq_self side (view s)
  · rw [Function.update_self]
    show p.accepted.drop (s side).arrived = _
    rw [hacc]
    rfl

/-- The other side reads everything. -/
theorem deliver_all (hT : ∀ cb v, cb.callback = none → T.assign cb v = v) (hs : s.Sound)
    (h : Connection.Agrees C T (view s)) {side : Bool} (hread : (s side).readable = (view s side).wire)
    {n : UInt32} (hn : (view s side).wire.length ≤ n.toNat) {values : ℕ → V}
    (hfits : ∀ i, Endpoint.Fits C (values i)) :
    ∃ s', step C E T s (.act (.deliver (!side) n values)) = some s' ∧ s'.Sound ∧
      Connection.Agrees C T (view s') ∧ (view s' side) = (view s side).withWire [] ∧
      (s' side).tcp = (s side).tcp := by
  have hne : side ≠ !side := by cases side <;> decide
  obtain ⟨hsound, m, hm, heq⟩ := deliver_refines (C := C) (E := E) (T := T) hs (!side) n values
  rw [Bool.not_not, hread, min_eq_right hn] at hm
  have hyields := h.deliver (E := E) hT (!side) m values
  obtain ⟨c, hc⟩ := hyields.2 hfits
  have hagree := (hyields.1 c hc).1
  obtain ⟨e, -, he⟩ := Option.bind_eq_some_iff.mp hc
  rw [hc] at heq
  obtain ⟨s', hs', rfl⟩ := Option.map_eq_some_iff.mp heq
  refine ⟨s', hs', hsound s' hs', hagree, ?_, ?_⟩
  · rw [← Option.some.inj he, Function.update_of_ne hne, Bool.not_not, Function.update_self, hm,
      List.drop_length]
    rfl
  · obtain ⟨e', -, he'⟩ := Option.bind_eq_some_iff.mp hs'
    rw [← Option.some.inj he', Function.update_of_ne hne, Bool.not_not, Function.update_self]

/-- **Everything that is sent arrives, and nothing else.**  After whatever has happened, with fewer
than `2 ^ 32 - 1` calls per side, take a side whose peer may write, to a socket that takes at least one
byte of every write.  As many writable events as it has bytes and frames waiting, and one read of what
its socket has then taken: now nothing waits in its queues and its buffer, the bytes that its socket has
taken are those of the frames that this side has sent, one frame behind the other, the other side has
read all of them, and it has received as many frames. -/
theorem link_delivers (C : Codec V) (E : Bool → RPCEnvironment) (hash : UInt32 → UInt64 → UInt32)
    (baseHash : Bool → UInt64) (socket : Bool → UsSocket) (capacity : Bool → ℕ)
    (hsock : ∀ side, (socket side).accepted = []) (hcap : ∀ side, 0 < capacity side)
    (ops : List (Op V)) (hcalls : ∀ side, ops.countP (Op.isCall side) < 2 ^ 32 - 1) (s : Link V)
    (hrun : run C E (OnReturnCallback.traits hash) (init baseHash socket capacity) ops = some s)
    (side : Bool) (hsend : (s side).tcp.Sending) (k : ℕ) (hk : (s side).tcp.backlog ≤ k) (n : UInt32)
    (hn : (s side).tcp.stream.length - (s side).arrived ≤ n.toNat) (values : ℕ → V)
    (hfits : ∀ i, Endpoint.Fits C (values i)) :
    ∃ s', run C E (OnReturnCallback.traits hash) s
        (List.replicate k (.writable side) ++ [.act (.deliver (!side) n values)]) = some s' ∧
      (s' side).rpc.sent = (s side).rpc.sent ∧ (s' side).tcp.backlog = 0 ∧
      (s' side).tcp.accepted = ((s side).rpc.sent.map SentFrame.bytes).flatten ∧
      (s' side).arrived = (s' side).tcp.accepted.length ∧
      (s' !side).rpc.framesReceived = (s side).rpc.sent.length := by
  have hT := OnReturnCallback.traits_assign hash
  obtain ⟨hs, hagree⟩ := (run_agrees (C := C) (E := E) hT baseHash hsock hcap ops hcalls).1 s hrun
  obtain ⟨s₁, hrun₁, hs₁, hview, hread, hidle⟩ :=
    writables_drain (C := C) (E := E) (T := OnReturnCallback.traits hash) hs hsend hk
  obtain ⟨s', hstep, hs', hagree', hside, htcp⟩ := deliver_all (E := E) hT hs₁ (hview ▸ hagree)
    (hread.trans (congrArg (fun c : Connection V => (c side).wire) hview.symm))
    (by rw [hview]; exact (List.length_drop ..).trans_le hn) hfits
  rw [← htcp] at hidle
  have hsent : (s' side).rpc.sent = (s side).rpc.sent := by
    rw [hview] at hside
    have hsent := congrArg Endpoint.sent hside
    exact hsent
  have hacc := TcpPeer.accepted_of_idle hidle
  refine ⟨s', ?_, hsent, TcpPeer.backlog_of_idle hidle, ?_, ?_, ?_⟩
  · rw [run, List.foldlM_append, ← run, hrun₁]
    exact foldlM_cons_eq_some.mpr ⟨s', hstep, rfl⟩
  · rw [hacc, (hs' side).stream, hsent]
  · -- the wire is empty, so that all bytes of the stream have arrived
    have hwire : (s' side).tcp.stream.drop (s' side).arrived = [] := congrArg Endpoint.wire hside
    have hle := List.drop_eq_nil_iff.mp hwire
    rw [← hacc] at hle
    exact le_antisymm (hs' side).arrived_le hle
  · have hall := received_of_wire_nil (hagree' side) (congrArg Endpoint.wire hside)
    rw [← hsent]
    exact hall

/-- Two calls over sockets that take one byte at a time, the second while the first has not left. -/
theorem link_delivers_creeping :
    let E : Bool → RPCEnvironment := fun _ => ⟨fun body => some (⟨fun _ _ => false, fun _ => true⟩, body)⟩
    ∃ s s' : Link UInt8, run .bytes E (OnReturnCallback.traits fun k _ => k)
        (init (fun _ => 0) (fun _ => Loop.creepingSocket) fun _ => 4)
        [.act (.call true false 10 [7] 0), .writable true, .act (.call true false 10 [8] 0)] = some s ∧
      run .bytes E (OnReturnCallback.traits fun k _ => k) s
        (List.replicate 14 (.writable true) ++ [.act (.deliver false 20 fun _ => 42)]) = some s' ∧
      (s' false).rpc.framesReceived = 2 := by
  intro E
  obtain ⟨s', hrun, -, -, -, -, hreceived⟩ := link_delivers .bytes E (fun k _ => k) (fun _ => 0)
    (fun _ => Loop.creepingSocket) (fun _ => 4) (fun _ => rfl) (by decide)
    [.act (.call true false 10 [7] 0), .writable true, .act (.call true false 10 [8] 0)] (by decide) _ rfl
    true ⟨rfl, rfl, rfl, Loop.creepingSocket_willing rfl⟩ 14 (by decide +kernel) 20 (by decide +kernel)
    (fun _ => 42) (by simp [Endpoint.Fits, Codec.bytes])
  exact ⟨_, s', rfl, hrun, hreceived⟩

end Link
end ICon7
