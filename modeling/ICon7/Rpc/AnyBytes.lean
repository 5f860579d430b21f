/-
# Whatever the other side sends

`PeerData::_InternalOnData`, `_InternalOnPacket` and the handling of control sequences
(`src/Peer.cpp`), over `RPCEnvironment::OnReceive` and the calls of `Rpc.Endpoint`, on bytes that
nothing is known of and that come in any pieces.

The decoder passes on the packets of the bytes so far, wherever they were cut (`Inv.onData`), every
one of them with a body, and what the peer does traces back to these packets (`Rpc.Traces`).  The
one thing that bytes can break is the assertion inside `RpcName::IsString`: a run fails exactly at a
call that names no function (`any_bytes`).  The counters of the peer, of its host and of its loop
say what was received (`received_counted`), however many calls the peer makes.

Handlers only give values here: they leave their peer connected, so that an answer always finds it.
What happens to a peer that a handler or somebody else closes is the subject of `Rpc.Answer` and
`Host.Once`.  The counters are `int64_t` in the source and natural numbers here: no run is long enough
to count to `2 ^ 63`.
-/

import ICon7.Rpc.Traces

namespace ICon7

open Framing Lib

/-! ### The peer -/

/-- The counters of `PeerStats`, `HostStats` and `LoopStats` that receiving touches, without overflow. -/
structure ReceiveStats where
  bytesReceived : ℕ := 0
  packetsReceived : ℕ := 0
  framesReceived : ℕ := 0
  errorsCount : ℕ := 0
deriving DecidableEq, Repr

/-- What two runs of the counters count together. -/
def ReceiveStats.add (s t : ReceiveStats) : ReceiveStats :=
  ⟨s.bytesReceived + t.bytesReceived, s.packetsReceived + t.packetsReceived,
    s.framesReceived + t.framesReceived, s.errorsCount + t.errorsCount⟩

/-- A `PeerData`, with what counts what it receives. -/
structure ReceivingPeer (V : Type) where
  data : Endpoint V
  stats : ReceiveStats := {}
  hostStats : ReceiveStats := {}
  loopStats : ReceiveStats := {}

namespace ReceivingPeer

variable {V : Type} (C : Codec V) (E : NamedMessages) (T : MapTraits UInt32 OnReturnCallback)

/-- One event, counted for the peer, its host and its loop. -/
def count (p : ReceivingPeer V) (f : ReceiveStats → ReceiveStats) : ReceivingPeer V :=
  { p with stats := f p.stats, hostStats := f p.hostStats, loopStats := f p.loopStats }

def countError (p : ReceivingPeer V) : ReceivingPeer V :=
  p.count fun s => { s with errorsCount := s.errorsCount + 1 }

/-- One more frame; its place is known to what it starts. -/
def countFrame (p : ReceivingPeer V) : ReceivingPeer V :=
  { p.count fun s => { s with framesReceived := s.framesReceived + 1 } with
    data := { p.data with framesReceived := p.data.framesReceived + 1 } }

/-- `_InternalOnPacketWithControllSequenceBackend`; `none` is a read past the end. -/
def onPacketWithControllSequenceBackend (p : ReceivingPeer V) (packet : Packet) :
    Option (ReceivingPeer V) := do
  let _vectorCall ← packet.buffer[packet.headerSize]?
  return p.countError

/-- `_InternalOnPacketWithControllSequence`. -/
def onPacketWithControllSequence (p : ReceivingPeer V) (packet : Packet) :
    Option (ReceivingPeer V) := do
  let vectorCall ← packet.buffer[packet.headerSize]?
  if vectorCall ≤ 0x7F then return p.countError
  else p.onPacketWithControllSequenceBackend packet

/-- `OnReceiveCall`, with the assertion that `IsString` makes of the name. -/
def onReceiveCall (p : ReceivingPeer V) (origin : ℕ) (body : List UInt8) (flags : Flags) (v : V) :
    Option (ReceivingPeer V) := do
  let reader := if flags &&& 6 = FLAGS_CALL then (C.decodeUint body).2 else body
  guard (E.named reader)
  let data ← p.data.onReceiveCall C E.toRPCEnvironment origin body flags v
  return { p with data }

/-- `OnReceive`. -/
def onReceive (p : ReceivingPeer V) (origin : ℕ) (body : List UInt8) (flags : Flags) (v : V) :
    Option (ReceivingPeer V) :=
  if flags &&& 6 = FLAGS_CALL ∨ flags &&& 6 = FLAGS_CALL_NO_FEEDBACK then
    p.onReceiveCall C E origin body flags v
  else if flags &&& 6 = FLAGS_CALL_RETURN_FEEDBACK then do
    let data ← p.data.onReceiveReturn C T body
    return { p with data }
  else some p

/-- `_InternalOnPacket`, with the value of the handler if one is run at once. -/
def onPacket (p : ReceivingPeer V) (packet : Packet) (v : V) : Option (ReceivingPeer V) := do
  let origin := p.data.framesReceived
  let p := p.countFrame
  if packet.buffer.length = packet.headerSize then return p.countError
  let kind ← getPacketFlags packet.buffer 0
  if kind &&& FLAGS_PROTOCOL_CONTROLL_SEQUENCE = FLAGS_PROTOCOL_CONTROLL_SEQUENCE then
    p.onPacketWithControllSequence packet
  else
    let flags ← getPacketFlags packet.buffer FLAG_RELIABLE
    p.onReceive C E T origin (packet.buffer.drop packet.headerSize) flags v

/-- `_InternalOnData`, with the values of the handlers that are run at once. -/
def onData (p : ReceivingPeer V) (chunk : Chunk) (values : ℕ → V) : Option (ReceivingPeer V) := do
  let p := p.count fun s => { s with
    bytesReceived := s.bytesReceived + chunk.1.length
    packetsReceived := s.packetsReceived + 1 }
  let (frameDecoder, packets) ← p.data.frameDecoder.pushData chunk
  packets.foldlM (fun p packet => p.onPacket C E T packet (values p.data.framesReceived))
    { p with data := { p.data with frameDecoder } }

/-- What can happen to the peer, in any order: it calls, bytes arrive, a queued call or callback is
executed, and the timeout check looks at an entry. -/
inductive Op (V : Type) where
  | call (executionQueue : Bool) (timeoutTimePoint : ℕ) (payload : List UInt8) (flags : Flags)
  | data (chunk : Chunk) (values : ℕ → V)
  | executeRPC (i : ℕ) (v : V)
  | executeCallback (i : ℕ)
  | checkTimeout (random now : ℕ)

def step (p : ReceivingPeer V) : Op V → Option (ReceivingPeer V)
  | .call executionQueue timeoutTimePoint payload flags => do
    return { p with data := ← p.data.callSend C T executionQueue timeoutTimePoint payload flags }
  | .data chunk values => p.onData C E T chunk values
  | .executeRPC i v => do return { p with data := ← p.data.executeRPC C i v }
  | .executeCallback i => some { p with data := p.data.executeCallback C i }
  | .checkTimeout random now => do
    return { p with data := ← p.data.checkForTimeoutFunctionCalls C T random now }

def run (p : ReceivingPeer V) (ops : List (Op V)) : Option (ReceivingPeer V) :=
  ops.foldlM (step C E T) p

end ReceivingPeer

/-! ### Who touches the decoder -/

namespace Endpoint

variable {V : Type} {C : Codec V} {E : RPCEnvironment} {T : MapTraits UInt32 OnReturnCallback}
  {e e' : Endpoint V}

theorem callSend_frameDecoder {executionQueue : Bool} {timeoutTimePoint : ℕ} {payload : List UInt8}
    {flags : Flags} (h : e.callSend C T executionQueue timeoutTimePoint payload flags = some e') :
    e'.frameDecoder = e.frameDecoder := by
  simp only [callSend, Option.bind_eq_bind, Option.bind_eq_some_iff] at h
  obtain ⟨id, -, m, -, bytes, -, h⟩ := h
  rw [← Option.some.inj h]
  rfl

theorem finishCallback_frameDecoder {cb : OnReturnCallback} {outcome : Option (UInt32 × List UInt8)}
    (h : e.finishCallback C cb outcome = some e') : e'.frameDecoder = e.frameDecoder := by
  obtain ⟨call, -, h⟩ := Option.bind_eq_some_iff.mp h
  split_ifs at h <;> rw [← Option.some.inj h]

theorem onReceiveReturn_frameDecoder {body : List UInt8} (h : e.onReceiveReturn C T body = some e') :
    e'.frameDecoder = e.frameDecoder := by
  obtain ⟨found, -, h⟩ := Option.bind_eq_some_iff.mp h
  cases found with
  | none => rw [← Option.some.inj h]
  | some j =>
    simp only [Option.bind_eq_bind, Option.bind_eq_some_iff] at h
    obtain ⟨pair, -, m, -, h⟩ := h
    have hfin := finishCallback_frameDecoder h
    exact hfin

theorem checkForTimeoutFunctionCalls_frameDecoder {random now : ℕ}
    (h : e.checkForTimeoutFunctionCalls C T random now = some e') : e'.frameDecoder = e.frameDecoder := by
  unfold checkForTimeoutFunctionCalls at h
  split_ifs at h
  · rw [← Option.some.inj h]
  obtain ⟨pair, -, h⟩ := Option.bind_eq_some_iff.mp h
  split_ifs at h
  · simp only [Option.bind_eq_bind, Option.bind_eq_some_iff] at h
    obtain ⟨e₁, hfin, m, -, h⟩ := h
    have hdec := finishCallback_frameDecoder hfin
    rw [← Option.some.inj h]
    exact hdec
  · rw [← Option.some.inj h]

theorem deserializeAndExecute_frameDecoder {n : ℕ} {rpc : ExecuteRPC} {v : V}
    (h : e.deserializeAndExecute C n rpc v = some e') : e'.frameDecoder = e.frameDecoder := by
  unfold deserializeAndExecute at h
  split_ifs at h
  · obtain ⟨bytes, -, h⟩ := Option.bind_eq_some_iff.mp h
    rw [← Option.some.inj h]
    rfl
  · rw [← Option.some.inj h]
  · rw [← Option.some.inj h]

theorem onReceiveCall_frameDecoder {n : ℕ} {body : List UInt8} {flags : Flags} {v : V}
    (h : e.onReceiveCall C E n body flags v = some e') : e'.frameDecoder = e.frameDecoder := by
  unfold onReceiveCall at h
  split at h
  · rw [← Option.some.inj h]
  · split_ifs at h
    · rw [← Option.some.inj h]
    · exact deserializeAndExecute_frameDecoder h

theorem executeRPC_frameDecoder {i : ℕ} {v : V} (h : e.executeRPC C i v = some e') :
    e'.frameDecoder = e.frameDecoder := by
  unfold executeRPC at h
  split at h
  · rw [← Option.some.inj h]
  · have hexec := deserializeAndExecute_frameDecoder h
    exact hexec

theorem executeCallback_frameDecoder (e : Endpoint V) (i : ℕ) :
    (e.executeCallback C i).frameDecoder = e.frameDecoder := by
  unfold executeCallback
  split <;> rfl

end Endpoint

/-! ### Packets -/

namespace Framing.Packet

variable {packet : Packet}

theorem kind_and_six (packet : Packet) : packet.kind &&& 6 = packet.kind := by
  rw [kind, UInt8.toUInt32_and, UInt32.and_assoc]
  rfl

/-- The kind that `OnReceive` looks at. -/
theorem kind_reliable (packet : Packet) : (FLAG_RELIABLE ||| packet.kind) &&& 6 = packet.kind := by
  rw [or_and_six, packet.kind_and_six]
  exact UInt32.zero_or

/-- A call is not a control sequence. -/
theorem isControll_of_isCall (h : packet.isCall = true) : packet.isControll = false := by
  simp only [isCall, decide_eq_true_eq] at h
  rcases h with hk | hk <;> simp only [isControll, hk] <;> decide

/-- The flags that are read from a packet. -/
theorem Exact.getPacketFlags_eq (h : packet.Exact) (other : Flags) :
    getPacketFlags packet.buffer other = some (other ||| packet.kind) := by
  have hpos := h.headerSize_lt
  cases hbuffer : packet.buffer with
  | nil => simp [hbuffer] at hpos
  | cons b t => simp [getPacketFlags, kind, hbuffer]

end Framing.Packet

namespace ReceivingPeer

open Endpoint

variable {V : Type} {C : Codec V} {E : NamedMessages} {T : MapTraits UInt32 OnReturnCallback}
  {p p' : ReceivingPeer V} {ps : List Packet}

/-- **What `_InternalOnPacket` does with a packet of the decoder:** a control sequence is an error,
and the rest goes to `OnReceive`. -/
theorem onPacket_of_exact {packet : Packet} (hx : packet.Exact) (v : V) :
    p.onPacket C E T packet v =
      if packet.isControll then some p.countFrame.countError
      else p.countFrame.onReceive C E T p.data.framesReceived packet.body
        (FLAG_RELIABLE ||| packet.kind) v := by
  have hsize : packet.buffer.length ≠ packet.headerSize := hx.headerSize_lt.ne'
  have hbyte := List.getElem?_eq_getElem hx.headerSize_lt
  have hkind : (0 ||| packet.kind) &&& FLAGS_PROTOCOL_CONTROLL_SEQUENCE = packet.kind := by
    rw [UInt32.zero_or]
    exact packet.kind_and_six
  simp only [onPacket, hsize, if_false, hx.getPacketFlags_eq, hkind, Packet.isControll, Option.bind_eq_bind,
    Option.bind_some, decide_eq_true_eq]
  split_ifs
  · simp only [onPacketWithControllSequence, onPacketWithControllSequenceBackend, hbyte,
      Option.bind_eq_bind, Option.bind_some, Option.pure_def, ite_self]
  · rfl

/-- A packet that is not accepted trips the assertion. -/
theorem onPacket_of_not_accepts {packet : Packet} (hx : packet.Exact)
    (hacc : E.accepts C packet = false) (v : V) : p.onPacket C E T packet v = none := by
  simp only [NamedMessages.accepts, Bool.or_eq_false_iff, Bool.not_eq_false'] at hacc
  obtain ⟨hcall, hname⟩ := hacc
  have hcontroll := Packet.isControll_of_isCall hcall
  simp only [Packet.isCall, decide_eq_true_eq] at hcall
  rw [onPacket_of_exact hx]
  simp only [hcontroll, Bool.false_eq_true, if_false, onReceive, packet.kind_reliable, hcall, if_true,
    onReceiveCall]
  simp only [NamedMessages.nameBytes] at hname
  simp [guard, hname]

/-! ### Counting -/

/-- What is counted for packets. -/
def counted (qs : List Packet) : ReceiveStats := ⟨0, 0, qs.length, qs.countP Packet.isControll⟩

/-- The peer has counted the packets, and its decoder is what it was. -/
structure Counts (qs : List Packet) (p p' : ReceivingPeer V) : Prop where
  stats : p' = { p.count fun s => s.add (counted qs) with data := p'.data }
  frameDecoder : p'.data.frameDecoder = p.data.frameDecoder

theorem Counts.trans {qs rs : List Packet} {p₁ : ReceivingPeer V} (h : Counts qs p p₁)
    (h' : Counts rs p₁ p') : Counts (qs ++ rs) p p' := by
  refine ⟨h'.stats.trans ?_, h'.frameDecoder.trans h.frameDecoder⟩
  rw [h.stats]
  simp [count, counted, ReceiveStats.add, List.countP_append, Nat.add_assoc]

/-- **`_InternalOnPacket` counts its packet,** and an error if it is a control sequence. -/
theorem onPacket_counts {packet : Packet} (hx : packet.Exact) {v : V}
    (h : p.onPacket C E T packet v = some p') : Counts [packet] p p' := by
  rw [onPacket_of_exact hx] at h
  split_ifs at h with hcontroll
  · obtain rfl := Option.some.inj h
    exact ⟨by simp [countError, countFrame, count, counted, ReceiveStats.add, hcontroll], rfl⟩
  -- the rest is counted before it is dispatched
  have hframe : Counts [packet] p p.countFrame :=
    ⟨by simp [countFrame, count, counted, ReceiveStats.add, hcontroll], rfl⟩
  have hdata {a : Endpoint V} (ha : a.frameDecoder = p.countFrame.data.frameDecoder) :
      Counts [packet] p { p.countFrame with data := a } := by
    refine ⟨?_, ha.trans hframe.frameDecoder⟩
    rw [hframe.stats]
  unfold onReceive at h
  split_ifs at h
  · obtain ⟨-, -, h⟩ := Option.bind_eq_some_iff.mp h
    obtain ⟨a, ha, h⟩ := Option.bind_eq_some_iff.mp h
    obtain rfl := Option.some.inj h
    exact hdata (onReceiveCall_frameDecoder ha)
  · obtain ⟨a, ha, h⟩ := Option.bind_eq_some_iff.mp h
    obtain rfl := Option.some.inj h
    exact hdata (onReceiveReturn_frameDecoder ha)
  · obtain rfl := Option.some.inj h
    exact hframe

theorem onPackets_counts (values : ℕ → V) {qs : List Packet} (hx : ∀ q ∈ qs, q.Exact)
    (h : qs.foldlM (fun p packet => p.onPacket C E T packet (values p.data.framesReceived)) p = some p') :
    Counts qs p p' := by
  induction qs generalizing p with
  | nil =>
    obtain rfl := Option.some.inj h
    exact ⟨rfl, rfl⟩
  | cons q qs ih =>
    obtain ⟨p₁, h₁, hrest⟩ := foldlM_cons_eq_some.mp h
    exact (onPacket_counts (hx q List.mem_cons_self) h₁).trans
      (ih (fun r hr => hx r (List.mem_cons_of_mem _ hr)) hrest)

/-! ### Packets that are received -/

/-- The peer has received the packets `qs` after `ps`. -/
structure Receives (C : Codec V) (E : NamedMessages) (T : MapTraits UInt32 OnReturnCallback)
    (ps qs : List Packet) (p p' : ReceivingPeer V) : Prop where
  holds : Holds C E T (ps ++ qs) p'.data
  frameDecoder : p'.data.frameDecoder = p.data.frameDecoder
  ids : p'.data.ids = p.data.ids

/-- **`OnReceive`, of any packet that is accepted:** the call that it brings is handled, or the call
that it answers is done. -/
theorem onReceive_spec (h : Holds C E T ps p.data)
    (hT : ∀ cb v, cb.callback = none → T.assign cb v = v) {packet : Packet}
    (hacc : E.accepts C packet = true) (v : V) :
    Yields (p.countFrame.onReceive C E T p.data.framesReceived packet.body
        (FLAG_RELIABLE ||| packet.kind) v) (Fits C v) fun p' =>
      Goes C E T (ps ++ [packet]) p.countFrame.data p'.data ∧
        ∀ rpc, E.read C packet = some rpc → p'.data.Handled ps.length rpc := by
  have htraced : Traced C E T (ps ++ [packet]) p.countFrame.data := h.traced.receive hacc
  have hlast : (ps ++ [packet])[p.data.framesReceived]? = some packet := by simp [h.traced.received]
  simp only [onReceive, packet.kind_reliable]
  by_cases hcall : packet.isCall = true
  · have hread : E.read C packet = E.readCall C packet.body (FLAG_RELIABLE ||| packet.kind) := by
      rw [NamedMessages.read, if_pos hcall]
    have hname : E.named (if packet.kind = FLAGS_CALL then (C.decodeUint packet.body).2
        else packet.body) = true := by
      simpa [NamedMessages.accepts, NamedMessages.nameBytes, hcall] using hacc
    have hspec := htraced.onReceiveCall (n := p.data.framesReceived)
      (fun rpc hrpc => ⟨packet, hlast, hread.trans hrpc⟩) (Nat.lt_succ_self _)
      (fun hn => lt_irrefl _ (h.traced.own.origins_lt _ hn)) v
    rw [if_pos (by simpa [Packet.isCall] using hcall)]
    simp only [onReceiveCall, packet.kind_reliable, hname, guard, if_true, Option.bind_eq_bind,
      Option.pure_def, Option.bind_some]
    refine hspec.bind ?_
    rintro a' ⟨hgoes, hhandled⟩
    refine .of_some ⟨hgoes, fun rpc hrpc => ?_⟩
    rw [← h.traced.received]
    exact hhandled rpc (hread.symm.trans hrpc)
  · have hnone : ∀ a' : Endpoint V, ∀ rpc, E.read C packet = some rpc → a'.Handled ps.length rpc := by
      intro a' rpc hrpc
      rw [NamedMessages.read, if_neg hcall] at hrpc
      cases hrpc
    rw [if_neg (by simpa [Packet.isCall] using hcall)]
    split_ifs with hkind
    · obtain ⟨a', hrun, hgoes⟩ := htraced.onReceiveReturn hT
        (List.mem_append_right _ (List.mem_singleton_self packet)) hkind
      simp only [hrun, Option.bind_eq_bind, Option.bind_some, Option.pure_def]
      exact .of_some ⟨hgoes, hnone a'⟩
    · exact .of_some ⟨.refl htraced, hnone _⟩

/-- **`_InternalOnPacket`, of any packet that a decoder passes on.** -/
theorem onPacket_spec (h : Holds C E T ps p.data)
    (hT : ∀ cb v, cb.callback = none → T.assign cb v = v) {packet : Packet} (hx : packet.Exact) (v : V) :
    Yields (p.onPacket C E T packet v) (E.accepts C packet = true ∧ Fits C v)
      (Receives C E T ps [packet] p) := by
  cases hacc : E.accepts C packet with
  | false =>
    rw [onPacket_of_not_accepts hx hacc]
    exact ⟨fun p' hp' => (by cases hp'), fun hfits => (by cases hfits.1)⟩
  | true =>
    rw [onPacket_of_exact hx]
    split_ifs with hcontroll
    · have hread : E.read C packet = none := by
        rw [NamedMessages.read, if_neg]
        intro hcall
        rw [Packet.isControll_of_isCall hcall] at hcontroll
        cases hcontroll
      refine .of_some ⟨h.receive (.refl (h.traced.receive hacc)) fun rpc hrpc => ?_, rfl, rfl⟩
      rw [hread] at hrpc
      cases hrpc
    · refine (onReceive_spec h hT hacc v).mono (fun hfits => hfits.2) ?_
      rintro p' ⟨hgoes, hhandled⟩
      exact ⟨h.receive hgoes hhandled, hgoes.frameDecoder, hgoes.ids⟩

theorem Receives.trans {qs rs : List Packet} {p₁ : ReceivingPeer V} (h : Receives C E T ps qs p p₁)
    (h' : Receives C E T (ps ++ qs) rs p₁ p') : Receives C E T ps (qs ++ rs) p p' :=
  ⟨List.append_assoc ps qs rs ▸ h'.holds, h'.frameDecoder.trans h.frameDecoder, h'.ids.trans h.ids⟩

/-- **The packets that one piece of the stream completes,** one after the other. -/
theorem onPackets_spec (hT : ∀ cb v, cb.callback = none → T.assign cb v = v) (values : ℕ → V)
    {qs : List Packet} (h : Holds C E T ps p.data) (hx : ∀ q ∈ qs, q.Exact) :
    Yields (qs.foldlM (fun p packet => p.onPacket C E T packet (values p.data.framesReceived)) p)
      ((∀ q ∈ qs, E.accepts C q = true) ∧ ∀ i, Fits C (values i)) (Receives C E T ps qs p) := by
  induction qs generalizing p ps with
  | nil => exact .of_some ⟨by simpa using h, rfl, rfl⟩
  | cons q qs ih =>
    rw [List.foldlM_cons]
    refine ((onPacket_spec h hT (hx q List.mem_cons_self) _).mono
      (fun hfits => ⟨hfits.1 q List.mem_cons_self, hfits.2 _⟩) fun p₁ h₁ => h₁).bind ?_
    intro p₁ h₁
    refine (ih h₁.holds fun r hr => hx r (List.mem_cons_of_mem _ hr)).mono
      (fun hfits => ⟨fun r hr => hfits.1 r (List.mem_cons_of_mem _ hr), hfits.2⟩) ?_
    exact fun p' h' => h₁.trans h'

/-! ### Runs -/

/-- The bytes that arrive. -/
def Op.bytes : Op V → List UInt8
  | .data chunk _ => chunk.1
  | _ => []

def Op.isData : Op V → Bool
  | .data _ _ => true
  | _ => false

def Op.isCall : Op V → Bool
  | .call _ _ _ _ => true
  | _ => false

/-- The action fits: no frame that it makes is too long for a header. -/
def Op.Fits (C : Codec V) : Op V → Prop
  | .call _ _ payload _ => 4 + payload.length ≤ 2 ^ 28
  | .data _ values => ∀ i, Endpoint.Fits C (values i)
  | .executeRPC _ v => Endpoint.Fits C v
  | .executeCallback _ => True
  | .checkTimeout _ _ => True

/-- All bytes that arrive in a run. -/
def stream (ops : List (Op V)) : List UInt8 := (ops.map Op.bytes).flatten

/-- The packets that they hold. -/
def packets (ops : List (Op V)) : List Packet := (FrameDecoder.cut (stream ops)).2

/-- What is counted for bytes that came in some number of pieces. -/
def received (bytes : List UInt8) (chunks : ℕ) : ReceiveStats :=
  ⟨bytes.length, chunks, (FrameDecoder.cut bytes).2.length,
    (FrameDecoder.cut bytes).2.countP Packet.isControll⟩

/-- The peer with a piece of the stream counted and decoded. -/
def taken (p : ReceivingPeer V) (chunk : Chunk) (frameDecoder : FrameDecoder) : ReceivingPeer V :=
  { p.count fun s => { s with
      bytesReceived := s.bytesReceived + chunk.1.length
      packetsReceived := s.packetsReceived + 1 } with
    data := { p.data with frameDecoder } }

variable {p₀ : ReceivingPeer V} {bytes : List UInt8} {chunks : ℕ}

/-- **What `_InternalOnData` does after the bytes so far:** the decoder goes on cutting where it was. -/
theorem onData_eq (h : p.data.frameDecoder = (FrameDecoder.cut bytes).1) (chunk : Chunk) (values : ℕ → V) :
    ∃ (frameDecoder : FrameDecoder) (qs : List Packet),
      FrameDecoder.cut (bytes ++ chunk.1) = (frameDecoder, (FrameDecoder.cut bytes).2 ++ qs) ∧
      (∀ q ∈ qs, q.Exact) ∧ p.onData C E T chunk values =
        qs.foldlM (fun p packet => p.onPacket C E T packet (values p.data.framesReceived))
          (p.taken chunk frameDecoder) := by
  refine ⟨_, _, FrameDecoder.cut_append bytes chunk.1, fun q hq => FrameDecoder.cut_exact hq, ?_⟩
  have hpush : p.data.frameDecoder.pushData chunk =
      some (FrameDecoder.cut ((FrameDecoder.delimiter.parse bytes).2 ++ chunk.1)) := by
    rw [h]
    exact FrameDecoder.pushData_eq_cut _ chunk fun n hn => Lib.Delimiter.parse_rest_lt _ hn
  simp only [ReceivingPeer.onData, count, hpush, Option.bind_eq_bind, Option.bind_some]
  rfl

/-- **The counters, after the bytes have been received** in some number of pieces. -/
structure Counted (p₀ : ReceivingPeer V) (bytes : List UInt8) (chunks : ℕ) (p : ReceivingPeer V) :
    Prop where
  frameDecoder : p.data.frameDecoder = (FrameDecoder.cut bytes).1
  stats : p = { p₀.count fun s => s.add (received bytes chunks) with data := p.data }

/-- What receives nothing counts nothing. -/
theorem Counted.update (h : Counted p₀ bytes chunks p) {a : Endpoint V}
    (hdec : a.frameDecoder = p.data.frameDecoder) : Counted p₀ bytes chunks { p with data := a } :=
  ⟨hdec.trans h.frameDecoder, by rw [h.stats]⟩

theorem Counted.onData (h : Counted p₀ bytes chunks p) {chunk : Chunk} {values : ℕ → V}
    (hrun : p.onData C E T chunk values = some p') : Counted p₀ (bytes ++ chunk.1) (chunks + 1) p' := by
  obtain ⟨frameDecoder, qs, hcut, hx, heq⟩ :=
    onData_eq (C := C) (E := E) (T := T) h.frameDecoder chunk values
  have hcounts := onPackets_counts values hx (heq.symm.trans hrun)
  refine ⟨hcounts.frameDecoder.trans (by rw [hcut]; rfl), hcounts.stats.trans ?_⟩
  rw [taken, h.stats]
  simp [count, counted, received, hcut, ReceiveStats.add, List.countP_append, Nat.add_assoc]

/-- **Everything that can happen is counted:** only bytes that arrive are. -/
theorem Counted.step (h : Counted p₀ bytes chunks p) {op : Op V} (hstep : step C E T p op = some p') :
    Counted p₀ (bytes ++ op.bytes) (chunks + [op].countP Op.isData) p' := by
  cases op with
  | data chunk values => exact h.onData hstep
  | executeCallback i =>
    obtain rfl := Option.some.inj hstep
    simpa [Op.bytes, Op.isData] using h.update (executeCallback_frameDecoder (C := C) p.data i)
  | call executionQueue timeoutTimePoint payload flags =>
    obtain ⟨a, ha, hstep⟩ := Option.bind_eq_some_iff.mp hstep
    obtain rfl := Option.some.inj hstep
    simpa [Op.bytes, Op.isData] using h.update (callSend_frameDecoder ha)
  | executeRPC i v =>
    obtain ⟨a, ha, hstep⟩ := Option.bind_eq_some_iff.mp hstep
    obtain rfl := Option.some.inj hstep
    simpa [Op.bytes, Op.isData] using h.update (executeRPC_frameDecoder ha)
  | checkTimeout random now =>
    obtain ⟨a, ha, hstep⟩ := Option.bind_eq_some_iff.mp hstep
    obtain rfl := Option.some.inj hstep
    simpa [Op.bytes, Op.isData] using h.update (checkForTimeoutFunctionCalls_frameDecoder ha)

/-- **Every run is counted.** -/
theorem Counted.run (ops : List (Op V)) (h : Counted p₀ bytes chunks p)
    (hrun : run C E T p ops = some p') :
    Counted p₀ (bytes ++ stream ops) (chunks + ops.countP Op.isData) p' := by
  induction ops generalizing p bytes chunks with
  | nil =>
    obtain rfl := Option.some.inj hrun
    simpa [stream] using h
  | cons op ops ih =>
    obtain ⟨p₁, hstep, hrest⟩ := foldlM_cons_eq_some.mp hrun
    have hdata : (op :: ops).countP Op.isData = [op].countP Op.isData + ops.countP Op.isData := by
      rw [← List.countP_append, List.singleton_append]
    have hstream : bytes ++ stream (op :: ops) = (bytes ++ op.bytes) ++ stream ops := by
      simp [stream]
    rw [hdata, hstream, ← Nat.add_assoc]
    exact ih (h.step hstep) hrest

/-- The peer, after it has received the bytes. -/
structure Inv (C : Codec V) (E : NamedMessages) (T : MapTraits UInt32 OnReturnCallback)
    (bytes : List UInt8) (p : ReceivingPeer V) : Prop where
  holds : Holds C E T (FrameDecoder.cut bytes).2 p.data
  frameDecoder : p.data.frameDecoder = (FrameDecoder.cut bytes).1

/-- A step that receives nothing. -/
theorem Inv.update (h : Inv C E T bytes p) {a : Endpoint V}
    (ht : Traced C E T (FrameDecoder.cut bytes).2 a) (hm : Moves p.data a)
    (hdec : a.frameDecoder = p.data.frameDecoder) : Inv C E T bytes { p with data := a } :=
  ⟨h.holds.moves ht hm, hdec.trans h.frameDecoder⟩

/-- The packets of the bytes so far are the first of all. -/
theorem mem_cut_append {t : List UInt8} {q : Packet} (h : q ∈ (FrameDecoder.cut bytes).2) :
    q ∈ (FrameDecoder.cut (bytes ++ t)).2 := by
  rw [FrameDecoder.cut_append]
  exact List.mem_append_left _ h

/-- **`_InternalOnData`, of any bytes.** -/
theorem Inv.onData (h : Inv C E T bytes p)
    (hT : ∀ cb v, cb.callback = none → T.assign cb v = v) (chunk : Chunk) (values : ℕ → V) :
    Yields (p.onData C E T chunk values)
      ((∀ q ∈ (FrameDecoder.cut (bytes ++ chunk.1)).2, E.accepts C q = true) ∧ ∀ i, Fits C (values i))
      fun p' => Inv C E T (bytes ++ chunk.1) p' ∧ p'.data.ids = p.data.ids := by
  obtain ⟨frameDecoder, qs, hcut, hx, heq⟩ :=
    onData_eq (C := C) (E := E) (T := T) h.frameDecoder chunk values
  have hh := h.holds
  have hholds : Holds C E T (FrameDecoder.cut bytes).2 (p.taken chunk frameDecoder).data := by
    have ht := hh.traced
    exact ⟨⟨ht.own.of_origins rfl rfl rfl rfl ht.own.origins_nodup ht.own.origins_lt, ht.received,
      ht.accepted, ht.returned, ht.executed, ht.queued, ht.ran, ht.replied, ht.replied_once⟩,
      ⟨hh.accounts.calls, hh.accounts.framed⟩, hh.handled⟩
  rw [heq, hcut]
  refine (onPackets_spec hT values hholds hx).mono
    (fun hfits => ⟨fun q hq => hfits.1 q (List.mem_append_right _ hq), hfits.2⟩) fun p' h' => ?_
  exact ⟨⟨by rw [hcut]; exact h'.holds, by rw [hcut]; exact h'.frameDecoder⟩, h'.ids⟩

/-- **Everything that can happen keeps the invariant,** and fails only at a packet that is not
accepted. -/
theorem Inv.step (h : Inv C E T bytes p)
    (hT : ∀ cb v, cb.callback = none → T.assign cb v = v) (op : Op V)
    (hlt : p.data.ids.length + [op].countP Op.isCall < 2 ^ 32 - 1) :
    Yields (step C E T p op)
      ((∀ q ∈ (FrameDecoder.cut (bytes ++ op.bytes)).2, E.accepts C q = true) ∧
        p.data.ids.length + [op].countP Op.isCall ≤ 2 ^ 30 ∧ op.Fits C)
      fun p' => Inv C E T (bytes ++ op.bytes) p' ∧
        p'.data.ids.length = p.data.ids.length + [op].countP Op.isCall := by
  cases op with
  | call executionQueue timeoutTimePoint payload flags =>
    simp only [List.countP_singleton, Op.isCall, Op.bytes, if_true, List.append_nil] at hlt ⊢
    refine ((h.holds.traced.callSend (by omega) executionQueue timeoutTimePoint payload flags).mono
      (fun hfits => ⟨by omega, hfits.2.2⟩) fun a' ha' => ha').bind ?_
    rintro a' ⟨ht, hm, hdec, hlen⟩
    exact .of_some ⟨h.update ht hm hdec, hlen⟩
  | data chunk values =>
    refine (h.onData hT chunk values).mono (fun hfits => ⟨hfits.1, hfits.2.2⟩) ?_
    rintro p' ⟨hinv, hids⟩
    exact ⟨hinv, by rw [hids]; rfl⟩
  | executeRPC i v =>
    simp only [List.countP_singleton, Op.isCall, Op.bytes, Bool.false_eq_true, if_false,
      List.append_nil, Nat.add_zero]
    refine ((h.holds.traced.executeRPC i v).mono (fun hfits => hfits.2.2) fun a' ha' => ha').bind ?_
    intro a' hg
    exact .of_some ⟨h.update hg.traced hg.moves hg.frameDecoder, by rw [hg.ids]⟩
  | executeCallback i =>
    simp only [List.countP_singleton, Op.isCall, Op.bytes, Bool.false_eq_true, if_false,
      List.append_nil, Nat.add_zero]
    have hg := h.holds.traced.executeCallback i
    exact .of_some ⟨h.update hg.traced hg.moves hg.frameDecoder, by rw [hg.ids]⟩
  | checkTimeout random now =>
    simp only [List.countP_singleton, Op.isCall, Op.bytes, Bool.false_eq_true, if_false,
      List.append_nil, Nat.add_zero]
    obtain ⟨a', hrun, hg⟩ := h.holds.traced.checkForTimeoutFunctionCalls hT random now
    simp only [ReceivingPeer.step, hrun, Option.bind_eq_bind, Option.bind_some, Option.pure_def]
    exact .of_some ⟨h.update hg.traced hg.moves hg.frameDecoder, by rw [hg.ids]⟩

/-- **Every run keeps the invariant,** and fails only at a packet that is not accepted. -/
theorem Inv.run (hT : ∀ cb v, cb.callback = none → T.assign cb v = v) (ops : List (Op V))
    (h : Inv C E T bytes p) (hlt : p.data.ids.length + ops.countP Op.isCall < 2 ^ 32 - 1) :
    Yields (run C E T p ops)
      ((∀ q ∈ (FrameDecoder.cut (bytes ++ stream ops)).2, E.accepts C q = true) ∧
        p.data.ids.length + ops.countP Op.isCall ≤ 2 ^ 30 ∧ ∀ op ∈ ops, op.Fits C)
      (Inv C E T (bytes ++ stream ops)) := by
  induction ops generalizing p bytes with
  | nil => exact .of_some (by simpa [stream] using h)
  | cons op ops ih =>
    have hcalls : (op :: ops).countP Op.isCall = [op].countP Op.isCall + ops.countP Op.isCall := by
      rw [← List.countP_append, List.singleton_append]
    have hstream : bytes ++ stream (op :: ops) = (bytes ++ op.bytes) ++ stream ops := by
      simp [stream]
    rw [hcalls] at hlt
    rw [hcalls, hstream, ReceivingPeer.run, List.foldlM_cons]
    refine ((h.step hT op (by omega)).mono (fun hfits => ⟨fun q hq => hfits.1 q (mem_cut_append hq),
      by omega, hfits.2.2 op List.mem_cons_self⟩) fun p₁ h₁ => h₁).bind ?_
    rintro p₁ ⟨h₁, hlen⟩
    exact (ih h₁ (by omega)).mono (fun hfits => ⟨hfits.1, by omega, fun op' hop' =>
      hfits.2.2 op' (List.mem_cons_of_mem _ hop')⟩) fun p' hp' => hp'

theorem cut_nil : FrameDecoder.cut [] = (FrameDecoder.fresh, []) := by
  have hnil : FrameDecoder.delimiter.parse [] = ([], []) :=
    Lib.Delimiter.parse_of_lt fun n hn => FrameDecoder.delimiter.len_pos hn
  rw [FrameDecoder.cut, hnil]
  rfl

/-- A peer that has not received anything. -/
theorem inv_init (E : NamedMessages) (baseHash : UInt64) (stats hostStats loopStats : ReceiveStats) :
    Inv C E T [] (⟨.init baseHash, stats, hostStats, loopStats⟩ : ReceivingPeer V) := by
  have hown : Own T (.init baseHash : Endpoint V) := by
    refine ⟨FlatHashMap.wf_empty (e := 4) (by decide) (by decide) _, by simp [Endpoint.init],
      by simp [Endpoint.init], rfl, ?_, ?_, ?_, ?_, ?_, ?_, ?_⟩ <;>
      simp [Endpoint.init, done, origins, FlatHashMap.entries]
  refine ⟨?_, by rw [cut_nil]; rfl⟩
  rw [cut_nil]
  refine ⟨⟨hown, rfl, ?_, ?_, ?_, ?_, ?_, ?_, ?_⟩, ⟨?_, ?_⟩, ?_⟩ <;>
    simp [Endpoint.init, NamedMessages.Brings]

theorem counted_init (baseHash : UInt64) (stats hostStats loopStats : ReceiveStats) :
    Counted ⟨.init baseHash, stats, hostStats, loopStats⟩ [] 0
      (⟨.init baseHash, stats, hostStats, loopStats⟩ : ReceivingPeer V) :=
  ⟨by rw [cut_nil]; rfl, by simp [count, received, cut_nil, ReceiveStats.add]⟩

/-- **What a peer keeps to, whatever it receives.** -/
structure Withstands (C : Codec V) (E : NamedMessages) (ps : List Packet) (e : Endpoint V) : Prop where
  /-- A call is done at most once, as a return or as a timeout, -/
  once : e.done.Nodup
  /-- and every call is either done or still waits for its return. -/
  calls : ∀ c < e.ids.length, Xor (c ∈ e.done) (c ∈ e.pending)
  /-- A callback that is executed as a return has got a received return frame with the id with which
  its own call was sent, and the value that is read behind the id. -/
  returned : ∀ c id v, (⟨c, some (id, v)⟩ : Executed V) ∈ e.executed → e.ids[c]? = some id ∧
    ∃ packet ∈ ps, packet.kind = FLAGS_CALL_RETURN_FEEDBACK ∧
      (C.decodeUint packet.body).1 = id ∧ C.decode (C.decodeUint packet.body).2 = v
  /-- No packet starts two handlers, -/
  runs_once : e.origins.Nodup
  /-- and a handler is run only for a call to a registered function whose arguments can be read. -/
  ran : ∀ n v, (n, v) ∈ e.runs → ∃ rpc, E.Brings C ps n rpc ∧ rpc.runs = true
  /-- No packet is answered twice, -/
  replied_once : (e.sent.filterMap answered).Nodup
  /-- an answer has the id of the call and the value of its handler, -/
  replied : ∀ n bytes, (⟨.reply n, bytes⟩ : SentFrame) ∈ e.sent → ∃ rpc v, E.Brings C ps n rpc ∧
    rpc.answers = true ∧ (n, v) ∈ e.runs ∧ rpc.replyFrame C v = some bytes
  /-- and a call that is to be answered is answered or waits in the queue of its handler. -/
  handled : ∀ n rpc, E.Brings C ps n rpc → rpc.answers = true → (n, rpc) ∈ e.rpcQueue ∨ e.Replied n

theorem Withstands.of_holds {e : Endpoint V} (h : Holds C E T ps e) : Withstands C E ps e := by
  have ht := h.traced
  have hdisjoint : ∀ c ∈ e.done, c ∉ e.pending := by
    intro c hc hp
    obtain ⟨id, cb, hm, hcb, -⟩ := ht.own.mem_pending_iff.mp hp
    exact ht.own.done_pending c hc id cb hm hcb
  refine ⟨ht.own.done_nodup, fun c hc => ?_, fun c id v hm => ?_, ht.own.origins_nodup,
    fun n v hm => ht.ran (n, v) hm, ht.replied_once, fun n bytes hm => ?_, fun n rpc hb hans => ?_⟩
  · rcases h.accounts.calls c hc with hd | hp
    · exact .inl ⟨hd, hdisjoint c hd⟩
    · exact .inr ⟨hp, fun hd => hdisjoint c hd hp⟩
  · obtain ⟨reader, ⟨hid, packet, hmem, hkind, hdec⟩, hv⟩ := ht.executed _ hm id v rfl
    exact ⟨hid, packet, hmem, hkind, by rw [hdec], by rw [hdec, hv]⟩
  · obtain ⟨rpc, v, hb, hv, hrep, hbytes⟩ := ht.replied _ hm n rfl
    obtain ⟨rpc', hb', hruns⟩ := ht.ran _ hv
    obtain ⟨q, hq, hread⟩ := hb
    obtain ⟨q', hq', hread'⟩ := hb'
    obtain rfl := Option.some.inj (hq.symm.trans hq')
    obtain rfl := Option.some.inj (hread.symm.trans hread')
    exact ⟨rpc, v, ⟨q, hq, hread⟩, by rw [ExecuteRPC.answers, hruns, hrep]; rfl, hv, hbytes⟩
  · exact (h.handled n rpc hb).imp_right fun hr => hr hans

section

variable (C : Codec V) (E : NamedMessages) (hash : UInt32 → UInt64 → UInt32) (baseHash : UInt64)
  (stats hostStats loopStats : ReceiveStats) (ops : List (Op V))

/-- A run from the beginning. -/
def runs : Option (ReceivingPeer V) :=
  run C E (OnReturnCallback.traits hash) ⟨.init baseHash, stats, hostStats, loopStats⟩ ops

theorem runs_inv (hcalls : ops.countP Op.isCall < 2 ^ 32 - 1) :
    Yields (runs C E hash baseHash stats hostStats loopStats ops)
      ((∀ q ∈ packets ops, E.accepts C q = true) ∧ ops.countP Op.isCall ≤ 2 ^ 30 ∧
        ∀ op ∈ ops, op.Fits C)
      (Inv C E (OnReturnCallback.traits hash) (stream ops)) := by
  have hrun := (inv_init (C := C) (T := OnReturnCallback.traits hash) E baseHash stats hostStats
    loopStats).run (OnReturnCallback.traits_assign hash) ops (by simpa [Endpoint.init] using hcalls)
  simpa [Endpoint.init, packets, runs] using hrun

/-- **Whatever the other side sends,** in whatever pieces, a peer that makes fewer than `2 ^ 32 - 1`
calls does what it should with them and with the calls that it receives, and what it executes and
answers is asked for by the bytes.  If it makes at most `2 ^ 30` calls and its own frames fit, a run
fails if and only if a received call names no function, and then in an assertion. -/
theorem any_bytes (hcalls : ops.countP Op.isCall < 2 ^ 32 - 1) :
    (∀ p, runs C E hash baseHash stats hostStats loopStats ops = some p →
      Withstands C E (packets ops) p.data) ∧
    (ops.countP Op.isCall ≤ 2 ^ 30 → (∀ op ∈ ops, op.Fits C) →
      ((∃ p, runs C E hash baseHash stats hostStats loopStats ops = some p) ↔
        ∀ packet ∈ packets ops, E.accepts C packet = true)) := by
  have hinv := runs_inv C E hash baseHash stats hostStats loopStats ops hcalls
  refine ⟨fun p hp => .of_holds (hinv.1 p hp).holds, fun hfew hfits => ⟨?_, fun hacc => ?_⟩⟩
  · rintro ⟨p, hp⟩
    exact (hinv.1 p hp).holds.traced.accepted
  · exact hinv.2 ⟨hacc, hfew, hfits⟩

/-- **The counters of what is received are exact:** they have grown by the bytes, the pieces they came
in, the frames that the bytes hold and, as errors, the control sequences among them; a frame without
a body, the other error, is never received. -/
theorem received_counted (p : ReceivingPeer V)
    (hp : runs C E hash baseHash stats hostStats loopStats ops = some p) :
    p.stats = stats.add (received (stream ops) (ops.countP Op.isData)) ∧
    p.hostStats = hostStats.add (received (stream ops) (ops.countP Op.isData)) ∧
    p.loopStats = loopStats.add (received (stream ops) (ops.countP Op.isData)) ∧
    ∀ packet ∈ packets ops, packet.buffer.length ≠ packet.headerSize := by
  have hcounted := (counted_init baseHash stats hostStats loopStats).run ops hp
  rw [List.nil_append, Nat.zero_add] at hcounted
  refine ⟨by rw [hcounted.stats]; rfl, by rw [hcounted.stats]; rfl, by rw [hcounted.stats]; rfl,
    fun q hq => ?_⟩
  exact (FrameDecoder.cut_exact hq).headerSize_lt.ne'

end

/-- Every function is registered, and a name does not begin with a zero. -/
def anyName : NamedMessages where
  find body := some (⟨fun _ _ => false, fun _ => true⟩, body)
  named reader := reader.head? != some 0

/-- Returns to calls that were not made, a control sequence, the same return twice, and a call. -/
def hostile : List (Op UInt8) :=
  [.call false 10 [7] 0, .data ⟨[0x48, 0, 0], by decide⟩ fun _ => 0,
    .data ⟨[0, 9, 42, 0x0C, 0x80], by decide⟩ fun _ => 0,
    .data ⟨[0x48, 0, 0, 0, 1, 42, 0x48, 0, 0, 0, 1, 43], by decide⟩ fun _ => 0,
    .data ⟨[0x44, 0, 0, 0, 5, 7], by decide⟩ fun _ => 50]

theorem any_bytes_hostile :
    let r := runs .bytes anyName (fun k _ => k) 0 {} {} {} hostile
    (r.map fun p => (p.data.executed.map fun x => (x.call, x.outcome), p.data.runs)) =
        some ([(0, some (1, 42))], [(4, 50)]) ∧
      (∀ p, r = some p → Withstands .bytes anyName (packets hostile) p.data) ∧
      runs .bytes anyName (fun k _ => k) 0 {} {} {}
        [.data ⟨[0x44, 0, 0, 0, 5, 0], by decide⟩ fun _ => (50 : UInt8)] = none := by
  intro r
  exact ⟨by decide +kernel,
    (any_bytes .bytes anyName (fun k _ => k) 0 {} {} {} hostile (by decide)).1, by decide +kernel⟩

theorem received_counted_hostile :
    ∃ p, runs .bytes anyName (fun k _ => k) 0 ⟨10, 1, 1, 0⟩ {} {} hostile = some p ∧
      p.stats = ⟨36, 5, 6, 1⟩ ∧
      p.hostStats = ReceiveStats.add {} (received (stream hostile) (hostile.countP Op.isData)) := by
  obtain ⟨p, hp, hstats⟩ := (Option.any_eq_true _ _).mp
    (show (runs .bytes anyName (fun k _ => k) 0 ⟨10, 1, 1, 0⟩ {} {} hostile).any
      (fun p => p.stats = ⟨36, 5, 6, 1⟩) = true by decide +kernel)
  exact ⟨p, hp, of_decide_eq_true hstats,
    (received_counted .bytes anyName (fun k _ => k) 0 ⟨10, 1, 1, 0⟩ {} {} hostile p hp).2.1⟩

end ReceivingPeer
end ICon7
