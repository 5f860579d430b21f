/-
# What has happened traces back to the received packets

A peer that makes and answers calls, as in `Rpc.Endpoint`, and packets that nothing is known of.
`Traced` says of each thing that has happened which packet it is for: a callback is executed as a
return only for a return frame with the id of its call, a handler is run only for a call, once, and
an answer is sent only for a handler that was run, with its value.  Every function of the peer
keeps this, whether it looks at a packet (`Traced.onReceiveReturn`, `Traced.onReceiveCall`) or not,
and `Endpoint.Moves` adds that no call is forgotten (`Holds`).

In `Rpc.Calls` the packets are the frames of another peer, and a return is known to come from the
handler of its call; here it is known to come from the other side, and no more.
-/

import ICon7.Rpc.Complete

namespace ICon7

open Framing Lib

/-! ### What the received packets are -/

namespace Framing.Packet

/-- The kind that `GetPacketFlags` reads from the header. -/
def kind (packet : Packet) : Flags := ((packet.buffer.headD 0 >>> 1) &&& 6).toUInt32

/-- What is behind the header. -/
def body (packet : Packet) : List UInt8 := packet.buffer.drop packet.headerSize

/-- The packet is a call, with or without an answer. -/
def isCall (packet : Packet) : Bool :=
  packet.kind = FLAGS_CALL ∨ packet.kind = FLAGS_CALL_NO_FEEDBACK

/-- The packet is a control sequence. -/
def isControll (packet : Packet) : Bool := packet.kind = FLAGS_PROTOCOL_CONTROLL_SEQUENCE

end Framing.Packet

/-- The registered messages, and which bytes begin with the name of a function: for the others
`RpcName::serialize` gives a name that is not valid. -/
structure NamedMessages extends RPCEnvironment where
  named : List UInt8 → Bool

namespace NamedMessages

variable {V : Type} (C : Codec V) (E : NamedMessages)

/-- The bytes that the name of the call is read from. -/
def nameBytes (packet : Packet) : List UInt8 :=
  if packet.kind = FLAGS_CALL then (C.decodeUint packet.body).2 else packet.body

/-- The packet is no call, or a call that names a function. -/
def accepts (packet : Packet) : Bool := !packet.isCall || E.named (nameBytes C packet)

/-- The call that `OnReceiveCall` reads from the packet. -/
def read (packet : Packet) : Option ExecuteRPC :=
  if packet.isCall then E.readCall C packet.body (FLAG_RELIABLE ||| packet.kind) else none

/-- The packet at the place brings the call. -/
def Brings (ps : List Packet) (n : ℕ) (rpc : ExecuteRPC) : Prop :=
  ∃ packet : Packet, ps[n]? = some packet ∧ E.read C packet = some rpc

end NamedMessages

namespace Endpoint

variable {V : Type} {C : Codec V} {E : NamedMessages} {T : MapTraits UInt32 OnReturnCallback}
  {a a' e : Endpoint V} {ps : List Packet} {n c : ℕ} {rpc : ExecuteRPC}

/-- A return frame was received with the id of the call, and the reader behind the id. -/
def Returned (C : Codec V) (ps : List Packet) (e : Endpoint V) (c : ℕ) (id : UInt32)
    (reader : List UInt8) : Prop :=
  e.ids[c]? = some id ∧ ∃ packet ∈ ps, packet.kind = FLAGS_CALL_RETURN_FEEDBACK ∧
    C.decodeUint packet.body = (id, reader)

/-- The place of the frame that a frame answers. -/
def answered (f : SentFrame) : Option ℕ :=
  match f.kind with
  | .call _ => none
  | .reply n => some n

/-- **What has happened traces back to the packets** that were received. -/
structure Traced (C : Codec V) (E : NamedMessages) (T : MapTraits UInt32 OnReturnCallback)
    (ps : List Packet) (e : Endpoint V) : Prop where
  own : Own T e
  received : e.framesReceived = ps.length
  accepted : ∀ packet ∈ ps, E.accepts C packet = true
  /-- Callbacks that wait for their execution as a return. -/
  returned : ∀ x ∈ e.callbackQueue, ∀ id reader, x.outcome = some (id, reader) →
    Returned C ps e x.call id reader
  /-- Callbacks that were executed as a return. -/
  executed : ∀ x ∈ e.executed, ∀ id v, x.outcome = some (id, v) →
    ∃ reader, Returned C ps e x.call id reader ∧ C.decode reader = v
  /-- Calls that wait for their execution. -/
  queued : ∀ x ∈ e.rpcQueue, E.Brings C ps x.1 x.2
  /-- Handlers that were run. -/
  ran : ∀ x ∈ e.runs, ∃ rpc, E.Brings C ps x.1 rpc ∧ rpc.runs = true
  /-- Answers that were sent. -/
  replied : ∀ f ∈ e.sent, ∀ n, answered f = some n → ∃ rpc v, E.Brings C ps n rpc ∧
    (n, v) ∈ e.runs ∧ rpc.replies = true ∧ rpc.replyFrame C v = some f.bytes
  replied_once : (e.sent.filterMap answered).Nodup

/-- A step of the peer that neither calls nor receives. -/
structure Goes (C : Codec V) (E : NamedMessages) (T : MapTraits UInt32 OnReturnCallback)
    (ps : List Packet) (a a' : Endpoint V) : Prop where
  traced : Traced C E T ps a'
  moves : Moves a a'
  frameDecoder : a'.frameDecoder = a.frameDecoder
  ids : a'.ids = a.ids

theorem Goes.refl (h : Traced C E T ps a) : Goes C E T ps a a := ⟨h, .refl a, rfl, rfl⟩

/-! ### Callbacks -/

/-- A call keeps its id. -/
theorem Returned.mono {id : UInt32} {reader : List UInt8} (h : Returned C ps a c id reader)
    (hids : a.ids <+: a'.ids) : Returned C ps a' c id reader :=
  ⟨getElem?_mono hids h.1, h.2⟩

/-- A step that leaves the handlers alone. -/
theorem Traced.of_callbacks (h : Traced C E T ps a) (ho : Own T a')
    (hrec : a'.framesReceived = a.framesReceived) (hq : a'.rpcQueue = a.rpcQueue)
    (hruns : a'.runs = a.runs) (hsent : ∃ fs, a'.sent = a.sent ++ fs ∧ ∀ f ∈ fs, answered f = none)
    (hret : ∀ x ∈ a'.callbackQueue, ∀ id reader, x.outcome = some (id, reader) →
      Returned C ps a' x.call id reader)
    (hexe : ∀ x ∈ a'.executed, ∀ id v, x.outcome = some (id, v) →
      ∃ reader, Returned C ps a' x.call id reader ∧ C.decode reader = v) : Traced C E T ps a' := by
  obtain ⟨fs, hfs, hnone⟩ := hsent
  refine ⟨ho, hrec.trans h.received, h.accepted, hret, hexe, hq ▸ h.queued, hruns ▸ h.ran,
    fun f hf n hn => ?_, ?_⟩
  · rcases List.mem_append.mp (hfs ▸ hf) with hf | hf
    · rw [hruns]
      exact h.replied f hf n hn
    · rw [hnone f hf] at hn
      cases hn
  · rw [hfs, List.filterMap_append, List.filterMap_eq_nil_iff.mpr hnone, List.append_nil]
    exact h.replied_once

/-- **A callback is taken out of `returningCallbacks`,** and is queued or executed. -/
theorem Traced.finish (h : Traced C E T ps a) (hT : ∀ cb v, cb.callback = none → T.assign cb v = v)
    {j : ℕ} {p : Pair UInt32 OnReturnCallback} (hp : a.returningCallbacks.buckets[j]? = some p)
    (cb : OnReturnCallback) (hcb : cb.callback = none) (outcome : Option (UInt32 × List UInt8))
    (hout : ∀ id reader, outcome = some (id, reader) → id = p.key ∧ ∃ packet ∈ ps,
      packet.kind = FLAGS_CALL_RETURN_FEEDBACK ∧ C.decodeUint packet.body = (id, reader)) :
    ∃ m a', (a.returningCallbacks.store j cb).remove T p.key = some m ∧
      finishCallback C { a with returningCallbacks := m } p.v outcome = some a' ∧
      Goes C E T ps a a' := by
  obtain ⟨m, c, hrem, hc, hid, hnew, ho, hm, hgone⟩ := h.own.take hT hp cb hcb
  have hright : ∀ id reader, outcome = some (id, reader) → Returned C ps a c id reader := by
    intro id reader heq
    obtain ⟨rfl, hpacket⟩ := hout id reader heq
    exact ⟨hid, hpacket⟩
  obtain ⟨a', hfin⟩ : ∃ a',
      finishCallback C { a with returningCallbacks := m } p.v outcome = some a' := by
    simp only [finishCallback, hc, Option.bind_eq_bind, Option.bind_some, Option.pure_def]
    split_ifs
    · exact ⟨_, rfl⟩
    · exact ⟨_, rfl⟩
  obtain ⟨hdone, hids, hsent, hq, hmap, hrec⟩ := finishCallback_done hc hfin
  have hmoves := (h.own.finish_moves hid hm hids hsent hq hmap hdone).1
  refine ⟨m, a', hrem, hfin, ?_, hmoves, ?_, hids⟩
  · simp only [finishCallback, hc, Option.bind_eq_bind, Option.bind_some, Option.pure_def] at hfin
    split_ifs at hfin
    · obtain rfl := Option.some.inj hfin
      refine h.of_callbacks (ho.of_done rfl rfl rfl rfl rfl hdone (List.getElem?_eq_some_iff.mp hid).1
        hnew hgone) rfl rfl rfl ⟨[], by simp, by simp⟩ (fun x hx id reader heq => ?_) h.executed
      rcases List.mem_append.mp hx with hx | hx
      · exact h.returned x hx id reader heq
      · obtain rfl := List.mem_singleton.mp hx
        exact hright id reader heq
    · obtain rfl := Option.some.inj hfin
      refine h.of_callbacks (ho.of_done rfl rfl rfl rfl rfl hdone (List.getElem?_eq_some_iff.mp hid).1
        hnew hgone) rfl rfl rfl ⟨[], by simp, by simp⟩ h.returned fun x hx id v heq => ?_
      rcases List.mem_append.mp hx with hx | hx
      · exact h.executed x hx id v heq
      · obtain rfl := List.mem_singleton.mp hx
        obtain ⟨⟨id', reader⟩, hr, hv⟩ := Option.map_eq_some_iff.mp heq
        obtain ⟨rfl, rfl⟩ := Prod.mk.inj hv
        exact ⟨reader, hright _ reader hr, rfl⟩
  · simp only [finishCallback, hc, Option.bind_eq_bind, Option.bind_some, Option.pure_def] at hfin
    split_ifs at hfin <;> rw [← Option.some.inj hfin]

/-- **`OnReceiveReturn`, of any bytes** that came in a return frame. -/
theorem Traced.onReceiveReturn (h : Traced C E T ps a)
    (hT : ∀ cb v, cb.callback = none → T.assign cb v = v) {packet : Packet} (hmem : packet ∈ ps)
    (hkind : packet.kind = FLAGS_CALL_RETURN_FEEDBACK) :
    ∃ a', a.onReceiveReturn C T packet.body = some a' ∧ Goes C E T ps a a' := by
  by_cases hpend : ∃ cb, ((C.decodeUint packet.body).1, cb) ∈ a.returningCallbacks.entries
  · obtain ⟨cb, hcb⟩ := hpend
    obtain ⟨j, p, hfind, hp, hkey, rfl⟩ := FlatHashMap.find_of_mem h.own.wf hcb
    have hout : ∀ id reader, some (C.decodeUint packet.body) = some (id, reader) → id = p.key ∧
        ∃ packet ∈ ps, packet.kind = FLAGS_CALL_RETURN_FEEDBACK ∧
          C.decodeUint packet.body = (id, reader) := by
      intro id reader heq
      have hdec := Option.some.inj heq
      exact ⟨by rw [hkey, hdec], packet, hmem, hkind, hdec⟩
    obtain ⟨m, a', hrem, hfin, hgoes⟩ := h.finish hT hp p.v.movedFrom rfl _ hout
    refine ⟨a', ?_, hgoes⟩
    rw [hkey] at hrem
    simp only [Endpoint.onReceiveReturn, hfind, hp, hrem, Option.bind_eq_bind, Option.bind_some]
    exact hfin
  · exact ⟨a, onReceiveReturn_of_not_pending h.own (not_exists.mp hpend), .refl h⟩

theorem Traced.checkForTimeoutFunctionCalls (h : Traced C E T ps a)
    (hT : ∀ cb v, cb.callback = none → T.assign cb v = v) (random now : ℕ) :
    ∃ a', a.checkForTimeoutFunctionCalls C T random now = some a' ∧ Goes C E T ps a a' := by
  by_cases hz : a.returningCallbacks.buckets.length = 0
  · exact ⟨a, if_pos hz, .refl h⟩
  obtain ⟨p, hp⟩ : ∃ p, a.returningCallbacks.buckets[random % a.returningCallbacks.buckets.length]? =
      some p := ⟨_, List.getElem?_eq_getElem (Nat.mod_lt random (Nat.pos_of_ne_zero hz))⟩
  cases hexp : p.v.isExpired now with
  | false => exact ⟨a, by simp [Endpoint.checkForTimeoutFunctionCalls, hz, hp, hexp], .refl h⟩
  | true =>
    obtain ⟨m, a', hrem, hfin, hgoes⟩ := h.finish hT hp p.v.emptied rfl none
      fun id reader heq => by cases heq
    rw [finishCallback_map] at hfin
    obtain ⟨e, he, rfl⟩ := Option.map_eq_some_iff.mp hfin
    refine ⟨_, ?_, hgoes⟩
    simp only [Endpoint.checkForTimeoutFunctionCalls, hz, if_false, hp, hexp, if_true, he,
      finishCallback_returningCallbacks he, hrem, Option.bind_eq_bind, Option.bind_some, Option.pure_def]

theorem Traced.executeCallback (h : Traced C E T ps a) (i : ℕ) :
    Goes C E T ps a (a.executeCallback C i) := by
  have hmoves := executeCallback_moves (C := C) a i
  cases hx : a.callbackQueue[i]? with
  | none =>
    rw [Endpoint.executeCallback, hx]
    exact .refl h
  | some x =>
    have hdone : (a.executeCallback C i).done.Perm a.done := by
      have hperm := ((List.getElem_cons_eraseIdx_perm (List.getElem?_eq_some_iff.mp hx).1).map
        ReturnCommand.call)
      rw [(List.getElem?_eq_some_iff.mp hx).2] at hperm
      simp only [Endpoint.executeCallback, hx, done, List.map_append, List.map_cons, List.map_nil,
        ← List.append_assoc, executeReturn]
      exact (List.perm_append_singleton _ _).trans (hperm.append_right _)
    rw [Endpoint.executeCallback, hx] at hdone hmoves ⊢
    have ho := h.own
    refine ⟨h.of_callbacks ⟨ho.wf, ho.size, ho.few, ho.gen, ho.ids, ho.pending,
      hdone.nodup_iff.mpr ho.done_nodup, fun c hc => ho.done_lt c (hdone.mem_iff.mp hc),
      fun c hc => ho.done_pending c (hdone.mem_iff.mp hc), ho.origins_nodup, ho.origins_lt⟩
      rfl rfl rfl ⟨[], by simp, by simp⟩
      (fun y hy => h.returned y (List.mem_of_mem_eraseIdx hy)) fun y hy id v heq => ?_, hmoves, rfl, rfl⟩
    rcases List.mem_append.mp hy with hy | hy
    · exact h.executed y hy id v heq
    · obtain rfl := List.mem_singleton.mp hy
      obtain ⟨⟨id', reader⟩, hr, hv⟩ := Option.map_eq_some_iff.mp heq
      obtain ⟨rfl, rfl⟩ := Prod.mk.inj hv
      exact ⟨reader, h.returned x (List.mem_of_getElem? hx) _ reader hr, rfl⟩

/-! ### Calls -/

/-- **`CommandCallSend::Execute`.** -/
theorem Traced.callSend (h : Traced C E T ps a) (hlt : a.ids.length < 2 ^ 32 - 1)
    (executionQueue : Bool) (timeoutTimePoint : ℕ) (payload : List UInt8) (flags : Flags) :
    Yields (a.callSend C T executionQueue timeoutTimePoint payload flags)
      (a.ids.length < 2 ^ 30 ∧ 4 + payload.length ≤ 2 ^ 28)
      fun a' => Traced C E T ps a' ∧ Moves a a' ∧ a'.frameDecoder = a.frameDecoder ∧
        a'.ids.length = a.ids.length + 1 := by
  obtain ⟨id, hnext, hid, hnew⟩ := getNextValidReturnCallbackId_spec h.own hlt
  constructor
  · intro a' hrun
    have hmoves := callSend_moves h.own hlt hrun
    simp only [Endpoint.callSend, hnext, Option.bind_eq_bind, Option.bind_some, Option.bind_eq_some_iff,
      Option.pure_def, Option.some.injEq] at hrun
    obtain ⟨m, hins, bytes, -, rfl⟩ := hrun
    obtain ⟨hw, hm, hsize⟩ := FlatHashMap.insertOrSet_eq_some h.own.wf hnew h.own.size hins
    have hids : a.ids <+: a.ids ++ [id] := List.prefix_append _ _
    have ho := h.own.insert hid hw hsize rfl hm
    refine ⟨h.of_callbacks (ho.of_origins rfl rfl rfl rfl ho.origins_nodup ho.origins_lt) rfl rfl rfl
      ⟨[⟨.call a.ids.length, bytes⟩], rfl, by simp [answered]⟩
      (fun x hx id' reader heq => (h.returned x hx id' reader heq).mono hids) fun x hx id' v heq => ?_,
      hmoves, rfl, by simp [send]⟩
    obtain ⟨reader, hret, hv⟩ := h.executed x hx id' v heq
    exact ⟨reader, hret.mono hids, hv⟩
  · rintro ⟨hfew, hfits⟩
    obtain ⟨m, hm, -⟩ := FlatHashMap.insertOrSet_of_not_mem h.own.wf
      (⟨some a.ids.length, executionQueue, timeoutTimePoint⟩ : OnReturnCallback) hnew
      (FlatHashMap.room_of_lt (h.own.few.trans_lt hfew))
    obtain ⟨bytes, hbytes⟩ := frame_of_le (encodeUint_append_ne_nil C id payload)
      (by rw [List.length_append, C.length_encodeUint]; exact hfits) (flags ||| FLAGS_CALL)
    exact ⟨_, by simp only [Endpoint.callSend, hnext, patchId_callBuffer, hm, hbytes,
      Option.bind_eq_bind, Option.bind_some, Option.pure_def]; rfl⟩

/-! ### Handlers -/

/-- A step that leaves the callbacks alone. -/
theorem Traced.of_handlers (h : Traced C E T ps a) (ho : Own T a') (hids : a'.ids = a.ids)
    (hrec : a'.framesReceived = a.framesReceived) (hret : a'.callbackQueue = a.callbackQueue)
    (hexe : a'.executed = a.executed) (hq : ∀ x ∈ a'.rpcQueue, E.Brings C ps x.1 x.2)
    (hran : ∀ x ∈ a'.runs, ∃ rpc, E.Brings C ps x.1 rpc ∧ rpc.runs = true)
    (hrep : ∀ f ∈ a'.sent, ∀ n, answered f = some n → ∃ rpc v, E.Brings C ps n rpc ∧
      (n, v) ∈ a'.runs ∧ rpc.replies = true ∧ rpc.replyFrame C v = some f.bytes)
    (honce : (a'.sent.filterMap answered).Nodup) : Traced C E T ps a' := by
  have hprefix : a.ids <+: a'.ids := hids ▸ List.prefix_rfl
  refine ⟨ho, hrec.trans h.received, h.accepted, fun x hx id reader heq =>
    (h.returned x (hret ▸ hx) id reader heq).mono hprefix, fun x hx id v heq => ?_, hq, hran, hrep, honce⟩
  obtain ⟨reader, hr, hv⟩ := h.executed x (hexe ▸ hx) id v heq
  exact ⟨reader, hr.mono hprefix, hv⟩

/-- A frame that has been answered has run its handler. -/
theorem Traced.mem_runs_of_replied (h : Traced C E T ps a) (hn : n ∈ a.sent.filterMap answered) :
    n ∈ a.origins := by
  obtain ⟨f, hf, hans⟩ := List.mem_filterMap.mp hn
  obtain ⟨rpc, v, -, hv, -⟩ := h.replied f hf n hans
  exact List.mem_append_right _ (List.mem_map.mpr ⟨(n, v), hv, rfl⟩)

/-- The handler of a call that has not run is run. -/
theorem Traced.runs (h : Traced C E T ps a) (hb : E.Brings C ps n rpc) (hruns : rpc.runs = true)
    (hn : n < a.framesReceived) (hnew : n ∉ a.origins) (v : V) :
    Traced C E T ps { a with runs := a.runs ++ [(n, v)] } := by
  have hperm : ({ a with runs := a.runs ++ [(n, v)] } : Endpoint V).origins.Perm (n :: a.origins) := by
    simp only [origins, List.map_append, List.map_cons, List.map_nil, ← List.append_assoc]
    exact List.perm_append_singleton _ _
  refine h.of_handlers (h.own.of_origin rfl rfl rfl rfl rfl hperm hn hnew) rfl rfl rfl rfl h.queued
    (fun x hx => ?_) (fun f hf m hm => ?_) h.replied_once
  · rcases List.mem_append.mp hx with hx | hx
    · exact h.ran x hx
    · rw [List.mem_singleton.mp hx]
      exact ⟨rpc, hb, hruns⟩
  · obtain ⟨rpc', w, hb', hw, hrest⟩ := h.replied f hf m hm
    exact ⟨rpc', w, hb', List.mem_append_left _ hw, hrest⟩

/-- The value of a handler that was run and not answered is sent. -/
theorem Traced.reply (h : Traced C E T ps a) (hb : E.Brings C ps n rpc) (hrep : rpc.replies = true)
    {v : V} (hv : (n, v) ∈ a.runs) (hnew : n ∉ a.sent.filterMap answered) {bytes : List UInt8}
    (hbytes : rpc.replyFrame C v = some bytes) : Traced C E T ps (a.send (.reply n) bytes) := by
  refine h.of_handlers (h.own.of_origins rfl rfl rfl rfl h.own.origins_nodup h.own.origins_lt) rfl rfl
    rfl rfl h.queued h.ran (fun f hf m hm => ?_) ?_
  · rcases List.mem_append.mp hf with hf | hf
    · exact h.replied f hf m hm
    · obtain rfl := List.mem_singleton.mp hf
      obtain rfl : n = m := Option.some.inj hm
      exact ⟨rpc, v, hb, hv, hrep, hbytes⟩
  · have hsent : (a.send (.reply n) bytes).sent.filterMap answered =
        a.sent.filterMap answered ++ [n] := by
      simp [send, answered]
    rw [hsent, (List.perm_append_singleton n _).nodup_iff]
    exact List.nodup_cons.mpr ⟨hnew, h.replied_once⟩

/-- **`DeserializeAndExecute`** runs the handler, once, and answers with its value. -/
theorem Traced.deserializeAndExecute (h : Traced C E T ps a) (hb : E.Brings C ps n rpc)
    (hn : n < a.framesReceived) (hnew : n ∉ a.origins) (v : V) :
    Yields (a.deserializeAndExecute C n rpc v) (Fits C v) (Goes C E T ps a) := by
  constructor
  · intro a' hrun
    have hmoves := (deserializeAndExecute_moves hrun).1
    by_cases hruns : rpc.runs
    swap
    · simp only [Endpoint.deserializeAndExecute, hruns] at hrun
      obtain rfl := Option.some.inj hrun
      exact .refl h
    have hran := h.runs hb hruns hn hnew v
    by_cases hrep : rpc.replies
    · simp only [Endpoint.deserializeAndExecute, hruns, hrep, if_true] at hrun
      obtain ⟨bytes, hbytes, hrun⟩ := Option.bind_eq_some_iff.mp hrun
      obtain rfl := Option.some.inj hrun
      exact ⟨hran.reply hb hrep (List.mem_append_right _ (List.mem_singleton_self _))
        (fun hm => hnew (h.mem_runs_of_replied hm)) hbytes, hmoves, rfl, rfl⟩
    · simp only [Endpoint.deserializeAndExecute, hruns, hrep, if_true] at hrun
      obtain rfl := Option.some.inj hrun
      exact ⟨hran, hmoves, rfl, rfl⟩
  · intro hfits
    obtain ⟨bytes, hbytes⟩ : ∃ bytes, rpc.replyFrame C v = some bytes :=
      frame_of_le (encodeUint_append_ne_nil C _ _)
        (by rw [List.length_append, C.length_encodeUint]; exact hfits) _
    simp only [Endpoint.deserializeAndExecute, hbytes, Option.bind_eq_bind, Option.bind_some,
      Option.pure_def]
    split_ifs
    · exact ⟨_, rfl⟩
    · exact ⟨_, rfl⟩
    · exact ⟨_, rfl⟩

/-- The execution of a queued call. -/
theorem Traced.executeRPC (h : Traced C E T ps a) (i : ℕ) (v : V) :
    Yields (a.executeRPC C i v) (Fits C v) (Goes C E T ps a) := by
  cases hx : a.rpcQueue[i]? with
  | none =>
    simp only [Endpoint.executeRPC, hx]
    exact .of_some (.refl h)
  | some x =>
    obtain ⟨n, rpc⟩ := x
    have hperm := (List.getElem_cons_eraseIdx_perm (List.getElem?_eq_some_iff.mp hx).1).map Prod.fst
    rw [(List.getElem?_eq_some_iff.mp hx).2] at hperm
    have horig : a.origins.Perm (n :: ((a.rpcQueue.eraseIdx i).map Prod.fst ++ a.runs.map Prod.fst)) :=
      (hperm.append_right _).symm
    obtain ⟨hnew, hnd⟩ := List.nodup_cons.mp (horig.nodup_iff.mp h.own.origins_nodup)
    have hlt : ∀ m ∈ (a.rpcQueue.eraseIdx i).map Prod.fst ++ a.runs.map Prod.fst,
        m < a.framesReceived := fun m hm => h.own.origins_lt m (horig.mem_iff.mpr (.tail _ hm))
    have htraced : Traced C E T ps { a with rpcQueue := a.rpcQueue.eraseIdx i } :=
      h.of_handlers (h.own.of_origins rfl rfl rfl rfl hnd hlt) rfl rfl rfl rfl
        (fun y hy => h.queued y (List.mem_of_mem_eraseIdx hy)) h.ran h.replied h.replied_once
    have hspec := htraced.deserializeAndExecute (h.queued _ (List.mem_of_getElem? hx))
      (h.own.origins_lt n (horig.mem_iff.mpr (.head _))) hnew v
    refine ⟨fun a' hrun => ?_, fun hfits => ?_⟩
    · have hmoves := executeRPC_moves hrun
      simp only [Endpoint.executeRPC, hx] at hrun
      have hgoes := hspec.1 a' hrun
      exact ⟨hgoes.traced, hmoves, hgoes.frameDecoder, hgoes.ids⟩
    · simp only [Endpoint.executeRPC, hx]
      exact hspec.2 hfits

/-- **`OnReceiveCall`** runs the handler of the call, or queues it. -/
theorem Traced.onReceiveCall (h : Traced C E T ps a) {body : List UInt8} {flags : Flags}
    (hb : ∀ rpc, E.readCall C body flags = some rpc → E.Brings C ps n rpc)
    (hn : n < a.framesReceived) (hnew : n ∉ a.origins) (v : V) :
    Yields (a.onReceiveCall C E.toRPCEnvironment n body flags v) (Fits C v) fun a' =>
      Goes C E T ps a a' ∧ ∀ rpc, E.readCall C body flags = some rpc → a'.Handled n rpc := by
  have hspec : Yields (a.onReceiveCall C E.toRPCEnvironment n body flags v) (Fits C v)
      (Goes C E T ps a) := by
    cases hread : E.readCall C body flags with
    | none =>
      simp only [Endpoint.onReceiveCall, hread]
      exact .of_some (.refl h)
    | some rpc =>
      cases hq : rpc.messageConverter.executeGetQueue rpc.reader flags with
      | false =>
        simp only [Endpoint.onReceiveCall, hread, hq, Bool.false_eq_true, if_false]
        exact h.deserializeAndExecute (hb rpc hread) hn hnew v
      | true =>
        refine ⟨fun a' hrun => ?_, fun _ => by simp [Endpoint.onReceiveCall, hread, hq]⟩
        have hmoves := (onReceiveCall_moves hrun).1
        simp only [Endpoint.onReceiveCall, hread, hq, if_true] at hrun
        obtain rfl := Option.some.inj hrun
        have hperm : ({ a with rpcQueue := a.rpcQueue ++ [(n, rpc)] } : Endpoint V).origins.Perm
            (n :: a.origins) := by
          simp only [origins, List.map_append, List.map_cons, List.map_nil, List.append_assoc]
          exact List.perm_middle
        refine ⟨h.of_handlers (h.own.of_origin rfl rfl rfl rfl rfl hperm hn hnew) rfl rfl rfl rfl
          (fun x hx => ?_) h.ran h.replied h.replied_once, hmoves, rfl, rfl⟩
        rcases List.mem_append.mp hx with hx | hx
        · exact h.queued x hx
        · rw [List.mem_singleton.mp hx]
          exact hb rpc hread
  exact ⟨fun a' hrun => ⟨hspec.1 a' hrun, (onReceiveCall_moves hrun).2⟩, hspec.2⟩

/-- One more packet is received, and nothing is done about it yet. -/
theorem Traced.receive (h : Traced C E T ps a) {packet : Packet} (hacc : E.accepts C packet = true) :
    Traced C E T (ps ++ [packet]) { a with framesReceived := a.framesReceived + 1 } := by
  have hbrings : ∀ n rpc, E.Brings C ps n rpc → E.Brings C (ps ++ [packet]) n rpc := by
    rintro n rpc ⟨q, hq, hread⟩
    exact ⟨q, getElem?_mono (List.prefix_append _ _) hq, hread⟩
  have hret : ∀ c id reader, Returned C ps a c id reader → Returned C (ps ++ [packet]) a c id reader := by
    rintro c id reader ⟨hid, q, hq, hrest⟩
    exact ⟨hid, q, List.mem_append_left _ hq, hrest⟩
  refine ⟨h.own.of_origins rfl rfl rfl rfl h.own.origins_nodup fun n hn =>
    (h.own.origins_lt n hn).trans (Nat.lt_succ_self _), by simp [h.received], fun q hq => ?_,
    fun x hx id reader heq => hret _ _ _ (h.returned x hx id reader heq), fun x hx id v heq => ?_,
    fun x hx => hbrings _ _ (h.queued x hx), fun x hx => ?_, fun f hf n hn => ?_, h.replied_once⟩
  · rcases List.mem_append.mp hq with hq | hq
    · exact h.accepted q hq
    · rwa [List.mem_singleton.mp hq]
  · obtain ⟨reader, hr, hv⟩ := h.executed x hx id v heq
    exact ⟨reader, hret _ _ _ hr, hv⟩
  · obtain ⟨rpc, hb, hruns⟩ := h.ran x hx
    exact ⟨rpc, hbrings _ _ hb, hruns⟩
  · obtain ⟨rpc, v, hb, hrest⟩ := h.replied f hf n hn
    exact ⟨rpc, v, hbrings _ _ hb, hrest⟩

/-- What holds of a peer that has received the packets: what has happened traces back to them, no
call is forgotten, and every call they bring is answered if it is one that is answered. -/
structure Holds (C : Codec V) (E : NamedMessages) (T : MapTraits UInt32 OnReturnCallback)
    (ps : List Packet) (e : Endpoint V) : Prop where
  traced : Traced C E T ps e
  accounts : e.Accounts
  handled : ∀ n rpc, E.Brings C ps n rpc → e.Handled n rpc

theorem Holds.moves (h : Holds C E T ps a) (ht : Traced C E T ps a') (hm : Moves a a') :
    Holds C E T ps a' :=
  ⟨ht, hm.accounts h.accounts, fun n rpc hb => (h.handled n rpc hb).moves hm⟩

/-- The peer goes on after one more packet, and handles the call that it brings. -/
theorem Holds.receive (h : Holds C E T ps a) {packet : Packet}
    (hg : Goes C E T (ps ++ [packet]) { a with framesReceived := a.framesReceived + 1 } a')
    (hnew : ∀ rpc, E.read C packet = some rpc → a'.Handled ps.length rpc) :
    Holds C E T (ps ++ [packet]) a' := by
  have hcount : Moves a { a with framesReceived := a.framesReceived + 1 } :=
    .of_eq rfl rfl rfl rfl (List.Perm.refl _)
  refine ⟨hg.traced, hg.moves.accounts (hcount.accounts h.accounts), ?_⟩
  rintro n rpc ⟨q, hq, hread⟩
  rcases Nat.lt_or_ge n ps.length with hlt | hge
  · rw [List.getElem?_append_left hlt] at hq
    exact (h.handled n rpc ⟨q, hq, hread⟩).moves (hcount.trans hg.moves)
  · have hlen := (List.getElem?_eq_some_iff.mp hq).1
    obtain rfl : n = ps.length := by
      rw [List.length_append, List.length_singleton] at hlen
      omega
    obtain rfl : packet = q := by simpa using hq
    exact hnew rpc hread

end Endpoint

end ICon7
