/-
# No call is lost

`Rpc.Agreement` says that what is executed is right; here it is that something is executed.
Every call of a side waits for its answer or is done, and its frame has been sent
(`Accounts`).  Every call frame that a side has received is answered, if it is one that is
answered, or waits for its execution, and no call waits whose answer has been received
(`Complete`).  What one side does keeps this because a step takes nothing out of a queue
without answering it and makes only new calls wait (`Moves`).

So a call whose frame and answer have had time to arrive is done (`link_no_call_lost`): its
callback has been executed or queued, exactly once, unless the other side does not answer
such a call at all.
-/

import ICon7.Rpc.Transport

namespace ICon7

open Framing Lib

/-- The handler of the call is run and its value is sent back. -/
def ExecuteRPC.answers (rpc : ExecuteRPC) : Bool := rpc.runs && rpc.replies

/-- The call that `_InternalOnPacket` reads from a frame. -/
def RPCEnvironment.callOf {V : Type} (C : Codec V) (E : RPCEnvironment) (f : List UInt8) :
    Option ExecuteRPC := do
  let flags ← getPacketFlags f FLAG_RELIABLE
  if flags &&& 6 = FLAGS_CALL then E.readCall C (f.drop (FrameDecoder.packetOf f).headerSize) flags
  else none

namespace Endpoint

variable {V : Type} {C : Codec V} {E E' : RPCEnvironment} {T : MapTraits UInt32 OnReturnCallback}
  {a a' a₁ b b' : Endpoint V} {n c : ℕ}

/-! ### What one side does -/

/-- The calls whose callbacks wait in `returningCallbacks`. -/
def pending (e : Endpoint V) : List ℕ := e.returningCallbacks.entries.filterMap fun x => x.2.callback

/-- The frame at the place has been answered. -/
def Replied (e : Endpoint V) (n : ℕ) : Prop := ∃ bytes, (⟨.reply n, bytes⟩ : SentFrame) ∈ e.sent

/-- Every call waits or is done, and its frame has been sent. -/
structure Accounts (e : Endpoint V) : Prop where
  calls : ∀ c < e.ids.length, c ∈ e.done ∨ c ∈ e.pending
  framed : ∀ c < e.ids.length, ∃ n, e.CallAt n c

/-- The call that the frame at the place brought waits for its execution, or has been answered if
it is answered. -/
def Handled (e : Endpoint V) (n : ℕ) (rpc : ExecuteRPC) : Prop :=
  (n, rpc) ∈ e.rpcQueue ∨ (rpc.answers = true → e.Replied n)

/-- **What a step of one side does:** queued calls are answered when they leave the queue, and
only new calls begin to wait. -/
structure Moves (a a' : Endpoint V) : Prop where
  ids : a.ids <+: a'.ids
  sent : a.sent <+: a'.sent
  queue : ∀ n rpc, (n, rpc) ∈ a.rpcQueue → a'.Handled n rpc
  pending : ∀ c ∈ a'.pending, c ∈ a.pending ∨ a.ids.length ≤ c
  accounts : a.Accounts → a'.Accounts

theorem Replied.mono (h : a.Replied n) (hsent : a.sent <+: a'.sent) : a'.Replied n := by
  obtain ⟨bytes, hm⟩ := h
  exact ⟨bytes, hsent.subset hm⟩

theorem Handled.moves {rpc : ExecuteRPC} (h : a.Handled n rpc) (hm : Moves a a') : a'.Handled n rpc :=
  h.elim (hm.queue n rpc) fun hr => .inr fun hans => (hr hans).mono hm.sent

theorem Moves.refl (a : Endpoint V) : Moves a a :=
  ⟨List.prefix_rfl, List.prefix_rfl, fun _ _ h => .inl h, fun _ h => .inl h, fun h => h⟩

theorem Moves.trans (h : Moves a a₁) (h' : Moves a₁ a') : Moves a a' := by
  refine ⟨h.ids.trans h'.ids, h.sent.trans h'.sent, fun n rpc hm => (h.queue n rpc hm).moves h',
    fun c hc => ?_, fun ha => h'.accounts (h.accounts ha)⟩
  rcases h'.pending c hc with hc | hc
  · exact h.pending c hc
  · exact .inr (h.ids.length_le.trans hc)

/-- A step that touches none of this. -/
theorem Moves.of_eq (hids : a'.ids = a.ids) (hsent : a'.sent = a.sent) (hq : a'.rpcQueue = a.rpcQueue)
    (hmap : a'.returningCallbacks = a.returningCallbacks) (hdone : a'.done.Perm a.done) : Moves a a' := by
  have hpend : a'.pending = a.pending := by rw [Endpoint.pending, Endpoint.pending, hmap]
  refine ⟨hids ▸ List.prefix_rfl, hsent ▸ List.prefix_rfl, fun n rpc h => .inl (hq ▸ h),
    fun c hc => .inl (hpend ▸ hc), fun ha => ⟨fun c hc => ?_, fun c hc => ?_⟩⟩
  · rw [hids] at hc
    rw [hdone.mem_iff, hpend]
    exact ha.calls c hc
  · rw [hids] at hc
    obtain ⟨n, hn⟩ := ha.framed c hc
    exact ⟨n, by rw [CallAt, hsent]; exact hn⟩

/-- A callback that waits has the id of its call. -/
theorem Own.mem_pending_iff (ho : Own T a) :
    c ∈ a.pending ↔ ∃ id cb, (id, cb) ∈ a.returningCallbacks.entries ∧ cb.callback = some c ∧
      a.ids[c]? = some id := by
  simp only [Endpoint.pending, List.mem_filterMap, Prod.exists]
  constructor
  · rintro ⟨id, cb, hm, hc⟩
    obtain ⟨d, hd, hid⟩ := ho.pending id cb hm
    obtain rfl := Option.some.inj (hc.symm.trans hd)
    exact ⟨id, cb, hm, hc, hid⟩
  · rintro ⟨id, cb, hm, hc, -⟩
    exact ⟨id, cb, hm, hc⟩

/-- What `OnReturnCallback::Execute` and `ExecuteTimeout` change. -/
theorem finishCallback_done {cb : OnReturnCallback} {outcome : Option (UInt32 × List UInt8)}
    (hc : cb.callback = some c) (h : a.finishCallback C cb outcome = some a') :
    a'.done.Perm (c :: a.done) ∧ a'.ids = a.ids ∧ a'.sent = a.sent ∧ a'.rpcQueue = a.rpcQueue ∧
      a'.returningCallbacks = a.returningCallbacks ∧ a'.framesReceived = a.framesReceived := by
  simp only [finishCallback, hc, Option.bind_eq_bind, Option.bind_some, Option.pure_def] at h
  split_ifs at h
  · obtain rfl := Option.some.inj h
    refine ⟨?_, rfl, rfl, rfl, rfl, rfl⟩
    simp only [done, List.map_append, List.map_cons, List.map_nil, List.append_assoc]
    exact List.perm_middle
  · obtain rfl := Option.some.inj h
    refine ⟨?_, rfl, rfl, rfl, rfl, rfl⟩
    simp only [done, List.map_append, List.map_cons, List.map_nil, ← List.append_assoc]
    exact List.perm_append_singleton c _

/-- **A callback is taken out of `returningCallbacks` and is done.** -/
theorem Own.finish_moves (ho : Own T a) {id : UInt32} (hid : a.ids[c]? = some id)
    {m : FlatHashMap UInt32 OnReturnCallback}
    (hm : ∀ x, x ∈ m.entries ↔ x ∈ a.returningCallbacks.entries ∧ x.1 ≠ id)
    (hids : a'.ids = a.ids) (hsent : a'.sent = a.sent) (hq : a'.rpcQueue = a.rpcQueue)
    (hmap : a'.returningCallbacks = m) (hdone : a'.done.Perm (c :: a.done)) :
    Moves a a' ∧ c ∉ a'.pending := by
  have hpend : ∀ d, d ∈ a'.pending ↔ d ∈ a.pending ∧ d ≠ c := by
    intro d
    simp only [Endpoint.pending, hmap, List.mem_filterMap, Prod.exists, hm]
    constructor
    · rintro ⟨id', cb, ⟨hmem, hne⟩, hd⟩
      obtain ⟨d', hd', hid'⟩ := ho.pending id' cb hmem
      obtain rfl := Option.some.inj (hd.symm.trans hd')
      exact ⟨⟨id', cb, hmem, hd⟩, fun heq => hne (Option.some.inj (hid'.symm.trans (heq ▸ hid)))⟩
    · rintro ⟨⟨id', cb, hmem, hd⟩, hne⟩
      obtain ⟨d', hd', hid'⟩ := ho.pending id' cb hmem
      obtain rfl := Option.some.inj (hd.symm.trans hd')
      refine ⟨id', cb, ⟨hmem, fun heq => hne (ho.ids_inj hid' ?_)⟩, hd⟩
      rw [show id' = id from heq]
      exact hid
  refine ⟨⟨hids ▸ List.prefix_rfl, hsent ▸ List.prefix_rfl, fun n rpc h => .inl (hq ▸ h),
    fun d hd => .inl ((hpend d).mp hd).1, fun ha => ⟨fun d hd => ?_, fun d hd => ?_⟩⟩,
    fun hc => ((hpend c).mp hc).2 rfl⟩
  · rw [hids] at hd
    rw [hdone.mem_iff, List.mem_cons, hpend]
    have := ha.calls d hd
    tauto
  · rw [hids] at hd
    obtain ⟨n, hn⟩ := ha.framed d hd
    exact ⟨n, by rw [CallAt, hsent]; exact hn⟩

/-- **`OnReceiveReturn`:** the call with the id does not wait any more. -/
theorem onReceiveReturn_moves (ho : Own T a) (hT : ∀ cb v, cb.callback = none → T.assign cb v = v)
    {body : List UInt8} (h : a.onReceiveReturn C T body = some a') :
    Moves a a' ∧ ∀ c, a.ids[c]? = some (C.decodeUint body).1 → c ∉ a'.pending := by
  by_cases hpend : ∃ cb, ((C.decodeUint body).1, cb) ∈ a.returningCallbacks.entries
  · obtain ⟨cb, hcb⟩ := hpend
    obtain ⟨j, p, hfind, hp, hkey, rfl⟩ := FlatHashMap.find_of_mem ho.wf hcb
    obtain ⟨c, hc, hid⟩ := ho.pending _ _ hcb
    obtain ⟨m, hrem, -, -, hm⟩ := FlatHashMap.store_remove_spec ho.wf hp fun u => hT p.v.movedFrom u rfl
    rw [hkey] at hrem hm
    simp only [onReceiveReturn, hfind, hp, hrem, Option.bind_eq_bind, Option.bind_some] at h
    obtain ⟨hdone, hids, hsent, hq, hmap, -⟩ := finishCallback_done hc h
    obtain ⟨hmoves, hout⟩ := ho.finish_moves hid hm hids hsent hq hmap hdone
    exact ⟨hmoves, fun d hd => ho.ids_inj hid hd ▸ hout⟩
  · have hno := not_exists.mp hpend
    rw [onReceiveReturn_of_not_pending ho hno] at h
    obtain rfl := Option.some.inj h
    refine ⟨Moves.refl a, fun c hc hcp => ?_⟩
    obtain ⟨id, cb, hm, -, hid⟩ := ho.mem_pending_iff.mp hcp
    exact hno cb (Option.some.inj (hid.symm.trans hc) ▸ hm)

/-- **`CheckForTimeoutFunctionCalls`.** -/
theorem checkForTimeoutFunctionCalls_moves (ho : Own T a)
    (hT : ∀ cb v, cb.callback = none → T.assign cb v = v) {random now : ℕ}
    (h : a.checkForTimeoutFunctionCalls C T random now = some a') : Moves a a' := by
  unfold checkForTimeoutFunctionCalls at h
  split_ifs at h with hempty
  · obtain rfl := Option.some.inj h
    exact Moves.refl a
  obtain ⟨p, hp, h⟩ := Option.bind_eq_some_iff.mp h
  by_cases hexp : p.v.isExpired now
  · simp only [hexp, if_true] at h
    obtain ⟨e, hfin, h⟩ := Option.bind_eq_some_iff.mp h
    obtain ⟨c, hc, hid⟩ := ho.pending p.key p.v (List.mem_map.mpr ⟨p, List.mem_of_getElem? hp, rfl⟩)
    obtain ⟨hdone, hids, hsent, hq, hmap, -⟩ := finishCallback_done hc hfin
    obtain ⟨m, hrem, -, -, hm⟩ := FlatHashMap.store_remove_spec ho.wf hp fun u => hT p.v.emptied u rfl
    simp only [hmap, hrem, Option.bind_eq_bind, Option.bind_some, Option.pure_def] at h
    obtain rfl := Option.some.inj h
    have hfinish : Moves a { e with returningCallbacks := m } ∧ _ :=
      ho.finish_moves hid hm hids hsent hq rfl hdone
    exact hfinish.1
  · simp only [hexp, Bool.false_eq_true, if_false] at h
    obtain rfl := Option.some.inj h
    exact Moves.refl a

/-- **`CommandCallSend::Execute`:** the new call waits, and its frame is sent. -/
theorem callSend_moves (ho : Own T a) (hlt : a.ids.length < 2 ^ 32 - 1) {executionQueue : Bool}
    {timeoutTimePoint : ℕ} {payload : List UInt8} {flags : Flags}
    (h : a.callSend C T executionQueue timeoutTimePoint payload flags = some a') : Moves a a' := by
  obtain ⟨id, hnext, hid, hnew⟩ := getNextValidReturnCallbackId_spec ho hlt
  simp only [callSend, hnext, Option.bind_eq_bind, Option.bind_some, Option.bind_eq_some_iff,
    Option.pure_def, Option.some.injEq] at h
  obtain ⟨m, hins, bytes, -, rfl⟩ := h
  obtain ⟨-, hm, -⟩ := FlatHashMap.insertOrSet_eq_some ho.wf hnew ho.size hins
  have hpend : ∀ c, c ∈ m.entries.filterMap (fun x => x.2.callback) ↔ c ∈ a.pending ∨ c = a.ids.length := by
    intro c
    rw [hm, List.filterMap_append, List.mem_append]
    simp [Endpoint.pending, eq_comm]
  refine ⟨List.prefix_append _ _, List.prefix_append _ _, fun n rpc hq => .inl hq, fun c hc => ?_,
    fun ha => ⟨fun c hc => ?_, fun c hc => ?_⟩⟩
  · exact ((hpend c).mp hc).imp_right fun heq => heq.ge
  · simp only [send, List.length_append, List.length_singleton] at hc
    rcases Nat.lt_succ_iff_lt_or_eq.mp hc with hc | rfl
    · exact (ha.calls c hc).imp_right fun hp => (hpend c).mpr (.inl hp)
    · exact .inr ((hpend _).mpr (.inr rfl))
  · simp only [send, List.length_append, List.length_singleton] at hc
    rcases Nat.lt_succ_iff_lt_or_eq.mp hc with hc | rfl
    · obtain ⟨n, hn⟩ := ha.framed c hc
      exact ⟨n, hn.mono (List.prefix_append _ _)⟩
    · exact ⟨a.sent.length, by simp [CallAt, send]⟩

/-- A frame is sent. -/
theorem send_moves (a : Endpoint V) (n : ℕ) (bytes : List UInt8) :
    Moves a (a.send (.reply n) bytes) ∧ (a.send (.reply n) bytes).Replied n := by
  refine ⟨⟨List.prefix_rfl, List.prefix_append _ _, fun m rpc h => .inl h, fun c h => .inl h,
    fun ha => ⟨ha.calls, fun c hc => ?_⟩⟩, bytes, by simp [send]⟩
  obtain ⟨m, hm⟩ := ha.framed c hc
  exact ⟨m, hm.mono (List.prefix_append _ _)⟩

/-- **`DeserializeAndExecute`** answers if the call is answered. -/
theorem deserializeAndExecute_moves {rpc : ExecuteRPC} {v : V}
    (h : a.deserializeAndExecute C n rpc v = some a') :
    Moves a a' ∧ (rpc.answers = true → a'.Replied n) := by
  by_cases hruns : rpc.runs
  swap
  · simp only [deserializeAndExecute, hruns] at h
    obtain rfl := Option.some.inj h
    exact ⟨Moves.refl a, fun hans => by simp [ExecuteRPC.answers, hruns] at hans⟩
  have hrun : Moves a { a with runs := a.runs ++ [(n, v)] } :=
    .of_eq rfl rfl rfl rfl (List.Perm.refl _)
  by_cases hreplies : rpc.replies
  · simp only [deserializeAndExecute, hruns, hreplies, if_true] at h
    obtain ⟨bytes, -, h⟩ := Option.bind_eq_some_iff.mp h
    obtain rfl := Option.some.inj h
    obtain ⟨hmoves, hreplied⟩ := send_moves { a with runs := a.runs ++ [(n, v)] } n bytes
    exact ⟨hrun.trans hmoves, fun _ => hreplied⟩
  · simp only [deserializeAndExecute, hruns, hreplies, if_true] at h
    obtain rfl := Option.some.inj h
    exact ⟨hrun, fun hans => by simp [ExecuteRPC.answers, hreplies] at hans⟩

/-- **`OnReceiveCall`** answers the call or queues it. -/
theorem onReceiveCall_moves {body : List UInt8} {flags : Flags} {v : V}
    (h : a.onReceiveCall C E n body flags v = some a') :
    Moves a a' ∧ ∀ rpc, E.readCall C body flags = some rpc → a'.Handled n rpc := by
  unfold onReceiveCall at h
  cases hread : E.readCall C body flags with
  | none =>
    rw [hread] at h
    obtain rfl := Option.some.inj h
    exact ⟨Moves.refl a, fun rpc hrpc => by cases hrpc⟩
  | some rpc =>
    simp only [hread] at h
    by_cases hqueue : rpc.messageConverter.executeGetQueue rpc.reader flags
    · simp only [hqueue, if_true] at h
      obtain rfl := Option.some.inj h
      refine ⟨⟨List.prefix_rfl, List.prefix_rfl, fun m r hm => .inl (List.mem_append_left _ hm),
        fun c hc => .inl hc, fun ha => ⟨ha.calls, ha.framed⟩⟩, fun rpc' hrpc => .inl ?_⟩
      obtain rfl := Option.some.inj hrpc
      exact List.mem_append_right _ (List.mem_singleton_self _)
    · simp only [hqueue, Bool.false_eq_true, if_false] at h
      obtain ⟨hmoves, hreplied⟩ := deserializeAndExecute_moves h
      exact ⟨hmoves, fun rpc' hrpc => Option.some.inj hrpc ▸ .inr hreplied⟩

/-- The execution of a queued call. -/
theorem executeRPC_moves {i : ℕ} {v : V} (h : a.executeRPC C i v = some a') : Moves a a' := by
  unfold executeRPC at h
  cases hi : a.rpcQueue[i]? with
  | none =>
    rw [hi] at h
    obtain rfl := Option.some.inj h
    exact Moves.refl a
  | some entry =>
    simp only [hi] at h
    obtain ⟨hmoves, hreplied⟩ := deserializeAndExecute_moves h
    refine ⟨hmoves.ids, hmoves.sent, fun n rpc hm => ?_, hmoves.pending, fun ha =>
      hmoves.accounts ⟨ha.calls, ha.framed⟩⟩
    have hperm := List.getElem_cons_eraseIdx_perm (List.getElem?_eq_some_iff.mp hi).1
    rw [(List.getElem?_eq_some_iff.mp hi).2] at hperm
    rcases List.mem_cons.mp (hperm.mem_iff.mpr hm) with rfl | hm
    · exact .inr hreplied
    · exact hmoves.queue n rpc hm

/-- The execution of a queued callback. -/
theorem executeCallback_moves (a : Endpoint V) (i : ℕ) : Moves a (a.executeCallback C i) := by
  unfold executeCallback
  cases hi : a.callbackQueue[i]? with
  | none => exact Moves.refl a
  | some x =>
    refine .of_eq rfl rfl rfl rfl ?_
    have hperm := ((List.getElem_cons_eraseIdx_perm (List.getElem?_eq_some_iff.mp hi).1).map
      ReturnCommand.call)
    rw [(List.getElem?_eq_some_iff.mp hi).2] at hperm
    simp only [done, List.map_append, List.map_cons, List.map_nil, ← List.append_assoc, executeReturn]
    exact (List.perm_append_singleton _ _).trans (hperm.append_right _)

/-- **A frame that arrives:** the call that it brings is answered or queued, and the call that it
answers does not wait any more. -/
theorem onPacket_moves (ho : Own T a) (hba : About C b a)
    (hT : ∀ cb v, cb.callback = none → T.assign cb v = v) {f : SentFrame}
    (hf : b.sent[a.framesReceived]? = some f) {v : V}
    (h : a.onPacket C E T (FrameDecoder.packetOf f.bytes) v = some a') :
    Moves a a' ∧ (∀ c, f.kind = .call c → ∀ rpc, E.callOf C f.bytes = some rpc →
      a'.Handled a.framesReceived rpc) ∧ ∀ n, f.kind = .reply n → ∀ c, a.CallAt n c → c ∉ a'.pending := by
  have hcount : Moves a { a with framesReceived := a.framesReceived + 1 } :=
    .of_eq rfl rfl rfl rfl (List.Perm.refl _)
  have ho' : Own T { a with framesReceived := a.framesReceived + 1 } :=
    ho.of_origins rfl rfl rfl rfl ho.origins_nodup fun n hn => (ho.origins_lt n hn).trans
      (Nat.lt_succ_self _)
  have hrel : FLAG_RELIABLE &&& 6 = 0 := by decide
  have hlegit := hba.sent f (List.mem_of_getElem? hf)
  obtain ⟨kind, bytes⟩ := f
  cases kind with
  | call c =>
    obtain ⟨id, payload, flags, hid, hframe⟩ := hlegit
    have hc := frame_carries (encodeUint_append_ne_nil C _ _) hframe
    have hcall : E.callOf C bytes = if (flags ||| FLAGS_CALL) &&& 6 = FLAGS_CALL then
        E.readCall C (C.encodeUint id ++ payload) (FLAG_RELIABLE ||| ((flags ||| FLAGS_CALL) &&& 6))
        else none := by
      simp only [RPCEnvironment.callOf, hc.kind, hc.body, kind_received hrel, Option.bind_eq_bind,
        Option.bind_some]
    rw [onPacket_of_carries hc (encodeUint_append_ne_nil C _ _)] at h
    rcases kind_call flags with hk | hk
    · rw [if_neg (by rw [hk]; decide), onReceive, kind_received hrel, if_pos (.inl hk)] at h
      obtain ⟨hmoves, hhandled⟩ := onReceiveCall_moves h
      refine ⟨hcount.trans hmoves, fun _ _ rpc hrpc => hhandled rpc ?_, fun n hn => by cases hn⟩
      rwa [hcall, if_pos hk] at hrpc
    · rw [if_pos hk] at h
      obtain rfl := Option.some.inj h
      refine ⟨hcount, fun _ _ rpc hrpc => ?_, fun n hn => by cases hn⟩
      rw [hcall, if_neg (by rw [hk]; decide)] at hrpc
      cases hrpc
  | reply n =>
    obtain ⟨id, w, flags, c, hn, hid, -, hk, hframe⟩ := hlegit
    have hc := frame_carries (encodeUint_append_ne_nil C _ _) hframe
    rw [onPacket_of_carries hc (encodeUint_append_ne_nil C _ _), if_neg (by rw [hk]; decide),
      onReceive, kind_received hrel, if_neg (by rw [hk]; decide), if_pos hk] at h
    obtain ⟨hmoves, hout⟩ := onReceiveReturn_moves ho' hT h
    rw [C.decodeUint_encodeUint] at hout
    refine ⟨hcount.trans hmoves, fun c hcall => (by cases hcall), fun m hm d hd => hout d ?_⟩
    obtain rfl := FrameKind.reply.inj hm
    obtain rfl := FrameKind.call.inj (Option.some.inj (hd.symm.trans hn))
    exact hid

/-! ### What both sides keep -/

/-- **Nothing is lost between two sides:** what `b` has received of the calls of `a` is answered or
queued, and no call of `a` waits whose answer `a` has received. -/
structure Complete (C : Codec V) (E : RPCEnvironment) (a b : Endpoint V) : Prop where
  served : ∀ n < b.framesReceived, ∀ c bytes, a.sent[n]? = some ⟨.call c, bytes⟩ →
    ∀ rpc, E.callOf C bytes = some rpc → b.Handled n rpc
  returned : ∀ m < a.framesReceived, ∀ n bytes, b.sent[m]? = some ⟨.reply n, bytes⟩ →
    ∀ c, a.CallAt n c → c ∉ a.pending

/-- **The other side goes on** and handles the calls that it receives. -/
theorem Complete.moves_right (h : Complete C E a b) (hm : Moves b b')
    (hle : a.framesReceived ≤ b.sent.length)
    (hnew : ∀ n, b.framesReceived ≤ n → n < b'.framesReceived → ∀ c bytes,
      a.sent[n]? = some ⟨.call c, bytes⟩ → ∀ rpc, E.callOf C bytes = some rpc → b'.Handled n rpc) :
    Complete C E a b' := by
  refine ⟨fun n hn c bytes hf rpc hrpc => ?_, fun m hlt n bytes hf => ?_⟩
  · rcases Nat.lt_or_ge n b.framesReceived with hlt | hge
    · exact (h.served n hlt c bytes hf rpc hrpc).moves hm
    · exact hnew n hge hn c bytes hf rpc hrpc
  · obtain ⟨fs, hfs⟩ := hm.sent
    rw [← hfs, List.getElem?_append_left (hlt.trans_le hle)] at hf
    exact h.returned m hlt n bytes hf

/-- **The side itself goes on,** and no call waits whose answer it receives. -/
theorem Complete.moves_left (h : Complete C E a b) (hba : About C b a) (hm : Moves a a')
    (hle : b.framesReceived ≤ a.sent.length)
    (hnew : ∀ m, a.framesReceived ≤ m → m < a'.framesReceived → ∀ n bytes,
      b.sent[m]? = some ⟨.reply n, bytes⟩ → ∀ c, a.CallAt n c → c ∉ a'.pending) :
    Complete C E a' b := by
  refine ⟨fun n hn c bytes hf rpc hrpc => ?_, fun m hlt n bytes hf c hc hcp => ?_⟩
  · obtain ⟨fs, hfs⟩ := hm.sent
    rw [← hfs, List.getElem?_append_left (hn.trans_le hle)] at hf
    exact h.served n hn c bytes hf rpc hrpc
  · -- the answer is to a frame that had been sent, of a call that is not new
    obtain ⟨id, v, flags, d, hd, hid, -⟩ := hba.sent _ (List.mem_of_getElem? hf)
    obtain rfl := FrameKind.call.inj (Option.some.inj ((hd.mono hm.sent).symm.trans hc))
    rcases Nat.lt_or_ge m a.framesReceived with hold | hge
    · rcases hm.pending d hcp with hp | hge
      · exact h.returned m hold n bytes hf d hd hp
      · have := (List.getElem?_eq_some_iff.mp hid).1
        omega
    · exact hnew m hge hlt n bytes hf d hd hcp

/-- Nothing is lost in either direction, and `a` accounts for its calls. -/
structure Whole (C : Codec V) (E E' : RPCEnvironment) (a b : Endpoint V) : Prop where
  out : Complete C E' a b
  back : Complete C E b a
  accounts : a.Accounts

/-- A step of one side without a frame. -/
theorem Whole.moves (h : Whole C E E' a b) (hba : About C b a) (hm : Moves a a')
    (hrec : a'.framesReceived = a.framesReceived) (hleb : b.framesReceived ≤ a.sent.length) :
    Whole C E E' a' b :=
  ⟨h.out.moves_left hba hm hleb fun m hge hlt => by omega,
    h.back.moves_right hm hleb fun n hge hlt => by omega, hm.accounts h.accounts⟩

/-- **A frame arrives.** -/
theorem Whole.onPacket (h : Whole C E E' a b) (ho : Own T a) (hba : About C b a)
    (hT : ∀ cb v, cb.callback = none → T.assign cb v = v) {f : SentFrame}
    (hf : b.sent[a.framesReceived]? = some f) {v : V}
    (hrun : a.onPacket C E T (FrameDecoder.packetOf f.bytes) v = some a')
    (hrec : a'.framesReceived = a.framesReceived + 1) (hle : b.framesReceived ≤ a.sent.length) :
    Whole C E E' a' b := by
  obtain ⟨hm, hcall, hreply⟩ := onPacket_moves ho hba hT hf hrun
  refine ⟨h.out.moves_left hba hm hle fun m hge hlt n bytes hfm => ?_,
    h.back.moves_right hm hle fun n hge hlt c bytes hfn => ?_, hm.accounts h.accounts⟩
  · obtain rfl : m = a.framesReceived := by omega
    obtain rfl := Option.some.inj (hf.symm.trans hfm)
    exact hreply n rfl
  · obtain rfl : n = a.framesReceived := by omega
    obtain rfl := Option.some.inj (hf.symm.trans hfn)
    exact hcall c rfl

/-- The frames that one piece of the stream completes. -/
theorem Whole.onPackets (h : Whole C E E' a b) (ho : Own T a) (hab : About C a b) (hba : About C b a)
    (hT : ∀ cb v, cb.callback = none → T.assign cb v = v) (values : ℕ → V)
    (hle : b.framesReceived ≤ a.sent.length) {fs gs : List SentFrame}
    (hfs : b.sent.drop a.framesReceived = fs ++ gs)
    (hrun : (fs.map fun f => FrameDecoder.packetOf f.bytes).foldlM
      (fun e packet => e.onPacket C E T packet (values e.framesReceived)) a = some a') :
    Whole C E E' a' b := by
  induction fs generalizing a with
  | nil =>
    obtain rfl := Option.some.inj hrun
    exact h
  | cons f fs ih =>
    have hf : b.sent[a.framesReceived]? = some f := by
      rw [← Nat.add_zero a.framesReceived, ← List.getElem?_drop, hfs]
      rfl
    rw [List.map_cons] at hrun
    obtain ⟨a₁, hone, hrun⟩ := foldlM_cons_eq_some.mp hrun
    obtain ⟨hadv, -, hrec⟩ := (onPacket_spec ho hab hba hT hf _).1 a₁ hone
    have hrest : b.sent.drop a₁.framesReceived = fs ++ gs := by
      rw [hrec, ← List.drop_drop, hfs]
      rfl
    exact ih (h.onPacket ho hba hT hf hone hrec hle) hadv.own hadv.about (hba.mono_right hadv.grows)
      (hle.trans hadv.grows.sent.length_le) hrest hrun

/-- **Bytes arrive.** -/
theorem Whole.onData {held rest : List UInt8} (h : Whole C E E' a b) (ho : Own T a) (hab : About C a b)
    (hba : About C b a) (hT : ∀ cb v, cb.callback = none → T.assign cb v = v) (hst : Streams b a held)
    (hle : b.framesReceived ≤ a.sent.length) {chunk : Chunk} (hwire : b.wire = chunk.1 ++ rest)
    {values : ℕ → V} (hrun : a.onData C E T chunk values = some a') : Whole C E E' a' b := by
  obtain ⟨held', fs, gs, hdrop, hpush, -, -⟩ := hst.pushData hba chunk hwire
  simp only [Endpoint.onData, hpush, Option.bind_eq_bind, Option.bind_some] at hrun
  have hdecoded : Whole C E E' { a with frameDecoder := FrameDecoder.ofHeld held' } b :=
    ⟨⟨h.out.served, h.out.returned⟩, ⟨h.back.served, h.back.returned⟩, ⟨h.accounts.calls, h.accounts.framed⟩⟩
  exact hdecoded.onPackets (ho.of_origins rfl rfl rfl rfl ho.origins_nodup ho.origins_lt)
    ⟨hab.sent, hab.rpcs, hab.returned, hab.executed⟩
    (hba.mono_right ⟨List.prefix_rfl, List.prefix_rfl, List.Subset.refl _⟩) hT values hle hdrop hrun

end Endpoint

namespace Connection

open Endpoint

variable {V : Type} {C : Codec V} {E : Bool → RPCEnvironment}
  {T : MapTraits UInt32 OnReturnCallback} {s s' : Connection V}

/-! ### Runs -/

/-- Nothing is lost between the two sides. -/
def Kept (C : Codec V) (E : Bool → RPCEnvironment) (s : Connection V) : Prop :=
  ∀ side, Complete C (E !side) (s side) (s !side) ∧ (s side).Accounts

theorem Kept.whole (h : Kept C E s) (side : Bool) : Whole C (E side) (E !side) (s side) (s !side) := by
  have hback := (h !side).1
  rw [Bool.not_not] at hback
  exact ⟨(h side).1, hback, (h side).2⟩

theorem Kept.update (h : Kept C E s) {side : Bool} {a' : Endpoint V}
    (hw : Whole C (E side) (E !side) a' (s !side)) : Kept C E (Function.update s side a') := by
  have hne : (!side) ≠ side := by cases side <;> decide
  intro side'
  obtain rfl | rfl : side' = side ∨ side' = !side := by cases side <;> cases side' <;> decide
  · rw [Function.update_self, Function.update_of_ne hne]
    exact ⟨hw.out, hw.accounts⟩
  · rw [Bool.not_not, Function.update_self, Function.update_of_ne hne]
    exact ⟨hw.back, (h !side).2⟩

/-- **Everything that can happen keeps it.** -/
theorem step_kept (hT : ∀ cb v, cb.callback = none → T.assign cb v = v) (hagree : Agrees C T s)
    (h : Kept C E s) (op : Op V) (hlt : ∀ side, (s side).ids.length + op.calls side < 2 ^ 32 - 1)
    (hstep : step C E T s op = some s') : Kept C E s' := by
  -- a side that does something without receiving
  have hquiet : ∀ {side : Bool} {a' : Endpoint V}, Moves (s side) a' →
      a'.framesReceived = (s side).framesReceived → Kept C E (Function.update s side a') := by
    intro side a' hm hrec
    have hb := hagree (!side)
    rw [Bool.not_not] at hb
    obtain ⟨held, hst⟩ := (hagree side).streams
    exact h.update ((h.whole side).moves hb.about hm hrec hst.le)
  cases op with
  | call side executionQueue timeoutTimePoint payload flags =>
    have hone : Op.calls side (.call side executionQueue timeoutTimePoint payload flags : Op V) = 1 := by
      simp [Op.calls, Op.isCall]
    have hlt' : (s side).ids.length < 2 ^ 32 - 1 := by
      have := hlt side
      omega
    obtain ⟨e, he, hs⟩ := Option.bind_eq_some_iff.mp hstep
    obtain rfl := Option.some.inj hs
    have hspec := (callSend_spec (hagree side).own (hagree side).about hlt' executionQueue timeoutTimePoint
      payload flags).1 e he
    exact hquiet (callSend_moves (hagree side).own hlt' he) hspec.2.2
  | deliver side n values =>
    have hne : (!side) ≠ side := by cases side <;> decide
    have hb := hagree (!side)
    rw [Bool.not_not] at hb
    obtain ⟨e, he, hs⟩ := Option.bind_eq_some_iff.mp hstep
    obtain rfl := Option.some.inj hs
    obtain ⟨held, hst⟩ := (hagree side).streams
    obtain ⟨held', hst'⟩ := hb.streams
    have hw := (h.whole side).onData (hagree side).own (hagree side).about hb.about hT hst' hst.le
      (List.take_append_drop n.toNat _).symm he
    rw [Function.update_comm hne]
    refine Kept.update (h.update hw) ?_
    rw [Bool.not_not, Function.update_self]
    exact ⟨⟨hw.back.served, hw.back.returned⟩, ⟨hw.out.served, hw.out.returned⟩,
      (h !side).2.calls, (h !side).2.framed⟩
  | executeRPC side i v =>
    obtain ⟨e, he, hs⟩ := Option.bind_eq_some_iff.mp hstep
    obtain rfl := Option.some.inj hs
    have hspec := (executeRPC_spec (hagree side).own (hagree side).about i v).1 e he
    exact hquiet (executeRPC_moves he) hspec.received
  | executeCallback side i =>
    obtain rfl := Option.some.inj hstep
    exact hquiet (executeCallback_moves _ i)
      (executeCallback_spec (hagree side).own (hagree side).about i).received
  | checkTimeout side random now =>
    obtain ⟨e, he, hs⟩ := Option.bind_eq_some_iff.mp hstep
    obtain rfl := Option.some.inj hs
    obtain ⟨e', he', hspec⟩ :=
      checkForTimeoutFunctionCalls_spec (hagree side).own (hagree side).about hT random now
    obtain rfl := Option.some.inj (he.symm.trans he')
    exact hquiet (checkForTimeoutFunctionCalls_moves (hagree side).own hT he) hspec.received

theorem init_kept (baseHash : Bool → UInt64) : Kept C E (init baseHash : Connection V) := by
  intro side
  refine ⟨⟨fun n hn => absurd hn (Nat.not_lt_zero n), fun m hm => absurd hm (Nat.not_lt_zero m)⟩,
    fun c hc => absurd hc (Nat.not_lt_zero c), fun c hc => absurd hc (Nat.not_lt_zero c)⟩

/-- **Every run keeps it.** -/
theorem run_kept (hT : ∀ cb v, cb.callback = none → T.assign cb v = v) (ops : List (Op V))
    (hagree : Agrees C T s) (h : Kept C E s)
    (hlt : ∀ side, (s side).ids.length + ops.countP (Op.isCall side) < 2 ^ 32 - 1)
    (hrun : run C E T s ops = some s') : Kept C E s' := by
  induction ops generalizing s with
  | nil =>
    obtain rfl := Option.some.inj hrun
    exact h
  | cons op ops ih =>
    obtain ⟨s₁, hstep, hrun⟩ := foldlM_cons_eq_some.mp hrun
    have hcount : ∀ side, (s side).ids.length + op.calls side + ops.countP (Op.isCall side) < 2 ^ 32 - 1 := by
      intro side
      have := hlt side
      rw [List.countP_cons] at this
      rw [Op.calls]
      omega
    have hop : ∀ side, (s side).ids.length + op.calls side < 2 ^ 32 - 1 :=
      fun side => (Nat.le_add_right _ _).trans_lt (hcount side)
    obtain ⟨hagree₁, hlen⟩ := (step_agrees (E := E) hT hagree op hop).1 s₁ hstep
    exact ih hagree₁ (step_kept hT hagree h op hop hstep) (fun side => by rw [hlen]; exact hcount side) hrun

/-- **Nothing that has arrived waits.**  A call is done, or it is not answered. -/
theorem done_of_received {a b : Endpoint V} {E : RPCEnvironment} (hc : Complete C E a b) (ha : a.Accounts)
    (hout : b.framesReceived = a.sent.length) (hback : a.framesReceived = b.sent.length)
    (hq : b.rpcQueue = []) {c : ℕ} (hlt : c < a.ids.length) :
    c ∈ a.done ∨ ∃ (n : ℕ) (bytes : List UInt8), a.sent[n]? = some ⟨.call c, bytes⟩ ∧
      ∀ rpc, E.callOf C bytes = some rpc → rpc.answers = false := by
  obtain ⟨n, hn⟩ := ha.framed c hlt
  obtain ⟨⟨kind, bytes⟩, hf, rfl⟩ := Option.map_eq_some_iff.mp hn
  by_cases hans : ∀ rpc, E.callOf C bytes = some rpc → rpc.answers = false
  · exact .inr ⟨n, bytes, hf, hans⟩
  left
  push Not at hans
  obtain ⟨rpc, hrpc, hans⟩ := hans
  have hnlt : n < b.framesReceived := by
    rw [hout]
    exact (List.getElem?_eq_some_iff.mp hf).1
  rcases hc.served n hnlt c bytes hf rpc hrpc with hqueued | hreplied
  · rw [hq] at hqueued
    cases hqueued
  · obtain ⟨bytes', hm⟩ := hreplied (Bool.eq_true_of_not_eq_false hans)
    obtain ⟨m, hmlt, hm⟩ := List.mem_iff_getElem.mp hm
    have hnot := hc.returned m (by omega) n bytes' (List.getElem?_eq_some_iff.mpr ⟨hmlt, hm⟩) c hn
    exact (ha.calls c hlt).resolve_right hnot

end Connection

namespace Link

open Endpoint

variable {V : Type}

/-- **No call is lost.**  Two peers call each other over tcp as they like, with fewer than `2 ^ 32 - 1`
calls per side.  When all frames of both sides have been received and no call waits in the queue of the
other side, every call of a side is done, its callback queued or executed exactly once, with a value or
on a timeout; unless the other side finds no function for it, cannot read its arguments, or sends no
answer to it. -/
theorem link_no_call_lost (C : Codec V) (E : Bool → RPCEnvironment) (hash : UInt32 → UInt64 → UInt32)
    (baseHash : Bool → UInt64) (socket : Bool → UsSocket) (capacity : Bool → ℕ)
    (hsock : ∀ side, (socket side).accepted = []) (hcap : ∀ side, 0 < capacity side)
    (ops : List (Op V)) (hcalls : ∀ side, ops.countP (Op.isCall side) < 2 ^ 32 - 1) (s : Link V)
    (hrun : run C E (OnReturnCallback.traits hash) (init baseHash socket capacity) ops = some s)
    (hreceived : ∀ side, (s !side).rpc.framesReceived = (s side).rpc.sent.length) (side : Bool)
    (hq : (s !side).rpc.rpcQueue = []) (c : ℕ) (hc : c < (s side).rpc.ids.length) :
    (s side).rpc.done.count c = 1 ∨
      ∃ (n : ℕ) (bytes : List UInt8), (s side).rpc.sent[n]? = some ⟨.call c, bytes⟩ ∧
        ∀ rpc, (E !side).callOf C bytes = some rpc → rpc.answers = false := by
  have hT := OnReturnCallback.traits_assign hash
  obtain ⟨-, cops, hrefines, heq⟩ := run_refines (C := C) (E := E) (T := OnReturnCallback.traits hash) ops
    (init_sound (V := V) baseHash hsock hcap)
  rw [view_init baseHash capacity hsock, hrun] at heq
  have hzero : ∀ side, (Connection.init baseHash side : Endpoint V).ids.length = 0 := fun _ => rfl
  have hkept := Connection.run_kept hT cops (Connection.init_agrees (C := C) baseHash)
    (Connection.init_kept (E := E) baseHash)
    (fun side => by rw [hzero, Nat.zero_add, hrefines.calls]; exact hcalls side) heq.symm
  have hagree := ((run_agrees (C := C) (E := E) hT baseHash hsock hcap ops hcalls).1 s hrun).2
  have hback := hreceived (!side)
  rw [Bool.not_not] at hback
  rcases Connection.done_of_received (hkept side).1 (hkept side).2 (hreceived side) hback hq hc with hdone | hno
  · exact .inl (List.count_eq_one_of_mem (hagree side).own.done_nodup hdone)
  · exact .inr hno

/-- A function that is executed from a queue. -/
def queueing : Bool → RPCEnvironment :=
  fun _ => ⟨fun body => some (⟨fun _ _ => true, fun _ => true⟩, body)⟩

/-- A call over sockets that take one byte at a time, and its answer from the queue. -/
def queuedCall : List (Op UInt8) :=
  .act (.call true true 10 [7] 0) :: List.replicate 6 (.writable true) ++
    .act (.deliver false 9 fun _ => 0) :: .act (.executeRPC false 0 42) ::
      List.replicate 6 (.writable false) ++ [.act (.deliver true 9 fun _ => 0)]

/-- `link_no_call_lost` on this call. -/
theorem link_no_call_lost_queued :
    ∃ s : Link UInt8, run .bytes queueing (OnReturnCallback.traits fun k _ => k)
        (init (fun _ => 0) (fun _ => Loop.creepingSocket) fun _ => 4) queuedCall = some s ∧
      (s true).rpc.done.count 0 = 1 := by
  have hend : ((run .bytes queueing (OnReturnCallback.traits fun k _ => k)
      (init (fun _ => 0) (fun _ => Loop.creepingSocket) fun _ => 4) queuedCall).any fun s =>
        (s false).rpc.framesReceived == (s true).rpc.sent.length &&
        (s true).rpc.framesReceived == (s false).rpc.sent.length &&
        (s false).rpc.rpcQueue.isEmpty && decide (0 < (s true).rpc.ids.length) &&
        (s true).rpc.sent.all fun f =>
          ((queueing false).callOf .bytes f.bytes).any ExecuteRPC.answers) = true := by
    decide +kernel
  obtain ⟨s, hs, hend⟩ := (Option.any_eq_true _ _).mp hend
  simp only [Bool.and_eq_true, beq_iff_eq, List.isEmpty_iff, decide_eq_true_eq, List.all_eq_true] at hend
  obtain ⟨⟨⟨⟨hout, hback⟩, hq⟩, hc⟩, hans⟩ := hend
  refine ⟨s, hs, (link_no_call_lost .bytes queueing (fun k _ => k) (fun _ => 0)
    (fun _ => Loop.creepingSocket) (fun _ => 4) (fun _ => rfl) (by decide) queuedCall (by decide) s hs
    (fun side => by cases side <;> assumption) true hq 0 hc).resolve_right ?_⟩
  rintro ⟨n, bytes, hf, hno⟩
  obtain ⟨rpc, hrpc, hreply⟩ := (Option.any_eq_true _ _).mp (hans _ (List.mem_of_getElem? hf))
  rw [hno rpc hrpc] at hreply
  cases hreply

end Link
end ICon7
