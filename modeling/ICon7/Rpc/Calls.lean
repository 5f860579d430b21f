/-
# Calls and returns agree

Along every run of a connection each side knows what its frames are (`About`): the frame
of a call carries the id under which its callback waits, and the frame of an answer
carries the id that was in the frame it answers and the value of the one handler that
this frame has started.  Ids count the calls as long as they do not wrap, so a pending
id belongs to one call (`Own`), and the callback that an answer finds is that of the
call whose frame the answer answers.

What one side does is seen from the other only as growth (`Grows`), and the frames it
sends arrive in their order (`Streams`), whatever pieces the bytes come in.
-/

import ICon7.Lib.Run
import ICon7.Rpc.Endpoint

namespace ICon7

open Framing Lib

namespace Endpoint

variable {V : Type} {C : Codec V} {E : RPCEnvironment} {T : MapTraits UInt32 OnReturnCallback}
  {a a' a₁ b b' e e' : Endpoint V}

/-! ### The invariant -/

/-- The calls whose callbacks have been taken out of `returningCallbacks`. -/
def done (e : Endpoint V) : List ℕ :=
  e.callbackQueue.map ReturnCommand.call ++ e.executed.map Executed.call

/-- The frames whose handlers have been run or wait for it. -/
def origins (e : Endpoint V) : List ℕ := e.rpcQueue.map Prod.fst ++ e.runs.map Prod.fst

/-- What holds of one side alone. -/
structure Own (T : MapTraits UInt32 OnReturnCallback) (e : Endpoint V) : Prop where
  wf : e.returningCallbacks.WF T
  size : e.returningCallbacks.buckets.length < 2 ^ 31
  few : e.returningCallbacks.buckets.length ≤ e.ids.length
  gen : e.returnIdGen.toNat = e.ids.length
  ids : ∀ (c : ℕ) (id : UInt32), e.ids[c]? = some id → id.toNat = c + 1
  pending : ∀ id cb, (id, cb) ∈ e.returningCallbacks.entries →
    ∃ c, cb.callback = some c ∧ e.ids[c]? = some id
  done_nodup : e.done.Nodup
  done_lt : ∀ c ∈ e.done, c < e.ids.length
  done_pending : ∀ c ∈ e.done, ∀ id cb, (id, cb) ∈ e.returningCallbacks.entries →
    cb.callback ≠ some c
  origins_nodup : e.origins.Nodup
  origins_lt : ∀ n ∈ e.origins, n < e.framesReceived

/-- The frame at the place is that of the call. -/
def CallAt (e : Endpoint V) (n c : ℕ) : Prop := (e.sent[n]?).map SentFrame.kind = some (.call c)

/-- The call was sent with the id, and the handler that its frame has started gave the value. -/
def Answered (a b : Endpoint V) (c : ℕ) (id : UInt32) (v : V) : Prop :=
  a.ids[c]? = some id ∧ ∃ n, a.CallAt n c ∧ (n, v) ∈ b.runs

/-- A call that waits for its execution has the id of the call whose frame brought it. -/
def Called (b : Endpoint V) (n : ℕ) (rpc : ExecuteRPC) : Prop :=
  rpc.flags &&& 6 = FLAGS_CALL → ∃ c, b.CallAt n c ∧ b.ids[c]? = some rpc.returnId

/-- What the bytes of a frame are. -/
def Legit (C : Codec V) (a b : Endpoint V) (f : SentFrame) : Prop :=
  match f.kind with
  | .call c => ∃ id payload flags, a.ids[c]? = some id ∧
      frame (C.encodeUint id ++ payload) (flags ||| FLAGS_CALL) = some f.bytes
  | .reply n => ∃ id v flags c, b.CallAt n c ∧ b.ids[c]? = some id ∧ (n, v) ∈ a.runs ∧
      flags &&& 6 = FLAGS_CALL_RETURN_FEEDBACK ∧
      frame (C.encodeUint id ++ C.encode v) flags = some f.bytes

/-- What one side knows of the other. -/
structure About (C : Codec V) (a b : Endpoint V) : Prop where
  sent : ∀ f ∈ a.sent, Legit C a b f
  rpcs : ∀ n rpc, (n, rpc) ∈ a.rpcQueue → b.Called n rpc
  returned : ∀ c id reader, (⟨c, some (id, reader)⟩ : ReturnCommand) ∈ a.callbackQueue →
    a.Answered b c id (C.decode reader)
  executed : ∀ c id v, (⟨c, some (id, v)⟩ : Executed V) ∈ a.executed → a.Answered b c id v

/-- What one side sees of the progress of the other. -/
structure Grows (e e' : Endpoint V) : Prop where
  ids : e.ids <+: e'.ids
  sent : e.sent <+: e'.sent
  runs : e.runs ⊆ e'.runs

/-! ### Growth -/

theorem getElem?_mono {α : Type} {l l' : List α} {i : ℕ} {x : α} (h : l <+: l')
    (hi : l[i]? = some x) : l'[i]? = some x := by
  obtain ⟨t, rfl⟩ := h
  rw [List.getElem?_append_left (List.getElem?_eq_some_iff.mp hi).1, hi]

theorem Grows.refl (e : Endpoint V) : Grows e e :=
  ⟨List.prefix_rfl, List.prefix_rfl, List.Subset.refl _⟩

theorem Grows.trans (h : Grows a a₁) (h' : Grows a₁ a') : Grows a a' :=
  ⟨h.ids.trans h'.ids, h.sent.trans h'.sent, List.Subset.trans h.runs h'.runs⟩

theorem CallAt.mono {n c : ℕ} (h : a.CallAt n c) (hsent : a.sent <+: a'.sent) : a'.CallAt n c := by
  obtain ⟨f, hf, hk⟩ := Option.map_eq_some_iff.mp h
  rw [CallAt, getElem?_mono hsent hf, Option.map_some, hk]

theorem Answered.mono {c : ℕ} {id : UInt32} {v : V} (h : a.Answered b c id v) (ha : Grows a a')
    (hb : Grows b b') : a'.Answered b' c id v := by
  obtain ⟨hid, n, hn, hv⟩ := h
  exact ⟨getElem?_mono ha.ids hid, n, hn.mono ha.sent, hb.runs hv⟩

theorem Called.mono {n : ℕ} {rpc : ExecuteRPC} (h : b.Called n rpc) (hb : Grows b b') :
    b'.Called n rpc := by
  intro hk
  obtain ⟨c, hc, hid⟩ := h hk
  exact ⟨c, hc.mono hb.sent, getElem?_mono hb.ids hid⟩

theorem Legit.mono {f : SentFrame} (h : Legit C a b f) (ha : Grows a a') (hb : Grows b b') :
    Legit C a' b' f := by
  obtain ⟨kind, bytes⟩ := f
  cases kind with
  | call c =>
    obtain ⟨id, payload, flags, hid, hf⟩ := h
    exact ⟨id, payload, flags, getElem?_mono ha.ids hid, hf⟩
  | reply n =>
    obtain ⟨id, v, flags, c, hc, hid, hv, hk, hf⟩ := h
    exact ⟨id, v, flags, c, hc.mono hb.sent, getElem?_mono hb.ids hid, ha.runs hv, hk, hf⟩

/-- What one side knows of the other stays true when the other goes on. -/
theorem About.mono_right (h : About C a b) (hb : Grows b b') : About C a b' :=
  ⟨fun f hf => (h.sent f hf).mono (Grows.refl a) hb, fun n rpc hm => (h.rpcs n rpc hm).mono hb,
    fun c id reader hm => (h.returned c id reader hm).mono (Grows.refl a) hb,
    fun c id v hm => (h.executed c id v hm).mono (Grows.refl a) hb⟩

/-- **What a step of one side does,** the other side being as it is. -/
structure Advances (C : Codec V) (T : MapTraits UInt32 OnReturnCallback) (b a a' : Endpoint V) : Prop where
  own : Own T a'
  about : About C a' b
  grows : Grows a a'
  frameDecoder : a'.frameDecoder = a.frameDecoder
  frames : ∃ fs, a'.sent = a.sent ++ fs ∧ a'.wire = a.wire ++ (fs.map SentFrame.bytes).flatten

/-- A step that neither calls, nor sends, nor runs a handler. -/
theorem Advances.of_eq (ho : Own T a') (hab : About C a' b) (hids : a'.ids = a.ids)
    (hsent : a'.sent = a.sent) (hruns : a'.runs = a.runs) (hwire : a'.wire = a.wire)
    (hdec : a'.frameDecoder = a.frameDecoder) : Advances C T b a a' :=
  ⟨ho, hab, ⟨hids ▸ List.prefix_rfl, hsent ▸ List.prefix_rfl, hruns ▸ List.Subset.refl _⟩, hdec, [],
    by simp [hsent], by simp [hwire]⟩

theorem Advances.trans (h : Advances C T b a a₁) (h' : Advances C T b a₁ a') : Advances C T b a a' := by
  obtain ⟨fs, hs, hw⟩ := h.frames
  obtain ⟨fs', hs', hw'⟩ := h'.frames
  exact ⟨h'.own, h'.about, h.grows.trans h'.grows, h'.frameDecoder.trans h.frameDecoder, fs ++ fs',
    by rw [hs', hs, List.append_assoc], by rw [hw', hw]; simp⟩

/-- A step that neither calls nor takes a frame. -/
structure Serves (C : Codec V) (T : MapTraits UInt32 OnReturnCallback) (b a a' : Endpoint V) : Prop
    extends Advances C T b a a' where
  same_ids : a'.ids = a.ids
  received : a'.framesReceived = a.framesReceived

theorem Serves.refl (ho : Own T a) (hab : About C a b) : Serves C T b a a :=
  ⟨.of_eq ho hab rfl rfl rfl rfl rfl, rfl, rfl⟩

theorem Serves.trans (h : Serves C T b a a₁) (h' : Serves C T b a₁ a') : Serves C T b a a' :=
  ⟨h.toAdvances.trans h'.toAdvances, h'.same_ids.trans h.same_ids, h'.received.trans h.received⟩

/-! ### Callbacks -/

/-- One more callback is taken out. -/
theorem Own.of_done (ho : Own T a) {c : ℕ} (hmap : a'.returningCallbacks = a.returningCallbacks)
    (hgen : a'.returnIdGen = a.returnIdGen) (hids : a'.ids = a.ids) (horig : a'.origins = a.origins)
    (hrec : a'.framesReceived = a.framesReceived) (hdone : a'.done.Perm (c :: a.done))
    (hlt : c < a.ids.length) (hnew : c ∉ a.done)
    (hnp : ∀ id cb, (id, cb) ∈ a.returningCallbacks.entries → cb.callback ≠ some c) : Own T a' := by
  refine ⟨hmap ▸ ho.wf, hmap ▸ ho.size, by rw [hmap, hids]; exact ho.few,
    by rw [hgen, hids]; exact ho.gen, hids ▸ ho.ids,
    by rw [hmap, hids]; exact ho.pending, hdone.nodup_iff.mpr (List.nodup_cons.mpr ⟨hnew, ho.done_nodup⟩),
    fun d hd => ?_, fun d hd => ?_, horig ▸ ho.origins_nodup, by rw [horig, hrec]; exact ho.origins_lt⟩
  · rw [hids]
    rcases List.mem_cons.mp (hdone.mem_iff.mp hd) with rfl | hd
    · exact hlt
    · exact ho.done_lt d hd
  · rw [hmap]
    rcases List.mem_cons.mp (hdone.mem_iff.mp hd) with rfl | hd
    · exact hnp
    · exact ho.done_pending d hd

/-- **A callback that is taken out** is queued or executed, with an outcome that is right. -/
theorem finishCallback_spec (ho : Own T a) (hab : About C a b) {cb : OnReturnCallback} {c : ℕ}
    (hc : cb.callback = some c) (hlt : c < a.ids.length) (hnew : c ∉ a.done)
    (hnp : ∀ id cb, (id, cb) ∈ a.returningCallbacks.entries → cb.callback ≠ some c)
    (outcome : Option (UInt32 × List UInt8))
    (hout : ∀ id reader, outcome = some (id, reader) → a.Answered b c id (C.decode reader)) :
    ∃ a', a.finishCallback C cb outcome = some a' ∧ Serves C T b a a' := by
  rcases hq : cb.executionQueue with _ | _
  · refine ⟨{ a with executed := a.executed ++ [executeReturn C ⟨c, outcome⟩] },
      by simp [finishCallback, hc, hq], ⟨.of_eq (ho.of_done rfl rfl rfl rfl rfl ?_ hlt hnew hnp)
      ⟨hab.sent, hab.rpcs, hab.returned, fun d id v hm => ?_⟩ rfl rfl rfl rfl rfl, rfl, rfl⟩⟩
    · simp only [done, List.map_append, List.map_cons, List.map_nil, ← List.append_assoc]
      exact List.perm_append_singleton c _
    · rcases List.mem_append.mp hm with hm | hm
      · exact hab.executed d id v hm
      · rw [List.mem_singleton, executeReturn, Executed.mk.injEq] at hm
        obtain ⟨rfl, hv⟩ := hm
        obtain ⟨⟨id', reader⟩, ho', hv'⟩ := Option.map_eq_some_iff.mp hv.symm
        obtain ⟨rfl, rfl⟩ := Prod.mk.inj hv'
        exact hout id' reader ho'
  · refine ⟨{ a with callbackQueue := a.callbackQueue ++ [⟨c, outcome⟩] },
      by simp [finishCallback, hc, hq], ⟨.of_eq (ho.of_done rfl rfl rfl rfl rfl ?_ hlt hnew hnp)
      ⟨hab.sent, hab.rpcs, fun d id reader hm => ?_, hab.executed⟩ rfl rfl rfl rfl rfl, rfl, rfl⟩⟩
    · simp only [done, List.map_append, List.map_cons, List.map_nil, List.append_assoc]
      exact List.perm_middle
    · rcases List.mem_append.mp hm with hm | hm
      · exact hab.returned d id reader hm
      · obtain ⟨rfl, ho'⟩ := ReturnCommand.mk.inj (List.mem_singleton.mp hm)
        exact hout id reader ho'.symm

/-- An id belongs to one call. -/
theorem Own.ids_inj (ho : Own T a) {c d : ℕ} {id : UInt32} (hc : a.ids[c]? = some id)
    (hd : a.ids[d]? = some id) : c = d := by
  have h1 := ho.ids c id hc
  have h2 := ho.ids d id hd
  omega

/-- **Taking a callback out of `returningCallbacks`:** it is that of one call, which is not done, and no
other callback is. -/
theorem Own.take (ho : Own T a) (hT : ∀ cb v, cb.callback = none → T.assign cb v = v) {j : ℕ}
    {p : Pair UInt32 OnReturnCallback} (hp : a.returningCallbacks.buckets[j]? = some p)
    (cb : OnReturnCallback) (hcb : cb.callback = none) :
    ∃ m c, (a.returningCallbacks.store j cb).remove T p.key = some m ∧ p.v.callback = some c ∧
      a.ids[c]? = some p.key ∧ c ∉ a.done ∧ Own T { a with returningCallbacks := m } ∧
      (∀ x, x ∈ m.entries ↔ x ∈ a.returningCallbacks.entries ∧ x.1 ≠ p.key) ∧
      ∀ id cb, (id, cb) ∈ m.entries → cb.callback ≠ some c := by
  have hmem : (p.key, p.v) ∈ a.returningCallbacks.entries :=
    List.mem_map.mpr ⟨p, List.mem_of_getElem? hp, rfl⟩
  obtain ⟨c, hc, hid⟩ := ho.pending p.key p.v hmem
  obtain ⟨m, hrem, hw, hlen, hm⟩ := FlatHashMap.store_remove_spec ho.wf hp fun u => hT cb u hcb
  refine ⟨m, c, hrem, hc, hid, fun hd => ho.done_pending c hd p.key p.v hmem hc,
    ⟨hw, hlen.trans_lt ho.size, hlen.trans ho.few, ho.gen, ho.ids,
      fun id cb h => ho.pending id cb ((hm _).mp h).1, ho.done_nodup, ho.done_lt,
      fun d hd id cb h => ho.done_pending d hd id cb ((hm _).mp h).1,
      ho.origins_nodup, ho.origins_lt⟩, hm, fun id cb h hcc => ?_⟩
  obtain ⟨hold, hne⟩ := (hm _).mp h
  obtain ⟨d, hd, hdid⟩ := ho.pending id cb hold
  obtain rfl := Option.some.inj (hcc.symm.trans hd)
  exact hne (Option.some.inj (hdid.symm.trans hid))

/-- The other side does not see the map. -/
theorem Serves.of_map (hab : About C a b) {m : FlatHashMap UInt32 OnReturnCallback}
    (ho : Own T { a with returningCallbacks := m }) : Serves C T b a { a with returningCallbacks := m } :=
  ⟨.of_eq ho ⟨hab.sent, hab.rpcs, hab.returned, hab.executed⟩ rfl rfl rfl rfl rfl, rfl, rfl⟩

/-- `OnReturnCallback::Execute` and `ExecuteTimeout` do not look at the map, -/
theorem finishCallback_map (e : Endpoint V) (m : FlatHashMap UInt32 OnReturnCallback)
    (cb : OnReturnCallback) (outcome : Option (UInt32 × List UInt8)) :
    finishCallback C { e with returningCallbacks := m } cb outcome =
      (e.finishCallback C cb outcome).map fun e => { e with returningCallbacks := m } := by
  cases hc : cb.callback with
  | none => simp [finishCallback, hc]
  | some c =>
    simp only [finishCallback, hc, Option.bind_eq_bind, Option.bind_some, Option.pure_def]
    split_ifs
    · rfl
    · rfl

/-- and leave it as it is. -/
theorem finishCallback_returningCallbacks {cb : OnReturnCallback} {outcome : Option (UInt32 × List UInt8)}
    (h : e.finishCallback C cb outcome = some e') : e'.returningCallbacks = e.returningCallbacks := by
  obtain ⟨call, -, h⟩ := Option.bind_eq_some_iff.mp h
  split_ifs at h <;> rw [← Option.some.inj h]

/-- A return frame whose id is not pending changes nothing. -/
theorem onReceiveReturn_of_not_pending (ho : Own T a) {body : List UInt8}
    (hno : ∀ cb, ((C.decodeUint body).1, cb) ∉ a.returningCallbacks.entries) :
    a.onReceiveReturn C T body = some a := by
  simp only [onReceiveReturn, FlatHashMap.find_of_not_mem ho.wf hno, Option.bind_eq_bind,
    Option.bind_some, Option.pure_def]

/-- **`OnReceiveReturn` of an answer** executes the callback of the call that is answered, if it
is pending. -/
theorem onReceiveReturn_spec (ho : Own T a) (hab : About C a b)
    (hT : ∀ cb v, cb.callback = none → T.assign cb v = v) {id : UInt32} {v : V} {n c : ℕ}
    (hn : a.CallAt n c) (hid : a.ids[c]? = some id) (hv : (n, v) ∈ b.runs) :
    ∃ a', a.onReceiveReturn C T (C.encodeUint id ++ C.encode v) = some a' ∧ Serves C T b a a' := by
  by_cases hpend : ∃ cb, (id, cb) ∈ a.returningCallbacks.entries
  · obtain ⟨cb, hcb⟩ := hpend
    obtain ⟨j, p, hfind, hp, rfl, rfl⟩ := FlatHashMap.find_of_mem ho.wf hcb
    obtain ⟨m, d, hrem, hd, hdid, hnew, ho', -, hnp⟩ := ho.take hT hp p.v.movedFrom rfl
    obtain rfl := ho.ids_inj hid hdid
    have hadv := Serves.of_map hab ho'
    obtain ⟨a', hfin, hadv'⟩ := finishCallback_spec hadv.own hadv.about hd
      (List.getElem?_eq_some_iff.mp hid).1 hnew hnp (some (p.key, C.encode v))
      fun id' reader heq => by
        obtain ⟨rfl, rfl⟩ := Prod.mk.inj (Option.some.inj heq)
        rw [C.decode_encode]
        exact ⟨hid, n, hn, hv⟩
    refine ⟨a', ?_, hadv.trans hadv'⟩
    simp only [onReceiveReturn, C.decodeUint_encodeUint, hfind, hp, hrem, hfin, Option.bind_eq_bind,
      Option.bind_some]
  · refine ⟨a, onReceiveReturn_of_not_pending ho fun cb hcb => hpend ⟨cb, ?_⟩,
      Serves.refl ho hab⟩
    rwa [C.decodeUint_encodeUint] at hcb

/-- **The timeout check** executes the callback that it finds expired. -/
theorem checkForTimeoutFunctionCalls_spec (ho : Own T a) (hab : About C a b)
    (hT : ∀ cb v, cb.callback = none → T.assign cb v = v) (random now : ℕ) :
    ∃ a', a.checkForTimeoutFunctionCalls C T random now = some a' ∧ Serves C T b a a' := by
  by_cases hz : a.returningCallbacks.buckets.length = 0
  · exact ⟨a, if_pos hz, Serves.refl ho hab⟩
  have hlt := Nat.mod_lt random (Nat.pos_of_ne_zero hz)
  have hp := List.getElem?_eq_getElem hlt
  set p := a.returningCallbacks.buckets[random % a.returningCallbacks.buckets.length]
  rcases hexp : p.v.isExpired now with _ | _
  · exact ⟨a, by simp [checkForTimeoutFunctionCalls, hz, hp, hexp], Serves.refl ho hab⟩
  · obtain ⟨m, c, hrem, hc, hid, hnew, ho', -, hnp⟩ := ho.take hT hp p.v.emptied rfl
    have hadv := Serves.of_map hab ho'
    obtain ⟨a', hfin, hadv'⟩ := finishCallback_spec hadv.own hadv.about hc
      (List.getElem?_eq_some_iff.mp hid).1 hnew hnp none fun id' reader heq => by simp at heq
    refine ⟨a', ?_, hadv.trans hadv'⟩
    -- the callback is executed before its pair is removed
    rw [finishCallback_map] at hfin
    obtain ⟨e, he, rfl⟩ := Option.map_eq_some_iff.mp hfin
    simp only [checkForTimeoutFunctionCalls, hz, if_false, hp, hexp, if_true, he,
      finishCallback_returningCallbacks he, hrem, Option.bind_eq_bind, Option.bind_some, Option.pure_def]

/-- The execution of a queued callback. -/
theorem executeCallback_spec (ho : Own T a) (hab : About C a b) (i : ℕ) :
    Serves C T b a (a.executeCallback C i) := by
  rcases hx : a.callbackQueue[i]? with _ | x
  · rw [executeCallback, hx]
    exact Serves.refl ho hab
  rw [executeCallback, hx]
  have hperm := ((List.getElem_cons_eraseIdx_perm (List.getElem?_eq_some_iff.mp hx).1).map
    ReturnCommand.call)
  rw [(List.getElem?_eq_some_iff.mp hx).2] at hperm
  have hdone : (a.executeCallback C i).done.Perm a.done := by
    simp only [executeCallback, hx, done, List.map_append, List.map_cons, List.map_nil,
      ← List.append_assoc, executeReturn]
    exact (List.perm_append_singleton _ _).trans (hperm.append_right _)
  rw [executeCallback, hx] at hdone
  refine ⟨.of_eq ⟨ho.wf, ho.size, ho.few, ho.gen, ho.ids, ho.pending, hdone.nodup_iff.mpr ho.done_nodup,
    fun c hc => ho.done_lt c (hdone.mem_iff.mp hc), fun c hc => ho.done_pending c (hdone.mem_iff.mp hc),
    ho.origins_nodup, ho.origins_lt⟩ ⟨hab.sent, hab.rpcs, fun c id reader hm =>
      hab.returned c id reader (List.mem_of_mem_eraseIdx hm), fun c id v hm => ?_⟩
    rfl rfl rfl rfl rfl, rfl, rfl⟩
  rcases List.mem_append.mp hm with hm | hm
  · exact hab.executed c id v hm
  · obtain ⟨d, outcome⟩ := x
    rw [List.mem_singleton, executeReturn, Executed.mk.injEq] at hm
    obtain ⟨rfl, hv⟩ := hm
    obtain ⟨⟨id', reader⟩, rfl, hv'⟩ := Option.map_eq_some_iff.mp hv.symm
    obtain ⟨rfl, rfl⟩ := Prod.mk.inj hv'
    exact hab.returned c id' reader (List.mem_of_getElem? hx)

/-! ### Handlers -/

/-- What is new about a side that goes on is its new frames and the calls it takes over. -/
theorem About.grow (hab : About C a b) (hg : Grows a a')
    (hsent : ∀ f ∈ a'.sent, f ∈ a.sent ∨ Legit C a' b f)
    (hrpcs : ∀ n rpc, (n, rpc) ∈ a'.rpcQueue → (n, rpc) ∈ a.rpcQueue ∨ b.Called n rpc)
    (hret : a'.callbackQueue = a.callbackQueue) (hexe : a'.executed = a.executed) : About C a' b := by
  refine ⟨fun f hf => ?_, fun n rpc hm => ?_, fun c id reader hm => ?_, fun c id v hm => ?_⟩
  · exact (hsent f hf).elim (fun h => (hab.sent f h).mono hg (Grows.refl b)) fun h => h
  · exact (hrpcs n rpc hm).elim (hab.rpcs n rpc) fun h => h
  · exact (hab.returned c id reader (hret ▸ hm)).mono hg (Grows.refl b)
  · exact (hab.executed c id v (hexe ▸ hm)).mono hg (Grows.refl b)

/-- What holds of one side does not depend on what it sends, and only the frames that it has
received can start a handler. -/
theorem Own.of_origins (ho : Own T a) (hmap : a'.returningCallbacks = a.returningCallbacks)
    (hgen : a'.returnIdGen = a.returnIdGen) (hids : a'.ids = a.ids) (hdone : a'.done = a.done)
    (hnd : a'.origins.Nodup) (hlt : ∀ n ∈ a'.origins, n < a'.framesReceived) : Own T a' :=
  ⟨hmap ▸ ho.wf, hmap ▸ ho.size, by rw [hmap, hids]; exact ho.few, by rw [hgen, hids]; exact ho.gen,
    hids ▸ ho.ids, by rw [hmap, hids]; exact ho.pending, hdone ▸ ho.done_nodup,
    by rw [hdone, hids]; exact ho.done_lt, by rw [hdone, hmap]; exact ho.done_pending, hnd, hlt⟩

/-- One more frame starts a handler. -/
theorem Own.of_origin (ho : Own T a) {n : ℕ} (hmap : a'.returningCallbacks = a.returningCallbacks)
    (hgen : a'.returnIdGen = a.returnIdGen) (hids : a'.ids = a.ids) (hdone : a'.done = a.done)
    (hrec : a'.framesReceived = a.framesReceived) (hperm : a'.origins.Perm (n :: a.origins))
    (hn : n < a.framesReceived) (hnew : n ∉ a.origins) : Own T a' := by
  refine ho.of_origins hmap hgen hids hdone
    (hperm.nodup_iff.mpr (List.nodup_cons.mpr ⟨hnew, ho.origins_nodup⟩)) fun m hm => ?_
  rw [hrec]
  rcases List.mem_cons.mp (hperm.mem_iff.mp hm) with rfl | hm
  · exact hn
  · exact ho.origins_lt m hm

/-- The value can be sent back. -/
def Fits (C : Codec V) (v : V) : Prop := 4 + (C.encode v).length ≤ 2 ^ 28

/-- The handler of a frame that has not started one gives its value. -/
theorem runs_spec (ho : Own T a) (hab : About C a b) {n : ℕ} (hn : n < a.framesReceived)
    (hnew : n ∉ a.origins) (v : V) : Serves C T b a { a with runs := a.runs ++ [(n, v)] } := by
  have hperm : ({ a with runs := a.runs ++ [(n, v)] } : Endpoint V).origins.Perm (n :: a.origins) := by
    simp only [origins, List.map_append, List.map_cons, List.map_nil, ← List.append_assoc]
    exact List.perm_append_singleton _ _
  have hg : Grows a { a with runs := a.runs ++ [(n, v)] } :=
    ⟨List.prefix_rfl, List.prefix_rfl, List.subset_append_left _ _⟩
  exact ⟨⟨ho.of_origin rfl rfl rfl rfl rfl hperm hn hnew, hab.grow hg (fun f hf => .inl hf)
    (fun m rpc hm => .inl hm) rfl rfl, hg, rfl, [], by simp, by simp⟩, rfl, rfl⟩

/-- A frame that is what its kind says can be sent. -/
theorem send_spec (ho : Own T a) (hab : About C a b) (kind : FrameKind) {bytes : List UInt8}
    (hf : Legit C a b ⟨kind, bytes⟩) : Serves C T b a (a.send kind bytes) := by
  have hg : Grows a (a.send kind bytes) :=
    ⟨List.prefix_rfl, List.prefix_append _ _, List.Subset.refl _⟩
  refine ⟨⟨ho.of_origins rfl rfl rfl rfl ho.origins_nodup ho.origins_lt,
    hab.grow hg (fun f hm => ?_) (fun m rpc hm => .inl hm) rfl rfl, hg, rfl, [⟨kind, bytes⟩], rfl,
    by simp [send]⟩, rfl, rfl⟩
  rcases List.mem_append.mp hm with hm | hm
  · exact .inl hm
  · rw [List.mem_singleton.mp hm]
    exact .inr (hf.mono hg (Grows.refl b))

/-- **`DeserializeAndExecute`** runs the handler once and answers with the id of the call. -/
theorem deserializeAndExecute_spec (ho : Own T a) (hab : About C a b) {n : ℕ} {rpc : ExecuteRPC}
    (hcall : b.Called n rpc) (hn : n < a.framesReceived) (hnew : n ∉ a.origins) (v : V) :
    Yields (a.deserializeAndExecute C n rpc v) (Fits C v) (Serves C T b a) := by
  rcases hruns : rpc.runs with _ | _
  · rw [deserializeAndExecute, hruns, if_neg Bool.false_ne_true]
    exact .of_some (Serves.refl ho hab)
  have hs := runs_spec ho hab hn hnew v
  rcases hrep : rpc.replies with _ | _
  · simp only [deserializeAndExecute, hruns, hrep, if_true, if_false, Bool.false_eq_true,
      Option.pure_def]
    exact .of_some hs
  have hk : rpc.flags &&& 6 = FLAGS_CALL := by
    simp only [ExecuteRPC.replies, Bool.and_eq_true, decide_eq_true_eq] at hrep
    exact hrep.2
  obtain ⟨c, hc, hid⟩ := hcall hk
  have hframe : Yields (rpc.replyFrame C v) (Fits C v) fun bytes => rpc.replyFrame C v = some bytes := by
    refine ⟨fun bytes h => h, fun hfits => frame_of_le (encodeUint_append_ne_nil C _ _) ?_ _⟩
    rw [List.length_append, C.length_encodeUint]
    exact hfits
  simp only [deserializeAndExecute, hruns, hrep, if_true, Option.bind_eq_bind, Option.pure_def]
  refine hframe.bind fun bytes hbytes => .of_some (hs.trans (send_spec hs.own hs.about _ ?_))
  exact ⟨rpc.returnId, v, _, c, hc, hid, List.mem_append_right _ (List.mem_singleton_self _),
    kind_reply _, hbytes⟩

/-- The execution of a queued call. -/
theorem executeRPC_spec (ho : Own T a) (hab : About C a b) (i : ℕ) (v : V) :
    Yields (a.executeRPC C i v) (Fits C v) (Serves C T b a) := by
  rcases hx : a.rpcQueue[i]? with _ | ⟨n, rpc⟩
  · rw [executeRPC, hx]
    exact .of_some (Serves.refl ho hab)
  simp only [executeRPC, hx]
  have hperm := (List.getElem_cons_eraseIdx_perm (List.getElem?_eq_some_iff.mp hx).1).map Prod.fst
  rw [(List.getElem?_eq_some_iff.mp hx).2] at hperm
  have horig : a.origins.Perm (n :: ((a.rpcQueue.eraseIdx i).map Prod.fst ++ a.runs.map Prod.fst)) :=
    (hperm.append_right _).symm
  obtain ⟨hnew, hnd⟩ := List.nodup_cons.mp (horig.nodup_iff.mp ho.origins_nodup)
  have hg : Grows a { a with rpcQueue := a.rpcQueue.eraseIdx i } :=
    ⟨List.prefix_rfl, List.prefix_rfl, List.Subset.refl _⟩
  have hs : Serves C T b a { a with rpcQueue := a.rpcQueue.eraseIdx i } :=
    ⟨.of_eq (ho.of_origins rfl rfl rfl rfl hnd fun m hm => ho.origins_lt m
        (horig.mem_iff.mpr (List.mem_cons_of_mem _ hm)))
      (hab.grow hg (fun f hf => .inl hf) (fun m r hm => .inl (List.mem_of_mem_eraseIdx hm)) rfl rfl)
      rfl rfl rfl rfl rfl, rfl, rfl⟩
  have hcall := hab.rpcs n rpc (List.mem_of_getElem? hx)
  have hlt := ho.origins_lt n (horig.mem_iff.mpr List.mem_cons_self)
  exact (deserializeAndExecute_spec hs.own hs.about hcall hlt hnew v).mono id fun a' h => hs.trans h

/-- **`OnReceiveCall`** runs the handler of the call, or queues it. -/
theorem onReceiveCall_spec (ho : Own T a) (hab : About C a b) {n : ℕ} (hn : n < a.framesReceived)
    (hnew : n ∉ a.origins) {body : List UInt8} {flags : Flags}
    (hid : flags &&& 6 = FLAGS_CALL → ∃ c, b.CallAt n c ∧ b.ids[c]? = some (C.decodeUint body).1)
    (v : V) : Yields (a.onReceiveCall C E n body flags v) (Fits C v) (Serves C T b a) := by
  rcases hread : E.readCall C body flags with _ | rpc
  · rw [onReceiveCall, hread]
    exact .of_some (Serves.refl ho hab)
  have hcall : b.Called n rpc := by
    intro hk
    simp only [RPCEnvironment.readCall, Option.bind_eq_bind, Option.bind_eq_some_iff,
      Option.pure_def, Option.some.injEq] at hread
    obtain ⟨found, -, rfl⟩ := hread
    obtain ⟨c, hc, hcid⟩ := hid hk
    refine ⟨c, hc, hcid.trans ?_⟩
    rw [if_pos hk]
  rcases hq : rpc.messageConverter.executeGetQueue rpc.reader flags with _ | _
  · simp only [onReceiveCall, hread, hq, Bool.false_eq_true, if_false]
    exact deserializeAndExecute_spec ho hab hcall hn hnew v
  · simp only [onReceiveCall, hread, hq, if_true]
    have hg : Grows a { a with rpcQueue := a.rpcQueue ++ [(n, rpc)] } :=
      ⟨List.prefix_rfl, List.prefix_rfl, List.Subset.refl _⟩
    have hperm : ({ a with rpcQueue := a.rpcQueue ++ [(n, rpc)] } : Endpoint V).origins.Perm
        (n :: a.origins) := by
      simp only [origins, List.map_append, List.map_cons, List.map_nil, List.append_assoc]
      exact List.perm_middle
    refine .of_some ⟨.of_eq (ho.of_origin rfl rfl rfl rfl rfl hperm hn hnew)
      (hab.grow hg (fun f hf => .inl hf) (fun m r hm => ?_) rfl rfl) rfl rfl rfl rfl rfl, rfl, rfl⟩
    rcases List.mem_append.mp hm with hm | hm
    · exact .inl hm
    · obtain ⟨rfl, rfl⟩ := Prod.mk.inj (List.mem_singleton.mp hm)
      exact .inr hcall

/-! ### Calls -/

/-- As long as the ids have not wrapped, **the next id is the next number.** -/
theorem getNextValidReturnCallbackId_spec (ho : Own T a) (hlt : a.ids.length < 2 ^ 32 - 1) :
    ∃ id, a.getNextValidReturnCallbackId T = some id ∧ id.toNat = a.ids.length + 1 ∧
      ∀ cb, (id, cb) ∉ a.returningCallbacks.entries := by
  have hnum : (a.returnIdGen + 1).toNat = a.ids.length + 1 := by
    rw [UInt32.toNat_add, ho.gen, UInt32.toNat_one]
    omega
  have hnew : ∀ cb, (a.returnIdGen + 1, cb) ∉ a.returningCallbacks.entries := by
    intro cb hcb
    obtain ⟨c, -, hc⟩ := ho.pending _ cb hcb
    have hval := ho.ids c _ hc
    have hlen := (List.getElem?_eq_some_iff.mp hc).1
    omega
  refine ⟨a.returnIdGen + 1, ?_, hnum, hnew⟩
  have hz : (a.returnIdGen + 1 == 0) = false := by
    rw [beq_eq_false_iff_ne]
    intro h
    rw [h, UInt32.toNat_zero] at hnum
    omega
  simp only [getNextValidReturnCallbackId, nextIdLoop, FlatHashMap.has,
    FlatHashMap.get_of_not_mem ho.wf hnew, hz]
  rfl

/-- The callback of a new call waits under its id. -/
theorem Own.insert (ho : Own T a) {id : UInt32} (hid : id.toNat = a.ids.length + 1)
    {m : FlatHashMap UInt32 OnReturnCallback} (hw : m.WF T) (hsize : m.buckets.length < 2 ^ 31)
    {cb : OnReturnCallback} (hcb : cb.callback = some a.ids.length)
    (hm : m.entries = a.returningCallbacks.entries ++ [(id, cb)]) :
    Own T { a with returnIdGen := id, returningCallbacks := m, ids := a.ids ++ [id] } := by
  have hlast : (a.ids ++ [id])[a.ids.length]? = some id := by simp
  have hlen : m.buckets.length = a.returningCallbacks.buckets.length + 1 := by
    rw [← FlatHashMap.length_entries, hm, List.length_append, FlatHashMap.length_entries]
    rfl
  refine ⟨hw, hsize, by simpa [hlen] using ho.few, by simpa using hid, fun c id' hc => ?_,
    fun id' cb' hx => ?_, ho.done_nodup, fun c hc => ?_, fun c hc id' cb' hx => ?_, ho.origins_nodup,
    ho.origins_lt⟩
  · rcases Nat.lt_or_ge c a.ids.length with hlt | hge
    · exact ho.ids c id' (by rwa [← List.getElem?_append_left hlt])
    · have hc' := (List.getElem?_eq_some_iff.mp hc).1
      obtain rfl : c = a.ids.length := by
        rw [List.length_append, List.length_singleton] at hc'
        omega
      rw [← Option.some.inj (hlast.symm.trans hc), hid]
  · rcases List.mem_append.mp (hm ▸ hx) with hx | hx
    · obtain ⟨c, hc, hcid⟩ := ho.pending id' cb' hx
      exact ⟨c, hc, getElem?_mono (List.prefix_append _ _) hcid⟩
    · obtain ⟨rfl, rfl⟩ := Prod.mk.inj (List.mem_singleton.mp hx)
      exact ⟨a.ids.length, hcb, hlast⟩
  · have := ho.done_lt c hc
    simp only [List.length_append, List.length_singleton]
    omega
  · rcases List.mem_append.mp (hm ▸ hx) with hx | hx
    · exact ho.done_pending c hc id' cb' hx
    · obtain ⟨rfl, rfl⟩ := Prod.mk.inj (List.mem_singleton.mp hx)
      rw [hcb]
      intro heq
      exact (ho.done_lt c hc).ne (Option.some.inj heq).symm

/-- The other side sees one more call. -/
theorem insert_spec (ho : Own T a) (hab : About C a b) {id : UInt32} (hid : id.toNat = a.ids.length + 1)
    {m : FlatHashMap UInt32 OnReturnCallback} (hw : m.WF T) (hsize : m.buckets.length < 2 ^ 31)
    {cb : OnReturnCallback} (hcb : cb.callback = some a.ids.length)
    (hm : m.entries = a.returningCallbacks.entries ++ [(id, cb)]) :
    Advances C T b a { a with returnIdGen := id, returningCallbacks := m, ids := a.ids ++ [id] } := by
  have hg : Grows a { a with returnIdGen := id, returningCallbacks := m, ids := a.ids ++ [id] } :=
    ⟨List.prefix_append _ _, List.prefix_rfl, List.Subset.refl _⟩
  exact ⟨ho.insert hid hw hsize hcb hm,
    hab.grow hg (fun f hf => .inl hf) (fun n rpc h => .inl h) rfl rfl, hg, rfl, [], by simp, by simp⟩

/-- **`CommandCallSend::Execute`** sends the call with the id that its callback waits for. -/
theorem callSend_spec (ho : Own T a) (hab : About C a b) (hlt : a.ids.length < 2 ^ 32 - 1)
    (executionQueue : Bool) (timeoutTimePoint : ℕ) (payload : List UInt8) (flags : Flags) :
    Yields (a.callSend C T executionQueue timeoutTimePoint payload flags)
      (a.ids.length < 2 ^ 30 ∧ 4 + payload.length ≤ 2 ^ 28)
      fun a' => Advances C T b a a' ∧ a'.ids.length = a.ids.length + 1 ∧
        a'.framesReceived = a.framesReceived := by
  obtain ⟨id, hnext, hid, hnew⟩ := getNextValidReturnCallbackId_spec ho hlt
  set cb : OnReturnCallback := ⟨some a.ids.length, executionQueue, timeoutTimePoint⟩
  have hins : Yields (a.returningCallbacks.insertOrSet T id cb)
      (a.ids.length < 2 ^ 30 ∧ 4 + payload.length ≤ 2 ^ 28) fun m => m.WF T ∧
        m.entries = a.returningCallbacks.entries ++ [(id, cb)] ∧ m.buckets.length < 2 ^ 31 := by
    refine ⟨fun m h => FlatHashMap.insertOrSet_eq_some ho.wf hnew ho.size h, fun hfits => ?_⟩
    obtain ⟨m, hm, -⟩ := FlatHashMap.insertOrSet_of_not_mem ho.wf cb hnew
      (FlatHashMap.room_of_lt (ho.few.trans_lt hfits.1))
    exact ⟨m, hm⟩
  have hframe : Yields (frame (C.encodeUint id ++ payload) (flags ||| FLAGS_CALL))
      (a.ids.length < 2 ^ 30 ∧ 4 + payload.length ≤ 2 ^ 28) fun bytes =>
        frame (C.encodeUint id ++ payload) (flags ||| FLAGS_CALL) = some bytes := by
    refine ⟨fun bytes h => h, fun hfits => frame_of_le (encodeUint_append_ne_nil C _ _) ?_ _⟩
    rw [List.length_append, C.length_encodeUint]
    exact hfits.2
  simp only [callSend, hnext, patchId_callBuffer, Option.bind_eq_bind, Option.bind_some,
    Option.pure_def]
  refine hins.bind ?_
  rintro m ⟨hw, hm, hsize⟩
  refine hframe.bind fun bytes hbytes => .of_some ?_
  have hadv := insert_spec (b := b) ho hab hid hw hsize rfl hm
  have hs := send_spec hadv.own hadv.about (.call a.ids.length)
    ⟨id, payload, flags, by simp, hbytes⟩
  exact ⟨hadv.trans hs.toAdvances, by simp [send], rfl⟩

/-! ### Frames -/

/-- A frame that is passed on is a control sequence or goes to `OnReceive`. -/
theorem onPacket_of_carries {f body : List UInt8} {flags : Flags} (hc : Carries f body flags)
    (hb : body ≠ []) (v : V) :
    a.onPacket C E T (FrameDecoder.packetOf f) v =
      if flags &&& 6 = FLAGS_PROTOCOL_CONTROLL_SEQUENCE then
        some { a with framesReceived := a.framesReceived + 1 }
      else onReceive C E T { a with framesReceived := a.framesReceived + 1 } a.framesReceived body
        (FLAG_RELIABLE ||| (flags &&& 6)) v := by
  have hsize : f.length ≠ (FrameDecoder.packetOf f).headerSize := by
    have := List.length_pos_iff.mpr hb
    have := hc.size
    omega
  have hkind : (0 ||| (flags &&& 6)) &&& FLAGS_PROTOCOL_CONTROLL_SEQUENCE = flags &&& 6 :=
    kind_received (by decide) flags
  simp only [onPacket, hc.packet, hsize, if_false, hc.kind, hc.body, hkind, Option.bind_eq_bind,
    Option.bind_some, Option.pure_def]

/-- **A frame that arrives** starts the handler of its call or ends the call that it answers. -/
theorem onPacket_spec (ho : Own T a) (hab : About C a b) (hba : About C b a)
    (hT : ∀ cb v, cb.callback = none → T.assign cb v = v) {f : SentFrame}
    (hf : b.sent[a.framesReceived]? = some f) (v : V) :
    Yields (a.onPacket C E T (FrameDecoder.packetOf f.bytes) v) (Fits C v) fun a' =>
      Advances C T b a a' ∧ a'.ids = a.ids ∧ a'.framesReceived = a.framesReceived + 1 := by
  have hadv : Advances C T b a { a with framesReceived := a.framesReceived + 1 } :=
    .of_eq (ho.of_origins rfl rfl rfl rfl ho.origins_nodup fun n hn => (ho.origins_lt n hn).trans
      (Nat.lt_succ_self _)) ⟨hab.sent, hab.rpcs, hab.returned, hab.executed⟩ rfl rfl rfl rfl rfl
  have hlift : ∀ a', Serves C T b { a with framesReceived := a.framesReceived + 1 } a' →
      Advances C T b a a' ∧ a'.ids = a.ids ∧ a'.framesReceived = a.framesReceived + 1 :=
    fun a' h => ⟨hadv.trans h.toAdvances, h.same_ids, h.received⟩
  have hrel : FLAG_RELIABLE &&& 6 = 0 := by decide
  have hlegit := hba.sent f (List.mem_of_getElem? hf)
  obtain ⟨kind, bytes⟩ := f
  cases kind with
  | call c =>
    obtain ⟨id, payload, flags, hid, hframe⟩ := hlegit
    have hc := frame_carries (encodeUint_append_ne_nil C _ _) hframe
    rw [onPacket_of_carries hc (encodeUint_append_ne_nil C _ _)]
    rcases kind_call flags with hk | hk
    · rw [if_neg (by rw [hk]; decide), onReceive, kind_received hrel, if_pos (.inl hk)]
      refine (onReceiveCall_spec hadv.own hadv.about (Nat.lt_succ_self _)
        (fun h => lt_irrefl _ (ho.origins_lt _ h)) (fun _ => ⟨c, ?_, ?_⟩) v).mono (fun h => h) hlift
      · rw [CallAt, hf, Option.map_some]
      · rw [C.decodeUint_encodeUint, hid]
    · rw [if_pos hk]
      exact .of_some ⟨hadv, rfl, rfl⟩
  | reply n =>
    obtain ⟨id, w, flags, c, hn, hid, hw, hk, hframe⟩ := hlegit
    have hc := frame_carries (encodeUint_append_ne_nil C _ _) hframe
    rw [onPacket_of_carries hc (encodeUint_append_ne_nil C _ _), if_neg (by rw [hk]; decide),
      onReceive, kind_received hrel, if_neg (by rw [hk]; decide), if_pos hk]
    obtain ⟨a', ha', hs⟩ := onReceiveReturn_spec hadv.own hadv.about hT hn hid hw
    exact .of_exists ⟨a', ha', hlift a' hs⟩

end Endpoint
end ICon7
