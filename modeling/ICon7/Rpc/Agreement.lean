/-
# Calls and returns agree

The frames of each side arrive at the other in their order, whatever pieces the bytes
come in (`Streams`).  With what each side knows of the other (`Endpoint.About`) this is
kept by everything that can happen to a connection (`step_agrees`), and so holds along
every run in which the ids do not wrap.
-/

import ICon7.Framing.EndToEnd
import ICon7.Rpc.Calls

namespace ICon7

open Framing Lib

namespace Endpoint

variable {V : Type} {C : Codec V} {E : RPCEnvironment} {T : MapTraits UInt32 OnReturnCallback}
  {a a' b b' : Endpoint V} {held : List UInt8}

/-! ### The stream from one side to the other -/

/-- What `b` holds of an unfinished frame, and what is on its way, are the frames of `a` that
`b` has not received. -/
structure Streams (a b : Endpoint V) (held : List UInt8) : Prop where
  decoder : b.frameDecoder = FrameDecoder.ofHeld held
  unfinished : ∀ n, FrameDecoder.frameLen held = some n → held.length < n
  bytes : held ++ a.wire = ((a.sent.drop b.framesReceived).map SentFrame.bytes).flatten
  le : b.framesReceived ≤ a.sent.length

/-- Frames are sent behind the others. -/
theorem Streams.sends (h : Streams a b held) {fs : List SentFrame} (hsent : a'.sent = a.sent ++ fs)
    (hwire : a'.wire = a.wire ++ (fs.map SentFrame.bytes).flatten) : Streams a' b held := by
  refine ⟨h.decoder, h.unfinished, ?_, ?_⟩
  · rw [hwire, hsent, List.drop_append_of_le_length h.le, List.map_append, List.flatten_append,
      ← h.bytes, List.append_assoc]
  · rw [hsent, List.length_append]
    exact h.le.trans (Nat.le_add_right _ _)

/-- A side that receives nothing is as far as it was. -/
theorem Streams.stays (h : Streams a b held) (hdec : b'.frameDecoder = b.frameDecoder)
    (hrec : b'.framesReceived = b.framesReceived) : Streams a b' held :=
  ⟨hdec.trans h.decoder, h.unfinished, by rw [hrec]; exact h.bytes, by rw [hrec]; exact h.le⟩

/-- Every frame that is sent is a whole frame. -/
theorem Legit.frameLen {f : SentFrame} (h : Legit C a b f) :
    FrameDecoder.frameLen f.bytes = some f.bytes.length := by
  obtain ⟨kind, bytes⟩ := f
  cases kind with
  | call c =>
    obtain ⟨id, payload, flags, -, hf⟩ := h
    exact (frame_carries (encodeUint_append_ne_nil C _ _) hf).frameLen
  | reply n =>
    obtain ⟨id, v, flags, c, -, -, -, -, hf⟩ := h
    exact (frame_carries (encodeUint_append_ne_nil C _ _) hf).frameLen

/-- The frames that one piece of the stream completes, one after the other. -/
theorem onPackets_spec (ho : Own T a) (hab : About C a b) (hba : About C b a)
    (hT : ∀ cb v, cb.callback = none → T.assign cb v = v) (values : ℕ → V)
    {fs gs : List SentFrame} (hfs : b.sent.drop a.framesReceived = fs ++ gs) :
    Yields ((fs.map fun f => FrameDecoder.packetOf f.bytes).foldlM
        (fun e packet => e.onPacket C E T packet (values e.framesReceived)) a)
      (∀ i, Fits C (values i)) fun a' =>
        Advances C T b a a' ∧ a'.ids = a.ids ∧ a'.framesReceived = a.framesReceived + fs.length := by
  induction fs generalizing a with
  | nil => exact .of_some ⟨(Serves.refl ho hab).toAdvances, rfl, rfl⟩
  | cons f fs ih =>
    have hf : b.sent[a.framesReceived]? = some f := by
      rw [← Nat.add_zero a.framesReceived, ← List.getElem?_drop, hfs]
      rfl
    rw [List.map_cons, List.foldlM_cons]
    refine ((onPacket_spec ho hab hba hT hf _).mono (fun h => h _) fun a₁ h => h).bind ?_
    rintro a₁ ⟨hadv, hids, hrec⟩
    have hrest : b.sent.drop a₁.framesReceived = fs ++ gs := by
      rw [hrec, ← List.drop_drop, hfs]
      rfl
    refine (ih hadv.own hadv.about (hba.mono_right hadv.grows) hrest).mono (fun h => h) ?_
    rintro a' ⟨hadv', hids', hrec'⟩
    refine ⟨hadv.trans hadv', hids'.trans hids, ?_⟩
    rw [hrec', hrec, List.length_cons]
    omega

/-- A side whose wire has been read knows what it knew. -/
theorem About.of_wire (hab : About C a b) (wire : List UInt8) : About C { a with wire } b :=
  ⟨hab.sent, hab.rpcs, hab.returned, hab.executed⟩

/-- **What the decoder makes of a piece of the stream:** the next frames that were sent, and it holds what
is there of the frame behind them. -/
theorem Streams.pushData {rest : List UInt8} (hba : About C b a) (hst : Streams b a held)
    (chunk : Chunk) (hwire : b.wire = chunk.1 ++ rest) :
    ∃ held' fs gs, b.sent.drop a.framesReceived = fs ++ gs ∧
      a.frameDecoder.pushData chunk =
        some (FrameDecoder.ofHeld held', fs.map fun f => FrameDecoder.packetOf f.bytes) ∧
      (∀ n, FrameDecoder.frameLen held' = some n → held'.length < n) ∧
      held' ++ rest = (gs.map SentFrame.bytes).flatten := by
  have hframes : ∀ f ∈ (b.sent.drop a.framesReceived).map SentFrame.bytes,
      FrameDecoder.delimiter.len f = some f.length := by
    intro f hf
    obtain ⟨g, hg, rfl⟩ := List.mem_map.mp hf
    exact (hba.sent g (List.mem_of_mem_drop hg)).frameLen
  have hstream : (held ++ chunk.1) ++ rest =
      ((b.sent.drop a.framesReceived).map SentFrame.bytes).flatten := by
    rw [List.append_assoc, ← hwire, hst.bytes]
  obtain ⟨later, hsplit, hrest⟩ := Lib.Delimiter.parse_of_append_eq_frames hframes hstream
  obtain ⟨fs, gs, hdrop, hfs, rfl⟩ := List.map_eq_append_iff.mp hsplit
  refine ⟨(FrameDecoder.delimiter.parse (held ++ chunk.1)).2, fs, gs, hdrop, ?_,
    fun n hn => Lib.Delimiter.parse_rest_lt _ hn, hrest⟩
  rw [hst.decoder, FrameDecoder.pushData_eq_cut held chunk hst.unfinished, FrameDecoder.cut, ← hfs,
    List.map_map]
  rfl

/-- **`_InternalOnData`** receives the frames that the piece completes, and the stream goes on
behind them. -/
theorem onData_spec (ho : Own T a) (hab : About C a b) (hba : About C b a)
    (hT : ∀ cb v, cb.callback = none → T.assign cb v = v) (hst : Streams b a held) (chunk : Chunk)
    {rest : List UInt8} (hwire : b.wire = chunk.1 ++ rest) (values : ℕ → V) :
    Yields (a.onData C E T chunk values) (∀ i, Fits C (values i)) fun a' =>
      Own T a' ∧ About C a' b ∧ Grows a a' ∧ a'.ids = a.ids ∧
        (∃ fs, a'.sent = a.sent ++ fs ∧ a'.wire = a.wire ++ (fs.map SentFrame.bytes).flatten) ∧
        ∃ held', Streams { b with wire := rest } a' held' := by
  obtain ⟨held', fs, gs, hdrop, hpush, hunfinished, hrest⟩ := hst.pushData hba chunk hwire
  have ho' : Own T { a with frameDecoder := FrameDecoder.ofHeld held' } :=
    ho.of_origins rfl rfl rfl rfl ho.origins_nodup ho.origins_lt
  have hab' : About C { a with frameDecoder := FrameDecoder.ofHeld held' } b :=
    ⟨hab.sent, hab.rpcs, hab.returned, hab.executed⟩
  have hba' : About C b { a with frameDecoder := FrameDecoder.ofHeld held' } :=
    hba.mono_right ⟨List.prefix_rfl, List.prefix_rfl, List.Subset.refl _⟩
  simp only [onData, hpush, Option.bind_eq_bind, Option.bind_some]
  refine (onPackets_spec ho' hab' hba' hT values hdrop).mono (fun h => h) ?_
  rintro a' ⟨hadv, hids, hrec⟩
  refine ⟨hadv.own, hadv.about, ⟨hadv.grows.ids, hadv.grows.sent, hadv.grows.runs⟩, hids, hadv.frames,
    held', hadv.frameDecoder, hunfinished, ?_, ?_⟩
  · rw [hrec, ← List.drop_drop, hdrop, List.drop_left]
    exact hrest
  · rw [hrec]
    have hlen := congrArg List.length hdrop
    have hle := hst.le
    simp only [List.length_drop, List.length_append] at hlen ⊢
    omega

end Endpoint

namespace Connection

open Endpoint

variable {V : Type} {C : Codec V} {E : Bool → RPCEnvironment}
  {T : MapTraits UInt32 OnReturnCallback} {s s' : Connection V}

/-! ### What everything that happens keeps -/

/-- What one side knows of itself and of the other. -/
structure Knows (C : Codec V) (T : MapTraits UInt32 OnReturnCallback) (a b : Endpoint V) : Prop where
  own : Own T a
  about : About C a b
  streams : ∃ held, Streams a b held

/-- Both sides know. -/
def Agrees (C : Codec V) (T : MapTraits UInt32 OnReturnCallback) (s : Connection V) : Prop :=
  ∀ side, Knows C T (s side) (s !side)

theorem agrees_of (side : Bool) (h : Knows C T (s side) (s !side)) (h' : Knows C T (s !side) (s side)) :
    Agrees C T s := by
  intro side'
  obtain rfl | rfl : side' = side ∨ side' = !side := by cases side <;> cases side' <;> decide
  · exact h
  · rwa [Bool.not_not]

/-- One side goes on without receiving. -/
theorem Agrees.update (h : Agrees C T s) {side : Bool} {a' : Endpoint V}
    (hadv : Advances C T (s !side) (s side) a')
    (hrec : a'.framesReceived = (s side).framesReceived) :
    Agrees C T (Function.update s side a') := by
  have hne : (!side) ≠ side := by cases side <;> decide
  have hb := h (!side)
  rw [Bool.not_not] at hb
  obtain ⟨held, hst⟩ := (h side).streams
  obtain ⟨held', hst'⟩ := hb.streams
  obtain ⟨fs, hsent, hwire⟩ := hadv.frames
  apply agrees_of side <;> rw [Function.update_self, Function.update_of_ne hne]
  · exact ⟨hadv.own, hadv.about, held, hst.sends hsent hwire⟩
  · exact ⟨hb.own, hb.about.mono_right hadv.grows, held', hst'.stays hadv.frameDecoder hrec⟩

/-- **Bytes arrive.** -/
theorem Agrees.deliver (h : Agrees C T s) (hT : ∀ cb v, cb.callback = none → T.assign cb v = v)
    (side : Bool) (n : UInt32) (values : ℕ → V) :
    Yields (step C E T s (.deliver side n values)) (∀ i, Fits C (values i)) fun s' =>
      Agrees C T s' ∧ ∀ side', (s' side').ids = (s side').ids := by
  have hne : (!side) ≠ side := by cases side <;> decide
  have hb := h (!side)
  rw [Bool.not_not] at hb
  obtain ⟨held, hst⟩ := (h side).streams
  obtain ⟨held', hst'⟩ := hb.streams
  refine (onData_spec (h side).own (h side).about hb.about hT hst' (chunkOf (s !side).wire n)
    (List.take_append_drop n.toNat _).symm values).bind ?_
  rintro a' ⟨hown, habout, hgrows, hids, ⟨fs, hsent, hwire⟩, held₁, hst₁⟩
  refine .of_some ⟨?_, fun side' => ?_⟩
  · apply agrees_of side <;>
      rw [Function.update_self, Function.update_of_ne hne, Function.update_self]
    · exact ⟨hown, habout.mono_right ⟨List.prefix_rfl, List.prefix_rfl, List.Subset.refl _⟩, held,
        (hst.sends hsent hwire).stays rfl rfl⟩
    · exact ⟨hb.own.of_origins rfl rfl rfl rfl hb.own.origins_nodup hb.own.origins_lt,
        (hb.about.mono_right hgrows).of_wire _, held₁, hst₁⟩
  · obtain rfl | rfl : side' = side ∨ side' = !side := by cases side <;> cases side' <;> decide
    · rw [Function.update_self, hids]
    · rw [Function.update_of_ne hne, Function.update_self]

/-- The action fits: no frame that it makes is too long for a header. -/
def Op.Fits (C : Codec V) : Op V → Prop
  | .call _ _ _ payload _ => 4 + payload.length ≤ 2 ^ 28
  | .deliver _ _ values => ∀ i, Endpoint.Fits C (values i)
  | .executeRPC _ _ v => Endpoint.Fits C v
  | .executeCallback _ _ => True
  | .checkTimeout _ _ _ => True

/-- The calls that the action makes at the side. -/
def Op.calls (side : Bool) (op : Op V) : ℕ := if op.isCall side then 1 else 0

/-- One side goes on without calling or receiving. -/
theorem Agrees.serve (h : Agrees C T s) {side : Bool} {a' : Endpoint V}
    (hs : Serves C T (s !side) (s side) a') :
    Agrees C T (Function.update s side a') ∧
      ∀ side', (Function.update s side a' side').ids.length = (s side').ids.length + 0 := by
  refine ⟨h.update hs.toAdvances hs.received, fun side' => ?_⟩
  rcases eq_or_ne side' side with rfl | hne
  · rw [Function.update_self, hs.same_ids, Nat.add_zero]
  · rw [Function.update_of_ne hne, Nat.add_zero]

/-- **Everything that can happen keeps the agreement.** -/
theorem step_agrees (hT : ∀ cb v, cb.callback = none → T.assign cb v = v) (h : Agrees C T s) (op : Op V)
    (hlt : ∀ side, (s side).ids.length + op.calls side < 2 ^ 32 - 1) :
    Yields (step C E T s op) ((∀ side, (s side).ids.length + op.calls side ≤ 2 ^ 30) ∧ op.Fits C)
      fun s' => Agrees C T s' ∧ ∀ side, (s' side).ids.length = (s side).ids.length + op.calls side := by
  cases op with
  | call side executionQueue timeoutTimePoint payload flags =>
    have hone : Op.calls side (.call side executionQueue timeoutTimePoint payload flags : Op V) = 1 := by
      simp [Op.calls, Op.isCall]
    have hlt' := hlt side
    refine ((callSend_spec (h side).own (h side).about (by omega) executionQueue timeoutTimePoint
      payload flags).mono (fun hfits => ⟨?_, hfits.2⟩) fun a' ha' => ha').bind ?_
    · have := hfits.1 side
      omega
    · rintro a' ⟨hadv, hlen, hrec⟩
      refine .of_some ⟨h.update hadv hrec, fun side' => ?_⟩
      rcases eq_or_ne side' side with rfl | hne
      · rw [Function.update_self, hlen, hone]
      · rw [Function.update_of_ne hne]
        simp [Op.calls, Op.isCall, hne.symm]
  | deliver side n values =>
    refine (h.deliver hT side n values).mono (fun hfits => hfits.2) ?_
    rintro s' ⟨hs', hids⟩
    refine ⟨hs', fun side' => ?_⟩
    rw [hids]
    rfl
  | executeRPC side i v =>
    exact ((executeRPC_spec (h side).own (h side).about i v).mono (fun hfits => hfits.2)
      fun a' ha' => ha').bind fun a' hs => .of_some (h.serve hs)
  | executeCallback side i =>
    exact .of_some (h.serve (executeCallback_spec (h side).own (h side).about i))
  | checkTimeout side random now =>
    obtain ⟨a', ha', hs⟩ :=
      checkForTimeoutFunctionCalls_spec (h side).own (h side).about hT random now
    exact .of_exists ⟨_, by simp only [step, ha', Option.bind_eq_bind, Option.bind_some,
      Option.pure_def], h.serve hs⟩

/-! ### Runs -/

theorem init_agrees (baseHash : Bool → UInt64) : Agrees C T (init baseHash : Connection V) := by
  intro side
  refine ⟨⟨FlatHashMap.wf_empty (e := 4) (by decide) (by decide) _, by simp [init, Endpoint.init],
    by simp [init, Endpoint.init], rfl, ?_, ?_, ?_, ?_, ?_, ?_, ?_⟩, ⟨?_, ?_, ?_, ?_⟩, [], rfl,
    fun n hn => FrameDecoder.delimiter.len_pos hn, rfl, Nat.zero_le _⟩ <;>
    simp [init, Endpoint.init, done, origins, FlatHashMap.entries]

/-- **Every run keeps the agreement,** and comes to its end if its frames fit. -/
theorem run_agrees (hT : ∀ cb v, cb.callback = none → T.assign cb v = v) (ops : List (Op V))
    (h : Agrees C T s)
    (hlt : ∀ side, (s side).ids.length + ops.countP (Op.isCall side) < 2 ^ 32 - 1) :
    Yields (run C E T s ops)
      ((∀ side, (s side).ids.length + ops.countP (Op.isCall side) ≤ 2 ^ 30) ∧ ∀ op ∈ ops, op.Fits C)
      (Agrees C T) := by
  induction ops generalizing s with
  | nil => exact .of_some h
  | cons op ops ih =>
    have hcount : ∀ side, (op :: ops).countP (Op.isCall side) =
        op.calls side + ops.countP (Op.isCall side) := by
      intro side
      rw [List.countP_cons, Nat.add_comm, Op.calls]
    simp only [hcount, ← Nat.add_assoc] at hlt ⊢
    rw [run, List.foldlM_cons]
    refine ((step_agrees hT h op fun side => (Nat.le_add_right _ _).trans_lt (hlt side)).mono
      (fun hfits => ⟨fun side => (Nat.le_add_right _ _).trans (hfits.1 side),
        hfits.2 op List.mem_cons_self⟩) fun s₁ h₁ => h₁).bind ?_
    rintro s₁ ⟨h₁, hlen⟩
    refine (ih h₁ fun side => by rw [hlen]; exact hlt side).mono (fun hfits => ⟨fun side => ?_,
      fun op' hop' => hfits.2 op' (List.mem_cons_of_mem _ hop')⟩) fun s' hs' => hs'
    rw [hlen]
    exact hfits.1 side

/-- Calls of `a` and their returns. -/
structure ReturnsAgree (C : Codec V) (T : MapTraits UInt32 OnReturnCallback) (a b : Endpoint V) :
    Prop where
  /-- No callback is executed twice, as a return or as a timeout. -/
  once : (a.executed.map Executed.call).Nodup
  /-- No two calls have the same id. -/
  ids_nodup : a.ids.Nodup
  /-- No frame starts two handlers. -/
  runs_once : (b.runs.map Prod.fst).Nodup
  /-- A callback that is executed as a return gets the id with which its own call was sent, and
  the value of the handler that the frame of that call has started. -/
  returned : ∀ c id v, (⟨c, some (id, v)⟩ : Executed V) ∈ a.executed → a.ids[c]? = some id ∧
    ∃ n payload flags bytes, a.sent[n]? = some ⟨.call c, bytes⟩ ∧
      frame (C.encodeUint id ++ payload) (flags ||| FLAGS_CALL) = some bytes ∧ (n, v) ∈ b.runs
  /-- A return frame whose id is not pending changes nothing. -/
  late : ∀ body, (∀ cb, ((C.decodeUint body).1, cb) ∉ a.returningCallbacks.entries) →
    a.onReceiveReturn C T body = some a

theorem Knows.returnsAgree {a b : Endpoint V} (h : Knows C T a b) (h' : Knows C T b a) :
    ReturnsAgree C T a b := by
  refine ⟨(List.nodup_append.mp h.own.done_nodup).2.1, ?_, (List.nodup_append.mp
    h'.own.origins_nodup).2.1, fun c id v hm => ?_, fun body => onReceiveReturn_of_not_pending h.own⟩
  · refine List.nodup_iff_getElem?_ne_getElem?.mpr fun i j hij hj heq => ?_
    have hid := List.getElem?_eq_getElem hj
    exact hij.ne (h.own.ids_inj (heq.trans hid) hid)
  · obtain ⟨hid, n, hn, hv⟩ := h.about.executed c id v hm
    obtain ⟨⟨kind, bytes⟩, hf, rfl⟩ := Option.map_eq_some_iff.mp hn
    obtain ⟨id', payload, flags, hid', hframe⟩ := h.about.sent _ (List.mem_of_getElem? hf)
    obtain rfl := Option.some.inj (hid.symm.trans hid')
    exact ⟨hid, n, payload, flags, bytes, hf, hframe, hv⟩

/-- **Calls and returns agree.**  Along every run with fewer than `2 ^ 32 - 1` calls per side a
callback is executed at most once, with the value of its own call if it is executed as a
return, and a return frame whose id is not pending changes nothing.  A run with at most `2 ^ 30` calls
per side, which the map always has room for, stops only at a frame that is too long for a header. -/
theorem run_returnsAgree (C : Codec V) (E : Bool → RPCEnvironment) (hash : UInt32 → UInt64 → UInt32)
    (baseHash : Bool → UInt64) (ops : List (Op V))
    (hcalls : ∀ side, ops.countP (Op.isCall side) < 2 ^ 32 - 1) :
    (∀ s, run C E (OnReturnCallback.traits hash) (init baseHash) ops = some s →
      ∀ side, ReturnsAgree C (OnReturnCallback.traits hash) (s side) (s !side)) ∧
    ((∀ side, ops.countP (Op.isCall side) ≤ 2 ^ 30) → (∀ op ∈ ops, op.Fits C) →
      ∃ s, run C E (OnReturnCallback.traits hash) (init baseHash) ops = some s) := by
  have hT := OnReturnCallback.traits_assign hash
  have hzero : ∀ side, (init baseHash side : Endpoint V).ids.length = 0 := fun _ => rfl
  have hrun := run_agrees (E := E) hT ops (init_agrees (C := C) baseHash) fun side => by
    rw [hzero, Nat.zero_add]
    exact hcalls side
  refine ⟨fun s hs side => ?_, fun hfew hfits => hrun.2 ⟨fun side => ?_, hfits⟩⟩
  · have hother := hrun.1 s hs (!side)
    rw [Bool.not_not] at hother
    exact (hrun.1 s hs side).returnsAgree hother
  · rw [hzero, Nat.zero_add]
    exact hfew side

/-- A call that is answered, with bytes that arrive in pieces, and one that times out before
its answer arrives. -/
theorem run_returnsAgree_answer_and_timeout :
    let E : Bool → RPCEnvironment := fun _ => ⟨fun body => some (⟨fun _ _ => false, fun _ => true⟩, body)⟩
    let ops : List (Op UInt8) := [.call true false 10 [7] 0, .deliver false 3 fun _ => 0,
      .deliver false 9 fun _ => 42, .deliver true 9 fun _ => 0, .call true true 10 [8] 0,
      .deliver false 9 fun _ => 43, .checkTimeout true 0 11, .deliver true 9 fun _ => 0,
      .executeCallback true 0]
    let r := run .bytes E (OnReturnCallback.traits fun k _ => k) (init fun _ => 0) ops
    (r.map fun s => (s true).executed.map fun x => (x.call, x.outcome)) =
        some [(0, some (1, 42)), (1, none)] ∧
      ∀ s, r = some s →
        ∀ side, ReturnsAgree .bytes (OnReturnCallback.traits fun k _ => k) (s side) (s !side) := by
  intro E ops r
  exact ⟨by decide +kernel, (run_returnsAgree .bytes E _ _ ops (by decide)).1⟩

end Connection
end ICon7
