/-
# No call times out early

A call waits in `returningCallbacks` with the deadline that it was made with.  Nothing but the call
itself writes a deadline, and the map moves its pairs about without mixing them up, so that the
deadline a timeout check reads is that of the call whose callback it executes (`Timely`).  Of the
many things a side does only the timeout check executes a callback as timed out, and it
looks at the clock first (`Lapses`).

Over whole runs (`link_no_early_timeout`): a callback that is executed as timed out was checked
after the deadline of its own call had passed.
-/

import ICon7.Rpc.FreshIds
import ICon7.Rpc.Transport

namespace ICon7

open Framing Lib

/-- What concerns deadlines: a call is made with one, or a timeout check is made at a time. -/
inductive TimeNote where
  | called (timeoutTimePoint : ℕ)
  | checked (now : ℕ)
deriving DecidableEq, Repr

/-- The deadlines of the calls, in the order of the calls. -/
def TimeNote.deadlines (notes : List TimeNote) : List ℕ :=
  notes.filterMap fun
    | .called timeoutTimePoint => some timeoutTimePoint
    | .checked _ => none

/-- A check was made after the deadline of the call, and after the call. -/
def TimeNote.Overdue (notes : List TimeNote) (c : ℕ) : Prop :=
  ∃ (earlier : List TimeNote) (now : ℕ) (later : List TimeNote) (deadline : ℕ),
    notes = earlier ++ .checked now :: later ∧ (deadlines earlier)[c]? = some deadline ∧ deadline < now

theorem TimeNote.Overdue.append {notes : List TimeNote} {c : ℕ} (h : Overdue notes c)
    (more : List TimeNote) : Overdue (notes ++ more) c := by
  obtain ⟨earlier, now, later, deadline, rfl, hd, hlt⟩ := h
  exact ⟨earlier, now, later ++ more, deadline, by simp, hd, hlt⟩

namespace Endpoint

open TimeNote

variable {V : Type} {C : Codec V} {E : RPCEnvironment} {T : MapTraits UInt32 OnReturnCallback}
  {a a' a₁ : Endpoint V} {now : Option ℕ} {c : ℕ} {notes : List TimeNote}

/-- The callback of the call is queued or executed as timed out. -/
def TimedOut (e : Endpoint V) (c : ℕ) : Prop :=
  (⟨c, none⟩ : ReturnCommand) ∈ e.callbackQueue ∨ (⟨c, none⟩ : Executed V) ∈ e.executed

/-- **What a step other than a call does:** no new callback waits, and only a check at some time
executes callbacks as timed out, those whose deadline is earlier. -/
structure Lapses (T : MapTraits UInt32 OnReturnCallback) (now : Option ℕ) (a a' : Endpoint V) : Prop where
  fresh : Fresh T a'.returningCallbacks
  ids : a'.ids = a.ids
  entries : ∀ x ∈ a'.returningCallbacks.entries, x ∈ a.returningCallbacks.entries
  timedOut : ∀ c, a'.TimedOut c → a.TimedOut c ∨ ∃ t ∈ now, ∃ x ∈ a.returningCallbacks.entries,
    x.2.callback = some c ∧ x.2.timeoutTimePoint < t

/-- A step that leaves the callbacks alone. -/
theorem Lapses.of_eq (hf : Fresh T a.returningCallbacks) (hmap : a'.returningCallbacks = a.returningCallbacks)
    (hids : a'.ids = a.ids) (hq : a'.callbackQueue = a.callbackQueue) (hx : a'.executed = a.executed) :
    Lapses T now a a' :=
  ⟨hmap ▸ hf, hids, fun x h => hmap ▸ h, fun c h => .inl (by rwa [TimedOut, hq, hx] at h)⟩

theorem Lapses.refl (hf : Fresh T a.returningCallbacks) : Lapses T now a a := .of_eq hf rfl rfl rfl rfl

theorem Lapses.trans (h : Lapses T now a a₁) (h' : Lapses T now a₁ a') : Lapses T now a a' := by
  refine ⟨h'.fresh, h'.ids.trans h.ids, fun x hx => h.entries x (h'.entries x hx), fun c hc => ?_⟩
  rcases h'.timedOut c hc with hc | ⟨t, ht, x, hx, hcb⟩
  · exact h.timedOut c hc
  · exact .inr ⟨t, ht, x, h.entries x hx, hcb⟩

/-- What `OnReturnCallback::Execute` and `ExecuteTimeout` add. -/
theorem finishCallback_timedOut {cb : OnReturnCallback} {outcome : Option (UInt32 × List UInt8)}
    (h : a.finishCallback C cb outcome = some a') :
    a'.returningCallbacks = a.returningCallbacks ∧ a'.ids = a.ids ∧
      ∀ c, a'.TimedOut c → a.TimedOut c ∨ (outcome = none ∧ cb.callback = some c) := by
  obtain ⟨call, hcall, h⟩ := Option.bind_eq_some_iff.mp h
  split_ifs at h
  · obtain rfl := Option.some.inj h
    refine ⟨rfl, rfl, fun c hc => ?_⟩
    simp only [TimedOut, List.mem_append, List.mem_singleton, ReturnCommand.mk.injEq] at hc ⊢
    rcases hc with (hc | ⟨rfl, rfl⟩) | hc
    · exact .inl (.inl hc)
    · exact .inr ⟨rfl, hcall⟩
    · exact .inl (.inr hc)
  · obtain rfl := Option.some.inj h
    refine ⟨rfl, rfl, fun c hc => ?_⟩
    simp only [TimedOut, List.mem_append, List.mem_singleton, executeReturn, Executed.mk.injEq] at hc ⊢
    rcases hc with hc | hc | ⟨rfl, hnone⟩
    · exact .inl (.inl hc)
    · exact .inl (.inr hc)
    · exact .inr ⟨Option.map_eq_none_iff.mp hnone.symm, hcall⟩

/-- **`OnReceiveReturn`** executes a callback with a value. -/
theorem onReceiveReturn_lapses (hf : Fresh T a.returningCallbacks)
    (hT : ∀ cb v, cb.callback = none → T.assign cb v = v) {body : List UInt8}
    (h : a.onReceiveReturn C T body = some a') : Lapses T now a a' := by
  have hfresh := hf.receive hT h
  by_cases hpend : ∃ cb, ((C.decodeUint body).1, cb) ∈ a.returningCallbacks.entries
  · obtain ⟨cb, hcb⟩ := hpend
    obtain ⟨j, p, hfind, hp, hkey, rfl⟩ := FlatHashMap.find_of_mem hf.wf hcb
    obtain ⟨m, hrem, -, -, hm⟩ := FlatHashMap.store_remove_spec hf.wf hp fun u => hT p.v.movedFrom u rfl
    rw [hkey] at hrem
    simp only [onReceiveReturn, hfind, hp, hrem, Option.bind_eq_bind, Option.bind_some] at h
    obtain ⟨hmap, hids, hout⟩ := finishCallback_timedOut h
    refine ⟨hfresh, hids, fun x hx => ((hm x).mp (by rwa [hmap] at hx)).1, fun c hc => ?_⟩
    rcases hout c hc with hc | ⟨hnone, -⟩
    · exact .inl hc
    · cases hnone
  · simp only [onReceiveReturn, FlatHashMap.find_of_not_mem hf.wf (not_exists.mp hpend), Option.bind_eq_bind,
      Option.bind_some, Option.pure_def] at h
    obtain rfl := Option.some.inj h
    exact Lapses.refl hf

/-- **`CheckForTimeoutFunctionCalls`** looks at the deadline of the callback that it executes. -/
theorem checkForTimeoutFunctionCalls_lapses (hf : Fresh T a.returningCallbacks)
    (hT : ∀ cb v, cb.callback = none → T.assign cb v = v) {random t : ℕ}
    (h : a.checkForTimeoutFunctionCalls C T random t = some a') : Lapses T (some t) a a' := by
  have hfresh := hf.timeout hT h
  unfold checkForTimeoutFunctionCalls at h
  split_ifs at h with hempty
  · obtain rfl := Option.some.inj h
    exact Lapses.refl hf
  obtain ⟨p, hp, h⟩ := Option.bind_eq_some_iff.mp h
  have hmem : (p.key, p.v) ∈ a.returningCallbacks.entries :=
    List.mem_map.mpr ⟨p, List.mem_of_getElem? hp, rfl⟩
  by_cases hexp : p.v.isExpired t
  · simp only [hexp, if_true] at h
    obtain ⟨e, hfin, h⟩ := Option.bind_eq_some_iff.mp h
    obtain ⟨hmap, hids, hout⟩ := finishCallback_timedOut hfin
    obtain ⟨m, hrem, -, -, hm⟩ := FlatHashMap.store_remove_spec hf.wf hp fun u => hT p.v.emptied u rfl
    simp only [hmap, hrem, Option.bind_eq_bind, Option.bind_some, Option.pure_def] at h
    obtain rfl := Option.some.inj h
    refine ⟨hfresh, hids, fun x hx => ((hm x).mp hx).1, fun c hc => ?_⟩
    rcases hout c hc with hc | ⟨-, hc⟩
    · exact .inl hc
    · exact .inr ⟨t, rfl, _, hmem, hc, of_decide_eq_true hexp⟩
  · simp only [hexp, Bool.false_eq_true, if_false] at h
    obtain rfl := Option.some.inj h
    exact Lapses.refl hf

/-- **`DeserializeAndExecute`** does not touch the callbacks. -/
theorem deserializeAndExecute_lapses (hf : Fresh T a.returningCallbacks) {n : ℕ} {rpc : ExecuteRPC} {v : V}
    (h : a.deserializeAndExecute C n rpc v = some a') : Lapses T now a a' := by
  unfold deserializeAndExecute at h
  split_ifs at h
  · obtain ⟨bytes, -, h⟩ := Option.bind_eq_some_iff.mp h
    obtain rfl := Option.some.inj h
    exact .of_eq hf rfl rfl rfl rfl
  · obtain rfl := Option.some.inj h
    exact .of_eq hf rfl rfl rfl rfl
  · obtain rfl := Option.some.inj h
    exact Lapses.refl hf

theorem onReceiveCall_lapses (hf : Fresh T a.returningCallbacks) {n : ℕ} {body : List UInt8} {flags : Flags}
    {v : V} (h : a.onReceiveCall C E n body flags v = some a') : Lapses T now a a' := by
  unfold onReceiveCall at h
  split at h
  · obtain rfl := Option.some.inj h
    exact Lapses.refl hf
  · split_ifs at h
    · obtain rfl := Option.some.inj h
      exact .of_eq hf rfl rfl rfl rfl
    · exact deserializeAndExecute_lapses hf h

/-- **A frame that arrives,** whatever it is. -/
theorem onPacket_lapses (hf : Fresh T a.returningCallbacks)
    (hT : ∀ cb v, cb.callback = none → T.assign cb v = v) {packet : Packet} {v : V}
    (h : a.onPacket C E T packet v = some a') : Lapses T now a a' := by
  have hcount : Lapses T now a { a with framesReceived := a.framesReceived + 1 } :=
    .of_eq hf rfl rfl rfl rfl
  simp only [onPacket, Option.pure_def, Option.bind_eq_bind] at h
  split_ifs at h with hempty
  · obtain rfl := Option.some.inj h
    exact hcount
  obtain ⟨kind, -, h⟩ := Option.bind_eq_some_iff.mp h
  split_ifs at h with hcontrol
  · obtain rfl := Option.some.inj h
    exact hcount
  obtain ⟨flags, -, h⟩ := Option.bind_eq_some_iff.mp h
  refine hcount.trans ?_
  unfold onReceive at h
  split_ifs at h
  · exact onReceiveCall_lapses hf h
  · exact onReceiveReturn_lapses hf hT h
  · obtain rfl := Option.some.inj h
    exact Lapses.refl hf

/-- **Bytes that arrive.** -/
theorem onData_lapses (hf : Fresh T a.returningCallbacks)
    (hT : ∀ cb v, cb.callback = none → T.assign cb v = v) {chunk : Chunk} {values : ℕ → V}
    (h : a.onData C E T chunk values = some a') : Lapses T now a a' := by
  obtain ⟨⟨frameDecoder, packets⟩, -, h⟩ := Option.bind_eq_some_iff.mp h
  have hdecoded : Lapses T now a { a with frameDecoder } := .of_eq hf rfl rfl rfl rfl
  exact run_invariant (I := Lapses T now a)
    (fun e packet e' hI he => hI.trans (onPacket_lapses hI.fresh hT he)) packets hdecoded h

theorem executeRPC_lapses (hf : Fresh T a.returningCallbacks) {i : ℕ} {v : V}
    (h : a.executeRPC C i v = some a') : Lapses T now a a' := by
  unfold executeRPC at h
  split at h
  · obtain rfl := Option.some.inj h
    exact Lapses.refl hf
  · have hpop : Lapses T now a { a with rpcQueue := a.rpcQueue.eraseIdx i } := .of_eq hf rfl rfl rfl rfl
    exact hpop.trans (deserializeAndExecute_lapses hpop.fresh h)

/-- The execution of a queued callback: what was queued as timed out is executed so. -/
theorem executeCallback_lapses (hf : Fresh T a.returningCallbacks) (i : ℕ) :
    Lapses T now a (a.executeCallback C i) := by
  unfold executeCallback
  split
  · exact Lapses.refl hf
  · rename_i x hx
    refine ⟨hf, rfl, fun _ h => h, fun c hc => .inl ?_⟩
    simp only [TimedOut, List.mem_append, List.mem_singleton, executeReturn, Executed.mk.injEq] at hc ⊢
    rcases hc with hc | hc | ⟨rfl, hnone⟩
    · exact .inl (List.mem_of_mem_eraseIdx hc)
    · exact .inr hc
    · obtain ⟨call, outcome⟩ := x
      obtain rfl : outcome = none := Option.map_eq_none_iff.mp hnone.symm
      exact .inl (List.mem_of_getElem? hx)

/-! ### Deadlines along a run -/

/-- **What one side keeps:** the entries of `returningCallbacks` have distinct ids, every callback that
waits has the deadline of its call, and every callback that is timed out was overdue when it was
checked. -/
structure Timely (T : MapTraits UInt32 OnReturnCallback) (notes : List TimeNote) (e : Endpoint V) : Prop where
  fresh : Fresh T e.returningCallbacks
  length : (deadlines notes).length = e.ids.length
  entries : ∀ x ∈ e.returningCallbacks.entries, ∀ c, x.2.callback = some c →
    (deadlines notes)[c]? = some x.2.timeoutTimePoint
  timedOut : ∀ c, e.TimedOut c → Overdue notes c

/-- What is neither a call nor a timeout check leaves the notes as they are. -/
theorem Timely.lapses (h : Timely T notes a) (hl : Lapses T none a a') : Timely T notes a' := by
  refine ⟨hl.fresh, by rw [hl.ids, h.length], fun x hx => h.entries x (hl.entries x hx), fun c hc => ?_⟩
  rcases hl.timedOut c hc with hc | ⟨t, ht, -⟩
  · exact h.timedOut c hc
  · cases ht

/-- A timeout check notes its time.  What it times out waits with the deadline of its call, and the
check saw that this was earlier than its own time, so the new note makes the call overdue. -/
theorem Timely.checked (h : Timely T notes a) {t : ℕ} (hl : Lapses T (some t) a a') :
    Timely T (notes ++ [.checked t]) a' := by
  have hsame : deadlines (notes ++ [.checked t]) = deadlines notes := by simp [deadlines]
  refine ⟨hl.fresh, by rw [hsame, hl.ids, h.length], fun x hx => ?_, fun c hc => ?_⟩
  · rw [hsame]
    exact h.entries x (hl.entries x hx)
  · rcases hl.timedOut c hc with hc | ⟨t', ht, x, hx, hcb, hlt⟩
    · exact (h.timedOut c hc).append _
    · obtain rfl := Option.some.inj ht
      exact ⟨notes, t, [], _, rfl, h.entries x hx c hcb, hlt⟩

/-- **`CommandCallSend::Execute`** adds a callback with the deadline of the call, under an id that is
not pending, however often the ids have wrapped. -/
theorem Timely.callSend (h : Timely T notes a) {executionQueue : Bool} {timeoutTimePoint : ℕ}
    {payload : List UInt8} {flags : Flags}
    (hcall : a.callSend C T executionQueue timeoutTimePoint payload flags = some a') :
    Timely T (notes ++ [.called timeoutTimePoint]) a' := by
  obtain ⟨id, hnext, hne, hnew⟩ := h.fresh.next
  simp only [Endpoint.callSend, hnext, Option.bind_eq_bind, Option.bind_some, Option.bind_eq_some_iff,
    Option.pure_def, Option.some.injEq] at hcall
  obtain ⟨m, hins, bytes, -, rfl⟩ := hcall
  obtain ⟨hfresh, hm⟩ := (h.fresh.insert hne hnew _).1 m hins
  have hmore : deadlines (notes ++ [.called timeoutTimePoint]) = deadlines notes ++ [timeoutTimePoint] := by
    simp [deadlines]
  refine ⟨hfresh, by simp [hmore, h.length, send], fun x hx c hc => ?_, fun c hc => ?_⟩
  · rw [hmore]
    replace hx : x ∈ m.entries := hx
    rw [hm, List.mem_append, List.mem_singleton] at hx
    rcases hx with hx | rfl
    · exact getElem?_mono (List.prefix_append _ _) (h.entries x hx c hc)
    · obtain rfl := Option.some.inj hc
      rw [← h.length, List.getElem?_concat_length]
  · exact (h.timedOut c hc).append _

end Endpoint

namespace Connection

open Endpoint

variable {V : Type} {C : Codec V} {E : Bool → RPCEnvironment}
  {T : MapTraits UInt32 OnReturnCallback} {s s' : Connection V} {notes : Bool → List TimeNote}

/-- The deadline or the time in an action of the side. -/
def Op.note (side : Bool) : Op V → Option TimeNote
  | .call side' _ timeoutTimePoint _ _ => if side' = side then some (.called timeoutTimePoint) else none
  | .checkTimeout side' _ now => if side' = side then some (.checked now) else none
  | _ => none

/-- A side that does something; the other has the notes it had. -/
theorem timely_update (op : Op V) (h : ∀ side, Timely T (notes side) (s side)) {side : Bool}
    {a' : Endpoint V} (ha : Timely T (notes side ++ (op.note side).toList) a') (hother : op.note (!side) = none) :
    ∀ side', Timely T (notes side' ++ (op.note side').toList) (Function.update s side a' side') := by
  intro side'
  obtain rfl | rfl : side' = side ∨ side' = !side := by cases side <;> cases side' <;> decide
  · rw [Function.update_self]
    exact ha
  · have hne : (!side) ≠ side := by cases side <;> decide
    rw [Function.update_of_ne hne, hother, Option.toList_none, List.append_nil]
    exact h _

/-- **Everything that can happen keeps the deadlines.** -/
theorem step_timely (hT : ∀ cb v, cb.callback = none → T.assign cb v = v)
    (h : ∀ side, Timely T (notes side) (s side)) (op : Op V) (hstep : step C E T s op = some s') :
    ∀ side, Timely T (notes side ++ (op.note side).toList) (s' side) := by
  cases op with
  | call side executionQueue timeoutTimePoint payload flags =>
    obtain ⟨e, he, hs⟩ := Option.bind_eq_some_iff.mp hstep
    obtain rfl := Option.some.inj hs
    refine timely_update _ h ?_ (by simp [Op.note])
    simpa [Op.note] using (h side).callSend he
  | deliver side n values =>
    obtain ⟨e, he, hs⟩ := Option.bind_eq_some_iff.mp hstep
    obtain rfl := Option.some.inj hs
    -- the other side loses the bytes from its wire
    have hlost : Timely T (notes !side) { s (!side) with wire := (s !side).wire.drop n.toNat } :=
      (h !side).lapses (.of_eq (h !side).fresh rfl rfl rfl rfl)
    have hwire := timely_update (.deliver side n values) h (by simpa [Op.note] using hlost) rfl
    refine timely_update _ (fun side' => by simpa [Op.note] using hwire side') ?_ rfl
    simpa [Op.note] using (h side).lapses (onData_lapses (h side).fresh hT he)
  | executeRPC side i v =>
    obtain ⟨e, he, hs⟩ := Option.bind_eq_some_iff.mp hstep
    obtain rfl := Option.some.inj hs
    refine timely_update _ h ?_ rfl
    simpa [Op.note] using (h side).lapses (executeRPC_lapses (h side).fresh he)
  | executeCallback side i =>
    obtain rfl := Option.some.inj hstep
    refine timely_update _ h ?_ rfl
    simpa [Op.note] using (h side).lapses (executeCallback_lapses (h side).fresh i)
  | checkTimeout side random now =>
    obtain ⟨e, he, hs⟩ := Option.bind_eq_some_iff.mp hstep
    obtain rfl := Option.some.inj hs
    refine timely_update _ h ?_ (by simp [Op.note])
    simpa [Op.note] using (h side).checked (checkForTimeoutFunctionCalls_lapses (h side).fresh hT he)

/-- **Every run keeps the deadlines.** -/
theorem run_timely (hT : ∀ cb v, cb.callback = none → T.assign cb v = v) (ops : List (Op V))
    (h : ∀ side, Timely T (notes side) (s side)) (hrun : run C E T s ops = some s') :
    ∀ side, Timely T (notes side ++ ops.filterMap (Op.note side)) (s' side) := by
  induction ops generalizing s notes with
  | nil =>
    obtain rfl := Option.some.inj hrun
    simpa using h
  | cons op ops ih =>
    obtain ⟨s₁, hstep, hrun⟩ := foldlM_cons_eq_some.mp hrun
    have hrest := ih (step_timely hT h op hstep) hrun
    intro side
    have hside := hrest side
    rw [List.append_assoc] at hside
    cases hnote : op.note side with
    | none => simpa [List.filterMap_cons, hnote] using hside
    | some note => simpa [List.filterMap_cons, hnote] using hside

theorem init_timely (baseHash : Bool → UInt64) (side : Bool) :
    Timely T [] (init baseHash side : Endpoint V) := by
  refine ⟨init_fresh (baseHash side) 0, rfl, fun x hx => ?_, fun c hc => ?_⟩
  · simp [init, Endpoint.init, FlatHashMap.entries] at hx
  · simp [init, Endpoint.init, TimedOut] at hc

end Connection

namespace Link

open Endpoint

variable {V : Type}

/-- The deadline of a call of the side. -/
def Op.deadline (side : Bool) : Op V → Option ℕ
  | .act (.call side' _ timeoutTimePoint _ _) => if side' = side then some timeoutTimePoint else none
  | _ => none

/-- The deadline or the time in an action of the side. -/
def Op.note (side : Bool) (op : Op V) : Option TimeNote := op.action.bind (Connection.Op.note side)

theorem deadlines_note (side : Bool) (ops : List (Op V)) :
    TimeNote.deadlines (ops.filterMap (Op.note side)) = ops.filterMap (Op.deadline side) := by
  rw [TimeNote.deadlines, List.filterMap_filterMap]
  congr 1
  funext op
  cases op with
  | writable side' => rfl
  | act op =>
    cases op with
    | call side' _ t _ _ =>
      by_cases hs : side' = side <;> simp [Op.note, Op.action, Connection.Op.note, Op.deadline, hs]
    | checkTimeout side' _ t =>
      by_cases hs : side' = side <;> simp [Op.note, Op.action, Connection.Op.note, Op.deadline, hs]
    | _ => rfl

/-- The note of a check is that of a check. -/
theorem op_of_note {side : Bool} {op : Op V} {now : ℕ} (h : op.note side = some (.checked now)) :
    ∃ random, op = .act (.checkTimeout side random now) := by
  cases op with
  | writable side' => cases h
  | act op =>
    cases op with
    | call side' _ t _ _ =>
      by_cases hs : side' = side <;> simp [Op.note, Op.action, Connection.Op.note, hs] at h
    | checkTimeout side' random t =>
      by_cases hs : side' = side
      · simp only [Op.note, Op.action, Connection.Op.note, hs, Option.bind_some, if_true,
          Option.some.injEq, TimeNote.checked.injEq] at h
        exact ⟨random, by rw [hs, h]⟩
      · simp [Op.note, Op.action, Connection.Op.note, hs] at h
    | _ => cases h

/-- **No call times out early.**  Two peers call each other over tcp as they like, with any deadlines,
and check for timeouts whenever they like.  If the callback of the `c`-th call of a side is queued
or executed as timed out, then the side had made that call, and after it a timeout check at a time
later than the deadline given to that very call.  The number of calls plays no part. -/
theorem link_no_early_timeout (C : Codec V) (E : Bool → RPCEnvironment) (hash : UInt32 → UInt64 → UInt32)
    (baseHash : Bool → UInt64) (socket : Bool → UsSocket) (capacity : Bool → ℕ)
    (hsock : ∀ side, (socket side).accepted = []) (hcap : ∀ side, 0 < capacity side)
    (ops : List (Op V)) (s : Link V)
    (hrun : run C E (OnReturnCallback.traits hash) (init baseHash socket capacity) ops = some s)
    (side : Bool) (c : ℕ) (hc : (s side).rpc.TimedOut c) :
    ∃ (earlier later : List (Op V)) (random now deadline : ℕ),
      ops = earlier ++ .act (.checkTimeout side random now) :: later ∧
      (earlier.filterMap (Op.deadline side))[c]? = some deadline ∧ deadline < now := by
  obtain ⟨-, cops, hrefines, heq⟩ := run_refines (C := C) (E := E) (T := OnReturnCallback.traits hash) ops
    (init_sound (V := V) baseHash hsock hcap)
  rw [view_init baseHash capacity hsock, hrun] at heq
  have htimely := Connection.run_timely (OnReturnCallback.traits_assign hash) cops
    (Connection.init_timely baseHash) heq.symm side
  obtain ⟨earlier, now, later, deadline, hnotes, hd, hlt⟩ := htimely.timedOut c hc
  have hsame : cops.filterMap (Connection.Op.note side) = ops.filterMap (Op.note side) := by
    rw [hrefines.filterMap fun op => by cases op <;> rfl, List.filterMap_filterMap]
    rfl
  rw [List.nil_append, hsame] at hnotes
  obtain ⟨ops₁, rest, rfl, rfl, hrest⟩ := List.filterMap_eq_append_iff.mp hnotes
  obtain ⟨ops₂, op, ops₃, rfl, hnone, hop, -⟩ := List.filterMap_eq_cons_iff.mp hrest
  obtain ⟨random, rfl⟩ := op_of_note hop
  refine ⟨ops₁ ++ ops₂, ops₃, random, now, deadline, by simp, ?_, hlt⟩
  rw [deadlines_note] at hd
  rw [List.filterMap_append]
  exact Endpoint.getElem?_mono (List.prefix_append _ _) hd

/-- Two calls, the second with the earlier deadline, and a check between the deadlines. -/
def twoDeadlines : List (Op UInt8) :=
  [.act (.call true false 10 [7] 0), .act (.call true false 5 [8] 0), .act (.checkTimeout true 1 7)]

theorem link_no_early_timeout_second :
    ∃ s : Link UInt8, run .bytes (fun _ => ⟨fun _ => none⟩) (OnReturnCallback.traits fun k _ => k)
        (init (fun _ => 0) (fun _ => Loop.creepingSocket) fun _ => 4) twoDeadlines = some s ∧
      (s true).rpc.TimedOut 1 ∧ ∃ (earlier later : List (Op UInt8)) (random now deadline : ℕ),
        twoDeadlines = earlier ++ .act (.checkTimeout true random now) :: later ∧
        (earlier.filterMap (Op.deadline true))[1]? = some deadline ∧ deadline < now := by
  have hend : ((run .bytes (fun _ => ⟨fun _ => none⟩) (OnReturnCallback.traits fun k _ => k)
      (init (fun _ => 0) (fun _ => Loop.creepingSocket) fun _ => 4) twoDeadlines).any fun s =>
        (s true).rpc.executed.any fun x => x.call == 1 && x.outcome.isNone) = true := by
    decide +kernel
  obtain ⟨s, hs, hend⟩ := (Option.any_eq_true _ _).mp hend
  obtain ⟨⟨call, outcome⟩, hx, hcall⟩ := List.any_eq_true.mp hend
  simp only [Bool.and_eq_true, beq_iff_eq, Option.isNone_iff_eq_none] at hcall
  obtain ⟨rfl, rfl⟩ := hcall
  exact ⟨s, hs, .inr hx, link_no_early_timeout .bytes _ _ _ _ _ (fun _ => rfl) (by decide) twoDeadlines
    s hs true 1 (.inr hx)⟩

end Link
end ICon7
