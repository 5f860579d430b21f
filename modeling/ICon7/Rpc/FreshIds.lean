/-
# Return ids are fresh

`_InternalGetNextValidReturnCallbackId` (`src/Peer.cpp`) counts with a `uint32_t` that wraps and skips
`0` and the ids that are pending.  `ICon7.Rpc.Calls` follows it as long as it does not wrap.  Here it
may start anywhere: the loop is a search for a value that is not taken, and there is one as long as not
all ids are pending (`nextFreeId_of_card_lt`).

What waits in `returningCallbacks` is looked up, moved from and removed by whatever returns arrive and
whatever timeouts are checked (`ReturnOp`).  None of this makes two entries with one id, and the id of
a new call is never one that is pending (`return_ids_fresh`).
-/

import ICon7.Lib.Search
import ICon7.Rpc.Calls

namespace ICon7

open Framing Lib

namespace Endpoint

variable {V : Type} {C : Codec V} {T : MapTraits UInt32 OnReturnCallback}
  {m : FlatHashMap UInt32 OnReturnCallback} {e e' : Endpoint V}

/-! ### The loop as a search -/

/-- The loop for a set of pending ids. -/
def nextFreeId (pending : Finset UInt32) (fuel : ℕ) (returnIdGen : UInt32) : Option UInt32 :=
  firstFree (· + 1) (fun id => decide (id ∈ pending) || id == 0) fuel returnIdGen

/-- The ids that have an entry. -/
def pendingIds (m : FlatHashMap UInt32 OnReturnCallback) : Finset UInt32 := (m.entries.map Prod.fst).toFinset

theorem mem_pendingIds {id : UInt32} : id ∈ pendingIds m ↔ ∃ cb, (id, cb) ∈ m.entries := by
  simp [pendingIds]

theorem not_mem_pendingIds {id : UInt32} : id ∉ pendingIds m ↔ ∀ cb, (id, cb) ∉ m.entries := by
  rw [mem_pendingIds, not_exists]

theorem card_pendingIds (hw : m.WF T) : (pendingIds m).card = m.buckets.length := by
  rw [pendingIds, List.toFinset_card_of_nodup hw.nodup, List.length_map, FlatHashMap.length_entries]

/-- `Has` says whether an id is pending. -/
theorem has_eq (hw : m.WF T) (id : UInt32) : m.has T id = some (decide (id ∈ pendingIds m)) := by
  by_cases hmem : id ∈ pendingIds m
  · obtain ⟨cb, hcb⟩ := mem_pendingIds.1 hmem
    rw [FlatHashMap.has, FlatHashMap.get_of_mem hw hcb, decide_eq_true hmem]
    rfl
  · rw [FlatHashMap.has, FlatHashMap.get_of_not_mem hw (not_mem_pendingIds.1 hmem), decide_eq_false hmem]
    rfl

/-- **The loop of the code is the search.** -/
theorem nextIdLoop_eq (hw : m.WF T) (fuel : ℕ) (returnIdGen : UInt32) :
    nextIdLoop T m fuel returnIdGen = nextFreeId (pendingIds m) fuel returnIdGen := by
  induction fuel generalizing returnIdGen with
  | zero => rfl
  | succ fuel ih =>
    rw [nextIdLoop, has_eq hw, nextFreeId, firstFree]
    simp only [Option.bind_eq_bind, Option.bind_some]
    split_ifs
    · exact ih (returnIdGen + 1)
    · rfl

/-- The ids that are tried are counted from the last one. -/
theorem iterate_add_one (returnIdGen : UInt32) (n : ℕ) :
    (· + 1)^[n] returnIdGen = returnIdGen + UInt32.ofNat n := by
  induction n with
  | zero => simp
  | succ n ih =>
    rw [Function.iterate_succ_apply', ih, UInt32.add_assoc]
    congr 1
    apply UInt32.toNat_inj.mp
    simp

/-- **The loop ends with an id that is neither `0` nor pending**, wherever it starts, as long as not all
ids but `0` are pending. -/
theorem nextFreeId_of_card_lt {pending : Finset UInt32} (hcard : pending.card < 2 ^ 32 - 1)
    (returnIdGen : UInt32) :
    ∃ id, nextFreeId pending (pending.card + 2) returnIdGen = some id ∧ id ≠ 0 ∧ id ∉ pending := by
  have htaken : ∀ id, (decide (id ∈ pending) || id == 0) = true → id ∈ insert 0 pending := by
    intro id hid
    rw [Bool.or_eq_true, decide_eq_true_iff, beq_iff_eq] at hid
    exact Finset.mem_insert.2 hid.symm
  -- fewer than `2 ^ 32` steps do not meet an id twice
  have hinj : ∀ i j, i < pending.card + 2 → j < pending.card + 2 →
      (· + 1)^[i + 1] returnIdGen = (· + 1)^[j + 1] returnIdGen → i = j := by
    intro i j hi hj heq
    rw [iterate_add_one, iterate_add_one, UInt32.add_right_inj] at heq
    have hnat := congrArg UInt32.toNat heq
    rw [UInt32.toNat_ofNat', UInt32.toNat_ofNat'] at hnat
    omega
  have hlt : (insert 0 pending).card < pending.card + 2 := by
    have := Finset.card_insert_le 0 pending
    omega
  obtain ⟨id, hid, hfree⟩ := firstFree_of_card_lt htaken hinj hlt
  rw [Bool.or_eq_false_iff, decide_eq_false_iff_not, beq_eq_false_iff_ne] at hfree
  exact ⟨id, hid, hfree.2, hfree.1⟩

/-! ### Calls, returns and timeouts -/

/-- What happens to the pending calls of a peer: a call, a return frame with any body, and a timeout
check of any entry at any time. -/
inductive ReturnOp where
  | call (executionQueue : Bool) (timeoutTimePoint : ℕ) (payload : List UInt8) (flags : Flags)
  | receive (body : List UInt8)
  | timeout (random now : ℕ)

/-- One step. -/
def returnStep (C : Codec V) (T : MapTraits UInt32 OnReturnCallback) (e : Endpoint V) :
    ReturnOp → Option (Endpoint V)
  | .call executionQueue timeoutTimePoint payload flags =>
    e.callSend C T executionQueue timeoutTimePoint payload flags
  | .receive body => e.onReceiveReturn C T body
  | .timeout random now => e.checkForTimeoutFunctionCalls C T random now

/-- What the steps keep.  The map refuses to grow long before all ids are taken. -/
structure Fresh (T : MapTraits UInt32 OnReturnCallback) (m : FlatHashMap UInt32 OnReturnCallback) :
    Prop where
  wf : m.WF T
  size : m.buckets.length < 2 ^ 31
  zero : 0 ∉ pendingIds m

/-- A peer without calls, wherever it counts from. -/
theorem init_fresh (baseHash : UInt64) (returnIdGen : UInt32) :
    Fresh T ({ init baseHash with returnIdGen } : Endpoint V).returningCallbacks :=
  ⟨FlatHashMap.wf_empty (e := 4) le_rfl (by norm_num) baseHash, Nat.two_pow_pos 31, by
    simp [pendingIds, FlatHashMap.entries, init]⟩

/-- **The next id** is neither `0` nor pending. -/
theorem Fresh.next (h : Fresh T e.returningCallbacks) :
    ∃ id, e.getNextValidReturnCallbackId T = some id ∧ id ≠ 0 ∧ id ∉ pendingIds e.returningCallbacks := by
  have hcard := card_pendingIds h.wf
  have hlt : (pendingIds e.returningCallbacks).card < 2 ^ 32 - 1 := by
    have := h.size
    omega
  obtain ⟨id, hid, hne, hnot⟩ := nextFreeId_of_card_lt hlt e.returnIdGen
  rw [hcard, ← nextIdLoop_eq h.wf] at hid
  exact ⟨id, hid, hne, hnot⟩

/-- **`InsertOrSet` with the next id adds an entry**, if there is room for one more. -/
theorem Fresh.insert (h : Fresh T m) {id : UInt32} (hne : id ≠ 0) (hnot : id ∉ pendingIds m)
    (cb : OnReturnCallback) :
    (∀ m', m.insertOrSet T id cb = some m' → Fresh T m' ∧ m'.entries = m.entries ++ [(id, cb)]) ∧
      (m.Room → ∃ m', m.insertOrSet T id cb = some m') := by
  have hnew := not_mem_pendingIds.1 hnot
  constructor
  · intro m' hm'
    obtain ⟨hwf, hentries, hsize⟩ := FlatHashMap.insertOrSet_eq_some h.wf hnew h.size hm'
    refine ⟨⟨hwf, hsize, ?_⟩, hentries⟩
    have hzero := h.zero
    rw [not_mem_pendingIds] at hzero ⊢
    intro cb' hcb'
    rw [hentries, List.mem_append, List.mem_singleton] at hcb'
    rcases hcb' with hcb' | hcb'
    · exact hzero cb' hcb'
    · exact hne (Prod.mk.inj hcb').1.symm
  · intro hroom
    obtain ⟨m', hm', -⟩ := FlatHashMap.insertOrSet_of_not_mem h.wf cb hnew hroom
    exact ⟨m', hm'⟩

/-- Taking an entry out. -/
theorem Fresh.storeRemove (h : Fresh T m) (hT : ∀ cb v, cb.callback = none → T.assign cb v = v) {j : ℕ}
    {p : Pair UInt32 OnReturnCallback} (hp : m.buckets[j]? = some p) {v : OnReturnCallback}
    (hv : v.callback = none) {m' : FlatHashMap UInt32 OnReturnCallback}
    (hm' : (m.store j v).remove T p.key = some m') : Fresh T m' := by
  obtain ⟨m₁, hm₁, hwf, hle, hmem⟩ := FlatHashMap.store_remove_spec h.wf hp (fun u => hT v u hv)
  obtain rfl := Option.some.inj (hm'.symm.trans hm₁)
  refine ⟨hwf, hle.trans_lt h.size, ?_⟩
  have hzero := h.zero
  rw [not_mem_pendingIds] at hzero ⊢
  exact fun cb hcb => hzero cb ((hmem _).1 hcb).1

/-- What a call does to the pending entries. -/
theorem callSend_cases {executionQueue : Bool} {timeoutTimePoint : ℕ} {payload : List UInt8}
    {flags : Flags} (h : e.callSend C T executionQueue timeoutTimePoint payload flags = some e') :
    ∃ id, e.getNextValidReturnCallbackId T = some id ∧ e'.returnIdGen = id ∧
      e.returningCallbacks.insertOrSet T id ⟨some e.ids.length, executionQueue, timeoutTimePoint⟩ =
        some e'.returningCallbacks := by
  simp only [callSend, Option.bind_eq_bind, Option.bind_eq_some_iff] at h
  obtain ⟨id, hid, m, hm, bytes, -, he⟩ := h
  obtain rfl := Option.some.inj he
  exact ⟨id, hid, rfl, hm⟩

theorem Fresh.receive (h : Fresh T e.returningCallbacks)
    (hT : ∀ cb v, cb.callback = none → T.assign cb v = v) {body : List UInt8}
    (hstep : e.onReceiveReturn C T body = some e') : Fresh T e'.returningCallbacks := by
  unfold onReceiveReturn at hstep
  simp only at hstep
  by_cases hmem : ∃ cb, ((C.decodeUint body).1, cb) ∈ e.returningCallbacks.entries
  · obtain ⟨cb, hcb⟩ := hmem
    obtain ⟨j, p, hfind, hp, hkey, -⟩ := FlatHashMap.find_of_mem h.wf hcb
    simp only [hfind, hp, Option.bind_eq_bind, Option.bind_some, Option.bind_eq_some_iff] at hstep
    obtain ⟨m', hm', hfin⟩ := hstep
    rw [← hkey] at hm'
    rw [finishCallback_returningCallbacks hfin]
    exact h.storeRemove hT hp rfl hm'
  · have hfind := FlatHashMap.find_of_not_mem h.wf (not_exists.1 hmem)
    simp only [hfind, Option.bind_eq_bind, Option.bind_some] at hstep
    obtain rfl := Option.some.inj hstep
    exact h

theorem Fresh.timeout (h : Fresh T e.returningCallbacks)
    (hT : ∀ cb v, cb.callback = none → T.assign cb v = v) {random now : ℕ}
    (hstep : e.checkForTimeoutFunctionCalls C T random now = some e') : Fresh T e'.returningCallbacks := by
  unfold checkForTimeoutFunctionCalls at hstep
  split_ifs at hstep with hempty
  · obtain rfl := Option.some.inj hstep
    exact h
  · rw [Option.bind_eq_bind, Option.bind_eq_some_iff] at hstep
    obtain ⟨p, hp, hstep⟩ := hstep
    split_ifs at hstep with hexpired
    · simp only [Option.bind_eq_bind, Option.bind_eq_some_iff] at hstep
      obtain ⟨e₁, hfin, m', hm', he⟩ := hstep
      obtain rfl := Option.some.inj he
      rw [finishCallback_returningCallbacks hfin] at hm'
      exact h.storeRemove hT hp rfl hm'
    · obtain rfl := Option.some.inj hstep
      exact h

/-- **No step makes an id pending twice.** -/
theorem Fresh.step (h : Fresh T e.returningCallbacks)
    (hT : ∀ cb v, cb.callback = none → T.assign cb v = v) (op : ReturnOp)
    (hstep : returnStep C T e op = some e') : Fresh T e'.returningCallbacks := by
  cases op with
  | call executionQueue timeoutTimePoint payload flags =>
    obtain ⟨id, hid, -, hins⟩ := callSend_cases hstep
    obtain ⟨id', hid', hne, hnot⟩ := h.next
    obtain rfl := Option.some.inj (hid.symm.trans hid')
    exact ((h.insert hne hnot _).1 _ hins).1
  | receive body => exact h.receive hT hstep
  | timeout random now => exact h.timeout hT hstep

/-- **Return ids are always fresh.**  For every set of pending ids that leaves one free, the loop ends,
wherever it starts, with an id that is neither `0` nor pending; and the loop of the code is this loop for
the entries of the map.  After every run of calls, returns and timeouts the pending ids are distinct, and
the next call gets an id that is not among them, so that `InsertOrSet` adds an entry and leaves the others
as they are. -/
theorem return_ids_fresh (C : Codec V) (hash : UInt32 → UInt64 → UInt32) :
    (∀ (pending : Finset UInt32) (returnIdGen : UInt32), pending.card < 2 ^ 32 - 1 →
      ∃ id, nextFreeId pending (pending.card + 2) returnIdGen = some id ∧ id ≠ 0 ∧ id ∉ pending) ∧
    (∀ (m : FlatHashMap UInt32 OnReturnCallback) (fuel : ℕ) (returnIdGen : UInt32),
      m.WF (OnReturnCallback.traits hash) → nextIdLoop (OnReturnCallback.traits hash) m fuel returnIdGen =
        nextFreeId (pendingIds m) fuel returnIdGen) ∧
    ∀ (baseHash : UInt64) (returnIdGen : UInt32) (ops : List ReturnOp) (e : Endpoint V),
      ops.foldlM (returnStep C (OnReturnCallback.traits hash))
          { Endpoint.init baseHash with returnIdGen } = some e →
      (e.returningCallbacks.entries.map Prod.fst).Nodup ∧
      ∃ id, e.getNextValidReturnCallbackId (OnReturnCallback.traits hash) = some id ∧ id ≠ 0 ∧
        id ∉ e.returningCallbacks.entries.map Prod.fst ∧
        (∀ cb m, e.returningCallbacks.insertOrSet (OnReturnCallback.traits hash) id cb = some m →
          m.entries = e.returningCallbacks.entries ++ [(id, cb)]) ∧
        (∀ cb, e.returningCallbacks.Room →
          ∃ m, e.returningCallbacks.insertOrSet (OnReturnCallback.traits hash) id cb = some m) ∧
        ∀ executionQueue timeoutTimePoint payload flags (e' : Endpoint V),
          e.callSend C (OnReturnCallback.traits hash) executionQueue timeoutTimePoint payload flags =
              some e' →
            e'.returnIdGen = id ∧ e'.returningCallbacks.entries = e.returningCallbacks.entries ++
              [(id, ⟨some e.ids.length, executionQueue, timeoutTimePoint⟩)] := by
  refine ⟨fun pending returnIdGen hcard => nextFreeId_of_card_lt hcard returnIdGen,
    fun m fuel returnIdGen hw => nextIdLoop_eq hw fuel returnIdGen, fun baseHash returnIdGen ops e hrun => ?_⟩
  have hT := OnReturnCallback.traits_assign hash
  have hfresh : Fresh (OnReturnCallback.traits hash) e.returningCallbacks :=
    run_invariant (I := fun e : Endpoint V => Fresh (OnReturnCallback.traits hash) e.returningCallbacks)
      (fun e op e' h hstep => h.step hT op hstep) ops
      (init_fresh baseHash returnIdGen) hrun
  obtain ⟨id, hid, hne, hnot⟩ := hfresh.next
  have hadds := fun cb m hm => ((hfresh.insert hne hnot cb).1 m hm).2
  refine ⟨hfresh.wf.nodup, id, hid, hne, fun hmem => hnot (List.mem_toFinset.2 hmem), hadds,
    fun cb => (hfresh.insert hne hnot cb).2, ?_⟩
  intro executionQueue timeoutTimePoint payload flags e' hcall
  obtain ⟨id', hid', hgen, hins⟩ := callSend_cases hcall
  obtain rfl := Option.some.inj (hid.symm.trans hid')
  exact ⟨hgen, hadds _ _ hins⟩

end Endpoint
end ICon7
