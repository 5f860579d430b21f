/-
# Answers to peers that are gone

A call that is received may wait in an execution queue (`RPCEnvironment::OnReceiveCall`)
until `ExecuteRPC::Execute` runs its handler and `MessageReturnExecutor::Execute` sends
the value back, to the peer that `peer.GetLocalPeerData()` finds.  The peer may have
been closed in between, by itself or by the handler, and the result is not checked:
the answer dereferences a null pointer (`answer_of_not_safe`) unless the handle is
still held.  Hence a run of receiving, closing and executing, in any order, is safe if
and only if no call that wants an answer is executed for a peer that is gone
(`run_answers_iff`).

A closed peer is one whose handle is released, as `_Internal_on_close_Finish` does.
-/

import ICon7.Peer.Generations
import ICon7.Rpc.Message

namespace ICon7

open Framing PeerManager Lib

/-- An `ExecuteRPC` with the handle of its peer. -/
structure QueuedRPC where
  peer : PeerHandle
  rpc : ExecuteRPC

/-- The peers of a loop, the calls that wait for their execution, and the answers. -/
structure RpcServer where
  peers : History ℕ
  peerCount : ℕ := 0
  queue : List QueuedRPC := []
  sent : List (ℕ × List UInt8) := []

namespace RpcServer

def init (loop : ℕ) : RpcServer := { peers := .init loop }

/-- `Alloc` of a new peer. -/
def openPeer (s : RpcServer) : Option RpcServer := do
  let peers ← s.peers.step (.alloc s.peerCount)
  return { s with peers, peerCount := s.peerCount + 1 }

/-- `_Internal_on_close_Finish`, of a peer that has been opened. -/
def closePeer (s : RpcServer) (p : ℕ) : Option RpcServer :=
  if p < s.peerCount then do
    match ← s.peers.manager.getLocalPeerData (s.peers.peerHandle p) with
    | none => return s
    | some _ => return { s with peers := ← s.peers.step (.release (s.peers.peerHandle p)) }
  else some s

section Calls

variable {V : Type} (C : Codec V) (E : RPCEnvironment)

/-- `DeserializeAndExecute`, with the value of the handler and the peers that it closes.  The
null pointer that `GetLocalPeerData` may return is dereferenced. -/
def answer (s : RpcServer) (x : QueuedRPC) (v : V) (handler : List ℕ) : Option RpcServer :=
  if x.rpc.runs then do
    let s ← handler.foldlM closePeer s
    if x.rpc.replies then
      let frame ← x.rpc.replyFrame C v
      let peer ← s.peers.manager.getLocalPeerData x.peer
      let p ← peer
      return { s with sent := s.sent ++ [(p, frame)] }
    else return s
  else some s

/-- `OnReceiveCall` of a frame that a live peer has received. -/
def onReceiveCall (s : RpcServer) (p : ℕ) (body : List UInt8) (flags : Flags) (v : V)
    (handler : List ℕ) : Option RpcServer :=
  if p < s.peerCount then do
    let h := s.peers.peerHandle p
    match ← s.peers.manager.getLocalPeerData h with
    | none => return s
    | some _ =>
      match E.readCall C body flags with
      | none => return s
      | some rpc =>
        if rpc.messageConverter.executeGetQueue rpc.reader flags then
          return { s with queue := s.queue ++ [⟨h, rpc⟩] }
        else s.answer C ⟨h, rpc⟩ v handler
  else some s

/-- `ExecuteRPC::Execute` of the `i`-th call in the queue. -/
def execute (s : RpcServer) (i : ℕ) (v : V) (handler : List ℕ) : Option RpcServer :=
  match s.queue[i]? with
  | none => some s
  | some x => { s with queue := s.queue.eraseIdx i }.answer C x v handler

/-- What can happen, in any order. -/
inductive Op (V : Type) where
  | openPeer
  | closePeer (p : ℕ)
  | receive (p : ℕ) (body : List UInt8) (flags : Flags) (v : V) (handler : List ℕ)
  | execute (i : ℕ) (v : V) (handler : List ℕ)

def step (s : RpcServer) : Op V → Option RpcServer
  | .openPeer => s.openPeer
  | .closePeer p => s.closePeer p
  | .receive p body flags v handler => s.onReceiveCall C E p body flags v handler
  | .execute i v handler => s.execute C i v handler

def run (s : RpcServer) (ops : List (Op V)) : Option RpcServer := ops.foldlM (step C E) s

end Calls

/-! ### What holds along every run -/

/-- The handles of the peers and of the queue are handles of the loop. -/
structure Inv (loop : ℕ) (s : RpcServer) : Prop where
  peers : s.peers.Inv
  loop_eq : s.peers.manager.loop = loop
  handle : ∀ p < s.peerCount, (s.peers.peerHandle p).loop = some loop
  unborn : ∀ p, s.peerCount ≤ p → s.peers.peerHandle p = {}
  queue : ∀ x ∈ s.queue, x.peer.loop = some loop

variable {V : Type} {C : Codec V} {E : RPCEnvironment} {s t : RpcServer} {loop : ℕ} {x : QueuedRPC}

theorem init_inv (loop : ℕ) : (init loop).Inv loop :=
  ⟨(PeerManager.init_inv loop).1, rfl, fun p hp => absurd hp (Nat.not_lt_zero p), fun _ _ => rfl,
    fun _ hx => absurd hx List.not_mem_nil⟩

/-- What a handle of the loop resolves to is the peer that holds it. -/
theorem Inv.getLocalPeerData (hs : s.Inv loop) {h : PeerHandle} (hl : h.loop = some loop) :
    (∃ p, s.peers.manager.getLocalPeerData h = some (some p) ∧ Held s.peers.log h p) ∨
      (s.peers.manager.getLocalPeerData h = some none ∧ ∀ p, ¬Held s.peers.log h p) := by
  by_cases hheld : ∃ p, Held s.peers.log h p
  · obtain ⟨p, hp⟩ := hheld
    exact .inl ⟨p, getLocalPeerData_of_live hs.peers.wf ((hs.peers.live_iff h p).mpr hp), hp⟩
  · have hno := not_exists.mp hheld
    exact .inr ⟨getLocalPeerData_of_stale hs.peers.wf (by rw [hl, hs.loop_eq]) fun p hp =>
      hno p ((hs.peers.live_iff h p).mp hp), hno⟩

theorem openPeer_spec (hs : s.Inv loop) : ∃ t, s.openPeer = some t ∧ t.Inv loop := by
  have hnew : (s.peers.peerHandle s.peerCount).toBool = false := by
    rw [hs.unborn _ le_rfl]
    rfl
  obtain ⟨m, h, hal, -, hf⟩ := alloc_spec hs.peers.wf s.peerCount hnew
  have hstep : s.peers.step (.alloc s.peerCount) =
      some ⟨m, Function.update s.peers.peerHandle s.peerCount h,
        s.peers.log ++ [.allocated s.peerCount h]⟩ := by
    simp only [History.step, hal, Option.bind_eq_bind, Option.bind_some, Option.pure_def]
  refine ⟨{ s with
      peers := ⟨m, Function.update s.peers.peerHandle s.peerCount h,
        s.peers.log ++ [.allocated s.peerCount h]⟩
      peerCount := s.peerCount + 1 },
    by simp only [openPeer, hstep, Option.bind_eq_bind, Option.bind_some, Option.pure_def],
    step_inv hs.peers hstep, hf.loop.trans hs.loop_eq, fun p hp => ?_, fun p hp => ?_, hs.queue⟩
  · rcases eq_or_ne p s.peerCount with rfl | hne
    · simp only [Function.update_self, hf.handle_loop, hs.loop_eq]
    · have hlt : p < s.peerCount := lt_of_le_of_ne (Nat.lt_succ_iff.mp hp) hne
      simp only [Function.update_of_ne hne, hs.handle p hlt]
  · have hne : p ≠ s.peerCount := by
      simp only at hp
      omega
    simp only [Function.update_of_ne hne, hs.unborn p (le_trans (Nat.le_succ _) hp)]

theorem closePeer_spec (hs : s.Inv loop) (p : ℕ) :
    ∃ t, s.closePeer p = some t ∧ t.Inv loop := by
  by_cases hp : p < s.peerCount
  · have hl := hs.handle p hp
    rcases hs.getLocalPeerData hl with ⟨q, hget, hq⟩ | ⟨hget, -⟩
    · obtain ⟨m, hrel, -, hf, -⟩ :=
        release_of_live hs.peers.wf ((hs.peers.live_iff _ q).mpr hq)
      have hstep : s.peers.step (.release (s.peers.peerHandle p)) =
          some ⟨m, s.peers.peerHandle,
            s.peers.log ++ [.released (s.peers.peerHandle p) (some q)]⟩ := by
        simp only [History.step, hrel, Option.bind_eq_bind, Option.bind_some, Option.pure_def]
      refine ⟨{ s with peers := ⟨m, s.peers.peerHandle,
          s.peers.log ++ [.released (s.peers.peerHandle p) (some q)]⟩ }, ?_, step_inv hs.peers hstep,
        hf.loop.trans hs.loop_eq, hs.handle, hs.unborn, hs.queue⟩
      simp only [closePeer, if_pos hp, hget, hstep, Option.bind_eq_bind, Option.bind_some,
        Option.pure_def]
    · exact ⟨s, by simp [closePeer, hp, hget], hs⟩
  · exact ⟨s, if_neg hp, hs⟩

/-- Closing some peers. -/
theorem closePeers_spec (hs : s.Inv loop) (ps : List ℕ) :
    ∃ t, ps.foldlM closePeer s = some t ∧ t.Inv loop := by
  have hok : ∀ p ∈ ps, (fun _ : ℕ => True) p := fun _ _ => trivial
  exact run_total (fun _ p hs _ => closePeer_spec hs p) ps hs hok

/-! ### Answers -/

/-- If the call is answered, its answer fits into a frame and its peer is not gone when the
handler returns. -/
def Answerable (C : Codec V) (s : RpcServer) (x : QueuedRPC) (v : V) (handler : List ℕ) : Prop :=
  x.rpc.runs = true → x.rpc.replies = true → (C.encode v).length + 4 ≤ 2 ^ 28 ∧
    ∀ t, handler.foldlM closePeer s = some t → ∃ p, Held t.peers.log x.peer p

/-- The frame of an answer. -/
theorem replyFrame_isSome_iff (rpc : ExecuteRPC) (v : V) :
    (rpc.replyFrame C v).isSome ↔ (C.encode v).length + 4 ≤ 2 ^ 28 := by
  have hne := encodeUint_append_ne_nil C rpc.returnId (C.encode v)
  have hlen : (C.encodeUint rpc.returnId ++ C.encode v).length = (C.encode v).length + 4 := by
    rw [List.length_append, C.length_encodeUint, Nat.add_comm]
  rw [← hlen]
  refine ⟨fun h => ?_, fun h => ?_⟩
  · obtain ⟨f, hf⟩ := Option.isSome_iff_exists.mp h
    exact frame_length_le hf
  · obtain ⟨f, hf⟩ := frame_of_le hne h (((rpc.flags ||| 6) ^^^ 6) ||| FLAGS_CALL_RETURN_FEEDBACK)
    rw [ExecuteRPC.replyFrame, hf]
    rfl

theorem answer_of_safe (hs : s.Inv loop) {v : V} {handler : List ℕ}
    (hsafe : s.Answerable C x v handler) : ∃ t, s.answer C x v handler = some t ∧ t.Inv loop := by
  rcases hruns : x.rpc.runs with _ | _
  · exact ⟨s, by simp [answer, hruns], hs⟩
  obtain ⟨t, hclose, ht⟩ := closePeers_spec hs handler
  rcases hrep : x.rpc.replies with _ | _
  · exact ⟨t, by simp [answer, hruns, hclose, hrep], ht⟩
  obtain ⟨hfits, hheld⟩ := hsafe hruns hrep
  obtain ⟨f, hf⟩ := Option.isSome_iff_exists.mp ((replyFrame_isSome_iff x.rpc v).mpr hfits)
  obtain ⟨p, hp⟩ := hheld t hclose
  have hget := getLocalPeerData_of_live ht.peers.wf ((ht.peers.live_iff _ p).mpr hp)
  exact ⟨{ t with sent := t.sent ++ [(p, f)] }, by simp [answer, hruns, hclose, hrep, hf, hget],
    ht.peers, ht.loop_eq, ht.handle, ht.unborn, ht.queue⟩

/-- **An answer to a peer that is gone** dereferences a null pointer. -/
theorem answer_of_not_safe (hs : s.Inv loop) (hx : x.peer.loop = some loop) {v : V} {handler : List ℕ}
    (hno : ¬s.Answerable C x v handler) : s.answer C x v handler = none := by
  simp only [Answerable, not_forall] at hno
  obtain ⟨hruns, hrep, hno⟩ := hno
  obtain ⟨t, hclose, ht⟩ := closePeers_spec hs handler
  rcases hf : x.rpc.replyFrame C v with _ | f
  · simp [answer, hruns, hclose, hrep, hf]
  · have hfits := (replyFrame_isSome_iff x.rpc v).mp (by rw [hf]; rfl)
    rcases ht.getLocalPeerData hx with ⟨p, -, hp⟩ | ⟨hget, -⟩
    · refine absurd ⟨hfits, fun t' ht' => ?_⟩ hno
      obtain rfl := Option.some.inj (hclose.symm.trans ht')
      exact ⟨p, hp⟩
    · simp [answer, hruns, hclose, hrep, hf, hget]

/-! ### Runs -/

/-- Every call that the step executes is answerable. -/
def Safe (C : Codec V) (E : RPCEnvironment) (s : RpcServer) : Op V → Prop
  | .receive p body flags v handler => p < s.peerCount →
      (∃ q, Held s.peers.log (s.peers.peerHandle p) q) → ∀ rpc, E.readCall C body flags = some rpc →
        rpc.messageConverter.executeGetQueue rpc.reader flags = false →
        s.Answerable C ⟨s.peers.peerHandle p, rpc⟩ v handler
  | .execute i v handler => ∀ x, s.queue[i]? = some x →
      { s with queue := s.queue.eraseIdx i }.Answerable C x v handler
  | _ => True

theorem Inv.eraseQueue (hs : s.Inv loop) (i : ℕ) :
    { s with queue := s.queue.eraseIdx i }.Inv loop :=
  ⟨hs.peers, hs.loop_eq, hs.handle, hs.unborn, fun x hx => hs.queue x (List.mem_of_mem_eraseIdx hx)⟩

theorem step_of_safe (s : RpcServer) (op : Op V) (hs : s.Inv loop) (hsafe : s.Safe C E op) :
    ∃ t, s.step C E op = some t ∧ t.Inv loop := by
  cases op with
  | openPeer => exact openPeer_spec hs
  | closePeer p => exact closePeer_spec hs p
  | receive p body flags v handler =>
    by_cases hp : p < s.peerCount
    · rcases hs.getLocalPeerData (hs.handle p hp) with ⟨q, hget, hq⟩ | ⟨hget, -⟩
      · rcases hread : E.readCall C body flags with _ | rpc
        · exact ⟨s, by simp [step, onReceiveCall, hp, hget, hread], hs⟩
        · rcases hqueue : rpc.messageConverter.executeGetQueue rpc.reader flags with _ | _
          · obtain ⟨t, ht, hti⟩ := answer_of_safe hs (hsafe hp ⟨q, hq⟩ rpc hread hqueue)
            exact ⟨t, by simp [step, onReceiveCall, hp, hget, hread, hqueue, ht], hti⟩
          · refine ⟨{ s with queue := s.queue ++ [⟨s.peers.peerHandle p, rpc⟩] },
              by simp [step, onReceiveCall, hp, hget, hread, hqueue], hs.peers, hs.loop_eq, hs.handle,
              hs.unborn, fun x hx => ?_⟩
            rcases List.mem_append.mp hx with hx | hx
            · exact hs.queue x hx
            · rw [List.mem_singleton.mp hx]
              exact hs.handle p hp
      · exact ⟨s, by simp [step, onReceiveCall, hp, hget], hs⟩
    · exact ⟨s, if_neg hp, hs⟩
  | execute i v handler =>
    rcases hx : s.queue[i]? with _ | x
    · exact ⟨s, by simp [step, execute, hx], hs⟩
    · obtain ⟨t, ht, hti⟩ := answer_of_safe (hs.eraseQueue i) (hsafe x hx)
      exact ⟨t, by simp [step, execute, hx, ht], hti⟩

theorem step_of_not_safe (s : RpcServer) (op : Op V) (hs : s.Inv loop) (hno : ¬s.Safe C E op) :
    s.step C E op = none := by
  cases op with
  | receive p body flags v handler =>
    simp only [Safe, not_forall] at hno
    obtain ⟨hp, ⟨q, hq⟩, rpc, hread, hqueue, hno⟩ := hno
    have hget := getLocalPeerData_of_live hs.peers.wf ((hs.peers.live_iff _ q).mpr hq)
    have hans := answer_of_not_safe hs (hs.handle p hp) hno
    simp [step, onReceiveCall, hp, hget, hread, hqueue, hans]
  | execute i v handler =>
    simp only [Safe, not_forall] at hno
    obtain ⟨x, hx, hno⟩ := hno
    have hans := answer_of_not_safe (hs.eraseQueue i) (hs.queue x (List.mem_of_getElem? hx)) hno
    simp [step, execute, hx, hans]
  | _ => exact absurd trivial hno

/-- **Answering is safe if and only if no call that is answered is executed after its peer is
gone,** over every order of receiving calls, closing peers and executing calls. -/
theorem run_answers_iff (C : Codec V) (E : RPCEnvironment) (loop : ℕ) (ops : List (Op V)) :
    (∃ s, (init loop).run C E ops = some s) ↔
      ∀ pre op post u, ops = pre ++ op :: post → (init loop).run C E pre = some u →
        u.Safe C E op := by
  have hok : ∀ op ∈ ops, (fun _ : Op V => True) op := fun _ _ => trivial
  refine Iff.trans ⟨?_, ?_⟩ (run_iff_safe (fun s op hs _ => step_of_safe s op hs)
    (fun s op hs _ => step_of_not_safe s op hs) ops (init_inv loop) hok)
  · rintro ⟨s, hrun⟩
    exact ⟨s, hrun, run_inv_of_safe (fun s op hs _ => step_of_safe s op hs)
      (fun s op hs _ => step_of_not_safe s op hs) ops (init_inv loop) hok hrun⟩
  · rintro ⟨s, hrun, -⟩
    exact ⟨s, hrun⟩

/-- Every function is registered, takes no arguments and runs in a queue. -/
def queuedEnvironment : RPCEnvironment where
  find reader := some (⟨fun _ _ => true, fun _ => true⟩, reader)

/-- A call with the id `5` is received, its peer closed, and the call executed. -/
theorem answer_after_close :
    (init 0).run Codec.bytes queuedEnvironment
        [.openPeer, .receive 0 [0, 0, 0, 5] FLAGS_CALL 0 [], .closePeer 0, .execute 0 7 []] = none ∧
      ((init 0).run Codec.bytes queuedEnvironment
        [.openPeer, .receive 0 [0, 0, 0, 5] FLAGS_CALL 0 [], .execute 0 7 [], .closePeer 0]).map sent =
        some [(0, [0x48, 0, 0, 0, 5, 7])] := by
  constructor <;> rfl

end RpcServer
end ICon7
