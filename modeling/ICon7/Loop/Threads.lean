/-
# Sending from many threads

A thread that is not the loop's sends by posting a command: `Peer::Send` (`src/Peer.cpp`) enqueues an
`ExecutePeerSendFrame` to the loop of the handle, a `CommandsBuffer` enqueues many of them at once,
and a `CommandBatchSend` is a whole batch.  The loop takes commands out of its queue in bulk, which
keeps the order of each producer and nothing more (`ICon7.Lib.ProducerQueue`), and executes them
between everything else that happens on it.

Every run is a run of the loop in which executed commands are calls of `PeerData::Send`
(`Fed`, `run_fed`).  So the stream of a peer is an interleaving of what the threads posted to it and
of what the loop sent to it itself, and every frame of the interleaving is accounted for (`Sums`): no
thread's frame is lost, repeated or overtaken by a later one of the same thread, and the rest are the
direct sends in their order (`threads_stream`).  Once the queue is empty enough flushes hand exactly
that interleaving to the socket (`threads_drain`).
-/

import ICon7.Lib.ProducerQueue
import ICon7.Loop.Delivery
import ICon7.Loop.Progress

namespace ICon7

open Lib

/-- A command that sends frames, with the thread that posted it: one frame for
`ExecutePeerSendFrame`, those of the buffer or of the batch (`CommandBatchSend`) for the other two. -/
structure PostedSends where
  thread : ℕ
  batch : Bool := false
  sends : List (PeerHandle × List UInt8)
deriving DecidableEq, Repr

/-- A frame that reached `PeerData::Send`, and the thread that posted it; `none` is the loop's own
thread, which calls `PeerData::Send` directly. -/
structure LoggedSend where
  thread : Option ℕ
  peer : PeerHandle
  frame : List UInt8
deriving DecidableEq, Repr

/-- A loop with the commands in its `commandQueue` that send. -/
structure PostedLoop where
  loop : Loop
  commandQueue : List PostedSends := []

namespace PostedLoop

/-- `ExecutePeerSendFrame::Execute`, and what `CommandBatchSend::Execute` does with one frame: it does
not ask whether the handle is null. -/
def executeSend (batch : Bool) (l : Loop) (peer : PeerHandle) (frame : List UInt8) : Option Loop :=
  if batch || peer.toBool then l.send peer frame else some l

/-- The execution of a command. -/
def execute (l : Loop) (c : PostedSends) : Option Loop :=
  c.sends.foldlM (fun l x => executeSend c.batch l x.1 x.2) l

/-- What can happen: a thread posts a command, the loop dequeues commands of the given producers
and executes them, anything else happens on the loop. -/
inductive Op where
  | post (c : PostedSends)
  | executeBulk (producers : List ℕ)
  | loop (op : Loop.Op)

def step (s : PostedLoop) : Op → Option PostedLoop
  | .post c => some { s with commandQueue := s.commandQueue ++ [c] }
  | .executeBulk producers => do
    let (commands, commandQueue) ← dequeueBulk PostedSends.thread s.commandQueue producers
    let loop ← commands.foldlM execute s.loop
    return { loop, commandQueue }
  | .loop op => do
    let loop ← s.loop.step op
    return { s with loop }

def run (s : PostedLoop) (ops : List Op) : Option PostedLoop := ops.foldlM step s

/-- What callers promise: the handles are of the loop (`peer.GetLoop()->EnqueueCommand`), and the
loop's own operations are as always. -/
def Op.Ok (loop : ℕ) : Op → Prop
  | .post c => ∀ x ∈ c.sends, x.1.loop = some loop
  | .executeBulk _ => True
  | .loop op => op.Ok loop

/-- The operation neither releases the peer nor makes it disconnecting. -/
def Op.Spares (h : PeerHandle) : Op → Prop
  | .loop op => op.Spares h
  | _ => True

/-- The command an operation posts. -/
def Op.posted : Op → List PostedSends
  | .post c => [c]
  | .executeBulk _ => []
  | .loop _ => []

/-- The frame for the peer that the loop's own thread gives to `PeerData::Send` in an operation. -/
def Op.direct (h : PeerHandle) : Op → List (List UInt8)
  | .loop (.send g frame) => if g = h then [frame] else []
  | _ => []

/-- The frames for the peer that a thread has in the commands, in order. -/
def framesOf (t : ℕ) (h : PeerHandle) (cs : List PostedSends) : List (List UInt8) :=
  (ofProducer PostedSends.thread t cs).flatMap fun c => (c.sends.filter (·.1 = h)).map Prod.snd

/-- The frames of a log for the peer. -/
def toPeer (h : PeerHandle) (log : List LoggedSend) : List LoggedSend := log.filter (·.peer = h)

/-- The frames of a log for the peer that the thread posted, or that the loop's own thread sent. -/
def sentBy (t : Option ℕ) (h : PeerHandle) (log : List LoggedSend) : List (List UInt8) :=
  ((toPeer h log).filter (·.thread = t)).map LoggedSend.frame

/-- The frames of a log for the peer, as bytes. -/
def bytesFor (h : PeerHandle) (log : List LoggedSend) : List UInt8 :=
  ((toPeer h log).map LoggedSend.frame).flatten

variable {s s' : PostedLoop} {l l' l'' : Loop} {h : PeerHandle} {n t : ℕ} {c : PostedSends}
  {cs ds : List PostedSends} {log log' : List LoggedSend}

@[simp] theorem framesOf_nil : framesOf t h [] = [] := rfl

@[simp] theorem framesOf_append : framesOf t h (cs ++ ds) = framesOf t h cs ++ framesOf t h ds := by
  simp [framesOf]

@[simp] theorem sentBy_append {t : Option ℕ} :
    sentBy t h (log ++ log') = sentBy t h log ++ sentBy t h log' := by
  simp [sentBy, toPeer]

@[simp] theorem bytesFor_append :
    bytesFor h (log ++ log') = bytesFor h log ++ bytesFor h log' := by
  simp [bytesFor, toPeer]

/-- The log of an executed command. -/
def logOf (c : PostedSends) : List LoggedSend := c.sends.map fun x => ⟨some c.thread, x.1, x.2⟩

/-- Seen by a thread, executing a command sends the frames that it holds of the thread. -/
theorem sentBy_logOf (c : PostedSends) : sentBy (some t) h (logOf c) = framesOf t h [c] := by
  by_cases ht : c.thread = t
  · simp [sentBy, toPeer, logOf, framesOf, ofProducer, ht, List.filter_map, Function.comp_def]
  · simp [sentBy, toPeer, logOf, framesOf, ofProducer, ht, List.filter_map, Function.comp_def]

/-- No executed command is a direct send. -/
theorem sentBy_none_flatMap_logOf (cs : List PostedSends) : sentBy none h (cs.flatMap logOf) = [] := by
  have hnot : ∀ e ∈ cs.flatMap logOf, e.thread ≠ none := by
    simp only [logOf, List.mem_flatMap, List.mem_map]
    rintro e ⟨c, -, x, -, rfl⟩
    exact Option.some_ne_none _
  rw [sentBy, toPeer, List.filter_filter, List.map_eq_nil_iff, List.filter_eq_nil_iff]
  intro e he
  simp [hnot e he]

theorem sentBy_flatMap_logOf (cs : List PostedSends) :
    sentBy (some t) h (cs.flatMap logOf) = framesOf t h cs := by
  induction cs with
  | nil => rfl
  | cons c cs ih =>
    rw [List.flatMap_cons, sentBy_append, sentBy_logOf, ih, ← framesOf_append, List.singleton_append]

/-- **The loop was fed the log:** the steps it made are a run of the loop that spares the peer, and
gave the peer exactly the bytes that the log has for it. -/
def Fed (n : ℕ) (h : PeerHandle) (l l' : Loop) (log : List LoggedSend) : Prop :=
  ∃ ops : List Loop.Op, l.run ops = some l' ∧ (∀ op ∈ ops, op.Ok n) ∧ (∀ op ∈ ops, op.Spares h) ∧
    (ops.map (Loop.Op.bytesTo h)).flatten = bytesFor h log

theorem Fed.refl : Fed n h l l [] := ⟨[], rfl, by simp, by simp, rfl⟩

theorem Fed.trans (h₁ : Fed n h l l' log) (h₂ : Fed n h l' l'' log') :
    Fed n h l l'' (log ++ log') := by
  obtain ⟨ops, hrun, hok, hsp, hb⟩ := h₁
  obtain ⟨ops', hrun', hok', hsp', hb'⟩ := h₂
  refine ⟨ops ++ ops', ?_, ?_, ?_, ?_⟩
  · rw [Loop.run, List.foldlM_append, show ops.foldlM Loop.step l = some l' from hrun]
    exact hrun'
  · exact fun op hop => (List.mem_append.mp hop).elim (hok op) (hok' op)
  · exact fun op hop => (List.mem_append.mp hop).elim (hsp op) (hsp' op)
  · rw [List.map_append, List.flatten_append, hb, hb', bytesFor_append]

/-- One step of the loop. -/
theorem Fed.one (op : Loop.Op) (hstep : l.step op = some l') (hok : op.Ok n) (hsp : op.Spares h)
    (hb : op.bytesTo h = bytesFor h log) : Fed n h l l' log :=
  ⟨[op], Lib.foldlM_cons_eq_some.mpr ⟨l', hstep, rfl⟩, by simpa using hok, by simpa using hsp,
    by simpa using hb⟩

/-- Executing it is `PeerData::Send`, for the peer of a valid handle. -/
theorem executeSend_fed (hh : h.toBool = true) {x : PeerHandle × List UInt8} (hx : x.1.loop = some n)
    {batch : Bool} (hex : executeSend batch l x.1 x.2 = some l') (t : Option ℕ) :
    Fed n h l l' [⟨t, x.1, x.2⟩] := by
  unfold executeSend at hex
  split_ifs at hex with hb
  · refine Fed.one (.send x.1 x.2) hex hx trivial ?_
    by_cases heq : x.1 = h <;> simp [Loop.Op.bytesTo, bytesFor, toPeer, heq]
  · -- the handle is not that of the peer, which is valid
    obtain rfl := Option.some.inj hex
    have hne : x.1 ≠ h := fun heq => hb (by rw [heq, hh, Bool.or_true])
    refine ⟨[], rfl, by simp, by simp, ?_⟩
    simp [bytesFor, toPeer, hne]

theorem execute_fed (hh : h.toBool = true) (hc : ∀ x ∈ c.sends, x.1.loop = some n)
    (hex : execute l c = some l') : Fed n h l l' (logOf c) := by
  obtain ⟨t, batch, sends⟩ := c
  unfold execute logOf at *
  induction sends generalizing l with
  | nil =>
    obtain rfl := Option.some.inj hex
    exact Fed.refl
  | cons x sends ih =>
    obtain ⟨l₁, hx, hrest⟩ := Lib.foldlM_cons_eq_some.mp hex
    exact (executeSend_fed hh (hc x List.mem_cons_self) hx (some t)).trans
      (ih (fun y hy => hc y (List.mem_cons_of_mem _ hy)) hrest)

theorem executes_fed (hh : h.toBool = true) (hc : ∀ c ∈ cs, ∀ x ∈ c.sends, x.1.loop = some n)
    (hex : cs.foldlM execute l = some l') : Fed n h l l' (cs.flatMap logOf) := by
  induction cs generalizing l with
  | nil =>
    obtain rfl := Option.some.inj hex
    exact Fed.refl
  | cons c cs ih =>
    obtain ⟨l₁, h₁, hrest⟩ := Lib.foldlM_cons_eq_some.mp hex
    exact (execute_fed hh (hc c List.mem_cons_self) h₁).trans
      (ih (fun d hd => hc d (List.mem_cons_of_mem _ hd)) hrest)

/-- The frame of a direct call of `PeerData::Send`. -/
def directLog : Loop.Op → List LoggedSend
  | .send g frame => [⟨none, g, frame⟩]
  | _ => []

theorem bytesFor_directLog (op : Loop.Op) : op.bytesTo h = bytesFor h (directLog op) := by
  cases op with
  | send g frame => by_cases heq : g = h <;> simp [Loop.Op.bytesTo, directLog, bytesFor, toPeer, heq]
  | _ => rfl

theorem sentBy_directLog (op : Loop.Op) :
    sentBy (some t) h (directLog op) = [] ∧ sentBy none h (directLog op) = Op.direct h (.loop op) := by
  cases op with
  | send g frame => by_cases heq : g = h <;> simp [directLog, sentBy, toPeer, Op.direct, heq]
  | _ => exact ⟨rfl, rfl⟩

/-- Every queued frame is for a peer of the loop. -/
def QueueOk (n : ℕ) (s : PostedLoop) : Prop := ∀ c ∈ s.commandQueue, ∀ x ∈ c.sends, x.1.loop = some n

/-- **The log sums up what happened to the peer:** what the log and the queue now hold of a thread is
what the queue held, followed by what the operations posted, and what the log holds of the loop's own
thread is what the operations sent directly. -/
structure Sums (h : PeerHandle) (log : List LoggedSend) (queue queue' : List PostedSends) (ops : List Op) :
    Prop where
  posted : ∀ t, sentBy (some t) h log ++ framesOf t h queue' =
    framesOf t h queue ++ framesOf t h (ops.flatMap Op.posted)
  direct : sentBy none h log = ops.flatMap (Op.direct h)

theorem Sums.nil : Sums h [] cs cs [] := ⟨fun t => by simp [sentBy, toPeer], rfl⟩

theorem Sums.trans {es : List PostedSends} {ops ops' : List Op} (h₁ : Sums h log cs ds ops)
    (h₂ : Sums h log' ds es ops') : Sums h (log ++ log') cs es (ops ++ ops') := by
  refine ⟨fun t => ?_, by rw [sentBy_append, h₁.direct, h₂.direct, List.flatMap_append]⟩
  rw [sentBy_append, List.append_assoc, h₂.posted, ← List.append_assoc, h₁.posted, List.append_assoc,
    List.flatMap_append, framesOf_append]

/-- What a step did, seen from the peer: the loop was fed a log that sums it up. -/
theorem step_fed (hh : h.toBool = true) (hq : QueueOk n s) {op : Op} (hok : op.Ok n)
    (hsp : op.Spares h) (hstep : s.step op = some s') :
    QueueOk n s' ∧ ∃ log, Fed n h s.loop s'.loop log ∧ Sums h log s.commandQueue s'.commandQueue [op] := by
  cases op with
  | post c =>
    obtain rfl := Option.some.inj hstep
    refine ⟨fun d hd => ?_, [], Fed.refl, fun t => ?_, rfl⟩
    · rcases List.mem_append.mp hd with hd | hd
      · exact hq d hd
      · exact List.mem_singleton.mp hd ▸ hok
    · exact framesOf_append
  | executeBulk producers =>
    obtain ⟨⟨commands, rest⟩, hdeq, hstep⟩ := Option.bind_eq_some_iff.mp hstep
    obtain ⟨l, hex, hstep⟩ := Option.bind_eq_some_iff.mp hstep
    obtain rfl := Option.some.inj hstep
    have hmem := mem_dequeueBulk hdeq
    refine ⟨fun d hd => hq d ((hmem d).mpr (.inr hd)), commands.flatMap logOf,
      executes_fed hh (fun c hc => hq c ((hmem c).mpr (.inl hc))) hex, fun t => ?_,
      sentBy_none_flatMap_logOf commands⟩
    rw [sentBy_flatMap_logOf, List.flatMap_singleton, Op.posted, framesOf_nil, List.append_nil]
    simp only [framesOf, ofProducer_dequeueBulk hdeq t, List.flatMap_append]
  | loop op =>
    obtain ⟨l, hl, hstep⟩ := Option.bind_eq_some_iff.mp hstep
    obtain rfl := Option.some.inj hstep
    refine ⟨hq, directLog op, Fed.one op hl hok hsp (bytesFor_directLog op), fun t => ?_, ?_⟩
    · rw [(sentBy_directLog op).1, List.flatMap_singleton, Op.posted, framesOf_nil, List.append_nil,
        List.nil_append]
    · rw [(sentBy_directLog (t := 0) op).2, List.flatMap_singleton]

/-- **A run,** likewise: the logs of its steps, one after the other, sum it up. -/
theorem run_fed (hh : h.toBool = true) (ops : List Op) (hq : QueueOk n s) (hok : ∀ op ∈ ops, op.Ok n)
    (hsp : ∀ op ∈ ops, op.Spares h) (hrun : s.run ops = some s') :
    QueueOk n s' ∧ ∃ log, Fed n h s.loop s'.loop log ∧ Sums h log s.commandQueue s'.commandQueue ops := by
  induction ops generalizing s with
  | nil =>
    obtain rfl := Option.some.inj hrun
    exact ⟨hq, [], Fed.refl, Sums.nil⟩
  | cons op ops ih =>
    obtain ⟨s₁, hstep, hrest⟩ := Lib.foldlM_cons_eq_some.mp hrun
    obtain ⟨hq₁, log, hfed, hsum⟩ := step_fed hh hq (hok op List.mem_cons_self)
      (hsp op List.mem_cons_self) hstep
    obtain ⟨hq', log', hfed', hsum'⟩ := ih hq₁ (fun o ho => hok o (List.mem_cons_of_mem _ ho))
      (fun o ho => hsp o (List.mem_cons_of_mem _ ho)) hrest
    exact ⟨hq', log ++ log', hfed.trans hfed', hsum.trans hsum'⟩

/-- A loop without peers and commands. -/
def init (n : ℕ) : PostedLoop := ⟨Loop.init n, []⟩

/-- What a loop is fed leaves it consistent. -/
theorem Fed.wf (hw : l.WF) (hl : l.peerManager.loop = n) (hfed : Fed n h l l' log) :
    l'.WF ∧ l'.peerManager.loop = n := by
  obtain ⟨ops, hrun, hok, -⟩ := hfed
  have hstep (l : Loop) (op : Loop.Op) (hI : l.WF ∧ l.peerManager.loop = n) (hop : op.Ok n) :
      ∃ l', l.step op = some l' ∧ l'.WF ∧ l'.peerManager.loop = n := by
    obtain ⟨hw, rfl⟩ := hI
    obtain ⟨l', hstep, hs⟩ := Loop.step_steps hw hop
    exact ⟨l', hstep, hs.wf, hs.loop⟩
  obtain ⟨l₁, hrun₁, hI⟩ := Lib.run_total hstep ops ⟨hw, hl⟩ hok
  obtain rfl := Option.some.inj (hrun.symm.trans hrun₁)
  exact hI

/-- A run from the start, whatever it does to peers, leaves the loop and the queue consistent. -/
theorem run_wf (ops : List Op) (hok : ∀ op ∈ ops, op.Ok n) (hrun : (init n).run ops = some s) :
    s.loop.WF ∧ s.loop.peerManager.loop = n ∧ QueueOk n s := by
  -- every operation spares the handle of another loop
  have hsp : ∀ op ∈ ops, op.Spares ⟨0, 1, some (n + 1)⟩ := by
    intro op hop
    have hne : ∀ g : PeerHandle, g.loop = some n → g ≠ ⟨0, 1, some (n + 1)⟩ := by
      rintro g hg rfl
      simp at hg
    cases op with
    | loop op =>
      have hop := hok _ hop
      cases op with
      | release g => exact hne g hop
      | setFlags g _ _ _ => exact fun heq => absurd heq (hne g hop)
      | _ => trivial
    | _ => trivial
  obtain ⟨hq, log, hfed, -⟩ := run_fed (n := n) rfl ops (by simp [QueueOk, init]) hok hsp hrun
  obtain ⟨hw, hl⟩ := hfed.wf (Loop.init_wf n) rfl
  exact ⟨hw, hl, hq⟩

/-- A handle that a peer of the loop knows is valid. -/
theorem toBool_of_holds (hw : l.WF) {i : ℕ} {p : TcpPeer} (hp : l.Holds i p) :
    p.peerHandle.toBool = true := by
  have hlive := hw.live hp
  have hne := hw.manager.version_ne_zero _ _ hlive.2.2
  simp [PeerHandle.toBool, hne, hlive.1]

/-- What a loop is fed reaches the stream of the peer. -/
theorem Fed.peer (hw : l.WF) (hl : l.peerManager.loop = n) {i : ℕ} {p : TcpPeer} (hp : l.Holds i p)
    (hd : p.isDisconnecting = false) (hfed : Fed n p.peerHandle l l' log) :
    ∃ p', l'.Holds i p' ∧ p'.peerHandle = p.peerHandle ∧
      p'.stream = p.stream ++ bytesFor p.peerHandle log := by
  obtain ⟨ops, hrun, hok, hsp, hb⟩ := hfed
  obtain ⟨l₁, p', hrun₁, -, hp', hh', hs'⟩ := Loop.run_peer ops hw (by rwa [hl]) hp hsp hd
  obtain rfl := Option.some.inj (hrun.symm.trans hrun₁)
  exact ⟨p', hp', hh', by rw [hs', hb]⟩

/-- A run after the allocation of a peer: the peer is still there, and its stream is the log. -/
theorem run_alloc (before : List Op) (hbefore : ∀ op ∈ before, op.Ok n)
    (hrun₀ : (init n).run before = some s) {socket : UsSocket} (hnew : socket.accepted = [])
    {capacity : ℕ} (hcap : 0 < capacity) (halloc : s.loop.alloc socket capacity = some (l, h))
    (ops : List Op) (hok : ∀ op ∈ ops, op.Ok n) (hspare : ∀ op ∈ ops, op.Spares h)
    (hrun : run ⟨l, s.commandQueue⟩ ops = some s') :
    (s'.loop.WF ∧ s'.loop.peerManager.loop = n) ∧ QueueOk n s' ∧
      ∃ p log, s'.loop.Holds h.id p ∧ p.peerHandle = h ∧ p.stream = bytesFor h log ∧
        Sums h log s.commandQueue s'.commandQueue ops := by
  obtain ⟨hw₀, hl₀, hq₀⟩ := run_wf before hbefore hrun₀
  obtain ⟨l₁, h', halloc', hs, q, hq, rfl, hd, hstream⟩ := Loop.alloc_steps hw₀ socket hcap
  obtain ⟨rfl, rfl⟩ := Prod.mk.inj (Option.some.inj (halloc.symm.trans halloc'))
  have hl : l.peerManager.loop = n := hs.loop.trans hl₀
  obtain ⟨hq', log, hfed, hsum⟩ := run_fed (s := ⟨l, s.commandQueue⟩) (toBool_of_holds hs.wf hq) ops hq₀
    hok hspare hrun
  obtain ⟨p, hp, hh, hout⟩ := hfed.peer hs.wf hl hq hd
  refine ⟨hfed.wf hs.wf hl, hq', p, log, hp, hh, ?_, hsum⟩
  rw [hout, hstream, hnew, List.nil_append]

/-- **Sending from many threads.**  Whatever happened on the loop before, a tcp peer is allocated over
a socket that has taken nothing yet.  After every run in which any threads post frames to it and to
other peers, and the loop executes commands in bulk, calls `PeerData::Send` itself and does whatever
else it does, but does not release the peer or make it disconnecting: the bytes the socket has
taken and the bytes that wait for it are the frames of a log; for every thread the frames of the log
that it posted, followed by those of its frames that are still in the queue, are the frames it
posted, in the order it posted them; and the other frames of the log are those that the loop gave to
`PeerData::Send` for this peer itself, in that order. -/
theorem threads_stream (before : List Op) (hbefore : ∀ op ∈ before, op.Ok n)
    (hrun₀ : (init n).run before = some s) (socket : UsSocket) (hnew : socket.accepted = [])
    {capacity : ℕ} (hcap : 0 < capacity) (halloc : s.loop.alloc socket capacity = some (l, h))
    (ops : List Op) (hok : ∀ op ∈ ops, op.Ok n) (hspare : ∀ op ∈ ops, op.Spares h)
    (hrun : run ⟨l, s.commandQueue⟩ ops = some s') :
    ∃ p log, s'.loop.peerManager.getLocalPeerData h = some (some p) ∧ p.stream = bytesFor h log ∧
      (∀ t, sentBy (some t) h log ++ framesOf t h s'.commandQueue =
        framesOf t h s.commandQueue ++ framesOf t h (ops.flatMap Op.posted)) ∧
      sentBy none h log = ops.flatMap (Op.direct h) := by
  obtain ⟨⟨hw, -⟩, -, p, log, hp, rfl, hstream, hsum⟩ :=
    run_alloc before hbefore hrun₀ hnew hcap halloc ops hok hspare hrun
  exact ⟨p, log, PeerManager.getLocalPeerData_of_live hw.manager (hw.live hp), hstream, hsum.posted,
    hsum.direct⟩

/-- Two threads post to a peer; the loop sends a frame itself and executes a command of each thread,
that of the later thread first. -/
def twoThreads (h : PeerHandle) : List Op :=
  [.loop (.setFlags h true false false), .post ⟨1, false, [(h, [1, 2])]⟩, .post ⟨2, true, [(h, [9])]⟩,
    .loop (.send h [7]), .executeBulk [2, 1], .post ⟨1, false, [(h, [3])]⟩]

/-- The last frame is still in the queue. -/
theorem threads_stream_two :
    ∃ l s' p log, (Loop.init 0).alloc Loop.creepingSocket 8 = some (l, ⟨0, 1, some 0⟩) ∧
      run ⟨l, []⟩ (twoThreads ⟨0, 1, some 0⟩) = some s' ∧
      s'.loop.peerManager.getLocalPeerData ⟨0, 1, some 0⟩ = some (some p) ∧
      p.stream = bytesFor ⟨0, 1, some 0⟩ log ∧
      (sentBy (some 1) ⟨0, 1, some 0⟩ log ++ framesOf 1 ⟨0, 1, some 0⟩ s'.commandQueue = [[1, 2], [3]]) ∧
      (sentBy (some 2) ⟨0, 1, some 0⟩ log ++ framesOf 2 ⟨0, 1, some 0⟩ s'.commandQueue = [[9]]) ∧
      sentBy none ⟨0, 1, some 0⟩ log = [[7]] := by
  obtain ⟨p, log, hp, hstream, hlog, hdirect⟩ := threads_stream (h := ⟨0, 1, some 0⟩) (n := 0) [] (by simp) rfl
    Loop.creepingSocket rfl (by decide : 0 < 8) rfl (twoThreads ⟨0, 1, some 0⟩)
    (by simp [twoThreads, Op.Ok, Loop.Op.Ok]) (by simp [twoThreads, Op.Spares, Loop.Op.Spares]) rfl
  exact ⟨_, _, p, log, rfl, rfl, hp, hstream, hlog 1, hlog 2, hdirect⟩

/-- `Send` to any peer leaves a peer that may write so. -/
theorem send_sending (hw : l.WF) {g : PeerHandle} (hg : g.loop = some l.peerManager.loop)
    {frame : List UInt8} {i : ℕ} {p : TcpPeer} (hp : l.Holds i p) (hs : p.Sending)
    (hsend : l.send g frame = some l') : ∃ p', l'.Holds i p' ∧ p'.Sending := by
  have hset {l₁ : Loop} (hh : ∀ j q, l₁.Holds j q ↔ l.Holds j q) {q q' : TcpPeer}
      (hq : l.Holds g.id q) (hkeep : q.Sending → q'.Sending) :
      ∃ p', (l₁.setPeer g.id q').Holds i p' ∧ p'.Sending := by
    have hlt := ((hh _ _).mpr hq).lt
    rcases eq_or_ne i g.id with rfl | hne
    · exact ⟨q', (Loop.holds_setPeer hlt _ _).mpr (by rw [if_pos rfl]), hkeep (hp.unique hq ▸ hs)⟩
    · exact ⟨p, (Loop.holds_setPeer hlt _ _).mpr (by rw [if_neg hne]; exact (hh i p).mpr hp), hs⟩
  have henq {q : TcpPeer} (hq : q.Sending) : (q.enqueue frame).Sending :=
    ⟨hq.ready, hq.connected, hq.opened, hq.willing⟩
  rcases Loop.resolve hw hg with ⟨q, hq, hqg, hget⟩ | ⟨hget, -⟩
  · have hcases : l.send g frame = l.sendPeer g.id q frame := by simp [Loop.send, hget]
    rw [hcases, Loop.sendPeer] at hsend
    split_ifs at hsend with hdisc hidle
    · obtain rfl := Option.some.inj hsend
      exact hset (fun _ _ => Iff.rfl) hq fun hq => ⟨hq.ready, hq.connected, hq.opened, hq.willing⟩
    · have hnot : q.pending = false := by simp [TcpPeer.pending, hidle.1, hidle.2]
      obtain ⟨l₁, hins, -, -, hh, -⟩ := Loop.insertPeerToFlush_spec hw hq hnot
      rw [hins] at hsend
      obtain rfl := Option.some.inj hsend
      exact hset hh hq henq
    · obtain rfl := Option.some.inj hsend
      exact hset (fun _ _ => Iff.rfl) hq henq
  · have hnone : l.send g frame = some l := by simp [Loop.send, hget]
    obtain rfl := Option.some.inj (hnone.symm.trans hsend)
    exact ⟨p, hp, hs⟩

/-- Commands can be executed on a consistent loop, and leave a peer that may write so. -/
theorem executes_sending (hc : ∀ c ∈ cs, ∀ x ∈ c.sends, x.1.loop = some n) (hw : l.WF)
    (hl : l.peerManager.loop = n) {i : ℕ} {p : TcpPeer} (hp : l.Holds i p) (hs : p.Sending) :
    ∃ l', cs.foldlM execute l = some l' ∧ (l'.WF ∧ l'.peerManager.loop = n) ∧
      ∃ p', l'.Holds i p' ∧ p'.Sending := by
  have hone (batch : Bool) (l : Loop) (x : PeerHandle × List UInt8)
      (hI : (l.WF ∧ l.peerManager.loop = n) ∧ ∃ p, l.Holds i p ∧ p.Sending) (hx : x.1.loop = some n) :
      ∃ l', executeSend batch l x.1 x.2 = some l' ∧ (l'.WF ∧ l'.peerManager.loop = n) ∧
        ∃ p', l'.Holds i p' ∧ p'.Sending := by
    obtain ⟨⟨hw, rfl⟩, p, hp, hs⟩ := hI
    unfold executeSend
    split_ifs with hb
    · obtain ⟨l', hsend, hst⟩ := Loop.send_steps hw hx x.2
      exact ⟨l', hsend, ⟨hst.wf, hst.loop⟩, send_sending hw hx hp hs hsend⟩
    · exact ⟨l, rfl, ⟨hw, rfl⟩, p, hp, hs⟩
  exact Lib.run_total (fun l c hI hc => Lib.run_total (hone c.batch) c.sends hI hc) cs ⟨⟨hw, hl⟩, p, hp, hs⟩ hc

/-- Passes of `FlushPendingPeers` leave the queue alone. -/
theorem run_flushes {k : ℕ} (hrun : l.run (List.replicate k .flushPendingPeers) = some l') :
    run ⟨l, cs⟩ (List.replicate k (.loop .flushPendingPeers)) = some ⟨l', cs⟩ := by
  induction k generalizing l with
  | zero =>
    obtain rfl := Option.some.inj hrun
    rfl
  | succ k ih =>
    obtain ⟨l₁, hstep, hrest⟩ := Lib.foldlM_cons_eq_some.mp hrun
    exact Lib.foldlM_cons_eq_some.mpr ⟨⟨l₁, cs⟩, by simp [step, hstep], ih hrest⟩

/-- **What many threads post is sent in the end.**  At any point of such a run, let the peer be ready
and neither disconnecting nor closed, over a socket that takes at least one byte of every write.
Executing the commands that are in the queue and enough passes of `FlushPendingPeers` leave the
socket with exactly the frames that were ever posted to the peer or sent to it by the loop itself,
each once and whole, those of each thread in the order it posted them and those of the loop in the order
it sent them, and the peer out of `peersToFlush`. -/
theorem threads_drain (before : List Op) (hbefore : ∀ op ∈ before, op.Ok n)
    (hrun₀ : (init n).run before = some s) (socket : UsSocket) (hnew : socket.accepted = [])
    {capacity : ℕ} (hcap : 0 < capacity) (halloc : s.loop.alloc socket capacity = some (l, h))
    (ops : List Op) (hok : ∀ op ∈ ops, op.Ok n) (hspare : ∀ op ∈ ops, op.Spares h)
    (hrun : run ⟨l, s.commandQueue⟩ ops = some s') {p : TcpPeer} (hp : s'.loop.Holds h.id p)
    (hs : p.Sending) :
    ∃ log k₀, (∀ t, sentBy (some t) h log =
        framesOf t h s.commandQueue ++ framesOf t h (ops.flatMap Op.posted)) ∧
      sentBy none h log = ops.flatMap (Op.direct h) ∧
      ∀ k, k₀ ≤ k → ∃ s'' p'', s'.run (.executeBulk (s'.commandQueue.map PostedSends.thread) ::
          List.replicate k (.loop .flushPendingPeers)) = some s'' ∧ s''.commandQueue = [] ∧
        s''.loop.Holds h.id p'' ∧ p''.accepted = bytesFor h log ∧
        h.id ∉ s''.loop.peerManager.peersToFlush.peers := by
  obtain ⟨⟨hw, hl⟩, hq, -⟩ := run_alloc before hbefore hrun₀ hnew hcap halloc ops hok hspare hrun
  obtain ⟨l₁, hex, -, p₁, hp₁, hs₁⟩ := executes_sending hq hw hl hp hs
  have hstep : s'.step (.executeBulk (s'.commandQueue.map PostedSends.thread)) = some ⟨l₁, []⟩ := by
    simp [step, dequeueBulk_all, hex]
  -- the run that ends with the execution of the queue
  have hrun₁ : run ⟨l, s.commandQueue⟩ (ops ++ [.executeBulk (s'.commandQueue.map PostedSends.thread)]) =
      some ⟨l₁, []⟩ := by
    rw [run, List.foldlM_append, show ops.foldlM step _ = some s' from hrun]
    exact Lib.foldlM_cons_eq_some.mpr ⟨_, hstep, rfl⟩
  obtain ⟨⟨hw₁, -⟩, -, p₂, log, hp₂, -, hstream, hsum⟩ := run_alloc before hbefore hrun₀ hnew hcap halloc _
    (by simpa [or_imp, forall_and, Op.Ok] using hok) (by simpa [or_imp, forall_and, Op.Spares] using hspare)
    hrun₁
  obtain rfl := hp₁.unique hp₂
  refine ⟨log, p₁.backlog + 1, fun t => by simpa [Op.posted] using hsum.posted t,
    by simpa [Op.direct] using hsum.direct, fun k hk => ?_⟩
  obtain ⟨l', p', hrun', hp', hacc, -, hout⟩ := Loop.flushes_drain hw₁ hp₁ hs₁ k hk
  refine ⟨⟨l', []⟩, p', Lib.foldlM_cons_eq_some.mpr ⟨_, hstep, ?_⟩, rfl, hp', hacc.trans hstream, hout⟩
  exact run_flushes hrun'

/-- The same two threads. -/
theorem threads_drain_two :
    ∃ l s' log k₀, (Loop.init 0).alloc Loop.creepingSocket 8 = some (l, ⟨0, 1, some 0⟩) ∧
      run ⟨l, []⟩ (twoThreads ⟨0, 1, some 0⟩) = some s' ∧
      sentBy (some 1) ⟨0, 1, some 0⟩ log = [[1, 2], [3]] ∧ sentBy (some 2) ⟨0, 1, some 0⟩ log = [[9]] ∧
      sentBy none ⟨0, 1, some 0⟩ log = [[7]] ∧
      ∀ k, k₀ ≤ k → ∃ s'' p'', s'.run (.executeBulk (s'.commandQueue.map PostedSends.thread) ::
          List.replicate k (.loop .flushPendingPeers)) = some s'' ∧ s''.commandQueue = [] ∧
        s''.loop.Holds 0 p'' ∧ p''.accepted = bytesFor ⟨0, 1, some 0⟩ log ∧
        0 ∉ s''.loop.peerManager.peersToFlush.peers := by
  obtain ⟨log, k₀, hlog, hdirect, hdrain⟩ := threads_drain (h := ⟨0, 1, some 0⟩) (n := 0) [] (by simp) rfl
    Loop.creepingSocket rfl (by decide : 0 < 8) rfl (twoThreads ⟨0, 1, some 0⟩)
    (by simp [twoThreads, Op.Ok, Loop.Op.Ok]) (by simp [twoThreads, Op.Spares, Loop.Op.Spares]) rfl
    rfl ⟨rfl, rfl, rfl, Loop.creepingSocket_willing rfl⟩
  exact ⟨_, _, log, k₀, rfl, rfl, hlog 1, hlog 2, hdirect, hdrain⟩

end PostedLoop
end ICon7
