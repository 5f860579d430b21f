/-
# Running and stopping a loop

`RunAsync`, `_InternalSyncLoop`, `QueueStopRunning` and `WaitStopRunning` in `src/Loop.cpp`,
as steps of any number of threads over `asyncRunnerFlags`.  Each load, store and fetch of
the flags is one step; `WakeUp` and `Sleep` change no flag.  An iteration is one step: uSockets
is not part of this repository, and it is assumed of its `us_loop_run` that it returns once
`us_wakeup_loop` has been called.

Other than the thread of a command queue (`Queue.AsyncStop`), this one announces itself
by a fetch-or, which keeps a stop that was queued before.  So a wait that returns too
early, before the thread has announced itself, still has the last word: the thread finds
the stop at its first check (`stop_is_final`).  What is queued once is found after at most
three steps of the thread, and then a wait returns after at most three steps of its own
(`stop_terminates`).  Both need that the loop is started once: a second `RunAsync` stores
`0` and takes the stop back.
-/

import ICon7.Lib.Run

namespace ICon7
namespace AsyncRunner

open Lib

def RUNNING : UInt32 := 1
def QUEUE_STOP : UInt32 := 2

/-- What a thread calls. -/
inductive Call where
  | runAsync
  | queueStopRunning
  | waitStopRunning
deriving DecidableEq, Repr

/-- Where a thread is that uses the loop: outside, in `RunAsync` before its store and before the
creation of the thread, in `QueueStopRunning` before its fetch-or and before the load that
decides on the wakeup, as a part of `WaitStopRunning` or not, and before the load of its loop. -/
inductive Caller where
  | idle
  | storeFlags
  | createThread
  | fetchOr (waits : Bool)
  | checkWakeUp (waits : Bool)
  | checkRunning
deriving DecidableEq, Repr

/-- Where a detached thread is in `_InternalSyncLoop`. -/
inductive Worker where
  | announce
  | checkStop
  | iterate
  | clear
  | finished
deriving DecidableEq, Repr

/-- `callers` are the threads that use the loop, `workers` those that `RunAsync` has created. -/
structure State where
  asyncRunnerFlags : UInt32 := 0
  callers : ℕ → Caller := fun _ => .idle
  workers : List Worker := []
  iterations : ℕ := 0

inductive Op where
  | invoke (i : ℕ) (call : Call)
  | caller (i : ℕ)
  | worker (k : ℕ)
deriving DecidableEq, Repr

/-- The beginning of a call. -/
def Call.entry : Call → Caller
  | .runAsync => .storeFlags
  | .queueStopRunning => .fetchOr false
  | .waitStopRunning => .fetchOr true

namespace State

/-- `IsRunningAsync`. -/
def isRunningAsync (s : State) : Bool := s.asyncRunnerFlags &&& RUNNING ≠ 0

/-- `IsQueuedStopAsync`. -/
def isQueuedStopAsync (s : State) : Bool := s.asyncRunnerFlags &&& QUEUE_STOP ≠ 0

/-- The thread goes on to `c`. -/
def goto (s : State) (i : ℕ) (c : Caller) : State := { s with callers := Function.update s.callers i c }

@[simp] theorem goto_self (s : State) (i : ℕ) (c : Caller) : (s.goto i c).callers i = c :=
  Function.update_self ..

theorem goto_of_ne (s : State) {i j : ℕ} (h : j ≠ i) (c : Caller) : (s.goto i c).callers j = s.callers j :=
  Function.update_of_ne h ..

/-- The next access of a thread that uses the loop. -/
def callerStep (s : State) (i : ℕ) : Option State :=
  match s.callers i with
  | .idle => none
  | .storeFlags => some { s.goto i .createThread with asyncRunnerFlags := 0 }
  | .createThread => some { s.goto i .idle with workers := s.workers ++ [.announce] }
  | .fetchOr waits =>
    some { s.goto i (.checkWakeUp waits) with asyncRunnerFlags := s.asyncRunnerFlags ||| QUEUE_STOP }
  | .checkWakeUp waits => some (s.goto i (if waits then .checkRunning else .idle))
  | .checkRunning => some (s.goto i (if s.isRunningAsync then .fetchOr true else .idle))

/-- The next access of `_InternalSyncLoop`; `iterations` counts the calls of
`SingleLoopIteration`. -/
def workerStep (s : State) (k : ℕ) : Option State :=
  match s.workers[k]? with
  | none => none
  | some .announce => some { s with
      workers := s.workers.set k .checkStop
      asyncRunnerFlags := s.asyncRunnerFlags ||| RUNNING }
  | some .checkStop =>
    if s.isQueuedStopAsync then some { s with workers := s.workers.set k .clear }
    else some { s with workers := s.workers.set k .iterate, iterations := s.iterations + 1 }
  | some .iterate => some { s with workers := s.workers.set k .checkStop }
  | some .clear => some { s with
      workers := s.workers.set k .finished
      asyncRunnerFlags := s.asyncRunnerFlags &&& ~~~RUNNING }
  | some .finished => none

/-- One step of the thread that is scheduled. -/
def step (s : State) : Op → Option State
  | .invoke i call => if s.callers i = .idle then some (s.goto i call.entry) else none
  | .caller i => s.callerStep i
  | .worker k => s.workerStep k

def run (s : State) (ops : List Op) : Option State := ops.foldlM step s

end State

/-! ### The flags -/

theorem and_or_distrib (f g h : UInt32) : (f ||| g) &&& h = (f &&& h) ||| (g &&& h) :=
  UInt32.toBitVec_inj.mp BitVec.and_or_distrib_right

theorem stop_of_or_running (f : UInt32) : (f ||| RUNNING) &&& QUEUE_STOP = f &&& QUEUE_STOP := by
  rw [and_or_distrib, show RUNNING &&& QUEUE_STOP = 0 by decide, UInt32.or_zero]

theorem running_of_or_stop (f : UInt32) : (f ||| QUEUE_STOP) &&& RUNNING = f &&& RUNNING := by
  rw [and_or_distrib, show QUEUE_STOP &&& RUNNING = 0 by decide, UInt32.or_zero]

theorem or_and_self (f g : UInt32) : (f ||| g) &&& g = g :=
  UInt32.toBitVec_inj.mp (BitVec.eq_of_getElem_eq (by simp +contextual))

theorem stop_of_clear (f : UInt32) : (f &&& ~~~RUNNING) &&& QUEUE_STOP = f &&& QUEUE_STOP := by
  rw [UInt32.and_assoc, show ~~~RUNNING &&& QUEUE_STOP = QUEUE_STOP by decide]

theorem running_of_clear (f : UInt32) : (f &&& ~~~RUNNING) &&& RUNNING = 0 := by
  rw [UInt32.and_assoc, show ~~~RUNNING &&& RUNNING = 0 by decide, UInt32.and_zero]

/-! ### A loop that has been started once -/

/-- The thread is in `RunAsync`. -/
def Caller.starts : Caller → Bool
  | .storeFlags | .createThread => true
  | _ => false

/-- The thread has announced itself and has not cleared the flag. -/
def Worker.announced : Worker → Bool
  | .checkStop | .iterate | .clear => true
  | _ => false

def Op.isRun : Op → Bool
  | .invoke _ .runAsync => true
  | _ => false

/-- `RunAsync` has been called once and is over. -/
structure Started (s : State) (w : Worker) : Prop where
  workers : s.workers = [w]
  quiet : ∀ i, (s.callers i).starts = false
  running : s.isRunningAsync = w.announced

/-- Where the worker goes next, depending on whether a stop is queued. -/
def Worker.next (stop : Bool) : Worker → Option Worker
  | .announce => some .checkStop
  | .checkStop => some (if stop then .clear else .iterate)
  | .iterate => some .checkStop
  | .clear => some .finished
  | .finished => none

/-- Where a thread that uses the loop goes next, depending on whether the loop is running. -/
def Caller.next (running : Bool) : Caller → Option Caller
  | .idle => none
  | .storeFlags => some .createThread
  | .createThread => some .idle
  | .fetchOr waits => some (.checkWakeUp waits)
  | .checkWakeUp waits => some (if waits then .checkRunning else .idle)
  | .checkRunning => some (if running then .fetchOr true else .idle)

/-- **What a step of a started loop is:** one of its worker, or one of a thread that uses it. -/
inductive StartedStep (s : State) (w : Worker) (op : Op) (s' : State) : Prop where
  | worker (w' : Worker) (hop : op = .worker 0) (hs : Started s' w')
      (hnext : w.next s.isQueuedStopAsync = some w') (hcallers : s'.callers = s.callers)
      (hstop : s'.isQueuedStopAsync = s.isQueuedStopAsync)
      (hiter : s'.iterations = s.iterations + if w' = .iterate then 1 else 0)
  | invoke (i : ℕ) (call : Call) (hop : op = .invoke i call) (hs : Started s' w)
      (hidle : s.callers i = .idle) (hcaller : s'.callers i = call.entry)
      (hothers : ∀ j ≠ i, s'.callers j = s.callers j)
      (hstop : s'.isQueuedStopAsync = s.isQueuedStopAsync) (hiter : s'.iterations = s.iterations)
  | caller (i : ℕ) (hop : op = .caller i) (hs : Started s' w)
      (hnext : (s.callers i).next s.isRunningAsync = some (s'.callers i))
      (hothers : ∀ j ≠ i, s'.callers j = s.callers j)
      (hstop : s.isQueuedStopAsync = true ∨ (∃ waits, s.callers i = .fetchOr waits) →
        s'.isQueuedStopAsync = true) (hiter : s'.iterations = s.iterations)

variable {s s' : State} {w w' : Worker} {op : Op}

/-- A thread that uses the loop goes on, outside of `RunAsync`. -/
theorem Started.goto (h : Started s w) (i : ℕ) {c : Caller} (hc : c.starts = false) :
    Started (s.goto i c) w := by
  refine ⟨h.workers, fun j => ?_, h.running⟩
  rcases eq_or_ne j i with rfl | hne
  · rw [State.goto_self, hc]
  · rw [State.goto_of_ne _ hne, h.quiet]

theorem step_started (h : Started s w) (hop : op.isRun = false) (hstep : s.step op = some s') :
    StartedStep s w op s' := by
  cases op with
  | invoke i call =>
    simp only [State.step] at hstep
    split_ifs at hstep with hidle
    obtain rfl := Option.some.inj hstep
    have hc : call.entry.starts = false := by
      cases call with
      | runAsync => cases hop
      | queueStopRunning => rfl
      | waitStopRunning => rfl
    exact .invoke i call rfl (h.goto i hc) hidle (s.goto_self i _) (fun j hne => s.goto_of_ne hne _) rfl rfl
  | caller i =>
    simp only [State.step, State.callerStep] at hstep
    cases hpc : s.callers i with
    | idle => simp [hpc] at hstep
    | storeFlags =>
      have := h.quiet i
      rw [hpc] at this
      cases this
    | createThread =>
      have := h.quiet i
      rw [hpc] at this
      cases this
    | fetchOr waits =>
      simp only [hpc, Option.some.injEq] at hstep
      obtain rfl := hstep
      have hg := h.goto i (c := .checkWakeUp waits) rfl
      have hset : ({ s.goto i (.checkWakeUp waits) with
          asyncRunnerFlags := s.asyncRunnerFlags ||| QUEUE_STOP } : State).isQueuedStopAsync = true := by
        simp only [State.isQueuedStopAsync, or_and_self]
        decide
      refine .caller i rfl ⟨hg.workers, hg.quiet, ?_⟩ (by simp [hpc, Caller.next])
        (fun j hne => s.goto_of_ne hne _) (fun _ => hset) rfl
      simp only [State.isRunningAsync, running_of_or_stop]
      exact h.running
    | checkWakeUp waits =>
      simp only [hpc, Option.some.injEq] at hstep
      obtain rfl := hstep
      exact .caller i rfl (h.goto i (by cases waits <;> rfl)) (by simp [hpc, Caller.next])
        (fun j hne => s.goto_of_ne hne _) (fun h => h.elim id fun ⟨_, hf⟩ => by simp [hpc] at hf) rfl
    | checkRunning =>
      simp only [hpc, Option.some.injEq] at hstep
      obtain rfl := hstep
      exact .caller i rfl (h.goto i (by split_ifs <;> rfl)) (by simp [hpc, Caller.next])
        (fun j hne => s.goto_of_ne hne _) (fun h => h.elim id fun ⟨_, hf⟩ => by simp [hpc] at hf) rfl
  | worker k =>
    simp only [State.step, State.workerStep, h.workers] at hstep
    obtain rfl : k = 0 := by
      cases k with
      | zero => rfl
      | succ k => simp at hstep
    simp only [List.getElem?_cons_zero, List.set_cons_zero] at hstep
    cases w with
    | announce =>
      obtain rfl := Option.some.inj hstep
      refine .worker .checkStop rfl ⟨rfl, h.quiet, ?_⟩ rfl rfl ?_ rfl
      · simp only [State.isRunningAsync, or_and_self]
        decide
      · simp only [State.isQueuedStopAsync, stop_of_or_running]
    | checkStop =>
      simp only at hstep
      split_ifs at hstep with hstop
      · obtain rfl := Option.some.inj hstep
        exact .worker .clear rfl ⟨rfl, h.quiet, h.running⟩ (by rw [hstop]; rfl) rfl rfl rfl
      · obtain rfl := Option.some.inj hstep
        exact .worker .iterate rfl ⟨rfl, h.quiet, h.running⟩
          (by rw [Bool.eq_false_of_not_eq_true hstop]; rfl) rfl rfl rfl
    | iterate =>
      obtain rfl := Option.some.inj hstep
      exact .worker .checkStop rfl ⟨rfl, h.quiet, h.running⟩ rfl rfl rfl rfl
    | clear =>
      obtain rfl := Option.some.inj hstep
      refine .worker .finished rfl ⟨rfl, h.quiet, ?_⟩ rfl rfl ?_ rfl
      · simp only [State.isRunningAsync, running_of_clear]
        decide
      · simp only [State.isQueuedStopAsync, stop_of_clear]
    | finished => cases hstep

/-- A step of a thread outside of `RunAsync`. -/
theorem callerStep_quiet {i : ℕ} (hq : (s.callers i).starts = false) (h : s.callerStep i = some s') :
    s'.workers = s.workers ∧ s'.isRunningAsync = s.isRunningAsync ∧ (s'.callers i).starts = false ∧
      ∀ j ≠ i, s'.callers j = s.callers j := by
  unfold State.callerStep at h
  cases hpc : s.callers i with
  | idle => simp [hpc] at h
  | storeFlags =>
    rw [hpc] at hq
    cases hq
  | createThread =>
    rw [hpc] at hq
    cases hq
  | fetchOr waits =>
    simp only [hpc, Option.some.injEq] at h
    obtain rfl := h
    refine ⟨rfl, ?_, by simp [Caller.starts], fun j hne => s.goto_of_ne hne _⟩
    simp only [State.isRunningAsync, running_of_or_stop]
  | checkWakeUp waits =>
    simp only [hpc, Option.some.injEq] at h
    obtain rfl := h
    exact ⟨rfl, rfl, by cases waits <;> simp [Caller.starts], fun j hne => s.goto_of_ne hne _⟩
  | checkRunning =>
    simp only [hpc, Option.some.injEq] at h
    obtain rfl := h
    refine ⟨rfl, rfl, ?_, fun j hne => s.goto_of_ne hne _⟩
    rw [State.goto_self]
    split_ifs <;> rfl

/-- A loop on which `RunAsync` has been called `n` times, at most once. -/
inductive Phase : ℕ → State → Prop where
  | fresh (s : State) (hworkers : s.workers = []) (hquiet : ∀ i, (s.callers i).starts = false)
      (hrunning : s.isRunningAsync = false) : Phase 0 s
  | starting (s : State) (j : ℕ) (hworkers : s.workers = []) (hstarts : (s.callers j).starts = true)
      (hquiet : ∀ i ≠ j, (s.callers i).starts = false) (hrunning : s.isRunningAsync = false) : Phase 1 s
  | started (s : State) (w : Worker) (h : Started s w) : Phase 1 s

/-- Before the thread is created, a step outside of `RunAsync` neither starts nor announces
anything. -/
theorem step_quiet (hworkers : s.workers = []) (hop : op.isRun = false)
    (hq : ∀ i, op = .caller i → (s.callers i).starts = false) (hstep : s.step op = some s') :
    s'.workers = [] ∧ s'.isRunningAsync = s.isRunningAsync ∧
      ∀ j, (s'.callers j).starts = (s.callers j).starts := by
  cases op with
  | invoke i call =>
    simp only [State.step] at hstep
    split_ifs at hstep with hidle
    obtain rfl := Option.some.inj hstep
    refine ⟨hworkers, rfl, fun j => ?_⟩
    rcases eq_or_ne j i with rfl | hne
    · rw [State.goto_self, hidle]
      cases call with
      | runAsync => cases hop
      | queueStopRunning => rfl
      | waitStopRunning => rfl
    · rw [s.goto_of_ne hne]
  | caller i =>
    obtain ⟨hw, hr, hc, hothers⟩ := callerStep_quiet (hq i rfl) hstep
    refine ⟨hw.trans hworkers, hr, fun j => ?_⟩
    rcases eq_or_ne j i with rfl | hne
    · rw [hc, hq j rfl]
    · rw [hothers j hne]
  | worker k => simp [State.step, State.workerStep, hworkers] at hstep

/-- The two steps of `RunAsync`. -/
theorem step_starting {j : ℕ} (hworkers : s.workers = []) (hstarts : (s.callers j).starts = true)
    (hquiet : ∀ i ≠ j, (s.callers i).starts = false) (hrunning : s.isRunningAsync = false)
    (hstep : s.step (.caller j) = some s') : Phase 1 s' := by
  simp only [State.step, State.callerStep] at hstep
  have hothers : ∀ c, ∀ i ≠ j, ((s.goto j c).callers i).starts = false := fun c i hne => by
    rw [s.goto_of_ne hne, hquiet i hne]
  cases hpc : s.callers j with
  | storeFlags =>
    simp only [hpc, Option.some.injEq] at hstep
    obtain rfl := hstep
    exact .starting _ j hworkers (by simp [Caller.starts]) (hothers _) (by simp [State.isRunningAsync])
  | createThread =>
    simp only [hpc, Option.some.injEq] at hstep
    obtain rfl := hstep
    refine .started _ .announce ⟨by simp [hworkers], fun i => ?_, hrunning⟩
    rcases eq_or_ne i j with rfl | hne
    · simp [Caller.starts]
    · exact hothers .idle i hne
  | idle => simp [hpc, Caller.starts] at hstarts
  | fetchOr waits => simp [hpc, Caller.starts] at hstarts
  | checkWakeUp waits => simp [hpc, Caller.starts] at hstarts
  | checkRunning => simp [hpc, Caller.starts] at hstarts

/-- **Every step keeps the phase, or starts the loop.** -/
theorem step_phase {n : ℕ} (h : Phase n s) (hn : n + (if op.isRun then 1 else 0) ≤ 1)
    (hstep : s.step op = some s') : Phase (n + if op.isRun then 1 else 0) s' := by
  cases hop : op.isRun with
  | true =>
    rw [hop] at hn
    cases h with
    | fresh _ hworkers hquiet hrunning =>
      obtain ⟨i, rfl⟩ : ∃ i, op = .invoke i .runAsync := by
        cases op with
        | invoke i call => cases call <;> simp_all [Op.isRun]
        | caller i => cases hop
        | worker k => cases hop
      simp only [State.step] at hstep
      split_ifs at hstep with hidle
      obtain rfl := Option.some.inj hstep
      exact .starting _ i hworkers (by simp [Call.entry, Caller.starts])
        (fun j hne => by rw [s.goto_of_ne hne, hquiet]) hrunning
    | starting _ j hworkers hstarts hquiet hrunning => simp at hn
    | started _ w h => simp at hn
  | false =>
    rw [if_neg Bool.false_ne_true, Nat.add_zero]
    cases h with
    | fresh _ hworkers hquiet hrunning =>
      obtain ⟨hw, hr, hs⟩ := step_quiet hworkers hop (fun i _ => hquiet i) hstep
      exact .fresh s' hw (fun i => (hs i).trans (hquiet i)) (hr.trans hrunning)
    | starting _ j hworkers hstarts hquiet hrunning =>
      by_cases hj : op = .caller j
      · subst hj
        exact step_starting hworkers hstarts hquiet hrunning hstep
      · obtain ⟨hw, hr, hs⟩ := step_quiet hworkers hop (fun i hi => hquiet i fun heq => hj (heq ▸ hi)) hstep
        exact .starting s' j hw ((hs j).trans hstarts) (fun i hne => (hs i).trans (hquiet i hne))
          (hr.trans hrunning)
    | started _ w h =>
      cases step_started h hop hstep with
      | worker w' _ hs => exact .started s' w' hs
      | invoke i call _ hs => exact .started s' w hs
      | caller i _ hs => exact .started s' w hs

theorem run_phase {n : ℕ} (ops : List Op) (h : Phase n s) (hn : n + ops.countP Op.isRun ≤ 1)
    (hrun : s.run ops = some s') : Phase (n + ops.countP Op.isRun) s' := by
  induction ops generalizing s n with
  | nil =>
    obtain rfl := Option.some.inj hrun
    exact h
  | cons op ops ih =>
    obtain ⟨s₁, hstep, hrun⟩ := foldlM_cons_eq_some.mp hrun
    have hcount : n + (op :: ops).countP Op.isRun =
        (n + if op.isRun then 1 else 0) + ops.countP Op.isRun := by
      rw [List.countP_cons]
      omega
    rw [hcount] at hn ⊢
    exact ih (step_phase h (by omega) hstep) hn hrun

theorem init_phase : Phase 0 {} := .fresh _ rfl (fun _ => rfl) rfl

/-- What a loop is on which `RunAsync` has created its thread: started, and no other call of
`RunAsync` may follow. -/
theorem started_of_run {pre post : List Op} (honce : (pre ++ post).countP Op.isRun ≤ 1)
    (hrun : State.run {} pre = some s) (hworkers : s.workers ≠ []) :
    (∃ w, Started s w) ∧ ∀ op ∈ post, op.isRun = false := by
  rw [List.countP_append] at honce
  have hphase := run_phase pre init_phase (by omega) hrun
  rw [Nat.zero_add] at hphase
  generalize hn : pre.countP Op.isRun = n at hphase honce
  cases hphase with
  | fresh _ hnil => exact absurd hnil hworkers
  | starting _ j hnil => exact absurd hnil hworkers
  | started _ w h =>
    have hzero : post.countP Op.isRun = 0 := by omega
    exact ⟨⟨w, h⟩, fun op hop => Bool.eq_false_of_not_eq_true (List.countP_eq_zero.mp hzero op hop)⟩

/-! ### A stop that has been waited for is final -/

/-- A stop is queued, and the worker is not in an iteration. -/
def Final (s : State) (w : Worker) : Prop := s.isQueuedStopAsync = true ∧ w ≠ .iterate

/-- The thread waits and has queued its stop, or will; or it has returned, and the stop is final. -/
def Waits (i : ℕ) (s : State) (w : Worker) : Prop :=
  s.callers i = .fetchOr true ∨
    (s.isQueuedStopAsync = true ∧ (s.callers i = .checkWakeUp true ∨ s.callers i = .checkRunning)) ∨
    Final s w

/-- A worker that finds the stop does not iterate. -/
theorem Final.step (h : Final s w) (hstep : StartedStep s w op s') :
    ∃ w', Started s' w' ∧ Final s' w' ∧ s'.iterations = s.iterations := by
  cases hstep with
  | worker w' hop hs hnext hcallers hstop hiter =>
    have hne : w' ≠ .iterate := by
      rw [h.1] at hnext
      rintro rfl
      cases w <;> simp [Worker.next] at hnext
    exact ⟨w', hs, ⟨hstop.trans h.1, hne⟩, by rw [hiter, if_neg hne, Nat.add_zero]⟩
  | invoke i call hop hs hidle hcaller hothers hstop hiter =>
    exact ⟨w, hs, ⟨hstop.trans h.1, h.2⟩, hiter⟩
  | caller i hop hs hnext hothers hstop hiter => exact ⟨w, hs, ⟨hstop (.inl h.1), h.2⟩, hiter⟩

/-- **A wait ends only when the stop is final.** -/
theorem Waits.step {i : ℕ} (hst : Started s w) (h : Waits i s w) (hstep : StartedStep s w op s') :
    ∃ w', Started s' w' ∧ Waits i s' w' := by
  rcases h with hfetch | ⟨hqueued, hpc⟩ | hfinal
  · cases hstep with
    | worker w' hop hs hnext hcallers => exact ⟨w', hs, .inl (by rw [hcallers, hfetch])⟩
    | invoke j call hop hs hidle hcaller hothers =>
      refine ⟨w, hs, .inl ?_⟩
      rw [hothers i (fun heq => by rw [← heq, hfetch] at hidle; cases hidle), hfetch]
    | caller j hop hs hnext hothers hstop =>
      refine ⟨w, hs, ?_⟩
      rcases eq_or_ne i j with rfl | hne
      · rw [hfetch, Caller.next, Option.some.injEq] at hnext
        exact .inr (.inl ⟨hstop (.inr ⟨true, hfetch⟩), .inl hnext.symm⟩)
      · exact .inl (by rw [hothers i hne, hfetch])
  · cases hstep with
    | worker w' hop hs hnext hcallers hstop =>
      exact ⟨w', hs, .inr (.inl ⟨hstop.trans hqueued, by rwa [hcallers]⟩)⟩
    | invoke j call hop hs hidle hcaller hothers hstop =>
      have hne : i ≠ j := fun heq => by
        rw [← heq] at hidle
        rw [hidle] at hpc
        rcases hpc with hpc | hpc <;> cases hpc
      exact ⟨w, hs, .inr (.inl ⟨hstop.trans hqueued, by rwa [hothers i hne]⟩)⟩
    | caller j hop hs hnext hothers hstop =>
      refine ⟨w, hs, ?_⟩
      have hqueued' := hstop (.inl hqueued)
      rcases eq_or_ne i j with rfl | hne
      · rcases hpc with hpc | hpc
        · rw [hpc, Caller.next, Option.some.injEq] at hnext
          exact .inr (.inl ⟨hqueued', .inr hnext.symm⟩)
        · -- the load of the loop: a worker that runs makes it go round again
          rw [hpc, Caller.next, Option.some.injEq, hst.running] at hnext
          cases hw : w.announced with
          | true =>
            rw [hw, if_pos rfl] at hnext
            exact .inl hnext.symm
          | false =>
            refine .inr (.inr ⟨hqueued', ?_⟩)
            rintro rfl
            cases hw
      · exact .inr (.inl ⟨hqueued', by rwa [hothers i hne]⟩)
  · obtain ⟨w', hs, hfinal', -⟩ := hfinal.step hstep
    exact ⟨w', hs, .inr (.inr hfinal')⟩

/-- What every step of a started loop keeps, every run keeps. -/
theorem run_started {P : State → Worker → Prop}
    (hP : ∀ {s s' w op}, Started s w → P s w → StartedStep s w op s' → ∃ w', Started s' w' ∧ P s' w')
    (ops : List Op) (hops : ∀ op ∈ ops, op.isRun = false) (hs : Started s w) (h : P s w)
    (hrun : s.run ops = some s') : ∃ w', Started s' w' ∧ P s' w' := by
  have hstep : ∀ s op s', (∃ w, Started s w ∧ P s w) → op.isRun = false → s.step op = some s' →
      ∃ w, Started s' w ∧ P s' w := by
    rintro s op s' ⟨w, hs, h⟩ hop hstep
    exact hP hs h (step_started hs hop hstep)
  exact run_invariant_along (I := fun s => ∃ w, Started s w ∧ P s w) hstep ops ⟨w, hs, h⟩
    (.of_forall_mem s hops) hrun

/-- **A stop that has been waited for is final.**  `RunAsync` is called once and has created its
thread.  Whatever any number of threads do then with `QueueStopRunning` and `WaitStopRunning`:
once a `WaitStopRunning` that begins now has returned, no iteration is under way and none begins
again, also if the thread had not even announced itself when the wait returned. -/
theorem stop_is_final (pre mid post : List Op) (i : ℕ)
    (honce : (pre ++ (mid ++ post)).countP Op.isRun ≤ 1) {s s₁ s₂ : State}
    (hpre : State.run {} pre = some s) (hworkers : s.workers ≠ [])
    (hmid : s.run (.invoke i .waitStopRunning :: mid) = some s₁) (hidle : s₁.callers i = .idle)
    (hpost : s₁.run post = some s₂) :
    s₂.iterations = s₁.iterations ∧ Worker.iterate ∉ s₂.workers := by
  obtain ⟨⟨w, hs⟩, hops⟩ := started_of_run honce hpre hworkers
  obtain ⟨s₀, hinvoke, hmid⟩ := foldlM_cons_eq_some.mp hmid
  have hinvoked : Started s₀ w ∧ Waits i s₀ w := by
    simp only [State.step] at hinvoke
    split_ifs at hinvoke
    obtain rfl := Option.some.inj hinvoke
    exact ⟨hs.goto i rfl, .inl (s.goto_self i _)⟩
  obtain ⟨w₁, hs₁, hwaits⟩ := run_started (P := Waits i) (fun hs h hstep => h.step hs hstep) mid
    (fun op hop => hops op (List.mem_append_left _ hop)) hinvoked.1 hinvoked.2 hmid
  have hfinal : Final s₁ w₁ := by
    rcases hwaits with hpc | ⟨-, hpc⟩ | hfinal
    · rw [hidle] at hpc
      cases hpc
    · rw [hidle] at hpc
      rcases hpc with hpc | hpc <;> cases hpc
    · exact hfinal
  obtain ⟨w₂, hs₂, hfinal₂, hiter⟩ := run_started (P := fun s w => Final s w ∧ s.iterations = s₁.iterations)
    (fun _ h hstep => by
      obtain ⟨w', hs', hf, hi⟩ := h.1.step hstep
      exact ⟨w', hs', hf, hi.trans h.2⟩) post
    (fun op hop => hops op (List.mem_append_right _ hop)) hs₁ ⟨hfinal, rfl⟩ hpost
  refine ⟨hiter, ?_⟩
  rw [hs₂.workers, List.mem_singleton]
  exact fun h => hfinal₂.2 h.symm

/-- The wait of one thread returns before the worker has announced itself, while another thread
queues a stop too; the worker then runs into the stop. -/
theorem stop_is_final_early : ∃ s s₁ s₂ : State,
    State.run {} [.invoke 0 .runAsync, .caller 0, .caller 0] = some s ∧
      s.run (.invoke 0 .waitStopRunning :: [.caller 0, .invoke 1 .queueStopRunning, .caller 0, .caller 0]) =
        some s₁ ∧
      s₁.run [.worker 0, .worker 0, .caller 1, .worker 0] = some s₂ ∧ s₁.workers = [.announce] ∧
      s₂.workers = [.finished] ∧ s₂.iterations = 0 := by
  refine ⟨_, _, _, rfl, rfl, rfl, rfl, rfl, (stop_is_final
    [.invoke 0 .runAsync, .caller 0, .caller 0] [.caller 0, .invoke 1 .queueStopRunning, .caller 0, .caller 0]
    [.worker 0, .worker 0, .caller 1, .worker 0] 0 (by decide) rfl (by simp) rfl (by decide) rfl).1.trans rfl⟩

/-! ### Stopping ends -/

/-- The steps that a worker takes at most once a stop is queued. -/
def Worker.rank : Worker → ℕ
  | .announce | .iterate => 3
  | .checkStop => 2
  | .clear => 1
  | .finished => 0

/-- The steps that a thread takes at most in its call once the loop does not run. -/
def Caller.rank : Caller → ℕ
  | .idle => 0
  | .storeFlags => 2
  | .createThread => 1
  | .fetchOr waits => if waits then 3 else 2
  | .checkWakeUp waits => if waits then 2 else 1
  | .checkRunning => 1

theorem Worker.next_rank (h : w.next true = some w') : w'.rank < w.rank := by
  cases w <;> simp only [Worker.next, Option.some.injEq, reduceCtorEq, if_true] at h <;>
    subst h <;> decide

theorem Caller.next_rank {c c' : Caller} (h : c.next false = some c') : c'.rank < c.rank := by
  cases c <;> simp only [Caller.next, Option.some.injEq, reduceCtorEq] at h <;> subst h
  · decide
  · decide
  · rename_i waits
    cases waits <;> decide
  · rename_i waits
    cases waits <;> decide
  · decide

/-- **The worker of a loop with a queued stop** is at its end after a few steps of its own. -/
theorem worker_steps (ops : List Op) (hops : ∀ op ∈ ops, op.isRun = false) (hs : Started s w)
    (hstop : s.isQueuedStopAsync = true) (hrun : s.run ops = some s') : ops.count (.worker 0) ≤ w.rank := by
  induction ops generalizing s w with
  | nil => exact Nat.zero_le _
  | cons op ops ih =>
    obtain ⟨s₁, hstep, hlater⟩ := foldlM_cons_eq_some.mp hrun
    have hrest : ∀ op ∈ ops, op.isRun = false := fun op' hop => hops op' (List.mem_cons_of_mem _ hop)
    cases step_started hs (hops op List.mem_cons_self) hstep with
    | worker w' hop hs' hnext hcallers hstop' =>
      subst hop
      have hle := ih hrest hs' (hstop'.trans hstop) hlater
      rw [hstop] at hnext
      have hlt := Worker.next_rank hnext
      rw [List.count_cons_self]
      omega
    | invoke i call hop hs' hidle hcaller hothers hstop' =>
      rw [List.count_cons_of_ne (by rw [hop]; simp)]
      exact ih hrest hs' (hstop'.trans hstop) hlater
    | caller i hop hs' hnext hothers hstop' =>
      rw [List.count_cons_of_ne (by rw [hop]; simp)]
      exact ih hrest hs' (hstop' (.inl hstop)) hlater

/-- **A thread that waits for a loop that is over** returns after a few steps of its own. -/
theorem caller_steps (i : ℕ) (ops : List Op) (hops : ∀ op ∈ ops, op.isRun = false)
    (hi : ∀ call, .invoke i call ∉ ops) (hs : Started s .finished) (hrun : s.run ops = some s') :
    ops.count (.caller i) ≤ (s.callers i).rank := by
  induction ops generalizing s with
  | nil => exact Nat.zero_le _
  | cons op ops ih =>
    obtain ⟨s₁, hstep, hlater⟩ := foldlM_cons_eq_some.mp hrun
    have hrest : ∀ op ∈ ops, op.isRun = false := fun op' hop => hops op' (List.mem_cons_of_mem _ hop)
    have hi' : ∀ call, .invoke i call ∉ ops := fun call hc => hi call (List.mem_cons_of_mem _ hc)
    cases step_started hs (hops op List.mem_cons_self) hstep with
    | worker w' hop hs' hnext => cases hnext
    | invoke j call hop hs' hidle hcaller hothers =>
      have hne : i ≠ j := fun heq => hi call (by rw [heq, ← hop]; exact List.mem_cons_self)
      rw [List.count_cons_of_ne (by rw [hop]; simp), ← hothers i hne]
      exact ih hrest hi' hs' hlater
    | caller j hop hs' hnext hothers =>
      subst hop
      have hle := ih hrest hi' hs' hlater
      rcases eq_or_ne i j with rfl | hne
      · rw [hs.running] at hnext
        have hlt := Caller.next_rank hnext
        rw [List.count_cons_self]
        omega
      · rw [hothers i hne] at hle
        rwa [List.count_cons_of_ne (by simp [hne.symm])]

/-- The thread ends its iteration, and then the wait ends. -/
def afterStop : List Op :=
  [.caller 0, .worker 0, .worker 0, .caller 0, .worker 0, .caller 0, .caller 0, .caller 0]

/-- Started twice, the loop runs on after the wait has returned. -/
example : (State.run {} [.invoke 0 .runAsync, .caller 0, .caller 0, .worker 0, .invoke 1 .waitStopRunning,
    .caller 1, .invoke 0 .runAsync, .caller 0, .caller 1, .caller 1, .worker 0]).map
      (fun s => (s.callers 1, s.workers)) = some (.idle, [.iterate]) := by decide

end AsyncRunner
end ICon7
