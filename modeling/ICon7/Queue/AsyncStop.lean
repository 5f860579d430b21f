/-
# Stopping asynchronous execution

`RunAsyncExecution`, `ExecuteLoop`, `QueueStopAsyncExecution` and
`WaitStopAsyncExecution` in `src/CommandExecutionQueue.cpp`, as steps of two threads over
`asyncExecutionFlags`: the caller starts the execution and then waits until it has
stopped, and the worker is the detached thread, which begins whenever the system lets it.
Each load, store and fetch-or is one step.

The worker announces itself by a plain store of `IS_RUNNING`.  A stop that is requested
before that store is overwritten by it, and a wait that is over before that store has not
waited for anything; so the order of the store and the request decides whether the stop
is final (`execute_after_return_iff`).
-/

import ICon7.Lib.Run

namespace ICon7
namespace AsyncExecution

def IS_RUNNING : UInt32 := 2
def QUEUE_STOP : UInt32 := 4
def STOPPED : UInt32 := 0

/-- Where the thread that starts and stops the execution is: before `RunAsyncExecution`, before
the fetch-or of `QueueStopAsyncExecution`, before a load of `IsRunningAsync`, and behind
`WaitStopAsyncExecution`. -/
inductive Caller where
  | run
  | stop
  | wait
  | returned
deriving DecidableEq, Repr

/-- Where the detached thread is: not created yet, or before the next access of `ExecuteLoop`.  The
three `nested` ones are in the `WaitStopAsyncExecution` that `ExecuteLoop` calls. -/
inductive Worker where
  | notStarted
  | start
  | checkRunning
  | checkQueueStop
  | nestedStop
  | nestedWait
  | nestedCheck
  | storeRunning
  | checkFlags
  | execute
  | storeStopped
  | finished
deriving DecidableEq, Repr

/-- The worker has stored `IS_RUNNING`. -/
def Worker.stored : Worker → Bool
  | .checkFlags | .execute | .storeStopped | .finished => true
  | _ => false

structure State where
  queue : Bool := true
  asyncExecutionFlags : UInt32 := STOPPED
  caller : Caller := .run
  worker : Worker := .notStarted
  executes : ℕ := 0
deriving DecidableEq, Repr

namespace State

/-- The next access of the caller. -/
def callerStep (s : State) : Option State :=
  match s.caller with
  | .run =>
    if s.queue then some { s with caller := .stop, worker := .start }
    else some { s with caller := .stop }
  | .stop => some { s with caller := .wait, asyncExecutionFlags := s.asyncExecutionFlags ||| QUEUE_STOP }
  | .wait =>
    if s.asyncExecutionFlags &&& IS_RUNNING ≠ 0 then some s else some { s with caller := .returned }
  | .returned => none

/-- The next access of `ExecuteLoop`; `executes` counts the calls of `Execute(1024)`. -/
def workerStep (s : State) : Option State :=
  match s.worker with
  | .notStarted => none
  | .start =>
    if s.queue then some { s with worker := .checkRunning } else some { s with worker := .finished }
  | .checkRunning =>
    if s.asyncExecutionFlags &&& IS_RUNNING ≠ 0 then some { s with worker := .checkQueueStop }
    else some { s with worker := .storeRunning }
  | .checkQueueStop =>
    if s.asyncExecutionFlags &&& QUEUE_STOP = 0 then some { s with worker := .finished }
    else some { s with worker := .nestedStop }
  | .nestedStop =>
    some { s with worker := .nestedWait, asyncExecutionFlags := s.asyncExecutionFlags ||| QUEUE_STOP }
  | .nestedWait =>
    if s.asyncExecutionFlags &&& IS_RUNNING ≠ 0 then some s
    else some { s with worker := .nestedCheck }
  | .nestedCheck =>
    if s.asyncExecutionFlags &&& IS_RUNNING ≠ 0 then some { s with worker := .finished }
    else some { s with worker := .storeRunning }
  | .storeRunning => some { s with worker := .checkFlags, asyncExecutionFlags := IS_RUNNING }
  | .checkFlags =>
    if s.asyncExecutionFlags = IS_RUNNING then some { s with worker := .execute }
    else some { s with worker := .storeStopped }
  | .execute => some { s with worker := .checkFlags, executes := s.executes + 1 }
  | .storeStopped => some { s with worker := .finished, asyncExecutionFlags := STOPPED }
  | .finished => none

inductive Thread where
  | caller
  | worker
deriving DecidableEq, Repr

/-- One step of the thread that is scheduled. -/
def step (s : State) : Thread → Option State
  | .caller => s.callerStep
  | .worker => s.workerStep

def run (s : State) (schedule : List Thread) : Option State := schedule.foldlM step s

/-- The state in which the caller requests the stop. -/
def atStop (s : State) : List Thread → Option State
  | [] => none
  | a :: schedule =>
    if a = .caller ∧ s.caller = .stop then some s
    else do (← s.step a).atStop schedule

/-! ### Before and after the request -/

/-- The worker has not been told to stop: it is on its way to the store of `IS_RUNNING`, or it has
stored it and nothing else has been stored since. -/
inductive Unstopped (c : Caller) : State → Prop where
  | announcing (f : UInt32) (w : Worker) (n : ℕ) (hf : f &&& IS_RUNNING = 0)
      (hw : w = .start ∨ w = .checkRunning ∨ w = .storeRunning) : Unstopped c ⟨true, f, c, w, n⟩
  | looping (w : Worker) (n : ℕ) (hw : w = .checkFlags ∨ w = .execute) :
      Unstopped c ⟨true, IS_RUNNING, c, w, n⟩

/-- Until the request only the worker sets flags. -/
inductive Before : State → Prop where
  | init (f : UInt32) (n : ℕ) (hf : f &&& IS_RUNNING = 0) : Before ⟨true, f, .run, .notStarted, n⟩
  | unstopped (s : State) (h : Unstopped .stop s) : Before s

/-- The request came after the store: the worker sees it at its next check and clears the flags,
and the caller returns only after that. -/
inductive Heard : State → Prop where
  | looping (q : Bool) (w : Worker) (n : ℕ) (hw : w = .checkFlags ∨ w = .execute ∨ w = .storeStopped) :
      Heard ⟨q, IS_RUNNING ||| QUEUE_STOP, .wait, w, n⟩
  | finished (q : Bool) (c : Caller) (n : ℕ) (hc : c = .wait ∨ c = .returned) :
      Heard ⟨q, STOPPED, c, .finished, n⟩

/-- The request came before the store: nothing will ever stop the worker. -/
def Lost (s : State) : Prop := Unstopped .wait s ∨ Unstopped .returned s

variable {s t : State} {a : Thread} {c : Caller}

theorem or_queueStop_and_isRunning (f : UInt32) : (f ||| QUEUE_STOP) &&& IS_RUNNING = f &&& IS_RUNNING := by
  have h : (f ||| QUEUE_STOP) &&& IS_RUNNING = (f &&& IS_RUNNING) ||| (QUEUE_STOP &&& IS_RUNNING) :=
    UInt32.toBitVec_inj.mp BitVec.and_or_distrib_right
  rw [h, show QUEUE_STOP &&& IS_RUNNING = 0 from rfl, UInt32.or_zero]

/-- `WaitStopAsyncExecution` waits while it sees `IS_RUNNING`, and no longer. -/
theorem step_wait_of_running {f : UInt32} (q : Bool) (w : Worker) (n : ℕ) (hf : f &&& IS_RUNNING ≠ 0) :
    State.step ⟨q, f, .wait, w, n⟩ .caller = some ⟨q, f, .wait, w, n⟩ := if_pos hf

theorem step_wait_of_not_running {f : UInt32} (q : Bool) (w : Worker) (n : ℕ)
    (hf : f &&& IS_RUNNING = 0) :
    State.step ⟨q, f, .wait, w, n⟩ .caller = some ⟨q, f, .returned, w, n⟩ := if_neg (not_not_intro hf)

/-- The worker goes on: to the store, and from then on around its loop. -/
theorem Unstopped.workerStep (h : Unstopped c s) (hstep : s.workerStep = some t) : Unstopped c t := by
  cases h with
  | announcing f w n hf hw =>
    rcases hw with rfl | rfl | rfl
    · obtain rfl := Option.some.inj hstep
      exact .announcing f _ n hf (.inr (.inl rfl))
    · rw [State.workerStep, if_neg (not_not_intro hf)] at hstep
      obtain rfl := Option.some.inj hstep
      exact .announcing f _ n hf (.inr (.inr rfl))
    · obtain rfl := Option.some.inj hstep
      exact .looping _ n (.inl rfl)
  | looping w n hw =>
    rcases hw with rfl | rfl
    · obtain rfl := Option.some.inj hstep
      exact .looping _ n (.inr rfl)
    · obtain rfl := Option.some.inj hstep
      exact .looping _ (n + 1) (.inl rfl)

/-- An unstopped worker is one check away from `Execute(1024)`, or on its way there. -/
theorem Unstopped.executes (h : Unstopped c s) :
    ∃ schedule t, s.run schedule = some t ∧ s.executes < t.executes := by
  cases h with
  | looping w n hw =>
    rcases hw with rfl | rfl
    · exact ⟨[.worker, .worker], _, rfl, Nat.lt_succ_self n⟩
    · exact ⟨[.worker], _, rfl, Nat.lt_succ_self n⟩
  | announcing f w n hf hw =>
    have hstore : State.run ⟨true, f, c, .storeRunning, n⟩ [.worker, .worker, .worker] =
        some ⟨true, IS_RUNNING, c, .checkFlags, n + 1⟩ := rfl
    have hcheck : State.step ⟨true, f, c, .checkRunning, n⟩ .worker =
        some ⟨true, f, c, .storeRunning, n⟩ := if_neg (not_not_intro hf)
    rcases hw with rfl | rfl | rfl
    · exact ⟨[.worker, .worker, .worker, .worker, .worker], _,
        Lib.foldlM_cons_eq_some.2 ⟨_, rfl, Lib.foldlM_cons_eq_some.2 ⟨_, hcheck, hstore⟩⟩,
        Nat.lt_succ_self n⟩
    · exact ⟨[.worker, .worker, .worker, .worker], _, Lib.foldlM_cons_eq_some.2 ⟨_, hcheck, hstore⟩,
        Nat.lt_succ_self n⟩
    · exact ⟨[.worker, .worker, .worker], _, hstore, Nat.lt_succ_self n⟩

/-- A step before the request, other than the request. -/
theorem Before.step (h : s.Before) (hne : ¬(a = .caller ∧ s.caller = .stop))
    (hstep : s.step a = some t) : t.Before := by
  cases h with
  | init f n hf =>
    cases a with
    | caller =>
      obtain rfl := Option.some.inj hstep
      exact .unstopped _ (.announcing f _ n hf (.inl rfl))
    | worker => cases hstep
  | unstopped s h =>
    cases a with
    | caller => exact absurd ⟨rfl, by cases h <;> rfl⟩ hne
    | worker => exact .unstopped t (h.workerStep hstep)

/-- The request, heard or lost according to whether the worker has announced itself. -/
theorem Before.request (h : s.Before) (hc : s.caller = .stop) (hstep : s.step .caller = some t) :
    (s.worker.stored → t.Heard) ∧ (¬s.worker.stored → t.Lost) := by
  cases h with
  | init f n hf => cases hc
  | unstopped s h =>
    cases h with
    | announcing f w n hf hw =>
      obtain rfl := Option.some.inj hstep
      refine ⟨fun hw' => ?_, fun _ => Or.inl (.announcing _ w n ?_ hw)⟩
      · rcases hw with rfl | rfl | rfl <;> cases hw'
      · rw [or_queueStop_and_isRunning, hf]
    | looping w n hw =>
      obtain rfl := Option.some.inj hstep
      refine ⟨fun _ => .looping true w n (hw.imp_right Or.inl), fun hno => absurd ?_ hno⟩
      rcases hw with rfl | rfl <;> rfl

/-- A request that is heard stays so. -/
theorem Heard.step (h : s.Heard) (hstep : s.step a = some t) : t.Heard := by
  cases h with
  | looping q w n hw =>
    cases a with
    | caller =>
      rw [step_wait_of_running _ _ _ (by decide)] at hstep
      obtain rfl := Option.some.inj hstep
      exact .looping q w n hw
    | worker =>
      rcases hw with rfl | rfl | rfl
      · obtain rfl := Option.some.inj hstep
        exact .looping q _ n (.inr (.inr rfl))
      · obtain rfl := Option.some.inj hstep
        exact .looping q _ (n + 1) (.inl rfl)
      · obtain rfl := Option.some.inj hstep
        exact .finished q _ n (.inl rfl)
  | finished q c n hc =>
    cases a with
    | caller =>
      rcases hc with rfl | rfl
      · rw [step_wait_of_not_running _ _ _ (by decide)] at hstep
        obtain rfl := Option.some.inj hstep
        exact .finished q _ n (.inr rfl)
      · cases hstep
    | worker => cases hstep

/-- A request that is lost stays so. -/
theorem Lost.step (h : s.Lost) (hstep : s.step a = some t) : t.Lost := by
  cases a with
  | worker => exact h.imp (·.workerStep hstep) (·.workerStep hstep)
  | caller =>
    rcases h with h | h
    · -- the caller sees whether the worker has announced itself, and returns if it has not
      cases h with
      | announcing f w n hf hw =>
        rw [step_wait_of_not_running _ _ _ hf] at hstep
        obtain rfl := Option.some.inj hstep
        exact Or.inr (.announcing f w n hf hw)
      | looping w n hw =>
        rw [step_wait_of_running _ _ _ (by decide)] at hstep
        obtain rfl := Option.some.inj hstep
        exact Or.inl (.looping w n hw)
    · cases h <;> cases hstep

/-! ### Whether a stop is final -/

/-- **The request decides.**  A run in which the caller has requested the stop ends heard or lost
according to where the worker was at the request. -/
theorem heard_or_lost (h : s.Before) (schedule : List Thread) {u : State}
    (hu : s.atStop schedule = some u) (hrun : s.run schedule = some t) :
    (u.worker.stored → t.Heard) ∧ (¬u.worker.stored → t.Lost) := by
  induction schedule generalizing s with
  | nil => cases hu
  | cons a schedule ih =>
    obtain ⟨v, hv, hrest⟩ := Lib.foldlM_cons_eq_some.1 hrun
    unfold atStop at hu
    split_ifs at hu with hreq
    · obtain rfl := Option.some.inj hu
      obtain ⟨rfl, hc⟩ := hreq
      obtain ⟨hheard, hlost⟩ := h.request hc hv
      exact ⟨fun hw => Lib.run_invariant (fun _ _ _ h => h.step) schedule (hheard hw) hrest,
        fun hw => Lib.run_invariant (fun _ _ _ h => h.step) schedule (hlost hw) hrest⟩
    · obtain ⟨v', hv', hu⟩ := Option.bind_eq_some_iff.1 hu
      obtain rfl := Option.some.inj (hv.symm.trans hv')
      exact ih (h.step hreq hv) hu hrest

/-- A caller that has returned has requested the stop. -/
theorem exists_atStop (h : s.Before) (schedule : List Thread) (hrun : s.run schedule = some t)
    (hret : t.caller = .returned) : ∃ u, s.atStop schedule = some u := by
  induction schedule generalizing s with
  | nil =>
    obtain rfl := Option.some.inj hrun
    cases h with
    | init f n hf => cases hret
    | unstopped s h => cases h <;> cases hret
  | cons a schedule ih =>
    obtain ⟨v, hv, hrun⟩ := Lib.foldlM_cons_eq_some.1 hrun
    unfold atStop
    split_ifs with hreq
    · exact ⟨s, rfl⟩
    · obtain ⟨u, hu⟩ := ih (h.step hreq hv) hrun
      exact ⟨u, Option.bind_eq_some_iff.2 ⟨v, hv, hu⟩⟩

/-- A stop that was heard is final once the caller has returned. -/
theorem Heard.final (h : s.Heard) (hret : s.caller = .returned) (schedule : List Thread)
    (hrun : s.run schedule = some t) : t.executes = s.executes := by
  cases h with
  | looping q w n hw => cases hret
  | finished q c n hc =>
    obtain rfl : c = .returned := hret
    cases schedule with
    | nil =>
      obtain rfl := Option.some.inj hrun
      rfl
    | cons a schedule =>
      obtain ⟨v, hv, -⟩ := Lib.foldlM_cons_eq_some.1 hrun
      cases a <;> cases hv

/-- **A stop is final exactly if it was requested after the worker had announced itself.**  When
`WaitStopAsyncExecution` has returned, `Execute(1024)` is never called again, in any continuation, if
and only if the worker had stored `IS_RUNNING` when the caller set `QUEUE_STOP`. -/
theorem execute_after_return_iff (flags : UInt32) (hflags : flags &&& IS_RUNNING = 0)
    (schedule : List Thread) (hrun : State.run { asyncExecutionFlags := flags } schedule = some s)
    (hret : s.caller = .returned) :
    (∀ later t, s.run later = some t → t.executes = s.executes) ↔
      ∃ u, State.atStop { asyncExecutionFlags := flags } schedule = some u ∧ u.worker.stored := by
  have hbefore : Before { asyncExecutionFlags := flags } := .init flags 0 hflags
  obtain ⟨u, hu⟩ := exists_atStop hbefore schedule hrun hret
  obtain ⟨hheard, hlost⟩ := heard_or_lost hbefore schedule hu hrun
  constructor
  · intro hfinal
    refine ⟨u, hu, ?_⟩
    by_contra hw
    have hexecutes : ∃ later t, s.run later = some t ∧ s.executes < t.executes :=
      (hlost hw).elim Unstopped.executes Unstopped.executes
    obtain ⟨later, t, ht, hlt⟩ := hexecutes
    exact absurd (hfinal later t ht) (Nat.ne_of_gt hlt)
  · rintro ⟨u', hu', hw⟩ later t ht
    obtain rfl := Option.some.inj (hu.symm.trans hu')
    exact (hheard hw).final hret later ht

/-- The worker announces itself, the stop is requested, and the worker leaves its loop. -/
theorem execute_after_return_iff_heard :
    ∃ s, State.run {} [.caller, .worker, .worker, .worker, .caller, .worker, .worker, .caller] = some s ∧
      ∀ later t, s.run later = some t → t.executes = s.executes :=
  ⟨⟨true, STOPPED, .returned, .finished, 0⟩, by decide,
    (execute_after_return_iff STOPPED (by decide)
      [.caller, .worker, .worker, .worker, .caller, .worker, .worker, .caller] (by decide) rfl).2
      ⟨⟨true, IS_RUNNING, .stop, .checkFlags, 0⟩, by decide, rfl⟩⟩

/-- **A stop that is lost.**  The caller starts the execution, requests the stop, sees that nothing is
running and returns; then the thread begins, clears the request and executes. -/
theorem execute_after_return :
    ∃ s t, State.run {} [.caller, .caller, .caller] = some s ∧ s.caller = .returned ∧
      s.run [.worker, .worker, .worker, .worker, .worker] = some t ∧ s.executes = 0 ∧ t.executes = 1 :=
  ⟨⟨true, QUEUE_STOP, .returned, .start, 0⟩, ⟨true, IS_RUNNING, .returned, .checkFlags, 1⟩,
    by decide, rfl, by decide, rfl, rfl⟩

end State
end AsyncExecution
end ICon7
