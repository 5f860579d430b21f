/-
# Handing a coroutine to a queue

`CoroutineAwaitable::await_suspend` in `src/CommandExecutionQueue.cpp` and what a consumer
of the queue does with the handle: `CommandHandle::Execute` of `include/icon7/Command.hpp`
resumes the coroutine, whose awaitable ends with the `co_await` expression and whose frame
ends with its body, since `final_suspend` of `CoroutineSchedulable` never suspends.

The awaitable lives in the frame.  From the moment the handle is in the queue the frame is
the consumer's, but `await_suspend` goes on and clears two fields of the awaitable
(`accesses_suspended_iff`).
-/

import ICon7.Lib.Run

namespace ICon7
namespace CoroutineHandOff

/-- The coroutine: suspended with its awaitable alive; resumed, its awaitable destroyed; finished,
its frame destroyed. -/
inductive Coroutine where
  | suspended
  | resumed
  | finished
deriving DecidableEq, Repr

/-- Where the suspending thread is in `await_suspend`: before the assertion on `queue`, the one on
the coroutine, the read of `queue`, the enqueue, and the two writes. -/
inductive Suspender where
  | assertQueue
  | assertNotDone
  | readQueue
  | enqueue
  | clearQueue
  | clearObjectHolder
  | returned
deriving DecidableEq, Repr

/-- Where the consumer is: waiting for the handle, holding it, inside `await_resume`, and in the
body of the coroutine. -/
inductive Consumer where
  | waiting
  | dequeued
  | resuming
  | running
  | done
deriving DecidableEq, Repr

/-- The two fields of the awaitable as null or not, the handle in the queue, and the state of the
coroutine at each access of the suspending thread to one of the fields. -/
structure State where
  queue : Bool := true
  objectHolder : Bool := true
  enqueued : Bool := false
  coroutine : Coroutine := .suspended
  suspender : Suspender := .assertQueue
  consumer : Consumer := .waiting
  accesses : List Coroutine := []
deriving DecidableEq, Repr

namespace State

/-- An access of the suspending thread to a field of the awaitable. -/
def access (s : State) : State := { s with accesses := s.coroutine :: s.accesses }

/-- The next step of `await_suspend`; `none` is a failed assertion. -/
def suspenderStep (s : State) : Option State :=
  match s.suspender with
  | .assertQueue => if s.queue then some { s.access with suspender := .assertNotDone } else none
  | .assertNotDone => if s.coroutine = .finished then none else some { s with suspender := .readQueue }
  | .readQueue => some { s.access with suspender := .enqueue }
  | .enqueue => some { s with suspender := .clearQueue, enqueued := true }
  | .clearQueue => some { s.access with suspender := .clearObjectHolder, queue := false }
  | .clearObjectHolder => some { s.access with suspender := .returned, objectHolder := false }
  | .returned => none

/-- A step of the suspending thread, or what the consumer does: take the handle, resume the
coroutine, destroy the awaitable behind `await_resume`, and run the body to its end. -/
inductive Action where
  | suspender
  | dequeue
  | resume
  | destroyAwaitable
  | finish
deriving DecidableEq, Repr

def step (s : State) : Action → Option State
  | .suspender => s.suspenderStep
  | .dequeue =>
    if s.consumer = .waiting ∧ s.enqueued then some { s with consumer := .dequeued, enqueued := false }
    else none
  | .resume => if s.consumer = .dequeued then some { s with consumer := .resuming } else none
  | .destroyAwaitable =>
    if s.consumer = .resuming then some { s with consumer := .running, coroutine := .resumed } else none
  | .finish =>
    if s.consumer = .running then some { s with consumer := .done, coroutine := .finished } else none

def run (s : State) (schedule : List Action) : Option State := schedule.foldlM step s

/-- The state in which the consumer destroys the awaitable. -/
def atDestroy (s : State) : List Action → Option State
  | [] => none
  | a :: schedule => if a = .destroyAwaitable then some s else do (← s.step a).atDestroy schedule

/-! ### Accesses before and after the awaitable is destroyed -/

variable {s t : State} {a : Action}

/-- Before the handle is enqueued nobody else has it; afterwards the awaitable is alive until the
consumer destroys it. -/
structure Alive (s : State) : Prop where
  coroutine : s.coroutine = .suspended
  accesses : ∀ c ∈ s.accesses, c = .suspended
  consumer : s.consumer ≠ .running
  owned : s.suspender ≠ .clearQueue → s.suspender ≠ .clearObjectHolder → s.suspender ≠ .returned →
    s.enqueued = false ∧ s.consumer = .waiting

/-- The awaitable is destroyed and no access is left. -/
structure Released (s : State) : Prop where
  suspender : s.suspender = .returned
  accesses : ∀ c ∈ s.accesses, c = .suspended

/-- The awaitable is destroyed, and one of the two writes comes or came after that. -/
structure Overtaken (s : State) : Prop where
  coroutine : s.coroutine ≠ .suspended
  late : s.suspender = .clearQueue ∨ s.suspender = .clearObjectHolder ∨ ∃ c ∈ s.accesses, c ≠ .suspended

theorem Alive.access (h : s.Alive) : ∀ c ∈ s.access.accesses, c = .suspended := by
  intro c hc
  rcases List.mem_cons.1 hc with rfl | hc
  · exact h.coroutine
  · exact h.accesses c hc

/-- As long as the consumer does not destroy the awaitable it is alive. -/
theorem Alive.step (h : s.Alive) (ha : a ≠ .destroyAwaitable) (hstep : s.step a = some t) : t.Alive := by
  cases a with
  | destroyAwaitable => exact absurd rfl ha
  | suspender =>
    simp only [State.step, suspenderStep] at hstep
    split at hstep
    · rename_i hpc
      have howned := h.owned (by simp [hpc]) (by simp [hpc]) (by simp [hpc])
      split_ifs at hstep
      obtain rfl := Option.some.inj hstep
      exact ⟨h.coroutine, h.access, h.consumer, fun _ _ _ => howned⟩
    · rename_i hpc
      have howned := h.owned (by simp [hpc]) (by simp [hpc]) (by simp [hpc])
      split_ifs at hstep
      obtain rfl := Option.some.inj hstep
      exact ⟨h.coroutine, h.accesses, h.consumer, fun _ _ _ => howned⟩
    · rename_i hpc
      have howned := h.owned (by simp [hpc]) (by simp [hpc]) (by simp [hpc])
      obtain rfl := Option.some.inj hstep
      exact ⟨h.coroutine, h.access, h.consumer, fun _ _ _ => howned⟩
    · obtain rfl := Option.some.inj hstep
      exact ⟨h.coroutine, h.accesses, h.consumer, fun hno => absurd rfl hno⟩
    · obtain rfl := Option.some.inj hstep
      exact ⟨h.coroutine, h.access, h.consumer, fun _ hno => absurd rfl hno⟩
    · obtain rfl := Option.some.inj hstep
      exact ⟨h.coroutine, h.access, h.consumer, fun _ _ hno => absurd rfl hno⟩
    · cases hstep
  | dequeue =>
    simp only [State.step] at hstep
    split_ifs at hstep with hc
    obtain rfl := Option.some.inj hstep
    refine ⟨h.coroutine, h.accesses, by simp, fun h1 h2 h3 => ?_⟩
    rw [(h.owned h1 h2 h3).1] at hc
    simp at hc
  | resume =>
    simp only [State.step] at hstep
    split_ifs at hstep with hc
    obtain rfl := Option.some.inj hstep
    refine ⟨h.coroutine, h.accesses, by simp, fun h1 h2 h3 => ?_⟩
    rw [(h.owned h1 h2 h3).2] at hc
    cases hc
  | finish =>
    simp only [State.step] at hstep
    split_ifs at hstep with hc
    exact absurd hc h.consumer

/-- Destroying the awaitable leaves it released or overtaken, according to where `await_suspend` is. -/
theorem Alive.destroy (h : s.Alive) (hstep : s.step .destroyAwaitable = some t) :
    (s.suspender = .returned → t.Released) ∧ (s.suspender ≠ .returned → t.Overtaken) := by
  simp only [State.step] at hstep
  split_ifs at hstep with hc
  obtain rfl := Option.some.inj hstep
  refine ⟨fun hret => ⟨hret, h.accesses⟩, fun hret => ⟨by simp, ?_⟩⟩
  by_cases h1 : s.suspender = .clearQueue
  · exact Or.inl h1
  · by_cases h2 : s.suspender = .clearObjectHolder
    · exact Or.inr (Or.inl h2)
    · -- the handle would still be the suspending thread's
      rw [(h.owned h1 h2 hret).2] at hc
      cases hc

/-- The consumer's steps are not accesses, and leave the suspending thread where it is. -/
theorem step_consumer (ha : a ≠ .suspender) (hstep : s.step a = some t) :
    t.suspender = s.suspender ∧ t.accesses = s.accesses ∧
      (s.coroutine ≠ .suspended → t.coroutine ≠ .suspended) := by
  cases a with
  | suspender => exact absurd rfl ha
  | dequeue | resume | destroyAwaitable | finish =>
    simp only [State.step] at hstep
    split_ifs at hstep
    obtain rfl := Option.some.inj hstep
    exact ⟨rfl, rfl, by simp⟩

/-- No step of `await_suspend` resumes the coroutine, and none forgets an access. -/
theorem suspenderStep_accesses (hstep : s.suspenderStep = some t) :
    t.coroutine = s.coroutine ∧ s.accesses ⊆ t.accesses := by
  unfold suspenderStep at hstep
  split at hstep
  · split_ifs at hstep
    obtain rfl := Option.some.inj hstep
    exact ⟨rfl, List.subset_cons_self _ _⟩
  · split_ifs at hstep
    obtain rfl := Option.some.inj hstep
    exact ⟨rfl, fun _ h => h⟩
  · obtain rfl := Option.some.inj hstep
    exact ⟨rfl, List.subset_cons_self _ _⟩
  · obtain rfl := Option.some.inj hstep
    exact ⟨rfl, fun _ h => h⟩
  · obtain rfl := Option.some.inj hstep
    exact ⟨rfl, List.subset_cons_self _ _⟩
  · obtain rfl := Option.some.inj hstep
    exact ⟨rfl, List.subset_cons_self _ _⟩
  · cases hstep

theorem Released.step (h : s.Released) (hstep : s.step a = some t) : t.Released := by
  by_cases ha : a = .suspender
  · subst ha
    simp only [State.step, suspenderStep, h.suspender] at hstep
    cases hstep
  · obtain ⟨hpc, hacc, -⟩ := step_consumer ha hstep
    exact ⟨hpc.trans h.suspender, hacc ▸ h.accesses⟩

/-- A write that comes after the awaitable is destroyed is recorded as such. -/
theorem Overtaken.step (h : s.Overtaken) (hstep : s.step a = some t) : t.Overtaken := by
  by_cases ha : a = .suspender
  · subst ha
    have hlate : ∃ c ∈ s.access.accesses, c ≠ .suspended := ⟨s.coroutine, List.mem_cons_self, h.coroutine⟩
    simp only [State.step] at hstep
    rcases h.late with hpc | hpc | ⟨c, hc, hne⟩
    · simp only [suspenderStep, hpc] at hstep
      obtain rfl := Option.some.inj hstep
      exact ⟨h.coroutine, Or.inr (Or.inr hlate)⟩
    · simp only [suspenderStep, hpc] at hstep
      obtain rfl := Option.some.inj hstep
      exact ⟨h.coroutine, Or.inr (Or.inr hlate)⟩
    · obtain ⟨hco, hsub⟩ := suspenderStep_accesses hstep
      exact ⟨hco ▸ h.coroutine, Or.inr (Or.inr ⟨c, hsub hc, hne⟩)⟩
  · obtain ⟨hpc, hacc, hco⟩ := step_consumer ha hstep
    exact ⟨hco h.coroutine, by rw [hpc, hacc]; exact h.late⟩

/-- A run that destroys the awaitable ends released or overtaken. -/
theorem released_or_overtaken (h : s.Alive) (schedule : List Action) {u : State}
    (hu : s.atDestroy schedule = some u) (hrun : s.run schedule = some t) :
    (u.suspender = .returned → t.Released) ∧ (u.suspender ≠ .returned → t.Overtaken) := by
  induction schedule generalizing s with
  | nil => cases hu
  | cons a schedule ih =>
    obtain ⟨v, hv, hrest⟩ := Lib.foldlM_cons_eq_some.1 hrun
    unfold atDestroy at hu
    split_ifs at hu with ha
    · obtain rfl := Option.some.inj hu
      subst ha
      obtain ⟨hrel, hover⟩ := h.destroy hv
      exact ⟨fun hret => Lib.run_invariant (fun _ _ _ h => h.step) schedule (hrel hret) hrest,
        fun hret => Lib.run_invariant (fun _ _ _ h => h.step) schedule (hover hret) hrest⟩
    · obtain ⟨v', hv', hu⟩ := Option.bind_eq_some_iff.1 hu
      obtain rfl := Option.some.inj (hv.symm.trans hv')
      exact ih (h.step ha hv) hu hrest

/-- A run that does not destroy the awaitable leaves it alive. -/
theorem alive_of_atDestroy_eq_none (h : s.Alive) (schedule : List Action)
    (hu : s.atDestroy schedule = none) (hrun : s.run schedule = some t) : t.Alive := by
  induction schedule generalizing s with
  | nil =>
    obtain rfl := Option.some.inj hrun
    exact h
  | cons a schedule ih =>
    obtain ⟨v, hv, hrest⟩ := Lib.foldlM_cons_eq_some.1 hrun
    unfold atDestroy at hu
    split_ifs at hu with ha
    have hu' : v.atDestroy schedule = none := by simpa [hv] using hu
    exact ih (h.step ha hv) hu' hrest

/-- **The awaitable is used only while it is alive, exactly if `await_suspend` has returned when the
consumer destroys it.**  For every interleaving in which `await_suspend` returns. -/
theorem accesses_suspended_iff (objectHolder : Bool) (schedule : List Action)
    (hrun : State.run { objectHolder := objectHolder } schedule = some s)
    (hret : s.suspender = .returned) :
    (∀ c ∈ s.accesses, c = .suspended) ↔
      ∀ u, State.atDestroy { objectHolder := objectHolder } schedule = some u →
        u.suspender = .returned := by
  have halive : Alive { objectHolder := objectHolder } := ⟨rfl, by simp, by simp, fun _ _ _ => ⟨rfl, rfl⟩⟩
  constructor
  · intro hacc u hu
    by_contra hno
    obtain ⟨-, hlate⟩ := (released_or_overtaken halive schedule hu hrun).2 hno
    rw [hret] at hlate
    obtain ⟨c, hc, hne⟩ : ∃ c ∈ s.accesses, c ≠ .suspended := by simpa using hlate
    exact hne (hacc c hc)
  · intro hcond
    cases hu : State.atDestroy { objectHolder := objectHolder } schedule with
    | none => exact (alive_of_atDestroy_eq_none halive schedule hu hrun).accesses
    | some u => exact ((released_or_overtaken halive schedule hu hrun).1 (hcond u hu)).accesses

/-- A consumer on the same thread: it takes the handle when `await_suspend` has returned. -/
theorem accesses_suspended_iff_same_thread :
    ∃ s, State.run {} [.suspender, .suspender, .suspender, .suspender, .suspender, .suspender,
        .dequeue, .resume, .destroyAwaitable, .finish] = some s ∧
      ∀ c ∈ s.accesses, c = .suspended := by
  refine ⟨⟨false, false, false, .finished, .returned, .done,
    [.suspended, .suspended, .suspended, .suspended]⟩, by decide, ?_⟩
  refine (accesses_suspended_iff true [.suspender, .suspender, .suspender, .suspender, .suspender,
    .suspender, .dequeue, .resume, .destroyAwaitable, .finish] (by decide) rfl).2 fun u hu => ?_
  obtain rfl : (⟨false, false, false, .suspended, .returned, .resuming,
      [.suspended, .suspended, .suspended, .suspended]⟩ : State) = u := by
    simpa [atDestroy, State.step, suspenderStep, State.access] using hu
  rfl

/-- **The awaitable is written after its frame is gone.**  The consumer takes the handle as soon as it
is there, and the coroutine runs to its end before `await_suspend` clears `queue` and
`objectHolder`. -/
theorem accesses_after_finish :
    ∃ s, State.run {} [.suspender, .suspender, .suspender, .suspender, .dequeue, .resume,
        .destroyAwaitable, .finish, .suspender, .suspender] = some s ∧
      s.accesses = [.finished, .finished, .suspended, .suspended] :=
  ⟨⟨false, false, false, .finished, .returned, .done, [.finished, .finished, .suspended, .suspended]⟩,
    by decide, rfl⟩

end State
end CoroutineHandOff
end ICon7
