/-
# Draining the queue before the hosts are destroyed

`CommandExecutionQueue::Execute` in `src/CommandExecutionQueue.cpp` and the command that
`Loop::Destroy` enqueues (`CommandDestroyHosts` in `src/Loop.cpp`), which empties the queue by
calling `Execute` again from inside `Execute` and then destroys the hosts.

The loop is a stack of calls.  Each `Execute` has taken a batch out of the queue and works
through it; `CommandDestroyHosts` stands on the batch that it came with.  Whatever is left of
that batch is in no queue any more, so that the nested calls do not find it
(`run_destroys_early`); if the command is the last of its batch and nothing is enqueued between
the last look at the queue and the first host, the queue is drained (`run_drained`).

The queue keeps the order of each producer and nothing more (`ICon7.Lib.ProducerQueue`);
`HasAny` is exact.
-/

import ICon7.Lib.ProducerQueue
import ICon7.Lib.Run

namespace ICon7
namespace LoopDestroy

/-- A command that is not `CommandDestroyHosts` is known by a number. -/
inductive Command where
  | destroyHosts
  | other (n : ℕ)
deriving DecidableEq, Repr

/-- A command in the queue, with the producer that enqueued it. -/
structure Entry where
  producer : ℕ
  command : Command
deriving DecidableEq, Repr

inductive Event where
  | enqueued (e : Entry)
  | executed (e : Entry)
  | destroyed (host : ℕ)
deriving DecidableEq, Repr

def Event.isDestroyed : Event → Bool
  | .destroyed _ => true
  | _ => false

/-- A call that has not returned: `Execute` at the head of its loop, `Execute` with the rest of a
batch, and `CommandDestroyHosts::Execute` before it asks `HasAny` and in its loop over the hosts. -/
inductive Frame where
  | execute (maxToDequeue : ℕ) (notFullDequeuesMax : ℤ)
  | batch (maxToDequeue : ℕ) (notFullDequeuesMax : ℤ) (toDequeue dequeued : ℕ) (rest : List Entry)
  | draining
  | destroying
deriving DecidableEq, Repr

/-- The commands that a call has taken out of the queue and not executed. -/
def Frame.rest : Frame → List Entry
  | .batch _ _ _ _ rest => rest
  | _ => []

/-- The queue, the hosts, the calls with the innermost first, and what has happened. -/
structure State where
  queue : List Entry := []
  hosts : List ℕ := []
  stack : List Frame := []
  log : List Event := []
deriving DecidableEq, Repr

/-- `elems` of `Execute`. -/
def elems : ℕ := 1024

/-- The beginning of `Execute`. -/
def callExecute (maxToDequeue : ℕ) : Frame := .execute maxToDequeue 512

/-- The end of the loop body of `Execute`: `none` is the `break`. -/
def afterBatch (maxToDequeue : ℕ) (notFullDequeuesMax : ℤ) (toDequeue dequeued : ℕ) : Option Frame :=
  if dequeued ≠ toDequeue then
    if notFullDequeuesMax ≤ 0 then none
    else
      let n := if dequeued ≤ toDequeue >>> 3 then notFullDequeuesMax - 1 else notFullDequeuesMax
      let n := if dequeued < 13 then n - 57 else if dequeued = 0 then n - 223 else n
      some (.execute (maxToDequeue - dequeued) n)
  else some (.execute (maxToDequeue - dequeued) notFullDequeuesMax)

/-- Somebody enqueues a command, somebody calls `Execute`, `TryDequeueBulk` takes commands of the
given producers, or the loop does what comes next. -/
inductive Action where
  | enqueue (producer : ℕ) (command : Command)
  | call (maxToDequeue : ℕ)
  | dequeue (producers : List ℕ)
  | next
deriving DecidableEq, Repr

namespace State

/-- What the loop does next, but for taking commands out of the queue. -/
def next (s : State) : Option State :=
  match s.stack with
  | .execute maxToDequeue _ :: calls => if maxToDequeue = 0 then some { s with stack := calls } else none
  | .batch maxToDequeue notFull toDequeue dequeued (e :: rest) :: calls =>
    let nested := if e.command = .destroyHosts then [callExecute 128, .draining] else []
    some { s with
      stack := nested ++ .batch maxToDequeue notFull toDequeue dequeued rest :: calls
      log := s.log ++ [.executed e] }
  | .batch maxToDequeue notFull toDequeue dequeued [] :: calls =>
    some { s with stack := (afterBatch maxToDequeue notFull toDequeue dequeued).toList ++ calls }
  | .draining :: calls =>
    if s.queue ≠ [] then some { s with stack := callExecute 128 :: .draining :: calls }
    else some { s with stack := .destroying :: calls }
  | .destroying :: calls =>
    match s.hosts with
    | [] => some { s with stack := calls }
    | host :: hosts => some { s with hosts, log := s.log ++ [.destroyed host] }
  | [] => none

def step (s : State) : Action → Option State
  | .enqueue producer command =>
    some { s with
      queue := s.queue ++ [⟨producer, command⟩], log := s.log ++ [.enqueued ⟨producer, command⟩] }
  | .call maxToDequeue => if s.stack = [] then some { s with stack := [callExecute maxToDequeue] } else none
  | .dequeue producers =>
    match s.stack with
    | .execute maxToDequeue notFull :: calls =>
      let toDequeue := min maxToDequeue elems
      if maxToDequeue ≠ 0 ∧ producers.length ≤ toDequeue then do
        let (batch, queue) ← Lib.dequeueBulk Entry.producer s.queue producers
        return { s with
          queue, stack := .batch maxToDequeue notFull toDequeue batch.length batch :: calls }
      else none
    | _ => none
  | .next => s.next

def run (s : State) (actions : List Action) : Option State := actions.foldlM step s

end State

/-! ### What the log shows -/

/-- The commands of one producer, in the order in which it enqueued them. -/
def enqueuedOf (p : ℕ) (log : List Event) : List Entry :=
  Lib.ofProducer Entry.producer p (log.filterMap fun | .enqueued e => some e | _ => none)

/-- The commands of one producer, in the order in which they were executed. -/
def executedOf (p : ℕ) (log : List Event) : List Entry :=
  Lib.ofProducer Entry.producer p (log.filterMap fun | .executed e => some e | _ => none)

/-- The commands of each producer are executed in its order. -/
def InOrder (log : List Event) : Prop := ∀ p, executedOf p log <+: enqueuedOf p log

/-- When the first host is destroyed, everything that was enqueued has been executed. -/
def Drained (log : List Event) : Prop :=
  ∀ pre host post, log = pre ++ .destroyed host :: post → (∀ h, .destroyed h ∉ pre) →
    ∀ p, executedOf p pre = enqueuedOf p pre

section

variable (p : ℕ) (log : List Event)

@[simp] theorem enqueuedOf_append (l m : List Event) :
    enqueuedOf p (l ++ m) = enqueuedOf p l ++ enqueuedOf p m := by
  simp [enqueuedOf]

@[simp] theorem executedOf_append (l m : List Event) :
    executedOf p (l ++ m) = executedOf p l ++ executedOf p m := by
  simp [executedOf]

@[simp] theorem enqueuedOf_enqueued (e : Entry) :
    enqueuedOf p [.enqueued e] = Lib.ofProducer Entry.producer p [e] := rfl

@[simp] theorem enqueuedOf_executed (e : Entry) : enqueuedOf p [.executed e] = [] := rfl

@[simp] theorem enqueuedOf_destroyed (h : ℕ) : enqueuedOf p [.destroyed h] = [] := rfl

@[simp] theorem executedOf_enqueued (e : Entry) : executedOf p [.enqueued e] = [] := rfl

@[simp] theorem executedOf_executed (e : Entry) :
    executedOf p [.executed e] = Lib.ofProducer Entry.producer p [e] := rfl

@[simp] theorem executedOf_destroyed (h : ℕ) : executedOf p [.destroyed h] = [] := rfl

end

/-- One more event keeps the log drained, unless it is the first host and comes too early. -/
theorem Drained.concat {log : List Event} {event : Event} (h : Drained log)
    (hnew : ∀ host, event = .destroyed host → (∀ g, .destroyed g ∉ log) →
      ∀ p, executedOf p log = enqueuedOf p log) : Drained (log ++ [event]) := by
  intro pre host post hlog hfirst
  rcases List.eq_nil_or_concat post with rfl | ⟨post, last, rfl⟩
  · obtain ⟨rfl, hevent⟩ := List.append_inj' hlog rfl
    exact hnew host (List.cons.inj hevent).1 hfirst
  · rw [List.concat_eq_append, ← List.cons_append, ← List.append_assoc] at hlog
    exact h pre host post (List.append_inj' hlog rfl).1 hfirst

namespace State

variable {s t : State} {a : Action}

/-- Behind a batch the loop of `Execute` goes on or ends. -/
theorem afterBatch_eq_execute {m td d : ℕ} {n : ℤ} {f : Frame} (h : afterBatch m n td d = some f) :
    ∃ m' n', f = .execute m' n' := by
  unfold afterBatch at h
  split_ifs at h <;> exact ⟨_, _, (Option.some.inj h).symm⟩

/-- What is left of the innermost batch. -/
def pending (s : State) : List Entry := (s.stack.head?.map Frame.rest).getD []

/-- The condition on a step: `CommandDestroyHosts` is the last command of its batch, and nothing is
enqueued between its last look at the queue and the first host. -/
def Meets (s : State) : Action → Prop
  | .next => ∀ e ∈ s.pending.head?, e.command = .destroyHosts → s.pending.tail = []
  | .enqueue _ _ => s.stack.head? = some .destroying → ∃ event ∈ s.log, event.isDestroyed
  | _ => True

instance (s : State) : ∀ a, Decidable (s.Meets a)
  | .next => inferInstanceAs (Decidable (∀ e ∈ s.pending.head?, _ → _))
  | .enqueue _ _ => inferInstanceAs (Decidable (s.stack.head? = some .destroying → _))
  | .call _ => isTrue trivial
  | .dequeue _ => isTrue trivial

/-- Only the innermost call has commands left, and only it can be destroying hosts; what it has left
and what is in the queue is what each producer has enqueued and not seen executed; and between the
last look and the first host the queue is empty. -/
structure Inv (s : State) : Prop where
  below : ∀ f ∈ s.stack.tail, f.rest = [] ∧ f ≠ .destroying
  balanced : ∀ p, enqueuedOf p s.log = executedOf p s.log ++
    Lib.ofProducer Entry.producer p s.pending ++ Lib.ofProducer Entry.producer p s.queue
  looked : s.stack.head? = some .destroying → (∀ host, .destroyed host ∉ s.log) → s.queue = []
  drained : Drained s.log

theorem init_inv (hosts : List ℕ) : Inv { hosts } :=
  ⟨by simp, fun p => by simp [pending, enqueuedOf, executedOf], by simp, fun pre _ post h => by simp at h⟩

theorem enqueue_inv (hs : s.Inv) {p : ℕ} {c : Command} (hm : s.Meets (.enqueue p c))
    (h : s.step (.enqueue p c) = some t) : t.Inv := by
  obtain rfl := Option.some.inj h
  refine ⟨hs.below, fun q => ?_, fun htop hno => ?_, hs.drained.concat (by simp)⟩
  · rw [enqueuedOf_append, executedOf_append, hs.balanced q]
    simp [pending]
  · obtain ⟨event, hevent, hd⟩ := hm htop
    cases event with
    | destroyed host => exact absurd (List.mem_append_left _ hevent) (hno host)
    | enqueued e | executed e => cases hd

/-- Calls may begin, go on and return as long as the innermost one has as much left as before. -/
theorem Inv.of_pending_eq (hs : s.Inv) {stack : List Frame}
    (hbelow : ∀ f ∈ stack.tail, f.rest = [] ∧ f ≠ .destroying)
    (hpending : pending { s with stack } = s.pending)
    (hlooked : stack.head? = some .destroying → s.queue = []) : Inv { s with stack } := by
  refine ⟨hbelow, fun p => ?_, fun htop _ => hlooked htop, hs.drained⟩
  rw [hpending]
  exact hs.balanced p

/-- A call that returns has nothing left of its batch, and neither has the one below it. -/
theorem Inv.return (hs : s.Inv) {f : Frame} {calls : List Frame} (hstack : s.stack = f :: calls)
    (hrest : f.rest = []) : Inv { s with stack := calls } := by
  have hbelow : ∀ g ∈ calls, g.rest = [] ∧ g ≠ .destroying := fun g hg =>
    hs.below g (by rw [hstack]; exact hg)
  have hpending : s.pending = [] := by simp [pending, hstack, hrest]
  refine hs.of_pending_eq (fun g hg => hbelow g (List.mem_of_mem_tail hg)) ?_ fun htop => ?_
  · rw [hpending]
    cases calls with
    | nil => rfl
    | cons g calls => exact (hbelow g List.mem_cons_self).1
  · exact absurd rfl (hbelow _ (List.mem_of_mem_head? htop)).2

/-- A call that goes on as another frame without commands, with or without a nested call. -/
theorem Inv.goOn (hs : s.Inv) {f : Frame} {calls : List Frame} (hstack : s.stack = f :: calls)
    (hrest : f.rest = []) (g : Frame) (stack : List Frame)
    (hnew : ∀ k ∈ g :: stack, k.rest = [] ∧ k ≠ .destroying) :
    Inv { s with stack := (g :: stack) ++ calls } := by
  have hg := hnew g List.mem_cons_self
  refine hs.of_pending_eq (fun k hk => ?_) (by simp [pending, hstack, hrest, hg.1]) fun htop => ?_
  · rcases List.mem_append.1 hk with hk | hk
    · exact hnew k (List.mem_cons_of_mem _ hk)
    · exact hs.below k (by rw [hstack]; exact hk)
  · exact absurd (Option.some.inj htop) hg.2

theorem call_inv (hs : s.Inv) {n : ℕ} (h : s.step (.call n) = some t) : t.Inv := by
  simp only [step] at h
  split_ifs at h with hstack
  obtain rfl := Option.some.inj h
  exact hs.of_pending_eq (by simp) (by simp [pending, hstack, callExecute, Frame.rest])
    (by simp [callExecute])

/-- A batch is what the queue has lost. -/
theorem dequeue_inv (hs : s.Inv) {ps : List ℕ} (h : s.step (.dequeue ps) = some t) : t.Inv := by
  simp only [step] at h
  split at h
  · rename_i m n calls hstack
    split_ifs at h
    obtain ⟨⟨batch, queue⟩, hbulk, h⟩ := Option.bind_eq_some_iff.1 h
    obtain rfl := Option.some.inj h
    refine ⟨fun f hf => hs.below f (by rw [hstack]; exact hf), fun p => ?_, by simp, hs.drained⟩
    have hb := hs.balanced p
    rw [Lib.ofProducer_dequeueBulk hbulk p] at hb
    simpa [pending, hstack, Frame.rest] using hb
  · cases h

/-- Executing a command moves it from the batch to the log; a nested call needs the batch empty. -/
theorem execute_inv (hs : s.Inv) {m td d : ℕ} {n : ℤ} {e : Entry} {rest : List Entry}
    {calls : List Frame} (hstack : s.stack = .batch m n td d (e :: rest) :: calls)
    (hm : e.command = .destroyHosts → rest = []) (h : s.next = some t) : t.Inv := by
  simp only [next, hstack] at h
  obtain rfl := Option.some.inj h
  have hbelow : ∀ f ∈ calls, f.rest = [] ∧ f ≠ .destroying := fun f hf =>
    hs.below f (by rw [hstack]; exact hf)
  have hbal : ∀ p, enqueuedOf p (s.log ++ [.executed e]) = executedOf p (s.log ++ [.executed e]) ++
      Lib.ofProducer Entry.producer p rest ++ Lib.ofProducer Entry.producer p s.queue := by
    intro p
    have hb := hs.balanced p
    rw [show s.pending = e :: rest by simp [pending, hstack, Frame.rest], Lib.ofProducer_cons] at hb
    simpa using hb
  by_cases he : e.command = .destroyHosts
  · obtain rfl := hm he
    simp only [he, if_true]
    refine ⟨fun f hf => ?_, fun p => ?_, by simp [callExecute], hs.drained.concat (by simp)⟩
    · rcases List.mem_cons.1 hf with rfl | hf
      · simp [Frame.rest]
      · rcases List.mem_cons.1 hf with rfl | hf
        · simp [Frame.rest]
        · exact hbelow f hf
    · simpa [pending, callExecute, Frame.rest] using hbal p
  · simp only [he, if_false, List.nil_append]
    exact ⟨hbelow, fun p => by simpa [pending, Frame.rest] using hbal p, by simp,
      hs.drained.concat (by simp)⟩

/-- Destroying a host: what was enqueued before the first one has been executed. -/
theorem destroy_inv (hs : s.Inv) {calls : List Frame} (hstack : s.stack = .destroying :: calls)
    (h : s.next = some t) : t.Inv := by
  simp only [next, hstack] at h
  split at h
  · obtain rfl := Option.some.inj h
    exact hs.return hstack rfl
  · rename_i host hosts hhosts
    obtain rfl := Option.some.inj h
    refine ⟨fun f hf => hs.below f (by rw [hstack]; exact hf), fun p => ?_,
      fun _ hno => absurd (by simp) (hno host), hs.drained.concat fun _ _ hfirst p => ?_⟩
    · simpa [pending, hstack] using hs.balanced p
    · have hqueue := hs.looked (by rw [hstack]; rfl) hfirst
      have hb := hs.balanced p
      rw [hqueue, show s.pending = [] by simp [pending, hstack, Frame.rest]] at hb
      simpa using hb.symm

theorem next_inv (hs : s.Inv) (hm : s.Meets .next) (h : s.step .next = some t) : t.Inv := by
  simp only [step] at h
  cases hstack : s.stack with
  | nil => simp [next, hstack] at h
  | cons f calls =>
    cases f with
    | execute m n =>
      simp only [next, hstack] at h
      split_ifs at h
      obtain rfl := Option.some.inj h
      exact hs.return hstack rfl
    | batch m n td d rest =>
      cases rest with
      | cons e rest =>
        have hpending : s.pending = e :: rest := by simp [pending, hstack, Frame.rest]
        simp only [Meets, hpending] at hm
        exact execute_inv hs hstack (hm e rfl) h
      | nil =>
        simp only [next, hstack] at h
        obtain rfl := Option.some.inj h
        cases hafter : afterBatch m n td d with
        | none => exact hs.return hstack rfl
        | some f =>
          obtain ⟨m', n', rfl⟩ := afterBatch_eq_execute hafter
          exact hs.goOn hstack rfl (.execute m' n') [] (by simp [Frame.rest])
    | draining =>
      simp only [next, hstack] at h
      split_ifs at h with hqueue
      · obtain rfl := Option.some.inj h
        exact hs.goOn hstack rfl (callExecute 128) [.draining] (by simp [callExecute, Frame.rest])
      · obtain rfl := Option.some.inj h
        refine hs.of_pending_eq (fun g hg => hs.below g (by rw [hstack]; exact hg)) ?_
          fun _ => not_not.1 hqueue
        simp [pending, hstack, Frame.rest]
    | destroying => exact destroy_inv hs hstack h

theorem step_inv (hs : s.Inv) (hm : s.Meets a) (h : s.step a = some t) : t.Inv := by
  cases a with
  | enqueue p c => exact enqueue_inv hs hm h
  | call n => exact call_inv hs h
  | dequeue ps => exact dequeue_inv hs h
  | next => exact next_inv hs hm h

/-- **If `CommandDestroyHosts` is the last command of its batch, and nothing is enqueued between its
last look at the queue and the first host, the queue is drained.**  In every state of such a run the
commands of each producer have been executed in its order, and whatever was enqueued before the first
host was destroyed was executed before that, so that what runs later was enqueued later. -/
theorem run_drained (hosts : List ℕ) (actions : List Action)
    (hrun : State.run { hosts } actions = some s)
    (hmeets : Lib.Along State.step Meets { hosts } actions) :
    InOrder s.log ∧ Drained s.log ∧
      ∀ pre host post, s.log = pre ++ .destroyed host :: post → (∀ h, .destroyed h ∉ pre) →
        ∀ p, executedOf p post <+: enqueuedOf p post := by
  have hs : s.Inv :=
    Lib.run_invariant_along (fun _ _ _ => step_inv) actions (init_inv hosts) hmeets hrun
  have horder : InOrder s.log := by
    intro p
    rw [hs.balanced p, List.append_assoc]
    exact List.prefix_append _ _
  refine ⟨horder, hs.drained, fun pre host post hlog hfirst p => ?_⟩
  have hpre := hs.drained pre host post hlog hfirst p
  have hall := horder p
  rw [hlog, ← List.singleton_append, executedOf_append, executedOf_append, enqueuedOf_append,
    enqueuedOf_append, executedOf_destroyed, enqueuedOf_destroyed, hpre] at hall
  simpa using (List.prefix_append_right_inj _).1 hall

/-- `Execute` finds the queue empty a number of times. -/
def emptyLooks (n : ℕ) : List Action := (List.replicate n [.dequeue [], .next]).flatten

/-- One producer enqueues two commands and `CommandDestroyHosts`, which comes with the first of them in
its batch; the nested calls find the second one. -/
def drainingRun : List Action :=
  [.enqueue 1 (.other 1), .enqueue 1 .destroyHosts, .enqueue 1 (.other 2), .call 1024,
    .dequeue [1, 1], .next, .next, .dequeue [1], .next, .next].append
    ((emptyLooks 9).append [.next, .next])

def drainingLog : List Event :=
  [.enqueued ⟨1, .other 1⟩, .enqueued ⟨1, .destroyHosts⟩, .enqueued ⟨1, .other 2⟩,
    .executed ⟨1, .other 1⟩, .executed ⟨1, .destroyHosts⟩, .executed ⟨1, .other 2⟩, .destroyed 0]

/-- With `CommandDestroyHosts` at the end of its batch the queue is drained. -/
theorem run_drained_last_of_batch :
    ∃ s, State.run { hosts := [0] } drainingRun = some s ∧ s.log = drainingLog ∧
      InOrder s.log ∧ Drained s.log := by
  have hrun : State.run { hosts := [0] } drainingRun =
      some ⟨[], [], [.destroying, .batch 1024 512 1024 2 []], drainingLog⟩ := by decide +kernel
  obtain ⟨horder, hdrained, -⟩ := run_drained [0] drainingRun hrun (by decide +kernel)
  exact ⟨_, hrun, rfl, horder, hdrained⟩

/-- `CommandDestroyHosts` in front of another command of its batch, with a third one in the queue. -/
def overtakingRun : List Action :=
  [.enqueue 1 .destroyHosts, .enqueue 1 (.other 1), .enqueue 1 (.other 2), .call 1024,
    .dequeue [1, 1], .next, .dequeue [1], .next, .next].append
    ((emptyLooks 9).append [.next, .next, .next, .next])

def overtakingLog : List Event :=
  [.enqueued ⟨1, .destroyHosts⟩, .enqueued ⟨1, .other 1⟩, .enqueued ⟨1, .other 2⟩,
    .executed ⟨1, .destroyHosts⟩, .executed ⟨1, .other 2⟩, .destroyed 0, .executed ⟨1, .other 1⟩]

/-- `CommandDestroyHosts` alone, and a command that is enqueued after its last look at the queue. -/
def lateRun : List Action :=
  [.enqueue 1 .destroyHosts, .call 1024, .dequeue [1], .next].append
    ((emptyLooks 10).append [.next, .enqueue 1 (.other 1), .next])

def lateLog : List Event :=
  [.enqueued ⟨1, .destroyHosts⟩, .executed ⟨1, .destroyHosts⟩, .enqueued ⟨1, .other 1⟩, .destroyed 0]

/-- **Two ways in which the hosts are destroyed too early.**  A command behind `CommandDestroyHosts` in
its batch is executed after the host is destroyed, and after a later command of its own producer; and
a command that is enqueued after the last look at the queue is still in it. -/
theorem run_destroys_early :
    (∃ s, State.run { hosts := [0] } overtakingRun = some s ∧ s.log = overtakingLog ∧
      ¬InOrder s.log ∧ ¬Drained s.log) ∧
    ∃ s, State.run { hosts := [0] } lateRun = some s ∧ s.log = lateLog ∧ ¬Drained s.log := by
  refine ⟨⟨⟨[], [], [.batch 1024 512 1024 2 []], overtakingLog⟩, by decide +kernel, rfl, ?_, ?_⟩,
    ⟨[⟨1, .other 1⟩], [], [.destroying, .batch 1024 512 1024 1 []], lateLog⟩, by decide +kernel, rfl, ?_⟩
  · intro h
    exact absurd (h 1) (by decide)
  · intro h
    exact absurd (h (overtakingLog.take 5) 0 (overtakingLog.drop 6) rfl
      (by simp [overtakingLog]) 1) (by decide)
  · intro h
    exact absurd (h (lateLog.take 3) 0 [] rfl (by simp [lateLog]) 1) (by decide)

end State
end LoopDestroy
end ICon7
