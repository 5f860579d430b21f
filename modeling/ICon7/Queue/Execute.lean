/-
# Bounded progress of `Execute`

`CommandExecutionQueue::Execute` (`src/CommandExecutionQueue.cpp`) asks `TryDequeueBulk` for commands
until it has got as many as it was told to, or until too many of its dequeues were incomplete.  What
`TryDequeueBulk` returns depends on what other threads do at the time.  All that is known is that it is
not more than was asked for, so here it is any function of the number of the call.

A dequeue that is empty leaves `maxToDequeue` as it is and costs 58 of the budget, so that at most
`maxToDequeue + 10` dequeues are made (`execute_progress`).  `ICon7.Queue.Destroy` has the same loop as
steps of a state machine.  Both end a turn in the same way (`afterBatch_eq`), a turn is a run of the state
machine (`Dequeue.run_actions`), and so is a call of `Execute` (`execute_run`), with any commands enqueued
between its dequeues, as long as it does not execute a `CommandDestroyHosts`, which would call it again.
-/

import Mathlib.Tactic
import ICon7.Queue.Destroy

namespace ICon7

variable {α : Type}

/-- `notFullDequeuesMax` after an incomplete dequeue. -/
def lowerBudget (notFullDequeuesMax : ℤ) (toDequeue dequeued : ℕ) : ℤ :=
  let n := if dequeued ≤ toDequeue >>> 3 then notFullDequeuesMax - 1 else notFullDequeuesMax
  if dequeued < 13 then n - 57 else if dequeued = 0 then n - 223 else n

/-- The variables of `Execute`, with the calls of `TryDequeueBulk` that it has made, each with the
number asked for and the commands it got, and the commands it has executed. -/
structure Execution (α : Type) where
  maxToDequeue : ℕ
  notFullDequeuesMax : ℤ := 512
  total : ℕ := 0
  calls : List (ℕ × List α) := []
  executed : List α := []

namespace Execution

/-- The commands of a dequeue are counted and executed. -/
def took (x : Execution α) (toDequeue : ℕ) (commands : List α) : Execution α :=
  { x with
    total := (x.total + commands.length) % 2 ^ 32
    calls := x.calls ++ [(toDequeue, commands)]
    executed := x.executed ++ commands }

/-- `maxToDequeue -= dequeued`, with the budget. -/
def lower (x : Execution α) (dequeued : ℕ) (notFullDequeuesMax : ℤ) : Execution α :=
  { x with maxToDequeue := (2 ^ 32 + x.maxToDequeue - dequeued) % 2 ^ 32, notFullDequeuesMax }

/-- The loop of `Execute`; the `break` leaves the budget and `maxToDequeue` as they are. -/
def loop (tryDequeueBulk : ℕ → ℕ → List α) : ℕ → Execution α → Option (Execution α)
  | 0, _ => none
  | fuel + 1, x =>
    if x.maxToDequeue = 0 then some x
    else
      let toDequeue := min x.maxToDequeue LoopDestroy.elems
      let commands := tryDequeueBulk x.calls.length toDequeue
      let dequeued := commands.length
      let x := x.took toDequeue commands
      if dequeued ≠ toDequeue then
        if x.notFullDequeuesMax ≤ 0 then some x
        else loop tryDequeueBulk fuel
          (x.lower dequeued (lowerBudget x.notFullDequeuesMax toDequeue dequeued))
      else loop tryDequeueBulk fuel (x.lower dequeued x.notFullDequeuesMax)

end Execution

/-- `Execute`. -/
def execute (tryDequeueBulk : ℕ → ℕ → List α) (maxToDequeue : ℕ) : Option (Execution α) :=
  Execution.loop tryDequeueBulk (maxToDequeue + 11) { maxToDequeue }

/-- The two models of `Execute` end a turn in the same way. -/
theorem afterBatch_eq (maxToDequeue : ℕ) (n : ℤ) (toDequeue dequeued : ℕ) :
    LoopDestroy.afterBatch maxToDequeue n toDequeue dequeued =
      if dequeued = toDequeue then some (.execute (maxToDequeue - dequeued) n)
      else if n ≤ 0 then none
      else some (.execute (maxToDequeue - dequeued) (lowerBudget n toDequeue dequeued)) := by
  unfold LoopDestroy.afterBatch lowerBudget
  by_cases h : dequeued = toDequeue
  · rw [if_neg (by simpa using h), if_pos h]
  · rw [if_pos h, if_neg h]

namespace Execution

/-- What an incomplete dequeue costs. -/
def cost (call : ℕ × List α) : ℤ :=
  if call.2.length = call.1 then 0
  else (if call.2.length ≤ call.1 / 8 then 1 else 0) + (if call.2.length < 13 then 57 else 0)

theorem lowerBudget_eq (n : ℤ) {toDequeue : ℕ} {commands : List α} (h : commands.length ≠ toDequeue) :
    lowerBudget n toDequeue commands.length = n - cost (toDequeue, commands) := by
  unfold lowerBudget cost
  rw [Nat.shiftRight_eq_div_pow, if_neg h]
  simp only [show 2 ^ 3 = 8 from rfl]
  split_ifs <;> omega

theorem cost_nonneg (call : ℕ × List α) : 0 ≤ cost call := by
  unfold cost
  split_ifs <;> omega

/-- A call of `TryDequeueBulk` that gets nothing costs 58. -/
theorem cost_of_empty {toDequeue : ℕ} (h : 0 < toDequeue) : cost (toDequeue, ([] : List α)) = 58 := by
  unfold cost
  rw [List.length_nil, if_neg (by omega), if_pos (by omega), if_pos (by omega)]
  rfl

/-- The commands that a list of calls has got. -/
def got (calls : List (ℕ × List α)) : List α := (calls.map Prod.snd).flatten

@[simp] theorem got_append (l l' : List (ℕ × List α)) : got (l ++ l') = got l ++ got l' := by simp [got]

@[simp] theorem got_singleton (call : ℕ × List α) : got [call] = call.2 := by simp [got]

/-- Each call of a list asks for something and for no more than is left, and gets what there is. -/
def Asked (tryDequeueBulk : ℕ → ℕ → List α) (max : ℕ) (calls : List (ℕ × List α)) : Prop :=
  ∀ i toDequeue commands, calls[i]? = some (toDequeue, commands) →
    commands = tryDequeueBulk i toDequeue ∧ 0 < toDequeue ∧ commands.length ≤ toDequeue ∧
      (got (calls.take i)).length + toDequeue ≤ max

/-- What holds whenever the loop comes to its condition. -/
structure Inv (tryDequeueBulk : ℕ → ℕ → List α) (max : ℕ) (x : Execution α) : Prop where
  asked : Asked tryDequeueBulk max x.calls
  executed : x.executed = got x.calls
  total : x.total = x.executed.length
  rest : x.total + x.maxToDequeue = max
  budget : x.notFullDequeuesMax = 512 - (x.calls.map cost).sum

/-- How many turns there can still be. -/
def measure (x : Execution α) : ℕ := x.maxToDequeue + (x.notFullDequeuesMax.toNat + 57) / 58

variable {tryDequeueBulk : ℕ → ℕ → List α} {max : ℕ} {x : Execution α}

/-- One more call. -/
theorem Asked.append {calls : List (ℕ × List α)} (h : Asked tryDequeueBulk max calls) {toDequeue : ℕ}
    (hpos : 0 < toDequeue) (hlen : (tryDequeueBulk calls.length toDequeue).length ≤ toDequeue)
    (hrest : (got calls).length + toDequeue ≤ max) :
    Asked tryDequeueBulk max (calls ++ [(toDequeue, tryDequeueBulk calls.length toDequeue)]) := by
  intro i t commands hi
  rcases Nat.lt_or_ge i calls.length with hlt | hge
  · rw [List.getElem?_append_left hlt] at hi
    rw [List.take_append_of_le_length hlt.le]
    exact h i t commands hi
  · obtain rfl : i = calls.length := by
      have := (List.getElem?_eq_some_iff.1 hi).1
      rw [List.length_append, List.length_singleton] at this
      omega
    rw [List.getElem?_append_right le_rfl, Nat.sub_self] at hi
    obtain ⟨rfl, rfl⟩ := Prod.mk.inj (Option.some.inj hi)
    rw [List.take_left]
    exact ⟨rfl, hpos, hlen, hrest⟩

/-- What `Execute` has done when it returns. -/
structure Done (tryDequeueBulk : ℕ → ℕ → List α) (max : ℕ) (x : Execution α) : Prop where
  /-- No call asks for more than is left. -/
  asked : Asked tryDequeueBulk max x.calls
  /-- Every command that was dequeued is executed once, in the order of the dequeues. -/
  executed : x.executed = got x.calls
  total : x.total = x.executed.length
  total_le : x.total ≤ max
  /-- With fewer than it was told to execute, the last dequeue was incomplete and the incomplete ones
  before it have used up the budget. -/
  fewer : x.total < max → ∃ pre toDequeue commands, x.calls = pre ++ [(toDequeue, commands)] ∧
    commands.length < toDequeue ∧ 512 ≤ (pre.map cost).sum

theorem Inv.done (h : x.Inv tryDequeueBulk max) (h0 : x.maxToDequeue = 0) :
    x.Done tryDequeueBulk max := by
  have hrest := h.rest
  exact ⟨h.asked, h.executed, h.total, by omega, by omega⟩

/-- What holds after the commands of a dequeue have been executed. -/
theorem Inv.took (h : x.Inv tryDequeueBulk max) (h32 : max < 2 ^ 32) {toDequeue : ℕ}
    (hpos : 0 < toDequeue) (hle : toDequeue ≤ x.maxToDequeue) {commands : List α}
    (hcommands : tryDequeueBulk x.calls.length toDequeue = commands) (hlen : commands.length ≤ toDequeue) :
    Asked tryDequeueBulk max (x.took toDequeue commands).calls ∧
      (x.took toDequeue commands).executed = got (x.took toDequeue commands).calls ∧
      (x.took toDequeue commands).total = (x.took toDequeue commands).executed.length ∧
      (x.took toDequeue commands).total = x.total + commands.length := by
  have hrest := h.rest
  have hexecuted := h.executed
  have htotal := h.total
  have hmod : (x.total + commands.length) % 2 ^ 32 = x.total + commands.length :=
    Nat.mod_eq_of_lt (by omega)
  simp only [Execution.took, hmod, List.length_append, got_append, got_singleton]
  refine ⟨?_, by rw [hexecuted], by omega, trivial⟩
  subst hcommands
  exact h.asked.append hpos hlen (by rw [← hexecuted, ← htotal]; omega)

/-- **A turn that does not break** keeps the invariant and has one turn less before it. -/
theorem Inv.turn (h : x.Inv tryDequeueBulk max) (h32 : max < 2 ^ 32) {toDequeue : ℕ}
    (hpos : 0 < toDequeue) (hle : toDequeue ≤ x.maxToDequeue) {commands : List α}
    (hcommands : tryDequeueBulk x.calls.length toDequeue = commands) (hlen : commands.length ≤ toDequeue)
    {n : ℤ} (hn : n = x.notFullDequeuesMax - cost (toDequeue, commands))
    (hempty : commands.length = 0 → 0 < x.notFullDequeuesMax) :
    ((x.took toDequeue commands).lower commands.length n).Inv tryDequeueBulk max ∧
      ((x.took toDequeue commands).lower commands.length n).measure < x.measure := by
  obtain ⟨hasked, hexecuted, htotal, hsum⟩ := h.took h32 hpos hle hcommands hlen
  have hrest := h.rest
  have hbudget := h.budget
  have hmax : (2 ^ 32 + x.maxToDequeue - commands.length) % 2 ^ 32 = x.maxToDequeue - commands.length := by
    omega
  refine ⟨⟨hasked, hexecuted, htotal, ?_, ?_⟩, ?_⟩
  · show (x.took toDequeue commands).total + (2 ^ 32 + x.maxToDequeue - commands.length) % 2 ^ 32 = max
    omega
  · show n = 512 - ((x.calls ++ [(toDequeue, commands)]).map cost).sum
    rw [List.map_append, List.sum_append, List.map_singleton, List.sum_singleton]
    omega
  · show (2 ^ 32 + x.maxToDequeue - commands.length) % 2 ^ 32 + (n.toNat + 57) / 58 <
      x.maxToDequeue + (x.notFullDequeuesMax.toNat + 57) / 58
    rw [hmax]
    -- an empty dequeue lowers the budget, another one `maxToDequeue`
    rcases Nat.eq_zero_or_pos commands.length with hzero | hsome
    · rw [List.eq_nil_of_length_eq_zero hzero, cost_of_empty hpos] at hn
      have := hempty hzero
      omega
    · have hcost := cost_nonneg (toDequeue, commands)
      have hle : (n.toNat + 57) / 58 ≤ (x.notFullDequeuesMax.toNat + 57) / 58 :=
        Nat.div_le_div_right (by omega)
      omega

/-- **A turn that breaks** is an incomplete dequeue after the budget has been used up. -/
theorem Inv.broke (h : x.Inv tryDequeueBulk max) (h32 : max < 2 ^ 32) {toDequeue : ℕ}
    (hpos : 0 < toDequeue) (hle : toDequeue ≤ x.maxToDequeue) {commands : List α}
    (hcommands : tryDequeueBulk x.calls.length toDequeue = commands) (hlen : commands.length ≤ toDequeue)
    (hfull : commands.length ≠ toDequeue) (hbroke : x.notFullDequeuesMax ≤ 0) :
    (x.took toDequeue commands).Done tryDequeueBulk max := by
  obtain ⟨hasked, hexecuted, htotal, hsum⟩ := h.took h32 hpos hle hcommands hlen
  have hrest := h.rest
  have hbudget := h.budget
  exact ⟨hasked, hexecuted, htotal, by omega, fun _ => ⟨x.calls, toDequeue, commands, rfl, by omega, by omega⟩⟩

/-- **The loop ends**, within as many turns as the measure says and one more. -/
theorem Inv.loop (hbulk : ∀ i n, (tryDequeueBulk i n).length ≤ n) (h32 : max < 2 ^ 32) {fuel : ℕ}
    (h : x.Inv tryDequeueBulk max) (hfuel : x.measure + 1 < fuel) :
    ∃ y, Execution.loop tryDequeueBulk fuel x = some y ∧ y.Done tryDequeueBulk max ∧
      y.calls.length ≤ x.calls.length + x.measure + 1 := by
  induction fuel generalizing x with
  | zero => omega
  | succ fuel ih =>
    rw [Execution.loop]
    by_cases h0 : x.maxToDequeue = 0
    · exact ⟨x, if_pos h0, h.done h0, by omega⟩
    rw [if_neg h0]
    have hpos : 0 < min x.maxToDequeue LoopDestroy.elems := by unfold LoopDestroy.elems; omega
    have hle : min x.maxToDequeue LoopDestroy.elems ≤ x.maxToDequeue := min_le_left _ _
    simp only
    generalize min x.maxToDequeue LoopDestroy.elems = toDequeue at hpos hle
    have hlen := hbulk x.calls.length toDequeue
    generalize hcommands : tryDequeueBulk x.calls.length toDequeue = commands at hlen
    have hcalls : (x.took toDequeue commands).calls.length = x.calls.length + 1 := by simp [Execution.took]
    have hnext : ∀ n : ℤ, n = x.notFullDequeuesMax - cost (toDequeue, commands) →
        (commands.length = 0 → 0 < x.notFullDequeuesMax) →
        ∃ y, Execution.loop tryDequeueBulk fuel ((x.took toDequeue commands).lower commands.length n) = some y ∧
          y.Done tryDequeueBulk max ∧ y.calls.length ≤ x.calls.length + x.measure + 1 := by
      intro n hn hempty
      obtain ⟨hinv, hless⟩ := h.turn h32 hpos hle hcommands hlen hn hempty
      obtain ⟨y, hy, hdone, hcount⟩ := ih hinv (by omega)
      have hsame : ((x.took toDequeue commands).lower commands.length n).calls.length =
          x.calls.length + 1 := hcalls
      exact ⟨y, hy, hdone, by omega⟩
    by_cases hfull : commands.length = toDequeue
    · rw [if_neg (by simpa using hfull)]
      refine hnext _ ?_ fun hzero => by omega
      rw [cost, if_pos hfull, sub_zero]
      rfl
    · rw [if_pos hfull]
      by_cases hbroke : x.notFullDequeuesMax ≤ 0
      · rw [if_pos (show (x.took toDequeue commands).notFullDequeuesMax ≤ 0 from hbroke)]
        exact ⟨_, rfl, h.broke h32 hpos hle hcommands hlen hfull hbroke, by omega⟩
      · rw [if_neg (show ¬(x.took toDequeue commands).notFullDequeuesMax ≤ 0 from hbroke)]
        exact hnext _ (lowerBudget_eq _ hfull) fun _ => by omega

end Execution

/-- **`Execute` makes bounded progress.**  Whatever `TryDequeueBulk` returns, `Execute` returns after at
most `maxToDequeue + 10` dequeues.  It has not asked for more than was left, it has executed every command
that it dequeued, once and in the order of the dequeues, and it returns their number, which is less than
`maxToDequeue` only if incomplete dequeues have used up the budget. -/
theorem execute_progress (tryDequeueBulk : ℕ → ℕ → List α) (hbulk : ∀ i n, (tryDequeueBulk i n).length ≤ n)
    {maxToDequeue : ℕ} (h32 : maxToDequeue < 2 ^ 32) :
    ∃ x, execute tryDequeueBulk maxToDequeue = some x ∧ x.Done tryDequeueBulk maxToDequeue ∧
      x.calls.length ≤ maxToDequeue + 10 := by
  have hinit : ({ maxToDequeue } : Execution α).Inv tryDequeueBulk maxToDequeue :=
    ⟨fun i t commands hi => by simp at hi, rfl, rfl, Nat.zero_add _, rfl⟩
  have hmeasure : ({ maxToDequeue } : Execution α).measure = maxToDequeue + 9 := by
    simp [Execution.measure]
  obtain ⟨x, hx, hdone, hcalls⟩ := hinit.loop hbulk h32 (show _ < maxToDequeue + 11 by omega)
  refine ⟨x, hx, hdone, ?_⟩
  rw [hmeasure] at hcalls
  simpa using hcalls

/-- A queue that always has one command to give. -/
theorem execute_progress_one : ∃ x, execute (fun i n => [i].take n) 40 = some x ∧
    x.Done (fun i n => [i].take n) 40 ∧ x.calls.length ≤ 50 :=
  execute_progress _ (fun i n => by simp) (by norm_num)

/-! ### The loop as steps -/

namespace LoopDestroy

/-- A dequeue of the state machine: the commands that are enqueued before it, the producers whose
commands are taken, and these commands. -/
structure Dequeue where
  enqueued : List Entry
  producers : List ℕ
  batch : List Entry

namespace Dequeue

variable {s : State} {d : Dequeue} {max : ℕ} {n : ℤ} {calls : List Frame}

/-- The turn of the loop that makes the dequeue. -/
def actions (d : Dequeue) : List Action :=
  d.enqueued.map (fun e => .enqueue e.producer e.command) ++
    .dequeue d.producers :: List.replicate (d.batch.length + 1) .next

def log (d : Dequeue) : List Event := d.enqueued.map .enqueued ++ d.batch.map .executed

/-- The queue gives the batches, one after the other. -/
def Gives : List Entry → List Dequeue → List Entry → Prop
  | queue, [], queue' => queue' = queue
  | queue, d :: ds, queue' => ∃ queue₁,
      Lib.dequeueBulk Entry.producer (queue ++ d.enqueued) d.producers = some (d.batch, queue₁) ∧
        Gives queue₁ ds queue'

theorem run_enqueue (s : State) (es : List Entry) :
    s.run (es.map fun e => .enqueue e.producer e.command) =
      some { s with queue := s.queue ++ es, log := s.log ++ es.map .enqueued } := by
  induction es generalizing s with
  | nil => simp [State.run]
  | cons e es ih =>
    rw [List.map_cons, State.run, List.foldlM_cons]
    refine (ih _).trans ?_
    simp

/-- The rest of a batch is executed, and the turn ends. -/
theorem run_batch (s : State) {toDequeue dequeued : ℕ} {rest : List Entry}
    (hstack : s.stack = .batch max n toDequeue dequeued rest :: calls)
    (hrest : ∀ e ∈ rest, e.command ≠ .destroyHosts) :
    s.run (List.replicate (rest.length + 1) .next) =
      some { s with
        stack := (afterBatch max n toDequeue dequeued).toList ++ calls
        log := s.log ++ rest.map .executed } := by
  induction rest generalizing s with
  | nil => simp [State.run, State.step, State.next, hstack]
  | cons e rest ih =>
    have hstep : s.step .next = some { s with
        stack := .batch max n toDequeue dequeued rest :: calls, log := s.log ++ [.executed e] } := by
      simp [State.step, State.next, hstack, hrest e List.mem_cons_self]
    rw [List.length_cons, List.replicate_succ, State.run, List.foldlM_cons, hstep]
    refine (ih _ rfl fun e he => hrest e (List.mem_cons_of_mem _ he)).trans ?_
    simp

/-- **A turn of the loop is a run of the state machine.** -/
theorem run_actions (hstack : s.stack = .execute max n :: calls) (hmax : max ≠ 0)
    (hlen : d.batch.length ≤ min max elems) {queue : List Entry}
    (hdeq : Lib.dequeueBulk Entry.producer (s.queue ++ d.enqueued) d.producers = some (d.batch, queue))
    (hbatch : ∀ e ∈ d.batch, e.command ≠ .destroyHosts) :
    s.run d.actions = some { s with
      queue
      stack := (afterBatch max n (min max elems) d.batch.length).toList ++ calls
      log := s.log ++ d.log } := by
  have hproducers : d.producers.length ≤ min max elems := by
    rwa [← Lib.length_dequeueBulk hdeq]
  have hstep : State.step { s with
        queue := s.queue ++ d.enqueued, log := s.log ++ d.enqueued.map .enqueued } (.dequeue d.producers) =
      some { s with
        queue, stack := .batch max n (min max elems) d.batch.length d.batch :: calls
        log := s.log ++ d.enqueued.map .enqueued } := by
    simp [State.step, hstack, hmax, hproducers, hdeq]
  rw [State.run, actions, List.foldlM_append]
  refine (congrArg (· >>= _) (run_enqueue s d.enqueued)).trans ?_
  rw [Option.bind_eq_bind, Option.bind_some, List.foldlM_cons, hstep]
  refine (run_batch _ rfl hbatch).trans ?_
  simp [log]

end Dequeue

section Loop

open Execution

variable {tryDequeueBulk : ℕ → ℕ → List Entry} {x y : Execution Entry}

/-- What is left of the loop is a run that takes the batches out of the queue and executes them, and
returns to the caller. -/
def RunsAs (x : Execution Entry) (later : List (ℕ × List Entry)) : Prop :=
  ∀ (s : State) (calls : List Frame) (ds : List Dequeue) (queue : List Entry),
    s.stack = .execute x.maxToDequeue x.notFullDequeuesMax :: calls →
    ds.map Dequeue.batch = later.map Prod.snd → Dequeue.Gives s.queue ds queue →
    (∀ e ∈ got later, e.command ≠ .destroyHosts) →
    ∃ last, s.run (ds.flatMap Dequeue.actions ++ last) =
      some { s with queue, stack := calls, log := s.log ++ ds.flatMap Dequeue.log }

/-- The loop at its end. -/
theorem runsAs_nil (h : x.maxToDequeue = 0) : RunsAs x [] := by
  intro s calls ds queue hstack hds hgives _
  obtain rfl := List.map_eq_nil_iff.mp hds
  obtain rfl : queue = s.queue := hgives
  exact ⟨[.next], by simp [State.run, State.step, State.next, hstack, h]⟩

/-- A turn, and what comes after it: nothing, or the rest of the loop. -/
theorem runsAs_cons (h0 : x.maxToDequeue ≠ 0) {commands : List Entry}
    (hlen : commands.length ≤ min x.maxToDequeue elems) {later : List (ℕ × List Entry)}
    (hnext : (afterBatch x.maxToDequeue x.notFullDequeuesMax (min x.maxToDequeue elems)
        commands.length = none ∧ later = []) ∨
      ∃ x' : Execution Entry, RunsAs x' later ∧
        afterBatch x.maxToDequeue x.notFullDequeuesMax (min x.maxToDequeue elems) commands.length =
          some (.execute x'.maxToDequeue x'.notFullDequeuesMax)) :
    RunsAs x ((min x.maxToDequeue elems, commands) :: later) := by
  intro s calls ds queue hstack hds hgives hno
  obtain ⟨d, ds, rfl, hd, hrest⟩ := List.map_eq_cons_iff.mp hds
  obtain ⟨queue₁, hdeq, hgives⟩ := hgives
  obtain rfl : d.batch = commands := hd
  have hturn := Dequeue.run_actions hstack h0 hlen hdeq fun e he => hno e (by simp [got, he])
  rw [List.flatMap_cons, List.flatMap_cons]
  rcases hnext with ⟨hbreak, rfl⟩ | ⟨x', hx', hgo⟩
  · -- the `break`
    obtain rfl := List.map_eq_nil_iff.mp hrest
    obtain rfl : queue = queue₁ := hgives
    rw [hbreak] at hturn
    exact ⟨[], by simpa using hturn⟩
  · rw [hgo] at hturn
    have hlater : ∀ e ∈ got later, e.command ≠ .destroyHosts := fun e he => hno e (by
      simp only [got, List.map_cons, List.flatten_cons, List.mem_append]
      exact .inr he)
    obtain ⟨last, hlast⟩ := hx' { s with
        queue := queue₁
        stack := .execute x'.maxToDequeue x'.notFullDequeuesMax :: calls
        log := s.log ++ d.log } calls ds queue rfl hrest hgives hlater
    refine ⟨last, ?_⟩
    rw [State.run, List.append_assoc, List.foldlM_append]
    refine (congrArg (· >>= _) hturn).trans ?_
    refine Eq.trans hlast ?_
    simp

/-- **The two models of the loop agree:** what it executes is what the state machine executes in a run
that is given the same batches. -/
theorem loop_runsAs (hbulk : ∀ i n, (tryDequeueBulk i n).length ≤ n) {fuel : ℕ}
    (h32 : x.maxToDequeue < 2 ^ 32) (h : Execution.loop tryDequeueBulk fuel x = some y) :
    ∃ later, y.calls = x.calls ++ later ∧ y.executed = x.executed ++ got later ∧ RunsAs x later := by
  induction fuel generalizing x with
  | zero => cases h
  | succ fuel ih =>
    rw [Execution.loop] at h
    by_cases h0 : x.maxToDequeue = 0
    · rw [if_pos h0] at h
      obtain rfl := Option.some.inj h
      exact ⟨[], by simp, by simp [got], runsAs_nil h0⟩
    rw [if_neg h0] at h
    simp only at h
    have hlen := hbulk x.calls.length (min x.maxToDequeue elems)
    generalize tryDequeueBulk x.calls.length (min x.maxToDequeue elems) = commands at h hlen
    have hmax : (2 ^ 32 + x.maxToDequeue - commands.length) % 2 ^ 32 =
        x.maxToDequeue - commands.length := by
      have hle : min x.maxToDequeue elems ≤ x.maxToDequeue := min_le_left _ _
      omega
    have hafter := afterBatch_eq x.maxToDequeue x.notFullDequeuesMax (min x.maxToDequeue elems)
      commands.length
    -- the loop goes on with the budget `n`
    have hgo : ∀ n : ℤ,
        Execution.loop tryDequeueBulk fuel
          ((x.took (min x.maxToDequeue elems) commands).lower commands.length n) = some y →
        afterBatch x.maxToDequeue x.notFullDequeuesMax (min x.maxToDequeue elems) commands.length =
          some (.execute (x.maxToDequeue - commands.length) n) →
        ∃ later, y.calls = x.calls ++ later ∧ y.executed = x.executed ++ got later ∧ RunsAs x later := by
      intro n hloop hn
      obtain ⟨later, hcalls, hexec, hruns⟩ := ih (by simp only [lower]; omega) hloop
      refine ⟨(min x.maxToDequeue elems, commands) :: later, ?_, ?_, runsAs_cons h0 hlen
        (.inr ⟨_, hruns, by rw [hn]; simp only [lower, took, hmax]⟩)⟩
      · simp [hcalls, lower, took]
      · simp [hexec, lower, took, got]
    by_cases hfull : commands.length = min x.maxToDequeue elems
    · rw [if_neg (by simpa using hfull)] at h
      exact hgo _ h (by rw [hafter, if_pos hfull]; rfl)
    rw [if_pos hfull] at h
    by_cases hbroke : x.notFullDequeuesMax ≤ 0
    · rw [if_pos (show (x.took _ commands).notFullDequeuesMax ≤ 0 from hbroke)] at h
      obtain rfl := Option.some.inj h
      exact ⟨[(min x.maxToDequeue elems, commands)], rfl, by simp [took],
        runsAs_cons h0 hlen (.inl ⟨by rw [hafter, if_neg hfull, if_pos hbroke], rfl⟩)⟩
    · rw [if_neg (show ¬(x.took _ commands).notFullDequeuesMax ≤ 0 from hbroke)] at h
      exact hgo _ h (by rw [hafter, if_neg hfull, if_neg hbroke]; rfl)

/-- **`Execute` is a run of the state machine of `Queue.Destroy`:** called with nothing on the stack, and
given the batches that `TryDequeueBulk` has returned, it executes the same commands and returns. -/
theorem execute_run {tryDequeueBulk : ℕ → ℕ → List Entry}
    (hbulk : ∀ i n, (tryDequeueBulk i n).length ≤ n) {maxToDequeue : ℕ} (h32 : maxToDequeue < 2 ^ 32)
    {y : Execution Entry} (h : execute tryDequeueBulk maxToDequeue = some y)
    (hno : ∀ e ∈ y.executed, e.command ≠ .destroyHosts) {s : State} (hstack : s.stack = [])
    {ds : List Dequeue} {queue : List Entry} (hds : ds.map Dequeue.batch = y.calls.map Prod.snd)
    (hgives : Dequeue.Gives s.queue ds queue) :
    ∃ last, s.run (.call maxToDequeue :: (ds.flatMap Dequeue.actions ++ last)) =
        some { s with queue, log := s.log ++ ds.flatMap Dequeue.log } ∧
      y.executed = ds.flatMap Dequeue.batch := by
  obtain ⟨later, hcalls, hexec, hruns⟩ := loop_runsAs hbulk h32 h
  rw [List.nil_append] at hcalls hexec
  subst hcalls
  obtain ⟨last, hlast⟩ := hruns { s with stack := [callExecute maxToDequeue] } [] ds queue rfl hds hgives
    (by rwa [← hexec])
  refine ⟨last, ?_, ?_⟩
  · rw [State.run, List.foldlM_cons, State.step, if_pos hstack]
    refine Eq.trans hlast ?_
    rw [← hstack]
  · rw [hexec, Execution.got, ← hds, List.flatMap_def]

end Loop

end LoopDestroy
end ICon7
