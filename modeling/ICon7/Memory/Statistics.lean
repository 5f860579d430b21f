/-
# What the memory statistics count

`MemoryPool::Allocate` and `MemoryPool::Release` (`src/MemoryPool.cpp`, with rpmalloc)
keep `MemoryStats` (`include/icon7/Stats.hpp`) in atomic counters.  Any number of threads
allocate and release at the same time; each access to a counter is one step.

When no thread is in the middle of a call, the bytes allocated less those deallocated are
the bytes of the blocks that the program has, and for each class of sizes the
allocations less the deallocations are their number (`statistics_exact`).

`maxInUseAtOnce` is raised to `allocatedBytes - deallocatedBytes` by `Lib.Raise`, but the
two counters are read one after the other.  What is deallocated in between makes the
difference too small, never too large.  So the maximum is never more than what was in use
at some time, and is exactly the most that was ever in use if nothing is deallocated
between the two reads of an allocation (`maxInUseAtOnce_peak`).

C++ leaves open which operand of the `-` in `(Stats().allocatedBytes += bytes) -
Stats().deallocatedBytes` is evaluated first.  The left one is taken first here, as compilers do.

The counters are `int64_t`; that they do not overflow is assumed.
-/

import ICon7.Lib.AtomicMax
import ICon7.Lib.Holdings
import ICon7.Lib.Run

namespace ICon7
namespace MemoryStatistics

open Lib

inductive SizeClass where
  | small
  | medium
  | large
deriving DecidableEq, Repr

def MAX_BYTES_FOR_SMALL_ALLOCATIONS : ℕ := 256
def MAX_BYTES_FOR_MEDIUM_ALLOCATIONS : ℕ := 4096

/-- The counter that a block is counted by. -/
def sizeClass (bytes : ℕ) : SizeClass :=
  if bytes ≤ MAX_BYTES_FOR_SMALL_ALLOCATIONS then .small
  else if bytes ≤ MAX_BYTES_FOR_MEDIUM_ALLOCATIONS then .medium
  else .large

/-- Where a thread is.  In `Allocate`, with the usable size of its block: before the addition to
`allocatedBytes`, before `deallocatedBytes` is subtracted from the sum, in the loop that raises
`maxInUseAtOnce`, and before it counts the block; in `Release`: before the addition to
`deallocatedBytes`, and before it counts. -/
inductive Thread where
  | idle
  | add (bytes : ℕ)
  | subtract (bytes : ℕ) (sum : ℤ)
  | raise (bytes : ℕ) (max : ℤ) (r : Raise ℤ)
  | count (bytes : ℕ)
  | deallocate (bytes : ℕ)
  | countDeallocation (bytes : ℕ)
deriving DecidableEq, Repr

/-- Its next step adds to `deallocatedBytes`. -/
def Thread.deallocates : Thread → Bool
  | deallocate _ => true
  | idle | add _ | subtract .. | raise .. | count _ | countDeallocation _ => false

/-- It has added to `allocatedBytes` and not yet read `deallocatedBytes`. -/
def Thread.between : Thread → Bool
  | subtract .. => true
  | idle | add _ | raise .. | count _ | deallocate _ | countDeallocation _ => false

/-- `MemoryStats`, the threads, the usable sizes of the blocks that the program has, and every value
that `allocatedBytes - deallocatedBytes` has had. -/
structure State where
  threads : List Thread
  allocatedBytes : ℤ := 0
  deallocatedBytes : ℤ := 0
  maxInUseAtOnce : ℤ := 0
  allocations : SizeClass → ℕ := fun _ => 0
  deallocations : SizeClass → ℕ := fun _ => 0
  blocks : List ℕ := []
  inUse : List ℤ := [0]

/-- `allocate t bytes usable`: a thread calls `Allocate`, and rpmalloc gives it a block of that
usable size; `release t i`: it calls `Release` for the `i`-th block; `step`: it goes on, and an
exchange may fail. -/
inductive Op where
  | allocate (t bytes usable : ℕ)
  | release (t i : ℕ)
  | step (t : ℕ) (fails : Bool)
deriving DecidableEq, Repr

namespace State

/-- The next step of a thread. -/
def threadStep (s : State) (t : ℕ) (fails : Bool) : Thread → Option State
  | .idle => none
  | .add bytes =>
    let sum := s.allocatedBytes + bytes
    some { s with
      allocatedBytes := sum
      inUse := s.inUse ++ [sum - s.deallocatedBytes]
      threads := s.threads.set t (.subtract bytes sum) }
  | .subtract bytes sum =>
    some { s with
      threads := s.threads.set t (.raise bytes (sum - s.deallocatedBytes) .load) }
  | .raise bytes max r =>
    let (maxInUseAtOnce, r) := r.step s.maxInUseAtOnce max fails
    some { s with
      maxInUseAtOnce
      threads := s.threads.set t (if r = .done then .count bytes else .raise bytes max r) }
  | .count bytes =>
    some { s with
      allocations := Function.update s.allocations (sizeClass bytes) (s.allocations (sizeClass bytes) + 1)
      blocks := s.blocks ++ [bytes]
      threads := s.threads.set t .idle }
  | .deallocate bytes =>
    let sum := s.deallocatedBytes + bytes
    some { s with
      deallocatedBytes := sum
      inUse := s.inUse ++ [s.allocatedBytes - sum]
      threads := s.threads.set t (.countDeallocation bytes) }
  | .countDeallocation bytes =>
    some { s with
      deallocations :=
        Function.update s.deallocations (sizeClass bytes) (s.deallocations (sizeClass bytes) + 1)
      threads := s.threads.set t .idle }

def step (s : State) : Op → Option State
  | .allocate t bytes usable => do
    let thread ← s.threads[t]?
    guard (thread = .idle)
    -- a block that is too small is freed again, and nothing is counted
    if usable < bytes then return s
    else return { s with
      threads := s.threads.set t (.add usable) }
  | .release t i => do
    let thread ← s.threads[t]?
    guard (thread = .idle)
    let bytes ← s.blocks[i]?
    return { s with
      blocks := s.blocks.eraseIdx i
      threads := s.threads.set t (.deallocate bytes) }
  | .step t fails => do
    let thread ← s.threads[t]?
    s.threadStep t fails thread

def run (s : State) (ops : List Op) : Option State := ops.foldlM step s

/-- Threads that have not begun. -/
def init (n : ℕ) : State := { threads := List.replicate n .idle }

/-- No thread is in the middle of a call. -/
def Quiet (s : State) : Prop := ∀ thread ∈ s.threads, thread = .idle

instance (s : State) : Decidable s.Quiet :=
  inferInstanceAs (Decidable (∀ thread ∈ s.threads, thread = .idle))

/-- The step does not deallocate while a thread is between its two reads. -/
def Calm (s : State) : Op → Prop
  | .step t _ => (∃ thread ∈ s.threads[t]?, thread.deallocates) → ∀ thread ∈ s.threads, ¬thread.between
  | .allocate .. | .release .. => True

instance (s : State) : (op : Op) → Decidable (s.Calm op)
  | .step t _ => inferInstanceAs (Decidable
      ((∃ thread ∈ s.threads[t]?, thread.deallocates) → ∀ thread ∈ s.threads, ¬thread.between))
  | .allocate .. | .release .. => inferInstanceAs (Decidable True)

/-! ### What a step can do -/

/-- What one step does to the counters, for a thread that moves from one place to another. -/
inductive Moves (s : State) : Thread → Thread → State → Prop
  | allocate (usable : ℕ) : Moves s .idle (.add usable) s
  | release (i bytes : ℕ) (h : s.blocks[i]? = some bytes) :
      Moves s .idle (.deallocate bytes) { s with blocks := s.blocks.eraseIdx i }
  | add (bytes : ℕ) : Moves s (.add bytes) (.subtract bytes (s.allocatedBytes + bytes)) { s with
      allocatedBytes := s.allocatedBytes + bytes
      inUse := s.inUse ++ [s.allocatedBytes + bytes - s.deallocatedBytes] }
  | subtract (bytes : ℕ) (sum : ℤ) :
      Moves s (.subtract bytes sum) (.raise bytes (sum - s.deallocatedBytes) .load) s
  | raise (bytes : ℕ) (max : ℤ) (r : Raise ℤ) (fails : Bool)
      (h : (r.step s.maxInUseAtOnce max fails).2 ≠ .done) :
      Moves s (.raise bytes max r) (.raise bytes max (r.step s.maxInUseAtOnce max fails).2) { s with
        maxInUseAtOnce := (r.step s.maxInUseAtOnce max fails).1 }
  | raised (bytes : ℕ) (max : ℤ) (r : Raise ℤ) (fails : Bool)
      (h : (r.step s.maxInUseAtOnce max fails).2 = .done) :
      Moves s (.raise bytes max r) (.count bytes) { s with
        maxInUseAtOnce := (r.step s.maxInUseAtOnce max fails).1 }
  | count (bytes : ℕ) : Moves s (.count bytes) .idle { s with
      allocations := Function.update s.allocations (sizeClass bytes) (s.allocations (sizeClass bytes) + 1)
      blocks := s.blocks ++ [bytes] }
  | deallocate (bytes : ℕ) : Moves s (.deallocate bytes) (.countDeallocation bytes) { s with
      deallocatedBytes := s.deallocatedBytes + bytes
      inUse := s.inUse ++ [s.allocatedBytes - (s.deallocatedBytes + bytes)] }
  | countDeallocation (bytes : ℕ) : Moves s (.countDeallocation bytes) .idle { s with
      deallocations :=
        Function.update s.deallocations (sizeClass bytes) (s.deallocations (sizeClass bytes) + 1) }

variable {s s' : State} {op : Op}

/-- **A step is nothing, or a move of one thread.** -/
theorem step_moves (h : s.step op = some s') : s' = s ∨ ∃ t old new u, s.threads[t]? = some old ∧
    Moves s old new u ∧ s' = { u with threads := s.threads.set t new } ∧
      (old.deallocates → ∃ fails, op = .step t fails) := by
  cases op with
  | allocate t bytes usable =>
    obtain ⟨thread, hthread, hbind⟩ := Option.bind_eq_some_iff.mp h
    obtain ⟨_, hidle, hs'⟩ := Option.bind_eq_some_iff.mp hbind
    obtain rfl : thread = .idle := by
      by_contra hne
      simp [guard, hne] at hidle
    split_ifs at hs'
    · exact .inl (Option.some.inj hs').symm
    · exact .inr ⟨t, _, _, _, hthread, .allocate usable, (Option.some.inj hs').symm, nofun⟩
  | release t i =>
    obtain ⟨thread, hthread, hbind⟩ := Option.bind_eq_some_iff.mp h
    obtain ⟨_, hidle, hbind'⟩ := Option.bind_eq_some_iff.mp hbind
    obtain ⟨bytes, hbytes, hs'⟩ := Option.bind_eq_some_iff.mp hbind'
    obtain rfl : thread = .idle := by
      by_contra hne
      simp [guard, hne] at hidle
    exact .inr ⟨t, _, _, _, hthread, .release i bytes hbytes, (Option.some.inj hs').symm, nofun⟩
  | step t fails =>
    obtain ⟨thread, hthread, h⟩ := Option.bind_eq_some_iff.mp h
    refine .inr ⟨t, thread, ?_⟩
    have hop : thread.deallocates → ∃ f, Op.step t fails = .step t f := fun _ => ⟨fails, rfl⟩
    cases thread with
    | idle => cases h
    | add bytes => exact ⟨_, _, hthread, .add bytes, (Option.some.inj h).symm, hop⟩
    | subtract bytes sum => exact ⟨_, _, hthread, .subtract bytes sum, (Option.some.inj h).symm, hop⟩
    | raise bytes max r =>
      by_cases hdone : (r.step s.maxInUseAtOnce max fails).2 = .done
      · refine ⟨_, _, hthread, .raised bytes max r fails hdone, ?_, hop⟩
        simp only [threadStep, hdone, if_true, Option.some.injEq] at h
        exact h.symm
      · refine ⟨_, _, hthread, .raise bytes max r fails hdone, ?_, hop⟩
        simp only [threadStep, hdone, if_false, Option.some.injEq] at h
        exact h.symm
    | count bytes => exact ⟨_, _, hthread, .count bytes, (Option.some.inj h).symm, hop⟩
    | deallocate bytes => exact ⟨_, _, hthread, .deallocate bytes, (Option.some.inj h).symm, hop⟩
    | countDeallocation bytes =>
      exact ⟨_, _, hthread, .countDeallocation bytes, (Option.some.inj h).symm, hop⟩

/-! ### Bytes and blocks -/

/-- The bytes of a thread's block that are counted as in use, but that the program does not have. -/
def counted : Thread → ℤ
  | .subtract bytes _ | .raise bytes _ _ | .count bytes | .deallocate bytes => bytes
  | .idle | .add _ | .countDeallocation _ => 0

/-- A thread's block that is counted by a class, but that the program does not have. -/
def classed (c : SizeClass) : Thread → ℕ
  | .deallocate bytes | .countDeallocation bytes => if sizeClass bytes = c then 1 else 0
  | .idle | .add _ | .subtract .. | .raise .. | .count _ => 0

/-- The blocks of a class. -/
def ofClass (c : SizeClass) (blocks : List ℕ) : ℕ := blocks.countP fun bytes => sizeClass bytes = c

/-- **What is counted** is what the program has and what is on its way. -/
structure Balanced (s : State) : Prop where
  bytes : s.allocatedBytes - s.deallocatedBytes = (s.blocks.sum : ℤ) + (s.threads.map counted).sum
  classes : ∀ c, s.allocations c = s.deallocations c + ofClass c s.blocks +
    (s.threads.map (classed c)).sum

theorem Balanced.init (n : ℕ) : (init n).Balanced where
  bytes := by simp [State.init, counted]
  classes := fun c => by simp [State.init, ofClass, classed]

section

variable {old new : Thread} {u : State}

/-- A move keeps the bytes in balance. -/
theorem Moves.bytes (h : Moves s old new u) :
    u.allocatedBytes - u.deallocatedBytes - (u.blocks.sum : ℤ) + counted old =
      s.allocatedBytes - s.deallocatedBytes - (s.blocks.sum : ℤ) + counted new := by
  cases h with
  | allocate | subtract | raise | raised | countDeallocation => simp only [counted]
  | release i bytes hi =>
    obtain ⟨hlt, rfl⟩ := List.getElem?_eq_some_iff.mp hi
    have hsum := (List.getElem_cons_eraseIdx_perm hlt).sum_eq
    rw [List.sum_cons] at hsum
    simp only [counted, ← hsum]
    push_cast
    ring
  | add bytes =>
    simp only [counted]
    ring
  | count bytes =>
    simp only [counted, List.sum_append, List.sum_singleton]
    push_cast
    ring
  | deallocate bytes =>
    simp only [counted]
    ring

/-- A move keeps the blocks of a class in balance. -/
theorem Moves.classes (h : Moves s old new u) (c : SizeClass) :
    u.allocations c + s.deallocations c + ofClass c s.blocks + classed c old =
      s.allocations c + u.deallocations c + ofClass c u.blocks + classed c new := by
  cases h with
  | allocate | add | subtract | raise | raised | deallocate => simp only [classed]
  | release i bytes hi =>
    obtain ⟨hlt, rfl⟩ := List.getElem?_eq_some_iff.mp hi
    have hcount := (List.getElem_cons_eraseIdx_perm hlt).countP_eq fun bytes => sizeClass bytes = c
    rw [List.countP_cons] at hcount
    simp only [classed, ofClass, ← hcount, decide_eq_true_eq]
    omega
  | count bytes =>
    simp only [classed, ofClass, List.countP_append, List.countP_singleton, Function.update_apply,
      decide_eq_true_eq, eq_comm (a := c)]
    split_ifs with hc
    · subst hc
      omega
    · omega
  | countDeallocation bytes =>
    simp only [classed, Function.update_apply, eq_comm (a := c)]
    split_ifs with hc
    · subst hc
      omega
    · omega

end

theorem Balanced.step (hI : s.Balanced) (hstep : s.step op = some s') : s'.Balanced := by
  rcases step_moves hstep with rfl | ⟨t, old, new, u, hold, hmoves, rfl, -⟩
  · exact hI
  · constructor
    · have hbytes := hI.bytes
      have hmove := hmoves.bytes
      have hthreads := sum_map_set counted hold new
      change u.allocatedBytes - u.deallocatedBytes =
        (u.blocks.sum : ℤ) + ((s.threads.set t new).map counted).sum
      linarith
    · intro c
      have hclasses := hI.classes c
      have hmove := hmoves.classes c
      have hthreads := sum_map_set (classed c) hold new
      change u.allocations c =
        u.deallocations c + ofClass c u.blocks + ((s.threads.set t new).map (classed c)).sum
      omega

/-- **The counters are exact when no thread is in the middle of a call:** the bytes in use are those
of the blocks that the program has, and so is, for each class of sizes, the number of blocks. -/
theorem statistics_exact (n : ℕ) (ops : List Op) (hrun : (init n).run ops = some s) (hquiet : s.Quiet) :
    s.allocatedBytes - s.deallocatedBytes = (s.blocks.sum : ℤ) ∧
      ∀ c, s.allocations c = s.deallocations c + ofClass c s.blocks := by
  have hI : s.Balanced := run_invariant (fun _ _ _ hI hstep => hI.step hstep) ops (.init n) hrun
  have hthreads : s.threads = List.replicate s.threads.length .idle := List.eq_replicate_of_mem hquiet
  constructor
  · rw [hI.bytes, hthreads]
    simp [counted]
  · intro c
    rw [hI.classes c, hthreads]
    simp [classed]

/-! ### The maximum -/

/-- The value that a thread is about to raise the maximum to. -/
def promise (deallocatedBytes : ℤ) : Thread → Option ℤ
  | .subtract _ sum => some (sum - deallocatedBytes)
  | .raise _ max _ => some max
  | .idle | .add _ | .count _ | .deallocate _ | .countDeallocation _ => none

/-- **The maximum is not too large:** it, and all that it is about to be raised to, is no more than
was in use at some time. -/
structure Below (s : State) : Prop where
  max : ∃ v ∈ s.inUse, s.maxInUseAtOnce ≤ v
  promises : ∀ thread ∈ s.threads, ∀ p ∈ promise s.deallocatedBytes thread, ∃ v ∈ s.inUse, p ≤ v

theorem Below.init (n : ℕ) : (init n).Below where
  max := ⟨0, List.mem_singleton_self 0, le_rfl⟩
  promises := by
    intro thread hthread p hp
    rw [List.eq_of_mem_replicate hthread] at hp
    cases hp

section

variable {old new : Thread} {u : State}

/-- What was in use stays in the history, and `deallocatedBytes` only grows. -/
theorem Moves.grows (h : Moves s old new u) :
    s.inUse ⊆ u.inUse ∧ s.deallocatedBytes ≤ u.deallocatedBytes := by
  cases h with
  | add => exact ⟨List.subset_append_left _ _, le_rfl⟩
  | deallocate bytes => exact ⟨List.subset_append_left _ _, by simp⟩
  | allocate | release | subtract | raise | raised | count | countDeallocation =>
    exact ⟨List.Subset.refl _, le_rfl⟩

/-- The maximum is only raised to what was promised. -/
theorem Moves.max_eq (h : Moves s old new u) : u.maxInUseAtOnce = s.maxInUseAtOnce ∨
    u.maxInUseAtOnce ∈ promise s.deallocatedBytes old := by
  cases h with
  | raise bytes max r fails | raised bytes max r fails =>
    rcases r.step_eq s.maxInUseAtOnce max fails with heq | heq
    · exact .inl heq
    · exact .inr (congrArg some heq.symm)
  | allocate | release | add | subtract | count | deallocate | countDeallocation => exact .inl rfl

/-- A promise is what was promised before, or what is in use now. -/
theorem Moves.promise_eq (h : Moves s old new u) {p : ℤ} (hp : p ∈ promise u.deallocatedBytes new) :
    p ∈ promise s.deallocatedBytes old ∨ p ∈ u.inUse := by
  cases h with
  | add bytes =>
    obtain rfl := Option.some.inj hp
    exact .inr (List.mem_append_right _ (List.mem_singleton_self _))
  | subtract | raise => exact .inl hp
  | allocate | release | raised | count | deallocate | countDeallocation => cases hp

end

/-- A promise falls when more is deallocated. -/
theorem promise_anti {d d' : ℤ} (hd : d ≤ d') {thread : Thread} {p : ℤ} (hp : p ∈ promise d' thread) :
    ∃ q ∈ promise d thread, p ≤ q := by
  cases thread with
  | subtract bytes sum =>
    obtain rfl := Option.some.inj hp
    exact ⟨sum - d, rfl, by omega⟩
  | raise bytes max r => exact ⟨p, hp, le_rfl⟩
  | idle | add | count | deallocate | countDeallocation => cases hp

theorem Below.step (hI : s.Below) (hstep : s.step op = some s') : s'.Below := by
  rcases step_moves hstep with rfl | ⟨t, old, new, u, hold, hmoves, rfl, -⟩
  · exact hI
  obtain ⟨hinUse, hdealloc⟩ := hmoves.grows
  have hmem : old ∈ s.threads := List.mem_of_getElem? hold
  constructor
  · change ∃ v ∈ u.inUse, u.maxInUseAtOnce ≤ v
    rcases hmoves.max_eq with heq | hp
    · obtain ⟨v, hv, hle⟩ := hI.max
      exact ⟨v, hinUse hv, heq ▸ hle⟩
    · obtain ⟨v, hv, hle⟩ := hI.promises old hmem _ hp
      exact ⟨v, hinUse hv, hle⟩
  · intro thread hthread p hp
    change ∃ v ∈ u.inUse, p ≤ v
    rcases List.mem_or_eq_of_mem_set hthread with hthread | rfl
    · obtain ⟨q, hq, hpq⟩ := promise_anti hdealloc hp
      obtain ⟨v, hv, hle⟩ := hI.promises thread hthread q hq
      exact ⟨v, hinUse hv, hpq.trans hle⟩
    · rcases hmoves.promise_eq hp with hp | hp
      · obtain ⟨v, hv, hle⟩ := hI.promises old hmem p hp
        exact ⟨v, hinUse hv, hle⟩
      · exact ⟨p, hp, le_rfl⟩

/-- **The maximum is not too small:** what was in use at any time is no more than the maximum, or
than what a thread is about to raise it to. -/
structure Above (s : State) : Prop where
  now : s.allocatedBytes - s.deallocatedBytes ∈ s.inUse
  covered : ∀ v ∈ s.inUse, v ≤ s.maxInUseAtOnce ∨
    ∃ thread ∈ s.threads, ∃ p ∈ promise s.deallocatedBytes thread, v ≤ p
  raising : ∀ bytes max r, .raise bytes max r ∈ s.threads → r.Ok s.maxInUseAtOnce max

theorem Above.init (n : ℕ) : (init n).Above where
  now := List.mem_singleton_self 0
  covered := by
    intro v hv
    exact .inl (List.mem_singleton.mp hv).le
  raising := by
    intro bytes max r hmem
    cases List.eq_of_mem_replicate hmem

section

variable {old new : Thread} {u : State}

theorem Moves.le_max (h : Moves s old new u) : s.maxInUseAtOnce ≤ u.maxInUseAtOnce := by
  cases h with
  | raise bytes max r fails | raised bytes max r fails => exact r.le_step ..
  | allocate | release | add | subtract | count | deallocate | countDeallocation => exact le_rfl

/-- What is in use now is in the history. -/
theorem Moves.now (h : Moves s old new u) (hs : s.allocatedBytes - s.deallocatedBytes ∈ s.inUse) :
    u.allocatedBytes - u.deallocatedBytes ∈ u.inUse := by
  cases h with
  | add | deallocate => exact List.mem_append_right _ (List.mem_singleton_self _)
  | allocate | release | subtract | raise | raised | count | countDeallocation => exact hs

/-- What is in use is new to the history when it grows, and the thread promises it; or when it
falls. -/
theorem Moves.history (h : Moves s old new u) {v : ℤ} (hv : v ∈ u.inUse) :
    v ∈ s.inUse ∨ v ≤ s.allocatedBytes - s.deallocatedBytes ∨ v ∈ promise u.deallocatedBytes new := by
  cases h with
  | add bytes =>
    rcases List.mem_append.mp hv with hv | hv
    · exact .inl hv
    · exact .inr (.inr (congrArg some (List.mem_singleton.mp hv).symm))
  | deallocate bytes =>
    rcases List.mem_append.mp hv with hv | hv
    · exact .inl hv
    · obtain rfl := List.mem_singleton.mp hv
      exact .inr (.inl (by omega))
  | allocate | release | subtract | raise | raised | count | countDeallocation => exact .inl hv

/-- A promise is passed on until it is kept. -/
theorem Moves.kept (h : Moves s old new u) {p : ℤ} (hp : p ∈ promise s.deallocatedBytes old)
    (hok : ∀ bytes max r, old = .raise bytes max r → r.Ok s.maxInUseAtOnce max) :
    p ≤ u.maxInUseAtOnce ∨ p ∈ promise u.deallocatedBytes new := by
  cases h with
  | raised bytes max r fails hdone =>
    obtain rfl := Option.some.inj hp
    have hstep := (hok bytes max r rfl).step fails
    rw [hdone] at hstep
    exact .inl hstep
  | subtract | raise => exact .inr hp
  | allocate | release | add | count | deallocate | countDeallocation => cases hp

/-- The loop of a thread goes on as it should. -/
theorem Moves.raising (h : Moves s old new u)
    (hok : ∀ bytes max r, old = .raise bytes max r → r.Ok s.maxInUseAtOnce max) {bytes : ℕ} {max : ℤ}
    {r : Raise ℤ} (hnew : new = .raise bytes max r) : r.Ok u.maxInUseAtOnce max := by
  cases h with
  | subtract =>
    cases hnew
    trivial
  | raise bytes' max' r' fails hne =>
    cases hnew
    exact (hok _ _ _ rfl).step fails
  | allocate | release | add | raised | count | deallocate | countDeallocation => cases hnew

/-- The promises of the others stay, if nothing is deallocated between two reads. -/
theorem Moves.promise_stays (h : Moves s old new u) {thread : Thread}
    (hcalm : old.deallocates → ¬thread.between) :
    promise u.deallocatedBytes thread = promise s.deallocatedBytes thread := by
  cases h with
  | deallocate bytes =>
    cases thread with
    | subtract => exact absurd rfl (hcalm rfl)
    | idle | add | raise | count | deallocate | countDeallocation => rfl
  | allocate | release | add | subtract | raise | raised | count | countDeallocation => rfl

end

theorem Above.step (hI : s.Above) (hcalm : s.Calm op) (hstep : s.step op = some s') : s'.Above := by
  rcases step_moves hstep with rfl | ⟨t, old, new, u, hold, hmoves, rfl, hop⟩
  · exact hI
  have hcalm' : old.deallocates → ∀ thread ∈ s.threads, ¬thread.between := by
    intro hdealloc
    obtain ⟨fails, rfl⟩ := hop hdealloc
    exact hcalm ⟨old, hold, hdealloc⟩
  have hok : ∀ bytes max r, old = .raise bytes max r → r.Ok s.maxInUseAtOnce max := fun bytes max r hraise =>
    hI.raising bytes max r (hraise ▸ List.mem_of_getElem? hold)
  obtain ⟨ht, -⟩ := List.getElem?_eq_some_iff.mp hold
  have hnew : new ∈ s.threads.set t new := List.mem_set ht new
  -- what covered a value before covers it now
  have hcover : ∀ v, (v ≤ s.maxInUseAtOnce ∨
      ∃ thread ∈ s.threads, ∃ p ∈ promise s.deallocatedBytes thread, v ≤ p) →
      v ≤ u.maxInUseAtOnce ∨
        ∃ thread ∈ s.threads.set t new, ∃ p ∈ promise u.deallocatedBytes thread, v ≤ p := by
    rintro v (hle | ⟨thread, hthread, p, hp, hle⟩)
    · exact .inl (hle.trans hmoves.le_max)
    · obtain ⟨j, hj⟩ := List.mem_iff_getElem?.mp hthread
      by_cases hjt : t = j
      · subst hjt
        obtain rfl := Option.some.inj (hold.symm.trans hj)
        rcases hmoves.kept hp hok with hmax | hp'
        · exact .inl (hle.trans hmax)
        · exact .inr ⟨new, hnew, p, hp', hle⟩
      · refine .inr ⟨thread, List.mem_iff_getElem?.mpr ⟨j, ?_⟩, p, ?_, hle⟩
        · rw [List.getElem?_set_ne hjt, hj]
        · rwa [hmoves.promise_stays fun hdealloc => hcalm' hdealloc thread hthread]
  constructor
  · exact hmoves.now hI.now
  · intro v hv
    rcases hmoves.history hv with hv | hv | hv
    · exact hcover v (hI.covered v hv)
    · rcases hcover _ (hI.covered _ hI.now) with hle | ⟨thread, hthread, p, hp, hle⟩
      · exact .inl (hv.trans hle)
      · exact .inr ⟨thread, hthread, p, hp, hv.trans hle⟩
    · exact .inr ⟨new, hnew, v, hv, le_rfl⟩
  · intro bytes max r hmem
    rcases List.mem_or_eq_of_mem_set hmem with hmem | hraise
    · exact (hI.raising bytes max r hmem).mono hmoves.le_max
    · exact hmoves.raising hok hraise.symm

/-- **What `maxInUseAtOnce` says.**  It is never more than was in use at some time.  If nothing is
deallocated between the two reads of an allocation it is, whenever no thread is in the middle of a
call, the most that was ever in use. -/
theorem maxInUseAtOnce_peak (n : ℕ) (ops : List Op) (hrun : (init n).run ops = some s) :
    (∃ v ∈ s.inUse, s.maxInUseAtOnce ≤ v) ∧
      (Along step Calm (init n) ops → s.Quiet →
        s.maxInUseAtOnce ∈ s.inUse ∧ ∀ v ∈ s.inUse, v ≤ s.maxInUseAtOnce) := by
  have hbelow : s.Below := run_invariant (fun _ _ _ hI hstep => hI.step hstep) ops (.init n) hrun
  refine ⟨hbelow.max, fun hcalm hquiet => ?_⟩
  have habove : s.Above := run_invariant_along (fun _ _ _ hI hcalm hstep => hI.step hcalm hstep) ops
    (.init n) hcalm hrun
  have hle : ∀ v ∈ s.inUse, v ≤ s.maxInUseAtOnce := by
    intro v hv
    rcases habove.covered v hv with hle | ⟨thread, hthread, p, hp, -⟩
    · exact hle
    · rw [hquiet thread hthread] at hp
      cases hp
  obtain ⟨v, hv, hmax⟩ := hbelow.max
  exact ⟨le_antisymm hmax (hle v hv) ▸ hv, hle⟩

/-- Two threads allocate 100 and 5000 bytes at the same time, one of their exchanges fails, and one
releases the smaller block. -/
def twoThreads : List Op :=
  [.allocate 0 100 112, .allocate 1 5000 5120, .step 0 false, .step 1 false, .step 1 false, .step 0 false,
    .step 0 false, .step 1 false, .step 0 true, .step 1 false, .step 0 false, .step 1 false, .step 0 false,
    .step 0 false, .release 0 1, .step 0 false, .step 0 false]

theorem statistics_exact_two : ∃ s, (init 2).run twoThreads = some s ∧ s.Quiet ∧
    s.allocatedBytes - s.deallocatedBytes = (s.blocks.sum : ℤ) ∧
      ∀ c, s.allocations c = s.deallocations c + ofClass c s.blocks := by
  have hany : ((init 2).run twoThreads).any (fun s => s.Quiet) = true := by decide +kernel
  obtain ⟨s, hrun, hquiet⟩ := (Option.any_eq_true _ _).mp hany
  have hquiet : s.Quiet := of_decide_eq_true hquiet
  exact ⟨s, hrun, hquiet, statistics_exact 2 twoThreads hrun hquiet⟩

theorem maxInUseAtOnce_peak_two : ∃ s, (init 2).run twoThreads = some s ∧
    s.maxInUseAtOnce ∈ s.inUse ∧ ∀ v ∈ s.inUse, v ≤ s.maxInUseAtOnce := by
  have hany : ((init 2).run twoThreads).any (fun s => s.Quiet) = true := by decide +kernel
  obtain ⟨s, hrun, hquiet⟩ := (Option.any_eq_true _ _).mp hany
  exact ⟨s, hrun, (maxInUseAtOnce_peak 2 twoThreads hrun).2 (by decide +kernel) (of_decide_eq_true hquiet)⟩

/-- A thread that deallocates 112 bytes between the two reads of another one hides that all 224 were
in use. -/
example : ((init 2).run [.allocate 0 100 112, .step 0 false, .step 0 false, .step 0 false, .step 0 false,
    .step 0 false, .allocate 1 100 112, .step 1 false, .release 0 0, .step 0 false, .step 0 false,
    .step 1 false, .step 1 false, .step 1 false, .step 1 false]).map
      (fun s => (s.maxInUseAtOnce, s.inUse)) = some (112, [0, 112, 224, 112]) := by decide +kernel

end State

end MemoryStatistics
end ICon7
