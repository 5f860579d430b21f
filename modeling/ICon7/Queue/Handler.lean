/-
# The handler that batches commands

`CommandsBufferHandler` collects the commands that one thread enqueues in a `CommandsBuffer` and
hands the buffer to the queue when it is full, when it has waited for 200 ms, when it is flushed and
when the handler is destroyed.  The buffer is moved into a command of its own
(`CommandExecutionQueue::EnqueueCommandsBuffer`).

A run takes the clock readings and the capacities the allocator answers as inputs.  Every call
keeps that the queued buffers and the current one contain what was enqueued, in order
(`HandlerRun.Inv.call`), and no call fails.
-/

import ICon7.Lib.Run
import ICon7.Queue.CommandsBuffer

namespace ICon7

/-- `CommandsBufferHandler::bufferSize`. -/
def bufferSize : ℕ := 1024 * 16

/-- What `MemoryPool::Allocate` may answer to a request for `bufferSize` bytes. -/
abbrev BufferCapacity := { capacity : ℕ // bufferSize ≤ capacity ∧ capacity < 2 ^ 31 }

/-- `CommandsBufferHandler`, with the buffers it has enqueued and what its own calls have done to
commands.  Time points are in nanoseconds. -/
structure CommandsBufferHandler where
  /-- `queue != nullptr`. -/
  queue : Bool
  queued : List CommandsBuffer := []
  currentCommandsBuffer : CommandsBuffer := {}
  forceEnqueueTimepoint : ℤ
  events : List CommandEvent := []

/-- What a call of `EnqueueCommand` reads: the answers of the allocator in its two calls of
`AllocateBuffer` and the two clock readings. -/
structure EnqueueInputs where
  capacity₁ : BufferCapacity
  now₁ : ℤ
  capacity₂ : BufferCapacity
  now₂ : ℤ

namespace CommandsBufferHandler

/-- The constructor, on a queue. -/
def create (now : ℤ) : CommandsBufferHandler where
  queue := true
  forceEnqueueTimepoint := now + 200 * 1000 * 1000

/-- `currentCommandsBuffer.Reset()`. -/
def resetCurrent (h : CommandsBufferHandler) : Option CommandsBufferHandler := do
  let (b, events) ← h.currentCommandsBuffer.reset
  return { h with currentCommandsBuffer := b, events := h.events ++ events }

/-- `CommandExecutionQueue::EnqueueCommandsBuffer`, of the current buffer: it is assigned to the
empty buffer of a new command. -/
def enqueueCommandsBuffer (h : CommandsBufferHandler) : Option CommandsBufferHandler := do
  let (buffer, moved, events) ← CommandsBuffer.moveAssign {} h.currentCommandsBuffer
  return { h with
    queued := h.queued ++ [buffer]
    currentCommandsBuffer := moved
    events := h.events ++ events }

/-- `FlushBuffer`; without a queue it only logs. -/
def flushBuffer (h : CommandsBufferHandler) : Option CommandsBufferHandler :=
  if h.queue = false then some h
  else if h.currentCommandsBuffer.isValid ∧ h.currentCommandsBuffer.countCommands ≠ 0 then do
    let h ← h.enqueueCommandsBuffer
    h.resetCurrent
  else some h

/-- `AllocateBuffer`; a failed assertion is `none`. -/
def allocateBuffer (h : CommandsBufferHandler) (capacity : BufferCapacity) :
    Option CommandsBufferHandler := do
  let h ← h.flushBuffer
  guard (h.currentCommandsBuffer.countCommands = 0)
  let h ←
    if h.currentCommandsBuffer.isValid = false then do
      let h ← h.resetCurrent
      let (b, events) ← h.currentCommandsBuffer.init capacity
      pure { h with currentCommandsBuffer := b, events := h.events ++ events }
    else pure h
  guard (h.currentCommandsBuffer.countCommands = 0)
  return h

/-- The first test of `EnqueueCommand`: is a new buffer needed for the command? -/
def needsBuffer (h : CommandsBufferHandler) (c : BufferedCommand) : Option Bool :=
  if h.currentCommandsBuffer.isValid = false then some true
  else do return !(← h.currentCommandsBuffer.canAllocate c.type.size c.type.alignment)

/-- `if (needed) AllocateBuffer();`. -/
def allocateIf (h : CommandsBufferHandler) (needed : Bool) (capacity : BufferCapacity) :
    Option CommandsBufferHandler :=
  if needed then h.allocateBuffer capacity else some h

/-- `EnqueueCommand`: the handler afterwards and the pointer that is returned. -/
def enqueueCommand (h : CommandsBufferHandler) (c : BufferedCommand) (i : EnqueueInputs) :
    Option (CommandsBufferHandler × Option ℕ) := do
  let h ← h.allocateIf (← h.needsBuffer c) i.capacity₁
  let h ← h.allocateIf (h.forceEnqueueTimepoint < i.now₁) i.capacity₂
  let h :=
    if h.currentCommandsBuffer.countCommands = 0 then
      { h with forceEnqueueTimepoint := i.now₂ + 200 * 1000 * 1000 }
    else h
  let (b, ptr) ← h.currentCommandsBuffer.enqueueCommand c
  return ({ h with currentCommandsBuffer := b }, ptr)

/-- The destructor. -/
def destroy (h : CommandsBufferHandler) : Option CommandsBufferHandler := do
  let h ← h.flushBuffer
  { h with queue := false }.resetCurrent

/-- The commands in the queued buffers, in order, followed by those in the current one. -/
def contents (h : CommandsBufferHandler) : Option (List BufferedCommand) := do
  let queued ← h.queued.mapM CommandsBuffer.commands
  return queued.flatten ++ (← h.currentCommandsBuffer.commands)

/-! ### What the handler's calls keep -/

/-- The current buffer is null, or a buffer of the handler's size with the commands, none of them
executed. -/
def Current (b : CommandsBuffer) (cs : List BufferedCommand) : Prop :=
  (b.commandsBufferData = none ∧ b.countCommands = 0 ∧ cs = []) ∨
    (b.Holds cs ∧ b.commandsExecuted = 0 ∧ bufferSize ≤ b.totalBytes)

/-- A queued buffer contains commands, none of them executed. -/
def Queued (b : CommandsBuffer) (cs : List BufferedCommand) : Prop :=
  b.Holds cs ∧ b.commandsExecuted = 0 ∧ cs ≠ []

/-- The buffers the handler has queued contain the batches and the current one the commands, and
nothing has been done to any command. -/
structure Inv (h : CommandsBufferHandler) (batches : List (List BufferedCommand))
    (cs : List BufferedCommand) : Prop where
  queue : h.queue = true
  queued : List.Forall₂ Queued h.queued batches
  current : Current h.currentCommandsBuffer cs
  events : h.events = []

variable {h : CommandsBufferHandler} {batches : List (List BufferedCommand)} {cs : List BufferedCommand}

theorem Current.countCommands {b : CommandsBuffer} (hb : Current b cs) :
    b.countCommands = cs.length := by
  obtain ⟨-, hcount, rfl⟩ | ⟨hholds, -⟩ := hb
  · exact hcount
  · exact hholds.count

theorem Current.commands {b : CommandsBuffer} (hb : Current b cs) : b.commands = some cs := by
  obtain ⟨-, hcount, rfl⟩ | ⟨hholds, -⟩ := hb
  · unfold CommandsBuffer.commands
    rw [hcount]
    rfl
  · exact hholds.commands

theorem mapM_commands_of_queued {queued : List CommandsBuffer} (hall : List.Forall₂ Queued queued batches) :
    queued.mapM CommandsBuffer.commands = some batches := by
  induction hall with
  | nil => rfl
  | cons hhead _ ih =>
    rw [List.mapM_cons, hhead.1.commands, ih]
    rfl

/-- The contents of a handler are the batches and the commands in the current buffer. -/
theorem Inv.contents (hI : h.Inv batches cs) : h.contents = some (batches.flatten ++ cs) := by
  unfold CommandsBufferHandler.contents
  rw [mapM_commands_of_queued hI.queued, hI.current.commands]
  rfl

/-- **A flush moves the current commands behind the queued ones.** -/
theorem Inv.flushBuffer (hI : h.Inv batches cs) :
    ∃ h' batches', h.flushBuffer = some h' ∧ h'.Inv batches' [] ∧ batches'.flatten = batches.flatten ++ cs := by
  unfold CommandsBufferHandler.flushBuffer
  rw [hI.queue, if_neg (by decide)]
  obtain ⟨hnull, hcount, rfl⟩ | ⟨hholds, hexec, hsize⟩ := hI.current
  · rw [if_neg (by simp [hcount])]
    exact ⟨h, batches, rfl, hI, by simp⟩
  · by_cases hcs : cs = []
    · subst hcs
      rw [if_neg (by simp [hholds.count])]
      exact ⟨h, batches, rfl, hI, by simp⟩
    · rw [if_pos ⟨hholds.isValid, by simpa [hholds.count] using hcs⟩]
      refine ⟨_, batches ++ [cs], rfl, ⟨hI.queue, ?_, .inl ⟨rfl, rfl, rfl⟩, ?_⟩, by simp⟩
      · exact List.rel_append hI.queued (.cons ⟨hholds, hexec, hcs⟩ .nil)
      · simp [hI.events]

/-- **A new buffer is empty and valid**, whatever the current one was. -/
theorem Inv.allocateBuffer (hI : h.Inv batches cs) (capacity : BufferCapacity) :
    ∃ h' batches', h.allocateBuffer capacity = some h' ∧ h'.Inv batches' [] ∧
      h'.currentCommandsBuffer.isValid = true ∧ batches'.flatten = batches.flatten ++ cs := by
  obtain ⟨h₁, batches₁, hflush, hI₁, hflat⟩ := hI.flushBuffer
  have hcount : h₁.currentCommandsBuffer.countCommands = 0 := hI₁.current.countCommands
  unfold CommandsBufferHandler.allocateBuffer
  simp only [hflush, Option.bind_eq_bind, Option.bind_some, hcount, guard, if_true, Option.pure_def]
  obtain ⟨hnull, -, -⟩ | ⟨hholds, hexec, hsize⟩ := hI₁.current
  · have hvalid : h₁.currentCommandsBuffer.isValid = false := by rw [CommandsBuffer.isValid, hnull]; rfl
    have hreset := CommandsBuffer.reset_of_null hnull
    simp only [hvalid, if_true, resetCurrent, CommandsBuffer.init, hreset, Option.bind_eq_bind,
      Option.bind_some, Option.pure_def]
    refine ⟨_, batches₁, rfl, ⟨hI₁.queue, hI₁.queued, .inr ⟨?_, rfl, ?_⟩, ?_⟩, rfl, hflat⟩
    · exact CommandsBuffer.Holds.nil_init capacity
        (le_trans (by decide) capacity.2.1) capacity.2.2
    · simp only [Nat.mod_eq_of_lt (capacity.2.2.trans (show 2 ^ 31 < 2 ^ 32 by norm_num)), capacity.2.1]
    · simp [hI₁.events]
  · have hvalid := hholds.isValid
    simp only [hvalid, Bool.true_eq_false, if_false]
    exact ⟨h₁, batches₁, rfl, hI₁, hvalid, hflat⟩

/-- The test for a new buffer does not fail, and it says so if the current one has no room. -/
theorem Inv.needsBuffer (hI : h.Inv batches cs) (c : BufferedCommand) :
    ∃ needed, h.needsBuffer c = some needed ∧
      (needed = false → h.currentCommandsBuffer.canAllocate c.type.size c.type.alignment = some true) := by
  unfold CommandsBufferHandler.needsBuffer
  obtain ⟨hnull, -, -⟩ | ⟨hholds, -, -⟩ := hI.current
  · rw [CommandsBuffer.isValid, hnull]
    exact ⟨true, rfl, by simp⟩
  · obtain ⟨k, hk, halign⟩ := c.type.alignment_eq
    have hsize := c.type.size_le
    obtain ⟨offset, -, -, -, hcan⟩ :=
      hholds.canAllocate c.type.size (by omega) (show k ≤ 12 by omega)
    rw [hholds.isValid, halign, hcan]
    exact ⟨_, rfl, by simp⟩

/-- A new buffer has room for every command, and the old one has if no new one is needed. -/
theorem Inv.allocateIf (hI : h.Inv batches cs) (c : BufferedCommand) (needed : Bool)
    (capacity : BufferCapacity)
    (hroom : needed = false →
      h.currentCommandsBuffer.canAllocate c.type.size c.type.alignment = some true) :
    ∃ h' batches' cs', h.allocateIf needed capacity = some h' ∧ h'.Inv batches' cs' ∧
      h'.currentCommandsBuffer.canAllocate c.type.size c.type.alignment = some true ∧
      batches'.flatten ++ cs' = batches.flatten ++ cs := by
  unfold CommandsBufferHandler.allocateIf
  cases needed with
  | false => exact ⟨h, batches, cs, rfl, hI, hroom rfl, rfl⟩
  | true =>
    obtain ⟨h', batches', hallocate, hI', hvalid, hflat⟩ := hI.allocateBuffer capacity
    refine ⟨h', batches', [], hallocate, hI', ?_, by simpa using hflat⟩
    obtain ⟨hnull, -, -⟩ | ⟨hholds, -, hsize⟩ := hI'.current
    · rw [CommandsBuffer.isValid, hnull] at hvalid
      cases hvalid
    · exact hholds.canAllocate_nil hsize c

/-- **A command is always enqueued, behind all others.** -/
theorem Inv.enqueueCommand (hI : h.Inv batches cs) (c : BufferedCommand) (i : EnqueueInputs) :
    ∃ h' ptr batches' cs', h.enqueueCommand c i = some (h', some ptr) ∧ h'.Inv batches' cs' ∧
      batches'.flatten ++ cs' = batches.flatten ++ cs ++ [c] := by
  obtain ⟨needed, hneeded, hroom⟩ := hI.needsBuffer c
  obtain ⟨h₁, batches₁, cs₁, hstep₁, hI₁, hroom₁, hflat₁⟩ := hI.allocateIf c needed i.capacity₁ hroom
  obtain ⟨h₂, batches₂, cs₂, hstep₂, hI₂, hroom₂, hflat₂⟩ :=
    hI₁.allocateIf c (h₁.forceEnqueueTimepoint < i.now₁) i.capacity₂ fun _ => hroom₁
  -- the time point is not part of the invariant
  obtain ⟨t, ht⟩ : ∃ t, (if h₂.currentCommandsBuffer.countCommands = 0 then
      { h₂ with forceEnqueueTimepoint := i.now₂ + 200 * 1000 * 1000 } else h₂) =
      { h₂ with forceEnqueueTimepoint := t } := by
    split_ifs
    · exact ⟨_, rfl⟩
    · exact ⟨h₂.forceEnqueueTimepoint, rfl⟩
  obtain ⟨hnull, -, -⟩ | ⟨hholds, hexec, hsize⟩ := hI₂.current
  · rw [CommandsBuffer.canAllocate, CommandsBuffer.isValid, hnull] at hroom₂
    cases hroom₂
  · obtain ⟨b, ptr, hstore, hholds', hexec', htotal⟩ := hholds.enqueueCommand c hroom₂
    refine ⟨{ h₂ with forceEnqueueTimepoint := t, currentCommandsBuffer := b }, ptr, batches₂, cs₂ ++ [c],
      ?_, ⟨hI₂.queue, hI₂.queued, .inr ⟨hholds', hexec'.trans hexec, ?_⟩, hI₂.events⟩, ?_⟩
    · simp only [CommandsBufferHandler.enqueueCommand, hneeded, hstep₁, hstep₂, ht, hstore,
        Option.bind_eq_bind, Option.bind_some, Option.pure_def]
    · exact htotal ▸ hsize
    · rw [← List.append_assoc, hflat₂, hflat₁]

/-- **The destructor leaves nothing behind.** -/
theorem Inv.destroy (hI : h.Inv batches cs) :
    ∃ h' batches', h.destroy = some h' ∧ List.Forall₂ Queued h'.queued batches' ∧
      h'.currentCommandsBuffer.commands = some [] ∧ h'.currentCommandsBuffer.isValid = false ∧
      h'.events = [] ∧ batches'.flatten = batches.flatten ++ cs := by
  obtain ⟨h₁, batches₁, hflush, hI₁, hflat⟩ := hI.flushBuffer
  have hcount : h₁.currentCommandsBuffer.countCommands = 0 := hI₁.current.countCommands
  unfold CommandsBufferHandler.destroy resetCurrent
  simp only [hflush, Option.bind_eq_bind, Option.bind_some]
  obtain ⟨hnull, -, -⟩ | ⟨hholds, -, -⟩ := hI₁.current
  · simp only [CommandsBuffer.reset_of_null hnull, Option.bind_some, Option.pure_def]
    refine ⟨_, batches₁, rfl, hI₁.queued, ?_, ?_, ?_, hflat⟩
    · rw [CommandsBuffer.commands, hcount]
      rfl
    · rw [CommandsBuffer.isValid, hnull]
      rfl
    · simp [hI₁.events]
  · simp only [hholds.reset, Option.bind_some, Option.pure_def]
    refine ⟨_, batches₁, rfl, hI₁.queued, rfl, rfl, ?_, hflat⟩
    simp [hI₁.events]

end CommandsBufferHandler

/-! ### Runs of the handler -/

/-- The calls of a handler.  The commands are numbered as they are enqueued, so a call has the type
of its command. -/
inductive HandlerCall where
  | enqueueCommand (T : CommandType) (i : EnqueueInputs)
  | flushBuffer
  | enqueueCommandAndFlush (T : CommandType) (i : EnqueueInputs)

/-- The type of the command a call enqueues. -/
def HandlerCall.types : HandlerCall → List CommandType
  | .enqueueCommand T _ | .enqueueCommandAndFlush T _ => [T]
  | .flushBuffer => []

/-- The commands that calls enqueue, in order. -/
def enqueued (calls : List HandlerCall) : List BufferedCommand :=
  (calls.flatMap HandlerCall.types).zipIdx.map fun (T, id) => ⟨id, T⟩

/-- A handler and the pointers its `EnqueueCommand` has returned. -/
structure HandlerRun where
  handler : CommandsBufferHandler
  returned : List (Option ℕ) := []

namespace HandlerRun

/-- `EnqueueCommand` in a run. -/
def enqueueCommand (r : HandlerRun) (T : CommandType) (i : EnqueueInputs) : Option HandlerRun := do
  let (h, ptr) ← r.handler.enqueueCommand ⟨r.returned.length, T⟩ i
  return ⟨h, r.returned ++ [ptr]⟩

/-- One call. -/
def call (r : HandlerRun) : HandlerCall → Option HandlerRun
  | .enqueueCommand T i => r.enqueueCommand T i
  | .flushBuffer => do return { r with handler := ← r.handler.flushBuffer }
  | .enqueueCommandAndFlush T i => do
    let r ← r.enqueueCommand T i
    return { r with handler := ← r.handler.flushBuffer }

/-- The calls after the constructor. -/
def run (now : ℤ) (calls : List HandlerCall) : Option HandlerRun :=
  calls.foldlM call { handler := .create now }

/-- After calls that have enqueued the types, no null pointer was returned and the handler contains
the commands. -/
structure Inv (r : HandlerRun) (types : List CommandType) : Prop where
  handler : ∃ batches cs, r.handler.Inv batches cs ∧
    batches.flatten ++ cs = types.zipIdx.map fun (T, id) => ⟨id, T⟩
  length : r.returned.length = types.length
  returned : none ∉ r.returned

variable {r : HandlerRun} {types : List CommandType}

theorem Inv.enqueueCommand (hI : r.Inv types) (T : CommandType) (i : EnqueueInputs) :
    ∃ r', r.enqueueCommand T i = some r' ∧ r'.Inv (types ++ [T]) := by
  obtain ⟨⟨batches, cs, hH, hflat⟩, hlength, hreturned⟩ := hI
  obtain ⟨h', ptr, batches', cs', hcall, hH', hflat'⟩ := hH.enqueueCommand ⟨r.returned.length, T⟩ i
  refine ⟨⟨h', r.returned ++ [some ptr]⟩, ?_, ⟨batches', cs', hH', ?_⟩, by simp [hlength], by simp [hreturned]⟩
  · rw [HandlerRun.enqueueCommand, hcall]
    rfl
  · rw [hflat', hflat, List.zipIdx_append, List.map_append, hlength]
    simp

theorem Inv.flushBuffer (hI : r.Inv types) :
    ∃ h', r.handler.flushBuffer = some h' ∧ Inv { r with handler := h' } types := by
  obtain ⟨⟨batches, cs, hH, hflat⟩, hlength, hreturned⟩ := hI
  obtain ⟨h', batches', hflush, hH', hflat'⟩ := hH.flushBuffer
  exact ⟨h', hflush, ⟨batches', [], hH', by simpa [hflat'] using hflat⟩, hlength, hreturned⟩

/-- **What one call keeps.** -/
theorem Inv.call (hI : r.Inv types) (a : HandlerCall) : ∃ r', r.call a = some r' ∧ r'.Inv (types ++ a.types) := by
  cases a with
  | enqueueCommand T i => exact hI.enqueueCommand T i
  | flushBuffer =>
    obtain ⟨h', hflush, hI'⟩ := hI.flushBuffer
    refine ⟨_, ?_, by simpa [HandlerCall.types] using hI'⟩
    rw [HandlerRun.call, hflush]
    rfl
  | enqueueCommandAndFlush T i =>
    obtain ⟨r₁, hcall, hI₁⟩ := hI.enqueueCommand T i
    obtain ⟨h', hflush, hI'⟩ := hI₁.flushBuffer
    refine ⟨_, ?_, hI'⟩
    simp only [HandlerRun.call, hcall, hflush, Option.bind_eq_bind, Option.bind_some, Option.pure_def]

/-- **What a run of calls keeps.** -/
theorem Inv.foldlM (calls : List HandlerCall) (hI : r.Inv types) :
    ∃ r', calls.foldlM HandlerRun.call r = some r' ∧ r'.Inv (types ++ calls.flatMap HandlerCall.types) := by
  induction calls generalizing r types with
  | nil => exact ⟨r, rfl, by simpa using hI⟩
  | cons a calls ih =>
    obtain ⟨r₁, hstep, hI₁⟩ := hI.call a
    obtain ⟨r', hrun, hI'⟩ := ih hI₁
    exact ⟨r', Lib.foldlM_cons_eq_some.2 ⟨r₁, hstep, hrun⟩, by simpa using hI'⟩

theorem run_inv (now : ℤ) (calls : List HandlerCall) :
    ∃ r, run now calls = some r ∧ r.Inv (calls.flatMap HandlerCall.types) := by
  have hstart : Inv { handler := .create now } [] :=
    ⟨⟨[], [], ⟨rfl, .nil, .inl ⟨rfl, rfl, rfl⟩, rfl⟩, rfl⟩, rfl, by simp⟩
  exact hstart.foldlM calls

end HandlerRun
end ICon7
