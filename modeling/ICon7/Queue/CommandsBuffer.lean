/-
# Buffers of commands

`CommandsBuffer` in `src/CommandsBuffer.cpp`: commands of any type are constructed one behind
the other in one allocation, and a table of their offsets grows from its end towards them.
`ExecuteAll` and `CallDestructors` find the commands through the table and share one counter
of those that are done with.

The allocation is a memory of `ICon7.Lib.Memory`, so that a command or a table entry that was
written over cannot be read (`getCommand` is `none` then).  `Holds` says what a buffer contains;
each operation is specified by what it contains afterwards and by what it did to the commands.
-/

import ICon7.Lib.Memory

namespace ICon7

/-- What is known of a type of commands: `sizeof` and `alignof`. -/
structure CommandType where
  size : ℕ
  alignment : ℕ
  size_pos : 0 < size
  size_le : size + 4 ≤ 16384
  alignment_eq : ∃ k ≤ 4, alignment = 2 ^ k
deriving DecidableEq

/-- A command: a number of its own, and its type. -/
structure BufferedCommand where
  id : ℕ
  type : CommandType
deriving DecidableEq

/-- What an allocation holds: `CommandEntryMetadata` and commands. -/
inductive BufferItem where
  | metadata (offset : ℕ)
  | command (c : BufferedCommand)
deriving DecidableEq

/-- `sizeof`. -/
def BufferItem.size : BufferItem → ℕ
  | .metadata _ => 4
  | .command c => c.type.size

/-- What is done to a command. -/
inductive CommandEvent where
  | executed (c : BufferedCommand)
  | destructed (c : BufferedCommand)
deriving DecidableEq

/-- `CommandsBuffer`; `none` is the null pointer. -/
structure CommandsBuffer where
  commandsBufferData : Option (Lib.Memory BufferItem) := none
  totalBytes : ℕ := 0
  countCommands : ℕ := 0
  commandsExecuted : ℕ := 0
  offsetOfFree : ℕ := 0

namespace CommandsBuffer

/-- `IsValid`. -/
def isValid (b : CommandsBuffer) : Bool := b.commandsBufferData.isSome

/-- `GetMetadataOffset`. -/
def getMetadataOffset (b : CommandsBuffer) (id : ℕ) : ℕ :=
  (b.totalBytes + 2 ^ 32 - 4 * (id + 1) % 2 ^ 32) % 2 ^ 32

/-- `GetOffsetOfNextCommand`; `~` on a `uint32_t` is the difference to `2 ^ 32 - 1`. -/
def getOffsetOfNextCommand (b : CommandsBuffer) (alignement : ℕ) : Option ℕ := do
  guard (alignement ≤ 4096)
  guard (b.offsetOfFree < b.totalBytes)
  let offset := (b.offsetOfFree + alignement - 1) % 2 ^ 32
  return offset &&& (2 ^ 32 - 1 - (alignement - 1))

/-- `CanAllocate`. -/
def canAllocate (b : CommandsBuffer) (size alignement : ℕ) : Option Bool :=
  if b.isValid then do
    let metaOffset := b.getMetadataOffset b.countCommands
    let commandOffset ← b.getOffsetOfNextCommand alignement
    return (commandOffset + size) % 2 ^ 32 ≤ metaOffset
  else some false

/-- `Allocate`: the offset of the command, or `none` for the null pointer. -/
def allocate (b : CommandsBuffer) (size alignement : ℕ) : Option (CommandsBuffer × Option ℕ) := do
  if ← b.canAllocate size alignement then
    let commandOffset ← b.getOffsetOfNextCommand alignement
    let data ← b.commandsBufferData
    return ({ b with
      countCommands := b.countCommands + 1
      commandsBufferData := some (Lib.Memory.write BufferItem.size data
        (b.getMetadataOffset b.countCommands) (.metadata commandOffset))
      offsetOfFree := (commandOffset + size) % 2 ^ 32 }, some commandOffset)
  else return (b, none)

/-- `EnqueueCommand<T>`. -/
def enqueueCommand (b : CommandsBuffer) (c : BufferedCommand) : Option (CommandsBuffer × Option ℕ) := do
  match ← b.allocate c.type.size c.type.alignment with
  | (b, none) => return (b, none)
  | (b, some ptr) =>
    let data ← b.commandsBufferData
    return ({ b with
      commandsBufferData := some (Lib.Memory.write BufferItem.size data ptr (.command c)) }, some ptr)

/-- `GetCommand`; `none` is a table entry or a command that is not there. -/
def getCommand (b : CommandsBuffer) (id : ℕ) : Option BufferedCommand := do
  let data ← b.commandsBufferData
  match ← Lib.Memory.read BufferItem.size data (b.getMetadataOffset id) with
  | .metadata offset =>
    match ← Lib.Memory.read BufferItem.size data offset with
    | .command c => return c
    | .metadata _ => none
  | .command _ => none

/-- The loop that `ExecuteAll` and `CallDestructors` share, with what they do to a command. -/
def drain (body : BufferedCommand → List CommandEvent) :
    ℕ → CommandsBuffer → Option (CommandsBuffer × List CommandEvent)
  | 0, b => some (b, [])
  | rounds + 1, b => do
    let c ← b.getCommand b.commandsExecuted
    let (b, events) ← drain body rounds { b with commandsExecuted := b.commandsExecuted + 1 }
    return (b, body c ++ events)

/-- `ExecuteAll`. -/
def executeAll (b : CommandsBuffer) : Option (CommandsBuffer × List CommandEvent) :=
  drain (fun c => [.executed c, .destructed c]) (b.countCommands - b.commandsExecuted) b

/-- `CallDestructors`. -/
def callDestructors (b : CommandsBuffer) : Option (CommandsBuffer × List CommandEvent) :=
  drain (fun c => [.destructed c]) (b.countCommands - b.commandsExecuted) b

/-- `Reset`, which leaves `offsetOfFree`; the destructor is the same. -/
def reset (b : CommandsBuffer) : Option (CommandsBuffer × List CommandEvent) :=
  if b.isValid then do
    let (b, events) ← b.callDestructors
    return ({ offsetOfFree := b.offsetOfFree }, events)
  else some (b, [])

/-- `Init`, with the capacity of the allocation, of which `totalBytes` keeps 32 bits; the checks on
the size only log. -/
def init (b : CommandsBuffer) (capacity : ℕ) : Option (CommandsBuffer × List CommandEvent) := do
  let (_, events) ← b.reset
  return ({ commandsBufferData := some fun _ => none, totalBytes := capacity % 2 ^ 32 }, events)

/-- The move constructor: the new buffer, and what is left of the old one. -/
def moveConstruct (o : CommandsBuffer) : CommandsBuffer × CommandsBuffer := (o, {})

/-- The move assignment between two objects: both afterwards, and what the destructor of the old
content did. -/
def moveAssign (b o : CommandsBuffer) : Option (CommandsBuffer × CommandsBuffer × List CommandEvent) := do
  let (_, events) ← b.reset
  return (o.moveConstruct.1, o.moveConstruct.2, events)

/-! ### Where the next command goes -/

/-- Clearing the low bits rounds down. -/
theorem and_clear_low {x k : ℕ} (hx : x < 2 ^ 32) (hk : k ≤ 32) :
    x &&& (2 ^ 32 - 1 - (2 ^ k - 1)) = x / 2 ^ k * 2 ^ k := by
  have hmask : 2 ^ 32 - 1 - (2 ^ k - 1) = (2 ^ (32 - k) - 1) <<< k := by
    have hpow : 2 ^ (32 - k) * 2 ^ k = 2 ^ 32 := by rw [← Nat.pow_add]; congr 1; omega
    have hpos := Nat.two_pow_pos k
    rw [Nat.shiftLeft_eq, Nat.sub_mul, hpow]
    omega
  rw [hmask, ← Nat.shiftRight_eq_div_pow, ← Nat.shiftLeft_eq]
  apply Nat.eq_of_testBit_eq
  intro i
  rw [Nat.testBit_and, Nat.testBit_shiftLeft, Nat.testBit_shiftLeft, Nat.testBit_shiftRight,
    Nat.testBit_two_pow_sub_one]
  by_cases hi : k ≤ i
  · rw [show k + (i - k) = i by omega]
    by_cases h32 : i < 32
    · simp [hi, show i - k < 32 - k by omega]
    · have hbit : x.testBit i = false :=
        Nat.testBit_lt_two_pow (hx.trans_le (Nat.pow_le_pow_right (by norm_num) (by omega)))
      simp [hbit]
  · simp [hi]

/-- The offset of the next command is the first aligned one that is free. -/
theorem getOffsetOfNextCommand_spec {b : CommandsBuffer} {k : ℕ} (hk : k ≤ 12)
    (hfree : b.offsetOfFree < b.totalBytes) (hwrap : b.offsetOfFree + 4096 ≤ 2 ^ 32) :
    ∃ offset, b.getOffsetOfNextCommand (2 ^ k) = some offset ∧ b.offsetOfFree ≤ offset ∧
      offset < b.offsetOfFree + 2 ^ k ∧ 2 ^ k ∣ offset ∧
      ∀ o, 2 ^ k ∣ o → b.offsetOfFree ≤ o → offset ≤ o := by
  have hpos := Nat.two_pow_pos k
  have hle : 2 ^ k ≤ 4096 := (Nat.pow_le_pow_right (by norm_num) hk).trans (by norm_num)
  refine ⟨(b.offsetOfFree + 2 ^ k - 1) / 2 ^ k * 2 ^ k, ?_, ?_, ?_, Nat.dvd_mul_left _ _, ?_⟩
  · have hlt : b.offsetOfFree + 2 ^ k - 1 < 2 ^ 32 := by omega
    have hand := and_clear_low hlt (show k ≤ 32 by omega)
    simp only [getOffsetOfNextCommand, guard, if_pos hle, if_pos hfree, Nat.mod_eq_of_lt hlt, hand,
      Option.bind_eq_bind, Option.pure_def, Option.bind_some]
  · have := Nat.lt_div_mul_add hpos (a := b.offsetOfFree + 2 ^ k - 1)
    omega
  · have := Nat.div_mul_le_self (b.offsetOfFree + 2 ^ k - 1) (2 ^ k)
    omega
  · rintro o ⟨q, rfl⟩ hq
    have hlt : b.offsetOfFree + 2 ^ k - 1 < (q + 1) * 2 ^ k := by
      rw [Nat.add_mul, Nat.mul_comm q]
      omega
    rw [Nat.mul_comm]
    exact Nat.mul_le_mul_left _ (Nat.lt_succ_iff.1 ((Nat.div_lt_iff_lt_mul hpos).2 hlt))

/-- The table entries do not wrap around as long as they fit. -/
theorem getMetadataOffset_eq {b : CommandsBuffer} {id : ℕ} (h : 4 * (id + 1) ≤ b.totalBytes)
    (htotal : b.totalBytes < 2 ^ 32) : b.getMetadataOffset id = b.totalBytes - 4 * (id + 1) := by
  unfold getMetadataOffset
  omega

/-- What `Allocate` does once the offset of the next command is known. -/
theorem allocate_eq {b : CommandsBuffer} {data : Lib.Memory BufferItem} {size alignement offset : ℕ}
    (hdata : b.commandsBufferData = some data)
    (hoff : b.getOffsetOfNextCommand alignement = some offset) :
    b.allocate size alignement =
      some (if (offset + size) % 2 ^ 32 ≤ b.getMetadataOffset b.countCommands then
        ({ b with
          countCommands := b.countCommands + 1
          commandsBufferData := some (Lib.Memory.write BufferItem.size data
            (b.getMetadataOffset b.countCommands) (.metadata offset))
          offsetOfFree := (offset + size) % 2 ^ 32 }, some offset)
      else (b, none)) := by
  have hvalid : b.isValid = true := by rw [isValid, hdata]; rfl
  unfold allocate canAllocate
  rw [hvalid, hoff, hdata]
  by_cases hfits : (offset + size) % 2 ^ 32 ≤ b.getMetadataOffset b.countCommands
  · simp only [hfits, decide_true, if_true, Option.bind_eq_bind, Option.bind_some, Option.pure_def]
  · simp only [hfits, decide_false, Bool.false_eq_true, if_true, if_false, Option.bind_eq_bind,
      Option.bind_some, Option.pure_def]

/-! ### What a buffer contains -/

/-- The commands that the table leads to, in order. -/
def commands (b : CommandsBuffer) : Option (List BufferedCommand) :=
  (List.range b.countCommands).mapM b.getCommand

/-- A list is read off by its places. -/
theorem mapM_range_eq_some {α : Type*} {f : ℕ → Option α} {l : List α}
    (h : ∀ i < l.length, f i = l[i]?) : (List.range l.length).mapM f = some l := by
  induction l using List.reverseRecOn with
  | nil => rfl
  | append_singleton l a ih =>
    have hl : ∀ i < l.length, f i = l[i]? := fun i hi => by
      rw [h i (by simp; omega), List.getElem?_append_left hi]
    have ha : f l.length = some a := by simpa using h l.length (by simp)
    rw [List.length_append, List.length_singleton, List.range_succ, List.mapM_append, ih hl]
    simp [ha]

/-- A valid buffer contains the commands: the table has an entry for each of them, behind all
commands, and the entry leads to the command. -/
structure Holds (b : CommandsBuffer) (cs : List BufferedCommand) : Prop where
  stored : ∃ data, b.commandsBufferData = some data ∧ ∀ i c, cs[i]? = some c → ∃ offset,
    Lib.Memory.read BufferItem.size data (b.totalBytes - 4 * (i + 1)) = some (.metadata offset) ∧
      Lib.Memory.read BufferItem.size data offset = some (.command c) ∧
      offset + c.type.size ≤ b.offsetOfFree
  count : b.countCommands = cs.length
  executed_le : b.commandsExecuted ≤ cs.length
  room : b.offsetOfFree + 4 * cs.length ≤ b.totalBytes
  free_lt : b.offsetOfFree < b.totalBytes
  length_le : cs.length ≤ b.offsetOfFree
  free_zero : cs = [] → b.offsetOfFree = 0
  total_le : 16 ≤ b.totalBytes
  total_lt : b.totalBytes < 2 ^ 31

namespace Holds

variable {b : CommandsBuffer} {cs : List BufferedCommand}

theorem isValid (h : b.Holds cs) : b.isValid = true := by
  obtain ⟨data, hdata, -⟩ := h.stored
  rw [CommandsBuffer.isValid, hdata]
  rfl

/-- There is room in the address space for one more table entry: every command has a byte. -/
theorem four_mul_succ_le (h : b.Holds cs) : 4 * (cs.length + 1) ≤ b.totalBytes := by
  have h1 := h.room
  have h2 := h.length_le
  have h3 := h.total_le
  omega

/-- **The table leads to the commands.** -/
theorem getCommand (h : b.Holds cs) (i : ℕ) (hi : i < cs.length) : b.getCommand i = cs[i]? := by
  obtain ⟨data, hdata, hall⟩ := h.stored
  obtain ⟨offset, hmeta, hcmd, -⟩ := hall i cs[i] (List.getElem?_eq_getElem hi)
  have hoff : b.getMetadataOffset i = b.totalBytes - 4 * (i + 1) :=
    getMetadataOffset_eq (by have := h.four_mul_succ_le; omega) (h.total_lt.trans (by norm_num))
  simp [CommandsBuffer.getCommand, hdata, hoff, hmeta, hcmd, hi]

/-- A freshly initialised buffer contains nothing. -/
theorem nil_init (capacity : ℕ) (hlow : 16 ≤ capacity) (hhigh : capacity < 2 ^ 31) :
    Holds { commandsBufferData := some fun _ => none, totalBytes := capacity % 2 ^ 32 } [] := by
  rw [Nat.mod_eq_of_lt (hhigh.trans (by norm_num))]
  exact ⟨⟨_, rfl, by simp⟩, rfl, by simp, by simp, by simp only; omega, by simp, fun _ => rfl, hlow, hhigh⟩

/-- Whether there is room for a command is decided without a failed assertion. -/
theorem canAllocate (h : b.Holds cs) (size : ℕ) (hsize : size < 2 ^ 30) {k : ℕ} (hk : k ≤ 12) :
    ∃ offset, b.getOffsetOfNextCommand (2 ^ k) = some offset ∧ b.offsetOfFree ≤ offset ∧
      (b.offsetOfFree = 0 → offset = 0) ∧
      b.canAllocate size (2 ^ k) = some (decide (offset + size + 4 * (cs.length + 1) ≤ b.totalBytes)) := by
  have htotal := h.total_lt
  have hfree := h.free_lt
  obtain ⟨offset, hoff, hle, hlt, -, hleast⟩ := getOffsetOfNextCommand_spec hk hfree (by omega)
  have hpow : 2 ^ k ≤ 4096 := (Nat.pow_le_pow_right (by norm_num) hk).trans (by norm_num)
  have hmeta : b.getMetadataOffset b.countCommands = b.totalBytes - 4 * (cs.length + 1) := by
    rw [h.count]
    exact getMetadataOffset_eq h.four_mul_succ_le (h.total_lt.trans (by norm_num))
  have h4 := h.four_mul_succ_le
  refine ⟨offset, hoff, hle, fun h0 => Nat.le_zero.1 (hleast 0 (Nat.dvd_zero _) h0.le), ?_⟩
  have hmod : (offset + size) % 2 ^ 32 = offset + size := Nat.mod_eq_of_lt (by omega)
  have hiff : offset + size ≤ b.totalBytes - 4 * (cs.length + 1) ↔
      offset + size + 4 * (cs.length + 1) ≤ b.totalBytes := by omega
  simp only [CommandsBuffer.canAllocate, h.isValid, if_true, hoff, hmeta, hmod, Option.bind_eq_bind,
    Option.bind_some, Option.pure_def, hiff]

/-- What storing a command writes: its entry in front of the table and the command itself. -/
theorem enqueueCommand_eq (h : b.Holds cs) (c : BufferedCommand)
    (hcan : b.canAllocate c.type.size c.type.alignment = some true) :
    ∃ data offset, b.commandsBufferData = some data ∧ b.offsetOfFree ≤ offset ∧
      offset + c.type.size + 4 * (cs.length + 1) ≤ b.totalBytes ∧
      b.enqueueCommand c = some ({ b with
        countCommands := cs.length + 1
        commandsBufferData := some (Lib.Memory.write BufferItem.size
          (Lib.Memory.write BufferItem.size data (b.totalBytes - 4 * (cs.length + 1)) (.metadata offset))
          offset (.command c))
        offsetOfFree := offset + c.type.size }, some offset) := by
  obtain ⟨k, hk, halign⟩ := c.type.alignment_eq
  have hsize := c.type.size_le
  obtain ⟨offset, hoff, hle, -, hcan'⟩ := h.canAllocate c.type.size (by omega) (show k ≤ 12 by omega)
  rw [← halign] at hoff hcan'
  rw [hcan', Option.some.injEq, decide_eq_true_eq] at hcan
  obtain ⟨data, hdata, -⟩ := h.stored
  have hmeta : b.getMetadataOffset cs.length = b.totalBytes - 4 * (cs.length + 1) :=
    getMetadataOffset_eq h.four_mul_succ_le (h.total_lt.trans (by norm_num))
  have htotal := h.total_lt
  have hend : (offset + c.type.size) % 2 ^ 32 = offset + c.type.size := Nat.mod_eq_of_lt (by omega)
  have hfits : (offset + c.type.size) % 2 ^ 32 ≤ b.getMetadataOffset b.countCommands := by
    rw [hend, h.count, hmeta]
    omega
  refine ⟨data, offset, hdata, hle, hcan, ?_⟩
  rw [CommandsBuffer.enqueueCommand, allocate_eq hdata hoff, if_pos hfits]
  simp only [h.count, hmeta, hend, Option.bind_eq_bind, Option.bind_some, Option.pure_def]

/-- **A command is stored where nothing else is**: the room that was checked lies behind the other
commands and in front of the table, its new entry included. -/
theorem enqueueCommand (h : b.Holds cs) (c : BufferedCommand)
    (hcan : b.canAllocate c.type.size c.type.alignment = some true) :
    ∃ b' ptr, b.enqueueCommand c = some (b', some ptr) ∧ b'.Holds (cs ++ [c]) ∧
      b'.commandsExecuted = b.commandsExecuted ∧ b'.totalBytes = b.totalBytes := by
  obtain ⟨data, offset, hdata, hle, hfits, heq⟩ := h.enqueueCommand_eq c hcan
  obtain ⟨data', hdata', hall⟩ := h.stored
  obtain rfl : data = data' := Option.some.inj (hdata.symm.trans hdata')
  have hpos := c.type.size_pos
  have hroom := h.room
  -- what lies behind the new entry or in front of the free space is not written over
  have hkeep : ∀ {o : BufferItem} {a : ℕ}, 0 < o.size → Lib.Memory.read BufferItem.size data a = some o →
      a + o.size ≤ b.offsetOfFree ∨ b.totalBytes - 4 * cs.length ≤ a →
      Lib.Memory.read BufferItem.size (Lib.Memory.write BufferItem.size
        (Lib.Memory.write BufferItem.size data (b.totalBytes - 4 * (cs.length + 1)) (.metadata offset))
        offset (.command c)) a = some o := by
    intro o a ho hread hdisj
    have hmeta : (BufferItem.metadata offset).size = 4 := rfl
    have hcmd : (BufferItem.command c).size = c.type.size := rfl
    exact Lib.Memory.read_write_of_disjoint ho
      (Lib.Memory.read_write_of_disjoint ho hread (by omega)) (by omega)
  refine ⟨_, offset, heq, ⟨⟨_, rfl, ?_⟩, ?_, ?_, ?_, ?_, ?_, ?_, h.total_le, h.total_lt⟩, rfl, rfl⟩
  · intro i d hd
    simp only
    rcases Nat.lt_trichotomy i cs.length with hi | rfl | hi
    · rw [List.getElem?_append_left hi] at hd
      obtain ⟨at₀, hm, hc, hend⟩ := hall i d hd
      have hmeta : (BufferItem.metadata at₀).size = 4 := rfl
      refine ⟨at₀, hkeep (by omega) hm (by omega), hkeep d.type.size_pos hc (Or.inl hend), ?_⟩
      omega
    · obtain rfl : c = d := by simpa using hd
      have hmeta : (BufferItem.metadata offset).size = 4 := rfl
      have hcmd : (BufferItem.command c).size = c.type.size := rfl
      refine ⟨offset, ?_, Lib.Memory.read_write _ _ hpos, le_rfl⟩
      exact Lib.Memory.read_write_of_disjoint (by omega) (Lib.Memory.read_write _ _ (by omega)) (by omega)
    · rw [List.getElem?_eq_none (by simp; omega)] at hd
      cases hd
  all_goals simp only [List.length_append, List.length_singleton]
  · exact h.executed_le.trans (Nat.le_succ _)
  · omega
  · omega
  · have := h.length_le
    omega
  · simp

/-- The loop over the commands that are left does to each of them, in order, what it does. -/
theorem drain (body : BufferedCommand → List CommandEvent) (h : b.Holds cs) (rounds : ℕ)
    (hrounds : b.commandsExecuted + rounds = cs.length) :
    CommandsBuffer.drain body rounds b =
      some ({ b with commandsExecuted := cs.length }, (cs.drop b.commandsExecuted).flatMap body) := by
  induction rounds generalizing b with
  | zero =>
    rw [Nat.add_zero] at hrounds
    rw [CommandsBuffer.drain, hrounds, List.drop_length, ← hrounds]
    rfl
  | succ rounds ih =>
    have hlt : b.commandsExecuted < cs.length := by omega
    have hget : b.getCommand b.commandsExecuted = some cs[b.commandsExecuted] := by
      rw [h.getCommand _ hlt, List.getElem?_eq_getElem hlt]
    have hnext : Holds { b with commandsExecuted := b.commandsExecuted + 1 } cs :=
      ⟨h.stored, h.count, hlt, h.room, h.free_lt, h.length_le, h.free_zero, h.total_le, h.total_lt⟩
    have hrest := ih hnext (by simp only; omega)
    rw [CommandsBuffer.drain, hget]
    simp only [Option.bind_eq_bind, Option.bind_some, hrest, Option.pure_def]
    rw [List.drop_eq_getElem_cons hlt, List.flatMap_cons]

/-- **`ExecuteAll` executes and destroys the commands that are left.** -/
theorem executeAll (h : b.Holds cs) :
    b.executeAll = some ({ b with commandsExecuted := cs.length },
      (cs.drop b.commandsExecuted).flatMap fun c => [.executed c, .destructed c]) := by
  have hle := h.executed_le
  exact h.drain _ _ (by rw [h.count]; omega)

/-- **`Reset` destroys the commands that are left.** -/
theorem reset (h : b.Holds cs) :
    b.reset = some ({ offsetOfFree := b.offsetOfFree },
      (cs.drop b.commandsExecuted).flatMap fun c => [.destructed c]) := by
  have hle := h.executed_le
  have hdrain := h.drain (fun c => [.destructed c]) (b.countCommands - b.commandsExecuted)
    (by rw [h.count]; omega)
  simp only [CommandsBuffer.reset, CommandsBuffer.callDestructors, h.isValid, if_true, hdrain,
    Option.bind_eq_bind, Option.bind_some, Option.pure_def]

/-- The commands a buffer contains do not depend on how many of them are done with. -/
theorem executed (h : b.Holds cs) : Holds { b with commandsExecuted := cs.length } cs :=
  ⟨h.stored, h.count, le_rfl, h.room, h.free_lt, h.length_le, h.free_zero, h.total_le, h.total_lt⟩

/-- An empty buffer of the size the handler allocates has room for every command. -/
theorem canAllocate_nil (h : b.Holds []) (htotal : 16384 ≤ b.totalBytes) (c : BufferedCommand) :
    b.canAllocate c.type.size c.type.alignment = some true := by
  obtain ⟨k, hk, halign⟩ := c.type.alignment_eq
  have hsize := c.type.size_le
  obtain ⟨offset, -, -, hzero, hcan⟩ := h.canAllocate c.type.size (by omega) (show k ≤ 12 by omega)
  obtain rfl := hzero (h.free_zero rfl)
  rw [halign, hcan, Option.some.injEq, decide_eq_true_eq, List.length_nil]
  omega

/-- The commands of a buffer can be read off it. -/
theorem commands (h : b.Holds cs) : b.commands = some cs := by
  unfold CommandsBuffer.commands
  rw [h.count]
  exact mapM_range_eq_some h.getCommand

end Holds

theorem reset_of_null {b : CommandsBuffer} (h : b.commandsBufferData = none) : b.reset = some (b, []) := by
  unfold reset isValid
  rw [h]
  rfl

end CommandsBuffer
end ICon7
