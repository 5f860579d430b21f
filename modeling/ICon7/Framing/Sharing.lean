/-
# Sharing of frames

All `ByteBufferReadable` and `ByteBufferWritable` objects of a program, and a `FrameDecoder` that
makes frames of what it receives (`src/FrameDecoder.cpp`).  Whoever has a handle may copy, move,
assign, swap, recycle and destroy it, at any time, between any two rounds of `PushData` and while
`onPacket` runs, and whoever has a writable buffer may write to it: a run is any list of such
operations.  Other decoders are operations of this kind too.

The objects are numbered.  Handle `0` is the decoder's `_buffer`, handle `1` the local `buffer` of
`PushData`, and writable buffer `0` its `_writable_buffer`; nothing else can name them, except
`onPacket`, which gets `buffer`.
-/

import ICon7.Framing.Feed

namespace ICon7
namespace Framing

/-- A writable buffer after whatever was done to it. -/
abbrev FilledBuffer := { b : ByteBufferWritable // b.WF ∧ INITIAL_DATA_OFFSET < b.mem.length }

/-- A handle that an operation can name. -/
inductive HandleName where
  /-- The argument of `onPacket`, while it runs. -/
  | packet
  | kept (i : ℕ)
  deriving DecidableEq

/-- The objects and the decoder.  A null object is `none`, and so is a destroyed one. -/
structure Sharing where
  heap : Heap := {}
  handles : List (Option Handle) := [none, none]
  writables : List (Option Owner) := [none]
  headerSize : ℕ := 0
  frameSize : ℕ := 0
  /-- What `PushData` has not read of its piece, and the pieces after it. -/
  data : List UInt8 := []
  pieces : List (List UInt8) := []
  /-- `onPacket` is not null. -/
  onPacket : Bool := true
  /-- `onPacket` runs. -/
  handling : Bool := false

namespace Sharing

/-- The handle with a number. -/
def handle (s : Sharing) (i : ℕ) : Option Handle := s.handles[i]?.join

/-- The writable buffer with a number. -/
def writable (s : Sharing) (k : ℕ) : Option Owner := s.writables[k]?.join

/-! ### Operations on handles -/

/-- `~ByteBufferReadable`. -/
def destroy (s : Sharing) (i : ℕ) : Option Sharing :=
  match s.handle i with
  | none => some s
  | some h => do return { s with heap := ← s.heap.unref h, handles := s.handles.set i none }

/-- `ByteBufferReadable(ByteBufferWritable &&)`. -/
def construct (s : Sharing) (k : ℕ) : Option Sharing := do
  let (heap, h) ← s.heap.share (s.writable k)
  return { s with heap := heap, writables := s.writables.set k none, handles := s.handles ++ [h] }

/-- `ByteBufferReadable(const ByteBufferReadable &)`. -/
def copyConstruct (s : Sharing) (j : ℕ) : Option Sharing :=
  match s.handle j with
  | none => some { s with handles := s.handles ++ [none] }
  | some h => do return { s with heap := ← s.heap.ref h, handles := s.handles ++ [some h] }

/-- `ByteBufferReadable(ByteBufferReadable &&)`. -/
def moveConstruct (s : Sharing) (j : ℕ) : Sharing :=
  { s with handles := s.handles.set j none ++ [s.handle j] }

/-- `storage == o.storage`. -/
def sameStorage (s : Sharing) (i j : ℕ) : Bool :=
  (s.handle i).map Handle.storage = (s.handle j).map Handle.storage

/-- `operator=(const ByteBufferReadable &)`. -/
def copyAssign (s : Sharing) (i j : ℕ) : Option Sharing :=
  if s.sameStorage i j then some s
  else do
    let s ← s.destroy i
    match s.handle j with
    | none => return s
    | some h => return { s with heap := ← s.heap.ref h, handles := s.handles.set i (some h) }

/-- `operator=(ByteBufferReadable &&)`. -/
def moveAssign (s : Sharing) (i j : ℕ) : Option Sharing :=
  if s.sameStorage i j then some s
  else do
    let s ← s.destroy i
    match s.handle j with
    | none => return s
    | some h => return { s with handles := (s.handles.set i (some h)).set j none }

/-- `std::swap`: a temporary, two assignments, and the end of the temporary. -/
def swap (s : Sharing) (i j : ℕ) : Option Sharing := do
  let tmp := s.handles.length
  let s ← (s.moveConstruct i).moveAssign i j
  let s ← s.moveAssign j tmp
  s.destroy tmp

/-- `TryRecycle`, with the buffer it returns assigned to a writable one. -/
def tryRecycle (s : Sharing) (i k : ℕ) : Option Sharing := do
  let (heap, h, w) ← s.heap.tryRecycle (s.handle i)
  let heap ← heap.release (s.writable k)
  return { s with heap := heap, handles := s.handles.set i h, writables := s.writables.set k w }

/-- `storage->flags = flags`, of a frame that is there. -/
def setFlags (s : Sharing) (i : ℕ) (flags : Flags) : Option Sharing :=
  match s.handle i with
  | none => some s
  | some h => do
    let x ← s.heap.get h.storage
    return { s with heap := s.heap.put h.storage (some { x with flags := flags }) }

/-! ### Operations on writable buffers -/

/-- Anything that writes to a writable buffer, with what it is afterwards: in the same allocation if
the length is the same, and in a new one otherwise. -/
def write (s : Sharing) (k : ℕ) (b : FilledBuffer) : Option Sharing := do
  let old ← s.heap.view (s.writable k)
  let (heap, w) ← s.heap.place (s.writable k) (old.mem.length ≠ b.1.mem.length) b.1
  return { s with heap := heap, writables := s.writables.set k w }

/-- `operator=(ByteBufferWritable &&)`. -/
def moveWritable (s : Sharing) (k l : ℕ) : Option Sharing :=
  if k = l then some s
  else do
    let heap ← s.heap.release (s.writable k)
    return { s with heap := heap, writables := (s.writables.set k (s.writable l)).set l none }

/-- `~ByteBufferWritable`. -/
def destroyWritable (s : Sharing) (k : ℕ) : Option Sharing := do
  return { s with heap := ← s.heap.release (s.writable k), writables := s.writables.set k none }

/-! ### The decoder -/

/-- `_writable_buffer.capacity()`. -/
def writableCapacity (s : Sharing) : ℕ := ((s.writable 0).map Owner.capacity).getD 0

/-- `_buffer.capacity()`. -/
def bufferCapacity (s : Sharing) : Option ℕ :=
  match s.handle 0 with
  | none => some 0
  | some h => do return (← s.heap.get h.storage).capacity

/-- `_writable_buffer.clear()`. -/
def clear (s : Sharing) : Sharing :=
  match s.writable 0 with
  | none => s
  | some o =>
    let o : Owner := ⟨o.buffer, 0, o.capacity + o.offset - INITIAL_DATA_OFFSET, INITIAL_DATA_OFFSET, 0⟩
    { s with writables := s.writables.set 0 (some o) }

/-- The buffer that `Restart` takes: the one of `_buffer`, if there is no other or it is larger. -/
def chooseBuffer (s : Sharing) : Option Sharing :=
  if s.writableCapacity = 0 then s.tryRecycle 0 0
  else do
    let capacity ← s.bufferCapacity
    if s.writableCapacity < capacity then s.tryRecycle 0 0 else return s

/-- `Restart`. -/
def restart (s : Sharing) : Option Sharing := do
  let s ← chooseBuffer { s with frameSize := 0, headerSize := 0 }
  return s.clear

/-- The pieces of a call of `PushData`: while the length is negative as an `int`, `TMP_LEN` bytes are
pushed first. -/
def split : ℕ → List UInt8 → List (List UInt8)
  | 0, data => [data]
  | fuel + 1, data =>
    if data.length < 1 <<< 31 then [data]
    else data.take FrameDecoder.TMP_LEN :: split fuel (data.drop FrameDecoder.TMP_LEN)

/-- A call of `PushData`, when there is none. -/
def pushData (s : Sharing) (chunk : Chunk) (onPacket : Bool) : Sharing :=
  if s.handling = false ∧ s.data = [] ∧ s.pieces = [] then
    { s with pieces := split (2 ^ 12) chunk.1, onPacket := onPacket }
  else s

/-- What a round works on. -/
def feed (s : Sharing) : Feed := ⟨s.heap, s.writable 0, s.headerSize, s.frameSize, s.data⟩

/-- What a round leaves. -/
def ofFeed (s : Sharing) (f : Feed) : Sharing :=
  { s with
    heap := f.heap
    writables := s.writables.set 0 f.writableBuffer
    headerSize := f.headerSize
    frameSize := f.frameSize
    data := f.data }

/-- `ByteBufferReadable buffer(std::move(_writable_buffer))`, and `onPacket` is called. -/
def handOut (s : Sharing) : Option Sharing := do
  let (heap, h) ← s.heap.share (s.writable 0)
  return { s with
    heap := heap
    writables := s.writables.set 0 none
    handles := s.handles.set 1 h
    handling := true }

/-- One round of `PushData`, or the next piece. -/
def advance (pool : MemoryPool) (s : Sharing) : Option Sharing :=
  if s.handling then some s
  else if s.data = [] then
    match s.pieces with
    | [] => some s
    | piece :: pieces => some { s with data := piece, pieces := pieces }
  else do
    let (f, complete) ← s.feed.round pool
    let s := s.ofFeed f
    if complete then
      if s.onPacket then s.handOut else s.restart
    else return s

/-- `if (_buffer.storage == nullptr) _buffer = std::move(buffer);`. -/
def keepBuffer (s : Sharing) : Option Sharing :=
  if s.handle 0 = none then s.moveAssign 0 1 else some s

/-- `onPacket` returns, and `PushData` goes on to the end of the round. -/
def finish (s : Sharing) : Option Sharing :=
  if s.handling = false then some s
  else do
    let s ← s.tryRecycle 1 0
    let s ← s.restart
    let s ← s.keepBuffer
    let s ← s.destroy 1
    return { s with handling := false }

/-! ### Runs -/

/-- The number of the handle that is named, as long as there is one. -/
def resolve (s : Sharing) : HandleName → Option ℕ
  | .packet => if s.handling then some 1 else none
  | .kept i => if i + 2 < s.handles.length then some (i + 2) else none

/-- The operations on the objects, and the steps of `PushData`. -/
inductive Action where
  | construct (k : ℕ)
  | copyConstruct (g : HandleName)
  | moveConstruct (g : HandleName)
  | copyAssign (h g : HandleName)
  | moveAssign (h g : HandleName)
  | swap (h g : HandleName)
  | destroy (h : HandleName)
  | tryRecycle (h : HandleName) (k : ℕ)
  | setFlags (h : HandleName) (flags : Flags)
  | newWritable
  | write (k : ℕ) (b : FilledBuffer)
  | moveWritable (k l : ℕ)
  | destroyWritable (k : ℕ)
  | pushData (chunk : Chunk) (onPacket : Bool)
  | advance
  | finish

/-- The handles that an operation may change. -/
def Action.names : Action → List HandleName
  | .moveConstruct g => [g]
  | .copyAssign h _ | .destroy h | .tryRecycle h _ => [h]
  | .moveAssign h g | .swap h g => [h, g]
  | _ => []

/-- An operation on a handle; without the handle there is none. -/
def on (s : Sharing) (h : HandleName) (op : ℕ → Option Sharing) : Option Sharing :=
  match s.resolve h with
  | none => some s
  | some i => op i

/-- An operation on a writable buffer that is not the decoder's. -/
def onWritable (s : Sharing) (k : ℕ) (op : ℕ → Option Sharing) : Option Sharing :=
  if k + 1 < s.writables.length then op (k + 1) else some s

/-- One step; `none` is a failed assertion or an access to an allocation that was freed. -/
def step (pool : MemoryPool) (s : Sharing) : Action → Option Sharing
  | .construct k => s.onWritable k s.construct
  | .copyConstruct g => s.on g s.copyConstruct
  | .moveConstruct g => s.on g fun j => some (s.moveConstruct j)
  | .copyAssign h g => s.on h fun i => s.on g fun j => s.copyAssign i j
  | .moveAssign h g => s.on h fun i => s.on g fun j => s.moveAssign i j
  | .swap h g => s.on h fun i => s.on g fun j => s.swap i j
  | .destroy h => s.on h s.destroy
  | .tryRecycle h k => s.on h fun i => s.onWritable k fun l => s.tryRecycle i l
  | .setFlags h flags => s.on h fun i => s.setFlags i flags
  | .newWritable => some { s with writables := s.writables ++ [none] }
  | .write k b => s.onWritable k fun k => s.write k b
  | .moveWritable k l => s.onWritable k fun k => s.onWritable l fun l => s.moveWritable k l
  | .destroyWritable k => s.onWritable k s.destroyWritable
  | .pushData chunk onPacket => some (s.pushData chunk onPacket)
  | .advance => s.advance pool
  | .finish => s.finish

/-- Steps one after the other. -/
def run (pool : MemoryPool) (s : Sharing) (actions : List Action) : Option Sharing :=
  actions.foldlM (step pool) s

/-- The number of handles that point to a storage. -/
def count (s : Sharing) (a : ℕ) : ℕ := s.handles.countP fun o => o.any (·.storage = a)

/-- The counter can count one more handle of the storage. -/
def CanCount (s : Sharing) (j : ℕ) : Prop := ∀ h ∈ s.handle j, s.count h.storage + 1 < 2 ^ 32

instance (s : Sharing) (j : ℕ) : Decidable (s.CanCount j) :=
  inferInstanceAs (Decidable (∀ h ∈ s.handle j, s.count h.storage + 1 < 2 ^ 32))

/-- A step that makes one more handle of a storage finds fewer than `2 ^ 32 - 1`. -/
def Meets (s : Sharing) : Action → Prop
  | .copyConstruct g => ∀ j ∈ s.resolve g, s.CanCount j
  | .copyAssign h g => ∀ i ∈ s.resolve h, ∀ j ∈ s.resolve g, s.sameStorage i j = false → s.CanCount j
  | _ => True

instance (s : Sharing) : (a : Action) → Decidable (s.Meets a)
  | .copyConstruct g => inferInstanceAs (Decidable (∀ j ∈ s.resolve g, s.CanCount j))
  | .copyAssign h g =>
    inferInstanceAs (Decidable (∀ i ∈ s.resolve h, ∀ j ∈ s.resolve g, s.sameStorage i j = false → s.CanCount j))
  | .construct _ | .moveConstruct _ | .moveAssign _ _ | .swap _ _ | .destroy _ | .tryRecycle _ _ | .setFlags _ _
  | .newWritable | .write _ _ | .moveWritable _ _ | .destroyWritable _ | .pushData _ _ | .advance | .finish =>
    isTrue trivial

end Sharing
end Framing
end ICon7
