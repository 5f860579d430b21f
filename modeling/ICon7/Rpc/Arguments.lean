/-
# The arguments of a call

`SerializeSend` and `Call` (`include/icon7/RPCEnvironment.hpp`) write the name of a
function and its arguments one behind the other; `_InternalCall`
(`include/icon7/MessageConverter.hpp`) fills the parameters of the handler from left
to right with `PeerFlagsArgumentsReader::ReadType`.  A parameter of type `Flags`,
`Host *`, `PeerHandle`, `ByteReader *` or `CommandExecutionQueue *` takes its value from
the call and reads no bytes; any other one is read by bitscpp, of which only the laws of
`Bitscpp` are assumed.

`ReadType` is chosen by the C++ type of the parameter, and `Flags` is `uint32_t`: a
`uint32_t` among the arguments is written, but a `uint32_t` parameter is not read.  Every
argument therefore arrives where it belongs exactly if no parameter that is meant to
carry one is a `uint32_t` (`readTypes_iff`).
-/

import ICon7.Peer.Manager
import ICon7.Rpc.Received

namespace ICon7
namespace Received

open Framing

/-! ### bitscpp -/

/-- bitscpp over value types `T`, the values `V t` of each and reader states `R`: what `op` has
written it reads back, whatever comes behind. -/
structure Bitscpp (T : Type) (V : T → Type) (R : Type) extends ByteReader R where
  ofBytes : List UInt8 → R
  op : (t : T) → R → V t × R
  writeUint : UInt32 → List UInt8
  writeString : String → List UInt8
  writeUntypedUint32 : UInt32 → List UInt8
  writeObject : List UInt8
  write : (t : T) → V t → List UInt8
  getErrors_ofBytes : ∀ bytes, getErrors (ofBytes bytes) = 0
  isNextInteger_writeUint : ∀ n rest, isNextInteger (ofBytes (writeUint n ++ rest)) = true
  isNextInteger_writeString : ∀ s rest, isNextInteger (ofBytes (writeString s ++ rest)) = false
  isNextString_writeString : ∀ s rest, isNextString (ofBytes (writeString s ++ rest)) = true
  opUint_writeUint : ∀ n rest, opUint (ofBytes (writeUint n ++ rest)) = (n, ofBytes rest)
  opString_writeString : ∀ s rest, opString (ofBytes (writeString s ++ rest)) = (s, ofBytes rest)
  opUntypedUint32_write : ∀ n rest,
    opUntypedUint32 (ofBytes (writeUntypedUint32 n ++ rest)) = (n, ofBytes rest)
  length_writeUntypedUint32 : ∀ n, (writeUntypedUint32 n).length = 4
  op_write : ∀ t v rest, op t (ofBytes (write t v ++ rest)) = (v, ofBytes rest)

/-! ### Types and values -/

/-- The type of an argument or of a returned value: `uint32_t`, or any other. -/
inductive DataType (T : Type) where
  | uint32
  | other (t : T)
deriving DecidableEq, Repr

/-- What a parameter of a handler is meant for. -/
inductive Param (T : Type) where
  | flags
  | host
  | peer
  | reader
  | queue
  | data (d : DataType T)
deriving DecidableEq, Repr

/-- The types that the overloads of `ReadType` tell apart. -/
inductive CppType (T : Type) where
  | uint32
  | hostPointer
  | peerHandle
  | byteReaderPointer
  | commandExecutionQueuePointer
  | other (t : T)
deriving DecidableEq, Repr

/-- The C++ type of a parameter. -/
def Param.cppType {T : Type} : Param T → CppType T
  -- `using Flags = uint32_t`
  | flags => .uint32
  | host => .hostPointer
  | peer => .peerHandle
  | reader => .byteReaderPointer
  | queue => .commandExecutionQueuePointer
  | data .uint32 => .uint32
  | data (.other t) => .other t

/-- The type of the argument that the parameter is meant for, if it is meant for one. -/
def Param.dataType {T : Type} : Param T → Option (DataType T)
  | data d => some d
  | flags | host | peer | reader | queue => none

/-- An argument or a returned value. -/
inductive Datum {T : Type} (V : T → Type) where
  | uint32 (n : UInt32)
  | other (t : T) (v : V t)

/-- An element of the tuple that the handler is called with.  A `ByteReader *` is the address of
the reader that the other arguments are read from. -/
inductive Argument {T : Type} (V : T → Type) where
  | uint32 (n : UInt32)
  | host (host : Option ℕ)
  | peerHandle (peer : PeerHandle)
  | byteReader
  | commandExecutionQueue (queue : ℕ)
  | other (t : T) (v : V t)

/-- The queue and the peer that `DeserializeAndExecute` is called with, and the peer's host. -/
structure CallContext where
  queue : ℕ
  peer : PeerHandle
  getHost : Option ℕ

section

variable {T : Type} {V : T → Type} {R S : Type} (B : Bitscpp T V R) (ctx : CallContext)

/-- The type of a value. -/
def Datum.type : Datum V → DataType T
  | uint32 _ => .uint32
  | other t _ => .other t

/-- A value in the tuple of arguments. -/
def Datum.argument : Datum V → Argument V
  | uint32 n => .uint32 n
  | other t v => .other t v

namespace Bitscpp

/-- `writer.op`. -/
def writeDatum : Datum V → List UInt8
  | .uint32 n => B.writeUint n
  | .other t v => B.write t v

/-- `(writer.op(args), ...)`. -/
def writeArgs (args : List (Datum V)) : List UInt8 := args.flatMap B.writeDatum

/-- `reader.op`, for a returned value. -/
def opDatum : DataType T → R → Datum V × R
  | .uint32, reader => (B.opUint reader).map .uint32 id
  | .other t, reader => (B.op t reader).map (.other t) id

end Bitscpp

/-! ### Reading the arguments -/

/-- `PeerFlagsArgumentsReader::ReadType`. -/
def readType (flags : Flags) (reader : R) : CppType T → Argument V × R
  | .uint32 => (.uint32 flags, reader)
  | .hostPointer => (.host ctx.getHost, reader)
  | .peerHandle => (.peerHandle ctx.peer, reader)
  | .byteReaderPointer => (.byteReader, reader)
  | .commandExecutionQueuePointer => (.commandExecutionQueue ctx.queue, reader)
  | .other t => (B.op t reader).map (.other t) id

/-- The tuple of `_InternalCall`, filled from left to right, and the reader behind it. -/
def readTypes (flags : Flags) : List (CppType T) → R → List (Argument V) × R
  | [], reader => ([], reader)
  | t :: ts, reader =>
    let (arg, reader) := readType B ctx flags reader t
    let (args, reader) := readTypes flags ts reader
    (arg :: args, reader)

/-- What the parameters are meant to get: the arguments in their order, and the rest from the
call. -/
def intended (flags : Flags) : List (Param T) → List (Datum V) → List (Argument V)
  | [], _ => []
  | .flags :: ps, args => .uint32 flags :: intended flags ps args
  | .host :: ps, args => .host ctx.getHost :: intended flags ps args
  | .peer :: ps, args => .peerHandle ctx.peer :: intended flags ps args
  | .reader :: ps, args => .byteReader :: intended flags ps args
  | .queue :: ps, args => .commandExecutionQueue ctx.queue :: intended flags ps args
  | .data _ :: ps, arg :: args => arg.argument :: intended flags ps args
  | .data _ :: ps, [] => intended flags ps []

/-- The arguments have the types that the parameters are meant for. -/
def Fits (ps : List (Param T)) (args : List (Datum V)) : Prop :=
  args.map Datum.type = ps.filterMap Param.dataType

variable {B ctx} {flags : Flags}

/-- A value is read back. -/
theorem Bitscpp.opDatum_writeDatum (B : Bitscpp T V R) (v : Datum V) (rest : List UInt8) :
    B.opDatum v.type (B.ofBytes (B.writeDatum v ++ rest)) = (v, B.ofBytes rest) := by
  cases v with
  | uint32 n => simp [opDatum, writeDatum, Datum.type, B.opUint_writeUint]
  | other t v => simp [opDatum, writeDatum, Datum.type, B.op_write]

/-- **The arguments are read back into their parameters,** if none of these is a `uint32_t`. -/
theorem readTypes_writeArgs (B : Bitscpp T V R) (ctx : CallContext) (flags : Flags)
    {ps : List (Param T)} (hps : .data .uint32 ∉ ps) {args : List (Datum V)} (hfits : Fits ps args)
    (rest : List UInt8) :
    readTypes B ctx flags (ps.map Param.cppType) (B.ofBytes (B.writeArgs args ++ rest)) =
      (intended ctx flags ps args, B.ofBytes rest) := by
  induction ps generalizing args with
  | nil =>
    obtain rfl : args = [] := List.map_eq_nil_iff.mp hfits
    rfl
  | cons p ps ih =>
    obtain ⟨hp, hrest⟩ := not_or.mp (mt List.mem_cons.mpr hps)
    cases p with
    | flags | host | peer | reader | queue =>
      -- what the call supplies leaves the reader where it is
      exact congrArg (fun r => (_ :: r.1, r.2)) (ih hrest hfits)
    | data d =>
      cases args with
      | nil => cases hfits
      | cons arg args =>
        obtain ⟨rfl, hargs⟩ := List.cons.inj hfits
        cases arg with
        | uint32 n => exact absurd rfl hp
        | other t v =>
          have hread : readType B ctx flags (B.ofBytes (B.writeArgs (.other t v :: args) ++ rest))
              (.other t) = (.other t v, B.ofBytes (B.writeArgs args ++ rest)) := by
            simp [readType, Bitscpp.writeArgs, Bitscpp.writeDatum, B.op_write]
          simp only [List.map_cons, Datum.type, Param.cppType, readTypes, hread, ih hrest hargs,
            intended, Datum.argument]

/-- **A `uint32_t` parameter gets the flags,** whatever the bytes are. -/
theorem readTypes_uint32 (B : Bitscpp T V R) (ctx : CallContext) (flags : Flags) {ts : List (CppType T)}
    {i : ℕ} (hi : ts[i]? = some .uint32) (reader : R) :
    (readTypes B ctx flags ts reader).1[i]? = some (.uint32 flags) := by
  induction ts generalizing i reader with
  | nil => simp at hi
  | cons t ts ih =>
    cases i with
    | zero =>
      obtain rfl : t = .uint32 := by simpa using hi
      rfl
    | succ i => exact ih (by simpa using hi) _

variable (V) [∀ t, Inhabited (V t)]

/-- A number other than the flags, and some value of any other type. -/
def DataType.sample (flags : Flags) : DataType T → Datum V
  | uint32 => .uint32 (flags + 1)
  | other t => .other t default

/-- Arguments for the parameters. -/
def samples (flags : Flags) (ps : List (Param T)) : List (Datum V) :=
  (ps.filterMap Param.dataType).map (DataType.sample V flags)

variable {V}

theorem fits_samples (ps : List (Param T)) : Fits ps (samples V flags ps) := by
  have hd : ∀ d : DataType T, (d.sample V flags).type = d := by
    intro d
    cases d with
    | uint32 => rfl
    | other t => rfl
  simp [Fits, samples, Function.comp_def, hd]

theorem intended_samples {ps : List (Param T)} {i : ℕ} (hi : ps[i]? = some (.data .uint32)) :
    (intended ctx flags ps (samples V flags ps))[i]? = some (.uint32 (flags + 1)) := by
  induction ps generalizing i with
  | nil => simp at hi
  | cons p ps ih =>
    cases i with
    | zero =>
      obtain rfl : p = .data .uint32 := by simpa using hi
      rfl
    | succ i =>
      have hi : ps[i]? = some (.data .uint32) := by simpa using hi
      cases p with
      | flags | host | peer | reader | queue | data d => exact ih hi

/-- **Which handlers get their arguments:** those without a `uint32_t` among the parameters that
are meant to carry one.  `ReadType` takes such a parameter for `Flags`. -/
theorem readTypes_iff (B : Bitscpp T V R) (ctx : CallContext) (flags : Flags) (ps : List (Param T)) :
    (∀ (args : List (Datum V)) (rest : List UInt8), Fits ps args →
      readTypes B ctx flags (ps.map Param.cppType) (B.ofBytes (B.writeArgs args ++ rest)) =
        (intended ctx flags ps args, B.ofBytes rest)) ↔ .data .uint32 ∉ ps := by
  constructor
  · intro h hmem
    obtain ⟨i, hi⟩ := List.getElem?_of_mem hmem
    have hti : (ps.map Param.cppType)[i]? = some .uint32 := by simp [hi, Param.cppType]
    -- the parameter is sent a number other than the flags, and gets the flags
    have hread := readTypes_uint32 B ctx flags hti
      (B.ofBytes (B.writeArgs (samples V flags ps) ++ []))
    rw [h _ [] (fits_samples ps), intended_samples hi] at hread
    simp at hread
  · intro hps args rest hfits
    exact readTypes_writeArgs B ctx flags hps hfits rest

end

end Received
end ICon7
