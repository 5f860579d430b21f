/-
# What the bytes of a received frame can make happen

`RPCEnvironment::OnReceiveCall` and `OnReceiveReturn` (`src/RPCEnvironment.cpp`) on
bytes that the remote side has chosen, with `RpcName`, the registry of message
converters, `OnReturnCallback::Execute` and `ExecuteReturnCallback::Execute`.

The bytes are read by bitscpp, of which nothing is assumed here: a `ByteReader` says
what comes next, gives some value for whatever is asked of it, and counts its errors.
Every statement is therefore about every way in which the bytes could be read.

A failed assertion is `none`.
-/

import ICon7.Framing.Header

namespace ICon7
namespace Received

open Framing

/-- `bitscpp::v2::ByteReader` over states `R`: the kind of the next value, the operations that
read one, and `get_errors`. -/
structure ByteReader (R : Type) where
  getErrors : R → UInt32
  isNextInteger : R → Bool
  isNextString : R → Bool
  opUint : R → UInt32 × R
  opString : R → String × R
  opUntypedUint32 : R → UInt32 × R

/-! ### Names of functions -/

/-- `RpcName`. -/
structure RpcName where
  str : String := ""
  uint : UInt32 := 0
deriving DecidableEq, Repr

namespace RpcName

/-- `operator bool`. -/
def valid (name : RpcName) : Bool := (name.str != "") ^^ (name.uint != 0)

/-- `IsString`. -/
def isString (name : RpcName) : Option Bool := do
  guard name.valid
  return name.str != ""

/-- `IsUint`. -/
def isUint (name : RpcName) : Option Bool := do
  guard name.valid
  return name.uint != 0

/-- `ToString`. -/
def toString (name : RpcName) : Option String :=
  if name.str ≠ "" then do
    guard (name.uint = 0)
    return "'" ++ name.str ++ "'"
  else if name.uint ≠ 0 then do
    guard (name.str = "")
    return "[" ++ name.uint.toNat.repr ++ "]"
  else some "!!##INVALID_RPC_FUNCTION_NAME##!!"

variable {R : Type} (B : ByteReader R)

/-- `serialize(ByteReader)`. -/
def serialize (name : RpcName) (reader : R) : RpcName × R :=
  if B.isNextInteger reader then
    let (uint, reader) := B.opUint reader
    ({ name with uint, str := "" }, reader)
  else if B.isNextString reader then
    let (str, reader) := B.opString reader
    ({ name with str, uint := 0 }, reader)
  else
    let (_, reader) := B.opUint reader
    ({ name with uint := 0, str := "" }, reader)

/-- The bytes hold the name of a function: an integer other than `0`, or a string other than the
empty one. -/
def Named (reader : R) : Prop :=
  (B.isNextInteger reader ∧ (B.opUint reader).1 ≠ 0) ∨
    (¬B.isNextInteger reader ∧ B.isNextString reader ∧ (B.opString reader).1 ≠ "")

/-- What is read is a valid name exactly if the bytes hold one. -/
theorem valid_serialize_iff (name : RpcName) (reader : R) :
    (name.serialize B reader).1.valid ↔ Named B reader := by
  unfold serialize Named valid
  by_cases hint : B.isNextInteger reader
  · simp [hint]
  · by_cases hstr : B.isNextString reader
    · simp [hint, hstr]
    · simp [hint, hstr]

/-- The accessors fail their assertion exactly on an invalid name. -/
theorem isString_of_valid {name : RpcName} (h : name.valid) : name.isString = some (name.str != "") := by
  simp [isString, guard, h]

theorem isUint_of_valid {name : RpcName} (h : name.valid) : name.isUint = some (name.uint != 0) := by
  simp [isUint, guard, h]

theorem isString_of_not_valid {name : RpcName} (h : ¬name.valid) : name.isString = none := by
  simp [isString, guard, h]

/-- A valid name with a string is not a number. -/
theorem uint_eq_zero {name : RpcName} (h : name.valid) (hs : name.str ≠ "") : name.uint = 0 := by
  by_contra hu
  rw [valid, bne_iff_ne.2 hs, bne_iff_ne.2 hu] at h
  cases h

/-- A valid name without a string is a number. -/
theorem uint_ne_zero {name : RpcName} (h : name.valid) (hs : name.str = "") : name.uint ≠ 0 := by
  intro hu
  simp [valid, hs, hu] at h

/-- A valid name has a text. -/
theorem toString_of_valid {name : RpcName} (h : name.valid) : ∃ text, name.toString = some text := by
  unfold toString
  by_cases hs : name.str = ""
  · rw [if_neg (not_not_intro hs)]
    split_ifs
    · exact ⟨"[" ++ name.uint.toNat.repr ++ "]", by simp [guard, hs]⟩
    · exact ⟨_, rfl⟩
  · rw [if_pos hs]
    exact ⟨"'" ++ name.str ++ "'", by simp [guard, uint_eq_zero h hs]⟩

end RpcName

/-! ### The registry -/

/-- `MessageConverter` over program states `S`: its name and its queue, the reader behind the
arguments, and what the handler and its answer do with the arguments that the reader holds. -/
structure MessageConverter (R S : Type) where
  name : RpcName
  executionQueue : Option ℕ
  getExecutionQueue : Option (R → Flags → Option ℕ × R)
  readArgs : R → R
  onReceive : S → R → Flags → UInt32 → S

namespace MessageConverter

variable {R S : Type} (B : ByteReader R)

/-- `ExecuteGetQueue`; a queue that is chosen per call may be read off the arguments. -/
def executeGetQueue (c : MessageConverter R S) (reader : R) (flags : Flags) :
    Option (Option ℕ × R) := do
  guard c.name.valid
  match c.executionQueue, c.getExecutionQueue with
  | some queue, _ => return (some queue, reader)
  | none, some getQueue => return getQueue reader flags
  | none, none => return (none, reader)

/-- `DeserializeAndExecute`: arguments with errors do not reach the handler. -/
def deserializeAndExecute (c : MessageConverter R S) (s : S) (reader : R) (flags : Flags)
    (returnId : UInt32) : Option S := do
  guard c.name.valid
  if B.getErrors (c.readArgs reader) ≠ 0 then return s
  else return c.onReceive s reader flags returnId

end MessageConverter

/-- A converter that `RegisterAnyMessage` has given a valid name. -/
abbrev Registered (R S : Type) := { c : MessageConverter R S // c.name.valid }

/-- `RPCEnvironment`. -/
structure RPCEnvironment (R S : Type) where
  registeredMessagesString : String → Option (Registered R S) := fun _ => none
  registeredMessagesUint : List (Option (Registered R S)) := []

/-- `commands::internal::ExecuteRPC`, but for the peer. -/
structure ExecuteRPC (R S : Type) where
  reader : R
  messageConverter : Registered R S
  flags : Flags
  returnId : UInt32
  queue : ℕ

namespace RPCEnvironment

variable {R S : Type}

/-- `RegisterAnyMessage`.  A string that is taken keeps its converter, a number does not. -/
def registerAnyMessage (E : RPCEnvironment R S) (name : RpcName) (c : MessageConverter R S) :
    Option (RPCEnvironment R S) :=
  if h : name.valid then
    let c : Registered R S := ⟨{ c with name }, h⟩
    if name.str ≠ "" then
      if (E.registeredMessagesString name.str).isSome then some E
      else some { E with
        registeredMessagesString := Function.update E.registeredMessagesString name.str (some c) }
    else
      let n := name.uint.toNat
      let uints := E.registeredMessagesUint ++
        List.replicate (n + 1 - E.registeredMessagesUint.length) none
      some { E with registeredMessagesUint := uints.set n (some c) }
  else none

variable (B : ByteReader R) (enqueue : S → ExecuteRPC R S → S)

/-- The converter that `OnReceiveCall` looks up under a name. -/
def find (E : RPCEnvironment R S) (name : RpcName) : Option (Option (Registered R S)) := do
  if ← name.isString then return E.registeredMessagesString name.str
  else if ← name.isUint then return (E.registeredMessagesUint[name.uint.toNat]?).join
  else return none

/-- The reader of `OnReceiveCall` behind the id, and the id. -/
def readReturnId (reader : R) (flags : Flags) : UInt32 × R :=
  if flags &&& 6 = FLAGS_CALL then B.opUntypedUint32 reader else (0, reader)

/-- `OnReceiveCall`. -/
def onReceiveCall (E : RPCEnvironment R S) (s : S) (reader : R) (flags : Flags) : Option S := do
  let (returnId, reader) := readReturnId B reader flags
  let (name, reader) := RpcName.serialize B {} reader
  match ← E.find name with
  | some c =>
    let (queue, reader) ← c.1.executeGetQueue reader flags
    match queue with
    | some queue => return enqueue s ⟨reader, c, flags, returnId, queue⟩
    | none => c.1.deserializeAndExecute B s reader flags returnId
  | none =>
    let _ ← name.toString
    return s

/-! ### Which calls trip an assertion -/

/-- A converter with a valid name fails no assertion. -/
theorem executeGetQueue_isSome (c : Registered R S) (reader : R) (flags : Flags) :
    ∃ r, c.1.executeGetQueue reader flags = some r := by
  unfold MessageConverter.executeGetQueue
  simp only [guard, c.2, if_true, Option.bind_eq_bind, Option.pure_def, Option.bind_some]
  split
  · exact ⟨_, rfl⟩
  · exact ⟨_, rfl⟩
  · exact ⟨_, rfl⟩

theorem deserializeAndExecute_isSome (c : Registered R S) (s : S) (reader : R) (flags : Flags)
    (returnId : UInt32) : ∃ t, c.1.deserializeAndExecute B s reader flags returnId = some t := by
  unfold MessageConverter.deserializeAndExecute
  simp only [guard, c.2, if_true, Option.bind_eq_bind, Option.pure_def, Option.bind_some]
  split_ifs
  · exact ⟨_, rfl⟩
  · exact ⟨_, rfl⟩

/-- Looking up a valid name succeeds, with or without a converter. -/
theorem find_of_valid (E : RPCEnvironment R S) {name : RpcName} (h : name.valid) :
    ∃ c, E.find name = some c := by
  simp only [find, RpcName.isString_of_valid h, RpcName.isUint_of_valid h, Option.bind_eq_bind,
    Option.bind_some, Option.pure_def]
  split_ifs
  · exact ⟨_, rfl⟩
  · exact ⟨_, rfl⟩
  · exact ⟨_, rfl⟩

/-- An invalid name is looked up by the accessors that assert it is valid. -/
theorem find_of_not_valid (E : RPCEnvironment R S) {name : RpcName} (h : ¬name.valid) :
    E.find name = none := by
  simp only [find, RpcName.isString_of_not_valid h, Option.bind_eq_bind, Option.bind_none]

/-- The frame of a call names a function. -/
def NamesFunction (reader : R) (flags : Flags) : Prop :=
  RpcName.Named B (readReturnId B reader flags).2

/-- **A call is received without a failed assertion exactly if it names a function.**  Otherwise
the assertion inside `IsString` fails before the branch for a missing name is reached. -/
theorem onReceiveCall_iff (E : RPCEnvironment R S) (s : S) (reader : R) (flags : Flags) :
    ((∃ t, E.onReceiveCall B enqueue s reader flags = some t) ∧
      (¬NamesFunction B reader flags → E.onReceiveCall B enqueue s reader flags = some s)) ↔
      NamesFunction B reader flags := by
  unfold NamesFunction
  rw [← RpcName.valid_serialize_iff B {}]
  constructor
  · rintro ⟨⟨t, ht⟩, -⟩
    by_contra hnot
    simp [onReceiveCall, find_of_not_valid E hnot] at ht
  · intro hvalid
    refine ⟨?_, fun hnot => absurd hvalid hnot⟩
    obtain ⟨c, hc⟩ := E.find_of_valid hvalid
    cases c with
    | none =>
      obtain ⟨text, htext⟩ := RpcName.toString_of_valid hvalid
      exact ⟨s, by simp [onReceiveCall, hc, htext]⟩
    | some c =>
      obtain ⟨⟨queue, reader'⟩, hq⟩ := executeGetQueue_isSome c
        (RpcName.serialize B {} (readReturnId B reader flags).2).2 flags
      cases queue with
      | some queue =>
        exact ⟨enqueue s ⟨reader', c, flags, (readReturnId B reader flags).1, queue⟩,
          by simp [onReceiveCall, hc, hq]⟩
      | none =>
        obtain ⟨t, ht⟩ := deserializeAndExecute_isSome B c s reader' flags
          (readReturnId B reader flags).1
        exact ⟨t, by simp [onReceiveCall, hc, hq, ht]⟩

end RPCEnvironment

/-! ### A reader of tagged bytes -/

/-- A reader over bytes with a tag in front of each value, `1` for an integer of one byte and
`2` for a string of one character or none; what does not match is an error. -/
def ByteReader.tagged : ByteReader (List UInt8 × UInt32) where
  getErrors r := r.2
  isNextInteger r := r.1.head? == some 1
  isNextString r := r.1.head? == some 2
  opUint r :=
    match r.1 with
    | 1 :: n :: rest => (n.toUInt32, rest, r.2)
    | _ => (0, r.1, 1)
  opString r :=
    match r.1 with
    | 2 :: 0 :: rest => ("", rest, r.2)
    | 2 :: c :: rest => (String.singleton (Char.ofNat c.toNat), rest, r.2)
    | _ => ("", r.1, 1)
  opUntypedUint32 r :=
    match r.1 with
    | n :: rest => (n.toUInt32, rest, r.2)
    | [] => (0, [], 1)

namespace RPCEnvironment

/-- A handler that counts its calls. -/
def counter : MessageConverter (List UInt8 × UInt32) ℕ where
  name := {}
  executionQueue := none
  getExecutionQueue := none
  readArgs r := r
  onReceive s _ _ _ := s + 1

/-- A call of the function `7`, with the id `5`, is received. -/
theorem onReceiveCall_iff_counter :
    ∃ E : RPCEnvironment (List UInt8 × UInt32) ℕ,
      RPCEnvironment.registerAnyMessage {} { uint := 7 } counter = some E ∧
      ((∃ t, E.onReceiveCall .tagged (fun s _ => s) 0 ([5, 1, 7], 0) FLAGS_CALL = some t) ∧
        (¬NamesFunction .tagged ([5, 1, 7], 0) FLAGS_CALL →
          E.onReceiveCall .tagged (fun s _ => s) 0 ([5, 1, 7], 0) FLAGS_CALL = some 0)) :=
  ⟨_, rfl, (onReceiveCall_iff .tagged _ _ 0 ([5, 1, 7], 0) FLAGS_CALL).2
    (Or.inl ⟨by decide, by decide⟩)⟩

/-- **The integer `0`, the empty string and anything else in place of a name** trip the assertion,
with nothing registered at all. -/
theorem onReceiveCall_trips :
    RPCEnvironment.onReceiveCall .tagged (fun s _ => s) {} 0 ([1, 0], 0) FLAGS_CALL_NO_FEEDBACK = none ∧
    RPCEnvironment.onReceiveCall .tagged (fun s _ => s) {} 0 ([2, 0], 0) FLAGS_CALL_NO_FEEDBACK = none ∧
    RPCEnvironment.onReceiveCall .tagged (fun s _ => s) {} 0 ([3], 0) FLAGS_CALL_NO_FEEDBACK = none ∧
    RPCEnvironment.onReceiveCall .tagged (fun s _ => s) {} 0 ([5], 0) FLAGS_CALL = none := by
  decide

end RPCEnvironment

/-! ### Returned values -/

/-- `ExecuteReturnCallback<Tret>` with the reader that was moved into it; `op` reads a `Tret`,
and is empty for `void`. -/
structure ExecuteReturnCallback (R V : Type) where
  op : Option (R → V × R)
  reader : R
  flags : Flags
  timedOut : Bool

/-- What the program of a pending call gets to see. -/
inductive Outcome (V : Type) where
  | onReturn (flags : Flags) (v : Option V)
  | timeout
deriving DecidableEq, Repr

/-- `ExecuteReturnCallback<Tret>::Execute`. -/
def ExecuteReturnCallback.execute {R V : Type} (c : ExecuteReturnCallback R V) : Outcome V :=
  if c.timedOut then .timeout
  else
    match c.op with
    | some op => .onReturn c.flags (some (op c.reader).1)
    | none => .onReturn c.flags none

/-- `OnReturnCallback`, with the `Tret` of its command. -/
structure OnReturnCallback (R V : Type) where
  op : Option (R → V × R)
  executionQueue : Option ℕ

/-- A command that is executed at once, or by the queue that it was moved to. -/
inductive Delivery (R V : Type) where
  | executed (c : ExecuteReturnCallback R V)
  | enqueued (queue : ℕ) (c : ExecuteReturnCallback R V)

/-- What the command does, now or when its queue comes to it: nothing touches it in between. -/
def Delivery.outcome {R V : Type} : Delivery R V → Outcome V
  | .executed c => c.execute
  | .enqueued _ c => c.execute

/-- `OnReturnCallback::Execute`. -/
def OnReturnCallback.execute {R V : Type} (cb : OnReturnCallback R V) (flags : Flags) (reader : R) :
    Delivery R V :=
  let c := ⟨cb.op, reader, flags, false⟩
  match cb.executionQueue with
  | some queue => .enqueued queue c
  | none => .executed c

section

variable {R V : Type} (B : ByteReader R)

/-- `OnReceiveReturn`: the pending calls that are left, and the command. -/
def onReceiveReturn (returningCallbacks : UInt32 → Option (OnReturnCallback R V)) (reader : R)
    (flags : Flags) : (UInt32 → Option (OnReturnCallback R V)) × Option (Delivery R V) :=
  let (returnId, reader) := B.opUntypedUint32 reader
  match returningCallbacks returnId with
  | some cb => (Function.update returningCallbacks returnId none, some (cb.execute flags reader))
  | none => (returningCallbacks, none)

/-- The id and the value that the call waits for are read without errors. -/
structure Decodes (reader : R) (cb : OnReturnCallback R V) : Prop where
  id : B.getErrors (B.opUntypedUint32 reader).2 = 0
  value : ∀ op, cb.op = some op → B.getErrors (op (B.opUntypedUint32 reader).2).2 = 0

/-- Whatever was read, a command that `OnReceiveReturn` delivers reports a result. -/
theorem outcome_execute (cb : OnReturnCallback R V) (flags : Flags) (reader : R) :
    (cb.execute flags reader).outcome = .onReturn flags (cb.op.map fun op => (op reader).1) := by
  unfold OnReturnCallback.execute
  cases cb.executionQueue with
  | none => cases cb.op <;> rfl
  | some queue => cases cb.op <;> rfl

/-- **A return is reported as a result only if it can be read, exactly when every return to a
pending call can be.**  Neither `OnReceiveReturn` nor `ExecuteReturnCallback` asks the reader for
its errors. -/
theorem onReceiveReturn_iff (returningCallbacks : UInt32 → Option (OnReturnCallback R V))
    (reader : R) (flags : Flags) :
    (∀ cb delivery f v, returningCallbacks (B.opUntypedUint32 reader).1 = some cb →
      (onReceiveReturn B returningCallbacks reader flags).2 = some delivery →
      delivery.outcome = .onReturn f v → Decodes B reader cb) ↔
    ∀ cb, returningCallbacks (B.opUntypedUint32 reader).1 = some cb → Decodes B reader cb := by
  constructor
  · intro h cb hcb
    refine h cb (cb.execute flags (B.opUntypedUint32 reader).2) _ _ hcb ?_ (outcome_execute cb _ _)
    simp [onReceiveReturn, hcb]
  · intro h cb _ _ _ hcb _ _
    exact h cb hcb

end

/-- A call that waits for an integer, pending under the id `5`. -/
def pendingFive (returnId : UInt32) : Option (OnReturnCallback (List UInt8 × UInt32) UInt32) :=
  if returnId = 5 then some ⟨some ByteReader.tagged.opUint, none⟩ else none

/-- The return of `9` to that call is read without errors and reported. -/
theorem onReceiveReturn_iff_nine :
    ∀ cb delivery f v, pendingFive (ByteReader.tagged.opUntypedUint32 ([5, 1, 9], 0)).1 = some cb →
      (onReceiveReturn .tagged pendingFive ([5, 1, 9], 0) FLAGS_CALL_RETURN_FEEDBACK).2 =
        some delivery →
      delivery.outcome = .onReturn f v → Decodes .tagged ([5, 1, 9], 0) cb :=
  (onReceiveReturn_iff .tagged pendingFive ([5, 1, 9], 0) FLAGS_CALL_RETURN_FEEDBACK).2 fun cb hcb => by
    obtain rfl : (⟨some ByteReader.tagged.opUint, none⟩ : OnReturnCallback _ _) = cb :=
      Option.some.inj hcb
    exact ⟨rfl, by rintro _ ⟨⟩; rfl⟩

/-- **A return without a value is reported as the value `0`,** and one with a string in its place
too, although reading either is an error. -/
theorem onReceiveReturn_reports_unread :
    ((onReceiveReturn .tagged pendingFive ([5], 0) FLAGS_CALL_RETURN_FEEDBACK).2.map Delivery.outcome =
        some (.onReturn FLAGS_CALL_RETURN_FEEDBACK (some 0)) ∧
      ByteReader.tagged.getErrors (ByteReader.tagged.opUint ([], 0)).2 ≠ 0) ∧
    (onReceiveReturn .tagged pendingFive ([5, 2, 97], 0) FLAGS_CALL_RETURN_FEEDBACK).2.map
        Delivery.outcome = some (.onReturn FLAGS_CALL_RETURN_FEEDBACK (some 0)) ∧
      ByteReader.tagged.getErrors (ByteReader.tagged.opUint ([2, 97], 0)).2 ≠ 0 := by
  decide

end Received
end ICon7
