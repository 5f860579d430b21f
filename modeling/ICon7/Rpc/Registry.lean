/-
# The registry of message converters

`RegisterAnyMessage`, `RemoveRegisteredMessage`, the lookup of `OnReceiveCall` and
the destructor of `RPCEnvironment` (`src/RPCEnvironment.cpp`).  Converters are
pointers here, of any type `C`: what matters is which one is where.  The name that
a registration writes into its converter is part of the converter; at converters
with names this is the registry of received calls (`environment_registerAnyMessage`).

Strings are the keys of a hash map, numbers the indices of a vector that grows to
the largest one and loses its empty end at a removal.  A failed assertion is `none`.
-/

import Mathlib.Data.List.AList
import Mathlib.Data.List.DropRight
import ICon7.Lib.Run
import ICon7.Lib.SwapRemove
import ICon7.Rpc.Received

namespace ICon7
namespace Received

/-- `registeredMessagesString` and `registeredMessagesUint` of `RPCEnvironment`. -/
structure Registry (C : Type) where
  registeredMessagesString : AList fun _ : String => C := ∅
  registeredMessagesUint : List (Option C) := []

namespace Registry

variable {C : Type}

/-- `registeredMessagesUint.resize(n + 1, nullptr)`, where the vector is not that long. -/
def resized (r : Registry C) (n : ℕ) : List (Option C) :=
  r.registeredMessagesUint ++ List.replicate (n + 1 - r.registeredMessagesUint.length) none

/-- `RegisterAnyMessage`.  `LOG_FATAL` only logs, so that a number that is taken is logged and
then overwritten. -/
def registerAnyMessage (r : Registry C) (name : RpcName) (messageConverter : C) :
    Option (Registry C) := do
  guard name.valid
  if ← name.isString then
    if name.str ∈ r.registeredMessagesString then
      let _ ← name.toString
      return r
    else return { r with
      registeredMessagesString := r.registeredMessagesString.insert name.str messageConverter }
  else if ← name.isUint then
    let uints := r.resized name.uint.toNat
    let slot ← uints[name.uint.toNat]?
    if slot.isSome then
      let _ ← name.toString
    return { r with registeredMessagesUint := uints.set name.uint.toNat (some messageConverter) }
  else return r

/-- `RemoveRegisteredMessage`, with the converter that it deletes.  The slot of a number is
emptied before it is read. -/
def removeRegisteredMessage (r : Registry C) (name : RpcName) : Option (Registry C × Option C) := do
  if ← name.isString then
    return ({ r with registeredMessagesString := r.registeredMessagesString.erase name.str },
      r.registeredMessagesString.lookup name.str)
  else if ← name.isUint then
    let uints := r.registeredMessagesUint.set name.uint.toNat none
    let msgConv := (uints[name.uint.toNat]?).join
    -- the loop that pops null pointers off the end
    return ({ r with registeredMessagesUint := uints.rdropWhile Option.isNone }, msgConv)
  else return (r, none)

/-- The converter that `OnReceiveCall` looks up under a name. -/
def find (r : Registry C) (name : RpcName) : Option (Option C) := do
  if ← name.isString then return r.registeredMessagesString.lookup name.str
  else if ← name.isUint then return (r.registeredMessagesUint[name.uint.toNat]?).join
  else return none

/-- The converters that `~RPCEnvironment` deletes. -/
def held (r : Registry C) : List C :=
  r.registeredMessagesString.entries.map Sigma.snd ++ r.registeredMessagesUint.filterMap id

/-! ### Strings and numbers -/

variable {r : Registry C} {name : RpcName}

theorem length_resized (r : Registry C) (n : ℕ) : n < (r.resized n).length := by
  rw [resized, List.length_append, List.length_replicate]
  omega

/-- The lookup in the resized vector is that in the old one. -/
theorem join_resized (r : Registry C) (n i : ℕ) :
    ((r.resized n)[i]?).join = (r.registeredMessagesUint[i]?).join := by
  rw [resized, List.getElem?_append]
  split_ifs with hlt
  · rfl
  · rw [List.getElem?_replicate, List.getElem?_eq_none (by omega)]
    split_ifs <;> rfl

section Cases

variable (h : name.valid) (c : C)
include h

theorem find_of_string (hs : name.str ≠ "") :
    r.find name = some (r.registeredMessagesString.lookup name.str) := by
  simp [find, RpcName.isString_of_valid h, hs]

theorem find_of_uint (hs : name.str = "") :
    r.find name = some (r.registeredMessagesUint[name.uint.toNat]?).join := by
  simp [find, RpcName.isString_of_valid h, RpcName.isUint_of_valid h, hs, RpcName.uint_ne_zero h hs]

/-- A string is registered unless it is taken. -/
theorem registerAnyMessage_of_string (hs : name.str ≠ "") :
    r.registerAnyMessage name c = some (if name.str ∈ r.registeredMessagesString then r else { r with
      registeredMessagesString := r.registeredMessagesString.insert name.str c }) := by
  obtain ⟨text, htext⟩ := RpcName.toString_of_valid h
  simp only [registerAnyMessage, guard, h, RpcName.isString_of_valid h, htext, bne_iff_ne, ne_eq, hs,
    not_false_eq_true, if_true, Option.bind_eq_bind, Option.bind_some, Option.pure_def]
  split_ifs <;> rfl

/-- A number is registered whether it is taken or not. -/
theorem registerAnyMessage_of_uint (hs : name.str = "") :
    r.registerAnyMessage name c = some { r with
      registeredMessagesUint := (r.resized name.uint.toNat).set name.uint.toNat (some c) } := by
  obtain ⟨text, htext⟩ := RpcName.toString_of_valid h
  simp only [registerAnyMessage, guard, h, RpcName.isString_of_valid h, RpcName.isUint_of_valid h,
    htext, hs, bne_self_eq_false, bne_iff_ne, ne_eq, RpcName.uint_ne_zero h hs, not_false_eq_true, if_true,
    Bool.false_eq_true, if_false, List.getElem?_eq_getElem (length_resized r _), Option.bind_eq_bind,
    Option.bind_some, Option.pure_def]
  split_ifs <;> rfl

/-- The removal of a string. -/
theorem removeRegisteredMessage_of_string (hs : name.str ≠ "") :
    r.removeRegisteredMessage name =
      some ({ r with registeredMessagesString := r.registeredMessagesString.erase name.str },
        r.registeredMessagesString.lookup name.str) := by
  simp [removeRegisteredMessage, RpcName.isString_of_valid h, hs]

/-- The removal of a number finds nothing to delete. -/
theorem removeRegisteredMessage_of_uint (hs : name.str = "") :
    r.removeRegisteredMessage name = some ({ r with registeredMessagesUint :=
      (r.registeredMessagesUint.set name.uint.toNat none).rdropWhile Option.isNone }, none) := by
  have hnone : ((r.registeredMessagesUint.set name.uint.toNat none)[name.uint.toNat]?).join = none := by
    rw [List.getElem?_set]
    split_ifs <;> simp_all
  simp [removeRegisteredMessage, RpcName.isString_of_valid h, RpcName.isUint_of_valid h, hs,
    RpcName.uint_ne_zero h hs, hnone]

end Cases

/-! ### The registry of received calls -/

variable {R S : Type}

/-- The registry as `OnReceiveCall` uses it. -/
def environment (r : Registry (Registered R S)) : RPCEnvironment R S where
  registeredMessagesString s := r.registeredMessagesString.lookup s
  registeredMessagesUint := r.registeredMessagesUint

/-- It finds the same converters. -/
theorem environment_find (r : Registry (Registered R S)) (name : RpcName) :
    r.environment.find name = r.find name := rfl

/-- It registers alike. -/
theorem environment_registerAnyMessage (r : Registry (Registered R S)) (h : name.valid)
    (c : MessageConverter R S) :
    (r.registerAnyMessage name ⟨{ c with name }, h⟩).map environment =
      r.environment.registerAnyMessage name c := by
  by_cases hs : name.str = ""
  · rw [registerAnyMessage_of_uint h _ hs, RPCEnvironment.registerAnyMessage, dif_pos h]
    simp only [hs, ne_eq, not_true_eq_false, if_false]
    rfl
  · rw [registerAnyMessage_of_string h _ hs, RPCEnvironment.registerAnyMessage, dif_pos h]
    simp only [ne_eq, hs, not_false_eq_true, if_true, environment, AList.lookup_isSome,
      Option.map_some]
    split_ifs
    · rfl
    · simp only [Option.some.injEq, RPCEnvironment.mk.injEq, and_true]
      funext k
      by_cases hk : k = name.str
      · subst hk
        rw [AList.lookup_insert, Function.update_self]
      · rw [AList.lookup_insert_ne hk, Function.update_of_ne hk]

end Registry

/-! ### Runs -/

/-- A valid name: a string that is not empty, or a number other than `0`.  For the last
`uint32_t` the size `uint + 1` of the vector wraps; it is left out. -/
abbrev Name := { name : RpcName // name.valid ∧ name.uint.toNat + 1 < 2 ^ 32 }

/-- What a program does to its registry. -/
inductive RegistryOp (C : Type) where
  | register (name : Name) (c : C)
  | remove (name : Name)
deriving DecidableEq

/-- A registry, with the converters that it was given to keep and those that it has deleted. -/
structure RegistryLog (C : Type) where
  registry : Registry C := {}
  registered : List C := []
  deleted : List C := []

variable {C : Type}

namespace Registry

/-- The converter under a name. -/
def lookup (r : Registry C) (name : Name) : Option C := (r.find name.1).join

variable {r r' : Registry C} {name : Name}

theorem find_eq (r : Registry C) (name : Name) : r.find name.1 = some (r.lookup name) := by
  unfold lookup
  by_cases hs : name.1.str = ""
  · rw [find_of_uint name.2.1 hs]
    rfl
  · rw [find_of_string name.2.1 hs]
    rfl

theorem lookup_of_string (hs : name.1.str ≠ "") :
    r.lookup name = r.registeredMessagesString.lookup name.1.str := by
  rw [lookup, find_of_string name.2.1 hs]
  rfl

theorem lookup_of_uint (hs : name.1.str = "") :
    r.lookup name = (r.registeredMessagesUint[name.1.uint.toNat]?).join := by
  rw [lookup, find_of_uint name.2.1 hs]
  rfl

/-- The converter is kept: its name is a number, or a string that is not taken. -/
def Keeps (r : Registry C) (name : Name) : Prop := name.1.str = "" ∨ r.lookup name = none

instance (r : Registry C) (name : Name) : Decidable (r.Keeps name) :=
  inferInstanceAs (Decidable (_ ∨ r.lookup name = none))

/-- A name is determined by its string, or by its number. -/
theorem name_eq_of_string {k : Name} (hs : name.1.str ≠ "") (hk : k.1.str = name.1.str) : k = name := by
  obtain ⟨⟨str, uint⟩, hv⟩ := name
  obtain ⟨⟨str', uint'⟩, hv'⟩ := k
  obtain rfl : str' = str := hk
  obtain rfl : uint = 0 := RpcName.uint_eq_zero hv.1 hs
  obtain rfl : uint' = 0 := RpcName.uint_eq_zero hv'.1 hs
  rfl

theorem name_eq_of_uint {k : Name} (hs : name.1.str = "") (hks : k.1.str = "")
    (hk : k.1.uint.toNat = name.1.uint.toNat) : k = name := by
  obtain ⟨⟨str, uint⟩, hv⟩ := name
  obtain ⟨⟨str', uint'⟩, hv'⟩ := k
  obtain rfl : str = "" := hs
  obtain rfl : str' = "" := hks
  obtain rfl : uint' = uint := UInt32.toNat_inj.mp hk
  rfl

/-- **What a registration changes:** the lookup of its name, if the converter is kept. -/
theorem lookup_registerAnyMessage (r : Registry C) (name : Name) (c : C) :
    ∃ r', r.registerAnyMessage name.1 c = some r' ∧
      ∀ k, r'.lookup k = if k = name ∧ r.Keeps name then some c else r.lookup k := by
  by_cases hs : name.1.str = ""
  · refine ⟨_, registerAnyMessage_of_uint name.2.1 c hs, fun k => ?_⟩
    by_cases hk : k = name
    · subst hk
      rw [if_pos ⟨rfl, .inl hs⟩, lookup_of_uint hs, List.getElem?_set_self (length_resized r _)]
      rfl
    · rw [if_neg (fun h => hk h.1)]
      by_cases hks : k.1.str = ""
      · have hne : name.1.uint.toNat ≠ k.1.uint.toNat := fun heq =>
          hk (name_eq_of_uint hs hks heq.symm)
        rw [lookup_of_uint hks, List.getElem?_set_ne hne, join_resized, lookup_of_uint hks]
      · rw [lookup_of_string hks, lookup_of_string hks]
  · refine ⟨_, registerAnyMessage_of_string name.2.1 c hs, fun k => ?_⟩
    have hkeeps : r.Keeps name ↔ name.1.str ∉ r.registeredMessagesString := by
      rw [Keeps, or_iff_right hs, lookup_of_string hs, AList.lookup_eq_none]
    by_cases hmem : name.1.str ∈ r.registeredMessagesString
    · rw [if_pos hmem, if_neg (fun h => hkeeps.mp h.2 hmem)]
    · rw [if_neg hmem]
      by_cases hk : k = name
      · subst hk
        rw [if_pos ⟨rfl, hkeeps.mpr hmem⟩, lookup_of_string hs, AList.lookup_insert]
      · rw [if_neg (fun h => hk h.1)]
        by_cases hks : k.1.str = ""
        · rw [lookup_of_uint hks, lookup_of_uint hks]
        · have hne : k.1.str ≠ name.1.str := fun heq => hk (name_eq_of_string hs heq)
          rw [lookup_of_string hks, AList.lookup_insert_ne hne, lookup_of_string hks]

/-- Popping empty slots off the end changes no lookup. -/
theorem join_rdropWhile (l : List (Option C)) (i : ℕ) :
    ((l.rdropWhile Option.isNone)[i]?).join = (l[i]?).join := by
  induction l using List.reverseRecOn with
  | nil => rfl
  | append_singleton l x ih =>
    cases x with
    | none =>
      rw [List.rdropWhile_concat_pos _ _ _ rfl, ih, Lib.getElem?_concat_eq]
      split_ifs with hi
      · rw [hi, List.getElem?_eq_none le_rfl]
        rfl
      · rfl
    | some c => rw [List.rdropWhile_concat_neg _ _ _ (by simp)]

/-- **What a removal changes:** the lookup of its name. -/
theorem lookup_removeRegisteredMessage (r : Registry C) (name : Name) :
    ∃ r', r.removeRegisteredMessage name.1 =
        some (r', if name.1.str = "" then none else r.lookup name) ∧
      ∀ k, r'.lookup k = if k = name then none else r.lookup k := by
  by_cases hs : name.1.str = ""
  · refine ⟨_, (removeRegisteredMessage_of_uint name.2.1 hs).trans (by rw [if_pos hs]), fun k => ?_⟩
    by_cases hk : k = name
    · subst hk
      rw [if_pos rfl, lookup_of_uint hs, join_rdropWhile, List.getElem?_set]
      split_ifs <;> simp_all
    · rw [if_neg hk]
      by_cases hks : k.1.str = ""
      · have hne : name.1.uint.toNat ≠ k.1.uint.toNat := fun heq =>
          hk (name_eq_of_uint hs hks heq.symm)
        rw [lookup_of_uint hks, join_rdropWhile, List.getElem?_set_ne hne, lookup_of_uint hks]
      · rw [lookup_of_string hks, lookup_of_string hks]
  · refine ⟨_, (removeRegisteredMessage_of_string name.2.1 hs).trans
      (by rw [if_neg hs, lookup_of_string hs]), fun k => ?_⟩
    by_cases hk : k = name
    · subst hk
      rw [if_pos rfl, lookup_of_string hs, AList.lookup_erase]
    · rw [if_neg hk]
      by_cases hks : k.1.str = ""
      · rw [lookup_of_uint hks, lookup_of_uint hks]
      · have hne : k.1.str ≠ name.1.str := fun heq => hk (name_eq_of_string hs heq)
        rw [lookup_of_string hks, AList.lookup_erase_ne hne, lookup_of_string hks]

end Registry

namespace RegistryLog

def step (w : RegistryLog C) : RegistryOp C → Option (RegistryLog C)
  | .register name c => do
    let registry ← w.registry.registerAnyMessage name.1 c
    return { w with
      registry
      registered := if w.registry.Keeps name then w.registered ++ [c] else w.registered }
  | .remove name => do
    let (registry, msgConv) ← w.registry.removeRegisteredMessage name.1
    return { w with registry, deleted := w.deleted ++ msgConv.toList }

def run (w : RegistryLog C) (ops : List (RegistryOp C)) : Option (RegistryLog C) := ops.foldlM step w

end RegistryLog

namespace RegistryOp

/-- What an operation means for the converter under a name: the first registration counts,
until a removal. -/
def policy (name : Name) (cur : Option C) : RegistryOp C → Option C
  | register n c => if n = name then cur.or (some c) else cur
  | remove n => if n = name then none else cur

/-- What it does to it: the last registration of a number counts. -/
def effect (name : Name) (cur : Option C) : RegistryOp C → Option C
  | register n c => if n = name then (if n.1.str = "" then some c else cur.or (some c)) else cur
  | remove n => if n = name then none else cur

end RegistryOp

/-- The converter of the first registration of the name since its last removal. -/
def current (ops : List (RegistryOp C)) (name : Name) : Option C :=
  ops.foldl (fun cur op => op.policy name cur) none

/-- What the registry has under the name. -/
def stored (ops : List (RegistryOp C)) (name : Name) : Option C :=
  ops.foldl (fun cur op => op.effect name cur) none

/-- **The registry is one partial map** during the operations: a lookup finds the first
registration since the last removal, a registration of a taken name changes no lookup, and a
removal changes that of its name only. -/
structure IsPartialMap (ops : List (RegistryOp C)) : Prop where
  lookup : ∀ pre, pre <+: ops → ∃ w : RegistryLog C, RegistryLog.run {} pre = some w ∧
    ∀ name : Name, w.registry.find name.1 = some (current pre name)
  register_taken : ∀ pre name c, pre ++ [.register name c] <+: ops → current pre name ≠ none →
    ∀ w w' : RegistryLog C, RegistryLog.run {} pre = some w → w.step (.register name c) = some w' →
      ∀ k : Name, w'.registry.find k.1 = w.registry.find k.1
  remove_other : ∀ pre name, pre ++ [.remove name] <+: ops →
    ∀ w w' : RegistryLog C, RegistryLog.run {} pre = some w → w.step (.remove name) = some w' →
      ∀ k : Name, k ≠ name → w'.registry.find k.1 = w.registry.find k.1

/-- No number is registered with another converter than the one it has. -/
def KeepsNumbers (ops : List (RegistryOp C)) : Prop :=
  ∀ pre name c post, ops = pre ++ .register name c :: post → name.1.str = "" →
    current pre name = none ∨ current pre name = some c

theorem current_concat (ops : List (RegistryOp C)) (op : RegistryOp C) (name : Name) :
    current (ops ++ [op]) name = op.policy name (current ops name) := by
  simp [current]

theorem stored_concat (ops : List (RegistryOp C)) (op : RegistryOp C) (name : Name) :
    stored (ops ++ [op]) name = op.effect name (stored ops name) := by
  simp [stored]

/-- **One operation** on the lookups. -/
theorem RegistryLog.step_lookup (w : RegistryLog C) (op : RegistryOp C) :
    ∃ w', w.step op = some w' ∧
      ∀ k, w'.registry.lookup k = op.effect k (w.registry.lookup k) := by
  cases op with
  | register name c =>
    obtain ⟨r', hreg, hlook⟩ := w.registry.lookup_registerAnyMessage name c
    refine ⟨{ w with
      registry := r'
      registered := if w.registry.Keeps name then w.registered ++ [c] else w.registered }, ?_,
      fun k => (hlook k).trans ?_⟩
    · simp only [step, hreg, Option.bind_eq_bind, Option.bind_some, Option.pure_def]
    rw [RegistryOp.effect]
    by_cases hk : name = k
    · subst hk
      by_cases hs : name.1.str = ""
      · simp [Registry.Keeps, hs]
      · cases hl : w.registry.lookup name <;> simp [Registry.Keeps, hs, hl]
    · rw [if_neg (fun h => hk h.1.symm), if_neg hk]
  | remove name =>
    obtain ⟨r', hrem, hlook⟩ := w.registry.lookup_removeRegisteredMessage name
    refine ⟨{ w with
      registry := r'
      deleted := w.deleted ++ (if name.1.str = "" then none else w.registry.lookup name).toList }, ?_,
      fun k => (hlook k).trans ?_⟩
    · simp only [step, hrem, Option.bind_eq_bind, Option.bind_some, Option.pure_def]
    · rw [RegistryOp.effect]
      exact if_congr eq_comm rfl rfl

/-- A run that goes on by one step. -/
theorem RegistryLog.run_concat {ops : List (RegistryOp C)} {op : RegistryOp C} {w w' : RegistryLog C}
    (hrun : run {} ops = some w) (hstep : w.step op = some w') : run {} (ops ++ [op]) = some w' := by
  rw [run] at hrun ⊢
  simp [List.foldlM_append, hrun, hstep]

/-- **Every sequence of operations** returns, and the lookups find what is stored. -/
theorem RegistryLog.run_lookup (ops : List (RegistryOp C)) :
    ∃ w : RegistryLog C, run {} ops = some w ∧ ∀ k, w.registry.lookup k = stored ops k := by
  induction ops using List.reverseRecOn with
  | nil =>
    refine ⟨{}, rfl, fun k => ?_⟩
    by_cases hs : k.1.str = ""
    · rw [Registry.lookup_of_uint hs]
      rfl
    · rw [Registry.lookup_of_string hs]
      rfl
  | append_singleton ops op ih =>
    obtain ⟨w, hrun, hlook⟩ := ih
    obtain ⟨w', hstep, hlook'⟩ := w.step_lookup op
    exact ⟨w', run_concat hrun hstep, fun k => by rw [hlook', hlook, stored_concat]⟩

/-- The two ways to count agree while no number is taken over. -/
theorem stored_eq_current (ops : List (RegistryOp C)) (h : KeepsNumbers ops) (name : Name) :
    stored ops name = current ops name := by
  induction ops using List.reverseRecOn with
  | nil => rfl
  | append_singleton ops op ih =>
    have hops : KeepsNumbers ops := fun pre n c post hsplit =>
      h pre n c (post ++ [op]) (by rw [hsplit]; simp)
    rw [stored_concat, current_concat, ih hops]
    cases op with
    | remove n => rfl
    | register n c =>
      rw [RegistryOp.effect, RegistryOp.policy]
      split_ifs with hn hs
      · subst hn
        rcases h ops n c [] rfl hs with hc | hc <;> simp [hc]
      · rfl
      · rfl

/-- While no number is taken over, the lookups are what the policy says. -/
theorem RegistryLog.find_of_keepsNumbers {ops : List (RegistryOp C)} (h : KeepsNumbers ops) :
    ∃ w : RegistryLog C, run {} ops = some w ∧
      ∀ name : Name, w.registry.find name.1 = some (current ops name) := by
  obtain ⟨w, hrun, hlook⟩ := run_lookup ops
  exact ⟨w, hrun, fun name => by rw [Registry.find_eq, hlook, stored_eq_current ops h]⟩

theorem KeepsNumbers.initial {ops pre : List (RegistryOp C)} (h : KeepsNumbers ops) (hp : pre <+: ops) :
    KeepsNumbers pre := by
  obtain ⟨rest, rfl⟩ := hp
  rintro pre' n c post rfl
  exact h pre' n c (post ++ rest) (by simp)

/-- **When the registry is one partial map:** as long as no number that is registered is
registered again with another converter.  A string that is taken keeps its converter, a number
does not. -/
theorem isPartialMap_iff (ops : List (RegistryOp C)) : IsPartialMap ops ↔ KeepsNumbers ops := by
  constructor
  · intro h pre name c post hsplit hs
    obtain ⟨w, hrun, hfind⟩ := h.lookup (pre ++ [.register name c]) ⟨post, by simp [hsplit]⟩
    obtain ⟨w₁, hrun₁, hlook⟩ := RegistryLog.run_lookup (pre ++ [.register name c])
    obtain rfl := Option.some.inj (hrun₁.symm.trans hrun)
    have heq : stored (pre ++ [.register name c]) name = current (pre ++ [.register name c]) name := by
      rw [← hlook, ← Option.some.injEq, ← Registry.find_eq, hfind]
    rw [stored_concat, current_concat] at heq
    simp only [RegistryOp.effect, RegistryOp.policy, hs, if_true] at heq
    cases hc : current pre name with
    | none => exact .inl rfl
    | some d =>
      rw [hc] at heq
      exact .inr heq.symm
  · intro h
    -- the lookups on both sides of one step
    have hstep : ∀ pre op, pre ++ [op] <+: ops → ∀ w w' : RegistryLog C,
        RegistryLog.run {} pre = some w → w.step op = some w' → ∀ k : Name,
          w.registry.find k.1 = some (current pre k) ∧
            w'.registry.find k.1 = some (op.policy k (current pre k)) := by
      intro pre op hp w w' hw hw' k
      obtain ⟨v, hv, hfind⟩ := RegistryLog.find_of_keepsNumbers
        (h.initial ((List.prefix_append _ _).trans hp))
      obtain ⟨v', hv', hfind'⟩ := RegistryLog.find_of_keepsNumbers (h.initial hp)
      obtain rfl := Option.some.inj (hv.symm.trans hw)
      obtain rfl := Option.some.inj (hv'.symm.trans (RegistryLog.run_concat hw hw'))
      exact ⟨hfind k, by rw [hfind', current_concat]⟩
    refine ⟨fun pre hp => RegistryLog.find_of_keepsNumbers (h.initial hp), ?_, ?_⟩
    · intro pre name c hp hne w w' hw hw' k
      obtain ⟨h₁, h₂⟩ := hstep pre _ hp w w' hw hw' k
      rw [h₁, h₂, RegistryOp.policy]
      split_ifs with hk
      · subst hk
        obtain ⟨d, hd⟩ := Option.ne_none_iff_exists'.mp hne
        rw [hd, Option.some_or]
      · rfl
    · intro pre name hp w w' hw hw' k hk
      obtain ⟨h₁, h₂⟩ := hstep pre _ hp w w' hw hw' k
      rw [h₁, h₂, RegistryOp.policy, if_neg (Ne.symm hk)]

/-- A number as a name. -/
def seven : Name := ⟨{ uint := 7 }, by decide⟩

/-- A number that is registered twice is found with the second converter. -/
theorem registerAnyMessage_taken_number : ∃ w : RegistryLog ℕ,
    RegistryLog.run {} [.register seven 1, .register seven 2] = some w ∧
      w.registry.find seven.1 = some (some 2) ∧
      current [.register seven 1, .register seven 2] seven = some 1 := by
  refine ⟨_, rfl, ?_, ?_⟩ <;> decide

end Received
end ICon7
