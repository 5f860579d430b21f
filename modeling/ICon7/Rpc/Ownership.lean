/-
# Who deletes a message converter

A converter belongs to the registry that it was registered in: the removal of its
name deletes it, or the destructor.  The removal of a number empties the slot before
it reads it and deletes nothing, and a number that is registered again loses its
first converter.  Both are leaks, and there are no others (`deletedOnce_iff`).

The proof keeps a balance: what was registered is what is held, what was deleted and
what was leaked.
-/

import ICon7.Rpc.Registry

namespace ICon7
namespace Received

open Lib

variable {C : Type}

namespace Registry

variable {r r' : Registry C} {name : Name} {c : C}

theorem filterMap_id_cons (x : Option C) (l : List (Option C)) :
    (x :: l).filterMap id = x.toList ++ l.filterMap id := by
  cases x <;> rfl

/-- Putting another pointer into a slot of a vector. -/
theorem filterMap_set {l : List (Option C)} {n : ℕ} {x : Option C} (hx : l[n]? = some x) (y : Option C) :
    ((l.set n y).filterMap id : Multiset C) + x.toList = (l.filterMap id : Multiset C) + y.toList := by
  obtain ⟨hlt, rfl⟩ := List.getElem?_eq_some_iff.mp hx
  have hset := Multiset.coe_eq_coe.mpr ((List.set_perm_cons_eraseIdx hlt y).filterMap id)
  have hget := Multiset.coe_eq_coe.mpr ((List.getElem_cons_eraseIdx_perm hlt).filterMap id)
  rw [filterMap_id_cons, ← Multiset.coe_add] at hset hget
  rw [hset, ← hget]
  abel

/-- Empty slots at the end hold nothing. -/
theorem filterMap_rdropWhile (l : List (Option C)) :
    (l.rdropWhile Option.isNone).filterMap id = l.filterMap id := by
  induction l using List.reverseRecOn with
  | nil => rfl
  | append_singleton l x ih =>
    cases x with
    | none => rw [List.rdropWhile_concat_pos _ _ _ rfl, ih]; simp
    | some c => rw [List.rdropWhile_concat_neg _ _ _ (by simp)]

theorem filterMap_resized (r : Registry C) (n : ℕ) :
    (r.resized n).filterMap id = r.registeredMessagesUint.filterMap id := by
  rw [resized, List.filterMap_append, List.filterMap_replicate_of_none rfl, List.append_nil]

/-- Erasing a key takes out its value. -/
theorem map_kerase (l : List ((_ : String) × C)) (s : String) :
    ((l.kerase s).map Sigma.snd : Multiset C) + (l.dlookup s).toList =
      (l.map Sigma.snd : Multiset C) := by
  induction l with
  | nil => rfl
  | cons p l ih =>
    obtain ⟨k, c⟩ := p
    by_cases hk : s = k
    · subst hk
      have herase : List.kerase s (⟨s, c⟩ :: l) = l := List.kerase_cons_eq rfl
      rw [herase, List.dlookup_cons_eq, List.map_cons, Option.toList_some, Multiset.coe_singleton,
        ← Multiset.cons_coe, ← Multiset.singleton_add, add_comm]
    · rw [List.kerase_cons_ne hk, List.dlookup_cons_ne _ _ hk, List.map_cons, List.map_cons,
        ← Multiset.cons_coe, ← Multiset.cons_coe, Multiset.cons_add, ih]

theorem coe_held (r : Registry C) : (r.held : Multiset C) =
    (r.registeredMessagesString.entries.map Sigma.snd : Multiset C) +
      (r.registeredMessagesUint.filterMap id : Multiset C) := rfl

/-- **A registration that is kept** adds its converter and gives up the one under its name. -/
theorem held_registerAnyMessage (hk : r.Keeps name) (h : r.registerAnyMessage name.1 c = some r') :
    (r'.held : Multiset C) + (r.lookup name).toList = r.held + {c} := by
  by_cases hs : name.1.str = ""
  · rw [registerAnyMessage_of_uint name.2.1 c hs] at h
    obtain rfl := Option.some.inj h
    obtain ⟨x, hx⟩ : ∃ x, (r.resized name.1.uint.toNat)[name.1.uint.toNat]? = some x :=
      ⟨_, List.getElem?_eq_getElem (length_resized r _)⟩
    have hlook : r.lookup name = x := by
      rw [lookup_of_uint hs, ← join_resized r name.1.uint.toNat, hx]
      rfl
    rw [coe_held, coe_held, hlook, add_assoc, filterMap_set hx, filterMap_resized, add_assoc]
    rfl
  · have hlook : r.lookup name = none := hk.resolve_left hs
    have hmem : name.1.str ∉ r.registeredMessagesString := by
      rw [← AList.lookup_eq_none, ← lookup_of_string hs, hlook]
    rw [registerAnyMessage_of_string name.2.1 c hs, if_neg hmem] at h
    obtain rfl := Option.some.inj h
    rw [coe_held, coe_held, hlook, AList.entries_insert_of_notMem hmem, List.map_cons,
      ← Multiset.cons_coe, Multiset.cons_add, Option.toList_none, Multiset.coe_nil, add_zero,
      ← Multiset.singleton_add, add_comm]

/-- **A registration that is refused** changes nothing. -/
theorem registerAnyMessage_of_not_keeps (hk : ¬r.Keeps name) : r.registerAnyMessage name.1 c = some r := by
  obtain ⟨hs, hlook⟩ := not_or.mp hk
  rw [lookup_of_string hs, AList.lookup_eq_none, not_not] at hlook
  rw [registerAnyMessage_of_string name.2.1 c hs, if_pos hlook]

/-- **A removal** gives up the converter under its name. -/
theorem held_removeRegisteredMessage {msgConv : Option C}
    (h : r.removeRegisteredMessage name.1 = some (r', msgConv)) :
    (r'.held : Multiset C) + (r.lookup name).toList = r.held := by
  by_cases hs : name.1.str = ""
  · rw [removeRegisteredMessage_of_uint name.2.1 hs] at h
    obtain ⟨rfl, -⟩ := Prod.mk.inj (Option.some.inj h)
    rw [coe_held, coe_held, filterMap_rdropWhile, add_assoc, lookup_of_uint hs]
    cases hx : r.registeredMessagesUint[name.1.uint.toNat]? with
    | none =>
      rw [List.set_eq_of_length_le (List.getElem?_eq_none_iff.mp hx), Option.join_none,
        Option.toList_none, Multiset.coe_nil, add_zero]
    | some x =>
      have := filterMap_set hx none
      rw [Option.toList_none, Multiset.coe_nil, add_zero] at this
      rw [Option.join_some, this]
  · rw [removeRegisteredMessage_of_string name.2.1 hs] at h
    obtain ⟨rfl, -⟩ := Prod.mk.inj (Option.some.inj h)
    rw [coe_held, coe_held, lookup_of_string hs, add_right_comm]
    exact congrArg (· + _) (map_kerase _ _)

end Registry

/-- The name that an operation is about. -/
def RegistryOp.name : RegistryOp C → Name
  | register name _ => name
  | remove name => name

/-- The converters that are given to `RegisterAnyMessage`. -/
def converters (ops : List (RegistryOp C)) : List C :=
  ops.filterMap fun
    | .register _ c => some c
    | .remove _ => none

namespace RegistryLog

variable {w w' : RegistryLog C} {op : RegistryOp C}

/-- What has been deleted when the destructor is through. -/
def destroyed (w : RegistryLog C) : List C := w.deleted ++ w.registry.held

/-- The operation is not about a number that is registered. -/
def Clean (w : RegistryLog C) (op : RegistryOp C) : Prop :=
  op.name.1.str = "" → w.registry.lookup op.name = none

/-- The converter that the operation leaks. -/
def leak (w : RegistryLog C) (op : RegistryOp C) : List C :=
  if op.name.1.str = "" then (w.registry.lookup op.name).toList else []

theorem leak_eq_nil_iff (w : RegistryLog C) (op : RegistryOp C) : w.leak op = [] ↔ w.Clean op := by
  unfold leak Clean
  by_cases hs : op.name.1.str = ""
  · simp [hs]
  · simp [hs]

/-- **The balance of one operation.** -/
theorem step_balance (h : w.step op = some w') :
    (w'.registered : Multiset C) + w.destroyed = w.registered + w'.destroyed + w.leak op := by
  simp only [destroyed, ← Multiset.coe_add]
  cases op with
  | register name c =>
    simp only [step, Option.bind_eq_bind, Option.bind_eq_some_iff, Option.pure_def,
      Option.some.injEq] at h
    obtain ⟨r', hreg, rfl⟩ := h
    by_cases hk : w.registry.Keeps name
    · have hheld := Registry.held_registerAnyMessage hk hreg
      have hleak : w.leak (.register name c) = (w.registry.lookup name).toList := by
        unfold leak RegistryOp.name
        split_ifs with hs
        · rfl
        · rw [hk.resolve_left hs]
          rfl
      rw [if_pos hk, hleak, ← Multiset.coe_add, Multiset.coe_singleton]
      calc (w.registered : Multiset C) + {c} + (w.deleted + w.registry.held)
          = w.registered + w.deleted + (w.registry.held + {c}) := by abel
        _ = w.registered + w.deleted + (r'.held + (w.registry.lookup name).toList) := by rw [hheld]
        _ = w.registered + (w.deleted + r'.held) + (w.registry.lookup name).toList := by abel
    · have hs : name.1.str ≠ "" := fun hs => hk (.inl hs)
      rw [Registry.registerAnyMessage_of_not_keeps hk] at hreg
      obtain rfl := Option.some.inj hreg
      rw [if_neg hk, leak, RegistryOp.name, if_neg hs, Multiset.coe_nil, add_zero]
  | remove name =>
    simp only [step, Option.bind_eq_bind, Option.bind_eq_some_iff, Option.pure_def,
      Option.some.injEq, Prod.exists] at h
    obtain ⟨r', msgConv, hrem, rfl⟩ := h
    have hheld := Registry.held_removeRegisteredMessage hrem
    obtain ⟨r₁, hrem₁, -⟩ := w.registry.lookup_removeRegisteredMessage name
    obtain ⟨rfl, rfl⟩ := Prod.mk.inj (Option.some.inj (hrem₁.symm.trans hrem))
    rw [← hheld, leak, RegistryOp.name, ← Multiset.coe_add]
    split_ifs with hs
    · rw [Option.toList_none, Multiset.coe_nil]
      abel
    · rw [Multiset.coe_nil]
      abel

/-- **The balance of a run:** nothing is leaked exactly if every operation is clean. -/
theorem run_balance (ops : List (RegistryOp C)) (h : w.run ops = some w') :
    ∃ leaked : Multiset C,
      (w'.registered : Multiset C) + w.destroyed = w.registered + w'.destroyed + leaked ∧
        (leaked = 0 ↔ Along step Clean w ops) := by
  induction ops generalizing w with
  | nil =>
    obtain rfl := Option.some.inj h
    exact ⟨0, by abel, by simp [Along]⟩
  | cons op ops ih =>
    obtain ⟨w₁, hstep, hrun⟩ := foldlM_cons_eq_some.mp h
    have hone := step_balance hstep
    obtain ⟨leaked, hrest, hiff⟩ := ih hrun
    refine ⟨w.leak op + leaked, ?_, ?_⟩
    · have := congrArg₂ (· + ·) hone hrest
      refine add_right_cancel (b := (w₁.registered : Multiset C) + w₁.destroyed) ?_
      calc (w'.registered : Multiset C) + w.destroyed + (w₁.registered + w₁.destroyed)
          = w₁.registered + w.destroyed + (w'.registered + w₁.destroyed) := by abel
        _ = w.registered + w₁.destroyed + w.leak op + (w₁.registered + w'.destroyed + leaked) := this
        _ = w.registered + w'.destroyed + (w.leak op + leaked) + (w₁.registered + w₁.destroyed) := by
            abel
    · rw [add_eq_zero, hiff, Multiset.coe_eq_zero, leak_eq_nil_iff, Along]
      exact and_congr_right fun _ => ⟨fun h s' hs' =>
        Option.some.inj (hstep.symm.trans (Option.mem_def.mp hs')) ▸ h, fun h => h w₁ hstep⟩

/-- What is registered is among what was given, in its order. -/
theorem registered_sublist (ops : List (RegistryOp C)) (h : w.run ops = some w') :
    w'.registered.Sublist (w.registered ++ converters ops) := by
  induction ops generalizing w with
  | nil =>
    obtain rfl := Option.some.inj h
    simp [converters]
  | cons op ops ih =>
    obtain ⟨w₁, hstep, hrun⟩ := foldlM_cons_eq_some.mp h
    refine (ih hrun).trans ?_
    cases op with
    | register name c =>
      simp only [step, Option.bind_eq_bind, Option.bind_eq_some_iff, Option.pure_def,
        Option.some.injEq] at hstep
      obtain ⟨r', -, rfl⟩ := hstep
      show List.Sublist _ (w.registered ++ c :: converters ops)
      split_ifs
      · simp
      · exact List.Sublist.append_left (List.sublist_cons_self _ _) _
    | remove name =>
      simp only [step, Option.bind_eq_bind, Option.bind_eq_some_iff, Option.pure_def,
        Option.some.injEq, Prod.exists] at hstep
      obtain ⟨r', msgConv, -, rfl⟩ := hstep
      exact List.Sublist.refl _

/-- What a removal deletes: the converter of a string, and nothing for a number. -/
theorem step_remove {name : Name} (h : w.step (.remove name) = some w') :
    w'.deleted = w.deleted ++ (if name.1.str = "" then none else w.registry.lookup name).toList := by
  obtain ⟨r', hrem, -⟩ := w.registry.lookup_removeRegisteredMessage name
  simp only [step, hrem, Option.bind_eq_bind, Option.bind_some, Option.pure_def,
    Option.some.injEq] at h
  rw [← h]

end RegistryLog

/-- **Every converter is deleted exactly once:** by the removal of its name, or by the
destructor. -/
structure DeletedOnce [DecidableEq C] (ops : List (RegistryOp C)) : Prop where
  count : ∃ w : RegistryLog C, RegistryLog.run {} ops = some w ∧
    ∀ c, w.destroyed.count c = if c ∈ w.registered then 1 else 0
  removal : ∀ pre name, pre ++ [.remove name] <+: ops → ∀ w w' : RegistryLog C,
    RegistryLog.run {} pre = some w → w.step (.remove name) = some w' →
      w'.deleted = w.deleted ++ (w.registry.lookup name).toList

/-- **When every converter is deleted exactly once:** as long as no number is registered or
removed while it is registered. -/
theorem deletedOnce_iff [DecidableEq C] (ops : List (RegistryOp C)) (hnd : (converters ops).Nodup) :
    DeletedOnce ops ↔ Along RegistryLog.step RegistryLog.Clean {} ops := by
  obtain ⟨w, hrun, -⟩ := RegistryLog.run_lookup ops
  obtain ⟨leaked, hbal, hiff⟩ := RegistryLog.run_balance ops hrun
  have hreg : w.registered.Nodup := by
    have := RegistryLog.registered_sublist ops hrun
    exact this.nodup (by simpa using hnd)
  have hif : ∀ c, w.registered.count c = if c ∈ w.registered then 1 else 0 := by
    intro c
    split_ifs with hc
    · exact List.count_eq_one_of_mem hreg hc
    · exact List.count_eq_zero_of_not_mem hc
  have hcount : ∀ c, w.registered.count c = w.destroyed.count c + leaked.count c := by
    intro c
    have := congrArg (Multiset.count c) hbal
    simpa [RegistryLog.destroyed, Registry.held] using this
  rw [← hiff]
  constructor
  · rintro ⟨⟨v, hv, hone⟩, -⟩
    obtain rfl := Option.some.inj (hrun.symm.trans hv)
    refine Multiset.eq_zero_of_forall_notMem fun c hc => ?_
    have hpos := Multiset.one_le_count_iff_mem.mpr hc
    have hsum := hcount c
    rw [hone, hif] at hsum
    omega
  · intro hzero
    refine ⟨⟨w, hrun, fun c => ?_⟩, fun pre name hp u u' hu hu' => ?_⟩
    · rw [← hif, hcount, hzero]
      simp
    · rw [RegistryLog.step_remove hu']
      obtain ⟨post, rfl⟩ := hp
      have hclean : u.Clean (.remove name) := by
        have hall := hiff.mp hzero
        rw [List.append_assoc] at hall
        exact hall.meets_of_split hu
      split_ifs with hs
      · rw [show u.registry.lookup name = none from hclean hs]
      · rfl

/-- A string and a number, the string removed. -/
def oneEach : List (RegistryOp ℕ) :=
  [.register ⟨{ str := "f" }, by decide⟩ 1, .register seven 2, .remove ⟨{ str := "f" }, by decide⟩]

/-- `deletedOnce_iff` on these operations. -/
theorem deletedOnce_iff_oneEach : DeletedOnce oneEach := by
  refine (deletedOnce_iff oneEach (by decide)).mpr ?_
  simp only [oneEach, Along, RegistryLog.Clean, RegistryOp.name]
  decide

/-- A number that is removed: nothing is deleted, then or by the destructor. -/
theorem removeRegisteredMessage_number_leaks : ∃ w : RegistryLog ℕ,
    RegistryLog.run {} [.register seven 1, .remove seven] = some w ∧ w.registered = [1] ∧
      w.destroyed = [] := by
  refine ⟨_, rfl, ?_, ?_⟩ <;> decide

end Received
end ICon7
