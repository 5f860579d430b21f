/-
# What the objects of a list hold together

Objects that own resources: a relation says what one object holds, and a list of objects holds
the sum.  When one object is replaced, its holding can be taken out of the sum and another one put
in its place (`Holdings.replace`), so moving a resource from one object to another keeps the sum, and
nothing has to be said about the other objects.
-/

import Mathlib.Tactic

namespace ICon7
namespace Lib

variable {α M : Type*} [AddCommMonoid M] {R : α → M → Prop} {l : List α} {a : α} {m p : M}

/-- **One object is replaced,** where what an object holds is a function of it. -/
theorem sum_map_set (f : α → M) {l : List α} {i : ℕ} {a : α} (hi : l[i]? = some a) (b : α) :
    ((l.set i b).map f).sum + f a = (l.map f).sum + f b := by
  induction l generalizing i with
  | nil => simp at hi
  | cons c l ih =>
    cases i with
    | zero =>
      obtain rfl : c = a := by simpa using hi
      simp only [List.set_cons_zero, List.map_cons, List.sum_cons]
      abel
    | succ i =>
      have hl := ih (by simpa using hi)
      simp only [List.set_cons_succ, List.map_cons, List.sum_cons, add_assoc, hl]

/-- The objects hold the sum of what each of them holds. -/
def Holdings (R : α → M → Prop) (l : List α) (m : M) : Prop :=
  ∃ ps, List.Forall₂ R l ps ∧ ps.sum = m

namespace Holdings

theorem nil : Holdings R [] 0 := ⟨[], .nil, rfl⟩

theorem cons_iff : Holdings R (a :: l) m ↔ ∃ p rest, R a p ∧ Holdings R l rest ∧ m = p + rest := by
  constructor
  · rintro ⟨ps, hall, rfl⟩
    cases hall with
    | cons hhead htail => exact ⟨_, _, hhead, ⟨_, htail, rfl⟩, List.sum_cons⟩
  · rintro ⟨p, rest, hhead, ⟨ps, hall, rfl⟩, rfl⟩
    exact ⟨p :: ps, .cons hhead hall, List.sum_cons⟩

/-- A new object adds what it holds. -/
theorem append_singleton (h : Holdings R l m) (ha : R a p) : Holdings R (l ++ [a]) (m + p) := by
  obtain ⟨ps, hall, rfl⟩ := h
  exact ⟨ps ++ [p], List.rel_append hall (.cons ha .nil), by simp⟩

/-- **One object is replaced**: what it held is taken out of the sum, and what the new one holds is
put in. -/
theorem replace (h : Holdings R l m) {i : ℕ} (hi : l[i]? = some a) :
    ∃ p rest, R a p ∧ m = p + rest ∧ ∀ a' p', R a' p' → Holdings R (l.set i a') (p' + rest) := by
  induction l generalizing i m with
  | nil => simp at hi
  | cons b l ih =>
    obtain ⟨q, rest, hb, hl, rfl⟩ := cons_iff.1 h
    cases i with
    | zero =>
      obtain rfl : b = a := by simpa using hi
      exact ⟨q, rest, hb, rfl, fun a' p' ha' => cons_iff.2 ⟨p', rest, ha', hl, rfl⟩⟩
    | succ i =>
      obtain ⟨p, rest, ha, rfl, hset⟩ := ih hl hi
      refine ⟨p, q + rest, ha, by abel, fun a' p' ha' => ?_⟩
      exact cons_iff.2 ⟨q, p' + rest, hb, hset a' p' ha', by abel⟩

/-- Objects of which none holds anything hold nothing. -/
theorem eq_zero (h : Holdings R l m) (hzero : ∀ a ∈ l, ∀ p, R a p → p = 0) : m = 0 := by
  induction l generalizing m with
  | nil =>
    obtain ⟨ps, hall, rfl⟩ := h
    cases hall
    rfl
  | cons b l ih =>
    obtain ⟨q, rest, hb, hl, rfl⟩ := cons_iff.1 h
    rw [hzero b List.mem_cons_self q hb, ih hl fun a ha => hzero a (List.mem_cons_of_mem _ ha), add_zero]

end Holdings
end Lib
end ICon7
