/-
# Removing from a dense list by swapping with the last

`swapRemove l i` overwrites the element at `i` with the last one and drops the
last.  It keeps the other elements, up to order (`swapRemove_perm`), and every
place but the hole (`getElem?_swapRemove`).

A list with a table of the positions of its elements (`Positions`) is a set with
constant-time removal: the table is repaired by writing two entries
(`Positions.swapRemove`).
-/

import Mathlib.Tactic

namespace ICon7
namespace Lib

variable {α β : Type*}

/-- The last element moves into the hole at `i`. -/
def swapRemove (l : List α) (i : ℕ) : List α :=
  match l.getLast? with
  | none => l
  | some a => (l.set i a).dropLast

@[simp] theorem swapRemove_concat (l : List α) (a : α) (i : ℕ) :
    swapRemove (l ++ [a]) i = l.set i a := by
  simp only [swapRemove, List.getLast?_concat]
  rcases lt_or_ge i l.length with h | h
  · rw [List.set_append_left _ _ h, List.dropLast_concat]
  · rcases h.eq_or_lt with rfl | h
    · rw [List.set_append_right _ _ le_rfl, List.set_eq_of_length_le le_rfl]
      simp
    · rw [List.set_eq_of_length_le (by simp; omega), List.dropLast_concat,
        List.set_eq_of_length_le (by omega)]

/-- **Swapping with the last removes exactly the element at `i`.** -/
theorem swapRemove_perm {l : List α} {i : ℕ} (h : i < l.length) :
    (swapRemove l i).Perm (l.eraseIdx i) := by
  rcases List.eq_nil_or_concat' l with rfl | ⟨l, a, rfl⟩
  · simp at h
  · rw [swapRemove_concat]
    rcases lt_or_ge i l.length with hi | hi
    · rw [List.eraseIdx_append_of_lt_length hi]
      exact (List.set_perm_cons_eraseIdx hi a).trans (List.perm_append_singleton a _).symm
    · obtain rfl : i = l.length := by simp at h; omega
      rw [List.set_eq_of_length_le le_rfl, List.eraseIdx_append_of_length_le le_rfl]
      simp

@[simp] theorem length_swapRemove (l : List α) (i : ℕ) :
    (swapRemove l i).length = l.length - 1 := by
  rcases List.eq_nil_or_concat' l with rfl | ⟨l, a, rfl⟩
  · rfl
  · simp

/-- Below the new length, every place but the hole keeps its element. -/
theorem getElem?_swapRemove (l : List α) (i j : ℕ) (hj : j + 1 < l.length) :
    (swapRemove l i)[j]? = if i = j then l.getLast? else l[j]? := by
  rcases List.eq_nil_or_concat' l with rfl | ⟨l, a, rfl⟩
  · simp at hj
  · have hj' : j < l.length := by simpa using hj
    rw [swapRemove_concat, List.getElem?_set, List.getLast?_concat, List.getElem?_append_left hj']
    split_ifs <;> first | rfl | omega

theorem map_swapRemove (f : α → β) (l : List α) (i : ℕ) :
    (swapRemove l i).map f = swapRemove (l.map f) i := by
  rcases List.eq_nil_or_concat' l with rfl | ⟨l, a, rfl⟩
  · rfl
  · simp

/-- In a list without repetitions the element of the hole is gone and no other is. -/
theorem mem_swapRemove {l : List α} (hnd : l.Nodup) {i : ℕ} {a : α} (h : l[i]? = some a) (b : α) :
    b ∈ swapRemove l i ↔ b ∈ l ∧ b ≠ a := by
  obtain ⟨hi, rfl⟩ := List.getElem?_eq_some_iff.mp h
  have hperm := List.getElem_cons_eraseIdx_perm hi
  obtain ⟨hnot, -⟩ := List.nodup_cons.mp (hperm.nodup_iff.mpr hnd)
  rw [(swapRemove_perm hi).mem_iff, ← hperm.mem_iff, List.mem_cons]
  constructor
  · rintro hb
    exact ⟨.inr hb, by rintro rfl; exact hnot hb⟩
  · rintro ⟨rfl | hb, hne⟩
    · exact absurd rfl hne
    · exact hb

theorem nodup_swapRemove {l : List α} (hnd : l.Nodup) {i : ℕ} (h : i < l.length) :
    (swapRemove l i).Nodup :=
  (swapRemove_perm h).nodup_iff.mpr (hnd.sublist (List.eraseIdx_sublist l i))

/-- What is in front of the hole stays. -/
theorem take_swapRemove {l : List α} {i : ℕ} (h : i < l.length) :
    (swapRemove l i).take i = l.take i := by
  rcases List.eq_nil_or_concat' l with rfl | ⟨l, a, rfl⟩
  · simp at h
  · rw [swapRemove_concat, List.take_set_of_le le_rfl, List.take_append_of_le_length (by simp at h; omega)]

/-- What is behind the hole stays, up to order. -/
theorem drop_swapRemove_perm {l : List α} {i : ℕ} (h : i < l.length) :
    ((swapRemove l i).drop i).Perm (l.drop (i + 1)) := by
  rcases List.eq_nil_or_concat' l with rfl | ⟨l, a, rfl⟩
  · simp at h
  · rw [swapRemove_concat]
    rcases lt_or_ge i l.length with hi | hi
    · rw [List.drop_eq_getElem_cons (by simpa using hi), List.getElem_set_self,
        List.drop_set_of_lt (Nat.lt_succ_self _), List.drop_append_of_le_length hi]
      exact (List.perm_append_singleton a _).symm
    · rw [List.drop_eq_nil_of_le (by simpa using hi), List.drop_eq_nil_of_le (by simpa using hi)]

/-- Appending one element, pointwise. -/
theorem getElem?_concat_eq (l : List α) (a : α) (i : ℕ) :
    (l ++ [a])[i]? = if i = l.length then some a else l[i]? := by
  rw [List.getElem?_append]
  split_ifs with h1 h2 h2
  · omega
  · rfl
  · simp [h2]
  · rw [List.getElem?_eq_none (by simp; omega), List.getElem?_eq_none (by omega)]

/-- The table `pos` holds the position of every element of the list, and nothing else. -/
def Positions (l : List α) (pos : α → Option ℕ) : Prop := ∀ a i, pos a = some i ↔ l[i]? = some a

namespace Positions

variable {l : List α} {pos : α → Option ℕ} {a b : α} {i : ℕ}

/-- A list with a table of positions has no repetitions. -/
theorem nodup (h : Positions l pos) : l.Nodup := by
  rw [List.nodup_iff_injective_get]
  intro i j hij
  have hi := (h (l.get i) i).mpr (List.getElem?_eq_getElem i.2)
  have hj := (h (l.get j) j).mpr (List.getElem?_eq_getElem j.2)
  rw [hij, hj] at hi
  exact Fin.ext (Option.some.inj hi.symm)

/-- The elements are those with a position. -/
theorem mem_iff (h : Positions l pos) : a ∈ l ↔ ∃ i, pos a = some i := by
  simp only [List.mem_iff_getElem?, h a]

/-- The elements of the list that is left are those other than the removed one. -/
theorem mem_swapRemove (h : Positions l pos) (ha : pos a = some i) (b : α) :
    b ∈ Lib.swapRemove l i ↔ b ∈ l ∧ b ≠ a :=
  Lib.mem_swapRemove h.nodup ((h a i).mp ha) b

variable [DecidableEq α]

/-- Appending a new element. -/
theorem concat (h : Positions l pos) (ha : pos a = none) :
    Positions (l ++ [a]) (Function.update pos a (some l.length)) := by
  intro b i
  rcases eq_or_ne b a with rfl | hne
  · rw [Function.update_self, Option.some.injEq]
    constructor
    · rintro rfl
      simp
    · intro hi
      rw [getElem?_concat_eq] at hi
      split_ifs at hi with heq
      · exact heq.symm
      · rw [← h, ha] at hi
        simp at hi
  · rw [Function.update_of_ne hne, h, getElem?_concat_eq]
    split_ifs with heq
    · simp [heq, hne.symm]
    · rfl

/-- **Removing an element:** the last one gets its position. -/
theorem swapRemove (h : Positions l pos) (ha : pos a = some i) (hb : l.getLast? = some b) :
    Positions (Lib.swapRemove l i) (Function.update (Function.update pos b (some i)) a none) := by
  have hi := (h a i).mp ha
  obtain ⟨hlt, hget⟩ := List.getElem?_eq_some_iff.mp hi
  have hlast : pos b = some (l.length - 1) := by rw [h, ← List.getLast?_eq_getElem?, hb]
  intro c j
  rcases lt_or_ge (j + 1) l.length with hj | hj
  · rw [getElem?_swapRemove l i j hj, hb]
    rcases eq_or_ne c a with rfl | hca
    · rw [Function.update_self]
      split_ifs with hij
      · subst hij
        refine ⟨fun hc => by simp at hc, fun hc => ?_⟩
        obtain rfl := Option.some.inj hc
        rw [ha, Option.some.injEq] at hlast
        omega
      · rw [← h, ha]
        simp [hij]
    · rw [Function.update_of_ne hca]
      rcases eq_or_ne c b with rfl | hcb
      · rw [Function.update_self]
        split_ifs with hij
        · simp [hij]
        · rw [← h, hlast]
          simp only [Option.some.injEq, hij, false_iff]
          omega
      · rw [Function.update_of_ne hcb]
        split_ifs with hij
        · subst hij
          rw [h, hi]
          simp [hca.symm, hcb.symm]
        · exact h c j
  · rw [List.getElem?_eq_none (by simp; omega)]
    rcases eq_or_ne c a with rfl | hca
    · simp
    · rw [Function.update_of_ne hca]
      rcases eq_or_ne c b with rfl | hcb
      · have hne : c ≠ a := hca
        have : i ≠ l.length - 1 := by
          rintro rfl
          rw [← List.getLast?_eq_getElem?, hb] at hi
          exact hne (Option.some.inj hi)
        simp only [Function.update_self, Option.some.injEq, reduceCtorEq, iff_false]
        omega
      · rw [Function.update_of_ne hcb, h]
        simp only [reduceCtorEq, iff_false]
        intro hc
        obtain ⟨hjl, -⟩ := List.getElem?_eq_some_iff.mp hc
        obtain rfl : j = l.length - 1 := by omega
        rw [← List.getLast?_eq_getElem?, hb] at hc
        exact hcb (Option.some.inj hc).symm

end Positions

end Lib
end ICon7
