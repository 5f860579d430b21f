/-
# Searching for a free value

A generator steps through the values of a type and skips those that are taken.  When the steps do not
come back to a value before all that are taken have been seen, the search ends with a free one
(`firstFree_of_card_lt`): otherwise every value that was tried would be taken, and there are more of
the former than of the latter.
-/

import Mathlib.Tactic

namespace ICon7
namespace Lib

variable {α : Type} (next : α → α) (taken : α → Bool)

/-- The first value after `x` that is not taken, at most `fuel` steps away. -/
def firstFree : ℕ → α → Option α
  | 0, _ => none
  | fuel + 1, x => if taken (next x) then firstFree fuel (next x) else some (next x)

variable {next taken}

theorem not_taken_of_firstFree {fuel : ℕ} {x y : α} (h : firstFree next taken fuel x = some y) :
    taken y = false := by
  induction fuel generalizing x with
  | zero => cases h
  | succ fuel ih =>
    rw [firstFree] at h
    split_ifs at h with htaken
    · exact ih h
    · obtain rfl := Option.some.inj h
      exact Bool.eq_false_of_not_eq_true htaken

/-- A search that fails has met values that are taken only. -/
theorem taken_of_firstFree_eq_none {fuel : ℕ} {x : α} (h : firstFree next taken fuel x = none) :
    ∀ i < fuel, taken (next^[i + 1] x) = true := by
  induction fuel generalizing x with
  | zero => exact fun i hi => absurd hi (Nat.not_lt_zero i)
  | succ fuel ih =>
    rw [firstFree] at h
    split_ifs at h with htaken
    intro i hi
    cases i with
    | zero => exact htaken
    | succ i => exact ih h i (by omega)

/-- **The search ends** if it has more steps than there are values that are taken, all of them at
different values. -/
theorem firstFree_of_card_lt {S : Finset α} {fuel : ℕ} {x : α} (hS : ∀ y, taken y = true → y ∈ S)
    (hinj : ∀ i j, i < fuel → j < fuel → next^[i + 1] x = next^[j + 1] x → i = j)
    (hcard : S.card < fuel) : ∃ y, firstFree next taken fuel x = some y ∧ taken y = false := by
  cases hy : firstFree next taken fuel x with
  | some y => exact ⟨y, rfl, not_taken_of_firstFree hy⟩
  | none =>
    have htaken := taken_of_firstFree_eq_none hy
    have hle : (Finset.range fuel).card ≤ S.card := by
      refine Finset.card_le_card_of_injOn (fun i => next^[i + 1] x) (fun i hi => ?_) fun i hi j hj => ?_
      · exact hS _ (htaken i (Finset.mem_range.1 hi))
      · exact hinj i j (Finset.mem_range.1 hi) (Finset.mem_range.1 hj)
    rw [Finset.card_range] at hle
    omega

end Lib
end ICon7
