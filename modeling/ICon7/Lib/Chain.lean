/-
# Singly linked chains of indices

A table of records that hold the index of their successor, `0` ending the
chain.  `Path nxt i l` says that following `nxt` from `i` visits the indices
`l` and then ends.  A path is determined by where it starts (`Path.unique`),
so that it visits nothing twice (`Path.nodup`).

All edits of a chain are one: what comes after some first part `l₁` is replaced
by another path, by writing one link, the head of the chain when `l₁` is empty
and the link of its last index otherwise (`Path.relink`).  Unlinking an index
and giving an index another number are both of this kind.
-/

import Mathlib.Tactic

namespace ICon7
namespace Lib

/-- Following `nxt` from an index visits exactly the indices of the list. -/
def Path (nxt : ℕ → ℕ) : ℕ → List ℕ → Prop
  | i, [] => i = 0
  | i, a :: l => i = a ∧ a ≠ 0 ∧ Path nxt (nxt a) l

namespace Path

variable {nxt nxt' : ℕ → ℕ} {i j a : ℕ} {l l' l₁ l₂ : List ℕ}

/-- The only path from `0` is empty. -/
theorem eq_nil (h : Path nxt 0 l) : l = [] := by
  cases l with
  | nil => rfl
  | cons a l =>
    obtain ⟨rfl, h0, -⟩ := h
    exact absurd rfl h0

/-- A path that starts somewhere starts with that index. -/
theorem eq_cons (h : Path nxt i l) (hi : i ≠ 0) : ∃ l', l = i :: l' ∧ Path nxt (nxt i) l' := by
  cases l with
  | nil => exact absurd h hi
  | cons a l =>
    obtain ⟨rfl, -, h⟩ := h
    exact ⟨l, rfl, h⟩

/-- A path is determined by its first index. -/
theorem unique (h : Path nxt i l) (h' : Path nxt i l') : l = l' := by
  induction l generalizing i l' with
  | nil =>
    obtain rfl : i = 0 := h
    exact h'.eq_nil.symm
  | cons a l ih =>
    obtain ⟨rfl, h0, h⟩ := h
    obtain ⟨t, rfl, ht⟩ := h'.eq_cons h0
    rw [ih h ht]

/-- The part of a path from one of its indices on is the path of that index. -/
theorem of_append (h : Path nxt i (l₁ ++ a :: l₂)) : Path nxt a (a :: l₂) := by
  induction l₁ generalizing i with
  | nil =>
    obtain ⟨rfl, h0, h⟩ := h
    exact ⟨rfl, h0, h⟩
  | cons b l₁ ih => exact ih h.2.2

/-- **Chains are acyclic:** a path that ends visits nothing twice. -/
theorem nodup (h : Path nxt i l) : l.Nodup := by
  induction l generalizing i with
  | nil => exact List.nodup_nil
  | cons a l ih =>
    obtain ⟨rfl, h0, h⟩ := h
    refine List.nodup_cons.mpr ⟨fun hmem => ?_, ih h⟩
    obtain ⟨l₁, l₂, rfl⟩ := List.append_of_mem hmem
    obtain ⟨-, -, h'⟩ := h.of_append
    have heq := congrArg List.length (h.unique h')
    simp only [List.length_append, List.length_cons] at heq
    omega

/-- A path depends only on the links of its indices. -/
theorem congr (h : Path nxt i l) (hag : ∀ a ∈ l, nxt' a = nxt a) : Path nxt' i l := by
  induction l generalizing i with
  | nil => exact h
  | cons a l ih =>
    obtain ⟨rfl, h0, h⟩ := h
    refine ⟨rfl, h0, ?_⟩
    rw [hag _ List.mem_cons_self]
    exact ih h fun b hb => hag b (List.mem_cons_of_mem _ hb)

/-- The index whose link leads to what follows `l₁`; `0` stands for the head of the chain. -/
def prevOf (l₁ : List ℕ) : ℕ := l₁.getLastD 0

@[simp] theorem prevOf_nil : prevOf [] = 0 := rfl

@[simp] theorem prevOf_concat : prevOf (l₁ ++ [a]) = a := by simp [prevOf]

/-- The predecessor is on the path, or it is the head. -/
theorem prevOf_mem (l₁ : List ℕ) : l₁ = [] ∨ prevOf l₁ ∈ l₁ := by
  rcases List.eq_nil_or_concat' l₁ with rfl | ⟨l₀, p, rfl⟩
  · exact .inl rfl
  · exact .inr (by simp)

/-- No index of a path is `0`. -/
theorem ne_zero (h : Path nxt i l) (ha : a ∈ l) : a ≠ 0 := by
  obtain ⟨l₁, l₂, rfl⟩ := List.append_of_mem ha
  exact h.of_append.2.1

/-- On a path, only the head has no predecessor. -/
theorem prevOf_eq_zero (h : Path nxt i (l₁ ++ l₂)) : prevOf l₁ = 0 ↔ l₁ = [] := by
  constructor
  · rintro h0
    rcases prevOf_mem l₁ with hnil | hmem
    · exact hnil
    · exact absurd h0 (h.ne_zero (List.mem_append_left _ hmem))
  · rintro rfl
    rfl

/-- The predecessor is not among what follows. -/
theorem ne_prevOf (h : Path nxt i (l₁ ++ l₂)) (ha : a ∈ l₂) : a ≠ prevOf l₁ := by
  rintro rfl
  rcases prevOf_mem l₁ with rfl | hmem
  · exact h.ne_zero (by simpa using ha) rfl
  · exact (List.nodup_append.mp h.nodup).2.2 _ hmem _ ha rfl

/-- The other indices of a path. -/
theorem mem_append_iff (h : Path nxt i (l₁ ++ j :: l₂)) : a ∈ l₁ ++ l₂ ↔ a ≠ j ∧ a ∈ l₁ ++ j :: l₂ := by
  have hnd := (List.nodup_cons.mp (List.nodup_middle.mp h.nodup)).1
  rw [List.mem_append, List.mem_append, List.mem_cons]
  constructor
  · intro ha
    refine ⟨?_, by tauto⟩
    rintro rfl
    exact hnd (List.mem_append.mpr ha)
  · tauto

/-- **Writing one link replaces the end of a chain.**  The new end is a path from
`t` under the links as they are after the write. -/
theorem relink (h : Path nxt i (l₁ ++ l₂)) {t : ℕ} (ht : Path nxt' t l')
    (hag : ∀ a ∈ l₁, a ≠ prevOf l₁ → nxt' a = nxt a) (hp : l₁ ≠ [] → nxt' (prevOf l₁) = t) :
    Path nxt' (if l₁ = [] then t else i) (l₁ ++ l') := by
  induction l₁ generalizing i with
  | nil => exact ht
  | cons a l₁ ih =>
    obtain ⟨rfl, h0, h⟩ := h
    refine ⟨rfl, h0, ?_⟩
    rcases List.eq_nil_or_concat' l₁ with rfl | ⟨l₀, p, rfl⟩
    · rw [show nxt' i = t from hp (by simp)]
      exact ht
    · have hprev : prevOf (i :: (l₀ ++ [p])) = prevOf (l₀ ++ [p]) := by
        rw [← List.cons_append, prevOf_concat, prevOf_concat]
      have hnd : i ∉ l₀ ++ [p] := fun hmem => by
        have := (show Path nxt i (i :: (l₀ ++ [p] ++ l₂)) from ⟨rfl, h0, h⟩).nodup
        simp_all
      rw [hag i List.mem_cons_self (by rw [hprev, prevOf_concat]; rintro rfl; simp at hnd)]
      have := ih h (fun b hb hne => hag b (List.mem_cons_of_mem _ hb) (by rwa [hprev]))
        (fun _ => by rw [← hprev]; exact hp (by simp))
      rwa [if_neg (by simp)] at this

end Path

end Lib
end ICon7
