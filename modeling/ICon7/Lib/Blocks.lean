/-
# Consecutive blocks

The integers are cut into blocks, one after the other: block `n` begins at `start n`
and is `len n` long.  A place is a block and an offset inside it.  Places of later
blocks are later (`Blocks.add_lt_add`), and walking on from a block finds the place of
an integer (`Blocks.locate_spec`).
-/

import Mathlib.Tactic

namespace ICon7
namespace Lib

/-- From `lo` on, each block begins where the one before it ends. -/
structure Blocks (lo : ℤ) (start len : ℤ → ℤ) : Prop where
  next : ∀ n, lo ≤ n → start (n + 1) = start n + len n
  len_nonneg : ∀ n, lo ≤ n → 0 ≤ len n

variable {lo m n d e : ℤ} {start len : ℤ → ℤ}

theorem Blocks.start_le (h : Blocks lo start len) (hm : lo ≤ m) (hmn : m ≤ n) : start m ≤ start n := by
  induction n, hmn using Int.leInduction with
  | base => exact le_rfl
  | succ n hmn ih =>
    rw [h.next n (hm.trans hmn)]
    exact le_add_of_le_of_nonneg ih (h.len_nonneg n (hm.trans hmn))

/-- **A place in an earlier block is before every place in a later one.** -/
theorem Blocks.add_lt_add (h : Blocks lo start len) (hm : lo ≤ m) (hmn : m < n) (hd : d < len m)
    (he : 0 ≤ e) : start m + d < start n + e := by
  have hnext := h.next m hm
  have hle := h.start_le (hm.trans (Int.le_add_one le_rfl)) (Int.add_one_le_of_lt hmn)
  omega

/-- The blocks counted from another one. -/
theorem Blocks.shift (h : Blocks lo start len) (k : ℤ) :
    Blocks (lo - k) (fun n => start (n + k)) (fun n => len (n + k)) where
  next n hn := by
    rw [← h.next (n + k) (by omega)]
    congr 1
    omega
  len_nonneg n hn := h.len_nonneg (n + k) (by omega)

/-- The places inside the blocks. -/
def Inside (len : ℤ → ℤ) (n d : ℤ) : Prop := 0 ≤ d ∧ d < len n

/-- Walks on from the block `n`, with the lengths that are known, while the rest is not
inside the block. -/
def locate (part : ℤ → Option ℤ) : ℕ → ℤ → ℤ → Option (ℤ × ℤ)
  | 0, _, _ => none
  | fuel + 1, n, rest => do
    let l ← part n
    if l ≤ rest then locate part fuel (n + 1) (rest - l) else return (n, rest)

/-- **Walking on finds the place**, in no more turns than there are blocks up to the end. -/
theorem Blocks.locate_spec (h : Blocks lo start len) (part : ℤ → Option ℤ) (fuel : ℕ) (n hi : ℤ)
    (hpart : ∀ n, lo ≤ n → n < hi → part n = some (len n)) (hn : lo ≤ n) (hle : n ≤ hi)
    (hfuel : hi ≤ n + fuel) (hd : 0 ≤ d) (hend : start n + d < start hi) :
    ∃ m e, locate part fuel n d = some (m, e) ∧ n ≤ m ∧ m < hi ∧ Inside len m e ∧
      start m + e = start n + d := by
  have hlt : n < hi := by
    rcases hle.lt_or_eq with hlt | rfl
    · exact hlt
    · omega
  induction fuel generalizing n d with
  | zero => omega
  | succ fuel ih =>
    rw [locate, hpart n hn hlt, Option.bind_eq_bind, Option.bind_some]
    have hnext := h.next n hn
    split_ifs with hover
    · have hend' : start (n + 1) + (d - len n) < start hi := by omega
      have hlt' : n + 1 < hi := by
        rcases (Int.add_one_le_of_lt hlt).lt_or_eq with hlt' | heq
        · exact hlt'
        · rw [heq] at hend'
          omega
      obtain ⟨m, e, hrun, hm, hmhi, he, hplace⟩ :=
        ih (n + 1) (by omega) hlt'.le (by omega) (by omega) hend' hlt'
      exact ⟨m, e, hrun, by omega, hmhi, he, by omega⟩
    · exact ⟨n, d, rfl, le_rfl, hlt, ⟨hd, not_le.mp hover⟩, rfl⟩

end Lib
end ICon7
