/-
# Memory that knows what was written

A memory of bytes, each of which is unused or a certain byte of a certain object.  Writing an
object takes as many bytes as the object has, whatever was there before; reading one succeeds
only if all its bytes are still there.  So an object is read back as long as nothing has been
written over any part of it (`read_write_of_disjoint`), and a pointer to anything else reads
nothing.
-/

import Mathlib.Tactic

namespace ICon7
namespace Lib

/-- The bytes of objects in `ω`. -/
abbrev Memory (ω : Type) := ℕ → Option (ω × ℕ)

namespace Memory

variable {ω : Type} (size : ω → ℕ)

/-- Write an object. -/
def write (m : Memory ω) (addr : ℕ) (o : ω) : Memory ω := fun a =>
  if addr ≤ a ∧ a < addr + size o then some (o, a - addr) else m a

/-- The object whose bytes are all there. -/
def read [DecidableEq ω] (m : Memory ω) (addr : ℕ) : Option ω :=
  match m addr with
  | some (o, 0) => if ∀ k < size o, m (addr + k) = some (o, k) then some o else none
  | _ => none

variable {size} {m : Memory ω} {addr : ℕ} {o : ω}

theorem write_of_lt (m : Memory ω) (addr : ℕ) {k : ℕ} (hk : k < size o) :
    write size m addr o (addr + k) = some (o, k) := by
  unfold write
  rw [if_pos ⟨by omega, by omega⟩, Nat.add_sub_cancel_left]

/-- Bytes outside of what is written stay. -/
theorem write_of_disjoint {a : ℕ} (h : a < addr ∨ addr + size o ≤ a) :
    write size m addr o a = m a := by
  unfold write
  rw [if_neg (by omega)]

section

variable [DecidableEq ω]

/-- Reading an object that has bytes is finding them all. -/
theorem read_eq_some_iff (ho : 0 < size o) :
    read size m addr = some o ↔ ∀ k < size o, m (addr + k) = some (o, k) := by
  constructor
  · intro h
    unfold read at h
    split at h
    · split_ifs at h with hall
      obtain rfl := Option.some.inj h
      exact hall
    · cases h
  · intro h
    have h0 : m addr = some (o, 0) := h 0 ho
    unfold read
    rw [h0]
    exact if_pos h

/-- **What was written is read back.** -/
theorem read_write (m : Memory ω) (addr : ℕ) (ho : 0 < size o) :
    read size (write size m addr o) addr = some o :=
  (read_eq_some_iff ho).2 fun _ hk => write_of_lt m addr hk

/-- **An object is read back after a write elsewhere.** -/
theorem read_write_of_disjoint {p : ω} {a : ℕ} (ho : 0 < size o) (h : read size m a = some o)
    (hd : a + size o ≤ addr ∨ addr + size p ≤ a) : read size (write size m addr p) a = some o := by
  rw [read_eq_some_iff ho] at h ⊢
  intro k hk
  rw [write_of_disjoint (by omega), h k hk]

end

end Memory
end Lib
end ICon7
