/-
# The hash functions

`Hash32` and `Hash64` of `include/icon7/Hash.hpp` are one step of the FNV hash: the key is
xored into the base and the result multiplied with a prime.  `ICON7_USE_FNV_MULT` chooses between the
multiplication and a sum of shifts; both are the same function (`hash32_eq`, `hash64_eq`).  The primes
are odd, so the product can be undone, and for each base the hash is a bijection of the keys
(`hash32_bijective`, `hash64_bijective`).
-/

import Mathlib.Tactic
import Mathlib.Data.UInt
import ICon7.Map.FlatHashMap

namespace ICon7

/-- `Hash32`. -/
def hash32 (ICON7_USE_FNV_MULT : Bool) (a b : UInt32) : UInt32 :=
  let prime : UInt32 := 0x01000193
  let h := b ^^^ a
  if ICON7_USE_FNV_MULT then h * prime
  else
    let a := h + (h <<< 1)
    let b := (h <<< 24) + (h <<< 4)
    b + a + (a <<< 7)

/-- `Hash64`. -/
def hash64 (ICON7_USE_FNV_MULT : Bool) (a b : UInt64) : UInt64 :=
  let prime : UInt64 := 0x00000100000001b3
  let h := b ^^^ a
  if ICON7_USE_FNV_MULT then h * prime
  else
    let a := h + (h <<< 1)
    let b := h <<< 40
    b + a + (a <<< 4) + (a <<< 7)

/-- `Hash<uint32_t>::hash`; the base is converted to 32 bits. -/
def hashUInt32 (ICON7_USE_FNV_MULT : Bool) (k : UInt32) (base : UInt64) : UInt32 :=
  hash32 ICON7_USE_FNV_MULT k base.toUInt32

/-! ### Shifts are products -/

theorem shiftLeft32_eq_mul (h : UInt32) {k : ℕ} (hk : k < 32) :
    h <<< UInt32.ofNat k = h * UInt32.ofNat (2 ^ k) := by
  have hmod : k % 2 ^ 32 % 32 = k := by omega
  apply UInt32.toNat_inj.mp
  simp only [UInt32.toNat_mul, UInt32.toNat_shiftLeft, UInt32.toNat_ofNat', hmod, Nat.shiftLeft_eq,
    Nat.mul_mod_mod]

theorem shiftLeft64_eq_mul (h : UInt64) {k : ℕ} (hk : k < 64) :
    h <<< UInt64.ofNat k = h * UInt64.ofNat (2 ^ k) := by
  have hmod : k % 2 ^ 64 % 64 = k := by omega
  apply UInt64.toNat_inj.mp
  simp only [UInt64.toNat_mul, UInt64.toNat_shiftLeft, UInt64.toNat_ofNat', hmod, Nat.shiftLeft_eq,
    Nat.mul_mod_mod]

/-- **The shifts add up to the prime**: `2 ^ 24 + 2 ^ 4 + 3 + 3 * 2 ^ 7`. -/
theorem hash32_eq (u : Bool) (a b : UInt32) : hash32 u a b = (a ^^^ b) * 0x01000193 := by
  rw [UInt32.xor_comm a b]
  cases u with
  | true => rfl
  | false =>
    simp only [hash32, Bool.false_eq_true, if_false]
    generalize b ^^^ a = h
    have h1 : h <<< 1 = h * 0x2 := shiftLeft32_eq_mul h (k := 1) (by norm_num)
    have h4 : h <<< 4 = h * 0x10 := shiftLeft32_eq_mul h (k := 4) (by norm_num)
    have h24 : h <<< 24 = h * 0x1000000 := shiftLeft32_eq_mul h (k := 24) (by norm_num)
    have h7 : (h + h * 0x2) <<< 7 = (h + h * 0x2) * 0x80 := shiftLeft32_eq_mul _ (k := 7) (by norm_num)
    rw [h1, h4, h24, h7]
    grind

/-- **The shifts add up to the prime**: `2 ^ 40 + 3 + 3 * 2 ^ 4 + 3 * 2 ^ 7`. -/
theorem hash64_eq (u : Bool) (a b : UInt64) : hash64 u a b = (a ^^^ b) * 0x100000001b3 := by
  rw [UInt64.xor_comm a b]
  cases u with
  | true => rfl
  | false =>
    simp only [hash64, Bool.false_eq_true, if_false]
    generalize b ^^^ a = h
    have h1 : h <<< 1 = h * 0x2 := shiftLeft64_eq_mul h (k := 1) (by norm_num)
    have h40 : h <<< 40 = h * 0x10000000000 := shiftLeft64_eq_mul h (k := 40) (by norm_num)
    have h4 : (h + h * 0x2) <<< 4 = (h + h * 0x2) * 0x10 := shiftLeft64_eq_mul _ (k := 4) (by norm_num)
    have h7 : (h + h * 0x2) <<< 7 = (h + h * 0x2) * 0x80 := shiftLeft64_eq_mul _ (k := 7) (by norm_num)
    rw [h1, h40, h4, h7]
    grind

/-! ### No key bits are lost -/

/-- An involution followed by the product with a factor that has an inverse is a bijection. -/
theorem bijective_mul_of_involutive {α : Type} [CommMonoid α] {f : α → α} {p q : α}
    (hf : f.Involutive) (hpq : p * q = 1) : Function.Bijective fun k => f k * p := by
  have hmul : Function.Bijective fun x : α => x * p := by
    refine Function.bijective_iff_has_inverse.2 ⟨fun x => x * q, fun x => ?_, fun x => ?_⟩
    · show x * p * q = x
      rw [mul_assoc, hpq, mul_one]
    · show x * q * p = x
      rw [mul_assoc, mul_comm q, hpq, mul_one]
  exact hmul.comp hf.bijective

theorem hash32_bijective (u : Bool) (base : UInt32) : Function.Bijective fun k => hash32 u k base := by
  have hxor : Function.Involutive fun k : UInt32 => k ^^^ base := fun k => by
    simp only [UInt32.xor_assoc, UInt32.xor_self, UInt32.xor_zero]
  simp only [hash32_eq]
  exact bijective_mul_of_involutive hxor (show (0x01000193 * 0x359c449b : UInt32) = 1 from rfl)

theorem hash64_bijective (u : Bool) (base : UInt64) : Function.Bijective fun k => hash64 u k base := by
  have hxor : Function.Involutive fun k : UInt64 => k ^^^ base := fun k => by
    simp only [UInt64.xor_assoc, UInt64.xor_self, UInt64.xor_zero]
  simp only [hash64_eq]
  exact bijective_mul_of_involutive hxor
    (show (0x100000001b3 * 0xce965057aff6957b : UInt64) = 1 from rfl)

/-- **The shift-add hash is the multiplicative step and loses no key bits.**  Both values of
`ICON7_USE_FNV_MULT` give the product with the prime, both hashes are bijections of the keys for every
base, and distinct `uint32_t` keys of a map have distinct hashes before the mask is applied. -/
theorem hash_lossless :
    (∀ a b, hash32 false a b = (a ^^^ b) * 0x01000193 ∧ hash32 true a b = hash32 false a b) ∧
    (∀ a b, hash64 false a b = (a ^^^ b) * 0x100000001b3 ∧ hash64 true a b = hash64 false a b) ∧
    (∀ u base, Function.Bijective fun k => hash32 u k base) ∧
    (∀ u base, Function.Bijective fun k => hash64 u k base) ∧
    ∀ (V : Type) (T : MapTraits UInt32 V) (u : Bool), T.hash = hashUInt32 u →
      ∀ (m : FlatHashMap UInt32 V) (k k' : UInt32), k ≠ k' → T.hash k m.baseHash ≠ T.hash k' m.baseHash := by
  refine ⟨fun a b => ⟨hash32_eq .., ?_⟩, fun a b => ⟨hash64_eq .., ?_⟩, hash32_bijective,
    hash64_bijective, fun V T u hT m k k' hne heq => hne ?_⟩
  · rw [hash32_eq, hash32_eq]
  · rw [hash64_eq, hash64_eq]
  · rw [hT] at heq
    exact (hash32_bijective u m.baseHash.toUInt32).injective heq

end ICon7
