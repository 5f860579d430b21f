/-
# The frame header

`FramingProtocol::GetHeaderSize`, `WriteHeader`, `GetPacketHeaderSize`,
`GetPacketFlags` and `GetPacketBodySize` in `src/FramingProtocol.cpp`.

A header is one to four bytes, a little-endian word `zz…zz yy xx`:

| bits | field | stored |
| --- | --- | --- |
| 0-1 | `xx` | header length minus one |
| 2-3 | `yy` | the message kind, bits 1-2 of the flags |
| 4-31 | `zz…zz` | body length minus one |

so a header of `k` bytes has `8k - 4` size bits.  `headerWord_toNat` reads the
word as a sum of its three fields; everything else about the header follows
from that one equation.
-/

import Mathlib.Tactic

namespace ICon7
namespace Framing

/-- `Flags` of `include/icon7/Flags.hpp`. -/
abbrev Flags := UInt32

def FLAG_RELIABLE : Flags := 1
def FLAGS_CALL_NO_FEEDBACK : Flags := 0
def FLAGS_CALL : Flags := 2
def FLAGS_CALL_RETURN_FEEDBACK : Flags := 4
def FLAGS_PROTOCOL_CONTROLL_SEQUENCE : Flags := 6

/-- `GetHeaderSize`: the header length for a body of `dataSize` bytes, and `0`
after the `LOG_FATAL` for a body that no header can describe. -/
def getHeaderSize (dataSize : ℕ) : ℕ :=
  if dataSize ≤ 1 <<< 4 then 1
  else if dataSize ≤ 1 <<< 12 then 2
  else if dataSize ≤ 1 <<< 20 then 3
  else if dataSize ≤ 1 <<< 28 then 4
  else 0

/-- The word `h` that `WriteHeader` builds. -/
def headerWord (headerSize dataSize : ℕ) (flags : Flags) : UInt32 :=
  ((flags &&& 6) <<< 1) ||| (UInt32.ofNat headerSize - (1 : UInt32)) |||
    ((UInt32.ofNat dataSize - (1 : UInt32)) <<< 4)

/-- `WriteHeader`: the bytes written to `header`, low byte first.  `none` is a
failed assertion on `headerSize`. -/
def writeHeader (headerSize dataSize : ℕ) (flags : Flags) : Option (List UInt8) :=
  if 1 ≤ headerSize ∧ headerSize ≤ 4 then
    some ((List.range headerSize).map fun i =>
      ((headerWord headerSize dataSize flags >>> (UInt32.ofNat i <<< 3)) &&& 0xFF).toUInt8)
  else none

/-- `GetPacketHeaderSize`. -/
def getPacketHeaderSize (headerFirstByte : UInt8) : ℕ := (headerFirstByte &&& 3).toNat + 1

/-- `GetPacketFlags`; `none` is a read past the end of `header`. -/
def getPacketFlags (header : List UInt8) (otherFlags : Flags) : Option Flags := do
  let b ← header[0]?
  return otherFlags ||| ((b >>> 1) &&& 6).toUInt32

/-- The word `h` that `GetPacketBodySize` accumulates, each case of its `switch`
falling through to the next.  `none` is a failed assertion on `headerSize` or a
read past the end of `header`. -/
def packetWord (header : List UInt8) : ℕ → Option UInt32
  | 4 => do return ((← header[3]?).toUInt32 <<< 24) ||| (← packetWord header 3)
  | 3 => do return ((← header[2]?).toUInt32 <<< 16) ||| (← packetWord header 2)
  | 2 => do return ((← header[1]?).toUInt32 <<< 8) ||| (← packetWord header 1)
  | 1 => do return (← header[0]?).toUInt32
  | _ => none

/-- `GetPacketBodySize`. -/
def getPacketBodySize (header : List UInt8) (headerSize : ℕ) : Option ℕ := do
  let h ← packetWord header headerSize
  return (h >>> 4).toNat + 1

/-! ### The header word as a sum of its fields -/

/-- Only the three low bits of a number meet the mask `6`. -/
theorem and_six_eq (x : ℕ) : x &&& 6 = 2 * (x / 2 % 4) := by
  have h : x &&& 6 = (x % 8) &&& 6 := by
    rw [← Nat.and_two_pow_sub_one_eq_mod x 3, Nat.and_assoc]
    rfl
  have h8 : x % 8 < 8 := Nat.mod_lt _ (by norm_num)
  have hdiv : x / 2 % 4 = x % 8 / 2 := by omega
  rw [h, hdiv]
  generalize x % 8 = m at h8
  interval_cases m <;> rfl

/-- The kind bits of any flags are one of the four values `0`, `2`, `4`, `6`. -/
theorem flags_kind (flags : Flags) : ∃ k < 4, flags &&& 6 = UInt32.ofNat (2 * k) := by
  refine ⟨flags.toNat / 2 % 4, Nat.mod_lt _ (by norm_num), UInt32.toNat_inj.1 ?_⟩
  rw [UInt32.toNat_and, show (6 : UInt32).toNat = 6 from rfl, and_six_eq, UInt32.toNat_ofNat']
  omega

/-- **The three fields of the header word do not overlap.**  For a body length
that fits in 28 bits after the subtraction, the word is the sum of the shifted
size, the shifted kind `2k` and the header length minus one. -/
theorem headerWord_toNat {headerSize dataSize k : ℕ} {flags : Flags}
    (hh : 1 ≤ headerSize ∧ headerSize ≤ 4) (hd : 1 ≤ dataSize ∧ dataSize ≤ 2 ^ 28)
    (hk : k < 4) (hf : flags &&& 6 = UInt32.ofNat (2 * k)) :
    (headerWord headerSize dataSize flags).toNat =
      16 * (dataSize - 1) + (4 * k + (headerSize - 1)) := by
  have hsize : (UInt32.ofNat dataSize - (1 : UInt32)).toNat = dataSize - 1 := by
    rw [UInt32.toNat_sub_of_le]
    · simp; omega
    · rw [UInt32.le_iff_toNat_le]; simp; omega
  have hlow : (((flags &&& 6) <<< 1) ||| (UInt32.ofNat headerSize - (1 : UInt32))).toNat =
      4 * k + (headerSize - 1) := by
    obtain ⟨h1, h4⟩ := hh
    rw [hf]
    interval_cases k <;> interval_cases headerSize <;> rfl
  have hlt : 4 * k + (headerSize - 1) < 2 ^ 4 := by omega
  unfold headerWord
  rw [UInt32.toNat_or, hlow, UInt32.toNat_shiftLeft, hsize, Nat.or_comm]
  have hmod : (dataSize - 1) <<< ((4 : UInt32).toNat % 32) % 2 ^ 32 = (dataSize - 1) <<< 4 := by
    rw [show (4 : UInt32).toNat % 32 = 4 from rfl, Nat.shiftLeft_eq]
    exact Nat.mod_eq_of_lt (by omega)
  rw [hmod, ← Nat.shiftLeft_add_eq_or_of_lt hlt, Nat.shiftLeft_eq]
  omega

/-- One byte read into the word above `n` bits that are already there. -/
theorem toNat_shift_or {b : UInt8} {s w : UInt32} {n : ℕ} (hs : s.toNat = n) (hn : n ≤ 24)
    (hw : w.toNat < 2 ^ n) : ((b.toUInt32 <<< s) ||| w).toNat = b.toNat * 2 ^ n + w.toNat := by
  have hb : b.toNat * 2 ^ n < 2 ^ 32 := calc
    b.toNat * 2 ^ n < 2 ^ 8 * 2 ^ n :=
      Nat.mul_lt_mul_of_pos_right b.toNat_lt (Nat.two_pow_pos n)
    _ = 2 ^ (8 + n) := (Nat.pow_add 2 8 n).symm
    _ ≤ 2 ^ 32 := Nat.pow_le_pow_right (by norm_num) (by omega)
  rw [UInt32.toNat_or, UInt32.toNat_shiftLeft, hs, Nat.mod_eq_of_lt (by omega : n < 32),
    UInt8.toNat_toUInt32, Nat.shiftLeft_eq, Nat.mod_eq_of_lt hb, ← Nat.shiftLeft_eq,
    Nat.shiftLeft_add_eq_or_of_lt hw]

/-! ### Reading back what was written -/

/-- The chosen header length is between one and four. -/
theorem getHeaderSize_bounds {n : ℕ} (hn : n ≤ 2 ^ 28) :
    1 ≤ getHeaderSize n ∧ getHeaderSize n ≤ 4 := by
  unfold getHeaderSize
  simp only [Nat.one_shiftLeft]
  split_ifs <;> omega

/-- The size bits of the chosen header hold the body length minus one. -/
theorem sub_one_lt_two_pow_getHeaderSize {n : ℕ} (hn : n ≤ 2 ^ 28) :
    n - 1 < 2 ^ (8 * getHeaderSize n - 4) := by
  unfold getHeaderSize
  simp only [Nat.one_shiftLeft]
  split_ifs <;> norm_num <;> omega

/-- **The header is the shortest that can describe the body.**  No header of
`k` bytes with fewer bytes has size bits for the body length minus one. -/
theorem getHeaderSize_le {n k : ℕ} (hk : 1 ≤ k ∧ k ≤ 4) (h : n - 1 < 2 ^ (8 * k - 4)) :
    getHeaderSize n ≤ k := by
  obtain ⟨h1, h4⟩ := hk
  unfold getHeaderSize
  simp only [Nat.one_shiftLeft]
  interval_cases k <;> norm_num at h <;> split_ifs <;> omega

/-- Byte `i` of the written header is byte `i` of the header word. -/
theorem writeHeader_eq {headerSize : ℕ} (hh : 1 ≤ headerSize ∧ headerSize ≤ 4) (dataSize : ℕ)
    (flags : Flags) :
    writeHeader headerSize dataSize flags = some ((List.range headerSize).map fun i =>
      UInt8.ofNat ((headerWord headerSize dataSize flags).toNat / 256 ^ i)) := by
  unfold writeHeader
  rw [if_pos hh]
  congr 1
  apply List.map_congr_left
  intro i hi
  have hi4 : i < 4 := by have := List.mem_range.1 hi; omega
  have hshift : (UInt32.ofNat i <<< (3 : UInt32)).toNat % 32 = 8 * i := by
    interval_cases i <;> rfl
  apply UInt8.toNat_inj.1
  rw [UInt32.toNat_toUInt8, UInt32.toNat_and, UInt32.toNat_shiftRight, hshift,
    Nat.shiftRight_eq_div_pow, Nat.pow_mul, UInt8.toNat_ofNat']
  exact congrArg (· % 256) (Nat.and_two_pow_sub_one_eq_mod _ 8) |>.trans (Nat.mod_mod _ _)

/-- Reading `k` bytes that hold the low bytes of `w` gives `w` modulo `256 ^ k`. -/
theorem packetWord_toNat {header : List UInt8} {w : ℕ} :
    ∀ {k : ℕ}, 1 ≤ k → k ≤ 4 → (∀ i < k, header[i]? = some (UInt8.ofNat (w / 256 ^ i))) →
      ∃ h, packetWord header k = some h ∧ h.toNat = w % 256 ^ k
  | 1, _, _, hb => by
    refine ⟨(UInt8.ofNat w).toUInt32, ?_, by simp⟩
    simp [packetWord, hb 0 (by norm_num)]
  | k + 2, _, hk, hb => by
    obtain ⟨h, hh, hw⟩ := packetWord_toNat (k := k + 1) (by omega) (by omega)
      fun i hi => hb i (by omega)
    have hlt : h.toNat < 2 ^ (8 * (k + 1)) := by
      rw [hw, Nat.pow_mul]; exact Nat.mod_lt _ (by positivity)
    have hb := hb (k + 1) (by omega)
    have key : ∀ s : UInt32, s.toNat = 8 * (k + 1) →
        (((UInt8.ofNat (w / 256 ^ (k + 1))).toUInt32 <<< s) ||| h).toNat = w % 256 ^ (k + 2) := by
      intro s hs
      rw [toNat_shift_or hs (by omega) hlt, hw, UInt8.toNat_ofNat', Nat.pow_mul,
        Nat.pow_succ 256 (k + 1), Nat.mod_mul]
      ring
    obtain rfl | rfl | rfl : k = 0 ∨ k = 1 ∨ k = 2 := by omega
    · exact ⟨_, by simp [packetWord, hb, hh], key 8 rfl⟩
    · exact ⟨_, by simp [packetWord, hb, hh], key 16 rfl⟩
    · exact ⟨_, by simp [packetWord, hb, hh], key 24 rfl⟩

/-- Only the first `k` bytes are read. -/
theorem packetWord_append {s : List UInt8} (t : List UInt8) :
    ∀ {k : ℕ}, k ≤ s.length → packetWord (s ++ t) k = packetWord s k
  | 0, _ => by simp [packetWord]
  | 1, h => by rw [packetWord, packetWord, List.getElem?_append_left (by omega)]
  | 2, h => by
    rw [packetWord, packetWord, List.getElem?_append_left (by omega), packetWord_append t (by omega)]
  | 3, h => by
    rw [packetWord, packetWord, List.getElem?_append_left (by omega), packetWord_append t (by omega)]
  | 4, h => by
    rw [packetWord, packetWord, List.getElem?_append_left (by omega), packetWord_append t (by omega)]
  | _ + 5, _ => by simp [packetWord]

theorem getPacketBodySize_append {s : List UInt8} (t : List UInt8) {k : ℕ} (h : k ≤ s.length) :
    getPacketBodySize (s ++ t) k = getPacketBodySize s k := by
  rw [getPacketBodySize, getPacketBodySize, packetWord_append t h]

/-- A header length read off a byte is between one and four. -/
theorem getPacketHeaderSize_bounds (b : UInt8) :
    1 ≤ getPacketHeaderSize b ∧ getPacketHeaderSize b ≤ 4 := by
  have h : (b &&& 3).toNat ≤ 3 := by
    rw [UInt8.toNat_and]
    exact Nat.and_le_right
  unfold getPacketHeaderSize
  omega

/-- A body length that is read is between `1` and `2 ^ 28`, whatever the bytes. -/
theorem bounds_of_getPacketBodySize {s : List UInt8} {k n : ℕ}
    (h : getPacketBodySize s k = some n) : 1 ≤ n ∧ n ≤ 2 ^ 28 := by
  obtain ⟨w, -, hw⟩ := Option.bind_eq_some_iff.1 h
  obtain rfl := Option.some.inj hw
  have := w.toNat_lt
  rw [UInt32.toNat_shiftRight, show (4 : UInt32).toNat % 32 = 4 from rfl,
    Nat.shiftRight_eq_div_pow]
  omega

/-- A complete header always gives a body length, between `1` and `2 ^ 28`. -/
theorem getPacketBodySize_bounds {s : List UInt8} {k : ℕ} (hk : 1 ≤ k ∧ k ≤ 4)
    (h : k ≤ s.length) : ∃ n, getPacketBodySize s k = some n ∧ 1 ≤ n ∧ n ≤ 2 ^ 28 := by
  have hword : ∃ w, packetWord s k = some w := by
    have hget : ∀ i < s.length, ∃ b, s[i]? = some b := fun i hi => ⟨_, List.getElem?_eq_getElem hi⟩
    obtain ⟨h1, h4⟩ := hk
    obtain ⟨b0, hb0⟩ := hget 0 (by omega)
    interval_cases k
    · exact ⟨_, by simp [packetWord, hb0]; rfl⟩
    · obtain ⟨b1, hb1⟩ := hget 1 (by omega)
      exact ⟨_, by simp [packetWord, hb0, hb1]; rfl⟩
    · obtain ⟨b1, hb1⟩ := hget 1 (by omega)
      obtain ⟨b2, hb2⟩ := hget 2 (by omega)
      exact ⟨_, by simp [packetWord, hb0, hb1, hb2]; rfl⟩
    · obtain ⟨b1, hb1⟩ := hget 1 (by omega)
      obtain ⟨b2, hb2⟩ := hget 2 (by omega)
      obtain ⟨b3, hb3⟩ := hget 3 (by omega)
      exact ⟨_, by simp [packetWord, hb0, hb1, hb2, hb3]; rfl⟩
  obtain ⟨w, hw⟩ := hword
  have hbody : getPacketBodySize s k = some ((w >>> 4).toNat + 1) := by simp [getPacketBodySize, hw]
  exact ⟨_, hbody, bounds_of_getPacketBodySize hbody⟩

/-- **A written header reads back.**  For a body of `1` to `2 ^ 28` bytes the
header has the chosen length, and whatever follows it, its length, the body
length and the kind are read back from it. -/
theorem writeHeader_reads {n : ℕ} (hn : 1 ≤ n ∧ n ≤ 2 ^ 28) (flags : Flags) :
    ∃ header, writeHeader (getHeaderSize n) n flags = some header ∧
      header.length = getHeaderSize n ∧
      (∃ b, header[0]? = some b ∧ getPacketHeaderSize b = getHeaderSize n) ∧
      ∀ body, getPacketBodySize (header ++ body) (getHeaderSize n) = some n ∧
        ∀ other, getPacketFlags (header ++ body) other = some (other ||| (flags &&& 6)) := by
  have hh := getHeaderSize_bounds hn.2
  have hfit := sub_one_lt_two_pow_getHeaderSize hn.2
  obtain ⟨k, hk, hf⟩ := flags_kind flags
  have hword := headerWord_toNat hh hn hk hf
  rw [writeHeader_eq hh]
  generalize (headerWord (getHeaderSize n) n flags).toNat = w at hword
  generalize getHeaderSize n = s at *
  have hget : ∀ body, ∀ i < s, ((List.range s).map (fun i => UInt8.ofNat (w / 256 ^ i)) ++ body)[i]? =
      some (UInt8.ofNat (w / 256 ^ i)) := by
    intro body i hi
    rw [List.getElem?_append_left (by simpa using hi)]
    simp [hi]
  have hw : w < 256 ^ s := by
    have : 2 ^ (8 * s - 4) * 16 = 256 ^ s := by
      rw [show (16 : ℕ) = 2 ^ 4 from rfl, ← Nat.pow_add, show 8 * s - 4 + 4 = 8 * s by omega,
        Nat.pow_mul]
    omega
  have hlow : w % 16 = 4 * k + (s - 1) := by omega
  refine ⟨_, rfl, by simp, ⟨UInt8.ofNat w, ?_, ?_⟩, fun body => ⟨?_, fun other => ?_⟩⟩
  · simpa using hget [] 0 (by omega)
  · have h3 : (UInt8.ofNat w).toNat &&& 3 = w % 256 % 4 := by
      rw [UInt8.toNat_ofNat']
      exact Nat.and_two_pow_sub_one_eq_mod _ 2
    rw [getPacketHeaderSize, UInt8.toNat_and, show (3 : UInt8).toNat = 3 from rfl, h3]
    omega
  · obtain ⟨h, hp, hh'⟩ := packetWord_toNat hh.1 hh.2 (hget body)
    rw [Nat.mod_eq_of_lt hw] at hh'
    simp only [getPacketBodySize, hp, Option.bind_eq_bind, Option.bind_some, Option.pure_def,
      Option.some.injEq]
    rw [UInt32.toNat_shiftRight, hh', show (4 : UInt32).toNat % 32 = 4 from rfl,
      Nat.shiftRight_eq_div_pow]
    omega
  · have h0 := hget body 0 (by omega)
    simp only [getPacketFlags, h0, Option.bind_eq_bind, Option.bind_some, Option.pure_def,
      Option.some.injEq, hf]
    congr 1
    apply UInt32.toNat_inj.1
    rw [UInt8.toNat_toUInt32, UInt8.toNat_and, UInt8.toNat_shiftRight,
      show (6 : UInt8).toNat = 6 from rfl, show (1 : UInt8).toNat % 8 = 1 from rfl, and_six_eq,
      UInt8.toNat_ofNat', Nat.shiftRight_eq_div_pow, UInt32.toNat_ofNat']
    simp only [Nat.pow_zero, Nat.div_one]
    omega

end Framing
end ICon7
