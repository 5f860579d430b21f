/-
# Formatted integers

What `sprintf`, `sscanf` and `atoi` of the C library do with decimal integers: a
format is a list of directives, each a character or a conversion.  Scanning undoes
printing when a number is followed by something that is no digit
(`sscanf_sprintf`), and cutting a number off and filling it up with zeros rounds it
down (`ofDigitChars_cut`).
-/

import Mathlib.Tactic

namespace ICon7
namespace Lib

/-- A directive of a format string, with what a conversion says about the printing. -/
inductive Directive (α : Type) where
  | text (c : Char)
  | int (spec : α)
deriving DecidableEq, Repr

/-- The conversion `%+width.precisioni` of `printf`, where everything can be left out. -/
structure IntSpec where
  width : ℕ := 0
  precision : ℕ := 1
  plus : Bool := false
deriving DecidableEq, Repr

/-- A number with at least the given number of digits. -/
def decimal (precision n : ℕ) : List Char := (Nat.toDigits 10 n).leftpad precision '0'

/-- One conversion of `sprintf`. -/
def printInt (spec : IntSpec) (n : ℤ) : List Char :=
  let sign := if n < 0 then ['-'] else if spec.plus then ['+'] else []
  (sign ++ decimal spec.precision n.natAbs).leftpad spec.width ' '

/-- `sprintf`. -/
def sprintf : List (Directive IntSpec) → List ℤ → List Char
  | [], _ => []
  | .text c :: format, args => c :: sprintf format args
  | .int spec :: format, n :: args => printInt spec n ++ sprintf format args
  | .int _ :: _, [] => []

/-- `isspace`. -/
def isSpace (c : Char) : Bool := c == ' ' || ('\t'.toNat ≤ c.toNat && c.toNat ≤ '\r'.toNat)

/-- The digits at the beginning of a text, as a number. -/
def scanNat (s : List Char) : Option (ℕ × List Char) :=
  if s.takeWhile Char.isDigit = [] then none
  else some (Nat.ofDigitChars 10 (s.takeWhile Char.isDigit) 0, s.dropWhile Char.isDigit)

/-- The conversion `%d` of `sscanf`. -/
def scanInt (s : List Char) : Option (ℤ × List Char) :=
  match s.dropWhile isSpace with
  | '-' :: s => (scanNat s).map fun r => (-(r.1 : ℤ), r.2)
  | '+' :: s => (scanNat s).map fun r => ((r.1 : ℤ), r.2)
  | s => (scanNat s).map fun r => ((r.1 : ℤ), r.2)

/-- `sscanf` without white space in the format: the numbers that are assigned before the first
failure. -/
def sscanf : List (Directive Unit) → List Char → List ℤ
  | [], _ => []
  | .text c :: format, s =>
    match s with
    | c' :: s => if c' = c then sscanf format s else []
    | [] => []
  | .int _ :: format, s =>
    match scanInt s with
    | some (n, s) => n :: sscanf format s
    | none => []

/-- `atoi`. -/
def atoi (s : List Char) : ℤ := ((scanInt s).map Prod.fst).getD 0

/-- No digit comes first. -/
def StopsDigits (s : List Char) : Prop := ∀ c ∈ s.head?, c.isDigit = false

theorem stopsDigits_nil : StopsDigits [] := by simp [StopsDigits]

theorem stopsDigits_cons {c : Char} (hc : c.isDigit = false) (s : List Char) : StopsDigits (c :: s) := by
  simp [StopsDigits, hc]

theorem isDigit_of_mem_decimal {precision n : ℕ} {c : Char} (hc : c ∈ decimal precision n) :
    c.isDigit = true := by
  rcases List.mem_append.mp hc with hc | hc
  · rw [List.eq_of_mem_replicate hc]
    rfl
  · exact Nat.isDigit_of_mem_toDigits (by decide) le_rfl hc

theorem decimal_ne_nil (precision n : ℕ) : decimal precision n ≠ [] := by
  simp [decimal, List.leftpad, Nat.toDigits_ne_nil]

theorem ofDigitChars_zeros (k : ℕ) : Nat.ofDigitChars 10 (List.replicate k '0') 0 = 0 := by
  induction k with
  | zero => rfl
  | succ k ih => rwa [List.replicate_succ, Nat.ofDigitChars_cons]

/-- Zeros in front do not count. -/
theorem ofDigitChars_decimal (precision n : ℕ) : Nat.ofDigitChars 10 (decimal precision n) 0 = n := by
  rw [decimal, List.leftpad, Nat.ofDigitChars_append, ofDigitChars_zeros,
    Nat.ofDigitChars_toDigits (by decide) le_rfl]

theorem length_decimal {precision n : ℕ} (hpos : 0 < precision) (hn : n < 10 ^ precision) :
    (decimal precision n).length = precision := by
  have hle := (Nat.length_toDigits_le_iff (by decide) hpos).mpr hn
  simp only [decimal, List.leftpad, List.length_append, List.length_replicate]
  omega

/-- **Scanning digits** takes them up to what is no digit. -/
theorem scanNat_append {ds rest : List Char} (hds : ∀ c ∈ ds, c.isDigit = true) (hne : ds ≠ [])
    (hrest : StopsDigits rest) : scanNat (ds ++ rest) = some (Nat.ofDigitChars 10 ds 0, rest) := by
  have hstop : rest.takeWhile Char.isDigit = [] ∧ rest.dropWhile Char.isDigit = rest := by
    cases rest with
    | nil => exact ⟨rfl, rfl⟩
    | cons c rest => simp [hrest c rfl]
  have htake : (ds ++ rest).takeWhile Char.isDigit = ds := by
    rw [List.takeWhile_append_of_pos hds, hstop.1, List.append_nil]
  have hdrop : (ds ++ rest).dropWhile Char.isDigit = rest := by
    rw [List.dropWhile_append_of_pos hds, hstop.2]
  rw [scanNat, htake, hdrop, if_neg hne]

theorem isSpace_of_isDigit {c : Char} (hc : c.isDigit = true) : isSpace c = false := by
  have hge : 48 ≤ c.toNat := by
    simp only [Char.isDigit, Bool.and_eq_true, decide_eq_true_eq] at hc
    exact hc.1
  have hne : c ≠ ' ' := by
    rintro rfl
    simp at hge
  have hlt : 13 < c.toNat := by omega
  simp [isSpace, hne, hlt]

/-- A number without a sign. -/
theorem scanInt_digits {ds rest : List Char} (hds : ∀ c ∈ ds, c.isDigit = true) (hne : ds ≠ [])
    (hrest : StopsDigits rest) : scanInt (ds ++ rest) = some ((Nat.ofDigitChars 10 ds 0 : ℤ), rest) := by
  have hscan := scanNat_append hds hne hrest
  obtain ⟨c, ds, rfl⟩ := List.exists_cons_of_ne_nil hne
  have hc := hds c List.mem_cons_self
  have hdrop : (c :: ds ++ rest).dropWhile isSpace = c :: ds ++ rest :=
    List.dropWhile_cons_of_neg (by rw [isSpace_of_isDigit hc]; decide)
  rw [scanInt, hdrop]
  split
  next heq =>
    obtain ⟨rfl, -⟩ := List.cons.inj heq
    cases hc
  next heq =>
    obtain ⟨rfl, -⟩ := List.cons.inj heq
    cases hc
  next => rw [hscan, Option.map_some]

theorem atoi_digits {ds : List Char} (hds : ∀ c ∈ ds, c.isDigit = true) (hne : ds ≠ []) :
    atoi ds = (Nat.ofDigitChars 10 ds 0 : ℤ) := by
  have hscan := scanInt_digits hds hne stopsDigits_nil
  rw [List.append_nil] at hscan
  rw [atoi, hscan]
  rfl

/-- **Scanning a printed number** gives it back. -/
theorem scanInt_printInt (spec : IntSpec) (n : ℤ) {rest : List Char} (hrest : StopsDigits rest) :
    scanInt (printInt spec n ++ rest) = some (n, rest) := by
  have hspaces (k : ℕ) (s : List Char) : scanInt (List.replicate k ' ' ++ s) = scanInt s := by
    have hall : ∀ c ∈ List.replicate k ' ', isSpace c = true := fun c hc => by
      rw [List.eq_of_mem_replicate hc]
      rfl
    rw [scanInt, List.dropWhile_append_of_pos hall, scanInt]
  have hscan := scanNat_append (fun c hc => isDigit_of_mem_decimal hc)
    (decimal_ne_nil spec.precision n.natAbs) hrest
  rw [ofDigitChars_decimal] at hscan
  rw [printInt, List.leftpad, List.append_assoc, hspaces, List.append_assoc]
  split_ifs with hneg hplus
  · rw [List.singleton_append, scanInt, List.dropWhile_cons_of_neg (by decide)]
    simp only [hscan, Option.map_some, Option.some.injEq, Prod.mk.injEq, and_true]
    omega
  · rw [List.singleton_append, scanInt, List.dropWhile_cons_of_neg (by decide)]
    simp only [hscan, Option.map_some, Option.some.injEq, Prod.mk.injEq, and_true]
    omega
  · rw [List.nil_append, scanInt_digits (fun c hc => isDigit_of_mem_decimal hc) (decimal_ne_nil _ _) hrest,
      ofDigitChars_decimal, Option.some.injEq, Prod.mk.injEq]
    exact ⟨by omega, rfl⟩

/-- A number that is not negative and fits into its digits is printed as these. -/
theorem printInt_ofNat {width precision : ℕ} (hwidth : width ≤ precision) (n : ℕ) :
    printInt ⟨width, precision, false⟩ n = decimal precision n := by
  have hlen : width ≤ (decimal precision n).length := by
    simp only [decimal, List.leftpad, List.length_append, List.length_replicate]
    omega
  have hneg : ¬(n : ℤ) < 0 := by omega
  simp [printInt, List.leftpad, hneg, hlen]

/-- The directive that scans what the directive prints. -/
def Directive.scan : Directive IntSpec → Directive Unit
  | .text c => .text c
  | .int _ => .int ()

/-- How many numbers a format has. -/
def numbers : List (Directive IntSpec) → ℕ
  | [] => 0
  | .text _ :: format => numbers format
  | .int _ :: format => numbers format + 1

/-- A number is followed by a character that is no digit, or by nothing. -/
def Separated : List (Directive IntSpec) → Prop
  | [] => True
  | .text _ :: format => Separated format
  | [.int _] => True
  | .int _ :: .text c :: format => c.isDigit = false ∧ Separated format
  | .int _ :: .int _ :: _ => False

/-- **Scanning what was printed** gives the numbers back. -/
theorem sscanf_sprintf (format : List (Directive IntSpec)) (args : List ℤ) {rest : List Char}
    (hsep : Separated format) (hargs : args.length = numbers format) (hrest : StopsDigits rest) :
    sscanf (format.map Directive.scan) (sprintf format args ++ rest) = args := by
  induction format using Separated.induct generalizing args with
  | case1 => exact (List.length_eq_zero_iff.mp hargs).symm
  | case2 c format ih => simpa [sprintf, sscanf, Directive.scan] using ih args hsep hargs
  | case3 spec =>
    obtain ⟨n, rfl⟩ := List.length_eq_one_iff.mp hargs
    simp [sprintf, sscanf, Directive.scan, scanInt_printInt spec n hrest]
  | case4 spec c format ih =>
    obtain ⟨n, args, rfl⟩ := List.exists_cons_of_length_eq_add_one hargs
    have hstop : StopsDigits (c :: (sprintf format args ++ rest)) := stopsDigits_cons hsep.1 _
    have hrec := ih args hsep.2 (Nat.succ.inj hargs)
    simp [sprintf, sscanf, Directive.scan, scanInt_printInt spec n hstop, hrec]
  | case5 spec spec' format => exact hsep.elim

/-- The value of digits behind a number. -/
theorem ofDigitChars_eq_add (ds : List Char) (init : ℕ) :
    Nat.ofDigitChars 10 ds init = init * 10 ^ ds.length + Nat.ofDigitChars 10 ds 0 := by
  induction ds generalizing init with
  | nil => simp [Nat.ofDigitChars]
  | cons c ds ih =>
    rw [Nat.ofDigitChars_cons, Nat.ofDigitChars_cons, ih, ih (10 * 0 + _), List.length_cons, pow_succ]
    ring

theorem ofDigitChars_lt {ds : List Char} (hds : ∀ c ∈ ds, c.isDigit = true) :
    Nat.ofDigitChars 10 ds 0 < 10 ^ ds.length := by
  induction ds with
  | nil => simp [Nat.ofDigitChars]
  | cons c ds ih =>
    have hrest := ih fun d hd => hds d (List.mem_cons_of_mem _ hd)
    have hc : c.toNat - '0'.toNat ≤ 9 := by
      have hdigit := hds c List.mem_cons_self
      simp only [Char.isDigit, Bool.and_eq_true, decide_eq_true_eq] at hdigit
      have hle : c.toNat ≤ 57 := hdigit.2
      exact Nat.sub_le_sub_right hle 48
    rw [Nat.ofDigitChars_cons, ofDigitChars_eq_add, List.length_cons, pow_succ]
    nlinarith

/-- **Cutting digits off and filling up with zeros** rounds the number down. -/
theorem ofDigitChars_cut {ds : List Char} (hds : ∀ c ∈ ds, c.isDigit = true) (k : ℕ) :
    Nat.ofDigitChars 10 (ds.take k ++ List.replicate (ds.length - k) '0') 0 =
      Nat.ofDigitChars 10 ds 0 / 10 ^ (ds.length - k) * 10 ^ (ds.length - k) := by
  have hdrop : Nat.ofDigitChars 10 (ds.drop k) 0 < 10 ^ (ds.length - k) := by
    rw [← List.length_drop]
    exact ofDigitChars_lt fun c hc => hds c (List.mem_of_mem_drop hc)
  have hvalue : Nat.ofDigitChars 10 ds 0 =
      Nat.ofDigitChars 10 (ds.drop k) 0 + 10 ^ (ds.length - k) * Nat.ofDigitChars 10 (ds.take k) 0 := by
    conv_lhs => rw [← List.take_append_drop k ds]
    rw [Nat.ofDigitChars_append, ofDigitChars_eq_add, List.length_drop]
    ring
  rw [Nat.ofDigitChars_append, ofDigitChars_eq_add, ofDigitChars_zeros, List.length_replicate, add_zero, hvalue,
    Nat.add_mul_div_left _ _ (by positivity), Nat.div_eq_of_lt hdrop, zero_add]

end Lib
end ICon7
