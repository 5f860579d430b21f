/-
# Timestamps as text

`TimestampToString` and `StringToTimestamp` of `src/Time.cpp`.  The printer writes the
date and the time of day in 19 characters, then as many digits after the second as
asked for, with a dot before every three, then the letter `U` and the hours to add to
universal time.  The parser reads the first part with `sscanf`, takes what comes
after 20 characters up to the `U` for the digits, removes the two dots that can be
among them and fills up with zeros.

The characters are cut and put together at the same places for every number of digits
(`eraseDots_cut`), so that the text has the timestamp rounded down to its last digit
(`stringToTimestamp_timestampToString`).  Without digits there is no dot to skip, and
the parser skips the `U`.

The offset of the time zone is a parameter, `hoursOffset`.  The conversions of the
standard library between seconds and its clock do not change the number of seconds.
-/

import ICon7.Lib.Format
import ICon7.Time.Calendar

namespace ICon7
namespace Time

open Lib

/-- The format `"%4.4i-%2.2i-%2.2i+%2.2i:%2.2i:%2.2i"`. -/
def dateFormat : List (Directive IntSpec) :=
  [.int ⟨4, 4, false⟩, .text '-', .int ⟨2, 2, false⟩, .text '-', .int ⟨2, 2, false⟩, .text '+',
    .int ⟨2, 2, false⟩, .text ':', .int ⟨2, 2, false⟩, .text ':', .int ⟨2, 2, false⟩]

/-- The format `".%3.3li.%3.3li.%3.3li"`. -/
def subsecondsFormat : List (Directive IntSpec) :=
  [.text '.', .int ⟨3, 3, false⟩, .text '.', .int ⟨3, 3, false⟩, .text '.', .int ⟨3, 3, false⟩]

/-- The format `"U%+i"`. -/
def utcFormat : List (Directive IntSpec) := [.text 'U', .int ⟨0, 1, true⟩]

/-- The format `"%d-%d-%d+%d:%d:%d"`. -/
def dateScan : List (Directive Unit) :=
  [.int (), .text '-', .int (), .text '-', .int (), .text '+', .int (), .text ':', .int (), .text ':', .int ()]

/-- The format `"U%d"`. -/
def utcScan : List (Directive Unit) := [.text 'U', .int ()]

/-- `subsecondsStr` of `TimestampToString`, cut off by the zero byte. -/
def subsecondsText (ns subsecondDigits : ℤ) : List Char :=
  let subsecondDigits := if 9 < subsecondDigits then 9 else subsecondDigits
  let subsecondDigits := if subsecondDigits < 0 then 0 else subsecondDigits
  let subsecondsLen := subsecondDigits + (subsecondDigits + 2).tdiv 3
  (sprintf subsecondsFormat [ns.tdiv 1000000, (ns.tdiv 1000).tmod 1000, ns.tmod 1000]).take subsecondsLen.toNat

def timestampToString (fuel : ℕ) (hoursOffset : ℤ) (timestamp : Timestamp) (subsecondDigits : ℤ) :
    Option (List Char) := do
  let timestamp : Timestamp := ⟨timestamp.ns - hoursOffset * 3600 * 1000 * 1000 * 1000⟩
  let seconds := timestamp.ns.tdiv 1000000000
  let subseconds := timestamp.ns - seconds * 1000000000
  let ymd ← ymdFromTimestamp fuel timestamp
  let h := (seconds.tdiv 3600).tmod 24
  let m := (seconds.tdiv 60).tmod 60
  let s := seconds.tmod 60
  return sprintf dateFormat [ymd.year, ymd.month, ymd.day, h, m, s] ++
    subsecondsText subseconds subsecondDigits ++ sprintf utcFormat [-hoursOffset]

/-- The text up to the `U`, and the offset behind it. -/
def splitUtc (subsecondsStr : List Char) : List Char × ℤ :=
  match subsecondsStr.findIdx? (· == 'U') with
  | some utcPos => (subsecondsStr.take utcPos, -(sscanf utcScan (subsecondsStr.drop utcPos)).getD 0 0)
  | none => (subsecondsStr, 0)

/-- The two calls of `erase`. -/
def eraseDots (subsecondsStr : List Char) : List Char :=
  let subsecondsStr := if 7 < subsecondsStr.length then subsecondsStr.eraseIdx 7 else subsecondsStr
  if 3 < subsecondsStr.length then subsecondsStr.eraseIdx 3 else subsecondsStr

/-- `resize(9, '0')`. -/
def resizeNine (subsecondsStr : List Char) : List Char := (subsecondsStr.rightpad 9 '0').take 9

def stringToTimestamp (str : List Char) : Option Timestamp := do
  let args := sscanf dateScan str
  -- the pointer behind the first 20 characters is inside the string
  guard (20 ≤ str.length)
  let (subsecondsStr, utcOffset) := splitUtc (str.drop 20)
  let subseconds := atoi (resizeNine (eraseDots subsecondsStr))
  let midnight ← timestampFromYMD ⟨args.getD 0 0, args.getD 1 0, args.getD 2 0⟩
  let t := midnight.ns.tdiv (1000 * 1000 * 1000) + (args.getD 3 0 * 60 + args.getD 4 0) * 60 + args.getD 5 0
  let tpSeconds := t + utcOffset * 3600
  return ⟨tpSeconds * 1000000000 + subseconds⟩

/-- **The parser finds the digits.**  Whatever the number of digits, the erases remove the dots
that the printer has put between them. -/
theorem eraseDots_cut {a b c : List Char} (ha : a.length = 3) (hb : b.length = 3) (hc : c.length = 3) {k : ℕ}
    (hk : 1 ≤ k) (hk9 : k ≤ 9) :
    ∃ rest, ('.' :: (a ++ '.' :: (b ++ '.' :: c))).take (k + (k + 2) / 3) = '.' :: rest ∧
      eraseDots rest = (a ++ (b ++ c)).take k := by
  obtain ⟨a₁, a₂, a₃, rfl⟩ := List.length_eq_three.mp ha
  obtain ⟨b₁, b₂, b₃, rfl⟩ := List.length_eq_three.mp hb
  obtain ⟨c₁, c₂, c₃, rfl⟩ := List.length_eq_three.mp hc
  interval_cases k <;> exact ⟨_, rfl, rfl⟩

/-- The characters of the digits, without the dots. -/
def nineDigits (f : ℕ) : List Char :=
  decimal 3 (f / 1000000) ++ (decimal 3 (f / 1000 % 1000) ++ decimal 3 (f % 1000))

theorem isDigit_of_mem_nineDigits {f : ℕ} {c : Char} (hc : c ∈ nineDigits f) : c.isDigit = true := by
  simp only [nineDigits, List.mem_append] at hc
  rcases hc with hc | hc | hc <;> exact isDigit_of_mem_decimal hc

theorem length_three {n : ℕ} (hn : n < 1000) : (decimal 3 n).length = 3 := length_decimal (by decide) hn

theorem length_nineDigits {f : ℕ} (hf : f < 10 ^ 9) : (nineDigits f).length = 9 := by
  rw [nineDigits, List.length_append, List.length_append, length_three (by omega), length_three (by omega),
    length_three (by omega)]

theorem ofDigitChars_nineDigits {f : ℕ} : Nat.ofDigitChars 10 (nineDigits f) 0 = f := by
  rw [nineDigits, Nat.ofDigitChars_append, Nat.ofDigitChars_append, ofDigitChars_decimal,
    ofDigitChars_eq_add (decimal 3 (f / 1000 % 1000)), ofDigitChars_decimal,
    ofDigitChars_eq_add (decimal 3 (f % 1000)), ofDigitChars_decimal, length_three (by omega),
    length_three (by omega)]
  omega

/-- **The parser reads the digits** as the nanoseconds rounded down. -/
theorem atoi_nineDigits {f k : ℕ} (hf : f < 10 ^ 9) (hk : 1 ≤ k) (hk9 : k ≤ 9) :
    atoi (resizeNine ((nineDigits f).take k)) = ((f / 10 ^ (9 - k) * 10 ^ (9 - k) : ℕ) : ℤ) := by
  have hlen := length_nineDigits hf
  set filled := (nineDigits f).take k ++ List.replicate (9 - k) '0' with hfilled
  have htake : ((nineDigits f).take k).length = k := by
    rw [List.length_take, hlen, min_eq_left hk9]
  have hresize : resizeNine ((nineDigits f).take k) = filled := by
    rw [resizeNine, List.rightpad, htake, List.take_of_length_le]
    simp [htake]
    omega
  have hdigits : ∀ c ∈ filled, c.isDigit = true := by
    intro c hc
    rcases List.mem_append.mp hc with hc | hc
    · exact isDigit_of_mem_nineDigits (List.mem_of_mem_take hc)
    · rw [List.eq_of_mem_replicate hc]
      rfl
  have hne : filled ≠ [] := by
    apply List.ne_nil_of_length_pos
    rw [hfilled, List.length_append, htake]
    omega
  have hvalue := ofDigitChars_cut (fun c hc => isDigit_of_mem_nineDigits (f := f) hc) k
  rw [hlen, ofDigitChars_nineDigits, ← hfilled] at hvalue
  rw [hresize, atoi_digits hdigits hne, hvalue]

/-- **The parser finds the offset** behind the digits. -/
theorem splitUtc_append {s : List Char} (hs : 'U' ∉ s) (n : ℤ) :
    splitUtc (s ++ sprintf utcFormat [n]) = (s, -n) := by
  have hfind : (s ++ sprintf utcFormat [n]).findIdx? (· == 'U') = some s.length := by
    have hnone : s.findIdx? (· == 'U') = none := by
      rw [List.findIdx?_eq_none_iff]
      intro c hc
      rw [beq_eq_false_iff_ne]
      rintro rfl
      exact hs hc
    rw [List.findIdx?_append, hnone]
    simp [sprintf, utcFormat, List.findIdx?_cons]
  have hscan : sscanf utcScan (sprintf utcFormat [n]) = [n] := by
    have hprinted := sscanf_sprintf utcFormat [n] trivial rfl stopsDigits_nil
    rwa [List.append_nil] at hprinted
  simp only [splitUtc, hfind, List.take_left, List.drop_left, hscan]
  rfl

/-- **The first part of the text has 19 characters.** -/
theorem length_dateText {y m d h i s : ℤ} (hy : 0 ≤ y ∧ y < 10 ^ 4) (hm : 0 ≤ m ∧ m < 10 ^ 2)
    (hd : 0 ≤ d ∧ d < 10 ^ 2) (hh : 0 ≤ h ∧ h < 10 ^ 2) (hi : 0 ≤ i ∧ i < 10 ^ 2) (hs : 0 ≤ s ∧ s < 10 ^ 2) :
    (sprintf dateFormat [y, m, d, h, i, s]).length = 19 := by
  have hprint {n : ℤ} {p : ℕ} (hp : 0 < p) (hn : 0 ≤ n ∧ n < 10 ^ p) : (printInt ⟨p, p, false⟩ n).length = p := by
    obtain ⟨n, rfl⟩ := Int.eq_ofNat_of_zero_le hn.1
    rw [printInt_ofNat le_rfl]
    exact length_decimal hp (by exact_mod_cast hn.2)
  simp only [sprintf, dateFormat, List.length_append, List.length_cons, List.length_nil,
    hprint (by decide) hy, hprint (by decide) hm, hprint (by decide) hd, hprint (by decide) hh,
    hprint (by decide) hi, hprint (by decide) hs]

/-- **The second part of the text** are the digits that were asked for. -/
theorem subsecondsText_eq {f k : ℕ} (hk : k ≤ 9) :
    subsecondsText f k = ('.' :: (decimal 3 (f / 1000000) ++
      '.' :: (decimal 3 (f / 1000 % 1000) ++ '.' :: decimal 3 (f % 1000)))).take (k + (k + 2) / 3) := by
  have hlen : ((k : ℤ) + ((k : ℤ) + 2).tdiv 3).toNat = k + (k + 2) / 3 := by
    rw [Int.tdiv_eq_ediv_of_nonneg (by omega)]
    omega
  have hmax : ¬9 < (k : ℤ) := by omega
  have hmin : ¬(k : ℤ) < 0 := by omega
  have ha : (f : ℤ).tdiv 1000000 = (f / 1000000 : ℕ) := rfl
  have hb : ((f : ℤ).tdiv 1000).tmod 1000 = (f / 1000 % 1000 : ℕ) := rfl
  have hc : (f : ℤ).tmod 1000 = (f % 1000 : ℕ) := rfl
  simp only [subsecondsText, if_neg hmax, if_neg hmin, hlen, ha, hb, hc, sprintf, subsecondsFormat,
    printInt_ofNat le_rfl, List.append_nil]

/-- What the printer writes, for the time in the time zone. -/
theorem timestampToString_eq {fuel : ℕ} (hfuel : 12 ≤ fuel) {h t u : ℤ}
    (hu : t - h * 3600 * 1000 * 1000 * 1000 = u) (h0 : 0 ≤ u) (hmax : u < 2 ^ 63) (k : ℤ) :
    ∃ d : Date, epoch ≤ d ∧ d ≤ lastDate ∧ d.dayNumber = epoch.dayNumber + u / dayNs ∧
      timestampToString fuel h ⟨t⟩ k =
        some (sprintf dateFormat [d.year, d.month, d.day, u / 1000000000 / 3600 % 24, u / 1000000000 / 60 % 60,
          u / 1000000000 % 60] ++ subsecondsText (u % 1000000000) k ++ sprintf utcFormat [-h]) := by
  obtain ⟨d, hrun, hfirst, hlast, hnum⟩ := ymdFromTimestamp_spec hfuel h0 hmax
  refine ⟨d, hfirst, hlast, hnum, ?_⟩
  have hS : 0 ≤ u / 1000000000 := by omega
  have hrest : u - u / 1000000000 * 1000000000 = u % 1000000000 := by omega
  have hsec : u.tdiv 1000000000 = u / 1000000000 := Int.tdiv_eq_ediv_of_nonneg h0
  have hh : (u / 1000000000).tdiv 3600 = u / 1000000000 / 3600 := Int.tdiv_eq_ediv_of_nonneg hS
  have hi : (u / 1000000000).tdiv 60 = u / 1000000000 / 60 := Int.tdiv_eq_ediv_of_nonneg hS
  simp only [timestampToString, hu, hsec, hrest, hrun, hh, hi, Option.bind_eq_bind, Option.bind_some,
    Option.pure_def, YMD.ofDate, Int.tmod_eq_emod_of_nonneg hS,
    Int.tmod_eq_emod_of_nonneg (Int.ediv_nonneg hS (by decide : (0 : ℤ) ≤ 3600)),
    Int.tmod_eq_emod_of_nonneg (Int.ediv_nonneg hS (by decide : (0 : ℤ) ≤ 60))]

/-- What the parser returns, by what it finds in the text. -/
theorem stringToTimestamp_eq {str sub : List Char} {y m d h i s utc : ℤ} {midnight : Timestamp}
    (hscan : sscanf dateScan str = [y, m, d, h, i, s]) (hlen : 20 ≤ str.length)
    (hsplit : splitUtc (str.drop 20) = (sub, utc)) (hmid : timestampFromYMD ⟨y, m, d⟩ = some midnight) :
    stringToTimestamp str =
      some ⟨(midnight.ns.tdiv (1000 * 1000 * 1000) + (h * 60 + i) * 60 + s + utc * 3600) * 1000000000 +
        atoi (resizeNine (eraseDots sub))⟩ := by
  simp [stringToTimestamp, hscan, guard, hlen, hsplit, hmid]

/-- Days, hours, minutes and seconds make up the time. -/
theorem assembled_eq {h t u : ℤ} (hu : t - h * 3600 * 1000 * 1000 * 1000 = u) (h0 : 0 ≤ u) {k : ℕ} (hk : k ≤ 9) :
    ((u / dayNs * dayNs).tdiv (1000 * 1000 * 1000) + (u / 1000000000 / 3600 % 24 * 60 + u / 1000000000 / 60 % 60)
      * 60 + u / 1000000000 % 60 + h * 3600) * 1000000000 +
        (((u % 1000000000).toNat / 10 ^ (9 - k) * 10 ^ (9 - k) : ℕ) : ℤ) =
      t / 10 ^ (9 - k) * 10 ^ (9 - k) := by
  have hseconds : (u / dayNs * dayNs).tdiv (1000 * 1000 * 1000) +
      (u / 1000000000 / 3600 % 24 * 60 + u / 1000000000 / 60 % 60) * 60 + u / 1000000000 % 60 =
        u / 1000000000 := by
    rw [Int.tdiv_eq_ediv_of_nonneg (by unfold dayNs; omega), dayNs]
    omega
  rw [hseconds]
  obtain ⟨f, hf⟩ := Int.eq_ofNat_of_zero_le (Int.emod_nonneg u (show (1000000000 : ℤ) ≠ 0 by decide))
  rw [hf, Int.toNat_natCast]
  interval_cases k <;> norm_num <;> omega

theorem drop_twenty {date : List Char} (hdate : date.length = 19) (c : Char) (s : List Char) :
    (date ++ c :: s).drop 20 = s := by
  rw [List.append_cons]
  exact List.drop_left' (by rw [List.length_append, hdate]; rfl)

/-- What the parser finds behind the 20th character, for every number of digits. -/
theorem splitUtc_text {f k : ℕ} (hf : f < 10 ^ 9) (h : ℤ)
    (hk : 1 ≤ k ∧ k ≤ 9 ∨ k = 0 ∧ h = 0) :
    ∃ (c : Char) (s sub : List Char), subsecondsText f k ++ sprintf utcFormat [-h] = c :: s ∧
      c.isDigit = false ∧ splitUtc s = (sub, h) ∧
      atoi (resizeNine (eraseDots sub)) = ((f / 10 ^ (9 - k) * 10 ^ (9 - k) : ℕ) : ℤ) := by
  rcases hk with ⟨hk1, hk9⟩ | ⟨rfl, rfl⟩
  · obtain ⟨rest, hcut, herase⟩ := eraseDots_cut (length_three (n := f / 1000000) (by omega))
      (length_three (n := f / 1000 % 1000) (by omega)) (length_three (n := f % 1000) (by omega)) hk1 hk9
    have hno : 'U' ∉ rest := by
      intro hmem
      have hwhole := List.mem_of_mem_take (hcut ▸ List.mem_cons_of_mem '.' hmem)
      simp only [List.mem_cons, List.mem_append] at hwhole
      obtain hdot | hdigit | hdot | hdigit | hdot | hdigit := hwhole
      · cases hdot
      · cases isDigit_of_mem_decimal hdigit
      · cases hdot
      · cases isDigit_of_mem_decimal hdigit
      · cases hdot
      · cases isDigit_of_mem_decimal hdigit
    refine ⟨'.', rest ++ sprintf utcFormat [-h], rest, ?_, rfl, ?_, ?_⟩
    · rw [subsecondsText_eq hk9, hcut, List.cons_append]
    · rw [splitUtc_append hno, neg_neg]
    · rw [herase]
      exact atoi_nineDigits hf hk1 hk9
  · -- the `U` is skipped in the place of the dot, and the sign behind it is read as that of zero
    refine ⟨'U', ['+', '0'], ['+', '0'], ?_, rfl, rfl, ?_⟩
    · rw [subsecondsText_eq (by decide)]
      rfl
    · rw [Nat.div_eq_of_lt hf]
      rfl

/-- **Text round trip.**  The text of a timestamp, with the digits that were asked for, has the
timestamp rounded down to its last digit. -/
theorem stringToTimestamp_timestampToString {fuel : ℕ} (hfuel : 12 ≤ fuel) {h t : ℤ} {k : ℕ}
    (h0 : 0 ≤ t - h * 3600 * 10 ^ 9) (hmax : t - h * 3600 * 10 ^ 9 < 2 ^ 63)
    (hk : 1 ≤ k ∧ k ≤ 9 ∨ k = 0 ∧ h = 0) :
    ∃ str, timestampToString fuel h ⟨t⟩ k = some str ∧
      stringToTimestamp str = some ⟨t / 10 ^ (9 - k) * 10 ^ (9 - k)⟩ := by
  obtain ⟨u, hu⟩ : ∃ u, t - h * 3600 * 1000 * 1000 * 1000 = u := ⟨_, rfl⟩
  have hpos : 0 ≤ u := by omega
  obtain ⟨d, hfirst, hlast, hnum, hprint⟩ := timestampToString_eq hfuel hu hpos (by omega) k
  have hyear := And.intro (Date.year_le_of_le hfirst) (Date.year_le_of_le hlast)
  have hmonth := And.intro d.one_le_month d.month_le
  have hday := And.intro d.one_le_day (d.day_le.trans (monthLength_le d.year d.month))
  obtain ⟨args, hargs⟩ : ∃ args, args = [d.year, d.month, d.day, u / 1000000000 / 3600 % 24,
    u / 1000000000 / 60 % 60, u / 1000000000 % 60] := ⟨_, rfl⟩
  have hdate : (sprintf dateFormat args).length = 19 := by
    rw [show epoch.year = 1970 from rfl, show lastDate.year = 2262 from rfl] at hyear
    rw [hargs]
    exact length_dateText (by omega) (by omega) (by omega) (by omega) (by omega) (by omega)
  obtain ⟨f, hf⟩ := Int.eq_ofNat_of_zero_le (Int.emod_nonneg u (show (1000000000 : ℤ) ≠ 0 by decide))
  obtain ⟨c, s, sub, htext, hc, hsplit, hatoi⟩ := splitUtc_text (show f < 10 ^ 9 by omega) h hk
  rw [hf, List.append_assoc, htext, ← hargs] at hprint
  refine ⟨_, hprint, ?_⟩
  have hscan : sscanf dateScan (sprintf dateFormat args ++ c :: s) = args :=
    sscanf_sprintf dateFormat args ⟨rfl, rfl, rfl, rfl, rfl, trivial⟩ (hargs ▸ rfl) (stopsDigits_cons hc s)
  have hlen : 20 ≤ (sprintf dateFormat args ++ c :: s).length := by
    rw [List.length_append, hdate, List.length_cons]
    omega
  have hutc : splitUtc ((sprintf dateFormat args ++ c :: s).drop 20) = (sub, h) := by
    rw [drop_twenty hdate, hsplit]
  rw [stringToTimestamp_eq (hscan.trans hargs) hlen hutc (timestampFromYMD_spec (one_le_year hfirst)), hatoi,
    hnum, add_sub_cancel_left, ← assembled_eq hu hpos (show k ≤ 9 by omega), hf, Int.toNat_natCast]

/-- A negative offset, cut after five digits. -/
theorem stringToTimestamp_timestampToString_five :
    (∃ str, timestampToString 12 (-5) ⟨951825601123456789⟩ 5 = some str ∧
      stringToTimestamp str = some ⟨951825601123456789 / 10 ^ (9 - 5) * 10 ^ (9 - 5)⟩) ∧
    timestampToString 12 (-5) ⟨951825601123456789⟩ 5 = some "2000-02-29+17:00:01.123.45U+5".toList := by
  refine ⟨?_, by decide⟩
  exact stringToTimestamp_timestampToString le_rfl (by decide) (by decide) (.inl (by decide))

end Time
end ICon7
