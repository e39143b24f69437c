import Mathlib.Tactic.IntervalCases
import Mathlib.Tactic.Zify
import TableScan.Calendar.Reader
import TableScan.Proofs.Numerals

/-!
Dates and days. Years are counted from March, so that the leap day is the last of its year; the days
of a date and the date of a day are then inverse to each other. What is written for a date is read
as that date.
-/

namespace TableScan

namespace Date

/-! Years that begin with March, so that the leap day is their last. -/

def daysInYear (year : ℤ) : ℤ := if isLeap (year + 1) then 366 else 365

def daysBefore (year : ℕ) : ℤ := (365 * year + year / 4 - year / 100 + year / 400 : ℕ)

def yearOfEra (day : ℤ) : ℤ := (day - day / 1460 + day / 36524 - day / 146096) / 365

def marchYear (d : Date) : ℤ := if d.month ≤ 2 then d.year - 1 else d.year

def dayOfYear (d : Date) : ℤ := (153 * ((d.month + 9) % 12) + 2) / 5 + d.day - 1

def monthFromMarch (m : ℤ) : ℤ := if m < 10 then m + 3 else m - 9

def ofMarch (year day : ℤ) : Date :=
  let m := (5 * day + 2) / 153
  ⟨year + (if monthFromMarch m ≤ 2 then 1 else 0), (monthFromMarch m).toNat,
    (day - (153 * m + 2) / 5 + 1).toNat⟩

structure Valid (d : Date) : Prop where
  month_pos : 1 ≤ d.month
  month_le : d.month ≤ 12
  day_pos : 1 ≤ d.day
  day_le : d.day ≤ daysInMonth d.year d.month

/-- Whether there is such a date, in a year that dates are kept for. -/
structure Reached (d : Date) : Prop extends Valid d where
  in_range : inRange d.year = true

theorem ofParts?_eq_some {year : ℤ} {month day : ℕ} {d : Date} :
    ofParts? year month day = some d ↔ d = ⟨year, month, day⟩ ∧ d.Reached := by
  rw [ofParts?]
  split
  · rename_i h
    constructor
    · intro hd
      obtain rfl := Option.some.inj hd
      exact ⟨rfl, ⟨h.2.1, h.2.2.1, h.2.2.2.1, h.2.2.2.2⟩, h.1⟩
    · rintro ⟨rfl, -⟩
      rfl
  · rename_i h
    refine iff_of_false nofun ?_
    rintro ⟨rfl, hd⟩
    exact h ⟨hd.in_range, hd.month_pos, hd.month_le, hd.day_pos, hd.day_le⟩

theorem inRange_iff {year : ℤ} : inRange year = true ↔ -262143 ≤ year ∧ year ≤ 262142 := by
  simp [inRange]

theorem isLeap_iff (year : ℤ) :
    isLeap year = true ↔ year % 4 = 0 ∧ (year % 100 ≠ 0 ∨ year % 400 = 0) := by
  simp [isLeap]

theorem daysInYear_bounds (year : ℤ) : 365 ≤ daysInYear year ∧ daysInYear year ≤ 366 := by
  rw [daysInYear]
  split <;> omega

theorem daysBefore_eq {year : ℕ} (h : year < 400) :
    daysBefore year = 365 * year + year / 4 - year / 100 := by
  rw [daysBefore]
  omega

theorem daysBefore_succ {year : ℕ} (era : ℤ) (h : year < 400) :
    daysBefore (year + 1) = daysBefore year + daysInYear (year + era * 400) := by
  rw [daysInYear]
  simp only [isLeap_iff, daysBefore]
  split <;> omega

theorem daysBefore_le {year : ℕ} (h : year ≤ 400) : daysBefore year ≤ 146097 := by
  rw [daysBefore]
  omega

/-! The year of an era that a day is in. -/

theorem yearOfEra_mono {i j : ℤ} (h : i ≤ j) : yearOfEra i ≤ yearOfEra j := by
  have hquarter (i : ℤ) : i / 146096 = i / 36524 / 4 := by omega
  have hcentury : i / 36524 ≤ j / 36524 := Int.ediv_le_ediv (by decide) h
  have hfirst : i - i / 1460 ≤ j - j / 1460 := by omega
  have hsecond : i / 36524 - i / 146096 ≤ j / 36524 - j / 146096 := by
    rw [hquarter, hquarter]
    omega
  exact Int.ediv_le_ediv (by decide) (by omega)

theorem yearOfEra_bounds : ∀ year < 400,
    yearOfEra (daysBefore year) = year ∧ yearOfEra (daysBefore (year + 1) - 1) = year := by
  decide +kernel

theorem yearOfEra_eq {year : ℕ} (day : ℤ) (h : year < 400) (hle : daysBefore year ≤ day)
    (hlt : day < daysBefore (year + 1)) : yearOfEra day = year := by
  obtain ⟨hfirst, hlast⟩ := yearOfEra_bounds year h
  have hlow := yearOfEra_mono hle
  have hhigh := yearOfEra_mono (show day ≤ daysBefore (year + 1) - 1 by omega)
  omega

theorem exists_year {n : ℕ} {day : ℤ} (h : 0 ≤ day) (hlt : day < daysBefore n) :
    ∃ year < n, daysBefore year ≤ day ∧ day < daysBefore (year + 1) := by
  induction n with
  | zero => exact absurd hlt (not_lt.2 h)
  | succ n ih =>
    by_cases hn : day < daysBefore n
    · obtain ⟨year, hyear, hday⟩ := ih hn
      exact ⟨year, by omega, hday⟩
    · exact ⟨n, by omega, not_lt.1 hn, hlt⟩

/-! Days of a year as months and their days. -/

theorem month_bounds {day : ℤ} (h : 0 ≤ day) (hlt : day < 366) :
    0 ≤ (5 * day + 2) / 153 ∧ (5 * day + 2) / 153 < 12 := by
  omega

theorem monthFromMarch_bounds {m : ℤ} (h : 0 ≤ m) (hlt : m < 12) :
    1 ≤ monthFromMarch m ∧ monthFromMarch m ≤ 12 ∧
    (monthFromMarch m + 9) % 12 = m := by
  rw [monthFromMarch]
  split <;> omega

theorem marchYear_ofMarch {year day : ℤ} (h : 0 ≤ day) (hlt : day < 366) :
    (ofMarch year day).marchYear = year := by
  obtain ⟨hlow, hhigh⟩ := month_bounds h hlt
  have hmonth := monthFromMarch_bounds hlow hhigh
  simp only [marchYear, ofMarch]
  split_ifs <;> omega

theorem dayOfYear_ofMarch {year day : ℤ} (h : 0 ≤ day) (hlt : day < 366) :
    (ofMarch year day).dayOfYear = day := by
  obtain ⟨hlow, hhigh⟩ := month_bounds h hlt
  obtain ⟨hfirst, -, hback⟩ := monthFromMarch_bounds hlow hhigh
  have hmonth : ((monthFromMarch ((5 * day + 2) / 153)).toNat : ℤ) =
      monthFromMarch ((5 * day + 2) / 153) :=
    Int.toNat_of_nonneg (by omega)
  simp only [dayOfYear, ofMarch, hmonth, hback]
  omega

theorem daysInMonth_eq (year : ℤ) {m : ℤ} (h : 0 ≤ m) (hlt : m < 12) :
    (daysInMonth (year + if monthFromMarch m ≤ 2 then 1 else 0) (monthFromMarch m).toNat : ℤ) =
      (if m = 11 then daysInYear year else (153 * (m + 1) + 2) / 5) - (153 * m + 2) / 5 := by
  interval_cases m <;> simp [monthFromMarch, daysInMonth, daysInYear]
  split <;> rfl

theorem valid_ofMarch {year day : ℤ} (h : 0 ≤ day) (hlt : day < daysInYear year) :
    (ofMarch year day).Valid := by
  obtain ⟨hlow, hhigh⟩ := month_bounds h (hlt.trans_le (daysInYear_bounds year).2)
  have hmonth := monthFromMarch_bounds hlow hhigh
  have hlength := daysInMonth_eq year hlow hhigh
  obtain ⟨m, hm⟩ : ∃ m, (5 * day + 2) / 153 = m := ⟨_, rfl⟩
  have hm' : 153 * m ≤ 5 * day + 2 ∧ 5 * day + 2 < 153 * m + 153 := by omega
  rw [hm] at hmonth hlength
  constructor <;> simp only [ofMarch, hm]
  · omega
  · omega
  · omega
  · zify
    rw [hlength]
    split <;> omega

theorem ofMarch_of_valid {d : Date} (h : d.Valid) :
    ofMarch d.marchYear d.dayOfYear = d ∧ 0 ≤ d.dayOfYear ∧
    d.dayOfYear < daysInYear d.marchYear := by
  obtain ⟨year, month, day⟩ := d
  obtain ⟨hfirst, hlast, hday, hday'⟩ := h
  dsimp only at hfirst hlast hday hday'
  obtain ⟨m, hlow, hhigh, hm, hmonth⟩ : ∃ m : ℤ, 0 ≤ m ∧ m < 12 ∧ ((month : ℤ) + 9) % 12 = m ∧
      monthFromMarch m = month :=
    ⟨(month + 9) % 12, by omega, by omega, rfl, by rw [monthFromMarch]; split <;> omega⟩
  obtain ⟨y, hyear⟩ : ∃ y, marchYear ⟨year, month, day⟩ = y := ⟨_, rfl⟩
  have hyear' : year = y + if (month : ℤ) ≤ 2 then 1 else 0 := by
    simp only [← hyear, marchYear]
    split_ifs <;> omega
  have hbounds := daysInYear_bounds y
  have hlength := daysInMonth_eq y hlow hhigh
  rw [hmonth, ← hyear', Int.toNat_natCast] at hlength
  have hdayOfYear : dayOfYear ⟨year, month, day⟩ = (153 * m + 2) / 5 + day - 1 := by
    rw [dayOfYear, hm]
  have hdiv : (5 * ((153 * m + 2) / 5 + day - 1) + 2) / 153 = m := by
    split at hlength <;> omega
  rw [hdayOfYear, hyear]
  refine ⟨?_, by omega, ?_⟩
  · simp only [ofMarch, hdiv, hmonth, ← hyear', Int.toNat_natCast]
    congr 1
    omega
  · split at hlength <;> omega

/-! Days of the calendar as days of an era. -/

theorem toDays_eq {d : Date} {era : ℤ} {year : ℕ} (h : year < 400)
    (hyear : d.marchYear = year + era * 400) :
    d.toDays = era * 146097 + (daysBefore year + d.dayOfYear) - 719468 := by
  have hera : Int.fdiv (year + era * 400) 400 = era := by
    rw [Int.fdiv_eq_ediv_of_nonneg _ (by decide)]
    omega
  rw [marchYear] at hyear
  simp only [toDays, hyear, hera, add_sub_cancel_right, daysBefore_eq h, dayOfYear,
    mul_comm (365 : ℤ)]

theorem ofDays_era {era day : ℤ} {year : ℕ} (h : year < 400) (hle : 0 ≤ day)
    (hlt : day < daysInYear (year + era * 400)) :
    ofDays (era * 146097 + (daysBefore year + day) - 719468) = ofMarch (year + era * 400) day := by
  have hnext := daysBefore_succ era h
  have hlast := daysBefore_le (show year + 1 ≤ 400 by omega)
  have hfirst : 0 ≤ daysBefore year := Int.natCast_nonneg _
  have hera : Int.fdiv (era * 146097 + (daysBefore year + day)) 146097 = era := by
    rw [Int.fdiv_eq_ediv_of_nonneg _ (by decide)]
    omega
  have hyear := yearOfEra_eq (daysBefore year + day) h (by omega) (by omega)
  rw [yearOfEra] at hyear
  simp only [ofDays, ofMarch, sub_add_cancel, hera, add_sub_cancel_left, hyear, ← daysBefore_eq h]
  rfl

theorem ofDays_toDays {d : Date} (h : d.Valid) : ofDays d.toDays = d := by
  obtain ⟨hd, hle, hlt⟩ := ofMarch_of_valid h
  obtain ⟨era, year, hyear, hlt'⟩ : ∃ (era : ℤ) (year : ℕ), d.marchYear = year + era * 400 ∧
      year < 400 :=
    ⟨d.marchYear / 400, (d.marchYear % 400).toNat, by omega, by omega⟩
  rw [toDays_eq hlt' hyear, ofDays_era hlt' hle (hyear ▸ hlt), ← hyear, hd]

theorem toDays_ofDays (n : ℤ) : (ofDays n).Valid ∧ (ofDays n).toDays = n := by
  obtain ⟨era, day, hn, hle, hlt⟩ : ∃ era day : ℤ, n = era * 146097 + day - 719468 ∧ 0 ≤ day ∧
      day < 146097 :=
    ⟨(n + 719468) / 146097, (n + 719468) % 146097, by omega, by omega, by omega⟩
  obtain ⟨year, hyear, hfirst, hlast⟩ := exists_year (n := 400) hle hlt
  obtain ⟨dayOfYear, rfl⟩ : ∃ d, day = daysBefore year + d := ⟨day - daysBefore year, by omega⟩
  have hlast' := daysBefore_succ era hyear
  have hlength := daysInYear_bounds (year + era * 400)
  have hday : 0 ≤ dayOfYear ∧ dayOfYear < daysInYear (year + era * 400) := by omega
  rw [hn, ofDays_era hyear hday.1 hday.2]
  refine ⟨valid_ofMarch hday.1 hday.2, ?_⟩
  rw [toDays_eq hyear (marchYear_ofMarch hday.1 (by omega)), dayOfYear_ofMarch hday.1 (by omega)]

end Date

namespace Text

variable {n width : ℕ} {cs : List Char} {c : Char}

theorem toList_padded (width n : ℕ) : (padded width n).toList =
    List.replicate (width - (Nat.toDigits 10 n).length) '0' ++ Nat.toDigits 10 n :=
  String.toList_ofList

theorem isDigit_of_mem_padded (h : c ∈ (padded width n).toList) : isDigit c = true := by
  rw [toList_padded, List.mem_append] at h
  rcases h with h | h
  · rw [List.eq_of_mem_replicate h]
    rfl
  · exact isDigit_of_mem_toDigits h

theorem le_length_padded (width n : ℕ) : width ≤ (padded width n).toList.length := by
  rw [toList_padded, List.length_append, List.length_replicate]
  omega

theorem natural?_padded (width n : ℕ) : natural? (padded width n).toList = some n := by
  refine natural?_eq_some_iff.2 ⟨?_, fun c hc => isDigit_of_mem_padded hc, ?_⟩
  · simp [toList_padded, Nat.toDigits_ne_nil]
  · rw [toList_padded, digitsValue_zeros, digitsValue_toDigits]

theorem unsigned?_of_natural? (h : natural? cs = some n) : unsigned? cs = some n := by
  obtain ⟨-, hdigits, -⟩ := natural?_eq_some_iff.1 h
  unfold unsigned?
  split
  · exact absurd (hdigits '+' (by simp)) (by decide)
  · exact h

theorem toList_padded_succ (h : 1 ≤ width) (n : ℕ) :
    (padded (width + 1) n).toList = (padded width (n / 10)).toList ++ [Nat.digitChar (n % 10)] := by
  obtain ⟨k, rfl⟩ := Nat.exists_eq_add_of_le' h
  rw [toList_padded, toList_padded]
  by_cases hn : n < 10
  · have hzero : Nat.toDigits 10 0 = ['0'] := rfl
    rw [Nat.div_eq_of_lt hn, Nat.mod_eq_of_lt hn, Nat.toDigits_of_lt_base hn, hzero,
      ← List.replicate_succ']
    rfl
  · rw [Nat.toDigits_eq_if (n := n) (by decide), if_neg hn, List.length_append, ← List.append_assoc]
    simp

theorem toList_padded_one (h : n < 10) : (padded 1 n).toList = [Nat.digitChar n] := by
  rw [toList_padded, Nat.toDigits_of_lt_base h]
  rfl

theorem toList_padded_two (h : n < 100) :
    (padded 2 n).toList = [Nat.digitChar (n / 10), Nat.digitChar (n % 10)] := by
  rw [toList_padded_succ le_rfl, toList_padded_one (by omega)]
  rfl

theorem toList_padded_four (h : n < 10000) : (padded 4 n).toList = [Nat.digitChar (n / 1000),
    Nat.digitChar (n / 100 % 10), Nat.digitChar (n / 10 % 10), Nat.digitChar (n % 10)] := by
  have hhundreds : n / 10 / 10 = n / 100 := Nat.div_div_eq_div_mul n 10 10
  have hthousands : n / 100 / 10 = n / 1000 := Nat.div_div_eq_div_mul n 100 10
  rw [toList_padded_succ (by decide), toList_padded_succ (by decide), hhundreds,
    toList_padded_succ le_rfl, hthousands, toList_padded_one (by omega)]
  rfl

theorem length_le_utf8 (s : String) : s.toList.length ≤ (utf8 s).length := by
  rw [utf8]
  induction s.toList with
  | nil => exact le_rfl
  | cons c cs ih =>
    have := String.length_utf8EncodeChar c
    have := c.utf8Size_pos
    rw [List.flatMap_cons, List.length_append, List.length_cons]
    omega

def digitByte (d : ℕ) : UInt8 := (48 + d).toUInt8

theorem utf8EncodeChar_digitChar :
    ∀ d < 10, String.utf8EncodeChar (Nat.digitChar d) = [digitByte d] := by decide

end Text

namespace Calendar

open Text

def byteDigit? (b : UInt8) : Option ℕ := if 48 ≤ b ∧ b ≤ 57 then some (b.toNat - 48) else none

theorem byteDigit?_digitByte : ∀ d < 10, byteDigit? (digitByte d) = some d := by decide

theorem digitsFrom_length (bytes : List UInt8) :
    digitsFrom bytes 0 bytes.length = bytes.map byteDigit? := by
  refine List.ext_getElem (by simp [digitsFrom]) fun i hi hi' => ?_
  simp only [List.length_map] at hi'
  simp [digitsFrom, digitAt, byteDigit?, hi']

theorem shortDate?_digits {a b c d m n x y : ℕ} (ha : a < 10) (hb : b < 10) (hc : c < 10)
    (hd : d < 10) (hm : m < 10) (hn : n < 10) (hx : x < 10) (hy : y < 10) :
    shortDate? [digitByte a, digitByte b, digitByte c, digitByte d, 45, digitByte m, digitByte n,
        45, digitByte x, digitByte y] =
      Date.ofParts? (1000 * a + 100 * b + 10 * c + d : ℕ) (10 * m + n) (10 * x + y) := by
  have hdash : byteDigit? 45 = none := rfl
  have hfrom := digitsFrom_length [digitByte a, digitByte b, digitByte c, digitByte d, 45,
    digitByte m, digitByte n, 45, digitByte x, digitByte y]
  simp only [List.length_cons, List.length_nil, List.map_cons, List.map_nil, byteDigit?_digitByte,
    *] at hfrom
  rw [shortDate?, hfrom]
  rfl

/-! Dates written and read. -/

theorem toList_text {d : Date} (h : 0 ≤ d.year ∧ d.year ≤ 9999) : d.text.toList =
    (padded 4 d.year.toNat).toList ++ '-' ::
      ((padded 2 d.month).toList ++ '-' :: (padded 2 d.day).toList) := by
  rw [Date.text, if_pos h]
  simp

theorem toList_text_signed {d : Date} (h : ¬(0 ≤ d.year ∧ d.year ≤ 9999)) :
    d.text.toList = (if d.year < 0 then '-' else '+') :: ((padded 4 d.year.natAbs).toList ++
      '-' :: ((padded 2 d.month).toList ++ '-' :: (padded 2 d.day).toList)) := by
  rw [Date.text, if_neg h]
  split <;> simp

theorem shortDate?_text {d : Date} (h : d.Valid) (hyear : 0 ≤ d.year ∧ d.year ≤ 9999) :
    (utf8 d.text).length = 10 ∧ shortDate? (utf8 d.text) = Date.ofParts? d.year d.month d.day := by
  have hmonth := h.month_le
  have hday : d.day ≤ 31 := h.day_le.trans (by rw [Date.daysInMonth]; split_ifs <;> omega)
  have hdash : String.utf8EncodeChar '-' = [45] := rfl
  have hlt (n : ℕ) : n % 10 < 10 := Nat.mod_lt n (by decide)
  have hbytes (n : ℕ) (h : n < 10) := utf8EncodeChar_digitChar n h
  rw [utf8, toList_text hyear, toList_padded_four (by omega), toList_padded_two (by omega),
    toList_padded_two (by omega)]
  simp only [List.cons_append, List.nil_append, List.flatMap_cons, List.flatMap_nil, hdash]
  rw [hbytes (d.year.toNat / 1000) (by omega), hbytes _ (hlt _), hbytes _ (hlt _), hbytes _ (hlt _),
    hbytes (d.month / 10) (by omega), hbytes _ (hlt _), hbytes (d.day / 10) (by omega),
    hbytes _ (hlt _)]
  refine ⟨rfl, ?_⟩
  simp only [List.cons_append, List.nil_append]
  rw [shortDate?_digits (by omega) (hlt _) (hlt _) (hlt _) (by omega) (hlt _) (by omega) (hlt _)]
  congr 1 <;> omega

theorem signedDate?_parts (negative : Bool) {cs ms ds : List Char} {year month day : ℕ}
    (hyear : natural? cs = some year) (hlength : 4 ≤ cs.length) (hle : year < 2 ^ 31)
    (hmonth : natural? ms = some month) (hday : natural? ds = some day) :
    signedDate? negative (cs ++ '-' :: (ms ++ '-' :: ds)) =
      Date.ofParts? (if negative then -(year : ℤ) else year) month day := by
  have hdash {cs : List Char} {n : ℕ} (h : natural? cs = some n) (rest : List Char) :
      (cs ++ '-' :: rest).takeWhile (· ≠ '-') = cs := by
    obtain ⟨-, hdigits, -⟩ := natural?_eq_some_iff.1 h
    rw [List.takeWhile_append_of_pos, List.takeWhile_cons_of_neg (by simp), List.append_nil]
    intro c hc
    refine decide_eq_true fun heq => ?_
    have := hdigits c hc
    rw [heq] at this
    exact absurd this (by decide)
  have hdrop (cs rest : List Char) : (cs ++ '-' :: rest).drop (cs.length + 1) = rest := by
    rw [← List.drop_drop, List.drop_left]
    rfl
  rw [signedDate?]
  simp only [hdash hyear, hdrop, hdash hmonth, hyear, unsigned?_of_natural? hmonth,
    unsigned?_of_natural? hday]
  rw [if_neg (by simp; omega)]
  simp only [Option.bind_eq_bind, Option.bind_some]
  rw [if_neg (by split <;> simp <;> omega), if_neg (by simp)]

theorem date?_unsigned {s : String} {c : Char} {cs : List Char} (h : s.toList = c :: cs)
    (hc : isDigit c = true) (hlength : (utf8 s).length ≤ 10) : date? s = shortDate? (utf8 s) := by
  rw [date?, h]
  split
  · rename_i heq
    obtain ⟨rfl, -⟩ := List.cons.inj heq
    cases hc
  · rename_i heq
    obtain ⟨rfl, -⟩ := List.cons.inj heq
    cases hc
  · exact if_pos hlength

theorem date?_text {d : Date} (h : d.Reached) : date? d.text = some d := by
  have hparts : Date.ofParts? d.year d.month d.day = some d := Date.ofParts?_eq_some.2 ⟨rfl, h⟩
  have hrange := Date.inRange_iff.1 h.in_range
  by_cases hyear : 0 ≤ d.year ∧ d.year ≤ 9999
  · obtain ⟨hlength, hdate⟩ := shortDate?_text h.toValid hyear
    have hne : (padded 4 d.year.toNat).toList ≠ [] :=
      List.ne_nil_of_length_pos ((by decide : 0 < 4).trans_le (le_length_padded 4 _))
    obtain ⟨c, cs, hcs⟩ := List.exists_cons_of_ne_nil hne
    have hlist := toList_text hyear
    rw [hcs, List.cons_append] at hlist
    rw [date?_unsigned hlist (isDigit_of_mem_padded (hcs ▸ List.mem_cons_self)) hlength.le,
      hdate, hparts]
  · have hlist := toList_text_signed hyear
    have hsigned (negative : Bool) := signedDate?_parts negative (natural?_padded 4 d.year.natAbs)
      (le_length_padded 4 _) (by omega) (natural?_padded 2 d.month) (natural?_padded 2 d.day)
    by_cases hnegative : d.year < 0
    · rw [if_pos hnegative] at hlist
      rw [date?, hlist]
      change signedDate? true _ = _
      rw [hsigned, ← hparts, if_pos rfl, Int.natCast_natAbs, abs_of_neg hnegative, neg_neg]
    · rw [if_neg hnegative] at hlist
      rw [date?, hlist]
      change signedDate? false _ = _
      rw [hsigned, ← hparts, if_neg (by decide), Int.natCast_natAbs,
        abs_of_nonneg (not_lt.1 hnegative)]

theorem timestamp_signed {s : String} {c : Char} {cs : List Char} (hs : s.toList = c :: cs)
    (hc : c = '-' ∨ c = '+') (hlength : 10 < (utf8 s).length) :
    (timestamp 0 s).toOption = none := by
  have hfirst : digitAt (utf8 s) 0 = none := by
    rw [utf8, hs]
    rcases hc with rfl | rfl <;> rfl
  have hlong : longDate? (utf8 s) = none := by
    have hfrom : digitsFrom (utf8 s) 0 10 = digitAt (utf8 s) 0 :: (digitsFrom (utf8 s) 0 10).tail :=
      rfl
    rw [longDate?, hfrom, hfirst]
  have hge : ¬(utf8 s).length < 10 := by omega
  rw [timestamp]
  simp only [hge, if_false, hlong]
  rfl

theorem milliseconds?_text {d : Date} (h : d.Reached) :
    milliseconds? d.text = if 0 ≤ d.year ∧ d.year ≤ 9999 then some (d.toDays * 86400000)
      else none := by
  split
  · rename_i hyear
    rw [milliseconds?, if_pos (shortDate?_text h.toValid hyear).1.le, date?_text h]
    rfl
  · rename_i hyear
    have hlist := toList_text_signed hyear
    have hlength := length_le_utf8 d.text
    have hyears := le_length_padded 4 d.year.natAbs
    have hmonths := le_length_padded 2 d.month
    have hdays := le_length_padded 2 d.day
    rw [hlist] at hlength
    simp only [List.length_cons, List.length_append] at hlength
    rw [milliseconds?, if_neg (by omega), timestamp_signed hlist (by split <;> simp) (by omega)]
    rfl

/-! What is read as a date is one. -/

theorem reached_of_ofParts? {year : ℤ} {month day : ℕ} {d : Date}
    (h : Date.ofParts? year month day = some d) :
    d.Reached :=
  (Date.ofParts?_eq_some.1 h).2

theorem reached_of_shortDate? {bytes : List UInt8} {d : Date} (h : shortDate? bytes = some d) :
    d.Reached := by
  unfold shortDate? at h
  repeat' split at h
  all_goals first | exact reached_of_ofParts? h | cases h

theorem reached_of_signedDate? {negative : Bool} {cs : List Char} {d : Date}
    (h : signedDate? negative cs = some d) :
    d.Reached := by
  have unguarded {c : Prop} [Decidable c] {o p : Option Date} (ho : o = none)
      (h : (if c then o else p) = some d) :
      p = some d := by
    split at h
    · cases ho.symm.trans h
    · exact h
  unfold signedDate? at h
  obtain ⟨year, -, h⟩ := Option.bind_eq_some_iff.1 (unguarded rfl h)
  obtain ⟨month, -, h⟩ := Option.bind_eq_some_iff.1 (unguarded rfl (unguarded rfl h))
  obtain ⟨day, -, h⟩ := Option.bind_eq_some_iff.1 h
  exact reached_of_ofParts? h

theorem reached_of_ofDays? {n : ℤ} {d : Date} (h : Date.ofDays? n = some d) : d.Reached := by
  simp only [Date.ofDays?] at h
  split at h
  · rename_i hrange
    obtain rfl := Option.some.inj h
    exact ⟨(Date.toDays_ofDays n).1, hrange⟩
  · cases h

theorem reached_of_date? {s : String} {d : Date} (h : date? s = some d) : d.Reached := by
  unfold date? at h
  split at h
  · exact reached_of_signedDate? h
  · exact reached_of_signedDate? h
  · dsimp only at h
    split at h
    · exact reached_of_shortDate? h
    · obtain ⟨t, -, ht⟩ := Option.bind_eq_some_iff.1 h
      exact reached_of_ofDays? ht

end Calendar

end TableScan
