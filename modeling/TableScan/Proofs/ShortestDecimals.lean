import Mathlib.Data.Nat.Cast.Order.Field
import Mathlib.Data.Nat.Digits.Defs
import TableScan.Floating.Reader
import TableScan.Floating.Text
import TableScan.Proofs.Nearest
import TableScan.Proofs.Numerals
import TableScan.Proofs.Quiet

namespace TableScan

theorem toDigits_bounds {n : ℕ} (h : 0 < n) :
    (10 : ℚ) ^ (((Nat.toDigits 10 n).length : ℤ) - 1) ≤ n ∧
    (n : ℚ) < 10 ^ ((Nat.toDigits 10 n).length : ℤ) := by
  have hpos : 0 < (Nat.toDigits 10 n).length := Nat.length_toDigits_pos
  have hlt : n < 10 ^ (Nat.toDigits 10 n).length :=
    (Nat.length_toDigits_le_iff (by decide) hpos).1 le_rfl
  obtain ⟨k, hk⟩ := Nat.exists_eq_add_of_le' hpos
  have hle : 10 ^ k ≤ n := by
    rcases Nat.eq_zero_or_pos k with rfl | hk0
    · exact h
    · exact not_lt.1 fun hn => by have := (Nat.length_toDigits_le_iff (by decide) hk0).2 hn; omega
  rw [hk] at hlt ⊢
  refine ⟨?_, by exact_mod_cast hlt⟩
  rw [Nat.cast_add_one, add_sub_cancel_right, zpow_natCast]
  exact_mod_cast hle

theorem zpow_pos_ten (e : ℤ) : (0 : ℚ) < 10 ^ e := zpow_pos (by norm_num) e

namespace Decimal

variable {d : Decimal}

def value (d : Decimal) : ℚ := d.coefficient * 10 ^ d.exponent

theorem leading_bounds (h : 0 < d.coefficient) :
    (10 : ℚ) ^ d.leading ≤ d.value ∧ d.value < 10 ^ (d.leading + 1) := by
  obtain ⟨hlow, hhigh⟩ := toDigits_bounds h
  have hten : (10 : ℚ) ≠ 0 := by norm_num
  constructor
  · rw [leading, value, add_sub_assoc, add_comm, zpow_add₀ hten]
    exact mul_le_mul_of_nonneg_right hlow (zpow_pos_ten _).le
  · rw [leading, value, sub_add_cancel, add_comm, zpow_add₀ hten]
    exact mul_lt_mul_of_pos_right hhigh (zpow_pos_ten _)

theorem value_trim (fuel : ℕ) (h : 0 < d.coefficient) :
    (trim fuel d).value = d.value ∧ 0 < (trim fuel d).coefficient := by
  induction fuel generalizing d with
  | zero => exact ⟨rfl, h⟩
  | succ fuel ih =>
    rw [trim]
    split
    · rename_i hzero
      obtain ⟨hvalue, hpos⟩ := ih (d := ⟨d.coefficient / 10, d.exponent + 1⟩) (by dsimp only; omega)
      refine ⟨?_, hpos⟩
      have hcoefficient : (d.coefficient : ℚ) = (d.coefficient / 10 : ℕ) * 10 := by
        exact_mod_cast (Nat.div_mul_cancel (Nat.dvd_of_mod_eq_zero hzero)).symm
      rw [hvalue, value, value, zpow_add_one₀ (by norm_num), hcoefficient]
      ring
    · exact ⟨rfl, h⟩

end Decimal

namespace Text

theorem digitsValue_append_zeros (cs : List Char) (k : ℕ) :
    digitsValue (cs ++ List.replicate k '0') = digitsValue cs * 10 ^ k := by
  induction k with
  | zero => simp
  | succ k ih =>
    rw [List.replicate_succ', ← List.append_assoc]
    refine (digitsValue_append_digit (cs ++ List.replicate k '0') (d := 0) (by decide)).trans ?_
    rw [ih, add_zero, pow_succ]
    ring

end Text

namespace Floating

variable {f : FloatFormat} {x : Floating f} {d : Decimal} {e : ℤ}

namespace Interval

variable {i : Interval}

theorem sides_div (i : Interval) (d : Decimal) :
    0 < (i.sides d).2 ∧ ((i.sides d).1 : ℚ) / (i.sides d).2 = d.value * i.unit := by
  rw [sides, Decimal.value]
  split
  · rename_i h
    obtain ⟨k, hk⟩ := Int.eq_ofNat_of_zero_le h
    simp [hk]
  · rename_i h
    obtain ⟨k, hk⟩ : ∃ k : ℕ, d.exponent = -k := ⟨(-d.exponent).toNat, by omega⟩
    simp [hk, div_eq_mul_inv, mul_right_comm]

theorem mem_iff (hu : 0 < i.unit) : i.mem d = true ↔ i.Has d.value := by
  obtain ⟨hpos, hdiv⟩ := i.sides_div d
  have hu' : (0 : ℚ) < i.unit := by exact_mod_cast hu
  have hpos' : (0 : ℚ) < (i.sides d).2 := by exact_mod_cast hpos
  have hle (n : ℕ) : n * (i.sides d).2 ≤ (i.sides d).1 ↔ (n : ℚ) / i.unit ≤ d.value := by
    rw [div_le_iff₀ hu', ← hdiv, le_div_iff₀ hpos']
    exact_mod_cast Iff.rfl
  have hge (n : ℕ) : (i.sides d).1 ≤ n * (i.sides d).2 ↔ d.value ≤ (n : ℚ) / i.unit := by
    rw [le_div_iff₀ hu', ← hdiv, div_le_iff₀ hpos']
    exact_mod_cast Iff.rfl
  rw [mem, Has]
  dsimp only
  split
  · simp [hle, hge]
  · simp [← not_le, hle, hge]

theorem floor_spec (hu : 0 < i.unit) (e : ℤ) :
    (i.floor e).exponent = e ∧ (i.floor e).value ≤ i.value / i.unit ∧
    (i.value : ℚ) / i.unit < (i.floor e).value + 10 ^ e := by
  obtain ⟨n, d, hexponent, hcoefficient, hd, hvalue⟩ : ∃ n d : ℕ, (i.floor e).exponent = e ∧
      (i.floor e).coefficient = n / d ∧ 0 < d ∧ (i.value : ℚ) / i.unit = n / d * 10 ^ e := by
    rw [floor]
    split
    · rename_i h
      obtain ⟨k, rfl⟩ := Int.eq_ofNat_of_zero_le h
      refine ⟨_, _, rfl, rfl, Nat.mul_pos hu (Nat.pow_pos (by decide)), ?_⟩
      have hten : ((10 : ℚ) ^ k) ≠ 0 := by positivity
      simp only [Int.toNat_natCast, zpow_natCast]
      push_cast
      rw [← div_div, div_mul_cancel₀ _ hten]
    · rename_i h
      obtain ⟨k, rfl⟩ : ∃ k : ℕ, e = -k := ⟨(-e).toNat, by omega⟩
      refine ⟨_, _, rfl, rfl, hu, ?_⟩
      have hten : ((10 : ℚ) ^ k) ≠ 0 := by positivity
      simp only [neg_neg, Int.toNat_natCast, zpow_neg, zpow_natCast]
      push_cast
      field_simp
  have hd' : (0 : ℚ) < d := by exact_mod_cast hd
  have hlt : (n : ℚ) / d < (n / d : ℕ) + 1 := by
    rw [div_lt_iff₀ hd', mul_comm]
    exact_mod_cast Nat.lt_mul_div_succ n hd
  have hpos := zpow_pos_ten e
  refine ⟨hexponent, ?_, ?_⟩
  · rw [hvalue, Decimal.value, hexponent, hcoefficient]
    exact mul_le_mul_of_nonneg_right Nat.cast_div_le hpos.le
  · rw [hvalue, Decimal.value, hexponent, hcoefficient, ← add_one_mul]
    exact mul_lt_mul_of_pos_right hlt hpos

theorem leading_le (hu : 0 < i.unit) (hv : 0 < i.value) :
    (10 : ℚ) ^ i.leading ≤ i.value / i.unit := by
  obtain ⟨hvalue, -⟩ := toDigits_bounds hv
  obtain ⟨-, hunit⟩ := toDigits_bounds hu
  have hu' : (0 : ℚ) < i.unit := by exact_mod_cast hu
  have hless :
      (10 : ℚ) ^ (((Nat.toDigits 10 i.value).length : ℤ) - (Nat.toDigits 10 i.unit).length - 1) ≤
      i.value / i.unit := by
    rw [le_div_iff₀ hu']
    calc
      _ ≤
        (10 : ℚ) ^ (((Nat.toDigits 10 i.value).length : ℤ) - (Nat.toDigits 10 i.unit).length - 1) *
          10 ^ ((Nat.toDigits 10 i.unit).length : ℤ) :=
            mul_le_mul_of_nonneg_left hunit.le (zpow_pos_ten _).le
      _ = 10 ^ (((Nat.toDigits 10 i.value).length : ℤ) - 1) := by
        rw [← zpow_add₀ (by norm_num)]
        congr 1
        ring
      _ ≤ i.value := hvalue
  simp only [leading]
  generalize ((Nat.toDigits 10 i.value).length : ℤ) - (Nat.toDigits 10 i.unit).length = e at hless
  split
  · rename_i h
    obtain ⟨k, rfl⟩ := Int.eq_ofNat_of_zero_le h
    split
    · rename_i hle
      rw [le_div_iff₀ hu', mul_comm]
      exact_mod_cast hle
    · exact hless
  · rename_i h
    obtain ⟨k, rfl⟩ : ∃ k : ℕ, e = -k := ⟨(-e).toNat, by omega⟩
    split
    · rename_i hle
      have hten : (0 : ℚ) < 10 ^ k := by positivity
      rw [neg_neg, Int.toNat_natCast] at hle
      rw [le_div_iff₀ hu', zpow_neg, zpow_natCast, inv_mul_le_iff₀ hten, mul_comm]
      exact_mod_cast hle
    · exact hless

theorem mem_of_onGrid? (h : i.onGrid? e = some d) : i.mem d = true ∧ 0 < d.coefficient := by
  simp only [onGrid?] at h
  split at h
  · rename_i hbelow habove
    split at h
    · obtain rfl := Option.some.inj h
      simpa using hbelow
    · obtain rfl := Option.some.inj h
      exact ⟨habove, Nat.succ_pos _⟩
  · rename_i hbelow _
    obtain rfl := Option.some.inj h
    simpa using hbelow
  · rename_i _ habove
    obtain rfl := Option.some.inj h
    exact ⟨habove, Nat.succ_pos _⟩
  · cases h

theorem exists_onGrid? (hu : 0 < i.unit) (hlow : (i.low : ℚ) / i.unit < i.value / i.unit)
    (hhigh : (i.value : ℚ) / i.unit < i.high / i.unit) (hle : (10 : ℚ) ^ e ≤ i.value / i.unit)
    (hfine : (10 : ℚ) ^ e < i.high / i.unit - i.low / i.unit) : ∃ d, i.onGrid? e = some d := by
  obtain ⟨hexponent, hfloor, hceiling⟩ := floor_spec hu e
  have hpos : 0 < (i.floor e).coefficient := by
    by_contra hzero
    rw [Decimal.value, Nat.eq_zero_of_not_pos hzero, Nat.cast_zero, zero_mul, zero_add] at hceiling
    exact absurd hle (not_le.2 hceiling)
  have hnext : (⟨(i.floor e).coefficient + 1, e⟩ : Decimal).value = (i.floor e).value + 10 ^ e := by
    rw [Decimal.value, Decimal.value, hexponent]
    push_cast
    ring
  have hmem {d : Decimal} (hd : (i.low : ℚ) / i.unit < d.value) (hd' : d.value < i.high / i.unit) :
      i.mem d = true := by
    rw [mem_iff hu, Has]
    split
    · exact ⟨hd.le, hd'.le⟩
    · exact ⟨hd, hd'⟩
  simp only [onGrid?]
  split
  · split <;> exact ⟨_, rfl⟩
  · exact ⟨_, rfl⟩
  · exact ⟨_, rfl⟩
  · rename_i hbelow habove
    -- neither neighbour is inside, so that the interval is no wider than they are apart
    have hbelow' : (i.floor e).value ≤ i.low / i.unit := by
      by_contra hlt
      have := hmem (not_le.1 hlt) (hfloor.trans_lt hhigh)
      simp [this, hpos] at hbelow
    have habove' : (i.high : ℚ) / i.unit ≤ (i.floor e).value + 10 ^ e := by
      by_contra hlt
      have := hmem (hlow.trans (hnext ▸ hceiling)) (hnext ▸ not_le.1 hlt)
      simp [this] at habove
    linarith

theorem mem_search {tries k : ℕ} (hk : k < tries) (h : ∃ d, i.onGrid? (e - k) = some d) :
    i.mem (i.search tries e) = true ∧ 0 < (i.search tries e).coefficient := by
  induction tries generalizing e k with
  | zero => exact absurd hk (Nat.not_lt_zero k)
  | succ tries ih =>
    rw [search]
    cases hgrid : i.onGrid? e with
    | some d => exact mem_of_onGrid? hgrid
    | none =>
      cases k with
      | zero =>
        rw [Nat.cast_zero, sub_zero, hgrid] at h
        obtain ⟨_, h⟩ := h
        cases h
      | succ k =>
        rw [Nat.cast_succ, ← sub_sub, sub_right_comm] at h
        exact ih (by omega) h

end Interval

theorem fractionBits_le (f : FloatFormat) : f.fractionBits ≤ 52 := by
  cases f <;> decide

theorem width_interval (x : Floating f) : (x.significand.1 : ℚ) / 10 ^ 16 < 1 / 2 + x.reach := by
  obtain ⟨-, hbits, -, -⟩ := significand_spec x
  have hpow : 2 ^ f.fractionBits ≤ 2 ^ 52 := Nat.pow_le_pow_right (by decide) (fractionBits_le f)
  rw [div_lt_iff₀ (by norm_num), reach]
  split
  · rename_i h
    have : (x.significand.1 : ℚ) ≤ (2 ^ 52 : ℕ) := by exact_mod_cast h.1 ▸ hpow
    norm_num at this ⊢
    linarith
  · have : (x.significand.1 : ℚ) < (2 ^ 53 : ℕ) := by
      rw [pow_succ] at hbits
      exact_mod_cast (by omega : x.significand.1 < 2 ^ 53)
    norm_num at this ⊢
    linarith

theorem value_between (h0 : x.magnitude ≠ 0) :
    (x.interval.low : ℚ) / x.interval.unit < x.interval.value / x.interval.unit ∧
      (x.interval.value : ℚ) / x.interval.unit < x.interval.high / x.interval.unit := by
  have hpos := zpow_pos_two x.significand.2
  obtain ⟨hreach, -⟩ := reach_bounds x
  rw [low_div h0, high_div, value_div, absolute]
  exact ⟨mul_lt_mul_of_pos_right (by linarith) hpos, mul_lt_mul_of_pos_right (by linarith) hpos⟩

theorem exists_onGrid?_interval (h0 : x.magnitude ≠ 0) :
    ∃ d, x.interval.onGrid? (x.interval.leading - (16 : ℕ)) = some d := by
  have hu := unit_pos x
  have hpos := zpow_pos_two x.significand.2
  obtain ⟨hlow, hhigh⟩ := value_between h0
  have hv : 0 < x.interval.value := by
    refine Nat.pos_of_ne_zero fun hzero => h0 (absolute_eq_zero_iff.1 ?_)
    rw [← value_div, hzero, Nat.cast_zero, zero_div]
  have hleading := Interval.leading_le hu hv
  have hstep : (10 : ℚ) ^ (x.interval.leading - (16 : ℕ)) = 10 ^ x.interval.leading / 10 ^ 16 := by
    rw [zpow_sub₀ (by norm_num)]
    rfl
  refine Interval.exists_onGrid? hu hlow hhigh ?_ ?_
  · refine le_trans ?_ hleading
    exact zpow_le_zpow_right₀ (by norm_num) (by omega)
  · rw [low_div h0, high_div, ← sub_mul]
    calc
      (10 : ℚ) ^ (x.interval.leading - (16 : ℕ)) = 10 ^ x.interval.leading / 10 ^ 16 := hstep
      _ ≤ x.interval.value / x.interval.unit / 10 ^ 16 := by gcongr
      _ = x.significand.1 / 10 ^ 16 * 2 ^ x.significand.2 := by
        rw [value_div, absolute]
        ring
      _ < (1 / 2 + x.reach) * 2 ^ x.significand.2 := mul_lt_mul_of_pos_right (width_interval x) hpos
      _ = _ := by ring

theorem has_shortest (h0 : x.magnitude ≠ 0) :
    x.interval.Has x.shortest.value ∧ 0 < x.shortest.coefficient := by
  obtain ⟨d, hgrid⟩ := exists_onGrid?_interval h0
  obtain ⟨hmem, hcoefficient⟩ := Interval.mem_search (by decide : 16 < 17) ⟨d, hgrid⟩
  obtain ⟨htrim, htrim'⟩ := Decimal.value_trim 17 hcoefficient
  refine ⟨?_, htrim'⟩
  rw [shortest, htrim]
  exact (Interval.mem_iff (unit_pos x)).1 hmem

open Text

variable {negative : Bool} {cs : List Char}

theorem takeWhile_digits (h : ∀ c ∈ cs, isDigit c = true) (rest : List Char)
    (hrest : ∀ c ∈ rest.head?, isDigit c = false) :
    (cs ++ rest).takeWhile isDigit = cs ∧ (cs ++ rest).dropWhile isDigit = rest := by
  rw [List.takeWhile_append_of_pos h, List.dropWhile_append_of_pos h]
  cases rest with
  | nil => simp
  | cons c rest =>
    have hc : ¬isDigit c = true := by simpa using hrest
    rw [List.takeWhile_cons_of_neg hc, List.dropWhile_cons_of_neg hc, List.append_nil]
    exact ⟨rfl, rfl⟩

/-- Digits that spell `n * 10 ^ e`: some before a point, and others behind it if there is one. -/
inductive Spells : List Char → ℕ → ℤ → Prop
  | whole {ws : List Char} : (∀ c ∈ ws, isDigit c = true) → ws ≠ [] → Spells ws (digitsValue ws) 0
  | point {ws ds : List Char} :
      (∀ c ∈ ws, isDigit c = true) → ws ≠ [] → (∀ c ∈ ds, isDigit c = true) →
      Spells (ws ++ '.' :: ds) (digitsValue (ws ++ ds)) (-ds.length)

theorem Spells.exists_cons {n : ℕ} (h : Spells cs n e) :
    ∃ c rest, cs = c :: rest ∧ isDigit c = true := by
  cases h with
  | whole h hne =>
    obtain ⟨c, rest, rfl⟩ := List.exists_cons_of_ne_nil hne
    exact ⟨c, rest, rfl, h c List.mem_cons_self⟩
  | @point ws ds h hne =>
    obtain ⟨c, rest, rfl⟩ := List.exists_cons_of_ne_nil hne
    exact ⟨c, rest ++ '.' :: ds, rfl, h c List.mem_cons_self⟩

theorem Spells.unsignedOfChars? {n : ℕ} (h : Spells cs n e) :
    (unsignedOfChars? negative cs : Option (Floating f)) = some (ofDecimal negative n e) := by
  cases h with
  | whole h hne =>
    obtain ⟨htake, hdrop⟩ := takeWhile_digits h [] (by simp)
    rw [List.append_nil] at htake hdrop
    rw [Floating.unsignedOfChars?, htake, hdrop]
    simp [hne, exponent?]
  | point h hne h' =>
    obtain ⟨htake, hdrop⟩ := takeWhile_digits h ('.' :: _) (by simp; decide)
    obtain ⟨htake', hdrop'⟩ := takeWhile_digits h' [] (by simp)
    rw [List.append_nil] at htake' hdrop'
    rw [Floating.unsignedOfChars?, htake, hdrop]
    simp [htake', hdrop', hne, exponent?]

theorem isDigit_of_mem_zeros {k : ℕ} {c : Char} (h : c ∈ List.replicate k '0') :
    isDigit c = true := by
  rw [List.eq_of_mem_replicate h]
  rfl

theorem Spells.append_zeros (h : ∀ c ∈ cs, isDigit c = true) (hne : cs ≠ []) (k : ℕ) :
    Spells (cs ++ List.replicate k '0') (digitsValue cs * 10 ^ k) 0 := by
  rw [← digitsValue_append_zeros]
  exact .whole (List.forall_mem_append.2 ⟨h, fun c => isDigit_of_mem_zeros⟩) (by simp [hne])

theorem Spells.take_drop (h : ∀ c ∈ cs, isDigit c = true) (hne : cs ≠ []) {k : ℕ} (hk : k ≠ 0) :
    Spells (cs.take k ++ '.' :: cs.drop k) (digitsValue cs) (-((cs.length - k : ℕ) : ℤ)) := by
  have htake : cs.take k ≠ [] := by
    rw [Ne, List.take_eq_nil_iff]
    exact not_or.2 ⟨hk, hne⟩
  have hspells := Spells.point (fun c hc => h c (List.mem_of_mem_take hc)) htake
    (fun c hc => h c (List.mem_of_mem_drop (i := k) hc))
  rwa [List.take_append_drop, List.length_drop] at hspells

theorem Spells.zeros_append (h : ∀ c ∈ cs, isDigit c = true) (k : ℕ) :
    Spells (['0'] ++ '.' :: (List.replicate k '0' ++ cs)) (digitsValue cs)
    (-((k + cs.length : ℕ) : ℤ)) := by
  have hzero (cs : List Char) : digitsValue (['0'] ++ cs) = digitsValue cs := rfl
  have hspells := Spells.point (List.forall_mem_singleton.2 (rfl : isDigit '0' = true)) (by simp)
    (List.forall_mem_append.2 ⟨fun c => isDigit_of_mem_zeros (k := k), h⟩)
  rwa [hzero, digitsValue_zeros, List.length_append, List.length_replicate] at hspells

theorem spells_plain (d : Decimal) :
    ∃ (n : ℕ) (e : ℤ), (n : ℚ) * 10 ^ e = d.value ∧ Spells (Layout.plain.decimal d).toList n e := by
  have hdigits : ∀ c ∈ Nat.toDigits 10 d.coefficient, isDigit c = true :=
    fun c => isDigit_of_mem_toDigits
  have hne : Nat.toDigits 10 d.coefficient ≠ [] := Nat.toDigits_ne_nil
  have hvalue : digitsValue (Nat.toDigits 10 d.coefficient) = d.coefficient :=
    digitsValue_toDigits _
  have hleading : d.leading = d.exponent + (Nat.toDigits 10 d.coefficient).length - 1 := rfl
  simp only [Layout.decimal, Layout.plain, if_true]
  generalize Nat.toDigits 10 d.coefficient = digits at hdigits hne hvalue hleading
  split
  · rename_i hwhole
    obtain ⟨k, hk⟩ := Int.eq_ofNat_of_zero_le hwhole
    have hlist : (String.ofList digits ++ zeros d.exponent.toNat ++ "").toList =
        digits ++ List.replicate k '0' := by
      simp [zeros, hk]
    refine ⟨_, _, ?_, hlist ▸ Spells.append_zeros hdigits hne k⟩
    rw [Decimal.value, hvalue, hk]
    simp
  · split
    · have hlist : (String.ofList (digits.take (d.leading + 1).toNat) ++ "." ++
          String.ofList (digits.drop (d.leading + 1).toNat)).toList =
          digits.take (d.leading + 1).toNat ++ '.' :: digits.drop (d.leading + 1).toNat := by simp
      refine ⟨_, _, ?_,
        hlist ▸ Spells.take_drop hdigits hne (k := (d.leading + 1).toNat) (by omega)⟩
      rw [hvalue, Decimal.value, show -((digits.length - (d.leading + 1).toNat : ℕ) : ℤ) =
        d.exponent by omega]
    · have hlist : ("0." ++ zeros (-d.leading - 1).toNat ++ String.ofList digits).toList =
          ['0'] ++ '.' :: (List.replicate (-d.leading - 1).toNat '0' ++ digits) := by simp [zeros]
      refine ⟨_, _, ?_, hlist ▸ Spells.zeros_append hdigits (-d.leading - 1).toNat⟩
      rw [hvalue, Decimal.value, show -(((-d.leading - 1).toNat + digits.length : ℕ) : ℤ) =
        d.exponent by omega]

theorem exponent_bounds (hx : x.isFinite) :
    -1074 ≤ x.significand.2 ∧ x.significand.2 + f.fractionBits + 1 ≤ 1024 := by
  obtain ⟨hmin, -, hbits, hmagnitude⟩ := significand_spec x
  have hfinite := magnitude_lt_of_isFinite hx
  have hmost : (x.significand.2 - f.minExponent).toNat ≤ 2 ^ f.exponentBits - 3 := by
    by_contra hlt
    have hbits' := hbits (by omega)
    have hle : (2 ^ f.exponentBits - 1) * 2 ^ f.fractionBits ≤
        (x.significand.2 - f.minExponent).toNat * 2 ^ f.fractionBits + 2 ^ f.fractionBits := by
      rw [← Nat.succ_mul]
      exact Nat.mul_le_mul_right _ (by omega)
    rw [hmagnitude, FloatFormat.infinity] at hfinite
    omega
  have hformat : -1074 ≤ f.minExponent ∧
      f.minExponent + (2 ^ f.exponentBits - 3 : ℕ) + f.fractionBits + 1 ≤ 1024 := by
    cases f <;> decide
  omega

theorem value_bounds (hx : x.isFinite) (h0 : x.magnitude ≠ 0) (h : x.interval.Has d.value) :
    10 ^ (-farExponent) ≤ d.value ∧ d.value < 10 ^ farExponent := by
  obtain ⟨hexponent, hexponent'⟩ := exponent_bounds hx
  obtain ⟨hlow, hhigh, -⟩ := h.scaled h0
  obtain ⟨-, hreach⟩ := reach_bounds x
  obtain ⟨-, hbits, -, -⟩ := significand_spec x
  have hscale := zpow_pos_two x.significand.2
  have hone : (1 : ℚ) ≤ x.significand.1 := by
    exact_mod_cast Nat.pos_of_ne_zero (significand_ne_zero h0)
  have hbits' : (x.significand.1 : ℚ) + 1 ≤ 2 ^ (f.fractionBits + 1) := by exact_mod_cast hbits
  rw [zpow_neg, ← div_eq_mul_inv] at hlow hhigh
  rw [le_div_iff₀ hscale] at hlow
  rw [div_le_iff₀ hscale] at hhigh
  have hfar : (2 : ℚ) ^ (1075 : ℤ) ≤ 10 ^ farExponent := by
    rw [farExponent, show (1075 : ℤ) = 43 * 25 from rfl, show (400 : ℤ) = 16 * 25 from rfl,
      zpow_mul, zpow_mul]
    exact zpow_le_zpow_left₀ (by norm_num) (by norm_num) (by norm_num)
  constructor
  · calc
      (10 : ℚ) ^ (-farExponent) ≤ 2 ^ (-1075 : ℤ) := by
        rw [zpow_neg, zpow_neg]
        exact inv_anti₀ (zpow_pos_two _) hfar
      _ = 1 / 2 * 2 ^ (-1074 : ℤ) := by
        rw [show (-1075 : ℤ) = -1 + -1074 from rfl, zpow_add₀ (by norm_num), zpow_neg_one, one_div]
      _ ≤ 1 / 2 * 2 ^ x.significand.2 :=
        mul_le_mul_of_nonneg_left (zpow_le_zpow_right₀ one_le_two hexponent) one_half_pos.le
      _ ≤ (x.significand.1 - x.reach) * 2 ^ x.significand.2 := by
        apply mul_le_mul_of_nonneg_right _ hscale.le
        linarith
      _ ≤ d.value := hlow
  · calc
      d.value ≤ (x.significand.1 + 1 / 2) * 2 ^ x.significand.2 := hhigh
      _ ≤ 2 ^ (f.fractionBits + 1) * 2 ^ x.significand.2 := by
        apply mul_le_mul_of_nonneg_right _ hscale.le
        linarith
      _ = 2 ^ (f.fractionBits + 1 + x.significand.2) := by
        rw [zpow_add₀ two_ne_zero]
        rfl
      _ < 2 ^ (1075 : ℤ) := zpow_lt_zpow_right₀ one_lt_two (by omega)
      _ ≤ 10 ^ farExponent := hfar

theorem ofDecimal_of_has {n : ℕ} (hx : x.isFinite) (h0 : x.magnitude ≠ 0)
    (h : x.interval.Has (n * 10 ^ e)) :
    ofDecimal x.negative n e = x := by
  obtain ⟨hlow, hhigh⟩ := value_bounds (d := ⟨n, e⟩) hx h0 h
  have hn : n ≠ 0 := by
    rintro rfl
    rw [Decimal.value, Nat.cast_zero, zero_mul] at hlow
    exact absurd hlow (not_le.2 (zpow_pos_ten _))
  obtain ⟨hleast, hmost⟩ := Decimal.leading_bounds (d := ⟨n, e⟩) (Nat.pos_of_ne_zero hn)
  have hnear : -farExponent < e + (Nat.toDigits 10 n).length :=
    (zpow_lt_zpow_iff_right₀ (by norm_num : (1 : ℚ) < 10)).1
      (hlow.trans_lt (by simpa [Decimal.leading] using hmost))
  have hnear' : e + (Nat.toDigits 10 n).length - 1 < farExponent :=
    (zpow_lt_zpow_iff_right₀ (by norm_num : (1 : ℚ) < 10)).1 (hleast.trans_lt hhigh)
  simp only [ofDecimal]
  rw [if_neg (by omega), if_neg (by omega)]
  split
  · rename_i hwhole
    obtain ⟨k, rfl⟩ := Int.eq_ofNat_of_zero_le hwhole
    refine round_eq_of_magnitude rfl (roundMagnitude_of_has hx h0 Nat.one_pos ?_)
    simpa using h
  · rename_i hwhole
    obtain ⟨k, rfl⟩ : ∃ k : ℕ, e = -k := ⟨(-e).toNat, by omega⟩
    refine round_eq_of_magnitude rfl (roundMagnitude_of_has hx h0 (Nat.pow_pos (by decide)) ?_)
    simpa [div_eq_mul_inv] using h

theorem ofChars?_digit {c : Char} (hc : isDigit c = true) :
    (ofChars? negative (c :: cs) : Option (Floating f)) = unsignedOfChars? negative (c :: cs) := by
  obtain ⟨d, hd, rfl⟩ := isDigit_iff.1 hc
  have hlower : ∀ d < 10, (Nat.digitChar d).toLower ≠ 'n' ∧ (Nat.digitChar d).toLower ≠ 'i' := by
    decide
  have hname {s : String} {c : Char} (hs : s.toList.head? = some c)
      (h : (Nat.digitChar d).toLower ≠ c) :
      String.ofList ((Nat.digitChar d :: cs).map Char.toLower) ≠ s := by
    rintro rfl
    rw [String.toList_ofList] at hs
    exact h (Option.some.inj hs)
  obtain ⟨hn, hi⟩ := hlower d hd
  simp only [ofChars?]
  rw [if_neg (hname rfl hn), if_neg (not_or.2 ⟨hname rfl hi, hname rfl hi⟩)]

theorem ofText?_sign {s : String} {c : Char} (hs : s.toList = c :: cs) (hminus : c ≠ '-')
    (hplus : c ≠ '+') :
    (ofText? ((if negative then "-" else "") ++ s) : Option (Floating f)) =
      ofChars? negative (c :: cs) := by
  cases negative with
  | true =>
    have hlist : ((if true then "-" else "") ++ s).toList = '-' :: c :: cs := by simp [hs]
    rw [ofText?, hlist]
    rfl
  | false =>
    have hlist : ((if false then "-" else "") ++ s).toList = c :: cs := by simp [hs]
    rw [ofText?, hlist]
    split
    · rename_i heq
      exact absurd (List.cons.inj heq).1 hminus
    · rename_i heq
      exact absurd (List.cons.inj heq).1 hplus
    · rfl

theorem Spells.ofText? {s : String} {n : ℕ} (h : Spells s.toList n e) :
    (ofText? ((if negative then "-" else "") ++ s) : Option (Floating f)) =
      some (ofDecimal negative n e) := by
  obtain ⟨c, cs, hs, hc⟩ := h.exists_cons
  rw [ofText?_sign hs, ofChars?_digit hc, ← hs, h.unsignedOfChars?]
  · rintro rfl
    cases hc
  · rintro rfl
    cases hc

theorem ofText?_text (hx : x.isNaN = false) : ofText? (x.text .plain) = some x := by
  have hle : x.magnitude ≤ f.infinity := not_lt.1 (of_decide_eq_false hx)
  have hself := ofMagnitude_magnitude x
  rw [text, if_neg (by simp [hx])]
  dsimp only
  split
  · rename_i hinfinite
    have hmagnitude : x.magnitude = f.infinity := by simpa [isInfinite] using hinfinite
    have hname : (ofChars? x.negative "inf".toList : Option (Floating f)) = some (inf x.negative) :=
      rfl
    rw [ofText?_sign (s := "inf") rfl (by decide) (by decide)]
    refine hname.trans ?_
    rw [inf, ← hmagnitude, hself]
  · rename_i hinfinite
    have hlt : x.magnitude ≠ f.infinity := by simpa [isInfinite] using hinfinite
    split
    · rename_i hzero
      have hmagnitude : x.magnitude = 0 := by simpa [isZero] using hzero
      have hspells : Spells ['0'] (digitsValue ['0']) 0 :=
        .whole (List.forall_mem_singleton.2 rfl) (by simp)
      have hwhole : Layout.plain.whole = "" := rfl
      rw [hwhole, String.append_empty, Spells.ofText? (s := "0") hspells]
      show some (zero x.negative) = _
      rw [zero, ← hmagnitude, hself]
    · rename_i hzero
      have h0 : x.magnitude ≠ 0 := by simpa [isZero] using hzero
      have hfinite : x.isFinite = true := decide_eq_true (lt_of_le_of_ne hle hlt)
      obtain ⟨n, e, hvalue, hspells⟩ := spells_plain x.shortest
      rw [hspells.ofText?, ofDecimal_of_has hfinite h0]
      rw [hvalue]
      exact (has_shortest h0).1

theorem ofText?_text_nan (hx : x.isNaN = true) :
    (ofText? (x.text .plain) : Option (Floating f)) = some (nan false) := by
  rw [text, if_pos hx]
  rfl

theorem isNaN_ofDecimal (negative : Bool) (n : ℕ) (e : ℤ) :
    (ofDecimal negative n e : Floating f).isNaN = false := by
  simp only [ofDecimal]
  split
  · exact isNaN_ofMagnitude (Nat.zero_le _)
  · split
    · exact isNaN_ofMagnitude le_rfl
    · split <;> exact isNaN_ofMagnitude (roundMagnitude_le_infinity _ _ _)

theorem negative_nan (negative : Bool) : (nan negative : Floating f).negative = negative := by
  have hlt : f.infinity + 2 ^ (f.fractionBits - 1) < signBit f := by
    rw [← infinity_add, two_pow_fractionBits]
    have := Nat.two_pow_pos (f.fractionBits - 1)
    omega
  exact negative_ofMagnitude negative hlt

theorem eq_nan_of_ofChars? (h : ofChars? negative cs = some x) (hx : x.isNaN = true) :
    x = nan x.negative := by
  simp only [ofChars?] at h
  split at h
  · obtain rfl := Option.some.inj h
    rw [negative_nan]
  · exfalso
    split at h
    · obtain rfl := Option.some.inj h
      exact absurd hx (by rw [inf, isNaN_ofMagnitude le_rfl]; decide)
    · simp only [unsignedOfChars?, Option.bind_eq_bind] at h
      split at h <;> split at h
      all_goals
        obtain ⟨e, he, h⟩ := Option.bind_eq_some_iff.1 h
        first
        | cases he
        | (cases h; rw [isNaN_ofDecimal] at hx; cases hx)

theorem eq_nan_of_ofText? {s : String} (h : ofText? s = some x) (hx : x.isNaN = true) :
    x = nan x.negative := by
  simp only [ofText?] at h
  split at h <;> exact eq_nan_of_ofChars? h hx

end Floating

end TableScan
