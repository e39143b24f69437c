import TableScan.Floating.Shortest
import TableScan.Proofs.Rounding
import Mathlib.Algebra.Order.Field.Power
import Mathlib.Tactic.FieldSimp
import Mathlib.Tactic.Positivity

namespace TableScan.Floating

variable {f : FloatFormat} {n d : ℕ} {e q : ℤ}

theorem zpow_pos_two (e : ℤ) : (0 : ℚ) < 2 ^ e := zpow_pos (by norm_num) e

theorem zpow_mul_zpow_neg (e : ℤ) : (2 : ℚ) ^ e * 2 ^ (-e) = 1 := by
  rw [← zpow_add₀ (by norm_num), add_neg_cancel, zpow_zero]

theorem scale_pos (hd : 0 < d) (e : ℤ) : 0 < (scale n d e).2 := by
  rw [scale]
  split
  · exact hd
  · exact Nat.mul_pos hd (Nat.two_pow_pos _)

theorem scale_div (n d : ℕ) (e : ℤ) : ((scale n d e).1 : ℚ) / (scale n d e).2 = n / d * 2 ^ e := by
  rw [scale]
  split
  · rename_i he
    obtain ⟨k, rfl⟩ := Int.eq_ofNat_of_zero_le he
    simp [mul_div_right_comm]
  · rename_i he
    obtain ⟨k, rfl⟩ : ∃ k : ℕ, e = -k := ⟨(-e).toNat, by omega⟩
    simp [div_eq_mul_inv, mul_assoc, mul_comm]

def Near (r : ℚ) (k : ℕ) : Prop := |r - k| < 1 / 2 ∨ |r - k| = 1 / 2 ∧ Even k

theorem Near.abs_sub_le {r : ℚ} {k : ℕ} (h : Near r k) : |r - k| ≤ 1 / 2 := by
  rcases h with h | ⟨h, -⟩
  · exact h.le
  · exact h.le

theorem near_natCast (k : ℕ) : Near k k := .inl (by simp)

theorem Near.unique {r : ℚ} {k l : ℕ} (hk : Near r k) (hl : Near r l) : k = l := by
  wlog hle : k ≤ l generalizing k l
  · exact (this hl hk (by omega)).symm
  by_contra hne
  have hlt : (k : ℚ) + 1 ≤ l := by exact_mod_cast Nat.lt_of_le_of_ne hle hne
  have hk' := abs_le.1 hk.abs_sub_le
  have hl' := abs_le.1 hl.abs_sub_le
  -- both are half a step away, so that they are neighbours and not both even
  have heq : (k : ℚ) + 1 = l := by linarith
  have hkr : r - k = 1 / 2 := by linarith
  have hlr : r - l = -(1 / 2) := by linarith
  have hk2 : Even k := by
    rcases hk with hk | ⟨-, hk⟩
    · rw [hkr] at hk
      norm_num at hk
    · exact hk
  have hl2 : Even l := by
    rcases hl with hl | ⟨-, hl⟩
    · rw [hlr] at hl
      norm_num at hl
    · exact hl
  have hnext : k + 1 = l := by exact_mod_cast heq
  exact Nat.not_even_iff_odd.2 (Even.add_one hk2) (hnext ▸ hl2)

theorem Near.of_le {r : ℚ} {k : ℕ} (h : |r - k| ≤ 1 / 2) (heven : Even k) : Near r k :=
  h.lt_or_eq.imp id fun htie => ⟨htie, heven⟩

theorem near_roundDiv (n : ℕ) (hd : 0 < d) : Near (n / d) (roundDiv n d) := by
  have hd' : (0 : ℚ) < d := by exact_mod_cast hd
  have hquotient : (n : ℚ) / d = (n / d : ℕ) + ((n % d : ℕ) : ℚ) / d := by
    rw [add_div' _ _ _ hd'.ne', div_left_inj' hd'.ne']
    exact_mod_cast (Nat.div_add_mod' n d).symm
  have hlt : ((n % d : ℕ) : ℚ) / d < 1 := (div_lt_one hd').2 (by exact_mod_cast Nat.mod_lt n hd)
  have hpos : 0 ≤ ((n % d : ℕ) : ℚ) / d := by positivity
  have half {r : ℕ} : (r : ℚ) / d < 1 / 2 ↔ 2 * r < d := by
    rw [div_lt_div_iff₀ hd' (by norm_num), one_mul, mul_comm]
    exact_mod_cast Iff.rfl
  have half' {r : ℕ} : 1 / 2 < (r : ℚ) / d ↔ d < 2 * r := by
    rw [div_lt_div_iff₀ (by norm_num) hd', one_mul, mul_comm (r : ℚ)]
    exact_mod_cast Iff.rfl
  rw [hquotient]
  simp only [roundDiv]
  split
  · rename_i h
    refine .inl ?_
    rw [add_sub_cancel_left, abs_of_nonneg hpos]
    exact half.2 h
  · rename_i h
    split
    · rename_i h'
      refine .inl ?_
      have := half'.2 h'
      rw [Nat.cast_succ, abs_lt]
      constructor <;> linarith
    · rename_i h'
      -- halfway between two whole numbers, one of which is even
      have htie : ((n % d : ℕ) : ℚ) / d = 1 / 2 :=
        le_antisymm (not_lt.1 (mt half'.1 h')) (not_lt.1 (mt half.1 h))
      rw [htie]
      split
      · rename_i heven
        refine .inr ⟨?_, Nat.even_iff.2 heven⟩
        rw [add_sub_cancel_left]
        norm_num
      · rename_i hodd
        refine .inr ⟨?_, Nat.even_add_one.2 (mt Nat.even_iff.1 hodd)⟩
        rw [Nat.cast_succ, add_sub_add_left_eq_sub]
        norm_num [abs_of_neg]

theorem roundDiv_eq_of_near {k : ℕ} (hd : 0 < d) (h : Near (n / d) k) : roundDiv n d = k :=
  (near_roundDiv n hd).unique h

theorem log2_spec (hn : n ≠ 0) (hd : 0 < d) :
    (2 : ℚ) ^ log2 n d ≤ n / d ∧ (n : ℚ) / d < 2 ^ (log2 n d + 1) := by
  have hd' : (0 : ℚ) < d := by exact_mod_cast hd
  have two : (2 : ℚ) ≠ 0 := by norm_num
  have hnl : (2 : ℚ) ^ (n.log2 : ℤ) ≤ n := by exact_mod_cast Nat.log2_self_le hn
  have hnu : (n : ℚ) < 2 ^ ((n.log2 : ℤ) + 1) := by exact_mod_cast Nat.lt_log2_self (n := n)
  have hdl : (2 : ℚ) ^ (d.log2 : ℤ) ≤ d := by exact_mod_cast Nat.log2_self_le hd.ne'
  have hdu : (d : ℚ) < 2 ^ ((d.log2 : ℤ) + 1) := by exact_mod_cast Nat.lt_log2_self (n := d)
  have hupper : (n : ℚ) / d < 2 ^ ((n.log2 : ℤ) - d.log2 + 1) := by
    rw [div_lt_iff₀ hd']
    calc
      (n : ℚ) < 2 ^ ((n.log2 : ℤ) - d.log2 + 1) * 2 ^ (d.log2 : ℤ) := by
        rwa [← zpow_add₀ two, show (n.log2 : ℤ) - d.log2 + 1 + d.log2 = n.log2 + 1 by ring]
      _ ≤ _ := mul_le_mul_of_nonneg_left hdl (zpow_pos_two _).le
  have hlower : (2 : ℚ) ^ ((n.log2 : ℤ) - d.log2 - 1) ≤ n / d := by
    rw [le_div_iff₀ hd']
    calc
      (2 : ℚ) ^ ((n.log2 : ℤ) - d.log2 - 1) * d ≤
        2 ^ ((n.log2 : ℤ) - d.log2 - 1) * 2 ^ ((d.log2 : ℤ) + 1) :=
        mul_le_mul_of_nonneg_left hdu.le (zpow_pos_two _).le
      _ = 2 ^ (n.log2 : ℤ) := by
        rw [← zpow_add₀ two, show (n.log2 : ℤ) - d.log2 - 1 + (d.log2 + 1) = n.log2 by ring]
      _ ≤ n := hnl
  have htest : (scale n d (-((n.log2 : ℤ) - d.log2))).2 ≤ (scale n d (-((n.log2 : ℤ) - d.log2))).1 ↔
      (2 : ℚ) ^ ((n.log2 : ℤ) - d.log2) ≤ n / d := by
    rw [← Nat.cast_le (α := ℚ), ← one_le_div (by exact_mod_cast scale_pos hd _), scale_div,
      zpow_neg, ← div_eq_mul_inv, one_le_div (zpow_pos_two _)]
  simp only [log2]
  split
  · rename_i h
    exact ⟨htest.1 h, hupper⟩
  · rename_i h
    refine ⟨hlower, ?_⟩
    rw [sub_add_cancel]
    exact not_le.1 (mt htest.2 h)

def spacing (f : FloatFormat) (n d : ℕ) : ℤ := max (log2 n d - f.fractionBits) f.minExponent

theorem spacing_spec (f : FloatFormat) (hn : n ≠ 0) (hd : 0 < d) :
    f.minExponent ≤ spacing f n d ∧ (n : ℚ) / d * 2 ^ (-spacing f n d) < 2 ^ (f.fractionBits + 1) ∧
      (f.minExponent < spacing f n d →
        2 ^ f.fractionBits ≤ (n : ℚ) / d * 2 ^ (-spacing f n d)) := by
  obtain ⟨hlower, hupper⟩ := log2_spec hn hd
  have two : (1 : ℚ) < 2 := by norm_num
  have hscaled (k : ℕ) (q : ℤ) : (2 : ℚ) ^ k = 2 ^ (k + q) * 2 ^ (-q) := by
    rw [← zpow_add₀ (by norm_num), add_neg_cancel_right, zpow_natCast]
  refine ⟨le_max_right _ _, ?_, fun h => ?_⟩
  · rw [hscaled (f.fractionBits + 1) (spacing f n d)]
    refine mul_lt_mul_of_pos_right (hupper.trans_le (zpow_le_zpow_right₀ two.le ?_))
      (zpow_pos_two _)
    have := le_max_left (log2 n d - f.fractionBits) f.minExponent
    rw [spacing]
    push_cast
    omega
  · have hq : spacing f n d = log2 n d - f.fractionBits :=
      max_eq_left ((lt_max_iff.1 h).resolve_right (lt_irrefl _)).le
    rw [hscaled f.fractionBits (spacing f n d), hq, add_sub_cancel]
    exact mul_le_mul_of_nonneg_right hlower (zpow_pos_two _).le

theorem spacing_eq (hn : n ≠ 0) (hd : 0 < d) (hmin : f.minExponent ≤ q)
    (hupper : (n : ℚ) / d * 2 ^ (-q) < 2 ^ (f.fractionBits + 1))
    (hlower : f.minExponent < q → 2 ^ f.fractionBits ≤ (n : ℚ) / d * 2 ^ (-q)) :
    spacing f n d = q := by
  obtain ⟨hmin', hupper', hlower'⟩ := spacing_spec f hn hd
  generalize spacing f n d = q' at hmin' hupper' hlower'
  -- of two such powers the larger one would leave too few bits
  have not_lt {q q' : ℤ} (hlower : 2 ^ f.fractionBits ≤ (n : ℚ) / d * 2 ^ (-q))
      (hupper' : (n : ℚ) / d * 2 ^ (-q') < 2 ^ (f.fractionBits + 1)) : ¬q' < q := by
    intro hlt
    have htwice : (2 : ℚ) ^ (-q) * 2 ≤ 2 ^ (-q') := by
      rw [← zpow_add_one₀ (by norm_num)]
      exact zpow_le_zpow_right₀ (by norm_num) (by omega)
    have hr : (0 : ℚ) ≤ n / d := by positivity
    have := mul_le_mul_of_nonneg_left htwice hr
    rw [pow_succ] at hupper'
    linarith
  have hle : ¬q < q' := fun h => not_lt (hlower' (hmin.trans_lt h)) hupper h
  have hge : ¬q' < q := fun h => not_lt (hlower (hmin'.trans_lt h)) hupper' h
  omega

theorem roundMagnitude_of_near {k : ℕ} (hn : n ≠ 0) (hd : 0 < d)
    (hk : Near (n / d * 2 ^ (-spacing f n d)) k) :
    roundMagnitude f n d =
      min f.infinity ((spacing f n d - f.minExponent).toNat * 2 ^ f.fractionBits + k) := by
  rw [← scale_div] at hk
  rw [← roundDiv_eq_of_near (scale_pos hd _) hk]
  simp only [roundMagnitude, if_neg hn, spacing]

theorem exists_near (n : ℕ) (hd : 0 < d) (e : ℤ) : ∃ k, Near (n / d * 2 ^ e) k := by
  rw [← scale_div]
  exact ⟨_, near_roundDiv _ (scale_pos hd e)⟩

def absolute (x : Floating f) : ℚ := x.significand.1 * 2 ^ x.significand.2

theorem fraction_pos (x : Floating f) : 0 < x.fraction.2 := scale_pos Nat.one_pos _

theorem fraction_div (x : Floating f) : (x.fraction.1 : ℚ) / x.fraction.2 = x.absolute := by
  rw [fraction_eq, scale_div, Nat.cast_one, div_one, absolute]

theorem significand_spec (x : Floating f) : f.minExponent ≤ x.significand.2 ∧
    x.significand.1 < 2 ^ (f.fractionBits + 1) ∧
    (f.minExponent < x.significand.2 → 2 ^ f.fractionBits ≤ x.significand.1) ∧
    x.magnitude = (x.significand.2 - f.minExponent).toNat * 2 ^ f.fractionBits +
      x.significand.1 := by
  have hd := Nat.div_add_mod' x.magnitude (2 ^ f.fractionBits)
  have hlt := Nat.mod_lt x.magnitude (Nat.two_pow_pos f.fractionBits)
  rw [pow_succ]
  simp only [significand]
  generalize x.magnitude / 2 ^ f.fractionBits = biased at hd ⊢
  generalize x.magnitude % 2 ^ f.fractionBits = fraction at hd hlt ⊢
  cases biased with
  | zero =>
    rw [if_pos rfl]
    refine ⟨le_rfl, by omega, fun h => absurd h (lt_irrefl _), ?_⟩
    rw [Int.sub_self, Int.toNat_zero]
    exact hd.symm
  | succ biased =>
    rw [if_neg (Nat.succ_ne_zero biased)]
    refine ⟨by omega, by omega, fun _ => by omega, ?_⟩
    rw [Nat.add_sub_cancel, add_sub_cancel_left, Int.toNat_natCast, ← hd, Nat.succ_mul]
    omega

theorem absolute_of_magnitude {x : Floating f} {k : ℕ} (hmin : f.minExponent ≤ q)
    (hk : k ≤ 2 ^ (f.fractionBits + 1)) (hlower : f.minExponent < q → 2 ^ f.fractionBits ≤ k)
    (hx : x.magnitude = (q - f.minExponent).toNat * 2 ^ f.fractionBits + k) :
    x.absolute = k * 2 ^ q := by
  obtain ⟨a, rfl⟩ : ∃ a : ℕ, q = f.minExponent + a := ⟨(q - f.minExponent).toNat, by omega⟩
  rw [add_sub_cancel_left, Int.toNat_natCast] at hx
  have hp := Nat.two_pow_pos f.fractionBits
  rw [pow_succ] at hk
  rcases Nat.lt_or_ge k (2 ^ f.fractionBits) with hsmall | hlarge
  · obtain rfl : a = 0 := by
      by_contra ha
      exact absurd (hlower (by omega)) (by omega)
    rw [Nat.zero_mul, Nat.zero_add] at hx
    simp [absolute, significand, hx, Nat.div_eq_of_lt hsmall, Nat.mod_eq_of_lt hsmall]
  · rcases Nat.lt_or_ge k (2 ^ f.fractionBits * 2) with hfits | hcarry
    · obtain ⟨r, rfl⟩ := Nat.exists_eq_add_of_le' hlarge
      have hr : r < 2 ^ f.fractionBits := by omega
      have hx' : x.magnitude = r + 2 ^ f.fractionBits * (a + 1) := by rw [hx]; ring
      simp [absolute, significand, hx', Nat.add_mul_div_left _ _ hp, Nat.div_eq_of_lt hr,
        Nat.mod_eq_of_lt hr]
    · -- the next power of two: its least multiple is the first pattern behind
      obtain rfl : k = 2 ^ f.fractionBits * 2 := by omega
      have hx' : x.magnitude = 2 ^ f.fractionBits * (a + 2) := by rw [hx]; ring
      simp only [absolute, significand, hx', Nat.mul_div_cancel_left _ hp, Nat.mul_mod_right]
      rw [if_neg (by omega), zpow_add₀ (by norm_num), zpow_add₀ (by norm_num)]
      push_cast
      rw [zpow_add_one₀ (by norm_num)]
      ring

theorem magnitude_lt_of_isFinite {x : Floating f} (h : x.isFinite) :
    x.magnitude < f.infinity := of_decide_eq_true h

theorem ofMagnitude_magnitude (x : Floating f) : ofMagnitude x.negative x.magnitude = x := by
  apply order_injective
  rw [order, order, negative_ofMagnitude _ (magnitude_lt_signBit x),
    magnitude_ofMagnitude _ (magnitude_lt_signBit x)]

theorem round_eq_of_magnitude {x : Floating f} {negative : Bool} (hn : x.negative = negative)
    (h : roundMagnitude f n d = x.magnitude) : round negative n d = x := by
  rw [round, h, ← hn, ofMagnitude_magnitude]

theorem absolute_eq_zero_iff {x : Floating f} : x.absolute = 0 ↔ x.magnitude = 0 := by
  obtain ⟨-, -, -, hmagnitude⟩ := significand_spec x
  rw [absolute, mul_eq_zero, or_iff_left (zpow_pos_two _).ne', Nat.cast_eq_zero]
  refine ⟨fun h => ?_, fun h => ?_⟩
  · by_contra hne
    exact significand_ne_zero hne h
  · omega

theorem roundMagnitude_absolute {x : Floating f} (hx : x.isFinite) (hd : 0 < d)
    (h : (n : ℚ) / d = x.absolute) :
    roundMagnitude f n d = x.magnitude := by
  obtain ⟨hmin, hupper, hlower, hmagnitude⟩ := significand_spec x
  by_cases hn : n = 0
  · rw [hn, Nat.cast_zero, zero_div, eq_comm, absolute_eq_zero_iff] at h
    rw [hn, h]
    rfl
  have hscaled : (n : ℚ) / d * 2 ^ (-x.significand.2) = x.significand.1 := by
    rw [h, absolute, mul_assoc, zpow_mul_zpow_neg, mul_one]
  have hspacing : spacing f n d = x.significand.2 := by
    apply spacing_eq hn hd hmin
    · rw [hscaled]
      exact_mod_cast hupper
    · rw [hscaled]
      exact_mod_cast hlower
  have hnear : Near ((n : ℚ) / d * 2 ^ (-spacing f n d)) x.significand.1 := by
    rw [hspacing, hscaled]
    exact near_natCast _
  rw [roundMagnitude_of_near hn hd hnear, hspacing, ← hmagnitude]
  exact min_eq_right (magnitude_lt_of_isFinite hx).le

theorem round_absolute {x : Floating f} (hx : x.isFinite) (hd : 0 < d)
    (h : (n : ℚ) / d = x.absolute) :
    round x.negative n d = x :=
  round_eq_of_magnitude rfl (roundMagnitude_absolute hx hd h)

theorem isFinite_round {negative : Bool} :
    (round negative n d : Floating f).isFinite ↔ roundMagnitude f n d < f.infinity := by
  rw [isFinite, magnitude_round, decide_eq_true_iff]

theorem absolute_round {negative : Bool} {k : ℕ} (hn : n ≠ 0) (hd : 0 < d)
    (hfinite : (round negative n d : Floating f).isFinite)
    (hk : Near (n / d * 2 ^ (-spacing f n d)) k) :
    (round negative n d : Floating f).absolute = k * 2 ^ spacing f n d := by
  obtain ⟨hmin, hupper, hlower⟩ := spacing_spec f hn hd
  have hdistance := abs_le.1 hk.abs_sub_le
  have hpattern := roundMagnitude_of_near hn hd hk
  have hmagnitude := isFinite_round.1 hfinite
  refine absolute_of_magnitude hmin ?_ (fun h => ?_) ?_
  · have : (k : ℚ) < (2 ^ (f.fractionBits + 1) + 1 : ℕ) := by
      push_cast
      linarith
    exact Nat.lt_succ_iff.1 (by exact_mod_cast this)
  · have := hlower h
    have : ((2 ^ f.fractionBits : ℕ) : ℚ) < (k + 1 : ℕ) := by
      push_cast
      linarith
    exact Nat.lt_succ_iff.1 (by exact_mod_cast this)
  · rw [magnitude_round]
    omega

theorem abs_sub_absolute_round_le {negative : Bool} (hn : n ≠ 0) (hd : 0 < d)
    (hfinite : (round negative n d : Floating f).isFinite) :
    |(n : ℚ) / d - (round negative n d : Floating f).absolute| ≤ 2 ^ spacing f n d / 2 := by
  obtain ⟨k, hk⟩ := exists_near n hd (-spacing f n d)
  have hpos := zpow_pos_two (spacing f n d)
  have hscaled : (n : ℚ) / d = n / d * 2 ^ (-spacing f n d) * 2 ^ spacing f n d := by
    rw [mul_assoc, mul_comm ((2 : ℚ) ^ (-_)), zpow_mul_zpow_neg, mul_one]
  rw [absolute_round hn hd hfinite hk]
  nth_rewrite 1 [hscaled]
  rw [← sub_mul, abs_mul, abs_of_pos hpos]
  have := mul_le_mul_of_nonneg_right hk.abs_sub_le hpos.le
  linarith

theorem absolute_round_of_exact {negative : Bool} {k : ℕ} (hd : 0 < d) (h : (n : ℚ) / d = k * 2 ^ e)
    (hk : k < 2 ^ (f.fractionBits + 1)) (he : f.minExponent ≤ e)
    (hfinite : (round negative n d : Floating f).isFinite) :
    (round negative n d : Floating f).absolute = n / d := by
  by_cases hn : n = 0
  · have hzero : roundMagnitude f n d = 0 := by rw [hn]; rfl
    rw [absolute_eq_zero_iff.2 ((magnitude_round _ _ _).trans hzero), hn, Nat.cast_zero, zero_div]
  have hscaled (q : ℤ) : (n : ℚ) / d * 2 ^ (-q) = k * 2 ^ (e - q) := by
    rw [h, mul_assoc, ← zpow_add₀ (by norm_num), sub_eq_add_neg]
  have hle : spacing f n d ≤ e := by
    obtain ⟨-, -, hlower⟩ := spacing_spec f hn hd
    by_contra hlt
    have hbits := hlower (he.trans_lt (not_le.1 hlt))
    rw [hscaled] at hbits
    have hhalf : (2 : ℚ) ^ (e - spacing f n d) ≤ 1 / 2 := by
      rw [one_div, ← zpow_neg_one]
      exact zpow_le_zpow_right₀ (by norm_num) (by omega)
    have hk' : (k : ℚ) < 2 ^ f.fractionBits * 2 := by
      rw [← pow_succ]
      exact_mod_cast hk
    have := mul_le_mul_of_nonneg_left hhalf (Nat.cast_nonneg (α := ℚ) k)
    linarith
  obtain ⟨j, hj⟩ : ∃ j : ℕ, e - spacing f n d = j := ⟨(e - spacing f n d).toNat, by omega⟩
  have hnear : Near ((n : ℚ) / d * 2 ^ (-spacing f n d)) (k * 2 ^ j) := by
    rw [hscaled, hj, zpow_natCast]
    exact_mod_cast near_natCast (k * 2 ^ j)
  rw [absolute_round hn hd hfinite hnear, h]
  push_cast
  rw [← zpow_natCast, ← hj, mul_assoc, ← zpow_add₀ (by norm_num), sub_add_cancel]

def Interval.Has (i : Interval) (r : ℚ) : Prop :=
  if i.closed then i.low / i.unit ≤ r ∧ r ≤ i.high / i.unit else i.low / i.unit < r ∧
    r < i.high / i.unit

/-- How far the interval of a number reaches below it: half of the distance to the number before it.
-/
def reach (x : Floating f) : ℚ :=
  if x.significand.1 = 2 ^ f.fractionBits ∧ f.minExponent < x.significand.2 then 1 / 4 else 1 / 2

theorem unit_pos (x : Floating f) : 0 < x.interval.unit := scale_pos Nat.one_pos _

theorem div_unit (x : Floating f) (k : ℕ) :
    (((k * (scale 1 1 (x.significand.2 - 2)).1 : ℕ) : ℚ)) / x.interval.unit =
      k / 4 * 2 ^ x.significand.2 := by
  have hscale := scale_div 1 1 (x.significand.2 - 2)
  rw [Nat.cast_one, div_one, one_mul, zpow_sub₀ (by norm_num)] at hscale
  rw [Nat.cast_mul, mul_div_assoc, show x.interval.unit = (scale 1 1 (x.significand.2 - 2)).2
    from rfl, hscale]
  ring

theorem low_div {x : Floating f} (h0 : x.magnitude ≠ 0) :
    (x.interval.low : ℚ) / x.interval.unit = (x.significand.1 - x.reach) * 2 ^ x.significand.2 := by
  have hpos := Nat.pos_of_ne_zero (significand_ne_zero h0)
  have hlow : x.interval.low = (4 * x.significand.1 - if x.significand.1 = 2 ^ f.fractionBits ∧
      f.minExponent < x.significand.2 then 1 else 2) * (scale 1 1 (x.significand.2 - 2)).1 := rfl
  rw [hlow, div_unit, reach]
  split
  · rw [Nat.cast_sub (by omega)]
    push_cast
    ring
  · rw [Nat.cast_sub (by omega)]
    push_cast
    ring

theorem high_div (x : Floating f) :
    (x.interval.high : ℚ) / x.interval.unit = (x.significand.1 + 1 / 2) * 2 ^ x.significand.2 := by
  have hhigh : x.interval.high = (4 * x.significand.1 + 2) * (scale 1 1 (x.significand.2 - 2)).1 :=
    rfl
  rw [hhigh, div_unit]
  push_cast
  ring

theorem value_div (x : Floating f) :
    (x.interval.value : ℚ) / x.interval.unit = x.absolute := by
  have hvalue : x.interval.value = 4 * x.significand.1 * (scale 1 1 (x.significand.2 - 2)).1 := rfl
  rw [hvalue, div_unit, absolute]
  push_cast
  ring

theorem reach_bounds (x : Floating f) : 1 / 4 ≤ x.reach ∧ x.reach ≤ 1 / 2 := by
  rw [reach]
  split <;> constructor <;> norm_num

theorem Interval.Has.scaled {x : Floating f} {r : ℚ} (h0 : x.magnitude ≠ 0) (h : x.interval.Has r) :
    x.significand.1 - x.reach ≤ r * 2 ^ (-x.significand.2) ∧
    r * 2 ^ (-x.significand.2) ≤ x.significand.1 + 1 / 2 ∧
      (x.significand.1 % 2 ≠ 0 → x.significand.1 - x.reach < r * 2 ^ (-x.significand.2) ∧
        r * 2 ^ (-x.significand.2) < x.significand.1 + 1 / 2) := by
  have hpos := zpow_pos_two x.significand.2
  rw [zpow_neg, ← div_eq_mul_inv, le_div_iff₀ hpos, div_le_iff₀ hpos, lt_div_iff₀ hpos,
    div_lt_iff₀ hpos, ← low_div h0, ← high_div]
  rw [Interval.Has] at h
  split at h
  · rename_i hclosed
    exact ⟨h.1, h.2, fun hodd => absurd (of_decide_eq_true hclosed) hodd⟩
  · exact ⟨h.1.le, h.2.le, fun _ => h⟩

theorem Interval.Has.near {x : Floating f} {r : ℚ} (h0 : x.magnitude ≠ 0) (h : x.interval.Has r) :
    Near (r * 2 ^ (-x.significand.2)) x.significand.1 := by
  obtain ⟨hlow, hhigh, hodd⟩ := h.scaled h0
  obtain ⟨-, hreach⟩ := reach_bounds x
  by_cases heven : x.significand.1 % 2 = 0
  · refine .of_le (abs_le.2 ?_) (Nat.even_iff.2 heven)
    constructor <;> linarith
  · obtain ⟨hlow', hhigh'⟩ := hodd heven
    refine .inl (abs_lt.2 ?_)
    constructor <;> linarith

theorem Interval.Has.of_below {x : Floating f} {r : ℚ} (h0 : x.magnitude ≠ 0) (h : x.interval.Has r)
    (hmin : f.minExponent < x.significand.2)
    (hbelow : r * 2 ^ (-x.significand.2) < 2 ^ f.fractionBits) :
    x.significand.1 = 2 ^ f.fractionBits ∧
    2 ^ f.fractionBits - 1 / 4 ≤ r * 2 ^ (-x.significand.2) := by
  obtain ⟨-, -, hleast, -⟩ := significand_spec x
  obtain ⟨hlow, -, -⟩ := h.scaled h0
  obtain ⟨-, hreach⟩ := reach_bounds x
  have heq : x.significand.1 = 2 ^ f.fractionBits := by
    refine le_antisymm ?_ (hleast hmin)
    have : (x.significand.1 : ℚ) < (2 ^ f.fractionBits + 1 : ℕ) := by
      push_cast
      linarith
    exact Nat.lt_succ_iff.1 (by exact_mod_cast this)
  have hquarter : x.reach = 1 / 4 := if_pos ⟨heq, hmin⟩
  rw [heq, hquarter] at hlow
  exact ⟨heq, by exact_mod_cast hlow⟩

theorem roundMagnitude_of_below {x : Floating f} (hx : x.isFinite) (hn : n ≠ 0) (hd : 0 < d)
    (hmin : f.minExponent < x.significand.2) (heq : x.significand.1 = 2 ^ f.fractionBits)
    (hlow : (2 : ℚ) ^ f.fractionBits - 1 / 4 ≤ n / d * 2 ^ (-x.significand.2))
    (hbelow : (n : ℚ) / d * 2 ^ (-x.significand.2) < 2 ^ f.fractionBits) :
    roundMagnitude f n d = x.magnitude := by
  have hone : (1 : ℚ) ≤ 2 ^ f.fractionBits := one_le_pow₀ (by norm_num)
  have hdouble : (n : ℚ) / d * 2 ^ (-(x.significand.2 - 1)) =
      n / d * 2 ^ (-x.significand.2) * 2 := by
    rw [mul_assoc, ← zpow_add_one₀ (by norm_num), neg_sub', sub_neg_eq_add]
  have hspacing : spacing f n d = x.significand.2 - 1 := by
    apply spacing_eq hn hd (by omega)
    · rw [hdouble, pow_succ]
      linarith
    · intro _
      rw [hdouble]
      linarith
  have hnear : Near ((n : ℚ) / d * 2 ^ (-spacing f n d)) (2 ^ (f.fractionBits + 1)) := by
    rw [hspacing, hdouble]
    refine .of_le ?_ (by simp [Nat.even_pow])
    push_cast
    rw [pow_succ, abs_le]
    constructor <;> linarith
  have hpattern : (x.significand.2 - 1 - f.minExponent).toNat * 2 ^ f.fractionBits +
      2 ^ (f.fractionBits + 1) =
      x.magnitude := by
    obtain ⟨a, ha⟩ : ∃ a : ℕ, x.significand.2 = f.minExponent + a + 1 :=
      ⟨(x.significand.2 - f.minExponent - 1).toNat, by omega⟩
    obtain ⟨-, -, -, hmagnitude⟩ := significand_spec x
    rw [hmagnitude, heq, ha, show f.minExponent + a + 1 - 1 - f.minExponent = a by ring,
      show f.minExponent + a + 1 - f.minExponent = (a + 1 : ℕ) by
        push_cast; ring, Int.toNat_natCast,
      Int.toNat_natCast]
    ring
  rw [roundMagnitude_of_near hn hd hnear, hspacing, hpattern]
  exact min_eq_right (magnitude_lt_of_isFinite hx).le

theorem roundMagnitude_of_has {x : Floating f} (hx : x.isFinite) (h0 : x.magnitude ≠ 0) (hd : 0 < d)
    (h : x.interval.Has (n / d)) : roundMagnitude f n d = x.magnitude := by
  obtain ⟨hmin, hbits, -, hmagnitude⟩ := significand_spec x
  obtain ⟨hlow, hhigh, -⟩ := h.scaled h0
  obtain ⟨-, hreach⟩ := reach_bounds x
  have hn : n ≠ 0 := by
    rintro rfl
    have : (1 : ℚ) ≤ x.significand.1 := by
      exact_mod_cast Nat.pos_of_ne_zero (significand_ne_zero h0)
    rw [Nat.cast_zero, zero_div, zero_mul] at hlow
    linarith
  by_cases hbelow : f.minExponent < x.significand.2 ∧
    (n : ℚ) / d * 2 ^ (-x.significand.2) < 2 ^ f.fractionBits
  · obtain ⟨heq, hlow'⟩ := h.of_below h0 hbelow.1 hbelow.2
    exact roundMagnitude_of_below hx hn hd hbelow.1 heq hlow' hbelow.2
  · have hspacing : spacing f n d = x.significand.2 := by
      refine spacing_eq hn hd hmin ?_ fun hmin' => not_lt.1 fun hlt => hbelow ⟨hmin', hlt⟩
      have : (x.significand.1 : ℚ) + 1 ≤ 2 ^ (f.fractionBits + 1) := by exact_mod_cast hbits
      linarith
    have hnear : Near ((n : ℚ) / d * 2 ^ (-spacing f n d)) x.significand.1 := by
      rw [hspacing]
      exact h.near h0
    rw [roundMagnitude_of_near hn hd hnear, hspacing, ← hmagnitude]
    exact min_eq_right (magnitude_lt_of_isFinite hx).le

end TableScan.Floating
