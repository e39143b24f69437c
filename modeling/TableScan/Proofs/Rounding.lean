import TableScan.Floating.Format
import Mathlib.Tactic.Ring
import Mathlib.Tactic.Linarith

namespace TableScan.Floating

variable {f : FloatFormat}

theorem roundDiv_mul {d : Nat} (h : 0 < d) (k : Nat) : roundDiv (k * d) d = k := by
  simp [roundDiv, Nat.mul_div_cancel _ h, h]

theorem div_le_roundDiv (n d : Nat) : n / d ≤ roundDiv n d := by
  simp only [roundDiv]
  split
  · exact le_rfl
  · split
    · exact Nat.le_succ _
    · split
      · exact le_rfl
      · exact Nat.le_succ _

theorem roundDiv_le_succ (n d : Nat) : roundDiv n d ≤ n / d + 1 := by
  simp only [roundDiv]
  split
  · exact Nat.le_succ _
  · split
    · exact le_rfl
    · split
      · exact Nat.le_succ _
      · exact le_rfl

theorem roundDiv_mono {n m : Nat} (d : Nat) (h : n ≤ m) : roundDiv n d ≤ roundDiv m d := by
  have hq : n / d ≤ m / d := Nat.div_le_div_right h
  rcases hq.lt_or_eq with hlt | heq
  · calc
      roundDiv n d ≤ n / d + 1 := roundDiv_le_succ n d
      _ ≤ m / d := hlt
      _ ≤ roundDiv m d := div_le_roundDiv m d
  · have hr : n % d ≤ m % d := by
      have hn := Nat.div_add_mod n d
      have hm := Nat.div_add_mod m d
      rw [heq] at hn
      omega
    simp only [roundDiv, heq]
    split_ifs <;> omega

theorem le_roundDiv {n d k : Nat} (hd : 0 < d) (h : k * d ≤ n) : k ≤ roundDiv n d := by
  rw [← roundDiv_mul hd k]
  exact roundDiv_mono d h

theorem roundDiv_le {n d k : Nat} (hd : 0 < d) (h : n ≤ k * d) : roundDiv n d ≤ k := by
  rw [← roundDiv_mul hd k]
  exact roundDiv_mono d h

theorem log2_one {n : Nat} (h : n ≠ 0) : log2 n 1 = n.log2 := by
  have h1 : Nat.log2 1 = 0 := Nat.log2_two_pow (n := 0)
  have hle : 2 ^ n.log2 ≤ n := Nat.log2_self_le h
  simp only [log2, h1, scale]
  by_cases h0 : n.log2 = 0
  · simp [h0, Nat.one_le_iff_ne_zero, h]
  · simp [h0, hle]

theorem log2_scale {m : Nat} (h : m ≠ 0) (q : Int) :
    log2 (scale m 1 q).1 (scale m 1 q).2 = m.log2 + q := by
  by_cases hq : 0 ≤ q
  · obtain ⟨k, rfl⟩ := Int.eq_ofNat_of_zero_le hq
    have hs : scale m 1 (k : Int) = (m * 2 ^ k, 1) := by simp [scale]
    have hk : (m * 2 ^ k).log2 = m.log2 + k := by
      rw [Nat.log2_eq_iff (by positivity), pow_add, show m.log2 + k + 1 = (m.log2 + 1) + k by omega,
        pow_add]
      exact ⟨Nat.mul_le_mul_right _ (Nat.log2_self_le h),
        Nat.mul_lt_mul_of_pos_right Nat.lt_log2_self (Nat.two_pow_pos k)⟩
    rw [hs, log2_one (by positivity), hk]
    push_cast
    rfl
  · obtain ⟨k, hk⟩ : ∃ k : Nat, q = -(k : Int) := ⟨q.natAbs, by omega⟩
    subst hk
    have hk0 : k ≠ 0 := by omega
    have hs : scale m 1 (-(k : Int)) = (m, 2 ^ k) := by simp [scale, hk0]
    have hle : 2 ^ m.log2 ≤ m := Nat.log2_self_le h
    rw [hs]
    simp only [log2, Nat.log2_two_pow, scale]
    by_cases hL : m.log2 ≤ k
    · have h0 : (0 : Int) ≤ -((m.log2 : Int) - k) := by omega
      have ht : (-((m.log2 : Int) - k)).toNat = k - m.log2 := by omega
      have hp : 2 ^ k ≤ m * 2 ^ (k - m.log2) := by
        calc
          2 ^ k = 2 ^ m.log2 * 2 ^ (k - m.log2) := by rw [← pow_add]; congr 1; omega
          _ ≤ m * 2 ^ (k - m.log2) := Nat.mul_le_mul_right _ hle
      simp only [h0, ↓reduceIte, ht, hp]
      omega
    · have h0 : ¬ (0 : Int) ≤ -((m.log2 : Int) - k) := by omega
      have ht : (- -((m.log2 : Int) - k)).toNat = m.log2 - k := by omega
      have hp : 2 ^ k * 2 ^ (m.log2 - k) ≤ m := by
        rw [← pow_add, show k + (m.log2 - k) = m.log2 by omega]
        exact hle
      simp only [h0, ↓reduceIte, ht, hp]
      omega

theorem roundMagnitude_eq {num den : Nat} (h : num ≠ 0)
    (hq : f.minExponent ≤ log2 num den - f.fractionBits) :
    roundMagnitude f num den = min f.infinity
      ((log2 num den - f.fractionBits - f.minExponent).toNat * 2 ^ f.fractionBits +
        roundDiv (scale num den (f.fractionBits - log2 num den)).1
          (scale num den (f.fractionBits - log2 num den)).2) := by
  simp only [roundMagnitude, h, ↓reduceIte, max_eq_left hq, neg_sub]

theorem pattern_gap {p a b t : Nat} (h : a < b) (ht : 2 ^ p ≤ t) :
    a * 2 ^ p + 2 ^ (p + 1) ≤ b * 2 ^ p + t := by
  have hb : (a + 1) * 2 ^ p ≤ b * 2 ^ p := Nat.mul_le_mul_right _ h
  rw [Nat.add_mul, Nat.one_mul] at hb
  rw [pow_succ]
  omega

theorem minExponent_le (f : FloatFormat) : f.minExponent ≤ -(f.fractionBits : Int) := by
  cases f <;> decide

theorem roundDiv_scale_bounds {n : Nat} (h : n ≠ 0) (p : Nat) :
    2 ^ p ≤ roundDiv (scale n 1 (p - n.log2)).1 (scale n 1 (p - n.log2)).2 ∧
      roundDiv (scale n 1 (p - n.log2)).1 (scale n 1 (p - n.log2)).2 ≤ 2 ^ (p + 1) := by
  have hle : 2 ^ n.log2 ≤ n := Nat.log2_self_le h
  have hlt : n < 2 ^ (n.log2 + 1) := Nat.lt_log2_self
  by_cases hL : n.log2 ≤ p
  · have hs : scale n 1 ((p : Int) - n.log2) = (n * 2 ^ (p - n.log2), 1) := by
      have : ((p : Int) - n.log2).toNat = p - n.log2 := by omega
      simp [scale, hL, this]
    rw [hs]
    constructor
    · apply le_roundDiv Nat.one_pos
      calc
        2 ^ p * 1 = 2 ^ n.log2 * 2 ^ (p - n.log2) := by rw [mul_one, ← pow_add]; congr 1; omega
        _ ≤ n * 2 ^ (p - n.log2) := Nat.mul_le_mul_right _ hle
    · apply roundDiv_le Nat.one_pos
      calc
        n * 2 ^ (p - n.log2) ≤ 2 ^ (n.log2 + 1) * 2 ^ (p - n.log2) := Nat.mul_le_mul_right _ hlt.le
        _ = 2 ^ (p + 1) * 1 := by rw [mul_one, ← pow_add]; congr 1; omega
  · have hs : scale n 1 ((p : Int) - n.log2) = (n, 2 ^ (n.log2 - p)) := by
      have h0 : ¬ (0 : Int) ≤ (p : Int) - n.log2 := by omega
      have : (-((p : Int) - n.log2)).toNat = n.log2 - p := by omega
      simp only [scale, h0, ↓reduceIte, this, one_mul]
    rw [hs]
    constructor
    · apply le_roundDiv (Nat.two_pow_pos _)
      rw [← pow_add, show p + (n.log2 - p) = n.log2 by omega]
      exact hle
    · apply roundDiv_le (Nat.two_pow_pos _)
      rw [← pow_add, show p + 1 + (n.log2 - p) = n.log2 + 1 by omega]
      exact hlt.le

theorem roundMagnitude_mono (f : FloatFormat) {n m : Nat} (h : n ≤ m) :
    roundMagnitude f n 1 ≤ roundMagnitude f m 1 := by
  by_cases hn : n = 0
  · simp [hn, roundMagnitude]
  have hm : m ≠ 0 := by omega
  have hmin := minExponent_le f
  have hL : n.log2 ≤ m.log2 := (Nat.le_log2 hm).2 ((Nat.log2_self_le hn).trans h)
  rw [roundMagnitude_eq hn (by rw [log2_one hn]; omega),
    roundMagnitude_eq hm (by rw [log2_one hm]; omega), log2_one hn, log2_one hm]
  apply min_le_min_left
  rcases hL.lt_or_eq with hlt | heq
  · exact (Nat.add_le_add_left (roundDiv_scale_bounds hn _).2 _).trans
      (pattern_gap (by omega) (roundDiv_scale_bounds hm _).1)
  · rw [heq]
    apply Nat.add_le_add_left
    simp only [scale]
    split
    · exact roundDiv_mono _ (Nat.mul_le_mul_right _ h)
    · exact roundDiv_mono _ h

theorem two_pow_width (f : FloatFormat) : 2 ^ f.width = 2 * signBit f := by cases f <;> rfl

theorem signBit_pos (f : FloatFormat) : 0 < signBit f := Nat.two_pow_pos _

theorem toNat_ofMagnitude (negative : Bool) {m : Nat} (h : m < signBit f) :
    (ofMagnitude negative m : Floating f).bits.toNat = m + if negative then signBit f else 0 := by
  simp only [ofMagnitude, BitVec.toNat_ofNat, Nat.mod_eq_of_lt h, two_pow_width]
  apply Nat.mod_eq_of_lt
  split <;> omega

theorem magnitude_ofMagnitude (negative : Bool) {m : Nat} (h : m < signBit f) :
    (ofMagnitude negative m : Floating f).magnitude = m := by
  rw [magnitude, toNat_ofMagnitude negative h]
  cases negative
  · simpa using Nat.mod_eq_of_lt h
  · simpa using Nat.mod_eq_of_lt h

theorem negative_ofMagnitude (negative : Bool) {m : Nat} (h : m < signBit f) :
    (ofMagnitude negative m : Floating f).negative = negative := by
  rw [Floating.negative, toNat_ofMagnitude negative h]
  cases negative <;> simp [h]

theorem infinity_lt_signBit (f : FloatFormat) : f.infinity < signBit f := by
  cases f <;> decide

theorem roundMagnitude_le_infinity (f : FloatFormat) (n d : Nat) :
    roundMagnitude f n d ≤ f.infinity := by
  simp only [roundMagnitude]
  split
  · exact Nat.zero_le _
  · exact min_le_left _ _

theorem roundMagnitude_lt_signBit (f : FloatFormat) (n d : Nat) :
    roundMagnitude f n d < signBit f :=
  (roundMagnitude_le_infinity f n d).trans_lt (infinity_lt_signBit f)

theorem order_round (negative : Bool) (n d : Nat) :
    (round negative n d : Floating f).order =
      if negative then -(roundMagnitude f n d : Int) - 1 else roundMagnitude f n d := by
  simp only [order, round, negative_ofMagnitude _ (roundMagnitude_lt_signBit f n d),
    magnitude_ofMagnitude _ (roundMagnitude_lt_signBit f n d)]

theorem order_ofInt_mono {i j : Int} (h : i ≤ j) :
    (ofInt i : Floating f).order ≤ (ofInt j : Floating f).order := by
  simp only [ofInt, order_round, decide_eq_true_eq]
  by_cases hi : i < 0
  · by_cases hj : j < 0
    · have := roundMagnitude_mono f (show j.natAbs ≤ i.natAbs by omega)
      simp only [hi, hj, ↓reduceIte]
      omega
    · simp only [hi, hj, ↓reduceIte]
      omega
  · have hj : ¬ j < 0 := by omega
    have := roundMagnitude_mono f (show i.natAbs ≤ j.natAbs by omega)
    simp only [hi, hj, ↓reduceIte]
    omega

theorem order_injective : Function.Injective (order : Floating f → Int) := by
  intro x y h
  have hx := x.bits.isLt
  have hy := y.bits.isLt
  have hs := signBit_pos f
  rw [two_pow_width] at hx hy
  have hxm := Nat.div_add_mod x.bits.toNat (signBit f)
  have hym := Nat.div_add_mod y.bits.toNat (signBit f)
  have hx2 : x.bits.toNat / signBit f < 2 := Nat.div_lt_of_lt_mul (by omega)
  have hy2 : y.bits.toNat / signBit f < 2 := Nat.div_lt_of_lt_mul (by omega)
  have hbits : x.bits.toNat = y.bits.toNat := by
    simp only [order, Floating.negative, magnitude, decide_eq_true_eq] at h
    split_ifs at h with h1 h2 h2 <;> [skip; omega; omega; skip]
    · have h1' : x.bits.toNat / signBit f = 1 := by
        have := (Nat.one_le_div_iff hs).2 h1; omega
      have h2' : y.bits.toNat / signBit f = 1 := by
        have := (Nat.one_le_div_iff hs).2 h2; omega
      rw [h1'] at hxm
      rw [h2'] at hym
      omega
    · rw [Nat.mod_eq_of_lt (by omega), Nat.mod_eq_of_lt (by omega)] at h
      exact_mod_cast h
  cases x; cases y
  exact congrArg Floating.mk (BitVec.eq_of_toNat_eq hbits)

def isSignalling (x : Floating f) : Bool :=
  x.isNaN && x.magnitude % 2 ^ f.fractionBits < 2 ^ (f.fractionBits - 1)

theorem roundDiv_scale_scale {m : Nat} {q e : Int} (h : 0 ≤ q + e) :
    roundDiv (scale (scale m 1 q).1 (scale m 1 q).2 e).1
    (scale (scale m 1 q).1 (scale m 1 q).2 e).2 =
      m * 2 ^ (q + e).toNat := by
  have exact_ (n d a b : Nat) (hn : n = m * 2 ^ a) (hd : d = 2 ^ b) (hab : a = (q + e).toNat + b) :
      roundDiv n d = m * 2 ^ (q + e).toNat := by
    rw [hn, hd, hab, pow_add, ← mul_assoc, roundDiv_mul (Nat.two_pow_pos _)]
  simp only [scale]
  split_ifs with he hq hq
  · exact exact_ _ _ (q.toNat + e.toNat) 0 (by rw [pow_add, mul_assoc]) rfl (by omega)
  · exact exact_ _ _ e.toNat (-q).toNat rfl (one_mul _) (by omega)
  · exact exact_ _ _ q.toNat (-e).toNat rfl (one_mul _) (by omega)
  · omega

theorem roundMagnitude_scale {m : Nat} {q : Int} (hm : m ≠ 0) (hL : m.log2 ≤ f.fractionBits)
    (hq : f.minExponent ≤ m.log2 + q - f.fractionBits) :
    roundMagnitude f (scale m 1 q).1 (scale m 1 q).2 = min f.infinity
      ((m.log2 + q - f.fractionBits - f.minExponent).toNat * 2 ^ f.fractionBits +
        m * 2 ^ (f.fractionBits - m.log2)) := by
  have hn : (scale m 1 q).1 ≠ 0 := by
    simp only [scale]
    split
    · exact Nat.mul_ne_zero hm (Nat.two_pow_pos _).ne'
    · exact hm
  rw [roundMagnitude_eq hn (by rw [log2_scale hm]; exact hq), log2_scale hm,
    roundDiv_scale_scale (by omega)]
  congr 4
  omega

theorem roundMagnitude_succ {n : Nat} (h : n < 2 ^ 53) :
    roundMagnitude .double n 1 < roundMagnitude .double (n + 1) 1 := by
  have exact_ {m : Nat} (h0 : m ≠ 0) (hm : m < 2 ^ 53) : m.log2 ≤ 52 ∧
      roundMagnitude .double m 1 = (m.log2 + 1022) * 2 ^ 52 + m * 2 ^ (52 - m.log2) := by
    have hL : m.log2 ≤ 52 := Nat.lt_succ_iff.1 ((Nat.log2_lt h0).2 hm)
    have hlt : m * 2 ^ (52 - m.log2) ≤ 2 ^ 53 := by
      calc
        m * 2 ^ (52 - m.log2) ≤ 2 ^ (m.log2 + 1) * 2 ^ (52 - m.log2) :=
          Nat.mul_le_mul_right _ Nat.lt_log2_self.le
        _ = 2 ^ 53 := by rw [← pow_add]; congr 1; omega
    have hr := roundMagnitude_scale (f := .double) (q := 0) h0 hL
      (by simp only [FloatFormat.minExponent, FloatFormat.exponentBits,
        FloatFormat.fractionBits]; omega)
    have hs : scale m 1 0 = (m, 1) := by simp [scale]
    have hn : ((m.log2 : Int) + 0 - FloatFormat.double.fractionBits -
        FloatFormat.double.minExponent).toNat = m.log2 + 1022 := by
      simp only [FloatFormat.minExponent, FloatFormat.exponentBits, FloatFormat.fractionBits]
      omega
    refine ⟨hL, ?_⟩
    rw [hs] at hr
    rw [hr, hn, min_eq_right]
    · rfl
    · simp only [FloatFormat.infinity, FloatFormat.exponentBits, FloatFormat.fractionBits]
      omega
  by_cases h0 : n = 0
  · subst h0
    decide
  by_cases ht : n + 1 = 2 ^ 53
  · obtain rfl : n = 2 ^ 53 - 1 := by omega
    decide +kernel
  obtain ⟨hL, hn⟩ := exact_ h0 h
  obtain ⟨hL', hn'⟩ := exact_ (show n + 1 ≠ 0 by omega) (by omega)
  rw [hn, hn']
  have hle : n.log2 ≤ (n + 1).log2 :=
    (Nat.le_log2 (by omega)).2 ((Nat.log2_self_le h0).trans (Nat.le_succ n))
  rcases hle.lt_or_eq with hlt | heq
  · have hlow : n * 2 ^ (52 - n.log2) < 2 ^ 53 := by
      calc
        n * 2 ^ (52 - n.log2) < 2 ^ (n.log2 + 1) * 2 ^ (52 - n.log2) :=
          Nat.mul_lt_mul_of_pos_right Nat.lt_log2_self (Nat.two_pow_pos _)
        _ = 2 ^ 53 := by rw [← pow_add]; congr 1; omega
    have hhigh : 2 ^ 52 ≤ (n + 1) * 2 ^ (52 - (n + 1).log2) := by
      calc
        2 ^ 52 = 2 ^ (n + 1).log2 * 2 ^ (52 - (n + 1).log2) := by rw [← pow_add]; congr 1; omega
        _ ≤ (n + 1) * 2 ^ (52 - (n + 1).log2) :=
          Nat.mul_le_mul_right _ (Nat.log2_self_le (by omega))
    have := pattern_gap (show n.log2 + 1022 < (n + 1).log2 + 1022 by omega) hhigh
    omega
  · rw [← heq]
    have := Nat.two_pow_pos (52 - n.log2)
    rw [Nat.add_mul n 1]
    omega

theorem order_ofInt_lt {i j : Int} (h : i < j) (hs : i.natAbs < 2 ^ 53 ∨ j.natAbs < 2 ^ 53) :
    (ofInt i : Floating .double).order < (ofInt j : Floating .double).order := by
  have strict {n m : Nat} (hn : n < m) (h : n < 2 ^ 53) :
      roundMagnitude .double n 1 < roundMagnitude .double m 1 :=
    (roundMagnitude_succ h).trans_le (roundMagnitude_mono .double hn)
  simp only [ofInt, order_round, decide_eq_true_eq]
  by_cases hi : i < 0
  · by_cases hj : j < 0
    · have := strict (show j.natAbs < i.natAbs by omega) (by omega)
      simp only [hi, hj, ↓reduceIte]
      omega
    · simp only [hi, hj, ↓reduceIte]
      omega
  · have hj : ¬ j < 0 := by omega
    have := strict (show i.natAbs < j.natAbs by omega) (by omega)
    simp only [hi, hj, ↓reduceIte]
    omega

theorem significand_bounds {x : Floating .single} (h : x.isFinite) :
    x.significand.1 < 2 ^ 24 ∧ -149 ≤ x.significand.2 ∧ x.significand.2 ≤ 104 := by
  simp only [isFinite, decide_eq_true_eq] at h
  have hi : FloatFormat.single.infinity = 255 * 2 ^ 23 := rfl
  have hb : x.magnitude / 2 ^ 23 < 255 := Nat.div_lt_of_lt_mul (by omega)
  have hf : x.magnitude % 2 ^ 23 < 2 ^ 23 := Nat.mod_lt _ (by decide)
  simp only [significand, FloatFormat.fractionBits,
    show FloatFormat.single.minExponent = -149 from rfl]
  split
  · exact ⟨by omega, le_rfl, by omega⟩
  · exact ⟨by omega, by omega, by omega⟩

theorem significand_lt {x y : Floating .single} (hx : x.magnitude ≠ 0)
    (h : x.magnitude < y.magnitude) :
    (x.significand.1.log2 : Int) + x.significand.2 < y.significand.1.log2 + y.significand.2 ∨
      x.significand.1.log2 = y.significand.1.log2 ∧ x.significand.2 = y.significand.2 ∧
        x.significand.1 < y.significand.1 := by
  have hxd := Nat.div_add_mod x.magnitude (2 ^ 23)
  have hyd := Nat.div_add_mod y.magnitude (2 ^ 23)
  have hxf : x.magnitude % 2 ^ 23 < 2 ^ 23 := Nat.mod_lt _ (by decide)
  have hyf : y.magnitude % 2 ^ 23 < 2 ^ 23 := Nat.mod_lt _ (by decide)
  have hnormal {k : Nat} (hk : k < 2 ^ 23) : (k + 2 ^ 23).log2 = 23 :=
    (Nat.log2_eq_iff (by omega)).2 ⟨by omega, by omega⟩
  simp only [significand, FloatFormat.fractionBits,
    show FloatFormat.single.minExponent = -149 from rfl]
  generalize x.magnitude / 2 ^ 23 = bx at *
  generalize y.magnitude / 2 ^ 23 = by_ at *
  generalize x.magnitude % 2 ^ 23 = fx at *
  generalize y.magnitude % 2 ^ 23 = fy at *
  by_cases hbx : bx = 0
  · have hfx : fx ≠ 0 := by omega
    have hfx' : fx.log2 < 23 := (Nat.log2_lt hfx).2 hxf
    by_cases hby : by_ = 0
    · have hlt : fx < fy := by omega
      have hle : fx.log2 ≤ fy.log2 :=
        (Nat.le_log2 (by omega)).2 ((Nat.log2_self_le hfx).trans hlt.le)
      simp only [hbx, hby, ↓reduceIte, true_and]
      omega
    · simp only [hbx, hby, ↓reduceIte, hnormal hyf]
      omega
  · have hby : by_ ≠ 0 := by omega
    simp only [hbx, hby, ↓reduceIte, hnormal hxf, hnormal hyf, true_and]
    omega

theorem significand_ne_zero {x : Floating f} (h : x.magnitude ≠ 0) : x.significand.1 ≠ 0 := by
  have hd := Nat.div_add_mod x.magnitude (2 ^ f.fractionBits)
  have hp := Nat.two_pow_pos f.fractionBits
  simp only [significand]
  split
  · rename_i h0
    rw [h0, Nat.mul_zero, Nat.zero_add] at hd
    omega
  · omega

theorem two_pow_le_significand {p m : Nat} (hm : m ≠ 0) (hL : m.log2 ≤ p) :
    2 ^ p ≤ m * 2 ^ (p - m.log2) ∧ m * 2 ^ (p - m.log2) < 2 ^ (p + 1) := by
  constructor
  · calc
      2 ^ p = 2 ^ m.log2 * 2 ^ (p - m.log2) := by rw [← pow_add]; congr 1; omega
      _ ≤ m * 2 ^ (p - m.log2) := Nat.mul_le_mul_right _ (Nat.log2_self_le hm)
  · calc
      m * 2 ^ (p - m.log2) < 2 ^ (m.log2 + 1) * 2 ^ (p - m.log2) :=
        Nat.mul_lt_mul_of_pos_right Nat.lt_log2_self (Nat.two_pow_pos _)
      _ = 2 ^ (p + 1) := by rw [← pow_add]; congr 1; omega

theorem log2_significand_le {x : Floating .single} (h : x.isFinite) (h0 : x.significand.1 ≠ 0) :
    x.significand.1.log2 ≤ 23 :=
  Nat.lt_succ_iff.1 ((Nat.log2_lt h0).2 (significand_bounds h).1)

theorem isNaN_of_isFinite {x : Floating f} (h : x.isFinite) : x.isNaN = false := by
  simp only [isFinite, isNaN, decide_eq_true_eq, decide_eq_false_iff_not] at h ⊢
  omega

theorem isInfinite_of_isFinite {x : Floating f} (h : x.isFinite) : x.isInfinite = false := by
  simp only [isFinite, isInfinite, decide_eq_true_eq, beq_eq_false_iff_ne] at h ⊢
  omega

theorem isNaN_of_isInfinite {x : Floating f} (h : x.isInfinite) : x.isNaN = false := by
  simp only [isInfinite, isNaN, beq_iff_eq, decide_eq_false_iff_not] at h ⊢
  omega

theorem isFinite_or (x : Floating f) : x.isFinite ∨ x.isInfinite ∨ x.isNaN := by
  simp only [isFinite, isInfinite, isNaN, decide_eq_true_eq, beq_iff_eq]
  omega

theorem magnitude_round (negative : Bool) (n d : Nat) :
    (round negative n d : Floating f).magnitude = roundMagnitude f n d :=
  magnitude_ofMagnitude _ (roundMagnitude_lt_signBit f n d)

theorem magnitude_convert_of_isFinite {g : FloatFormat} {x : Floating f} (h : x.isFinite) :
    (x.convert : Floating g).magnitude = roundMagnitude g x.fraction.1 x.fraction.2 := by
  simp only [convert, isNaN_of_isFinite h, isInfinite_of_isFinite h, Bool.false_eq_true, ↓reduceIte]
  exact magnitude_round _ _ _

theorem magnitude_convert_of_isInfinite {g : FloatFormat} {x : Floating f} (h : x.isInfinite) :
    (x.convert : Floating g).magnitude = g.infinity := by
  simp only [convert, isNaN_of_isInfinite h, h, Bool.false_eq_true, ↓reduceIte]
  exact magnitude_ofMagnitude _ (infinity_lt_signBit g)

theorem fraction_eq (x : Floating f) : x.fraction = scale x.significand.1 1 x.significand.2 := rfl

theorem magnitude_convert_of_zero {g : FloatFormat} {x : Floating f} (h : x.isFinite)
    (h0 : x.significand.1 = 0) : (x.convert : Floating g).magnitude = 0 := by
  have hz : (scale 0 1 x.significand.2).1 = 0 := by
    simp only [scale]
    split <;> simp
  rw [magnitude_convert_of_isFinite h, fraction_eq, h0, hz]
  simp [roundMagnitude]

theorem finite_pattern_lt {x : Floating .single} (h : x.isFinite) (h0 : x.significand.1 ≠ 0) :
    (x.significand.1.log2 + x.significand.2 - 52 + 1074).toNat * 2 ^ 52 +
      x.significand.1 * 2 ^ (52 - x.significand.1.log2) < FloatFormat.double.infinity := by
  have hb := significand_bounds h
  have hL := log2_significand_le h h0
  have hs := two_pow_le_significand h0 (show x.significand.1.log2 ≤ 52 by omega)
  have he : (x.significand.1.log2 + x.significand.2 - 52 + 1074).toNat ≤ 1149 := by omega
  calc
    _ < 1149 * 2 ^ 52 + 2 ^ 53 := Nat.add_lt_add_of_le_of_lt (Nat.mul_le_mul_right _ he) hs.2
    _ ≤ FloatFormat.double.infinity := by decide

theorem magnitude_convert {x : Floating .single} (h : x.isFinite) (h0 : x.significand.1 ≠ 0) :
    (x.convert : Floating .double).magnitude =
      (x.significand.1.log2 + x.significand.2 - 52 + 1074).toNat * 2 ^ 52 +
        x.significand.1 * 2 ^ (52 - x.significand.1.log2) := by
  have hb := significand_bounds h
  have hL := log2_significand_le h h0
  have hmin : FloatFormat.double.minExponent = -1074 := rfl
  have hp : FloatFormat.double.fractionBits = 52 := rfl
  rw [magnitude_convert_of_isFinite h, fraction_eq,
    roundMagnitude_scale h0 (by omega) (by omega), hmin, hp]
  simp only [sub_neg_eq_add, Nat.cast_ofNat]
  exact min_eq_right (finite_pattern_lt h h0).le

theorem magnitude_convert_lt_infinity {x : Floating .single} (h : x.isFinite) :
    (x.convert : Floating .double).magnitude < FloatFormat.double.infinity := by
  by_cases h0 : x.significand.1 = 0
  · rw [magnitude_convert_of_zero h h0]
    decide
  · rw [magnitude_convert h h0]
    exact finite_pattern_lt h h0

theorem magnitude_convert_of_isNaN {x : Floating .single} (h : x.isNaN)
    (hq : x.isSignalling = false) :
    (x.convert : Floating .double).magnitude =
      FloatFormat.double.infinity + x.magnitude % 2 ^ 23 * 2 ^ 29 := by
  have hlt : x.magnitude % 2 ^ 23 < 2 ^ 23 := Nat.mod_lt _ (by decide)
  have hge : 2 ^ 22 ≤ x.magnitude % 2 ^ 23 := by
    rw [isSignalling, h, Bool.true_and, decide_eq_false_iff_not, not_lt] at hq
    exact hq
  have hk : x.magnitude % 2 ^ 23 * 2 ^ 52 / 2 ^ 23 = x.magnitude % 2 ^ 23 * 2 ^ 29 := by omega
  have hquiet : ¬ x.magnitude % 2 ^ 23 * 2 ^ 29 < 2 ^ 51 := by omega
  simp only [convert, h, ↓reduceIte, FloatFormat.fractionBits, hk,
    show FloatFormat.double.infinity = 2047 * 2 ^ 52 from rfl, show 52 - 1 = 51 from rfl, hquiet]
  apply magnitude_ofMagnitude
  rw [show signBit .double = 2 ^ 63 from rfl]
  omega

theorem infinity_add (f : FloatFormat) : f.infinity + 2 ^ f.fractionBits = signBit f := by
  cases f <;> rfl

theorem negative_convert {g : FloatFormat} (x : Floating f) :
    (x.convert : Floating g).negative = x.negative := by
  simp only [convert]
  split
  · have hpay : x.magnitude % 2 ^ f.fractionBits < 2 ^ f.fractionBits :=
      Nat.mod_lt _ (Nat.two_pow_pos _)
    have hkept : x.magnitude % 2 ^ f.fractionBits * 2 ^ g.fractionBits / 2 ^ f.fractionBits <
        2 ^ g.fractionBits :=
      Nat.div_lt_of_lt_mul (Nat.mul_lt_mul_of_pos_right hpay (Nat.two_pow_pos _))
    have hquiet : 2 ^ g.fractionBits = 2 ^ (g.fractionBits - 1) + 2 ^ (g.fractionBits - 1) := by
      cases g <;> rfl
    apply negative_ofMagnitude
    rw [← infinity_add]
    split <;> omega
  · split
    · exact negative_ofMagnitude _ (infinity_lt_signBit _)
    · exact negative_ofMagnitude _ (roundMagnitude_lt_signBit _ _ _)

theorem magnitude_lt_signBit (x : Floating f) : x.magnitude < signBit f :=
  Nat.mod_lt _ (signBit_pos f)

theorem magnitude_convert_lt {x y : Floating .single} (hx : x.isSignalling = false)
    (hy : y.isSignalling = false) (h : x.magnitude < y.magnitude) :
    (x.convert : Floating .double).magnitude < (y.convert : Floating .double).magnitude := by
  rcases isFinite_or y with hyf | hyi | hyn
  · have hxf : x.isFinite := by
      simp only [isFinite, decide_eq_true_eq] at hyf ⊢
      omega
    by_cases h0 : x.magnitude = 0
    · have hx0 : x.significand.1 = 0 := by simp [significand, h0]
      have hy0 : y.significand.1 ≠ 0 := significand_ne_zero (by omega)
      rw [magnitude_convert_of_zero hxf hx0, magnitude_convert hyf hy0]
      positivity
    · have hm := significand_ne_zero h0
      have hm' : y.significand.1 ≠ 0 := significand_ne_zero (by omega)
      have hL := log2_significand_le hxf hm
      have hL' := log2_significand_le hyf hm'
      have hb := significand_bounds hxf
      have hs := two_pow_le_significand hm (show x.significand.1.log2 ≤ 52 by omega)
      have hs' := two_pow_le_significand hm' (show y.significand.1.log2 ≤ 52 by omega)
      rw [magnitude_convert hxf hm, magnitude_convert hyf hm']
      rcases significand_lt h0 h with hlt | ⟨hLL, hqq, hlt⟩
      · exact (Nat.add_lt_add_left hs.2 _).trans_le (pattern_gap (by omega) hs'.1)
      · rw [hLL, hqq]
        exact Nat.add_lt_add_left (Nat.mul_lt_mul_of_pos_right hlt (Nat.two_pow_pos _)) _
  · have hxf : x.isFinite := by
      simp only [isFinite, isInfinite, decide_eq_true_eq, beq_iff_eq] at hyi ⊢
      omega
    rw [magnitude_convert_of_isInfinite hyi]
    exact magnitude_convert_lt_infinity hxf
  · have hyp : 2 ^ 22 ≤ y.magnitude % 2 ^ 23 := by
      rw [isSignalling, hyn, Bool.true_and, decide_eq_false_iff_not, not_lt] at hy
      exact hy
    rw [magnitude_convert_of_isNaN hyn hy]
    rcases isFinite_or x with hxf | hxi | hxn
    · have := magnitude_convert_lt_infinity hxf
      omega
    · rw [magnitude_convert_of_isInfinite hxi]
      omega
    · rw [magnitude_convert_of_isNaN hxn hx]
      have hxl := magnitude_lt_signBit x
      have hyl := magnitude_lt_signBit y
      simp only [isNaN, decide_eq_true_eq] at hxn hyn
      have hi : FloatFormat.single.infinity = 255 * 2 ^ 23 := rfl
      have hb : signBit .single = 256 * 2 ^ 23 := rfl
      omega

theorem order_convert_lt {x y : Floating .single} (hx : x.isSignalling = false)
    (hy : y.isSignalling = false) (h : x.order < y.order) :
    (x.convert : Floating .double).order < (y.convert : Floating .double).order := by
  simp only [order, negative_convert] at h ⊢
  split_ifs at h ⊢
  · have := magnitude_convert_lt hy hx (by omega)
    omega
  · omega
  · omega
  · have := magnitude_convert_lt hx hy (by omega)
    omega

theorem compare_convert {x y : Floating .single} (hx : x.isSignalling = false)
    (hy : y.isSignalling = false) :
    (x.convert : Floating .double).compare y.convert = x.compare y := by
  simp only [compare]
  rcases lt_trichotomy x.order y.order with h | h | h
  · rw [compare_lt_iff_lt.2 h, compare_lt_iff_lt.2 (order_convert_lt hx hy h)]
  · rw [order_injective h]
    simp
  · rw [compare_gt_iff_gt.2 h, compare_gt_iff_gt.2 (order_convert_lt hy hx h)]

end TableScan.Floating
