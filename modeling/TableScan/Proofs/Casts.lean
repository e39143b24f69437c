import TableScan.Proofs.Comparison
import TableScan.Proofs.Nearest
import TableScan.Proofs.Substitution
import TableScan.Proofs.Typing

namespace TableScan

namespace Floating

variable {f g : FloatFormat}

theorem convert_of_isFinite {x : Floating f} (h : x.isFinite) :
    (x.convert : Floating g) = round x.negative x.fraction.1 x.fraction.2 := by
  simp only [convert, isNaN_of_isFinite h, isInfinite_of_isFinite h, Bool.false_eq_true, ↓reduceIte]

theorem convert_of_isInfinite {x : Floating f} (h : x.isInfinite) :
    (x.convert : Floating g) = inf x.negative := by
  simp only [convert, isNaN_of_isInfinite h, h, Bool.false_eq_true, ↓reduceIte]

def payload (g : FloatFormat) (x : Floating f) : ℕ :=
  let kept := x.magnitude % 2 ^ f.fractionBits * 2 ^ g.fractionBits / 2 ^ f.fractionBits
  if kept < 2 ^ (g.fractionBits - 1) then kept + 2 ^ (g.fractionBits - 1) else kept

theorem convert_of_isNaN {x : Floating f} (h : x.isNaN) :
    (x.convert : Floating g) = ofMagnitude x.negative (g.infinity + x.payload g) := by
  simp only [convert, h, ↓reduceIte, payload]

theorem payload_bounds (g : FloatFormat) (x : Floating f) :
    2 ^ (g.fractionBits - 1) ≤ x.payload g ∧ x.payload g < 2 ^ g.fractionBits := by
  have hkept : x.magnitude % 2 ^ f.fractionBits * 2 ^ g.fractionBits / 2 ^ f.fractionBits <
      2 ^ g.fractionBits :=
    Nat.div_lt_of_lt_mul
      (Nat.mul_lt_mul_of_pos_right (Nat.mod_lt _ (Nat.two_pow_pos _)) (Nat.two_pow_pos _))
  have hquiet : 2 ^ g.fractionBits = 2 ^ (g.fractionBits - 1) + 2 ^ (g.fractionBits - 1) := by
    cases g <;> rfl
  simp only [payload]
  generalize x.magnitude % 2 ^ f.fractionBits * 2 ^ g.fractionBits / 2 ^ f.fractionBits = kept
    at hkept ⊢
  split <;> omega

theorem magnitude_convert_of_nan {x : Floating f} (h : x.isNaN) :
    (x.convert : Floating g).magnitude = g.infinity + x.payload g := by
  have hbounds := payload_bounds g x
  have hsign := infinity_add g
  rw [convert_of_isNaN h]
  exact magnitude_ofMagnitude _ (by omega)

theorem isNaN_convert {x : Floating f} (h : x.isNaN) : (x.convert : Floating g).isNaN := by
  have hpos := Nat.two_pow_pos (g.fractionBits - 1)
  have hbounds := payload_bounds g x
  rw [isNaN, magnitude_convert_of_nan h, decide_eq_true_eq]
  omega

theorem payload_double (x : Floating .single) : x.payload .double =
    if x.magnitude % 2 ^ 23 < 2 ^ 22 then (x.magnitude % 2 ^ 23 + 2 ^ 22) * 2 ^ 29
    else x.magnitude % 2 ^ 23 * 2 ^ 29 := by
  have hkept : x.magnitude % 2 ^ 23 * 2 ^ 52 / 2 ^ 23 = x.magnitude % 2 ^ 23 * 2 ^ 29 := by omega
  simp only [payload, FloatFormat.fractionBits, Nat.reduceSub, hkept]
  split_ifs <;> omega

theorem payload_single (x : Floating .double) : x.payload .single =
    if x.magnitude % 2 ^ 52 / 2 ^ 29 < 2 ^ 22 then x.magnitude % 2 ^ 52 / 2 ^ 29 + 2 ^ 22
    else x.magnitude % 2 ^ 52 / 2 ^ 29 := by
  have hkept : x.magnitude % 2 ^ 52 * 2 ^ 23 / 2 ^ 52 = x.magnitude % 2 ^ 52 / 2 ^ 29 := by omega
  simp only [payload, FloatFormat.fractionBits, Nat.reduceSub, hkept]

theorem magnitude_convert_mod {x : Floating f} (h : x.isNaN) :
    (x.convert : Floating g).magnitude % 2 ^ g.fractionBits = x.payload g := by
  rw [magnitude_convert_of_nan h, FloatFormat.infinity, Nat.mul_add_mod_self_right]
  exact Nat.mod_eq_of_lt (payload_bounds g x).2

theorem payload_convert {x : Floating .single} (h : x.isNaN) :
    (((x.convert : Floating .double).convert : Floating .single)).payload .double =
      x.payload .double := by
  have hwide : (x.convert : Floating .double).magnitude % 2 ^ 52 = x.payload .double :=
    magnitude_convert_mod h
  have hnarrow : ((x.convert : Floating .double).convert : Floating .single).magnitude % 2 ^ 23 =
      (x.convert : Floating .double).payload .single := magnitude_convert_mod (isNaN_convert h)
  rw [payload_double, hnarrow, payload_single, hwide, payload_double]
  have hlt := Nat.mod_lt x.magnitude (Nat.two_pow_pos 23)
  generalize x.magnitude % 2 ^ 23 = r at hlt ⊢
  split_ifs <;> omega

theorem isFinite_convert {x : Floating .single} (h : x.isFinite) :
    (x.convert : Floating .double).isFinite :=
  decide_eq_true (magnitude_convert_lt_infinity h)

theorem not_isFinite_of_isInfinite {x : Floating f} (h : x.isInfinite) :
    ¬x.isFinite := fun hfinite => by
  rw [isInfinite_of_isFinite hfinite] at h
  cases h

theorem not_isFinite_of_isNaN {x : Floating f} (h : x.isNaN) : ¬x.isFinite := fun hfinite => by
  rw [isNaN_of_isFinite hfinite] at h
  cases h

theorem isFinite_of_convert {x : Floating .single} (h : (x.convert : Floating .double).isFinite) :
    x.isFinite := by
  rcases isFinite_or x with hx | hx | hx
  · exact hx
  · have hinfinite : (x.convert : Floating .double).isInfinite :=
      beq_iff_eq.2 (magnitude_convert_of_isInfinite hx)
    exact absurd h (not_isFinite_of_isInfinite hinfinite)
  · exact absurd h (not_isFinite_of_isNaN (isNaN_convert hx))

theorem absolute_convert {x : Floating .single} (h : x.isFinite) :
    (x.convert : Floating .double).absolute = x.absolute := by
  obtain ⟨hmin, hbits, -, -⟩ := significand_spec x
  have hfinite := isFinite_convert h
  rw [convert_of_isFinite h] at hfinite ⊢
  rw [absolute_round_of_exact (fraction_pos x) (fraction_div x) (hbits.trans (by decide))
    (le_trans (by decide) hmin) hfinite, fraction_div]

theorem convert_convert (x : Floating .single) :
    (((x.convert : Floating .double).convert : Floating .single).convert : Floating .double) =
      x.convert := by
  rcases isFinite_or x with hx | hx | hx
  · have hback : ((x.convert : Floating .double).convert : Floating .single) = x := by
      rw [convert_of_isFinite (isFinite_convert hx), negative_convert]
      exact round_absolute hx (fraction_pos _) ((fraction_div _).trans (absolute_convert hx))
    rw [hback]
  · have hinf (g : FloatFormat) (negative : Bool) : (inf negative : Floating g).isInfinite ∧
        (inf negative : Floating g).negative = negative :=
      ⟨beq_iff_eq.2 (magnitude_ofMagnitude _ (infinity_lt_signBit g)),
        negative_ofMagnitude _ (infinity_lt_signBit g)⟩
    rw [convert_of_isInfinite hx, convert_of_isInfinite (hinf _ _).1, (hinf _ _).2,
      convert_of_isInfinite (hinf _ _).1,
      (hinf _ _).2]
  · have hwide := isNaN_convert (g := .double) hx
    rw [convert_of_isNaN (isNaN_convert (g := .single) hwide), negative_convert, negative_convert,
      payload_convert hx, convert_of_isNaN hx]

theorem negative_round (negative : Bool) (n d : ℕ) :
    (round negative n d : Floating f).negative = negative :=
  negative_ofMagnitude _ (roundMagnitude_lt_signBit f n d)

theorem negative_ofInt (i : ℤ) : (ofInt i : Floating f).negative = decide (i < 0) :=
  negative_round _ _ _

theorem truncate?_of_whole {x : Floating f} {k : ℕ} (hx : x.isFinite) (h : x.absolute = k) :
    x.truncate? = some (if x.negative then -(k : ℤ) else k) := by
  have hpos := fraction_pos x
  have hwhole : x.fraction.1 / x.fraction.2 = k := by
    have hfraction := (fraction_div x).trans h
    rw [div_eq_iff (by exact_mod_cast hpos.ne')] at hfraction
    exact Nat.div_eq_of_eq_mul_left hpos (by exact_mod_cast hfraction)
  simp only [truncate?, hx, ↓reduceIte, hwhole]

theorem absolute_ofInt_whole {i : ℤ} (h : (ofInt i : Floating .double).isFinite) :
    ∃ k : ℕ, (ofInt i : Floating .double).absolute = k := by
  have hdiv : ((i.natAbs : ℕ) : ℚ) / (1 : ℕ) = i.natAbs * 2 ^ (0 : ℤ) := by simp
  by_cases hi : i.natAbs < 2 ^ (FloatFormat.double.fractionBits + 1)
  · refine ⟨i.natAbs, ?_⟩
    rw [ofInt, absolute_round_of_exact Nat.one_pos hdiv hi (by decide) h, Nat.cast_one, div_one]
  · have hn : i.natAbs ≠ 0 := by
      rintro hzero
      exact hi (hzero ▸ Nat.two_pow_pos _)
    obtain ⟨k, hk⟩ := exists_near i.natAbs Nat.one_pos (-spacing .double i.natAbs 1)
    obtain ⟨-, hupper, -⟩ := spacing_spec .double hn Nat.one_pos
    have hspacing : 0 ≤ spacing .double i.natAbs 1 := by
      by_contra hneg
      have hgrow : (1 : ℚ) ≤ 2 ^ (-spacing .double i.natAbs 1) :=
        one_le_zpow₀ (by norm_num) (by omega)
      have hlarge : (2 : ℚ) ^ (FloatFormat.double.fractionBits + 1) ≤ i.natAbs := by
        exact_mod_cast not_lt.1 hi
      have hle := le_mul_of_one_le_right (Nat.cast_nonneg (α := ℚ) i.natAbs) hgrow
      rw [Nat.cast_one, div_one] at hupper
      exact absurd (hlarge.trans hle) (not_le.2 hupper)
    obtain ⟨j, hj⟩ := Int.eq_ofNat_of_zero_le hspacing
    refine ⟨k * 2 ^ j, ?_⟩
    rw [ofInt, absolute_round hn Nat.one_pos h hk, hj]
    push_cast
    rw [zpow_natCast]

theorem isFinite_ofInt {i : ℤ} (h : i.natAbs ≤ 2 ^ 64) : (ofInt i : Floating .double).isFinite :=
  isFinite_round.2 ((roundMagnitude_mono .double h).trans_lt (by decide +kernel))

theorem absolute_ofInt_zero : (ofInt 0 : Floating f).absolute = 0 :=
  absolute_eq_zero_iff.2 (magnitude_round _ _ _)

theorem absolute_ofInt_pos {i : ℤ} (h : i ≠ 0) : 0 < (ofInt i : Floating f).absolute := by
  have hone : 0 < roundMagnitude f 1 1 := by cases f <;> decide +kernel
  have hle := roundMagnitude_mono f (show 1 ≤ i.natAbs by omega)
  refine lt_of_le_of_ne (mul_nonneg (Nat.cast_nonneg _) (zpow_pos_two _).le) fun hzero => ?_
  have hmagnitude := absolute_eq_zero_iff.1 hzero.symm
  rw [ofInt, magnitude_round] at hmagnitude
  omega

theorem ofInt_truncate {x : Floating f} {i : ℤ} (hx : x.isFinite)
    (hi : (ofInt i : Floating .double).isFinite)
    (habsolute : (ofInt i : Floating .double).absolute = x.absolute)
    (hnegative : x.negative = decide (i < 0)) :
    ∃ j, x.truncate? = some j ∧ (ofInt j : Floating .double) = ofInt i := by
  obtain ⟨k, hk⟩ := absolute_ofInt_whole hi
  refine ⟨_, truncate?_of_whole hx (habsolute.symm.trans hk), ?_⟩
  have hnatAbs : (if x.negative then -(k : ℤ) else k).natAbs = k := by split <;> simp
  have hsign : decide ((if x.negative then -(k : ℤ) else k) < 0) = decide (i < 0) := by
    rw [hnegative, decide_eq_decide]
    by_cases hneg : i < 0
    · have hpos := absolute_ofInt_pos (f := .double) hneg.ne
      rw [hk, Nat.cast_pos] at hpos
      simp only [hneg, decide_true, ↓reduceIte, iff_true]
      omega
    · simp only [hneg, decide_false, Bool.false_eq_true, ↓reduceIte, iff_false]
      omega
  rw [ofInt, hsign, hnatAbs, ← negative_ofInt (f := .double) i]
  exact round_absolute hi Nat.one_pos (by rw [hk, Nat.cast_one, div_one])

theorem Interval.has_of_abs_sub_lt {x : Floating f} {r : ℚ} (h0 : x.magnitude ≠ 0)
    (h : |r - x.absolute| < 2 ^ x.significand.2 / 4) : x.interval.Has r := by
  obtain ⟨hreach, -⟩ := reach_bounds x
  have hpos := zpow_pos_two x.significand.2
  obtain ⟨hlow, hhigh⟩ := abs_lt.1 h
  have hbelow := mul_le_mul_of_nonneg_right hreach hpos.le
  have hstrict : (x.interval.low : ℚ) / x.interval.unit < r ∧
      r < x.interval.high / x.interval.unit := by
    rw [low_div h0, high_div, sub_mul, add_mul, ← absolute]
    constructor <;> linarith
  rw [Has]
  split
  · exact ⟨hstrict.1.le, hstrict.2.le⟩
  · exact hstrict

theorem spacing_add_two_le {n d : ℕ} {u : Floating .single} (hn : n ≠ 0) (hd : 0 < d)
    (hone : 1 ≤ (n : ℚ) / d) (hclose : |(n : ℚ) / d - u.absolute| ≤ 2 ^ spacing .double n d / 2) :
    spacing .double n d + 2 ≤ u.significand.2 := by
  obtain ⟨-, hupper, hlower⟩ := spacing_spec .double hn hd
  obtain ⟨-, hbits, -, -⟩ := significand_spec u
  generalize spacing .double n d = s at hclose hupper hlower
  have hs : -53 < s := by
    have hlt := (le_mul_of_one_le_left (zpow_pos_two (-s)).le hone).trans_lt hupper
    rw [← zpow_natCast, zpow_lt_zpow_iff_right₀ (by norm_num)] at hlt
    simp only [FloatFormat.fractionBits] at hlt
    omega
  have hlarge : (2 : ℚ) ^ 52 * 2 ^ s ≤ n / d := by
    have h := mul_le_mul_of_nonneg_right
      (hlower ((by decide : FloatFormat.double.minExponent < -53).trans hs))
      (zpow_pos_two s).le
    rwa [mul_assoc, mul_comm ((2 : ℚ) ^ (-s)), zpow_mul_zpow_neg, mul_one] at h
  by_contra hlt
  have hfine : (2 : ℚ) ^ u.significand.2 ≤ 2 ^ s * 2 := by
    rw [← zpow_add_one₀ (by norm_num)]
    exact zpow_le_zpow_right₀ (by norm_num) (by omega)
  have hsmall : u.absolute ≤ 2 ^ 24 * (2 ^ s * 2) :=
    mul_le_mul (by exact_mod_cast hbits.le) hfine (zpow_pos_two _).le (by norm_num)
  have := abs_le.1 hclose
  have := zpow_pos_two s
  linarith

theorem ofInt_of_convert {i : ℤ} {u : Floating .single} (hi : (ofInt i : Floating .double).isFinite)
    (hu : (u.convert : Floating .double) = ofInt i) : (ofInt i : Floating .single) = u := by
  have hfinite : u.isFinite := isFinite_of_convert (hu ▸ hi)
  have habsolute : (ofInt i : Floating .double).absolute = u.absolute :=
    hu ▸ absolute_convert hfinite
  have hnegative : u.negative = decide (i < 0) := by
    rw [← negative_convert (g := .double) u, hu, negative_ofInt]
  refine round_eq_of_magnitude hnegative ?_
  by_cases hzero : i = 0
  · refine roundMagnitude_absolute hfinite Nat.one_pos ?_
    rw [← habsolute, hzero, absolute_ofInt_zero, Int.natAbs_zero, Nat.cast_zero, zero_div]
  have hn : i.natAbs ≠ 0 := by omega
  have hpos := absolute_ofInt_pos (f := .double) hzero
  have h0 : u.magnitude ≠ 0 := fun h => hpos.ne' (habsolute.trans (absolute_eq_zero_iff.2 h))
  refine roundMagnitude_of_has hfinite h0 Nat.one_pos (Interval.has_of_abs_sub_lt h0 ?_)
  have hclose := abs_sub_absolute_round_le hn Nat.one_pos hi
  rw [← ofInt, habsolute] at hclose
  have hone : (1 : ℚ) ≤ (i.natAbs : ℕ) / (1 : ℕ) := by
    rw [Nat.cast_one, div_one]
    exact_mod_cast Nat.one_le_iff_ne_zero.2 hn
  have hcoarse := spacing_add_two_le hn Nat.one_pos hone hclose
  have hstep : (2 : ℚ) ^ spacing .double i.natAbs 1 * 4 ≤ 2 ^ u.significand.2 := by
    have h := zpow_le_zpow_right₀ (by norm_num : (1 : ℚ) ≤ 2) hcoarse
    rwa [zpow_add₀ (by norm_num), show (2 : ℚ) ^ (2 : ℤ) = 4 by norm_num] at h
  have := zpow_pos_two (spacing .double i.natAbs 1)
  linarith

end Floating

/-- Whether a cast between types that compare may drop something: a fraction, bits of a number, or a
time of day. -/
def ScalarType.narrows : ScalarType → ScalarType → Bool
  | .float32, .int _ | .float64, .int _ | .int _, .float32 | .float64, .float32 | .date64,
      .date32 => true
  | _, _ => false

namespace Scalar

variable {s t : ScalarType} {u v w : Scalar} {m n : Magnitude}

theorem compare_eq_iff (hm : v.magnitude? = some m) (hn : u.magnitude? = some n) :
    v.compare u = .ok (some .eq) ↔ m.compare? n = some .eq := by
  obtain ⟨p, v⟩ := v
  obtain ⟨q, u⟩ := u
  cases v with
  | none =>
    rw [Operand.magnitude?_none] at hm
    cases hm
  | some a =>
    cases u with
    | none =>
      rw [Operand.magnitude?_none] at hn
      cases hn
    | some b =>
      constructor
      · intro h
        simp only [compare, hm, hn] at h
        split at h
        · cases h
        · split at h
          · cases h
            assumption
          · cases h
      · intro h
        have hcomparable := Value.comparisonType_of_magnitude (a := a) (b := b) hm hn h
        simp only [compare, dataType, hm, hn, h]
        exact if_neg (by simpa [Option.isSome_iff_ne_none] using hcomparable)

theorem cell_of_castTo {a : s.Carrier} (h : castTo ⟨s, some a⟩ (.scalar t) = .ok w) (hst : s ≠ t)
    (hs : s ≠ .null) {g : s.Carrier → Outcome t.Carrier}
    (hg : Conversion.flat? (.scalar s) (.scalar t) = some (.ok g)) :
    ∃ b, g a = .ok b ∧ w = ⟨t, some b⟩ := by
  have hne : DataType.scalar s ≠ .scalar t := by simpa using hst
  have hconversion : conversion (.scalar s) (.scalar t) = .ok g := by
    rw [conversion, conversion?_flat rfl rfl (by simpa using hs), Conversion.toFlat?,
      dif_neg hne, hg]
    rfl
  have hconvert : convert ⟨s, some a⟩ (.scalar t) = some <$> (g a).strict := by
    rw [convert, show conversion (dataType ⟨s, some a⟩) (.scalar t) = .ok g from hconversion]
    rfl
  rw [castTo, if_neg (show dataType ⟨s, some a⟩ ≠ .scalar t from hne), hconvert] at h
  cases hb : g a with
  | ok b =>
    rw [hb] at h
    cases h
    exact ⟨b, rfl, rfl⟩
  | lossy e | broken e =>
    rw [hb] at h
    cases h

/-- A cast that finds the value of the type that equals the given one, if there is such a value. -/
def Finds (v w : Scalar) : Prop :=
  v.compare w = .ok (some .eq) ↔ ∃ u : Scalar, u.type = w.type ∧ v.compare u = .ok (some .eq)

theorem finds_of_cell {b : t.Carrier} (h : ∀ c : t.Carrier, v.compare ⟨t, some c⟩ = .ok (some .eq) →
    v.compare ⟨t, some b⟩ = .ok (some .eq)) : v.Finds ⟨t, some b⟩ := by
  refine ⟨fun hw => ⟨_, rfl, hw⟩, ?_⟩
  rintro ⟨⟨q, c⟩, rfl, hu⟩
  cases c with
  | none =>
    unfold compare at hu
    rw [Operand.magnitude?_none] at hu
    split at hu
    · cases hu
    · split at hu <;> simp_all
  | some c => exact h c hu

theorem compare_of_same (hm : v.magnitude? = some m) (hn : u.magnitude? = some m) :
    v.compare u = .ok (some .eq) := by
  rw [compare_eq_iff hm hn]
  cases m with
  | number i | milliseconds i => exact congrArg some (compare_eq_iff_eq.2 rfl)
  | floating x => exact congrArg some (compare_eq_iff_eq.2 rfl)
  | text s => exact congrArg some (show Ord.compare s s = .eq from Std.ReflCmp.compare_self)
  | flag b => exact congrArg some (compare_eq_iff_eq.2 rfl)
  | bytes b => exact congrArg some (show compareBytes b b = .eq from Std.ReflCmp.compare_self)

theorem eq_of_ofOption_bind {i : IntType} {whole? : Option ℤ} {e : CastFault} {b : Fixed i}
    (h : Outcome.ofOption e (whole?.bind (Fixed.ofInt? i)) = .ok b) : whole? = some b.val :=
  Fixed.bind_ofInt?_eq_some.1 (Outcome.ofOption_eq_ok.1 h)

theorem compare_floating_number_iff {x : Floating .double} {i : ℤ} :
    (Magnitude.floating x).compare? (.number i) = some .eq ↔ x = Floating.ofInt i := by
  simp only [Magnitude.compare?, Option.some.injEq]
  exact ⟨Floating.eq_of_compare, fun h => h ▸ compare_eq_iff_eq.2 rfl⟩

theorem compare_number_floating_iff {x : Floating .double} {i : ℤ} :
    (Magnitude.number i).compare? (.floating x) = some .eq ↔ Floating.ofInt i = x := by
  simp only [Magnitude.compare?, Option.some.injEq]
  exact ⟨Floating.eq_of_compare, fun h => h ▸ compare_eq_iff_eq.2 rfl⟩

theorem compare_floating_floating_iff {x y : Floating .double} :
    (Magnitude.floating x).compare? (.floating y) = some .eq ↔ x = y := by
  simp only [Magnitude.compare?, Option.some.injEq]
  exact ⟨Floating.eq_of_compare, fun h => h ▸ compare_eq_iff_eq.2 rfl⟩

theorem compare_milliseconds_iff {i j : ℤ} :
    (Magnitude.milliseconds i).compare? (.milliseconds j) = some .eq ↔ i = j := by
  simp only [Magnitude.compare?, Option.some.injEq]
  exact compare_eq_iff_eq

theorem natAbs_le {i : IntType} (a : Fixed i) : a.val.natAbs ≤ 2 ^ 64 := by
  have hbounds : -(2 ^ 64) ≤ i.min ∧ i.max ≤ 2 ^ 64 := by cases i <;> decide
  have hlower := hbounds.1.trans a.lower
  have hupper := a.upper.trans hbounds.2
  omega

theorem cast_int_int {i j : IntType} (hij : i ≠ j) {a : Fixed i}
    (h : castTo ⟨.int i, some a⟩ (.int j) = .ok w) :
    ∃ b : Fixed j, w = ⟨.int j, some b⟩ ∧ compare ⟨.int i, some a⟩ w = .ok (some .eq) := by
  obtain ⟨b, hb, rfl⟩ := cell_of_castTo h (by simpa using hij) nofun rfl
  have hval : a.val = Fixed.val b := Option.some.inj (eq_of_ofOption_bind hb)
  exact ⟨b, rfl, compare_of_same rfl (congrArg (fun k => some (Magnitude.number k)) hval.symm)⟩

theorem cast_int_float64 {i : IntType} {a : Fixed i}
    (h : castTo ⟨.int i, some a⟩ .float64 = .ok w) :
    ∃ b : Floating .double, w = ⟨.float64, some b⟩ ∧
      compare ⟨.int i, some a⟩ w = .ok (some .eq) := by
  obtain ⟨b, hb, rfl⟩ := cell_of_castTo h nofun nofun rfl
  cases hb
  exact ⟨_, rfl, (compare_eq_iff rfl rfl).2 (compare_number_floating_iff.2 rfl)⟩

theorem cast_float32_float64 {x : Floating .single}
    (h : castTo ⟨.float32, some x⟩ .float64 = .ok w) :
    ∃ b : Floating .double, w = ⟨.float64, some b⟩ ∧
      compare ⟨.float32, some x⟩ w = .ok (some .eq) := by
  obtain ⟨b, hb, rfl⟩ := cell_of_castTo h nofun nofun rfl
  cases hb
  exact ⟨_, rfl, compare_of_same rfl rfl⟩

theorem cast_utf8_largeUtf8 {str : String} (h : castTo ⟨.utf8, some str⟩ .largeUtf8 = .ok w) :
    w = ⟨.largeUtf8, some str⟩ ∧ compare ⟨.utf8, some str⟩ w = .ok (some .eq) := by
  obtain ⟨b, hb, rfl⟩ := cell_of_castTo h nofun nofun rfl
  cases hb
  exact ⟨rfl, compare_of_same rfl rfl⟩

theorem cast_largeUtf8_utf8 {str : String} (h : castTo ⟨.largeUtf8, some str⟩ .utf8 = .ok w) :
    w = ⟨.utf8, some str⟩ ∧ compare ⟨.largeUtf8, some str⟩ w = .ok (some .eq) := by
  obtain ⟨b, hb, rfl⟩ := cell_of_castTo h nofun nofun rfl
  cases hb
  exact ⟨rfl, compare_of_same rfl rfl⟩

theorem val_clamp {i : IntType} {k : ℤ} (h : i.min ≤ k ∧ k ≤ i.max) :
    (Fixed.clamp i k).val = k := by
  rw [Fixed.clamp]
  dsimp only
  rw [if_neg (by omega), if_neg (by omega)]

theorem val_wrap {i : IntType} {k : ℤ} (hi : i.signed = true) (h : i.min ≤ k ∧ k ≤ i.max) :
    (Fixed.wrap i k).val = k := by
  have hbmod : k.bmod (2 ^ i.bits) = k := by
    apply Int.bmod_eq_of_le <;>
      cases i <;> cases hi <;>
      simp only [IntType.min, IntType.max, IntType.signed, IntType.bits, ↓reduceIte] at h ⊢ <;>
      omega
  rw [Fixed.wrap, if_pos hi, hbmod, val_clamp h]

theorem wrap_val (d : Fixed .int32) : Fixed.wrap .int32 d.val = d :=
  Fixed.ext (val_wrap rfl ⟨d.lower, d.upper⟩)

theorem cast_date32_date64 {d : Fixed .int32} (h : castTo ⟨.date32, some d⟩ .date64 = .ok w) :
    ∃ b : Fixed .int64, w = ⟨.date64, some b⟩ ∧ compare ⟨.date32, some d⟩ w = .ok (some .eq) := by
  obtain ⟨b, hb, rfl⟩ := cell_of_castTo h nofun nofun rfl
  cases hb
  have hlower : -(2 ^ 31) ≤ d.val := d.lower
  have hupper : d.val ≤ 2 ^ 31 - 1 := d.upper
  have hval : (Fixed.clamp .int64 (d.val * 86400000)).val = d.val * 86400000 := by
    apply val_clamp
    simp only [IntType.min, IntType.max, IntType.signed, IntType.bits]
    norm_num
    omega
  exact ⟨_, rfl, compare_of_same rfl (congrArg (fun k => some (Magnitude.milliseconds k)) hval)⟩

theorem finds_date64_date32 {ms : Fixed .int64} (h : castTo ⟨.date64, some ms⟩ .date32 = .ok w) :
    ∃ b : Fixed .int32, w = ⟨.date32, some b⟩ ∧ Finds ⟨.date64, some ms⟩ w := by
  obtain ⟨b, hb, rfl⟩ := cell_of_castTo h nofun nofun rfl
  cases hb
  refine ⟨_, rfl, finds_of_cell (t := .date32) fun (d : Fixed .int32) hd => ?_⟩
  have hdays : ms.val = d.val * 86400000 :=
    compare_milliseconds_iff.1 ((compare_eq_iff rfl rfl).1 hd)
  have hback : Fixed.wrap .int32 (ms.val.tdiv 86400000) = d := by
    rw [hdays, Int.mul_tdiv_cancel _ (by norm_num), wrap_val]
  exact (congrArg (fun b : Fixed .int32 =>
    compare ⟨.date64, some ms⟩ ⟨.date32, some b⟩) hback).trans hd

theorem finds_int_float32 {i : IntType} {a : Fixed i}
    (h : castTo ⟨.int i, some a⟩ .float32 = .ok w) :
    ∃ b : Floating .single, w = ⟨.float32, some b⟩ ∧ Finds ⟨.int i, some a⟩ w := by
  obtain ⟨b, hb, rfl⟩ := cell_of_castTo h nofun nofun rfl
  cases hb
  refine ⟨_, rfl, finds_of_cell (t := .float32) fun c hc => ?_⟩
  have hconvert := compare_number_floating_iff.1 ((compare_eq_iff rfl rfl).1 hc)
  have hback : (Floating.ofInt a.val : Floating .single) = c :=
    Floating.ofInt_of_convert (Floating.isFinite_ofInt (natAbs_le a)) hconvert.symm
  exact (congrArg (fun x : Floating .single =>
    compare ⟨.int i, some a⟩ ⟨.float32, some x⟩) hback).trans hc

theorem finds_float64_float32 {x : Floating .double}
    (h : castTo ⟨.float64, some x⟩ .float32 = .ok w) :
    ∃ b : Floating .single, w = ⟨.float32, some b⟩ ∧ Finds ⟨.float64, some x⟩ w := by
  obtain ⟨b, hb, rfl⟩ := cell_of_castTo h nofun nofun rfl
  cases hb
  refine ⟨_, rfl, finds_of_cell (t := .float32) fun (c : Floating .single) hc => ?_⟩
  have hconvert : x = c.convert := compare_floating_floating_iff.1 ((compare_eq_iff rfl rfl).1 hc)
  refine (compare_eq_iff rfl rfl).2 (compare_floating_floating_iff.2 ?_)
  subst hconvert
  exact (Floating.convert_convert c).symm

theorem finds_truncated {f : FloatFormat} {x : Floating f} {y : Floating .double} {i : IntType}
    {b : Fixed i} (hm : v.magnitude? = some (.floating y)) (hx : x.isFinite) (hy : y.isFinite)
    (habsolute : y.absolute = x.absolute) (hnegative : y.negative = x.negative)
    (hb : x.truncate? = some b.val) : Finds v ⟨.int i, some b⟩ := by
  refine finds_of_cell (t := .int i) fun (c : Fixed i) hc => (compare_eq_iff hm rfl).2 ?_
  have hround : y = Floating.ofInt c.val :=
    compare_floating_number_iff.1 ((compare_eq_iff hm rfl).1 hc)
  rw [hround] at hy habsolute hnegative
  obtain ⟨j, hj, hback⟩ :=
    Floating.ofInt_truncate hx hy habsolute (hnegative.symm.trans (Floating.negative_ofInt c.val))
  obtain rfl := Option.some.inj (hb.symm.trans hj)
  exact compare_floating_number_iff.2 (hround.trans hback.symm)

theorem isFinite_of_truncate? {f : FloatFormat} {x : Floating f} {i : ℤ}
    (h : x.truncate? = some i) : x.isFinite := by
  rw [Floating.truncate?] at h
  split at h
  · assumption
  · cases h

theorem finds_float32_int {x : Floating .single} {i : IntType}
    (h : castTo ⟨.float32, some x⟩ (.int i) = .ok w) :
    ∃ b : Fixed i, w = ⟨.int i, some b⟩ ∧ Finds ⟨.float32, some x⟩ w := by
  obtain ⟨b, hb, rfl⟩ := cell_of_castTo h nofun nofun rfl
  have hwhole := eq_of_ofOption_bind hb
  have hx := isFinite_of_truncate? hwhole
  exact ⟨b, rfl, finds_truncated rfl hx (Floating.isFinite_convert hx)
    (Floating.absolute_convert hx)
    (Floating.negative_convert x) hwhole⟩

theorem finds_float64_int {x : Floating .double} {i : IntType}
    (h : castTo ⟨.float64, some x⟩ (.int i) = .ok w) :
    ∃ b : Fixed i, w = ⟨.int i, some b⟩ ∧ Finds ⟨.float64, some x⟩ w := by
  obtain ⟨b, hb, rfl⟩ := cell_of_castTo h nofun nofun rfl
  have hwhole := eq_of_ofOption_bind hb
  have hx := isFinite_of_truncate? hwhole
  exact ⟨b, rfl, finds_truncated rfl hx hx rfl rfl hwhole⟩

theorem not_castTo_null {a : s.Carrier} (h : castTo ⟨s, some a⟩ .null = .ok w) (hs : s ≠ .null) :
    False := by
  have hne : DataType.scalar s ≠ .null := by simpa using hs
  have hconversion : conversion (.scalar s) .null = .error (.unsupported (.scalar s) .null) := by
    rw [conversion, conversion?_flat rfl rfl hne, Conversion.toFlat?, dif_neg hne]
    rfl
  have hconvert : convert ⟨s, some a⟩ .null = .error (.unsupported (.scalar s) .null) := by
    rw [convert, show conversion (dataType ⟨s, some a⟩) .null = .error _ from hconversion]
    rfl
  rw [castTo, if_neg (show dataType ⟨s, some a⟩ ≠ .null from hne), hconvert] at h
  cases h

theorem equal_or_finds_of_castTo {a : s.Carrier} (hst : s ≠ t)
    (hc : (comparisonType (.scalar s) (.scalar t)).isSome)
    (h : castTo ⟨s, some a⟩ (.scalar t) = .ok w) :
    ∃ b : t.Carrier, w = ⟨t, some b⟩ ∧ (compare ⟨s, some a⟩ w = .ok (some .eq) ∨
      s.narrows t = true ∧ Finds ⟨s, some a⟩ w) := by
  cases s with
  | null => exact a.elim
  | int i =>
    cases t with
    | int j =>
      obtain ⟨b, hw, heq⟩ := cast_int_int (by simpa using hst) h
      exact ⟨b, hw, .inl heq⟩
    | float32 =>
      obtain ⟨b, hw, hfinds⟩ := finds_int_float32 h
      exact ⟨b, hw, .inr ⟨rfl, hfinds⟩⟩
    | float64 =>
      obtain ⟨b, hw, heq⟩ := cast_int_float64 h
      exact ⟨b, hw, .inl heq⟩
    | null => exact (not_castTo_null h (by simp)).elim
    | _ => cases hc
  | float32 =>
    cases t with
    | int j =>
      obtain ⟨b, hw, hfinds⟩ := finds_float32_int h
      exact ⟨b, hw, .inr ⟨rfl, hfinds⟩⟩
    | float64 =>
      obtain ⟨b, hw, heq⟩ := cast_float32_float64 h
      exact ⟨b, hw, .inl heq⟩
    | null => exact (not_castTo_null h (by simp)).elim
    | float32 => exact absurd rfl hst
    | _ => cases hc
  | float64 =>
    cases t with
    | int j =>
      obtain ⟨b, hw, hfinds⟩ := finds_float64_int h
      exact ⟨b, hw, .inr ⟨rfl, hfinds⟩⟩
    | float32 =>
      obtain ⟨b, hw, hfinds⟩ := finds_float64_float32 h
      exact ⟨b, hw, .inr ⟨rfl, hfinds⟩⟩
    | null => exact (not_castTo_null h (by simp)).elim
    | float64 => exact absurd rfl hst
    | _ => cases hc
  | utf8 =>
    cases t with
    | largeUtf8 =>
      obtain ⟨hw, heq⟩ := cast_utf8_largeUtf8 h
      exact ⟨a, hw, .inl heq⟩
    | null => exact (not_castTo_null h (by simp)).elim
    | utf8 => exact absurd rfl hst
    | _ => cases hc
  | largeUtf8 =>
    cases t with
    | utf8 =>
      obtain ⟨hw, heq⟩ := cast_largeUtf8_utf8 h
      exact ⟨a, hw, .inl heq⟩
    | null => exact (not_castTo_null h (by simp)).elim
    | largeUtf8 => exact absurd rfl hst
    | _ => cases hc
  | date32 =>
    cases t with
    | date64 =>
      obtain ⟨b, hw, heq⟩ := cast_date32_date64 h
      exact ⟨b, hw, .inl heq⟩
    | null => exact (not_castTo_null h (by simp)).elim
    | date32 => exact absurd rfl hst
    | _ => cases hc
  | date64 =>
    cases t with
    | date32 =>
      obtain ⟨b, hw, hfinds⟩ := finds_date64_date32 h
      exact ⟨b, hw, .inr ⟨rfl, hfinds⟩⟩
    | null => exact (not_castTo_null h (by simp)).elim
    | date64 => exact absurd rfl hst
    | _ => cases hc
  | boolean | binary =>
    cases t with
    | null => exact (not_castTo_null h (by simp)).elim
    | boolean => first | exact absurd rfl hst | cases hc
    | binary => first | exact absurd rfl hst | cases hc
    | _ => cases hc

/--
A cast to a type that a value compares with never makes a null of it. The result equals the value
just if the type has a value that does; unless the cast may drop a fraction, bits or a time of day,
that is always so.
-/
theorem compare_castTo (hv : v.isNull = false) (hc : (comparisonType v.dataType (.scalar t)).isSome)
    (h : v.castTo (.scalar t) = .ok w) : w.type = t ∧ w.isNull = false ∧
      (v.compare w = .ok (some .eq) ↔ ∃ u : Scalar, u.type = t ∧ v.compare u = .ok (some .eq)) ∧
      (v.type.narrows t = false → v.compare w = .ok (some .eq)) := by
  obtain ⟨s, _ | a⟩ := v
  · cases hv
  have hfound : ∃ b : t.Carrier, w = ⟨t, some b⟩ ∧ (compare ⟨s, some a⟩ w = .ok (some .eq) ∨
      s.narrows t = true ∧ Finds ⟨s, some a⟩ w) := by
    by_cases hst : s = t
    · subst hst
      obtain ⟨m, -, -, hm, -, -⟩ := Value.comparable_of_comparisonType (a := a) (b := a) hc
      rw [castTo, if_pos (show dataType ⟨s, some a⟩ = .scalar s from rfl)] at h
      cases h
      exact ⟨a, rfl, .inl (compare_of_same hm hm)⟩
    · exact equal_or_finds_of_castTo hst hc h
  obtain ⟨b, rfl, heq | ⟨hnarrows, hfinds⟩⟩ := hfound
  · exact ⟨rfl, rfl, ⟨fun _ => ⟨_, rfl, heq⟩, fun _ => heq⟩, fun _ => heq⟩
  · exact ⟨rfl, rfl, hfinds, fun hwide => absurd hnarrows (Bool.eq_false_iff.1 hwide)⟩

theorem compare_castTo_unsigned :
    let v : Scalar := .ofFixed (t := .int64) ⟨200, by decide, by decide⟩
    let w : Scalar := .ofFixed (t := .uint8) ⟨200, by decide, by decide⟩
    v.isNull = false ∧ (comparisonType v.dataType (.int .uint8)).isSome ∧
      v.castTo (.int .uint8) = .ok w ∧
      w.isNull = false ∧ v.compare w = .ok (some .eq) := by
  intro v w
  have hcast : v.castTo (.int .uint8) = .ok w := rfl
  obtain ⟨-, hnull, -, hequal⟩ := compare_castTo (v := v) (w := w) rfl rfl hcast
  exact ⟨rfl, rfl, hcast, hnull, hequal rfl⟩

/-- One and a half becomes one, and no failure tells of it. -/
theorem compare_castTo_fraction :
    let v : Scalar := ⟨.float64, some (Floating.round false 3 2 : Floating .double)⟩
    let w : Scalar := .ofFixed (t := .int32) ⟨1, by decide, by decide⟩
    v.isNull = false ∧ (comparisonType v.dataType (.int .int32)).isSome ∧
      v.castTo (.int .int32) = .ok w ∧
      v.compare w = .ok (some .gt) := by
  intro v w
  exact ⟨rfl, rfl, by decide +kernel, by decide +kernel⟩

end Scalar

end TableScan
