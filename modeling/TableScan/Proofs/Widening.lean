import TableScan.Proofs.Conforming
import TableScan.Proofs.Guarantee
import TableScan.Proofs.Statistics

/-!
Casts that comparisons do not see. What bounds a value bounds what the value is cast to, if the two
are equal; and to wider types every value is cast to one that equals it.
-/

namespace TableScan

open Std (TransCmp OrientedCmp)
open Statistics (isRanged)
open Value (ofSome ofScalar)

/-- Whether the values of a type are brought to another one in their order. -/
structure ScalarType.Embeds (p : ScalarType) (t : DataType) : Prop where
  trans : TransCmp t.compare
  cells : ∃ f : p.Carrier → t.Carrier,
    (∀ a, (Value.of (.scalar p) a).asCell? t = some (some (f a))) ∧
    ∀ a b, (p.compare a b).isLE → (t.compare (f a) (f b)).isLE

theorem ScalarType.Embeds.self (p : ScalarType) : p.Embeds (.scalar p) where
  trans := inferInstanceAs (TransCmp p.compare)
  cells := ⟨id, Value.asCell?_of_type (.scalar p), fun _ _ => id⟩

namespace IntType

variable (t : IntType)

theorem embeds_float64 : (ScalarType.int t).Embeds .float64 where
  trans := inferInstanceAs (TransCmp (Floating.compare (f := .double)))
  cells := by
    refine ⟨fun i => Floating.ofInt (Fixed.val i), Value.asCell?_int_float64, fun a b h => ?_⟩
    exact Int.isLE_compare.2 (Magnitude.order_mono (Int.isLE_compare.1 h))

theorem embeds_decimal : (ScalarType.int t).Embeds (.decimal 38 0) where
  trans := inferInstanceAs (TransCmp (Ord.compare (α := Int)))
  cells := ⟨fun i => Fixed.val i, Value.asCell?_int_decimal, fun _ _ => id⟩

theorem embeds_int64 (h : t ≠ .uint64) : (ScalarType.int t).Embeds (.int .int64) where
  trans := inferInstanceAs (TransCmp (Fixed.compare (t := .int64)))
  cells := ⟨fun i => ⟨Fixed.val i, (Fixed.within_int64 i h).1, (Fixed.within_int64 i h).2⟩,
    fun i => Value.asCell?_int i (Fixed.within_int64 i h), fun _ _ => id⟩

end IntType

theorem embeds_utf8 : ScalarType.utf8.Embeds .largeUtf8 where
  trans := inferInstanceAs (TransCmp (Ord.compare (α := String)))
  cells := ⟨id, Value.asCell?_utf8_largeUtf8, fun _ _ => id⟩

theorem embeds_date32 : ScalarType.date32.Embeds .date64 where
  trans := inferInstanceAs (TransCmp (Fixed.compare (t := .int64)))
  cells := by
    choose f hf hval using Value.asCell?_date32_date64
    refine ⟨f, hf, fun a b h => ?_⟩
    change (Ord.compare (f a).val (f b).val).isLE
    rw [hval, hval, Value.compare_days]
    exact h

theorem exists_int {p : ScalarType} (hp : isRanged p = true)
    (hn : (DataType.scalar p).isNumeric = true) :
    ∃ t : IntType, p = .int t ∧ t.signed = true := by
  cases p with
  | int t => exact ⟨t, rfl, hp⟩
  | float32 | float64 => cases hp
  | _ => cases hn

theorem embeds_of_comparisonType {p : ScalarType} {q t : DataType} (hp : isRanged p = true)
    (h : comparisonType q (.scalar p) = some t) : p.Embeds t := by
  have hnull : DataType.scalar p ≠ .null := by
    rintro ⟨⟩
    cases hp
  unfold comparisonType at h
  rw [show (DataType.scalar p).plain = .scalar p from rfl] at h
  generalize q.plain = l at h
  dsimp only at h
  by_cases hl : l = .scalar p
  · rw [if_pos hl] at h
    cases h
    rw [hl]
    exact .self p
  rw [if_neg hl] at h
  split_ifs at h with _ hn _ hu hd
  · cases h
    exact .self p
  · obtain ⟨s, rfl, -⟩ := exists_int hp (Bool.and_eq_true_iff.1 hn).2
    cases h
    exact s.embeds_float64
  · obtain ⟨s, rfl, hs⟩ := exists_int hp (Bool.and_eq_true_iff.1 hn).2
    simp [DataType.isUnsigned, hs] at hu
  · obtain ⟨s, rfl, -⟩ := exists_int hp (Bool.and_eq_true_iff.1 hn).2
    cases h
    exact s.embeds_decimal
  · obtain ⟨s, rfl, -⟩ := exists_int hp (Bool.and_eq_true_iff.1 hn).2
    cases h
    refine s.embeds_int64 fun hs => hd ?_
    simp [hs]
  · split at h
    · rename_i hlarge
      cases hlarge
      cases hp
    · rename_i htext
      cases htext
      cases h
      exact embeds_utf8
    · rename_i hlong
      cases hlong
      cases hp
    · rename_i hdays
      cases hdays
      cases h
      exact embeds_date32
    · cases h

section Bounds

variable {p : ScalarType} {x : Value} {a b : p.Carrier}

theorem compare?_bound (hp : isRanged p = true)
    (h : Value.compare? .eq x (.of (.scalar p) a) = some (some true)) :
    ((p.compare b a).isLE → Value.compare? .ge x (.of (.scalar p) b) = some (some true)) ∧
      ((p.compare a b).isLE → Value.compare? .le x (.of (.scalar p) b) = some (some true)) := by
  cases x with
  | null => cases h
  | of q y =>
    obtain ⟨t, ht, h⟩ := Option.bind_eq_some_iff.1 h
    obtain ⟨htrans, f, hf, hmono⟩ := embeds_of_comparisonType hp ht
    obtain ⟨y', hy, h⟩ := Option.bind_eq_some_iff.1 h
    rw [hf] at h
    obtain ⟨z, rfl, hz⟩ : ∃ z, y' = some z ∧ t.compare z (f a) = .eq := by
      cases y' with
      | none => cases h
      | some z => exact ⟨z, rfl, by simpa [Operand.compareCells, Comparison.holds] using h⟩
    refine ⟨fun hle => ?_, fun hle => ?_⟩
    · have hge : t.compare z (f b) ≠ .lt := by
        rw [TransCmp.congr_left hz]
        exact Ordering.isGE_iff_ne_lt.1 (OrientedCmp.isGE_of_isLE (hmono _ _ hle))
      rw [Value.compare?_of ht hy (hf b) rfl]
      simp [Comparison.holds, hge]
    · have hle : t.compare z (f b) ≠ .gt := by
        rw [TransCmp.congr_left hz]
        exact Ordering.isLE_iff_ne_gt.1 (hmono _ _ hle)
      rw [Value.compare?_of ht hy (hf b) rfl]
      simp [Comparison.holds, hle]

end Bounds

/-- Types to which every value of a type of ranges is cast without a change that comparisons see. -/
def ScalarType.widens (p : ScalarType) : DataType → Bool
  | .scalar t => p = t || match p, t with
    | .int s, .int t => t.min ≤ s.min && s.max ≤ t.max
    | .int s, .float64 => s.bits ≤ 32
    | .int s, .float32 => s.bits ≤ 16
    | .int _, .utf8 | .int _, .largeUtf8 | .utf8, .largeUtf8 | .date32, .date64 => true
    | _, _ => false
  | .dictionary _ t => t.isPackable && p.widens t
  | _ => false

theorem Fixed.natAbs_le_of_bits {t : IntType} (i : Fixed t) (h : t.bits ≤ 16) :
    i.val.natAbs ≤ 2 ^ 16 := by
  have hbounds : -(2 ^ 16) ≤ t.min ∧ t.max ≤ 2 ^ 16 := by
    cases t <;> first | decide | exact absurd h (by decide)
  have := i.lower
  have := i.upper
  omega

namespace Floating

theorem convert_ofInt {i : Int} (h : i.natAbs ≤ 2 ^ 16) :
    ((ofInt i : Floating .single).convert : Floating .double) = ofInt i := by
  have hfinite : (ofInt i : Floating .single).isFinite :=
    isFinite_round.2 ((roundMagnitude_mono .single h).trans_lt (by decide +kernel))
  have hdiv : ((i.natAbs : ℕ) : ℚ) / (1 : ℕ) = i.natAbs * 2 ^ (0 : ℤ) := by simp
  have habsolute : (ofInt i : Floating .single).absolute = (i.natAbs : ℕ) / (1 : ℕ) :=
    absolute_round_of_exact Nat.one_pos hdiv (h.trans_lt (by decide)) (by decide) hfinite
  have hnegative : ((ofInt i : Floating .single).convert : Floating .double).negative =
      decide (i < 0) := by
    rw [negative_convert, negative_ofInt]
  rw [← round_absolute (isFinite_convert hfinite) Nat.one_pos
    (habsolute.symm.trans (absolute_convert hfinite).symm),
    hnegative, ofInt]

end Floating

def DataType.isInexact (t : DataType) : Bool := t.plain.isDecimal || t.plain.isFloating

theorem floating_of_exactlyOne {a b : Bool} (h : exactlyOne a a b = true) : b = true := by
  cases a <;> cases b <;> first | rfl | cases h

namespace ScalarType

variable {p : ScalarType} {t : DataType}

/-- Whether a value that is cast is there, and equal to what it was where the two compare. -/
def Keeps (p : ScalarType) (t : DataType) (a : p.Carrier) (x : Value) : Prop :=
  x.isNull = false ∧ ((comparisonType t (.scalar p)).isSome →
    Value.compare? .eq x (.of (.scalar p) a) = some (some true))

theorem keeps_of_same {t : ScalarType} {a : p.Carrier} {b : t.Carrier} {m n : Magnitude}
    (hp : isRanged p = true) (hm : (Value.of (.scalar t) b).magnitude? = some m)
    (hn : (Value.of (.scalar p) a).magnitude? = some n) (h : m.compare? n = some .eq) :
    p.Keeps (.scalar t) a (.of (.scalar t) b) := by
  refine ⟨rfl, fun ht => Value.compare?_of_magnitude .eq ht hm hn h ?_⟩
  rintro rfl
  exact ⟨Statistics.isQuiet_of_ranged hp (some b), Statistics.isQuiet_of_ranged hp (some a)⟩

theorem keeps_self (p : ScalarType) (a : p.Carrier) :
    p.Keeps (.scalar p) a (.of (.scalar p) a) := by
  refine ⟨rfl, fun _ => (Statistics.compare?_of_type .eq a a).trans ?_⟩
  rw [show p.compare a a = .eq from Std.ReflCmp.compare_self]
  rfl

theorem keeps_of_ne {t : ScalarType} {a : p.Carrier} {b : t.Carrier}
    (h : comparisonType (.scalar t) (.scalar p) = none) :
    p.Keeps (.scalar t) a (.of (.scalar t) b) :=
  ⟨rfl, fun ht => by rw [h] at ht; cases ht⟩

theorem widens_scalar {t : ScalarType} (hp : isRanged p = true) (h : p.widens (.scalar t))
    (a : p.Carrier) :
    ∃ b : t.Carrier, (Value.of (.scalar p) a).asCell? (.scalar t) = some (some b) ∧
      p.Keeps (.scalar t) a (.of (.scalar t) b) := by
  by_cases hpt : p = t
  · subst hpt
    exact ⟨a, Value.asCell?_of_type (.scalar p) a, keeps_self p a⟩
  simp only [widens, Bool.or_eq_true, decide_eq_true_eq, hpt, false_or] at h
  split at h
  · rename_i s t
    obtain ⟨hmin, hmax⟩ := Bool.and_eq_true_iff.1 h
    rw [decide_eq_true_eq] at hmin hmax
    have hfits := And.intro (hmin.trans (Fixed.lower a)) ((Fixed.upper a).trans hmax)
    exact ⟨_, Value.asCell?_int a hfits,
      keeps_of_same hp rfl rfl (congrArg some (compare_eq_iff_eq.2 rfl))⟩
  · exact ⟨_, Value.asCell?_int_float64 a,
      keeps_of_same hp rfl rfl (congrArg some (compare_eq_iff_eq.2 rfl))⟩
  · rename_i s
    have hsmall := Fixed.natAbs_le_of_bits a (of_decide_eq_true h)
    refine ⟨Floating.ofInt (Fixed.val a), Value.asCell?_of_flat nofun rfl nofun rfl rfl,
      keeps_of_same hp rfl rfl ?_⟩
    exact congrArg some (by rw [Floating.convert_ofInt hsmall]; exact compare_eq_iff_eq.2 rfl)
  · exact ⟨_, Value.asCell?_of_flat nofun rfl nofun rfl rfl, keeps_of_ne rfl⟩
  · exact ⟨_, Value.asCell?_of_flat nofun rfl nofun rfl rfl, keeps_of_ne rfl⟩
  · exact ⟨_, Value.asCell?_utf8_largeUtf8 a,
      keeps_of_same hp rfl rfl (congrArg some Std.ReflCmp.compare_self)⟩
  · obtain ⟨ms, hms, hval⟩ := Value.asCell?_date32_date64 a
    refine ⟨ms, hms, keeps_of_same hp rfl rfl (congrArg some ?_)⟩
    exact compare_eq_iff_eq.2 hval
  · cases h

theorem asCell?_of_widens (hp : isRanged p = true) (h : p.widens t) (a : p.Carrier) :
    ∃ b : t.Carrier, (Value.of (.scalar p) a).asCell? t = some (some b) ∧
      p.Keeps t a (ofSome t b) := by
  induction t with
  | dictionary k t ih =>
    obtain ⟨hpack, hw⟩ := Bool.and_eq_true_iff.1 h
    obtain ⟨b, hb, hkeeps⟩ := ih hw
    exact ⟨b, (Value.asCell?_dictionary (p := .scalar p) a hpack rfl).trans hb, hkeeps⟩
  | scalar t => exact widens_scalar hp h a
  | _ => cases h

theorem isFloating_of_ranged (hp : isRanged p = true) : (DataType.scalar p).isFloating = false := by
  cases p with
  | float32 | float64 => cases hp
  | _ => rfl

theorem plain_of_widens (hp : isRanged p = true) (h : p.widens t) :
    ∃ q : ScalarType, t.plain = .scalar q ∧
    ((DataType.scalar q).isFloating = true → ∃ s : IntType, p = .int s ∧ s.bits ≤ 32) := by
  induction t with
  | dictionary k t ih => exact ih (Bool.and_eq_true_iff.1 h).2
  | scalar q =>
    refine ⟨q, rfl, fun hq => ?_⟩
    have hpq : p ≠ q := by
      rintro rfl
      cases (isFloating_of_ranged hp).symm.trans hq
    simp only [widens, Bool.or_eq_true, decide_eq_true_eq, hpq, false_or] at h
    split at h
    · cases hq
    · exact ⟨_, rfl, of_decide_eq_true h⟩
    · exact ⟨_, rfl, (of_decide_eq_true h).trans (by decide)⟩
    · cases hq
    · cases hq
    · cases hq
    · cases hq
    · cases h
  | _ => cases h

theorem isSmall_of_bits {s : IntType} (h : s.bits ≤ 32) (i : Fixed s) :
    Scalar.isSmall ⟨.int s, some i⟩ = true := by
  have hbounds : -(2 ^ 52) ≤ s.min ∧ s.max ≤ 2 ^ 52 := by
    cases s <;> first | decide | exact absurd h (by decide)
  have := i.lower
  have := i.upper
  exact decide_eq_true (show i.val.natAbs < 2 ^ 53 by omega)

theorem settles_of_exact {b : Bound} (hp : isRanged b.value.type = true)
    (hinclusive : b.inclusive = true) (ht : t.isInexact = false) (v : Scalar) : b.Settles t v := by
  obtain ⟨hdecimal, hfloating⟩ := Bool.or_eq_false_iff.1 ht
  refine ⟨fun hd => ?_, fun hr => .inl ?_⟩
  · rw [hdecimal] at hd
    cases hd
  · rw [hfloating, show b.value.dataType.isFloating = false from isFloating_of_ranged hp] at hr
    rw [hinclusive, floating_of_exactlyOne hr]

theorem settles_of_widens {b : Bound} (hp : isRanged b.value.type = true)
    (hinclusive : b.inclusive = true) (hn : b.value.isNull = false) (h : b.value.type.widens t)
    (v : Scalar) : b.Settles t v := by
  cases ht : t.isInexact with
  | false => exact settles_of_exact hp hinclusive ht v
  | true =>
    obtain ⟨q, hq, hsmall⟩ := plain_of_widens hp h
    obtain ⟨⟨type, value⟩, inclusive⟩ := b
    simp only [DataType.isInexact, hq, DataType.isDecimal, Bool.false_or] at ht
    obtain ⟨s, rfl, hs⟩ := hsmall ht
    cases value with
    | none => cases hn
    | some i =>
      refine ⟨fun hd => ?_, fun _ => .inr (.inl (isSmall_of_bits hs i))⟩
      rw [hq] at hd
      cases hd

end ScalarType

namespace DataType

def family (t : DataType) : DataType :=
  if t.plain.isNumeric then .float64
  else if t.plain = .utf8 then .largeUtf8
  else if t.plain = .date32 then .date64
  else t.plain

variable {l r t : DataType}

theorem isSome_comparisonType_iff (hl : l.plain ≠ .null) (hr : r.plain ≠ .null) :
    (comparisonType l r).isSome ↔ l.family = r.family := by
  unfold comparisonType family
  generalize l.plain = l at *
  generalize r.plain = r at *
  simp only [hl, hr, if_false]
  by_cases hlr : l = r
  · simp [hlr]
  rw [if_neg hlr]
  by_cases hn : (l.isNumeric && r.isNumeric) = true
  · obtain ⟨hln, hrn⟩ := Bool.and_eq_true_iff.1 hn
    rw [if_pos hn, if_pos hln, if_pos hrn]
    split_ifs <;> simp
  rw [if_neg hn]
  split
  · exact iff_of_true rfl rfl
  · exact iff_of_true rfl rfl
  · exact iff_of_true rfl rfl
  · exact iff_of_true rfl rfl
  · refine iff_of_false nofun fun h => ?_
    split_ifs at h <;> simp_all
    all_goals subst h; simp_all [isNumeric]

theorem isSome_comparisonType_trans (hr : r.plain ≠ .null) (ht : t.plain ≠ .null)
    (hlt : (comparisonType l t).isSome) (hrt : (comparisonType r t).isSome) :
    (comparisonType l r).isSome := by
  by_cases hl : l.plain = .null
  · simp only [comparisonType, hl, hr.symm, if_true, if_false]
    rfl
  · rw [isSome_comparisonType_iff hl ht] at hlt
    rw [isSome_comparisonType_iff hr ht] at hrt
    exact (isSome_comparisonType_iff hl hr).2 (hlt.trans hrt.symm)

end DataType

end TableScan
