import TableScan.Proofs.Facts

namespace TableScan

open Value (ofScalar)

/-- What values are on when they are compared as they are, none of them rounded. -/
inductive Line : Type
  | integers | texts | dates
  deriving DecidableEq

def ScalarType.line? : ScalarType → Option Line
  | .int _ => some .integers
  | .utf8 | .largeUtf8 => some .texts
  | .date32 | .date64 => some .dates
  | _ => none

def DataType.line? : DataType → Option Line
  | .scalar t => t.line?
  | .dictionary _ value => value.line?
  | _ => none

theorem DataType.plain_of_line {l : Line} {t : DataType} (h : t.line? = some l) :
    ∃ p : ScalarType, t.plain = .scalar p ∧ p.line? = some l := by
  induction t with
  | scalar p => exact ⟨p, rfl, h⟩
  | dictionary k t ih => exact ih h
  | _ => cases h

inductive Value.LiesOn (l : Line) : Value → Prop
  | null : LiesOn l .null
  | of {p : ScalarType} (a : p.Carrier) : p.line? = some l → LiesOn l (.of (.scalar p) a)

theorem liesOn_ofCell {l : Line} {t : DataType} (h : t.line? = some l) (a : Option t.Carrier) :
    (Value.ofCell t a).LiesOn l := by
  cases a with
  | none => exact .null
  | some a =>
    obtain ⟨x, hx⟩ := Value.ofSome_plain t a
    obtain ⟨p, hp, hl⟩ := DataType.plain_of_line h
    rw [Value.ofCell_some, hx]
    revert x
    rw [hp]
    exact fun x _ => .of x hl

section Line

variable {l : Line} {p q : ScalarType}

theorem isSome_comparisonType_of_line (hp : p.line? = some l) (hq : q.line? = some l) :
    (comparisonType (.scalar p) (.scalar q)).isSome := by
  cases p <;> cases hp <;> cases q <;> cases hq
  case int.refl.int.refl s t => cases s <;> cases t <;> rfl
  all_goals rfl

theorem isFloating_of_line {v : Scalar} {m : Magnitude} (hv : v.type.line? = some l)
    (hm : v.magnitude? = some m) :
    m.isFloating = false := by
  obtain ⟨p, a⟩ := v
  cases p <;> cases hv <;> obtain ⟨_, -, rfl⟩ := Option.map_eq_some_iff.1 hm <;> rfl

theorem isQuiet_of_line {v : Scalar} (hv : v.type.line? = some l) : (ofScalar v).isQuiet := by
  obtain ⟨p, a⟩ := v
  cases a with
  | none => rfl
  | some a => cases p <;> cases hv <;> rfl

theorem isQuiet_of_liesOn {x : Value} (hx : x.LiesOn l) : x.isQuiet := by
  cases hx with
  | null => rfl
  | of a hp => exact isQuiet_of_line (v := ⟨_, some a⟩) hp

theorem isPlain_of_liesOn {x : Value} (hx : x.LiesOn l) : x.isPlain := by cases hx <;> rfl

end Line

namespace Magnitude

theorem exists_compare {m n k : Magnitude} {o r : Ordering} (h : m.compare? n = some o)
    (h' : n.compare? k = some r) :
    ∃ s, m.compare? k = some s := by
  cases m <;> cases n <;> simp only [compare?, reduceCtorEq] at h <;> cases k <;>
    simp only [compare?, reduceCtorEq] at h' <;> exact ⟨_, rfl⟩

end Magnitude

namespace Scalar

variable {l : Line} {a b c : Scalar} {o r side : Ordering} {inclusive : Bool}

theorem order?_of_line (ha : a.type.line? = some l) (hb : b.type.line? = some l) :
    a.order? b = a.magnitude?.bind fun m => b.magnitude?.bind m.compare? := by
  have ht : ¬ (comparisonType a.dataType b.dataType).isNone := by
    rw [Option.isNone_iff_eq_none]
    exact Option.isSome_iff_ne_none.1 (isSome_comparisonType_of_line ha hb)
  rw [order?, compare, if_neg ht]
  cases a.magnitude? with
  | none => rfl
  | some m =>
    cases b.magnitude? with
    | none => rfl
    | some n =>
      simp only [Option.bind_some]
      cases m.compare? n <;> rfl

theorem isNull_of_order? (h : a.order? b = some o) : a.isNull = false ∧ b.isNull = false := by
  obtain ⟨m, n, hm, hn, -⟩ := Facts.Holds.order?_eq_some h
  obtain ⟨p, _ | x⟩ := a
  · rw [Operand.magnitude?_none] at hm
    cases hm
  obtain ⟨q, _ | y⟩ := b
  · rw [Operand.magnitude?_none] at hn
    cases hn
  exact ⟨rfl, rfl⟩

theorem exists_order? (ha : a.type.line? = some l) (hb : b.type.line? = some l)
    (ha' : a.isNull = false) (hb' : b.isNull = false) : ∃ o, a.order? b = some o := by
  obtain ⟨p, _ | x⟩ := a
  · cases ha'
  obtain ⟨q, _ | y⟩ := b
  · cases hb'
  obtain ⟨m, n, o, hm, hn, ho⟩ := Value.comparable_of_comparisonType (a := x) (b := y)
    (isSome_comparisonType_of_line ha hb)
  change magnitude? ⟨p, some x⟩ = some m at hm
  change magnitude? ⟨q, some y⟩ = some n at hn
  exact ⟨o, by rw [order?_of_line ha hb, hm, hn]; exact ho⟩

theorem order?_swap (ha : a.type.line? = some l) (hb : b.type.line? = some l)
    (h : a.order? b = some o) :
    b.order? a = some o.swap := by
  obtain ⟨m, n, hm, hn, ho⟩ := Facts.Holds.order?_eq_some h
  rw [order?_of_line hb ha, hm, hn, Option.bind_some, Option.bind_some, Magnitude.compare?_swap, ho,
    Option.map_some]

theorem order?_chained (ha : a.type.line? = some l) (hb : b.type.line? = some l)
    (hc : c.type.line? = some l) (hs : side ≠ .eq) (hab : a.order? b = some o)
    (h : o = side ∨ o = .eq ∧ inclusive = true) (hbc : b.order? c = some r) :
    ∃ s, a.order? c = some s ∧ Chained side inclusive r s := by
  obtain ⟨m, n, hm, hn, ho⟩ := Facts.Holds.order?_eq_some hab
  obtain ⟨n', k, hn', hk, hr⟩ := Facts.Holds.order?_eq_some hbc
  cases hn.symm.trans hn'
  obtain ⟨s, hms⟩ := Magnitude.exists_compare ho hr
  refine ⟨s, by rw [order?_of_line ha hc, hm, hk]; exact hms,
    Magnitude.chained ho hr hms hs (fun he => ?_) h⟩
  rw [isFloating_of_line ha hm, isFloating_of_line hb hn, isFloating_of_line hc hk] at he
  cases he

theorem order?_congr (ha : a.type.line? = some l) (hb : b.type.line? = some l)
    (hc : c.type.line? = some l) (h : a.order? b = some .eq) : a.order? c = b.order? c := by
  obtain ⟨m, n, hm, hn, ho⟩ := Facts.Holds.order?_eq_some h
  have hsame : m.Same n :=
    Magnitude.same_of_eq ho
      (.inl ((isFloating_of_line ha hm).trans (isFloating_of_line hb hn).symm))
  rw [order?_of_line ha hc, order?_of_line hb hc, hm, hn]
  exact congrArg c.magnitude?.bind (funext hsame)

end Scalar

namespace Bound

variable {l : Line} {side : Ordering} {a b : Bound} {v : Scalar}

theorem bears_of_line {x : Value} (hx : x.LiesOn l) (hb : b.value.type.line? = some l)
    (hv : v.type.line? = some l) :
    b.Bears x v := by
  cases hx with
  | null => exact ⟨rfl, fun m n k hm => by cases hm⟩
  | of a hp =>
    refine ⟨rfl, fun m k r hm hk hr he => ?_⟩
    rw [isFloating_of_line (v := ⟨_, some a⟩) hp hm, isFloating_of_line hb hk,
      isFloating_of_line hv hr] at he
    cases he

def tighter (side : Ordering) (new old : Bound) : Bool :=
  match new.value.order? old.value with
  | some o => o == side || (o == .eq && !new.inclusive && old.inclusive)
  | none => false

theorem tighterUpper_eq : tighterUpper = tighter .lt := by
  funext new old
  unfold tighterUpper tighter
  rcases new.value.order? old.value with _ | (_ | _ | _) <;> rfl

theorem tighterLower_eq : tighterLower = tighter .gt := by
  funext new old
  unfold tighterLower tighter
  rcases new.value.order? old.value with _ | (_ | _ | _) <;> rfl

structure LiesOn (l : Line) (b : Bound) : Prop where
  line : b.value.type.line? = some l
  isNull : b.value.isNull = false

/-- Whether literals of a line that lie behind the second of two bounds lie behind the first. -/
structure Covers (l : Line) (side : Ordering) (a b : Bound) : Prop where
  beyond : ∀ v : Scalar, v.type.line? = some l → b.beyond side v = true → a.beyond side v = true
  reaches : ∀ v : Scalar, v.type.line? = some l → b.reaches side v = true → a.reaches side v = true

theorem beyond_of {o : Ordering} (h : b.value.order? v = some o)
    (ho : o = side ∨ o = .eq ∧ b.inclusive = false) :
    b.beyond side v = true := by
  rw [beyond, h]
  simpa using ho

theorem reaches_of {o : Ordering} (h : b.value.order? v = some o) (ho : o = side ∨ o = .eq) :
    b.reaches side v = true := by
  rw [reaches, h]
  simpa using ho

variable (ha : a.LiesOn l) (hb : b.LiesOn l)

include ha hb

theorem covers_of_tighter (hs : side ≠ .eq) (h : a.tighter side b = true) : Covers l side a b := by
  unfold tighter at h
  split at h
  case h_2 => cases h
  rename_i o ho
  have hside : o = side ∨ o = .eq ∧ b.inclusive = true := by
    simp only [Bool.or_eq_true, beq_iff_eq, Bool.and_eq_true] at h
    exact h.imp_right fun h => ⟨h.1.1, h.2⟩
  refine ⟨fun v hv hbv => ?_, fun v hv hbv => ?_⟩
  · obtain ⟨r, hr, hbeyond⟩ := Facts.Holds.beyond_iff hbv
    obtain ⟨s, hsv, hc⟩ := Scalar.order?_chained ha.line hb.line hv hs ho hside hr
    exact beyond_of hsv (.inl (hc.beyond hbeyond))
  · obtain ⟨r, hr, hreaches⟩ := Facts.Holds.reaches_iff hbv
    obtain ⟨s, hsv, hc⟩ := Scalar.order?_chained ha.line hb.line hv hs ho hside hr
    exact reaches_of hsv (hc.reaches hreaches)

theorem covers_of_not_tighter (hs : side = .lt ∨ side = .gt) (h : a.tighter side b = false) :
    Covers l side b a := by
  obtain ⟨o, ho⟩ := Scalar.exists_order? ha.line hb.line ha.isNull hb.isNull
  simp only [tighter, ho, Bool.or_eq_false_iff, beq_eq_false_iff_ne] at h
  by_cases heq : o = .eq
  · -- bounds at one place differ in whether they include it
    subst heq
    have hi : a.inclusive = false → b.inclusive = false := by simpa using h.2
    refine ⟨fun v hv hav => ?_, fun v hv hav => ?_⟩
    · obtain ⟨r, hr, hbeyond⟩ := Facts.Holds.beyond_iff hav
      rw [Scalar.order?_congr ha.line hb.line hv ho] at hr
      exact beyond_of hr (hbeyond.imp_right fun h => ⟨h.1, hi h.2⟩)
    · obtain ⟨r, hr, hreaches⟩ := Facts.Holds.reaches_iff hav
      rw [Scalar.order?_congr ha.line hb.line hv ho] at hr
      exact reaches_of hr hreaches
  · have hba : b.value.order? a.value = some side := by
      rw [Scalar.order?_swap ha.line hb.line ho]
      rcases hs with rfl | rfl <;> cases o <;> simp_all
    exact covers_of_tighter hb ha (by rcases hs with rfl | rfl <;> nofun) (by simp [tighter, hba])

end Bound

end TableScan
