import TableScan.Proofs.Facts
import TableScan.Proofs.Rows
import TableScan.Proofs.Substitution

/-!
Simplification under a guarantee, over batches: on the rows where the guarantee is true the
simplified expression is true where the other one is. What a field is known to equal may be of
another type than the field, and what bounds it may be rounded when it is compared; the conditions
tell when neither shows.
-/

namespace TableScan

open Value (ofCell ofScalar ofTruth)

namespace Scalar

def isSmall (v : Scalar) : Bool := v.magnitude?.any (·.isSmall)

/-- Whether values of a type that equal this one count as the same: no integer is rounded to it. -/
def Pins (v : Scalar) (t : DataType) : Prop :=
  v.isNull ∨ v.dataType = t.plain ∨
    (∃ p, t.plain = .scalar p) ∧ (v.dataType.isFloating = t.plain.isFloating ∨ v.isSmall)

end Scalar

def DataType.isDecimal : DataType → Bool
  | .decimal _ _ => true
  | _ => false

/--
Whether the bound of a field of a type settles comparisons with a value. Decimals are cut in another
way for integers than for other numbers; integers are rounded in the presence of other numbers
alone.
-/
structure Bound.Settles (b : Bound) (t : DataType) (v : Scalar) : Prop where
  cut : t.plain.isDecimal → comparisonType t b.value.dataType = comparisonType t v.dataType
  rounded : exactlyOne t.plain.isFloating b.value.dataType.isFloating v.dataType.isFloating = true →
    b.inclusive = v.dataType.isFloating ∨ b.value.isSmall ∨ v.isSmall

theorem isFloating_magnitude {p : ScalarType} {a : p.Carrier} {m : Magnitude}
    (h : Scalar.magnitude? ⟨p, some a⟩ = some m) :
    m.isFloating = (DataType.scalar p).isFloating := by
  cases p <;> cases h <;> rfl

theorem isFloating_literal {v : Scalar} {m : Magnitude} (h : v.magnitude? = some m) :
    m.isFloating = v.dataType.isFloating := by
  obtain ⟨p, value⟩ := v
  cases value with
  | none => cases p <;> cases h
  | some a => exact isFloating_magnitude h

theorem isSmall_literal {v : Scalar} {m : Magnitude} (h : v.magnitude? = some m) :
    v.isSmall = m.isSmall := by
  rw [Scalar.isSmall, h]
  rfl

theorem meets_decimal {digits : Nat} {scale : Int} (i : Int) {q : ScalarType} (hq : q ≠ .null) :
    (Value.of (.decimal digits scale) i).meets q =
      match comparisonType (.decimal digits scale) (.scalar q) with
      | some .float64 => ((Value.of (.decimal digits scale) i).asCell? .float64).join.map .floating
      | some (.int _) => ((Value.of (.decimal digits scale) i).asCell? (.int .int64)).join.map
          fun j => .number (Fixed.val j)
      | some _ => ((Value.of (.decimal digits scale) i).asCell? (.decimal 38 0)).join.map .number
      | none => none := by
  cases q with
  | null => exact absurd rfl hq
  | int t => cases t <;> rfl
  | _ => rfl

theorem isFloating_decimal {digits : Nat} {scale i : Int} {q : ScalarType} {m : Magnitude}
    (h : (Value.of (.decimal digits scale) i).meets q = some m) :
    m.isFloating = (DataType.scalar q).isFloating := by
  cases q with
  | int t =>
    cases t <;> (obtain ⟨_, -, rfl⟩ := Option.map_eq_some_iff.1 h; rfl)
  | float32 | float64 =>
    simp only [Value.meets] at h
    obtain ⟨_, -, rfl⟩ := Option.map_eq_some_iff.1 h
    rfl
  | _ => cases h

theorem exactlyOne_self (a : Bool) : exactlyOne a a a = false := by cases a <;> rfl

theorem Scalar.type_ne_null {v : Scalar} (h : v.isNull = false) : v.type ≠ .null := by
  obtain ⟨p, value⟩ := v
  cases value with
  | none => cases h
  | some a =>
    rintro rfl
    exact Empty.elim a

theorem Bound.Settles.bears {b : Bound} {t : DataType} {v : Scalar} {x : Value} (h : b.Settles t v)
    (hb : b.value.isNull = false) (hv : v.isNull = false)
    (hx : ∀ p (a : p.Carrier), x = .of p a → p = t.plain) : b.Bears x v := by
  have rounds {m n k : Magnitude} (hm : m.isFloating = t.plain.isFloating)
      (hn : b.value.magnitude? = some n) (hk : v.magnitude? = some k)
      (hr : exactlyOne m.isFloating n.isFloating k.isFloating = true) :
      b.inclusive = k.isFloating ∨ n.isSmall ∨ k.isSmall := by
    rw [hm, isFloating_literal hn, isFloating_literal hk] at hr
    rw [isFloating_literal hk, ← isSmall_literal hn, ← isSmall_literal hk]
    exact h.rounded hr
  cases x with
  | null => exact ⟨rfl, fun m n k hm => by cases hm⟩
  | of p a =>
    obtain rfl := hx p a rfl
    have hcut := h.cut
    generalize hp : t.plain = p at a rounds hcut
    cases p with
    | scalar p =>
      exact ⟨rfl, fun m n k hm => rounds (isFloating_magnitude hm)⟩
    | float16 =>
      refine ⟨rfl, fun m n k hm => rounds ?_⟩
      cases hm
      rfl
    | decimal digits scale =>
      have hmeets : (Value.of (.decimal digits scale) a).meets b.value.type =
          (Value.of (.decimal digits scale) a).meets v.type := by
        have common (q : ScalarType) :
            comparisonType t (.scalar q) = comparisonType (.decimal digits scale) (.scalar q) := by
          simp only [comparisonType, hp]
          rfl
        rw [meets_decimal a (Scalar.type_ne_null hb), meets_decimal a (Scalar.type_ne_null hv),
          ← common, ← common, show comparisonType t (.scalar b.value.type) =
            comparisonType t (.scalar v.type) from hcut rfl]
      refine ⟨hmeets, fun m n k hm hn hk hr => ?_⟩
      have hmn : m.isFloating = n.isFloating := by
        rw [isFloating_decimal (hmeets.trans hm), isFloating_literal hn]
        rfl
      have hmk : m.isFloating = k.isFloating := by
        rw [isFloating_decimal hm, isFloating_literal hk]
        rfl
      rw [← hmn, ← hmk, exactlyOne_self] at hr
      cases hr
    | dictionary => exact ⟨rfl, fun m n k hm => by cases hm⟩
    | _ => exact ⟨rfl, fun m n k hm => by cases hm⟩

theorem Value.ofScalar_of_isNull {v : Scalar} (h : v.isNull = true) : ofScalar v = .null := by
  obtain ⟨p, value⟩ := v
  cases value with
  | none => rfl
  | some a => cases h

section Known

variable {v : Scalar} {t : DataType} {x : Value}

theorem Scalar.exists_of_known (hp : x.isPlain) (hq : x.isQuiet) (hv : (ofScalar v).isQuiet)
    (hn : v.isNull = false)
    (heq : if v.isNull then x = .null else Value.compare? .eq x (ofScalar v) = some (some true)) :
    ∃ (p : DataType) (a : p.Carrier) (q : ScalarType) (b : q.Carrier) (m n : Magnitude),
      x = .of p a ∧ v = ⟨q, some b⟩ ∧
      x.meets q = some m ∧ (Value.of (.scalar q) b).magnitude? = some n ∧
      m.compare? n = some .eq := by
  simp only [hn, Bool.false_eq_true, ↓reduceIte] at heq
  obtain ⟨m, n, o, hm, hmn, ho, heqo⟩ := Facts.Holds.meets_of_true hp hq hv heq
  obtain rfl : o = .eq := by simpa [Comparison.holds] using heqo
  obtain ⟨q, value⟩ := v
  cases value with
  | none => cases hn
  | some b =>
    cases x with
    | null => cases hm
    | of p a => exact ⟨p, a, q, b, m, n, rfl, rfl, hm, hmn, ho⟩

theorem Scalar.eq_of_known (h : v.isNull = false → v.dataType = t.plain)
    (hx : ∀ p (a : p.Carrier), x = .of p a → p = t.plain) (hp : x.isPlain) (hq : x.isQuiet)
    (hv : (ofScalar v).isQuiet)
    (heq : if v.isNull then x = .null else Value.compare? .eq x (ofScalar v) = some (some true)) :
    x = ofScalar v := by
  cases hn : v.isNull with
  | true =>
    simp only [hn, ↓reduceIte] at heq
    rw [heq, Value.ofScalar_of_isNull hn]
  | false =>
    obtain ⟨p, a, q, b, m, n, rfl, rfl, hm, hmn, ho⟩ := Scalar.exists_of_known hp hq hv hn heq
    obtain rfl := (hx p a rfl).trans (h hn).symm
    rw [ScalarType.eq_of_compare (Value.compare_of_magnitude (t := q) hm hmn ho hq hv)]
    rfl

theorem Scalar.Pins.alike (h : v.Pins t) (hx : ∀ p (a : p.Carrier), x = .of p a → p = t.plain)
    (hp : x.isPlain) (hq : x.isQuiet) (hv : (ofScalar v).isQuiet)
    (heq : if v.isNull then x = .null else Value.compare? .eq x (ofScalar v) = some (some true)) :
    x.Alike (ofScalar v) := by
  by_cases hs : v.isNull = false → v.dataType = t.plain
  · exact .inl (Scalar.eq_of_known hs hx hp hq hv heq)
  · obtain ⟨hn, hne⟩ := Classical.not_imp.1 hs
    obtain ⟨⟨r, hr⟩, hf⟩ := (h.resolve_left (by simp [hn])).resolve_left hne
    obtain ⟨p, a, q, b, m, n, rfl, rfl, hm, hmn, ho⟩ := Scalar.exists_of_known hp hq hv hn heq
    obtain rfl := (hx p a rfl).trans hr
    refine .inr ⟨m, n, hm, hmn, Magnitude.same_of_eq ho ?_, hq, hv⟩
    rw [isFloating_magnitude hm, isFloating_magnitude hmn, ← hr]
    exact hf.imp Eq.symm fun hs => (isSmall_literal hmn).symm.trans hs

end Known

namespace Facts

/-- No literal among the facts is a signalling NaN of single precision. -/
structure IsQuiet (g : Facts) : Prop where
  value : ∀ v, g.value = some v → (ofScalar v).isQuiet
  bounds : ∀ b ∈ g.bounds, (ofScalar b.value).isQuiet

theorem IsQuiet.ofGuarantee {given : Expr} (h : given.isQuiet) (n : String) :
    (Facts.ofGuarantee given n).IsQuiet where
  value v hv := by
    obtain ⟨c, hc, ht⟩ := tells_value hv
    exact ht.isQuiet (Expr.isQuiet_conjuncts h c hc)
  bounds b hb := by
    obtain ⟨c, hc, op, ht, -⟩ := tells_bound hb
    exact ht.isQuiet (Expr.isQuiet_conjuncts h c hc)

end Facts

namespace Expr

def IsRetyped (s : Schema) (given e : Expr) : Prop :=
  ∃ n v, e = field n ∧ (Facts.ofGuarantee given n).value = some v ∧ v.isNull = false ∧
    v.dataType ≠ (s.typeOf n).plain

def Stands (s : Schema) (e : Expr) : Prop := ∃ p, (e.kind s.typeOf).plain = .scalar p

/--
Whether what a guarantee says of fields carries over to an expression: known values pin the fields,
no cast and no comparison sees their other type, and bounds settle the comparisons they decide.
-/
structure Carries (s : Schema) (e given : Expr) : Prop where
  pinned : ∀ n ∈ e.fields, ∀ v, (Facts.ofGuarantee given n).value = some v → v.Pins (s.typeOf n)
  steady : e.Steady (IsRetyped s given) (Stands s)
  settled : e.Meets fun a b => ∀ n v, Faces (Facts.ofGuarantee given) a b n v → v.isNull = false →
    ∀ bound ∈ (Facts.ofGuarantee given n).bounds, bound.Settles (s.typeOf n) v

theorem Meets.mono {P Q : Expr → Expr → Prop} {e : Expr} (h : e.Meets P) (hq : e.isQuiet)
    (hpq : ∀ a b, b.isQuiet → P a b → Q a b) : e.Meets Q := by
  induction e with
  | field n => trivial
  | lit v => trivial
  | compare op a b iha ihb =>
    obtain ⟨hab, hba, ha, hb⟩ := h
    obtain ⟨qa, qb⟩ := Bool.and_eq_true_iff.1 hq
    exact ⟨hpq a b qb hab, hpq b a qa hba, iha ha qa, ihb hb qb⟩
  | and a b iha ihb | or a b iha ihb =>
    obtain ⟨qa, qb⟩ := Bool.and_eq_true_iff.1 hq
    exact ⟨iha h.1 qa, ihb h.2 qb⟩
  | not e ih | isValid e ih | cast e t ih => exact ih h hq
  | member e set ih =>
    obtain ⟨qe, qs⟩ := Bool.and_eq_true_iff.1 hq
    exact ⟨fun s hs => hpq e (lit s) (List.all_eq_true.1 qs s hs) (h.1 s hs), ih h.2 qe⟩

theorem steady_of_never {changes counts : Expr → Prop} (h : ∀ a, ¬ changes a) (e : Expr) :
    e.Steady changes counts := by
  induction e with
  | field n | lit v => trivial
  | compare op a b iha ihb => exact ⟨iha, ihb, fun ha => absurd ha (h a), fun hb => absurd hb (h b)⟩
  | and a b iha ihb | or a b iha ihb => exact ⟨iha, ihb⟩
  | not e ih | isValid e ih | member e set ih => exact ih
  | cast e t ih => exact ⟨ih, h e⟩

def Types (s : Schema) (given : Expr) : Prop := ∀ n, (Facts.ofGuarantee given n).bounds = [] ∧
  ∀ v, (Facts.ofGuarantee given n).value = some v → v.isNull = false →
  v.dataType = (s.typeOf n).plain

theorem Types.not_isRetyped {s : Schema} {given : Expr} (h : given.Types s) (e : Expr) :
    ¬ IsRetyped s given e := by
  rintro ⟨n, v, -, hv, hn, hne⟩
  exact hne ((h n).2 v hv hn)

theorem Types.carries {s : Schema} {given : Expr} (h : given.Types s) (e : Expr) :
    e.Carries s given where
  pinned n _ v hv := by
    cases hn : v.isNull with
    | true => exact .inl hn
    | false => exact .inr (.inl ((h n).2 v hv hn))
  steady := steady_of_never h.not_isRetyped e
  settled := by
    refine meets_of_fields fun a b _ n v _ _ bound hb => ?_
    rw [(h n).1] at hb
    cases hb

def pin (facts : String → Facts) (ρ : Row) : Row := fun n =>
  match (facts n).value with
  | some v => (ρ n).map fun _ => ofScalar v
  | none => ρ n

theorem pin_of_value {facts : String → Facts} {ρ : Row} {n : String} {v : Scalar}
    (h : (facts n).value = some v) : pin facts ρ n = (ρ n).map fun _ => ofScalar v := by
  simp only [pin, h]

theorem pin_of_none {facts : String → Facts} {ρ : Row} {n : String} (h : (facts n).value = none) :
    pin facts ρ n = ρ n := by
  simp only [pin, h]

end Expr

/--
A row of which a guarantee is true. There are no signalling NaNs among the values it tells of, nor
among any others if it gives a field a value of another type.
-/
structure Row.Obeys (ρ : Row) (s : Schema) (given : Expr) : Prop where
  typed : ρ.IsTyped s.typeOf
  plain : ∀ n x, ρ n = some x → x.isPlain
  holds : ∀ n x, ρ n = some x → (Facts.ofGuarantee given n).Holds x
  quiet : ∀ n x, ρ n = some x → Facts.ofGuarantee given n ≠ Facts.none_ → x.isQuiet
  retyped : (∃ a, Expr.IsRetyped s given a) → ρ.IsQuiet

namespace Row.Obeys

variable {ρ : Row} {s : Schema} {given : Expr} {n : String} {x : Value}

theorem typeOf (h : ρ.Obeys s given) (hx : ρ n = some x) (p : DataType) (a : p.Carrier)
    (he : x = .of p a) : p = (s.typeOf n).plain := h.typed n p a (hx.trans (congrArg some he))

theorem quiet_of_value (h : ρ.Obeys s given) (hx : ρ n = some x) {v : Scalar}
    (hv : (Facts.ofGuarantee given n).value = some v) : x.isQuiet :=
  h.quiet n x hx fun hnone => by rw [hnone] at hv; cases hv

theorem quiet_of_bound (h : ρ.Obeys s given) (hx : ρ n = some x) {b : Bound}
    (hb : b ∈ (Facts.ofGuarantee given n).bounds) : x.isQuiet :=
  h.quiet n x hx fun hnone => by rw [hnone] at hb; cases hb

end Row.Obeys

def Row.only (names : List String) (ρ : Row) : Row := fun n => if n ∈ names then ρ n else none

theorem Row.of_only {names : List String} {ρ : Row} {n : String} {x : Value}
    (h : ρ.only names n = some x) : n ∈ names ∧ ρ n = some x := by
  unfold Row.only at h
  split at h
  · exact ⟨‹_›, h⟩
  · cases h

namespace Expr

variable {ρ : Row} {s : Schema} {e given : Expr}

theorem truth?_only {names : List String} (h : ∀ n ∈ e.fields, n ∈ names) :
    e.truth? (ρ.only names) = e.truth? ρ := by
  have hρ (n : String) (hn : n ∈ e.fields) : ρ.only names n = ρ n := if_pos (h n hn)
  rw [truth?, truth?, value?_congr hρ]

theorem Carries.follows (hc : e.Carries s given) (hq : e.isQuiet) (hg : given.isQuiet)
    (hρ : ρ.Obeys s given) : Follows ρ (pin (Facts.ofGuarantee given) ρ) e := by
  have quiet {n : String} {v : Scalar} (hv : (Facts.ofGuarantee given n).value = some v) :
      (ofScalar v).isQuiet := (Facts.IsQuiet.ofGuarantee hg n).value v hv
  have likens : Likens ρ (pin (Facts.ofGuarantee given) ρ) e := by
    intro n hn x hx
    cases hv : (Facts.ofGuarantee given n).value with
    | none => exact ⟨x, by rw [pin_of_none hv, hx], .inl rfl⟩
    | some v =>
      refine ⟨ofScalar v, by rw [pin_of_value hv, hx, Option.map_some], ?_⟩
      exact (hc.pinned n hn v hv).alike (hρ.typeOf hx) (hρ.plain n x hx) (hρ.quiet_of_value hx hv)
        (quiet hv) ((hρ.holds n x hx).value v hv)
  -- a field that changes is known as a value of another type
  have retyped (a : Expr) (ha : a.Changes ρ (pin (Facts.ofGuarantee given) ρ)) :
      IsRetyped s given a := by
    obtain ⟨n, rfl, hne⟩ := ha
    by_contra hsame
    apply hne
    cases hv : (Facts.ofGuarantee given n).value with
    | none => exact (pin_of_none hv).symm
    | some v =>
      cases hx : ρ n with
      | none => rw [pin_of_value hv, hx, Option.map_none]
      | some x =>
        have hvt (hn : v.isNull = false) : v.dataType = (s.typeOf n).plain := by
          by_contra hvt
          exact hsame ⟨n, v, rfl, hv, hn, hvt⟩
        rw [pin_of_value hv, hx, Option.map_some, Scalar.eq_of_known hvt (hρ.typeOf hx)
          (hρ.plain n x hx) (hρ.quiet_of_value hx hv) (quiet hv) ((hρ.holds n x hx).value v hv)]
  refine hc.steady.follows hq likens retyped ?_
  rintro a b ha hb ⟨p, hp⟩ x hx
  cases x with
  | null => exact .inl rfl
  | of t c =>
    obtain rfl := (value?_isTyped hρ.typed hx).trans hp
    refine .inr ⟨?_, (value?_isQuiet (hρ.retyped ⟨a, retyped a ha⟩) hb hx).2⟩
    cases p <;> first | exact Empty.elim c | exact ⟨_, rfl⟩

theorem Carries.fits (hc : e.Carries s given) (hq : e.isQuiet) (hg : given.isQuiet)
    (hρ : ρ.Obeys s given) :
    Fits (Facts.ofGuarantee given) (pin (Facts.ofGuarantee given) ρ)
      (fun n v => v.isNull = false → (ofScalar v).isQuiet ∧
        ∀ bound ∈ (Facts.ofGuarantee given n).bounds, bound.Settles (s.typeOf n) v) e where
  quiet := hq
  trusted := by
    refine hc.settled.mono hq fun a b hb hab n v hface hn => ⟨?_, hab n v hface hn⟩
    exact (simplified_of_ok hface.literal).isQuiet
      (fun n v hv => (Facts.IsQuiet.ofGuarantee hg n).value v hv) hb
  described := by
    intro n _ x hx
    refine ⟨fun v hv => ?_, fun hv b hb => ?_, fun hv op v r t hok hd hcomp => ?_⟩
    · rw [pin_of_value hv] at hx
      obtain ⟨_, -, rfl⟩ := Option.map_eq_some_iff.1 hx
      rfl
    · rw [pin_of_none hv] at hx
      exact (hρ.holds n x hx).valid b hb
    · rw [pin_of_none hv] at hx
      have hn := Facts.isNull_of_decide hd
      obtain ⟨hvq, hb⟩ := hok hn
      refine (hρ.holds n x hx).decide (hρ.plain n x hx) (fun _ _ => hvq) (fun b hb' => ?_) hd hcomp
      exact ⟨(hb b hb').bears ((hρ.holds n x hx).isNull_bound hb') hn (hρ.typeOf hx),
        (Facts.IsQuiet.ofGuarantee hg n).bounds b hb', hρ.quiet_of_bound hx hb'⟩

theorem Carries.truth? {t : Option Bool} {u : Expr} (hc : e.Carries s given)
    (h : e.simplify given = .ok u) (hq : e.isQuiet) (hg : given.isQuiet) (hρ : ρ.Obeys s given)
    (he : e.truth? ρ = some t) :
    u.truth? ρ = some t := by
  have hs := simplified_of_ok h
  have hpin := (hc.follows hq hg hρ).truth t he
  have hu := (hs.refines (hc.fits hq hg hρ)
    fun n v hv => (Facts.IsQuiet.ofGuarantee hg n).value v hv).truth t hpin
  rw [Expr.truth?, value?_congr fun n hn => (pin_of_none (hs.fields_subset hn).2).symm]
  exact hu

theorem add_of_recodes {c : Expr} {n : String} (g : Facts) (h : c.recodes s = true) :
    Facts.add n g c = g := by
  unfold Facts.add
  split
  · cases h
  · cases h
  · cases h
  · cases h
  · rfl

theorem holds_of_mask {b : Batch} {m : List (Option Bool)} {i : Nat} (h : given.mask b = .ok m)
    (hq : given.isQuiet) (hi : i < b.rows) (hm : m[i]? = some (some true)) (n : String) (x : Value)
    (hx : b.row i n = some x) : (Facts.ofGuarantee given n).Holds x := by
  apply Facts.Holds.ofGuarantee hx
  intro c hc
  obtain ⟨mc, hmc, htrue⟩ := mask_conjuncts h hm c hc
  cases hr : c.recodes b.schema with
  | true => exact .inr fun g => add_of_recodes g hr
  | false =>
    obtain ⟨t, ht, htruth⟩ := mask_truth hmc (isQuiet_conjuncts hq c hc) hr hi
    cases ht.symm.trans htrue
    exact .inl htruth

/--
Simplification under a guarantee: on the rows where the guarantee is true, the simplified expression
has the truth value of the other one, if what the guarantee says carries over to it.
-/
theorem mask_simplify {b : Batch} {u : Expr} {m mg mu : List (Option Bool)} {i : Nat}
    (h : e.simplify given = .ok u) (hm : e.mask b = .ok m) (hmg : given.mask b = .ok mg)
    (hmu : u.mask b = .ok mu) (hc : e.Carries b.schema given) (hr : e.recodes b.schema = false)
    (hq : e.isQuiet ∧ given.isQuiet ∧ b.isQuiet) (hi : i < b.rows)
    (htrue : mg[i]? = some (some true)) :
    mu[i]? = m[i]? ∧ (u = false_ → m[i]? = some (some false)) ∧
      (u = true_ → m[i]? = some (some true)) := by
  obtain ⟨he, hg, hb⟩ := hq
  have hs := simplified_of_ok h
  have huq := hs.isQuiet (fun n v hv => (Facts.IsQuiet.ofGuarantee hg n).value v hv) he
  obtain ⟨t, ht, htruth⟩ := mask_truth hm he hr hi
  obtain ⟨t', ht', htruth'⟩ := mask_truth hmu huq ((hs.recodes b.schema).2 hr) hi
  have hρ : (b.row i).Obeys b.schema given :=
    ⟨b.row_isTyped i, fun n x hx => (b.row_isQuiet hb i n x hx).1, holds_of_mask hmg hg hi htrue,
      fun n x hx _ => (b.row_isQuiet hb i n x hx).2, fun _ => b.row_isQuiet hb i⟩
  have hu := hc.truth? h he hg hρ htruth
  cases hu.symm.trans htruth'
  rw [ht, ht']
  refine ⟨rfl, ?_, ?_⟩
  · rintro rfl
    cases hu
    rfl
  · rintro rfl
    cases hu
    rfl

section Wholes

def wholes (i : Fixed .int64) : Batch where
  rows := 1
  columns := [⟨"x", true, ⟨.int .int64, [some i]⟩, .empty⟩]
  sized := by simp [Column.length]

def zero : Fixed .int64 := ⟨0, by decide, by decide⟩

def seven : Fixed .int64 := ⟨7, by decide, by decide⟩

def above (i : Fixed .int64) : Expr := compare .gt (field "x") (lit (.ofFixed i))

def atMost (i : Int) : Expr := compare .le (field "x") (lit ⟨.float64, some (Floating.ofInt i)⟩)

theorem mask_simplify_wholes : ∃ m : List (Option Bool),
    (atMost 5).mask (wholes ⟨9, by decide, by decide⟩) = .ok m ∧ m[0]? = some (some false) := by
  have hc : (atMost 5).Carries (wholes ⟨9, by decide, by decide⟩).schema
      (above ⟨7, by decide, by decide⟩) := by
    refine ⟨fun n _ v hv => ?_, ⟨trivial, trivial, ?_, ?_⟩, ⟨?_, ?_, trivial, trivial⟩⟩
    · unfold above Facts.ofGuarantee at hv
      simp only [conjuncts, List.foldl_cons, List.foldl_nil, Facts.add] at hv
      split at hv <;> cases hv
    · rintro ⟨n, v, hn, hv, -⟩
      cases hn
      cases hv
    · rintro ⟨n, v, hn, -⟩
      cases hn
    · rintro n v ⟨hn, hv⟩ - bound hb
      obtain rfl : n = "x" := by cases hn; rfl
      cases hv
      obtain rfl : bound = ⟨.ofFixed ⟨7, by decide, by decide⟩, false⟩ := List.mem_singleton.1 hb
      refine ⟨fun h => ?_, fun _ => .inr (.inl rfl)⟩
      cases h
    · rintro n v ⟨hn, -⟩
      cases hn
  have hg : (above ⟨7, by decide, by decide⟩).mask (wholes ⟨9, by decide, by decide⟩) =
      .ok [some true] := rfl
  have h :=
    mask_simplify (u := false_) (i := 0) rfl rfl hg rfl hc rfl ⟨rfl, rfl, rfl⟩ (by decide) rfl
  exact ⟨_, rfl, h.2.1 rfl⟩

/-- An integer above another one may be rounded to the number nearest to that one. -/
theorem mask_simplify_rounded :
    (atMost (2 ^ 53)).simplify (above ⟨2 ^ 53, by decide, by decide⟩) = .ok false_ ∧
      (above ⟨2 ^ 53, by decide, by decide⟩).mask
        (wholes ⟨2 ^ 53 + 1, by decide, by decide⟩) = .ok [some true] ∧
      (atMost (2 ^ 53)).mask (wholes ⟨2 ^ 53 + 1, by decide, by decide⟩) = .ok [some true] :=
  ⟨rfl, rfl, rfl⟩

end Wholes

end Expr

end TableScan
