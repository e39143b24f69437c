import TableScan.Column
import TableScan.Expr.Eval
import TableScan.Proofs.Order
import TableScan.Proofs.Results

namespace TableScan

inductive Value : Type
  | null : Value
  | of : (t : DataType) → t.Carrier → Value

namespace Value

def ofSome : (t : DataType) → t.Carrier → Value
  | .dictionary _ value, a => ofSome value a
  | t, a => of t a

def ofCell (t : DataType) : Option t.Carrier → Value
  | some a => ofSome t a
  | none => null

def ofScalar (s : Scalar) : Value := ofCell s.dataType s.value

def ofTruth (b : Option Bool) : Value := ofCell .boolean b

def isNull : Value → Bool
  | null => true
  | of _ _ => false

/-- The value as a cell of a type, by the lenient form of the conversion; none where it is broken.
-/
def asCell? (t : DataType) : Value → Option (Option t.Carrier)
  | null => some none
  | of p a =>
    if h : p = t then some (some (h ▸ a))
    else (conversion p t).toOption.bind fun f => (f a).lenient.toOption

def cast? (t : DataType) (v : Value) : Option Value := (v.asCell? t).map (ofCell t)

def compare? (op : Comparison) : Value → Value → Option (Option Bool)
  | of p a, of q b => do
    let t ← comparisonType p q
    let x ← (of p a).asCell? t
    let y ← (of q b).asCell? t
    return Operand.compareCells op x y
  | _, _ => some none

def truth? : Value → Option (Option Bool)
  | null => some none
  | of (.scalar .boolean) b => some (some b)
  | _ => none

@[simp] theorem ofSome_dictionary (k : IntType) (t : DataType) (a : t.Carrier) :
    ofSome (.dictionary k t) a = ofSome t a := rfl

@[simp] theorem ofCell_none (t : DataType) : ofCell t none = null := rfl

@[simp] theorem ofCell_some (t : DataType) (a : t.Carrier) : ofCell t (some a) = ofSome t a := rfl

@[simp] theorem ofSome_scalar (t : ScalarType) (a : t.Carrier) :
    ofSome (.scalar t) a = of (.scalar t) a :=
  rfl

@[simp] theorem ofScalar_some (t : ScalarType) (a : t.Carrier) :
    ofScalar ⟨t, some a⟩ = of (.scalar t) a := rfl

@[simp] theorem asCell?_of_type (t : DataType) (a : t.Carrier) :
    (of t a).asCell? t = some (some a) := by
  simp [asCell?]

theorem ofSome_plain (t : DataType) (a : t.Carrier) : ∃ b, ofSome t a = of t.plain b := by
  induction t with
  | dictionary k t ih => exact ih a
  | _ => exact ⟨a, rfl⟩

@[simp] theorem isNull_ofSome (t : DataType) (a : t.Carrier) : (ofSome t a).isNull = false := by
  obtain ⟨b, h⟩ := ofSome_plain t a
  rw [h]
  rfl

@[simp] theorem isNull_ofCell (t : DataType) (c : Option t.Carrier) :
    (ofCell t c).isNull = c.isNone := by
  cases c with
  | none => rfl
  | some a => simp

@[simp] theorem isNull_ofScalar (s : Scalar) : (ofScalar s).isNull = s.isNull := isNull_ofCell _ _

@[simp] theorem asCell?_null (t : DataType) : null.asCell? t = some none := rfl

@[simp] theorem cast?_null (t : DataType) : null.cast? t = some null := rfl

@[simp] theorem compare?_null_left (op : Comparison) (v : Value) :
    compare? op null v = some none := rfl

@[simp] theorem compare?_null_right (op : Comparison) (v : Value) :
    compare? op v null = some none := by
  cases v <;> rfl

@[simp] theorem truth?_ofTruth (b : Option Bool) : (ofTruth b).truth? = some b := by cases b <;> rfl

@[simp] theorem isNull_ofTruth (b : Option Bool) :
    (ofTruth b).isNull = b.isNone := isNull_ofCell _ _

theorem eq_ofTruth {v : Value} {b : Option Bool} (h : v.truth? = some b) : v = ofTruth b := by
  unfold truth? at h
  split at h
  · cases h; rfl
  · cases h; rfl
  · cases h

theorem ofTruth_injective : Function.Injective ofTruth := fun a b h => by
  simpa using congrArg truth? h

end Value

def DataType.isPackable (t : DataType) : Bool := Conversion.packedAs? t = some t

def DataType.isRepacked : DataType → Bool
  | .dictionary _ t => !t.isPackable
  | _ => false

def DataType.isDictionary : DataType → Bool
  | .dictionary _ _ => true
  | _ => false

theorem DataType.not_isDictionary_plain (t : DataType) : t.plain.isDictionary = false := by
  induction t with
  | dictionary k t ih => exact ih
  | _ => rfl

namespace Rule

variable {α β : Type}

def cell? (r : Rule α β) (x : Option α) : Option (Option β) :=
  r.toOption.bind fun f => (Column.convertCell f x).toOption

theorem cell?_eq_some {r : Rule α β} {x : Option α} {y : Option β} (h : r.cell? x = some y) :
    ∃ f, r = .ok f ∧ Column.convertCell f x = .ok y := by
  cases r with
  | error e => cases h
  | ok f =>
    refine ⟨f, rfl, ?_⟩
    cases hc : Column.convertCell f x with
    | error e => simp [cell?, Except.toOption, hc] at h
    | ok z => simpa [cell?, Except.toOption, hc] using h

end Rule

theorem conversion_self {t : DataType} (h : t.isDictionary = false) (a : t.Carrier) :
    conversion t t = .ok fun x => .ok x := by
  cases t with
  | scalar t => cases t with
    | null => exact nomatch a
    | _ => simp [conversion, conversion?, Conversion.fromFlat?, Conversion.toFlat?, Conversion.each]
  | dictionary k t => cases h
  | _ => simp [conversion, conversion?, Conversion.fromFlat?, Conversion.toFlat?, Conversion.each]

theorem conversion?_of_ok {a b : DataType} {f : a.Carrier → Outcome b.Carrier}
    (h : conversion a b = .ok f) : conversion? a b = some (.ok f) := by
  unfold conversion at h
  cases hc : conversion? a b with
  | none => simp [hc] at h
  | some r => simpa [hc] using h

theorem not_isDictionary_of_isPackable {t : DataType} (h : t.isPackable) :
    t.isDictionary = false := by
  cases t with
  | dictionary => simp [DataType.isPackable, Conversion.packedAs?] at h
  | _ => rfl

theorem conversion?_dictionary_of_isPackable {k : IntType} {p t : DataType} (ht : t.isPackable)
    (hp : p.isDictionary = false) (hn : p ≠ .null) :
    conversion? p (.dictionary k t) = conversion? p t := by
  have ht' := not_isDictionary_of_isPackable ht
  simp only [DataType.isPackable, decide_eq_true_eq] at ht
  have hf : Conversion.fromFlat? p (.dictionary k t) = Conversion.fromFlat? p t := by
    simp only [Conversion.fromFlat?, ht, ↓reduceIte]
    cases Conversion.fromFlat? p t <;> rfl
  cases p with
  | scalar s => cases s with
    | null => exact absurd rfl hn
    | _ => exact hf
  | dictionary => cases hp
  | _ => exact hf

namespace Value

theorem asCell?_of {p t : DataType} {a : p.Carrier} {f : p.Carrier → Outcome t.Carrier}
    {y : Option t.Carrier} (hp : p.isDictionary = false) (hf : conversion? p t = some (.ok f))
    (hy : (f a).lenient = .ok y) : (of p a).asCell? t = some y := by
  simp only [asCell?]
  split
  · rename_i h
    subst h
    have hc := conversion_self hp a
    simp only [conversion, hf, Option.getD_some, Except.ok.injEq] at hc
    subst hc
    simpa [Outcome.lenient] using hy
  · simp [conversion, hf, Except.toOption, hy]

theorem asCell?_dictionary {k : IntType} {p t : DataType} (a : p.Carrier) (ht : t.isPackable)
    (hp : p.isDictionary = false) : (of p a).asCell? (.dictionary k t) = (of p a).asCell? t := by
  have hn : p ≠ .null := by
    rintro rfl
    exact nomatch a
  have hd : p ≠ .dictionary k t := by
    rintro rfl
    cases hp
  have hc := conversion?_dictionary_of_isPackable (k := k) ht hp hn
  unfold asCell?
  simp only [hd, ↓reduceDIte, conversion, hc]
  split
  · rename_i h
    subst h
    have hs := conversion_self hp a
    rw [conversion] at hs
    cases hq : conversion? p p with
    | none => simp [hq] at hs
    | some r =>
      simp only [hq, Option.getD_some] at hs
      simp [hs, Except.toOption, Outcome.lenient]
  · cases conversion? p t <;> rfl

theorem asCell?_ofSome {p t : DataType} {a : p.Carrier} {f : p.Carrier → Outcome t.Carrier}
    {y : Option t.Carrier} (ht : t.isDictionary = false) (hf : conversion? p t = some (.ok f))
    (hy : (f a).lenient = .ok y) : (ofSome p a).asCell? t = some y := by
  induction p with
  | dictionary k p ih =>
    apply ih (f := f) _ hy
    cases t with
    | dictionary => cases ht
    | _ => exact hf
  | _ => exact asCell?_of rfl hf hy

theorem ofSome_of_not_isDictionary {p : DataType} (h : p.isDictionary = false) (a : p.Carrier) :
    ofSome p a = of p a := by
  cases p with
  | dictionary => cases h
  | _ => rfl

theorem asCell?_self {p : DataType} (hr : p.isDictionary = true → p.isRepacked = false)
    (a : p.Carrier) : (ofSome p a).asCell? p = some (some a) := by
  cases p with
  | dictionary k p =>
    have hp : p.isPackable := by simpa [DataType.isRepacked] using hr rfl
    have hd := not_isDictionary_of_isPackable hp
    rw [ofSome_dictionary, ofSome_of_not_isDictionary hd, asCell?_dictionary (p := p) a hp hd]
    exact asCell?_of_type p a
  | _ => exact asCell?_of_type _ a

theorem asCell?_ofCell {p t : DataType} {x : Option p.Carrier} {y : Option t.Carrier}
    (h : (conversion p t).cell? x = some y)
    (hr : p.isDictionary = true → t.isRepacked = false) : (ofCell p x).asCell? t = some y := by
  obtain ⟨f, hf, hy⟩ := Rule.cell?_eq_some h
  replace hf := conversion?_of_ok hf
  cases x with
  | none => cases hy; rfl
  | some a =>
    rw [ofCell_some]
    cases t with
    | dictionary key value =>
      cases p with
      | dictionary k p =>
        have ht : value.isPackable := by simpa [DataType.isRepacked] using hr rfl
        obtain ⟨b, hb⟩ := ofSome_plain p a
        rw [ofSome_dictionary, hb, asCell?_dictionary b ht p.not_isDictionary_plain, ← hb]
        exact asCell?_ofSome (t := value) (not_isDictionary_of_isPackable ht) hf hy
      | _ => exact asCell?_of (f := f) rfl hf hy
    | _ => exact asCell?_ofSome (f := f) rfl hf hy

end Value

theorem Column.castCells_getElem? {c : Column} {t : DataType} {cells : List (Option t.Carrier)}
    (h : c.castCells t = .ok cells) (hr : c.type.isDictionary = true → t.isRepacked = false)
    {i : Nat} {x : Option c.type.Carrier} (hx : c.cells[i]? = some x) :
    ∃ y, cells[i]? = some y ∧ (Value.ofCell c.type x).asCell? t = some y := by
  obtain ⟨type, old⟩ := c
  simp only at x hx
  simp only [castCells] at h
  split at h
  · rename_i e
    subst e
    cases h
    refine ⟨x, hx, ?_⟩
    cases x with
    | none => rfl
    | some a => exact Value.asCell?_self hr a
  · split at h
    · cases h
    · rename_i f hf
      obtain ⟨y, hy, hc⟩ := mapM_getElem? (mapError_eq_ok.1 h) hx
      refine ⟨y, hy, Value.asCell?_ofCell ?_ hr⟩
      simp [Rule.cell?, hf, Except.toOption, hc]

namespace Scalar

theorem dataType_of_scalar? {t : DataType} {c : Option t.Carrier} {v : Scalar}
    (h : t.scalar? c = .ok v) :
    v.dataType = t.plain := by
  induction t with
  | scalar t =>
    cases h
    rfl
  | dictionary k t ih => exact ih h
  | _ => cases h

theorem dataType_castTo {v w : Scalar} {t : DataType} (h : v.castTo t = .ok w) :
    w.dataType = t.plain := by
  unfold castTo at h
  split at h
  · rename_i ht
    cases h
    rw [← ht]
    rfl
  · split at h
    · cases h
    · exact dataType_of_scalar? (mapError_eq_ok.1 h)

end Scalar

namespace Value

theorem ofScalar_scalar? {t : DataType} {c : Option t.Carrier} {s : Scalar}
    (h : t.scalar? c = .ok s) : ofScalar s = ofCell t c := by
  induction t with
  | scalar t => cases h; rfl
  | dictionary k t ih =>
    rw [ih h]
    cases c <;> rfl
  | _ => cases h

theorem asCell?_of_strict {p t : DataType} {a : p.Carrier} {f : p.Carrier → Outcome t.Carrier}
    {b : t.Carrier} (hp : p ≠ t) (hf : conversion p t = .ok f) (hb : (f a).strict = .ok b) :
    (of p a).asCell? t = some (some b) := by
  have hl : (f a).lenient = .ok (some b) := by
    cases hfa : f a <;> simp_all [Outcome.strict, Outcome.lenient]
  simp [asCell?, hp, hf, Except.toOption, hl]

theorem cast?_ofScalar {s s' : Scalar} {t : DataType} (h : s.castTo t = .ok s') :
    (ofScalar s).cast? t = some (ofScalar s') := by
  obtain ⟨type, value⟩ := s
  simp only [Scalar.castTo] at h
  split at h
  · rename_i e
    cases h
    subst e
    cases value with
    | none => rfl
    | some a =>
      exact congrArg (Option.map (ofCell (.scalar type))) (asCell?_of_type (.scalar type) a)
  · rename_i hne
    split at h
    · cases h
    · rename_i cell hc
      rw [ofScalar_scalar? (mapError_eq_ok.1 h)]
      obtain ⟨f, hf, hv⟩ := bind_eq_ok.1 hc
      cases value with
      | none => cases hv; rfl
      | some a =>
        obtain ⟨b, hb, hv⟩ := bind_eq_ok.1 hv
        cases hv
        exact congrArg (Option.map (ofCell t)) (asCell?_of_strict (p := .scalar type) hne hf hb)

end Value

end TableScan
