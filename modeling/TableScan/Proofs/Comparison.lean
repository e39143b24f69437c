import TableScan.Proofs.RowValue

namespace TableScan

theorem Fixed.within_int64 {t : IntType} (i : Fixed t) (h : t ≠ .uint64) :
    IntType.int64.min ≤ i.val ∧ i.val ≤ IntType.int64.max := by
  have hb : IntType.int64.min ≤ t.min ∧ t.max ≤ IntType.int64.max := by
    revert h
    cases t <;> decide
  exact ⟨hb.1.trans i.lower, i.upper.trans hb.2⟩

theorem Fixed.within_uint64 {t : IntType} (i : Fixed t) (h : t.signed = false) :
    IntType.uint64.min ≤ i.val ∧ i.val ≤ IntType.uint64.max := by
  have hb : IntType.uint64.min ≤ t.min ∧ t.max ≤ IntType.uint64.max := by
    revert h
    cases t <;> decide
  exact ⟨hb.1.trans i.lower, i.upper.trans hb.2⟩

theorem Fixed.natAbs_lt {t : IntType} (i : Fixed t) : i.val.natAbs < 10 ^ 38 := by
  have hb : -(2 ^ 64) ≤ t.min ∧ t.max ≤ 2 ^ 64 := by cases t <;> decide
  have hword : (2 : ℕ) ^ 64 < 10 ^ 38 := by decide
  have hl := hb.1.trans i.lower
  have hu := i.upper.trans hb.2
  omega

theorem Decimals.inWord_of_natAbs_lt {i : Int} (h : i.natAbs < 10 ^ 38) : inWord i = true := by
  have hword : (10 : ℕ) ^ 38 < 2 ^ 127 := by decide
  simp only [inWord, Bool.and_eq_true, decide_eq_true_eq]
  omega

open Conversion in
theorem conversion?_flat {p t : DataType} (hp : p.isDictionary = false)
    (ht : t.isDictionary = false) (hn : p ≠ .null) : conversion? p t = toFlat? p t := by
  have hflat : fromFlat? p t = toFlat? p t := by
    cases t with
    | dictionary => cases ht
    | _ => rfl
  cases p with
  | scalar s => cases s with
    | null => exact absurd rfl hn
    | _ => exact hflat
  | dictionary => cases hp
  | _ => exact hflat

namespace Value

theorem asCell?_of_flat {p t : DataType} {a : p.Carrier} {f : p.Carrier → Outcome t.Carrier}
    {c : Option t.Carrier} (hpt : p ≠ t) (hp : p.isDictionary = false) (hn : p ≠ .null)
    (hf : Conversion.flat? p t = some (.ok f)) (hc : (f a).lenient = .ok c) :
    (of p a).asCell? t = some c := by
  have ht : t.isDictionary = false := by
    cases t with
    | dictionary => cases hf
    | _ => rfl
  have hflat : conversion p t = .ok f := by
    rw [conversion, conversion?_flat hp ht hn, Conversion.toFlat?, dif_neg hpt, hf]
    rfl
  rw [asCell?, dif_neg hpt, hflat]
  exact congrArg Except.toOption hc

theorem asCell?_int {s t : IntType} (i : Fixed s) (h : t.min ≤ i.val ∧ i.val ≤ t.max) :
    (of (.int s) i).asCell? (.int t) = some (some ⟨i.val, h.1, h.2⟩) := by
  by_cases hst : s = t
  · subst hst
    exact asCell?_of_type (.int s) i
  · refine asCell?_of_flat (by simpa using hst) rfl nofun rfl ?_
    simp [Number.toFixed, Fixed.ofInt?, h, Outcome.ofOption, Outcome.lenient]

theorem asCell?_int_float64 {s : IntType} (i : Fixed s) :
    (of (.int s) i).asCell? .float64 = some (some (Floating.ofInt i.val)) :=
  asCell?_of_flat nofun rfl nofun rfl rfl

theorem asCell?_float32_float64 (x : Floating .single) :
    (of .float32 x).asCell? .float64 = some (some x.convert) :=
  asCell?_of_flat nofun rfl nofun rfl rfl

theorem asCell?_float16_float64 (x : Floating .half) :
    (of .float16 x).asCell? .float64 = some (some x.convert) :=
  asCell?_of_flat nofun rfl nofun rfl rfl

theorem asCell?_int_decimal {s : IntType} (i : Fixed s) :
    (of (.int s) i).asCell? (.decimal 38 0) = some (some i.val) := by
  have hfit : Decimals.ofInt 38 0 i.val = .ok i.val := by
    simpa [Decimals.ofInt, Decimals.inWord_of_natAbs_lt i.natAbs_lt, Decimals.fit] using i.natAbs_lt
  refine asCell?_of_flat nofun rfl nofun rfl ?_
  rw [hfit]
  rfl

theorem asCell?_utf8_largeUtf8 (s : String) : (of .utf8 s).asCell? .largeUtf8 = some (some s) :=
  asCell?_of_flat nofun rfl nofun rfl rfl

theorem asCell?_date32_date64 (d : Fixed .int32) : ∃ ms : Fixed .int64,
    (of .date32 d).asCell? .date64 = some (some ms) ∧ ms.val = d.val * 86400000 := by
  refine ⟨.clamp .int64 (d.val * 86400000), asCell?_of_flat nofun rfl nofun rfl rfl, ?_⟩
  have hl : -(2 ^ 31) ≤ d.val := d.lower
  have hu : d.val ≤ 2 ^ 31 - 1 := d.upper
  simp only [Fixed.clamp, IntType.min, IntType.max, IntType.signed, IntType.bits]
  norm_num
  omega

def isQuiet : Value → Bool
  | of (.scalar .float32) x => !Floating.isSignalling (f := .single) x
  | _ => true

def magnitude? : Value → Option Magnitude
  | of (.scalar t) a => Scalar.magnitude? ⟨t, some a⟩
  | _ => none

theorem compare?_of {op : Comparison} {p q t : DataType} {a : p.Carrier} {b : q.Carrier}
    {x y : t.Carrier} {o : Ordering} (ht : comparisonType p q = some t)
    (hx : (of p a).asCell? t = some (some x)) (hy : (of q b).asCell? t = some (some y))
    (ho : t.compare x y = o) : compare? op (of p a) (of q b) = some (some (op.holds o)) := by
  simp [compare?, ht, hx, hy, Operand.compareCells, ho]

theorem comparisonType_comm (p q : DataType) : comparisonType q p = comparisonType p q := by
  simp only [comparisonType]
  generalize p.plain = l
  generalize q.plain = r
  by_cases hlr : l = r
  · simp [hlr]
  have hrl : ¬ r = l := fun h => hlr h.symm
  by_cases hl : l = .null
  · subst hl
    simp [hlr, hrl]
  by_cases hr : r = .null
  · subst hr
    simp [hlr, hrl]
  simp only [hlr, hrl, hl, hr, ↓reduceIte, Bool.and_comm r.isNumeric, Bool.or_comm r.isFloating,
    Bool.and_comm r.isUnsigned, Bool.or_comm (r = .int .uint64)]
  split
  · rfl
  · cases l with
    | scalar s =>
      cases r with
      | scalar t => cases s <;> cases t <;> rfl
      | _ => cases s <;> rfl
    | _ =>
      cases r with
      | scalar t => cases t <;> rfl
      | _ => rfl

theorem compare?_flip (op : Comparison) (x y : Value) : compare? op.flip x y = compare? op y x := by
  cases x with
  | null => simp
  | of p a =>
    cases y with
    | null => simp
    | of q b =>
      simp only [compare?, comparisonType_comm p q]
      cases comparisonType p q with
      | none => rfl
      | some t =>
        simp only [Option.bind_eq_bind, Option.bind_some]
        cases (of p a).asCell? t with
        | none => cases (of q b).asCell? t <;> rfl
        | some c =>
          cases (of q b).asCell? t with
          | none => rfl
          | some d =>
            cases c <;> cases d <;> try rfl
            rename_i c d
            have hs := op.holds_flip (t.compare d c)
            rw [← t.compare_swap] at hs
            simp [Operand.compareCells, hs]

theorem compare_days (i j : Int) : compare (i * 86400000) (j * 86400000) = compare i j := by
  rcases lt_trichotomy i j with h | h | h
  · rw [compare_lt_iff_lt.2 h, compare_lt_iff_lt]
    omega
  · rw [h]
    simp
  · rw [compare_gt_iff_gt.2 h, compare_gt_iff_gt]
    omega

theorem compare_of_magnitude {t : ScalarType} {a b : t.Carrier} {m n : Magnitude} {o : Ordering}
    (hm : (of (.scalar t) a).magnitude? = some m) (hn : (of (.scalar t) b).magnitude? = some n)
    (ho : m.compare? n = some o) (ha : (of (.scalar t) a).isQuiet)
    (hb : (of (.scalar t) b).isQuiet) :
    t.compare a b = o := by
  cases t with
  | null => exact nomatch a
  | float32 =>
    cases hm
    cases hn
    cases ho
    simp only [isQuiet, Bool.not_eq_true'] at ha hb
    exact (Floating.compare_convert ha hb).symm
  | date32 =>
    cases hm
    cases hn
    cases ho
    exact (compare_days _ _).symm
  | _ =>
    cases hm
    cases hn
    cases ho
    rfl

theorem comparisonType_int {s t : IntType} (h : s ≠ t) : comparisonType (.int s) (.int t) = some
    (if s.signed = false ∧ t.signed = false then .int .uint64
      else if s = .uint64 ∨ t = .uint64 then .decimal 38 0 else .int .int64) := by
  revert h
  cases s <;> cases t <;> decide

theorem compare?_int {s t : IntType} (op : Comparison) (h : s ≠ t) (i : Fixed s) (j : Fixed t) :
    compare? op (of (.int s) i) (of (.int t) j) = some (some (op.holds (compare i.val j.val))) := by
  have ht := comparisonType_int h
  split_ifs at ht with hu hd
  · exact compare?_of ht (asCell?_int i (i.within_uint64 hu.1))
      (asCell?_int j (j.within_uint64 hu.2)) rfl
  · exact compare?_of ht (asCell?_int_decimal i) (asCell?_int_decimal j) rfl
  · exact compare?_of ht (asCell?_int i (i.within_int64 fun h => hd (.inl h)))
      (asCell?_int j (j.within_int64 fun h => hd (.inr h))) rfl

theorem compare?_of_magnitude {p q : ScalarType} {a : p.Carrier} {b : q.Carrier} {m n : Magnitude}
    {o : Ordering} (op : Comparison) (ht : (comparisonType (.scalar p) (.scalar q)).isSome)
    (hm : (of (.scalar p) a).magnitude? = some m) (hn : (of (.scalar q) b).magnitude? = some n)
    (ho : m.compare? n = some o)
    (hquiet : p = q → (of (.scalar p) a).isQuiet ∧ (of (.scalar q) b).isQuiet) :
    compare? op (of (.scalar p) a) (of (.scalar q) b) = some (some (op.holds o)) := by
  by_cases hpq : p = q
  · subst hpq
    have ht : comparisonType (.scalar p) (.scalar p) = some (.scalar p) := by
      simp [comparisonType, DataType.plain]
    exact compare?_of ht (asCell?_of_type (.scalar p) a) (asCell?_of_type (.scalar p) b)
      (compare_of_magnitude hm hn ho (hquiet rfl).1 (hquiet rfl).2)
  cases p <;> cases q <;> cases hm <;> cases hn <;> cases ho <;> try exact absurd rfl hpq
  case neg.int.int.refl.refl.refl s t => exact compare?_int op (by simpa using hpq) a b
  case neg.int.float32.refl.refl.refl s =>
    exact compare?_of rfl (asCell?_int_float64 a) (asCell?_float32_float64 b) rfl
  case neg.int.float64.refl.refl.refl s =>
    exact compare?_of rfl (asCell?_int_float64 a) (asCell?_of_type .float64 b) rfl
  case neg.float32.int.refl.refl.refl s =>
    exact compare?_of rfl (asCell?_float32_float64 a) (asCell?_int_float64 b) rfl
  case neg.float64.int.refl.refl.refl s =>
    exact compare?_of rfl (asCell?_of_type .float64 a) (asCell?_int_float64 b) rfl
  case neg.float32.float64.refl.refl.refl =>
    exact compare?_of rfl (asCell?_float32_float64 a) (asCell?_of_type .float64 b) rfl
  case neg.float64.float32.refl.refl.refl =>
    exact compare?_of rfl (asCell?_of_type .float64 a) (asCell?_float32_float64 b) rfl
  case neg.utf8.largeUtf8.refl.refl.refl =>
    exact compare?_of rfl (asCell?_utf8_largeUtf8 a) (asCell?_of_type .largeUtf8 b) rfl
  case neg.largeUtf8.utf8.refl.refl.refl =>
    exact compare?_of rfl (asCell?_of_type .largeUtf8 a) (asCell?_utf8_largeUtf8 b) rfl
  case neg.date32.date64.refl.refl.refl =>
    obtain ⟨ms, hms, hv⟩ := asCell?_date32_date64 a
    exact compare?_of rfl hms (asCell?_of_type .date64 b) (congrArg (compare · _) hv)
  case neg.date64.date32.refl.refl.refl =>
    obtain ⟨ms, hms, hv⟩ := asCell?_date32_date64 b
    exact compare?_of rfl (asCell?_of_type .date64 a) hms (congrArg (compare _ ·) hv)

theorem comparable_of_comparisonType {p q : ScalarType} {a : p.Carrier} {b : q.Carrier}
    (ht : (comparisonType (.scalar p) (.scalar q)).isSome) : ∃ m n o,
      (of (.scalar p) a).magnitude? = some m ∧ (of (.scalar q) b).magnitude? = some n ∧
        m.compare? n = some o := by
  cases p <;> cases q <;>
    first
    | exact ⟨_, _, _, rfl, rfl, rfl⟩
    | exact Empty.elim a
    | exact Empty.elim b
    | simp [comparisonType, DataType.plain, DataType.isNumeric] at ht

def isPlain : Value → Bool
  | null => true
  | of t _ => !t.isDictionary

theorem isPlain_ofCell (t : DataType) (c : Option t.Carrier) : (ofCell t c).isPlain := by
  cases c with
  | none => rfl
  | some a =>
    obtain ⟨b, hb⟩ := ofSome_plain t a
    rw [ofCell_some, hb, isPlain, t.not_isDictionary_plain]
    rfl

def meets (q : ScalarType) : Value → Option Magnitude
  | of (.scalar t) a => (of (.scalar t) a).magnitude?
  | of .float16 x => some (.floating (Floating.convert (f := .half) x))
  | of (.decimal p s) i =>
    match q with
    | .float32 | .float64 => ((of (.decimal p s) i).asCell? .float64).join.map .floating
    | .int .uint64 => ((of (.decimal p s) i).asCell? (.decimal 38 0)).join.map .number
    | .int _ => ((of (.decimal p s) i).asCell? (.int .int64)).join.map fun j =>
      .number (Fixed.val j)
    | _ => none
  | _ => none

/-- How a value compares with one that stands alone, in terms of what they count as. -/
structure Compared (op : Comparison) (q : ScalarType) (x : Value) (n : Magnitude)
    (r : Option Bool) : Prop where
  known {m : Magnitude} : x.meets q = some m → ∃ o, m.compare? n = some o ∧ r = some (op.holds o)
  unknown : x.meets q = none → r = none

theorem compared_of_asCell? {op : Comparison} {p t : DataType} {q : ScalarType} {a : p.Carrier}
    {b : q.Carrier} {y : t.Carrier} {r : Option Bool} {n : Magnitude} {f : t.Carrier → Magnitude}
    (h : compare? op (of p a) (of (.scalar q) b) = some r)
    (ht : comparisonType p (.scalar q) = some t) (hb : (of (.scalar q) b).asCell? t = some (some y))
    (hm : (of p a).meets q = ((of p a).asCell? t).join.map f)
    (hf : ∀ x, (f x).compare? n = some (t.compare x y)) : Compared op q (of p a) n r := by
  have h' : (((of p a).asCell? t).bind fun x => some (Operand.compareCells op x (some y))) =
      some r := by
    simpa [compare?, ht, hb] using h
  cases hx : (of p a).asCell? t with
  | none => simp [hx] at h'
  | some c =>
    rw [hx] at h' hm
    cases c with
    | none =>
      cases h'
      exact ⟨fun hk => by simp [hm] at hk, fun _ => rfl⟩
    | some x =>
      cases h'
      refine ⟨fun hk => ?_, fun hk => by simp [hm] at hk⟩
      rw [hm] at hk
      cases hk
      exact ⟨_, hf x, rfl⟩

theorem compared {op : Comparison} {x : Value} {q : ScalarType} {b : q.Carrier} {r : Option Bool}
    {n : Magnitude} (h : compare? op x (of (.scalar q) b) = some r) (hx : x.isNull = false)
    (hp : x.isPlain) (hn : (of (.scalar q) b).magnitude? = some n)
    (hq : ∀ a, x = of (.scalar q) a → x.isQuiet ∧ (of (.scalar q) b).isQuiet) :
    Compared op q x n r := by
  cases x with
  | null => cases hx
  | of p a =>
    have ht : (comparisonType p (.scalar q)).isSome := by
      cases ht : comparisonType p (.scalar q) with
      | none => simp [compare?, ht] at h
      | some t => rfl
    cases p with
    | scalar p =>
      obtain ⟨m, n', o, hm, hn', ho⟩ := comparable_of_comparisonType (a := a) (b := b) ht
      cases hn.symm.trans hn'
      have hquiet (he : p = q) : (of (.scalar p) a).isQuiet ∧ (of (.scalar q) b).isQuiet := by
        subst he
        exact hq a rfl
      rw [compare?_of_magnitude op ht hm hn ho hquiet] at h
      cases h
      refine ⟨fun hk => ?_, fun hk => ?_⟩
      · cases hm.symm.trans hk
        exact ⟨o, ho, rfl⟩
      · cases hm.symm.trans hk
    | dictionary => cases hp
    | float16 =>
      have meets_ (q : ScalarType) : (of .float16 a).meets q =
          ((of .float16 a).asCell? .float64).join.map .floating := by
        rw [asCell?_float16_float64]
        rfl
      cases q with
      | int t =>
        cases hn
        exact compared_of_asCell? h rfl (asCell?_int_float64 b) (meets_ _) fun _ => rfl
      | float32 =>
        cases hn
        exact compared_of_asCell? h rfl (asCell?_float32_float64 b) (meets_ _) fun _ => rfl
      | float64 =>
        cases hn
        exact compared_of_asCell? h rfl (asCell?_of_type .float64 b) (meets_ _) fun _ => rfl
      | null => cases hn
      | _ => simp [comparisonType, DataType.plain, DataType.isNumeric] at ht
    | decimal digits scale =>
      cases q with
      | int t =>
        cases hn
        by_cases hu : t = .uint64
        · subst hu
          exact compared_of_asCell? h rfl (asCell?_int_decimal b) rfl fun _ => rfl
        · have hc : comparisonType (.decimal digits scale) (.int t) = some (.int .int64) := by
            cases t <;> first | rfl | exact absurd rfl hu
          refine compared_of_asCell? (f := fun i => .number (Fixed.val (t := .int64) i)) h hc
            (asCell?_int b (b.within_int64 hu)) ?_ fun _ => rfl
          cases t <;> first | rfl | exact absurd rfl hu
      | float32 =>
        cases hn
        exact compared_of_asCell? h rfl (asCell?_float32_float64 b) rfl fun _ => rfl
      | float64 =>
        cases hn
        exact compared_of_asCell? h rfl (asCell?_of_type .float64 b) rfl fun _ => rfl
      | null => cases hn
      | _ => simp [comparisonType, DataType.plain, DataType.isNumeric] at ht
    | _ =>
      cases q <;>
        first
        | (cases hn; done)
        | simp [comparisonType, DataType.plain, DataType.isNumeric] at ht

end Value

end TableScan
