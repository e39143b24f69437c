import TableScan.Proofs.Agreement

namespace TableScan

open Value (ofScalar)

namespace Floating

variable {f : FloatFormat}

def Before (x y : Floating f) : Prop :=
  (x.negative ∧ y.negative = false) ∨ (x.negative ∧ y.negative ∧ y.magnitude < x.magnitude) ∨
    (x.negative = false ∧ y.negative = false ∧ x.magnitude < y.magnitude)

theorem before_iff {x y : Floating f} : x.Before y ↔ x.order < y.order := by
  unfold Before order
  cases x.negative <;> cases y.negative
  all_goals simp
  all_goals omega

structure Ordered (x y : Floating f) (o : Ordering) : Prop where
  lt : o = .lt ↔ x.Before y
  eq : o = .eq ↔ x = y
  gt : o = .gt ↔ y.Before x

theorem ordered_compare (x y : Floating f) : Ordered x y (x.compare y) where
  lt := compare_lt_iff_lt.trans before_iff.symm
  eq := ⟨eq_of_compare, by rintro rfl; exact compare_eq_iff_eq.2 rfl⟩
  gt := compare_gt_iff_gt.trans before_iff.symm

end Floating

namespace Scalar

def answer (op : Comparison) (v w : Scalar) : Except Failure Scalar := do
  let o ← (v.compare w).mapError .type
  return .ofTruth (o.map op.holds)

theorem compare_eq_error {v w : Scalar} {f : TypeFault} :
    v.compare w = .error f ↔ comparisonType v.dataType w.dataType = none ∧
    f = .compare v.dataType w.dataType := by
  cases ht : comparisonType v.dataType w.dataType with
  | none =>
    have hc : v.compare w = .error (.compare v.dataType w.dataType) := by
      unfold compare
      rw [if_pos (by rw [ht]; rfl)]
    rw [hc, Except.error.injEq, eq_comm]
    exact ⟨fun h => ⟨rfl, h⟩, And.right⟩
  | some t =>
    obtain ⟨o, ho⟩ := compare_of_comparisonType (Option.isSome_iff_exists.2 ⟨t, ht⟩)
    rw [ho]
    exact ⟨nofun, fun h => nomatch h.1⟩

theorem compare_eq_none {v w : Scalar} {o : Option Ordering} (h : v.compare w = .ok o) :
    o = none ↔ v.isNull ∨ w.isNull := by
  have ht : (comparisonType v.dataType w.dataType).isSome := by
    rw [Option.isSome_iff_ne_none]
    intro ht
    rw [compare_eq_error.2 ⟨ht, rfl⟩] at h
    cases h
  obtain ⟨p, v⟩ := v
  obtain ⟨q, w⟩ := w
  simp only [compare, Option.isNone_iff_eq_none, Option.isSome_iff_ne_none.1 ht, ↓reduceIte] at h
  cases v with
  | none =>
    rw [Operand.magnitude?_none] at h
    cases h
    exact ⟨fun _ => .inl rfl, fun _ => rfl⟩
  | some v =>
    cases w with
    | none =>
      have hw : magnitude? ⟨q, none⟩ = none := Operand.magnitude?_none q
      cases hm : magnitude? ⟨p, some v⟩ <;> simp only [hm, hw] at h <;> cases h <;>
        exact ⟨fun _ => .inr rfl, fun _ => rfl⟩
    | some w =>
      obtain ⟨m, n, r, hm, hn, hr⟩ := Value.comparable_of_comparisonType (a := v) (b := w) ht
      have hm' : magnitude? ⟨p, some v⟩ = some m := hm
      have hn' : magnitude? ⟨q, some w⟩ = some n := hn
      simp only [hm', hn', hr] at h
      cases h
      exact iff_of_false (Option.some_ne_none r) (by rintro (h | h) <;> cases h)

end Scalar

namespace Operand

variable {op : Comparison} {rows : Nat} {u u' : Operand} {v w : Scalar}

def Holds (rows : Nat) (v : Scalar) (u : Operand) : Prop :=
  u = scalar v ∨ u = column (.constant v rows)

theorem Holds.type (h : u.Holds rows v) : u.type = v.dataType := by
  rcases h with rfl | rfl <;> rfl

theorem Holds.at? (h : u.Holds rows v) {i : Nat} (hi : i < rows) : u.at? i = some (ofScalar v) := by
  rcases h with rfl | rfl
  · rfl
  · exact value?_constant v hi

theorem Holds.fills (h : u.Holds rows v) : u.Fills rows := by
  rcases h with rfl | rfl <;> exact Column.length_constant v rows

theorem Holds.calm (h : u.Holds rows v) (h' : u'.Holds rows w) (hv : (ofScalar v).isQuiet)
    (hw : (ofScalar w).isQuiet) : u.Calm u' := by
  refine calm_of_isQuiet ?_ ?_
  · rcases h with rfl | rfl
    · exact hv
    · rfl
  · rcases h' with rfl | rfl
    · exact hw
    · rfl

theorem compareWith_of_incomparable (h : comparisonType u.type u'.type = none) :
    compareWith op rows u u' = .error (TypeFault.compare u.type u'.type) := by
  obtain ⟨a, b, rfl, rfl⟩ | ⟨-, he⟩ := compareWith_cases op rows u u'
  · rw [compareWith, Scalar.compare_eq_error.2 ⟨h, rfl⟩]
    rfl
  · rw [he, compareTyped, h]

theorem compareWith_of_holds (h : u.Holds rows v) (h' : u'.Holds rows w) (hv : (ofScalar v).isQuiet)
    (hw : (ofScalar w).isQuiet) :
    (compareWith op rows u u').map (·.toColumn rows) =
      (v.answer op w).map (Column.constant · rows) := by
  cases ht : comparisonType v.dataType w.dataType with
  | none =>
    have ht' : comparisonType u.type u'.type = none := by rw [h.type, h'.type, ht]
    rw [compareWith_of_incomparable ht', h.type, h'.type, Scalar.answer,
      Scalar.compare_eq_error.2 ⟨ht, rfl⟩]
    rfl
  | some t =>
    obtain ⟨o, ho⟩ := Scalar.compare_of_comparisonType (Option.isSome_iff_exists.2 ⟨t, ht⟩)
    obtain ⟨r, hr⟩ : ∃ r, compareWith op rows u u' = .ok r :=
      compareWith_of_comparable ⟨t, by rw [h.type, h'.type, ht], fun _ => comparisonType_scalar ht⟩
    have hrows (i : Nat) (hi : i < rows) : r.at? i = some (Value.ofTruth (o.map op.holds)) := by
      obtain ⟨q, hq, hat⟩ := compareWith_at? hr hi (h.at? hi) (h'.at? hi) (h.calm h' hv hw)
      cases hq.symm.trans (compare_scalar op ho fun _ => ⟨hv, hw⟩)
      exact hat
    have hfills : r.Fills rows := h.fills.compareWith h'.fills hr
    have hcolumn : r.toColumn rows = .constant (.ofTruth (o.map op.holds)) rows := by
      refine Same.eq (fun i hi => ?_) (Column.length_constant _ rows) hfills ?_
      · change (Column.constant _ rows).value? i = (r.toColumn rows).value? i
        rw [value?_toColumn r hi, hrows i hi]
        exact value?_constant (.ofTruth _) hi
      · rw [type_toColumn, type_compareWith hr]
        rfl
    rw [hr, Scalar.answer, ho]
    exact congrArg Except.ok hcolumn

end Operand

namespace Scalar

theorem compare_single {x y : Floating .single} (hx : x.isSignalling = false)
    (hy : y.isSignalling = false) :
    compare ⟨.float32, some x⟩ ⟨.float32, some y⟩ = .ok (some (x.compare y)) :=
  congrArg (fun o => Except.ok (some o)) (Floating.compare_convert hx hy)

theorem compare_double (x y : Floating .double) :
    compare ⟨.float64, some x⟩ ⟨.float64, some y⟩ = .ok (some (x.compare y)) := rfl

end Scalar

namespace Expr

variable {b : Batch} {x y : String} {v w : Scalar}

theorem holds_of_mem {l : Expr} (hx : b.column? x = some (.constant v b.rows))
    (hl : l ∈ [field x, lit v]) :
    ∃ u, l.operand b = .ok u ∧ u.Holds b.rows v := by
  rcases List.mem_pair.1 hl with rfl | rfl
  · exact ⟨_, by rw [operand, hx], .inr rfl⟩
  · exact ⟨_, rfl, .inl rfl⟩

/--
Two values are compared alike in columns, as literals and in folding. Only signalling NaNs of single
precision are left out, which no reader and no cast makes.
-/
theorem eval_constants (op : Comparison) (hx : b.column? x = some (.constant v b.rows))
    (hy : b.column? y = some (.constant w b.rows)) (hv : (ofScalar v).isQuiet)
    (hw : (ofScalar w).isQuiet) :
    (∀ l ∈ [field x, lit v], ∀ r ∈ [field y, lit w],
        (compare op l r).eval b = (v.answer op w).map (Column.constant · b.rows)) ∧
      (compare op (lit v) (lit w)).fold = (v.answer op w).map lit ∧
      (∀ f, v.answer op w = .error f → f = TypeFault.compare v.dataType w.dataType) ∧
      (∀ a, v.answer op w = .ok a → ∃ o, v.compare w = .ok o ∧ a = .ofTruth (o.map op.holds) ∧
        (o = none ↔ v.isNull ∨ w.isNull)) ∧
      (∀ p q, v = ⟨.float32, some p⟩ → w = ⟨.float32, some q⟩ →
        ∃ o, v.compare w = .ok (some o) ∧ Floating.Ordered (f := .single) p q o) ∧
      ∀ p q, v = ⟨.float64, some p⟩ → w = ⟨.float64, some q⟩ →
        ∃ o, v.compare w = .ok (some o) ∧ Floating.Ordered (f := .double) p q o := by
  refine ⟨fun l hl r hr => ?_, ?_, fun f hf => ?_, fun a ha => ?_, ?_, ?_⟩
  · obtain ⟨u, hu, hh⟩ := holds_of_mem hx hl
    obtain ⟨u', hu', hh'⟩ := holds_of_mem hy hr
    rw [← Operand.compareWith_of_holds hh hh' hv hw, eval, operand, hu, hu']
    rfl
  · change simplifyComparison (fun _ => Facts.none_) op (lit v) (lit w) = _
    rw [simplifyComparison, Scalar.answer]
    cases v.compare w <;> rfl
  · rcases bind_eq_error.1 hf with hf | ⟨o, -, hf⟩
    · obtain ⟨e, he, rfl⟩ := mapError_eq_error.1 hf
      rw [(Scalar.compare_eq_error.1 he).2]
    · cases hf
  · obtain ⟨o, ho, ha⟩ := bind_eq_ok.1 ha
    cases ha
    exact ⟨o, mapError_eq_ok.1 ho, rfl, Scalar.compare_eq_none (mapError_eq_ok.1 ho)⟩
  · rintro p q rfl rfl
    rw [Scalar.compare_single (Bool.eq_false_of_not_eq_true' hv) (Bool.eq_false_of_not_eq_true' hw)]
    exact ⟨_, rfl, Floating.ordered_compare _ _⟩
  · rintro p q rfl rfl
    exact ⟨_, Scalar.compare_double p q, Floating.ordered_compare _ _⟩

def beyondInfinity : Batch where
  rows := 2
  columns := [⟨"x", false, .constant ⟨.float32, some (.nan false)⟩ 2, .empty⟩,
    ⟨"y", false, .constant ⟨.float32, some (.inf false)⟩ 2, .empty⟩]
  sized := by simp [Column.length_constant]

theorem eval_constants_nan :
    (compare .gt (field "x") (field "y")).eval beyondInfinity = .ok (.constant (.ofBool true) 2) ∧
      (compare .gt (field "x") (lit ⟨.float32, some (.inf false)⟩)).eval beyondInfinity =
        .ok (.constant (.ofBool true) 2) ∧
      (compare .gt (lit ⟨.float32, some (.nan false)⟩) (field "y")).eval beyondInfinity =
        .ok (.constant (.ofBool true) 2) := by
  obtain ⟨h, -⟩ :=
    eval_constants (b := beyondInfinity) (x := "x") (y := "y") (v := ⟨.float32, some (.nan false)⟩)
    (w := ⟨.float32, some (.inf false)⟩) .gt rfl rfl (by decide) (by decide)
  exact ⟨h _ List.mem_cons_self _ List.mem_cons_self,
    h _ List.mem_cons_self _ (List.mem_pair.2 (.inr rfl)),
    h _ (List.mem_pair.2 (.inr rfl)) _ List.mem_cons_self⟩

end Expr

end TableScan
