import TableScan.Proofs.Facts
import TableScan.Scan.Task

namespace TableScan

namespace Expr

def isNullEquation : Expr → Bool
  | compare .eq (field _) (lit v) | compare .eq (lit v) (field _) => v.isNull
  | _ => false

def firm? (c : Expr) : Option (String × Scalar) := if c.isNullEquation then none else c.binding?

def firmBindings (p : Expr) : List (String × Scalar) := p.conjuncts.filterMap firm?

def fixes (n : String) (c : Expr) : Bool := c.binding?.any (·.1 == n)

def NullFirst (p : Expr) (n : String) : Prop :=
  ∃ c, p.conjuncts.find? (fixes n) = some c ∧ c.isNullEquation

variable {c : Expr} {op : Comparison} {f : String} {v : Scalar}

theorem firm?_left : (compare op (field f) (lit v)).firm? =
    if op = .eq ∧ v.isNull = false then some (f, v) else none := by
  cases op <;> cases hv : v.isNull <;> simp [firm?, isNullEquation, binding?, hv]

theorem firm?_right : (compare op (lit v) (field f)).firm? =
    if op = .eq ∧ v.isNull = false then some (f, v) else none := by
  cases op <;> cases hv : v.isNull <;> simp [firm?, isNullEquation, binding?, hv]

end Expr

namespace Facts

open TableScan.Expr

variable {g : Facts} {n : String}

theorem value_addComparison_eq (op : Comparison) (v : Scalar) :
    (g.addComparison op v).value =
      if op = .eq ∧ v.isNull = false then g.value.or (some v) else g.value := by
  unfold addComparison
  cases hv : v.isNull with
  | true => simp
  | false => cases op <;> simp

theorem value_add_eq (n : String) (g : Facts) (c : Expr) :
    (add n g c).value = g.value.or (c.firm?.toList.lookup n) := by
  have equation (op : Comparison) (f : String) (v : Scalar) :
      (if f = n then g.addComparison op v else g).value =
        g.value.or
        ((if op = .eq ∧ v.isNull = false then some (f, v) else none).toList.lookup n) := by
    by_cases hf : f = n
    · rw [if_pos hf, value_addComparison_eq, hf]
      split <;> simp
    · have hn : (n == f) = false := beq_false_of_ne (Ne.symm hf)
      rw [if_neg hf]
      split <;> simp [List.lookup_cons, hn]
  unfold add
  split
  · rename_i op f v
    rw [firm?_left, equation]
  · rename_i op v f
    have hflip : op.flip = .eq ↔ op = .eq := by cases op <;> simp [Comparison.flip]
    rw [firm?_right, equation]
    simp only [hflip]
  · rename_i f
    split <;> simp [firm?, isNullEquation, binding?]
  · rename_i f
    by_cases hf : f = n
    · simp [hf, firm?, isNullEquation, binding?]
    · have hn : (n == f) = false := beq_false_of_ne (Ne.symm hf)
      simp [hf, firm?, isNullEquation, binding?, List.lookup_cons, hn]
  · rename_i h₁ h₂ h₃ h₄
    have hnone : c.binding? = none := by
      unfold binding?
      split
      · exact absurd rfl (h₁ _ _ _)
      · exact absurd rfl (h₂ _ _ _)
      · exact absurd rfl (h₄ _)
      · rfl
    simp [firm?, hnone]

end Facts

namespace Expr

variable {n : String} {c : Expr} {cs : List Expr}

theorem lookup_filterMap_cons (g : Expr → Option (String × Scalar)) (n : String) (c : Expr)
    (cs : List Expr) :
    ((c :: cs).filterMap g).lookup n = ((g c).toList.lookup n).or ((cs.filterMap g).lookup n) := by
  rw [← List.lookup_append]
  cases hg : g c <;> simp [hg]

theorem firm?_eq_binding? (h : c.isNullEquation = false) : c.firm? = c.binding? := by
  simp [firm?, h]

theorem firm?_eq_none (h : c.isNullEquation) : c.firm? = none := by
  simp [firm?, h]

theorem exists_of_fixes (h : c.fixes n) : ∃ v, c.binding? = some (n, v) := by
  obtain ⟨⟨m, v⟩, hc, hm⟩ := (Option.any_eq_true _ _).1 h
  cases beq_iff_eq.1 hm
  exact ⟨v, hc⟩

theorem lookup_of_not_fixes (h : c.fixes n = false) :
    c.binding?.toList.lookup n = none ∧ c.firm?.toList.lookup n = none := by
  have hb : c.binding?.toList.lookup n = none := by
    cases hc : c.binding? with
    | none => rfl
    | some pair =>
      have hn : n ≠ pair.1 := by
        rintro rfl
        simp [fixes, hc] at h
      simpa using hn
  refine ⟨hb, ?_⟩
  cases he : c.isNullEquation with
  | true => rw [firm?_eq_none he]; rfl
  | false => rw [firm?_eq_binding? he, hb]

theorem isNull_of_isNullEquation {v : Scalar} (h : c.isNullEquation)
    (hc : c.binding? = some (n, v)) : v.isNull := by
  unfold isNullEquation at h
  split at h
  · cases hc
    exact h
  · cases hc
    exact h
  · cases h

theorem lookup_bindings (cs : List Expr) (n : String) :
    (cs.filterMap binding?).lookup n = (cs.find? (fixes n)).bind fun c => c.binding?.map (·.2) := by
  induction cs with
  | nil => rfl
  | cons c cs ih =>
    rw [lookup_filterMap_cons, List.find?_cons]
    cases hc : c.fixes n with
    | true =>
      obtain ⟨v, hv⟩ := exists_of_fixes hc
      simp [hv]
    | false => rw [(lookup_of_not_fixes hc).1, Option.none_or, ih]

theorem lookup_firmBindings (h : ∀ c, cs.find? (fixes n) = some c → c.isNullEquation = false) :
    (cs.filterMap firm?).lookup n = (cs.filterMap binding?).lookup n := by
  induction cs with
  | nil => rfl
  | cons c cs ih =>
    rw [lookup_filterMap_cons, lookup_filterMap_cons]
    rw [List.find?_cons] at h
    cases hc : c.fixes n with
    | true =>
      obtain ⟨v, hv⟩ := exists_of_fixes hc
      rw [firm?_eq_binding? (h c (by rw [hc])), hv]
      simp
    | false =>
      rw [hc] at h
      rw [(lookup_of_not_fixes hc).1, (lookup_of_not_fixes hc).2, ih h]

end Expr

namespace Facts

open TableScan.Expr

theorem value_ofGuarantee (p : Expr) (n : String) :
    (ofGuarantee p n).value = p.firmBindings.lookup n := by
  have run (cs : List Expr) (g : Facts) :
      (cs.foldl (add n) g).value = g.value.or ((cs.filterMap firm?).lookup n) := by
    induction cs generalizing g with
    | nil => simp
    | cons c cs ih => rw [List.foldl_cons, ih, value_add_eq, lookup_filterMap_cons, Option.or_assoc]
  exact run p.conjuncts none_

end Facts

namespace Expr

/--
The value that planning puts in the place of a field is the one that its column is filled with,
unless the conjunct that first fixes the field equates it with a null. Then the column is filled
with nulls, and planning goes by the first of the other conjuncts that fix the field.
-/
theorem boundTo?_eq_value (p : Expr) (n : String) :
    (field n).simplify p = .ok (((Facts.ofGuarantee p n).value.map lit).getD (field n)) ∧
      (∀ (t : ScanTask) (b : Batch) (f : Field) (v : Scalar), t.fragment.partition = p →
        f.name = n →
        p.boundTo? n = some v → t.conformField b f = ScanTask.fill b.rows f v) ∧
      (¬p.NullFirst n → (Facts.ofGuarantee p n).value = p.boundTo? n) ∧
      (p.NullFirst n → (∃ v, p.boundTo? n = some v ∧ v.isNull) ∧
        (Facts.ofGuarantee p n).value = p.firmBindings.lookup n) := by
  refine ⟨rfl, ?_, fun h => ?_, fun ⟨c, hc, he⟩ => ⟨?_, Facts.value_ofGuarantee p n⟩⟩
  · rintro t b f v rfl rfl hv
    unfold ScanTask.conformField ScanTask.fixed?
    rw [hv]
  · rw [Facts.value_ofGuarantee, boundTo?, bindings]
    exact lookup_firmBindings fun c hc => Bool.eq_false_of_not_eq_true fun he => h ⟨c, hc, he⟩
  · obtain ⟨v, hv⟩ := exists_of_fixes (List.find?_some hc)
    refine ⟨v, ?_, isNull_of_isNullEquation he hv⟩
    rw [boundTo?, bindings, lookup_bindings, hc, Option.bind_some, hv]
    rfl

def five : Scalar := .ofFixed (t := .int32) ⟨5, by decide, by decide⟩

def nullThenFive : Expr :=
  .and (.compare .eq (.field "k") (.lit ⟨.int .int32, none⟩))
    (.compare .eq (.field "k") (.lit five))

/-- The filter holds by the second equation, and the column is filled by the first. -/
theorem boundTo?_ne_value : (Facts.ofGuarantee nullThenFive "k").value = some five ∧
    nullThenFive.boundTo? "k" = some ⟨.int .int32, none⟩ ∧
    (compare .eq (field "k") (lit five)).simplify nullThenFive = .ok true_ := ⟨rfl, rfl, rfl⟩

end Expr

end TableScan
