import TableScan.Proofs.Bindings
import TableScan.Proofs.Guarantee

namespace TableScan

namespace Facts

/-- Whether a conjunct fixes the field to a value, or to null. -/
inductive Pins (n : String) : Expr → Prop
  | left {v : Scalar} : v.isNull = false → Pins n (.compare .eq (.field n) (.lit v))
  | right {v : Scalar} : v.isNull = false → Pins n (.compare .eq (.lit v) (.field n))
  | absent : Pins n (.not (.isValid (.field n)))

open TableScan.Expr

variable {n : String} {c : Expr}

theorem pins_iff : Pins n c ↔ ∃ v, c.firm? = some (n, v) := by
  constructor
  · rintro (h | h | _)
    · exact ⟨_, by rw [firm?_left, if_pos ⟨rfl, h⟩]⟩
    · exact ⟨_, by rw [firm?_right, if_pos ⟨rfl, h⟩]⟩
    · exact ⟨_, rfl⟩
  · rintro ⟨v, h⟩
    unfold firm? at h
    split at h
    · cases h
    rename_i he
    unfold binding? at h
    split at h <;> cases h
    · exact .left (Bool.eq_false_of_not_eq_true he)
    · exact .right (Bool.eq_false_of_not_eq_true he)
    · exact .absent

theorem value_ofGuarantee_eq_none {given : Expr} :
    (ofGuarantee given n).value = none ↔ ∀ c ∈ given.conjuncts, ¬Pins n c := by
  rw [value_ofGuarantee, firmBindings, List.lookup_eq_none_iff]
  simp only [pins_iff]
  constructor
  · rintro h c hc ⟨v, hv⟩
    simpa using h (n, v) (List.mem_filterMap.2 ⟨c, hc, hv⟩)
  · rintro h ⟨m, v⟩ hm
    obtain ⟨c, hc, hv⟩ := List.mem_filterMap.1 hm
    refine bne_iff_ne.2 ?_
    rintro rfl
    exact h c hc ⟨v, hv⟩

end Facts

namespace Expr

variable {facts : String → Facts} {a b e s : Expr} {op : Comparison} {set : List Scalar}
  {t : DataType}

def IsLit (e : Expr) : Prop := ∃ v, e = lit v

theorem isLit_of_combineLiterals {f : Option Bool → Option Bool → Option Bool} {v w : Scalar}
    (h : combineLiterals f v w = .ok s) : s.IsLit := by
  obtain ⟨x, -, h⟩ := bind_eq_ok.1 h
  obtain ⟨y, -, h⟩ := bind_eq_ok.1 h
  cases h
  exact ⟨_, rfl⟩

theorem Joined.cases {z : Bool} {g : Option Bool → Option Bool → Option Bool}
    {join : Expr → Expr → Expr} (h : Joined z g join a b s) (hs : a.IsLit → b.IsLit → s.IsLit) :
    s.IsLit ∨ s = a ∨ s = b ∨ s = join a b ∧ ¬(a.IsLit ∧ b.IsLit) := by
  by_cases hlits : a.IsLit ∧ b.IsLit
  · exact .inl (hs hlits.1 hlits.2)
  cases h with
  | absorbed | lits => exact .inl ⟨_, rfl⟩
  | left => exact .inr (.inl rfl)
  | right => exact .inr (.inr (.inl rfl))
  | kept => exact .inr (.inr (.inr ⟨rfl, hlits⟩))

theorem isLit_of_connective {absorbs leaves : Expr → Bool} {z : Bool}
    {g : Option Bool → Option Bool → Option Bool} {join : Expr → Expr → Expr}
    (h : connective absorbs leaves z g join a b = .ok s) (ha : a.IsLit) (hb : b.IsLit) :
    s.IsLit := by
  obtain ⟨v, rfl⟩ := ha
  obtain ⟨w, rfl⟩ := hb
  unfold connective at h
  split at h
  · exact ⟨_, (Except.ok.inj h).symm⟩
  split at h
  · exact ⟨_, (Except.ok.inj h).symm⟩
  split at h
  · exact ⟨_, (Except.ok.inj h).symm⟩
  · exact isLit_of_combineLiterals h

theorem simplifyAnd_cases (h : simplifyAnd a b = .ok s) :
    s.IsLit ∨ s = a ∨ s = b ∨ s = and a b ∧ ¬(a.IsLit ∧ b.IsLit) :=
  (joined_simplifyAnd h).cases (isLit_of_connective (simplifyAnd_eq_connective ▸ h))

theorem simplifyOr_cases (h : simplifyOr a b = .ok s) :
    s.IsLit ∨ s = a ∨ s = b ∨ s = or a b ∧ ¬(a.IsLit ∧ b.IsLit) :=
  (joined_simplifyOr h).cases (isLit_of_connective (simplifyOr_eq_connective ▸ h))

theorem simplifyNot_cases (h : simplifyNot e = .ok s) : s.IsLit ∨ s = not e ∧ ¬e.IsLit := by
  unfold simplifyNot at h
  split at h
  · obtain ⟨t, -, h⟩ := bind_eq_ok.1 h
    cases h
    exact .inl ⟨_, rfl⟩
  · rename_i hne
    cases h
    exact .inr ⟨rfl, fun ⟨v, hv⟩ => hne v hv⟩

theorem simplifyComparison_cases (h : simplifyComparison facts op a b = .ok s) :
    s.IsLit ∨ s = compare op a b ∧ ¬(a.IsLit ∧ b.IsLit) := by
  unfold simplifyComparison at h
  split at h
  · obtain ⟨o, -, h⟩ := bind_eq_ok.1 h
    cases h
    exact .inl ⟨_, rfl⟩
  · split at h <;> cases h
    · exact .inl ⟨_, rfl⟩
    · exact .inr ⟨rfl, fun ⟨⟨v, hv⟩, _⟩ => nomatch hv⟩
  · split at h <;> cases h
    · exact .inl ⟨_, rfl⟩
    · exact .inr ⟨rfl, fun ⟨_, ⟨v, hv⟩⟩ => nomatch hv⟩
  · rename_i hne _ _
    cases h
    exact .inr ⟨rfl, fun ⟨⟨v, hv⟩, ⟨w, hw⟩⟩ => hne v w hv hw⟩

theorem simplifyValid_cases (facts : String → Facts) (e : Expr) :
    (simplifyValid facts e).IsLit ∨ simplifyValid facts e = isValid e ∧ ¬e.IsLit := by
  unfold simplifyValid
  split
  · exact .inl ⟨_, rfl⟩
  · split
    · exact .inl ⟨_, rfl⟩
    · exact .inr ⟨rfl, fun ⟨v, hv⟩ => nomatch hv⟩
  · rename_i hne _
    exact .inr ⟨rfl, fun ⟨v, hv⟩ => hne v hv⟩

theorem simplifyMember_cases (h : simplifyMember facts set e = .ok s) :
    s.IsLit ∨ s = member e set ∧ ¬e.IsLit := by
  unfold simplifyMember at h
  split at h
  · split at h
    · cases h
      exact .inl ⟨_, rfl⟩
    · obtain ⟨r, rfl, -⟩ := literalMember_spec h
      exact .inl ⟨_, rfl⟩
  · dsimp only at h
    split at h
    · cases h
      exact .inl ⟨_, rfl⟩
    · split at h <;> cases h
      · exact .inl ⟨_, rfl⟩
      · exact .inr ⟨rfl, fun ⟨v, hv⟩ => nomatch hv⟩
  · rename_i hne _
    cases h
    exact .inr ⟨rfl, fun ⟨v, hv⟩ => hne v hv⟩

theorem simplifyCast_cases (h : simplifyCast t e = .ok s) : s.IsLit ∨ s = cast e t ∧ ¬e.IsLit := by
  unfold simplifyCast at h
  split at h
  · obtain ⟨w, -, h⟩ := bind_eq_ok.1 h
    cases h
    exact .inl ⟨_, rfl⟩
  · rename_i hne
    cases h
    exact .inr ⟨rfl, fun ⟨v, hv⟩ => hne v hv⟩

def Settled (facts : String → Facts) (e : Expr) : Prop := e.simplifyWith facts = .ok e

namespace Settled

theorem of_isLit (h : s.IsLit) : s.Settled facts := by
  obtain ⟨v, rfl⟩ := h
  rfl

theorem field {n : String} {e : Expr} (h : e = ((facts n).value.map lit).getD (Expr.field n)) :
    e.Settled facts := by
  subst h
  cases h : (facts n).value with
  | none => simp [Settled, simplifyWith, h]
  | some v => exact of_isLit ⟨v, rfl⟩

theorem of_and (ha : a.Settled facts) (hb : b.Settled facts) (h : simplifyAnd a b = .ok s) :
    s.Settled facts := by
  obtain hs | rfl | rfl | ⟨rfl, -⟩ := simplifyAnd_cases h
  · exact of_isLit hs
  · exact ha
  · exact hb
  · exact bind_eq_ok.2 ⟨a, ha, bind_eq_ok.2 ⟨b, hb, h⟩⟩

theorem of_or (ha : a.Settled facts) (hb : b.Settled facts) (h : simplifyOr a b = .ok s) :
    s.Settled facts := by
  obtain hs | rfl | rfl | ⟨rfl, -⟩ := simplifyOr_cases h
  · exact of_isLit hs
  · exact ha
  · exact hb
  · exact bind_eq_ok.2 ⟨a, ha, bind_eq_ok.2 ⟨b, hb, h⟩⟩

theorem of_not (he : e.Settled facts) (h : simplifyNot e = .ok s) : s.Settled facts := by
  obtain hs | ⟨rfl, -⟩ := simplifyNot_cases h
  · exact of_isLit hs
  · exact bind_eq_ok.2 ⟨e, he, h⟩

theorem of_compare (ha : a.Settled facts) (hb : b.Settled facts)
    (h : simplifyComparison facts op a b = .ok s) : s.Settled facts := by
  obtain hs | ⟨rfl, -⟩ := simplifyComparison_cases h
  · exact of_isLit hs
  · exact bind_eq_ok.2 ⟨a, ha, bind_eq_ok.2 ⟨b, hb, h⟩⟩

theorem of_isValid (he : e.Settled facts) : (simplifyValid facts e).Settled facts := by
  obtain hs | ⟨hs, -⟩ := simplifyValid_cases facts e
  · exact of_isLit hs
  · rw [hs]
    exact bind_eq_ok.2 ⟨e, he, congrArg Except.ok hs⟩

theorem of_member (hset : set ≠ []) (he : e.Settled facts)
    (h : simplifyMember facts set e = .ok s) :
    s.Settled facts := by
  obtain hs | ⟨rfl, -⟩ := simplifyMember_cases h
  · exact of_isLit hs
  · rw [Settled, simplifyWith, if_neg hset]
    exact bind_eq_ok.2 ⟨e, he, h⟩

theorem of_cast (he : e.Settled facts) (h : simplifyCast t e = .ok s) : s.Settled facts := by
  obtain hs | ⟨rfl, -⟩ := simplifyCast_cases h
  · exact of_isLit hs
  · exact bind_eq_ok.2 ⟨e, he, h⟩

end Settled

theorem settled_of_simplifyWith (h : e.simplifyWith facts = .ok s) : s.Settled facts := by
  induction e generalizing s with
  | field n => exact .field (Except.ok.inj h).symm
  | lit v => exact .of_isLit ⟨v, (Except.ok.inj h).symm⟩
  | compare op a b iha ihb =>
    obtain ⟨a', ha, h⟩ := bind_eq_ok.1 h
    obtain ⟨b', hb, h⟩ := bind_eq_ok.1 h
    exact (iha ha).of_compare (ihb hb) h
  | and a b iha ihb =>
    obtain ⟨a', ha, h⟩ := bind_eq_ok.1 h
    obtain ⟨b', hb, h⟩ := bind_eq_ok.1 h
    exact (iha ha).of_and (ihb hb) h
  | or a b iha ihb =>
    obtain ⟨a', ha, h⟩ := bind_eq_ok.1 h
    obtain ⟨b', hb, h⟩ := bind_eq_ok.1 h
    exact (iha ha).of_or (ihb hb) h
  | not e ih =>
    obtain ⟨e', he, h⟩ := bind_eq_ok.1 h
    exact (ih he).of_not h
  | isValid e ih =>
    obtain ⟨e', he, h⟩ := bind_eq_ok.1 h
    cases h
    exact (ih he).of_isValid
  | member e set ih =>
    rw [simplifyWith] at h
    split at h
    · exact .of_isLit ⟨_, (Except.ok.inj h).symm⟩
    · rename_i hset
      obtain ⟨e', he, h⟩ := bind_eq_ok.1 h
      exact (ih he).of_member hset h
  | cast e t ih =>
    obtain ⟨e', he, h⟩ := bind_eq_ok.1 h
    exact (ih he).of_cast h

/--
Simplification is idempotent: its result is left as it is. It mentions only fields of the
expression, and none that a conjunct of the guarantee pins.
-/
theorem simplify_idem {given : Expr} (h : e.simplify given = .ok s) :
    s.simplify given = .ok s ∧ ∀ n ∈ s.fields, n ∈ e.fields ∧
    ∀ c ∈ given.conjuncts, ¬Facts.Pins n c := by
  refine ⟨settled_of_simplifyWith h, fun n hn => ?_⟩
  obtain ⟨he, hv⟩ := (simplified_of_ok h).fields_subset hn
  exact ⟨he, Facts.value_ofGuarantee_eq_none.1 hv⟩

def under (n : String) (i : Fixed .int64) : Expr := compare .lt (field n) (lit (.ofFixed i))

theorem simplify_idem_keyed :
    let given := all [compare .eq (field "k") (lit (.ofFixed seven)),
      compare .ge (field "x") (lit (.ofFixed zero)),
      not (isValid (field "y"))]
    let filter := and (compare .eq (field "k") (lit (.ofFixed seven))) (under "x" seven)
    filter.simplify given = .ok (under "x" seven) ∧
      (under "x" seven).simplify given = .ok (under "x" seven) ∧
      ∀ n ∈ (under "x" seven).fields, n ∈ filter.fields ∧ ∀ c ∈ given.conjuncts, ¬Facts.Pins n c :=
  ⟨by rfl, simplify_idem (by rfl)⟩

theorem isLit_of_simplifyWith (h : e.simplifyWith facts = .ok s) (hs : ∀ n, n ∉ s.fields) :
    s.IsLit := by
  induction e generalizing s with
  | field n =>
    cases hv : (facts n).value with
    | none =>
      obtain rfl : field n = s := by simpa [simplifyWith, hv] using h
      exact absurd (mem_fields_field.2 rfl) (hs n)
    | some v => exact ⟨v, by simpa [simplifyWith, hv] using h.symm⟩
  | lit v => exact ⟨v, (Except.ok.inj h).symm⟩
  | compare op a b iha ihb =>
    obtain ⟨a', ha, h⟩ := bind_eq_ok.1 h
    obtain ⟨b', hb, h⟩ := bind_eq_ok.1 h
    obtain hl | ⟨rfl, hne⟩ := simplifyComparison_cases h
    · exact hl
    · simp only [mem_fields_compare, not_or] at hs
      exact absurd ⟨iha ha fun n => (hs n).1, ihb hb fun n => (hs n).2⟩ hne
  | and a b iha ihb =>
    obtain ⟨a', ha, h⟩ := bind_eq_ok.1 h
    obtain ⟨b', hb, h⟩ := bind_eq_ok.1 h
    obtain hl | rfl | rfl | ⟨rfl, hne⟩ := simplifyAnd_cases h
    · exact hl
    · exact iha ha hs
    · exact ihb hb hs
    · simp only [mem_fields_and, not_or] at hs
      exact absurd ⟨iha ha fun n => (hs n).1, ihb hb fun n => (hs n).2⟩ hne
  | or a b iha ihb =>
    obtain ⟨a', ha, h⟩ := bind_eq_ok.1 h
    obtain ⟨b', hb, h⟩ := bind_eq_ok.1 h
    obtain hl | rfl | rfl | ⟨rfl, hne⟩ := simplifyOr_cases h
    · exact hl
    · exact iha ha hs
    · exact ihb hb hs
    · simp only [mem_fields_or, not_or] at hs
      exact absurd ⟨iha ha fun n => (hs n).1, ihb hb fun n => (hs n).2⟩ hne
  | not e ih =>
    obtain ⟨e', he, h⟩ := bind_eq_ok.1 h
    obtain hl | ⟨rfl, hne⟩ := simplifyNot_cases h
    · exact hl
    · exact absurd (ih he hs) hne
  | isValid e ih =>
    obtain ⟨e', he, h⟩ := bind_eq_ok.1 h
    cases h
    obtain hl | ⟨hv, hne⟩ := simplifyValid_cases facts e'
    · exact hl
    · rw [hv] at hs
      exact absurd (ih he hs) hne
  | member e set ih =>
    rw [simplifyWith] at h
    split at h
    · exact ⟨_, (Except.ok.inj h).symm⟩
    · obtain ⟨e', he, h⟩ := bind_eq_ok.1 h
      obtain hl | ⟨rfl, hne⟩ := simplifyMember_cases h
      · exact hl
      · exact absurd (ih he hs) hne
  | cast e t ih =>
    obtain ⟨e', he, h⟩ := bind_eq_ok.1 h
    obtain hl | ⟨rfl, hne⟩ := simplifyCast_cases h
    · exact hl
    · exact absurd (ih he hs) hne

end Expr

end TableScan
