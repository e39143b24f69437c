import TableScan.Expr.Typing
import TableScan.Proofs.Planning

namespace TableScan

namespace DataType

/-- Types of what may take the place of something of a type: the same, a single value, or nulls of
no type. -/
def StandsFor (t' t : DataType) : Prop := t' = t ∨ t' = t.plain ∨ t' = .null

theorem StandsFor.refl (t : DataType) : t.StandsFor t := .inl rfl

theorem StandsFor.plain {t t' : DataType} (h : t'.StandsFor t) :
    t'.plain = t.plain ∨ t'.plain = .null := by
  obtain rfl | rfl | rfl := h
  · exact .inl rfl
  · exact .inl (t.plain_plain)
  · exact .inr rfl

theorem StandsFor.isTruthType {t t' : DataType} (h : t'.StandsFor t) (ht : Expr.isTruthType t) :
    Expr.isTruthType t' := by
  simp only [Expr.isTruthType, Bool.or_eq_true, decide_eq_true_eq] at ht ⊢
  obtain rfl | rfl := ht <;> obtain rfl | rfl | rfl := h <;> simp [DataType.plain]

theorem StandsFor.boolean {t t' : DataType} (h : t'.StandsFor t) (ht : Expr.isTruthType t) :
    t'.StandsFor .boolean := by
  have h' := h.isTruthType ht
  simp only [Expr.isTruthType, Bool.or_eq_true, decide_eq_true_eq] at h'
  exact h'.imp_right .inr

end DataType

theorem isSome_comparisonType {l r l' r' : DataType} (hl : l'.plain = l.plain ∨ l'.plain = .null)
    (hr : r'.plain = r.plain ∨ r'.plain = .null) (h : (comparisonType l r).isSome) :
    (comparisonType l' r').isSome := by
  unfold comparisonType at h ⊢
  rcases hl with hl | hl <;> rcases hr with hr | hr <;> rw [hl, hr]
  · exact h
  · by_cases hn : l.plain = .null <;> simp [hn]
  · by_cases hn : DataType.null = r.plain <;> simp [hn]
  · simp

namespace Scalar

theorem compare_of_comparisonType {v w : Scalar}
    (h : (comparisonType v.dataType w.dataType).isSome) :
    ∃ o, v.compare w = .ok o := by
  obtain ⟨p, v⟩ := v
  obtain ⟨q, w⟩ := w
  unfold compare
  rw [Option.isSome_iff_ne_none] at h
  rw [if_neg (by simpa using h)]
  cases v with
  | none => exact ⟨none, by rw [Operand.magnitude?_none]⟩
  | some v =>
    cases w with
    | none => exact ⟨none, by rw [Operand.magnitude?_none]; cases magnitude? ⟨p, some v⟩ <;> rfl⟩
    | some w =>
      obtain ⟨m, n, o, hm, hn, ho⟩ :=
        Value.comparable_of_comparisonType (a := v) (b := w) (Option.isSome_iff_ne_none.2 h)
      have hm' : magnitude? ⟨p, some v⟩ = some m := hm
      have hn' : magnitude? ⟨q, some w⟩ = some n := hn
      exact ⟨some o, by simp only [hm', hn', ho]⟩

theorem truth_of_isTruthType {v : Scalar} (h : Expr.isTruthType v.dataType) :
    ∃ t, v.truth = .ok t := by
  obtain ⟨type, value⟩ := v
  cases type with
  | null => exact ⟨none, rfl⟩
  | boolean => exact ⟨value, rfl⟩
  | _ => simp [Expr.isTruthType, dataType] at h

end Scalar

namespace Expr

def casts : Expr → List (Expr × DataType)
  | field _ | lit _ => []
  | compare _ a b | and a b | or a b => a.casts ++ b.casts
  | not e | isValid e | member e _ => e.casts
  | cast e t => e.casts ++ [(e, t)]

theorem mem_casts_cast (e : Expr) (t : DataType) : (e, t) ∈ (cast e t).casts :=
  List.mem_append_right _ (List.mem_singleton.2 rfl)

/-- The types of expressions over a schema in which casts are such as are permitted. -/
inductive HasType (permitted : DataType → DataType → Prop) (σ : Schema) : Expr → DataType → Prop
  | field {name : String} {f : Field} :
      σ.field? name = some f → HasType permitted σ (field name) f.type
  | lit (v : Scalar) : HasType permitted σ (lit v) v.dataType
  | compare {op : Comparison} {a b : Expr} {l r : DataType} : HasType permitted σ a l →
      HasType permitted σ b r → (comparisonType l r).isSome →
      HasType permitted σ (compare op a b) .boolean
  | and {a b : Expr} {l r : DataType} :
      HasType permitted σ a l → HasType permitted σ b r → isTruthType l →
      isTruthType r → HasType permitted σ (and a b) .boolean
  | or {a b : Expr} {l r : DataType} :
      HasType permitted σ a l → HasType permitted σ b r → isTruthType l →
      isTruthType r → HasType permitted σ (or a b) .boolean
  | not {e : Expr} {t : DataType} : HasType permitted σ e t → isTruthType t →
      HasType permitted σ (not e) .boolean
  | member {e : Expr} {t : DataType} {set : List Scalar} : HasType permitted σ e t →
      (∀ v ∈ set, (comparisonType t v.dataType).isSome) →
      HasType permitted σ (member e set) .boolean
  | isValid {e : Expr} {t : DataType} :
      HasType permitted σ e t → HasType permitted σ (isValid e) .boolean
  | cast {e : Expr} {t t' : DataType} : HasType permitted σ e t → permitted t t' →
      HasType permitted σ (cast e t') t'

variable {permitted permitted' : DataType → DataType → Prop} {σ : Schema} {e s u : Expr}
  {t : DataType}

theorem HasType.mono (h : HasType permitted σ e t)
    (hp : ∀ c ∈ e.casts, ∀ l, permitted l c.2 → permitted' l c.2) : HasType permitted' σ e t := by
  induction h with
  | field hf => exact .field hf
  | lit v => exact .lit v
  | compare _ _ hc iha ihb =>
    rw [casts, List.forall_mem_append] at hp
    exact .compare (iha hp.1) (ihb hp.2) hc
  | and _ _ hl hr iha ihb =>
    rw [casts, List.forall_mem_append] at hp
    exact .and (iha hp.1) (ihb hp.2) hl hr
  | or _ _ hl hr iha ihb =>
    rw [casts, List.forall_mem_append] at hp
    exact .or (iha hp.1) (ihb hp.2) hl hr
  | not _ ht ih => exact .not (ih hp) ht
  | member _ hset ih => exact .member (ih hp) hset
  | isValid _ ih => exact .isValid (ih hp)
  | @cast e t t' _ ht ih =>
    rw [casts, List.forall_mem_append] at hp
    exact .cast (ih hp.1) (hp.2 (e, t') (List.mem_singleton.2 rfl) t ht)

theorem expectTruth_eq_ok {v : Unit} : expectTruth e t = .ok v ↔ isTruthType t := by
  unfold expectTruth
  split <;> simp_all

theorem checkSet_eq_ok {set : List Scalar} {u : Unit} :
    checkSet e t set = .ok u ↔ ∀ v ∈ set, (comparisonType t v.dataType).isSome := by
  induction set with
  | nil => simp [checkSet]
  | cons v set ih =>
    rw [checkSet, List.forall_mem_cons, ← ih]
    cases comparisonType t v.dataType <;> simp

theorem hasType_of_typeIn (h : e.typeIn σ = .ok t) : HasType (fun t t' => castable t t') σ e t := by
  induction e generalizing t with
  | field name =>
    unfold typeIn at h
    split at h
    · rename_i f hf
      cases h
      exact .field hf
    · cases h
  | lit v =>
    cases h
    exact .lit v
  | compare op a b iha ihb =>
    obtain ⟨l, hl, h⟩ := bind_eq_ok.1 h
    obtain ⟨r, hr, h⟩ := bind_eq_ok.1 h
    cases hc : comparisonType l r with
    | none => simp [hc, throw, throwThe, MonadExceptOf.throw, bind, Except.bind] at h
    | some p =>
      simp only [hc, Option.isNone_some] at h
      cases h
      exact .compare (iha hl) (ihb hr) (by rw [hc]; rfl)
  | and a b iha ihb =>
    obtain ⟨l, hl, h⟩ := bind_eq_ok.1 h
    obtain ⟨_, hl', h⟩ := bind_eq_ok.1 h
    obtain ⟨r, hr, h⟩ := bind_eq_ok.1 h
    obtain ⟨_, hr', h⟩ := bind_eq_ok.1 h
    cases h
    exact .and (iha hl) (ihb hr) (expectTruth_eq_ok.1 hl') (expectTruth_eq_ok.1 hr')
  | or a b iha ihb =>
    obtain ⟨l, hl, h⟩ := bind_eq_ok.1 h
    obtain ⟨_, hl', h⟩ := bind_eq_ok.1 h
    obtain ⟨r, hr, h⟩ := bind_eq_ok.1 h
    obtain ⟨_, hr', h⟩ := bind_eq_ok.1 h
    cases h
    exact .or (iha hl) (ihb hr) (expectTruth_eq_ok.1 hl') (expectTruth_eq_ok.1 hr')
  | not e ih =>
    obtain ⟨l, hl, h⟩ := bind_eq_ok.1 h
    obtain ⟨_, hl', h⟩ := bind_eq_ok.1 h
    cases h
    exact .not (ih hl) (expectTruth_eq_ok.1 hl')
  | member e set ih =>
    obtain ⟨l, hl, h⟩ := bind_eq_ok.1 h
    obtain ⟨_, hset, h⟩ := bind_eq_ok.1 h
    cases h
    exact .member (ih hl) (checkSet_eq_ok.1 hset)
  | isValid e ih =>
    obtain ⟨l, hl, h⟩ := bind_eq_ok.1 h
    cases h
    exact .isValid (ih hl)
  | cast e t' ih =>
    obtain ⟨l, hl, h⟩ := bind_eq_ok.1 h
    cases hc : castable l t' with
    | false => simp [hc, throw, throwThe, MonadExceptOf.throw, bind, Except.bind] at h
    | true =>
      simp only [hc, Bool.not_true] at h
      cases h
      exact .cast (ih hl) hc

theorem HasType.typeIn (h : HasType (fun t t' => castable t t') σ e t) : e.typeIn σ = .ok t := by
  induction h with
  | field hf => simp only [Expr.typeIn, hf]
  | lit v => rfl
  | compare _ _ hc iha ihb =>
    refine bind_eq_ok.2 ⟨_, iha, bind_eq_ok.2 ⟨_, ihb, ?_⟩⟩
    rw [if_neg (by simpa [Option.isSome_iff_ne_none] using hc)]
    rfl
  | and _ _ hl hr iha ihb | or _ _ hl hr iha ihb =>
    exact bind_eq_ok.2 ⟨_, iha, bind_eq_ok.2 ⟨(), expectTruth_eq_ok.2 hl,
      bind_eq_ok.2 ⟨_, ihb, bind_eq_ok.2 ⟨(), expectTruth_eq_ok.2 hr, rfl⟩⟩⟩⟩
  | not _ ht ih => exact bind_eq_ok.2 ⟨_, ih, bind_eq_ok.2 ⟨(), expectTruth_eq_ok.2 ht, rfl⟩⟩
  | member _ hset ih => exact bind_eq_ok.2 ⟨_, ih, bind_eq_ok.2 ⟨(), checkSet_eq_ok.2 hset, rfl⟩⟩
  | isValid _ ih => exact bind_eq_ok.2 ⟨_, ih, rfl⟩
  | cast _ ht ih =>
    refine bind_eq_ok.2 ⟨_, ih, ?_⟩
    rw [if_neg (by simpa using ht)]
    rfl

theorem typeIn_eq_ok : e.typeIn σ = .ok t ↔ HasType (fun t t' => castable t t') σ e t :=
  ⟨hasType_of_typeIn, HasType.typeIn⟩

/-- Whether the values that facts give to fields may take the place of the fields of a schema. -/
def Admits (σ : Schema) (facts : String → Facts) : Prop :=
  ∀ n f v, σ.field? n = some f → (facts n).value = some v → v.dataType.StandsFor f.type

variable {facts : String → Facts} {f : Failure}

theorem hasType_ofTruth (b : Option Bool) : HasType permitted σ (.lit (.ofTruth b)) .boolean :=
  .lit (.ofTruth b)

theorem Simplified.hasType (h : Simplified facts e s) (ht : HasType permitted σ e t)
    (hf : Admits σ facts) (hp : ∀ l l' t, permitted l t → l'.StandsFor l → permitted l' t) :
    ∃ t', HasType permitted σ s t' ∧ t'.StandsFor t := by
  induction h generalizing t with
  | known hv =>
    cases ht with
    | field hn => exact ⟨_, .lit _, hf _ _ _ hn hv⟩
  | field _ => exact ⟨t, ht, .refl t⟩
  | lit => exact ⟨t, ht, .refl t⟩
  | compare _ _ iha ihb =>
    cases ht with
    | compare ha hb hc =>
      obtain ⟨l, ha, hl⟩ := iha ha
      obtain ⟨r, hb, hr⟩ := ihb hb
      exact ⟨.boolean, .compare ha hb (isSome_comparisonType hl.plain hr.plain hc), .refl _⟩
  | compared | decided | decidedFlip =>
    cases ht
    exact ⟨.boolean, hasType_ofTruth _, .refl _⟩
  | and _ _ iha ihb =>
    cases ht with
    | and ha hb hl hr =>
      obtain ⟨l, ha, hl'⟩ := iha ha
      obtain ⟨r, hb, hr'⟩ := ihb hb
      exact ⟨.boolean, .and ha hb (hl'.isTruthType hl) (hr'.isTruthType hr), .refl _⟩
  | or _ _ iha ihb =>
    cases ht with
    | or ha hb hl hr =>
      obtain ⟨l, ha, hl'⟩ := iha ha
      obtain ⟨r, hb, hr'⟩ := ihb hb
      exact ⟨.boolean, .or ha hb (hl'.isTruthType hl) (hr'.isTruthType hr), .refl _⟩
  | andTrueLeft _ _ _ ih =>
    cases ht with
    | and _ hb _ hr =>
      obtain ⟨r, hb, hr'⟩ := ih hb
      exact ⟨r, hb, hr'.boolean hr⟩
  | andTrueRight _ _ ih =>
    cases ht with
    | and ha _ hl _ =>
      obtain ⟨l, ha, hl'⟩ := ih ha
      exact ⟨l, ha, hl'.boolean hl⟩
  | orFalseLeft _ _ _ ih =>
    cases ht with
    | or _ hb _ hr =>
      obtain ⟨r, hb, hr'⟩ := ih hb
      exact ⟨r, hb, hr'.boolean hr⟩
  | orFalseRight _ _ ih =>
    cases ht with
    | or ha _ hl _ =>
      obtain ⟨l, ha, hl'⟩ := ih ha
      exact ⟨l, ha, hl'.boolean hl⟩
  | andFalse | andLits | orTrue | orLits | notLit | validLit | validKnown | memberEmpty |
    memberNull | memberFound | memberMissed =>
    cases ht
    exact ⟨.boolean, hasType_ofTruth _, .refl _⟩
  | not _ ih =>
    cases ht with
    | not he ht =>
      obtain ⟨t', he, ht'⟩ := ih he
      exact ⟨.boolean, .not he (ht'.isTruthType ht), .refl _⟩
  | isValid _ ih =>
    cases ht with
    | isValid he =>
      obtain ⟨t', he, -⟩ := ih he
      exact ⟨.boolean, .isValid he, .refl _⟩
  | member _ ih =>
    cases ht with
    | member he hset =>
      obtain ⟨t', he, ht'⟩ := ih he
      exact ⟨.boolean, .member he fun v hv =>
        isSome_comparisonType ht'.plain (.inl rfl) (hset v hv), .refl _⟩
  | memberLit _ _ hu =>
    cases ht
    obtain ⟨r, rfl, -⟩ := literalMember_spec hu
    exact ⟨.boolean, hasType_ofTruth r, .refl _⟩
  | cast _ ih =>
    cases ht with
    | cast he ht =>
      obtain ⟨t', he, ht'⟩ := ih he
      exact ⟨_, .cast he (hp _ _ _ ht ht'), .refl _⟩
  | castLit _ hw =>
    cases ht
    exact ⟨_, .lit _, .inr (.inl (Scalar.dataType_castTo hw))⟩

/-- The failure of a cast, in an expression that is simplified, of a value that is found. -/
inductive CastFails (facts : String → Facts) (e : Expr) : Failure → Prop
  | intro {x : Expr} {t : DataType} {v : Scalar} {f : Failure} : (x, t) ∈ e.casts →
      x.simplifyWith facts = .ok (lit v) → v.castTo t = .error f → CastFails facts e f

theorem CastFails.mono (h : CastFails facts e f) (hs : ∀ c ∈ e.casts, c ∈ s.casts) :
    CastFails facts s f := by
  cases h with
  | intro hc hv hf => exact .intro (hs _ hc) hv hf

theorem simplifyComparison_of_types {op : Comparison} {a b : Expr}
    (h : ∀ v w, a = lit v → b = lit w → (comparisonType v.dataType w.dataType).isSome) :
    ∃ u, simplifyComparison facts op a b = .ok u := by
  unfold simplifyComparison
  split
  · rename_i v w
    obtain ⟨o, ho⟩ := Scalar.compare_of_comparisonType (h v w rfl rfl)
    exact ⟨_, bind_eq_ok.2 ⟨o, by rw [ho]; rfl, rfl⟩⟩
  · split <;> exact ⟨_, rfl⟩
  · split <;> exact ⟨_, rfl⟩
  · exact ⟨_, rfl⟩

theorem combineLiterals_of_types {g : Option Bool → Option Bool → Option Bool} {v w : Scalar}
    (hv : isTruthType v.dataType) (hw : isTruthType w.dataType) :
    ∃ u, combineLiterals g v w = .ok u := by
  obtain ⟨x, hx⟩ := Scalar.truth_of_isTruthType hv
  obtain ⟨y, hy⟩ := Scalar.truth_of_isTruthType hw
  exact ⟨_, bind_eq_ok.2 ⟨x, by rw [hx]; rfl, bind_eq_ok.2 ⟨y, by rw [hy]; rfl, rfl⟩⟩⟩

theorem connective_of_types {absorbs leaves : Expr → Bool} {z : Bool}
    {g : Option Bool → Option Bool → Option Bool} {join : Expr → Expr → Expr} {a b : Expr}
    (ha : ∀ v, a = lit v → isTruthType v.dataType) (hb : ∀ v, b = lit v → isTruthType v.dataType) :
    ∃ u, connective absorbs leaves z g join a b = .ok u := by
  unfold connective
  split
  · exact ⟨_, rfl⟩
  split
  · exact ⟨_, rfl⟩
  split
  · exact ⟨_, rfl⟩
  split
  · exact combineLiterals_of_types (ha _ rfl) (hb _ rfl)
  · exact ⟨_, rfl⟩

theorem simplifyNot_of_types {a : Expr} (ha : ∀ v, a = lit v → isTruthType v.dataType) :
    ∃ u, simplifyNot a = .ok u := by
  unfold simplifyNot
  split
  · obtain ⟨x, hx⟩ := Scalar.truth_of_isTruthType (ha _ rfl)
    exact ⟨_, bind_eq_ok.2 ⟨x, by rw [hx]; rfl, rfl⟩⟩
  · exact ⟨_, rfl⟩

theorem literalMember_of_types {v : Scalar} {set : List Scalar} {sawNull : Bool}
    (h : ∀ w ∈ set, (comparisonType v.dataType w.dataType).isSome) :
    ∃ u, literalMember v set sawNull = .ok u := by
  induction set generalizing sawNull with
  | nil => exact ⟨_, rfl⟩
  | cons w set ih =>
    rw [List.forall_mem_cons] at h
    obtain ⟨o, ho⟩ := Scalar.compare_of_comparisonType h.1
    unfold literalMember
    rw [ho]
    rcases o with _ | (_ | _ | _)
    · exact ih h.2
    · exact ih h.2
    · exact ⟨_, rfl⟩
    · exact ih h.2

theorem simplifyMember_of_types {a : Expr} {set : List Scalar}
    (ha : ∀ v, a = lit v → ∀ w ∈ set, (comparisonType v.dataType w.dataType).isSome) :
    ∃ u, simplifyMember facts set a = .ok u := by
  unfold simplifyMember
  split
  · split
    · exact ⟨_, rfl⟩
    · exact literalMember_of_types (ha _ rfl)
  · dsimp only
    split
    · exact ⟨_, rfl⟩
    · split <;> exact ⟨_, rfl⟩
  · exact ⟨_, rfl⟩

/--
Whether the literals that simplification leaves of the parts of an expression go together: what is
compared has types that compare, and what is connected is a truth value.
-/
def LiteralsFit (facts : String → Facts) : Expr → Prop
  | field _ | lit _ => True
  | compare _ a b => a.LiteralsFit facts ∧ b.LiteralsFit facts ∧
      ∀ v w, a.simplifyWith facts = .ok (lit v) →
      b.simplifyWith facts = .ok (lit w) → (comparisonType v.dataType w.dataType).isSome
  | and a b | or a b => a.LiteralsFit facts ∧ b.LiteralsFit facts ∧
      (∀ v, a.simplifyWith facts = .ok (lit v) → isTruthType v.dataType) ∧
      ∀ v, b.simplifyWith facts = .ok (lit v) → isTruthType v.dataType
  | not e => e.LiteralsFit facts ∧ ∀ v, e.simplifyWith facts = .ok (lit v) → isTruthType v.dataType
  | member e set => set ≠ [] → e.LiteralsFit facts ∧ ∀ v, e.simplifyWith facts = .ok (lit v) →
      ∀ w ∈ set, (comparisonType v.dataType w.dataType).isSome
  | isValid e | cast e _ => e.LiteralsFit facts

theorem LiteralsFit.castFails (hl : e.LiteralsFit facts) (h : e.simplifyWith facts = .error f) :
    CastFails facts e f := by
  induction e generalizing f with
  | field | lit => cases h
  | compare op a b iha ihb =>
    obtain ⟨ha, hb, hlits⟩ := hl
    rcases bind_eq_error.1 h with h | ⟨a', ha', h⟩
    · exact (iha ha h).mono fun c => List.mem_append_left _
    rcases bind_eq_error.1 h with h | ⟨b', hb', h⟩
    · exact (ihb hb h).mono fun c => List.mem_append_right _
    obtain ⟨u, hu⟩ := simplifyComparison_of_types fun v w hv hw => hlits v w (hv ▸ ha') (hw ▸ hb')
    cases hu.symm.trans h
  | and a b iha ihb =>
    obtain ⟨ha, hb, hv, hw⟩ := hl
    rcases bind_eq_error.1 h with h | ⟨a', ha', h⟩
    · exact (iha ha h).mono fun c => List.mem_append_left _
    rcases bind_eq_error.1 h with h | ⟨b', hb', h⟩
    · exact (ihb hb h).mono fun c => List.mem_append_right _
    obtain ⟨u, hu⟩ := connective_of_types (fun v he => hv v (he ▸ ha')) fun w he => hw w (he ▸ hb')
    cases hu.symm.trans (simplifyAnd_eq_connective ▸ h)
  | or a b iha ihb =>
    obtain ⟨ha, hb, hv, hw⟩ := hl
    rcases bind_eq_error.1 h with h | ⟨a', ha', h⟩
    · exact (iha ha h).mono fun c => List.mem_append_left _
    rcases bind_eq_error.1 h with h | ⟨b', hb', h⟩
    · exact (ihb hb h).mono fun c => List.mem_append_right _
    obtain ⟨u, hu⟩ := connective_of_types (fun v he => hv v (he ▸ ha')) fun w he => hw w (he ▸ hb')
    cases hu.symm.trans (simplifyOr_eq_connective ▸ h)
  | not e ih =>
    obtain ⟨he, hv⟩ := hl
    rcases bind_eq_error.1 h with h | ⟨e', he', h⟩
    · exact (ih he h).mono fun c => id
    obtain ⟨u, hu⟩ := simplifyNot_of_types fun v heq => hv v (heq ▸ he')
    cases hu.symm.trans h
  | member e set ih =>
    unfold simplifyWith at h
    split at h
    · cases h
    rename_i hset
    obtain ⟨he, hlits⟩ := hl hset
    rcases bind_eq_error.1 h with h | ⟨e', he', h⟩
    · exact (ih he h).mono fun c => id
    obtain ⟨u, hu⟩ := simplifyMember_of_types fun v heq => hlits v (heq ▸ he')
    cases hu.symm.trans h
  | isValid e ih =>
    rcases bind_eq_error.1 h with h | ⟨e', -, h⟩
    · exact (ih hl h).mono fun c => id
    · cases h
  | cast e t ih =>
    rcases bind_eq_error.1 h with h | ⟨e', he', h⟩
    · exact (ih hl h).mono fun c => List.mem_append_left _
    unfold simplifyCast at h
    split at h
    · rcases bind_eq_error.1 h with h | ⟨w, -, h⟩
      · exact .intro (mem_casts_cast _ _) he' h
      · cases h
    · cases h

theorem HasType.literalsFit (ht : HasType permitted σ e t) (hf : Admits σ facts)
    (hp : ∀ l l' t, permitted l t → l'.StandsFor l → permitted l' t) : e.LiteralsFit facts := by
  -- the type of a literal that is left of a part
  have left {a : Expr} {l : DataType} (ha : HasType permitted σ a l) (v : Scalar)
      (hv : a.simplifyWith facts = .ok (Expr.lit v)) : v.dataType.StandsFor l := by
    obtain ⟨l', hl, hs⟩ := (simplified_of_ok hv).hasType ha hf hp
    cases hl
    exact hs
  induction ht with
  | field | lit => trivial
  | compare ha hb hc iha ihb =>
    exact ⟨iha, ihb, fun v w hv hw =>
      isSome_comparisonType (left ha v hv).plain (left hb w hw).plain hc⟩
  | and ha hb hl hr iha ihb | or ha hb hl hr iha ihb =>
    exact ⟨iha, ihb, fun v hv => (left ha v hv).isTruthType hl,
      fun w hw => (left hb w hw).isTruthType hr⟩
  | not he ht ih => exact ⟨ih, fun v hv => (left he v hv).isTruthType ht⟩
  | member he hset ih =>
    exact fun _ =>
      ⟨ih, fun v hv w hw => isSome_comparisonType (left he v hv).plain (.inl rfl) (hset w hw)⟩
  | isValid _ ih | cast _ _ ih => exact ih

theorem HasType.castFails (ht : HasType permitted σ e t) (hf : Admits σ facts)
    (hp : ∀ l l' t, permitted l t → l'.StandsFor l → permitted l' t)
    (h : e.simplifyWith facts = .error f) : CastFails facts e f :=
  (ht.literalsFit hf hp).castFails h

end Expr

theorem Scan.typeIn_build {d : Dataset} {r : ScanRequest} {s : Scan} (h : build d r = .ok s) :
    ∃ t, r.filter.typeIn d.schema = .ok t ∧ Expr.isTruthType t := by
  obtain ⟨_, -, h⟩ := bind_eq_ok.1 h
  obtain ⟨names, -, h⟩ := bind_eq_ok.1 h
  obtain ⟨projected, -, h⟩ := bind_eq_ok.1 h
  obtain ⟨_, hcheck, -⟩ := bind_eq_ok.1 h
  obtain ⟨t, ht, hcheck⟩ := bind_eq_ok.1 hcheck
  refine ⟨t, ht, ?_⟩
  cases htruth : Expr.isTruthType t with
  | true => rfl
  | false =>
    rw [htruth] at hcheck
    cases hcheck

end TableScan
