import TableScan.Expr.Simplify
import TableScan.Proofs.Meaning

/-!
Simplification as a relation, with a rule for everything it may do, and its soundness: in a row that
the facts describe, the simplified expression has the value of the other one.
-/

namespace TableScan

open Value (ofCell ofScalar ofTruth)

namespace Expr

/-- What is left of two sides of a comparison: a field, and a literal that the facts may place. -/
structure Faces (facts : String → Facts) (a b : Expr) (n : String) (v : Scalar) : Prop where
  field : a.simplifyWith facts = .ok (field n)
  literal : b.simplifyWith facts = .ok (lit v)

inductive Simplified (facts : String → Facts) : Expr → Expr → Prop
  | known {n : String} {v : Scalar} : (facts n).value = some v → Simplified facts (field n) (lit v)
  | field {n : String} : (facts n).value = none → Simplified facts (field n) (field n)
  | lit {v : Scalar} : Simplified facts (lit v) (lit v)
  | compare {op : Comparison} {a b a' b' : Expr} : Simplified facts a a' → Simplified facts b b' →
      Simplified facts (compare op a b) (compare op a' b')
  | compared {op : Comparison} {a b : Expr} {v w : Scalar} {o : Option Ordering} :
      Simplified facts a (lit v) → Simplified facts b (lit w) → v.compare w = .ok o →
      Simplified facts (compare op a b) (lit (.ofTruth (o.map op.holds)))
  | decided {op : Comparison} {a b : Expr} {n : String} {v : Scalar} {r : Bool} :
      Simplified facts a (field n) → Simplified facts b (lit v) → Faces facts a b n v →
      (facts n).decide op v = some r → Simplified facts (compare op a b) (ofBool r)
  | decidedFlip {op : Comparison} {a b : Expr} {n : String} {v : Scalar} {r : Bool} :
      Simplified facts a (lit v) → Simplified facts b (field n) → Faces facts b a n v →
      (facts n).decide op.flip v = some r → Simplified facts (compare op a b) (ofBool r)
  | and {a b a' b' : Expr} : Simplified facts a a' → Simplified facts b b' →
      Simplified facts (and a b) (and a' b')
  | andFalse {a b a' b' : Expr} : Simplified facts a a' → Simplified facts b b' →
      a' = false_ ∨ b' = false_ → Simplified facts (and a b) false_
  | andTrueLeft {a b b' : Expr} : Simplified facts a true_ → Simplified facts b b' →
      Simplified facts (and a b) b'
  | andTrueRight {a b a' : Expr} : Simplified facts a a' → Simplified facts b true_ →
      Simplified facts (and a b) a'
  | andLits {a b : Expr} {v w : Scalar} {s t : Option Bool} : Simplified facts a (lit v) →
      Simplified facts b (lit w) → v.truth = .ok s → w.truth = .ok t →
      Simplified facts (and a b) (lit (.ofTruth (kleeneAnd s t)))
  | or {a b a' b' : Expr} : Simplified facts a a' → Simplified facts b b' →
      Simplified facts (or a b) (or a' b')
  | orTrue {a b a' b' : Expr} : Simplified facts a a' → Simplified facts b b' →
      a' = true_ ∨ b' = true_ → Simplified facts (or a b) true_
  | orFalseLeft {a b b' : Expr} : Simplified facts a false_ → Simplified facts b b' →
      Simplified facts (or a b) b'
  | orFalseRight {a b a' : Expr} : Simplified facts a a' → Simplified facts b false_ →
      Simplified facts (or a b) a'
  | orLits {a b : Expr} {v w : Scalar} {s t : Option Bool} : Simplified facts a (lit v) →
      Simplified facts b (lit w) → v.truth = .ok s → w.truth = .ok t →
      Simplified facts (or a b) (lit (.ofTruth (kleeneOr s t)))
  | not {e e' : Expr} : Simplified facts e e' → Simplified facts (not e) (not e')
  | notLit {e : Expr} {v : Scalar} {t : Option Bool} : Simplified facts e (lit v) →
      v.truth = .ok t → Simplified facts (not e) (lit (.ofTruth (kleeneNot t)))
  | isValid {e e' : Expr} : Simplified facts e e' → Simplified facts (isValid e) (isValid e')
  | validLit {e : Expr} {v : Scalar} : Simplified facts e (lit v) →
      Simplified facts (isValid e) (ofBool !v.isNull)
  | validKnown {e : Expr} {n : String} {b : Bool} : Simplified facts e (field n) →
      (facts n).valid = some b → Simplified facts (isValid e) (ofBool b)
  | memberEmpty {e : Expr} : Simplified facts (member e []) false_
  | member {e e' : Expr} {set : List Scalar} : Simplified facts e e' →
      Simplified facts (member e set) (member e' set)
  | memberNull {e : Expr} {v : Scalar} {set : List Scalar} : Simplified facts e (lit v) →
      v.isNull → set ≠ [] → Simplified facts (member e set) unknown
  | memberLit {e u : Expr} {v : Scalar} {set : List Scalar} : Simplified facts e (lit v) →
      set ≠ [] → literalMember v set false = .ok u → Simplified facts (member e set) u
  | memberFound {e : Expr} {n : String} {set : List Scalar} : Simplified facts e (field n) →
      (∃ s ∈ set, Faces facts e (lit s) n s ∧ (facts n).decide .eq s = some true) →
      Simplified facts (member e set) true_
  | memberMissed {e : Expr} {n : String} {set : List Scalar} : Simplified facts e (field n) →
      set ≠ [] → (∀ s ∈ set, Faces facts e (lit s) n s ∧ (facts n).decide .eq s = some false) →
      Simplified facts (member e set) false_
  | cast {e e' : Expr} {t : DataType} : Simplified facts e e' →
      Simplified facts (cast e t) (cast e' t)
  | castLit {e : Expr} {v w : Scalar} {t : DataType} : Simplified facts e (lit v) →
      v.castTo t = .ok w → Simplified facts (cast e t) (lit w)

variable {facts : String → Facts}

theorem eq_true_of_isTrue {e : Expr} (h : e.isTrue) : e = true_ := by
  cases e <;> simp_all [isTrue, true_]

theorem eq_false_of_isFalse {e : Expr} (h : e.isFalse) : e = false_ := by
  cases e <;> simp_all [isFalse, false_]

section Connectives

variable {z : Bool} {g : Option Bool → Option Bool → Option Bool} {a b a' b' x y s : Expr}

/-- What simplification makes of a connective of what it makes of the sides. -/
inductive Joined (z : Bool) (g : Option Bool → Option Bool → Option Bool)
    (join : Expr → Expr → Expr) (x y : Expr) :
    Expr → Prop
  | absorbed : x = ofBool z ∨ y = ofBool z → Joined z g join x y (ofBool z)
  | left : y = ofBool (!z) → Joined z g join x y x
  | right : x = ofBool (!z) → Joined z g join x y y
  | lits {a c : Scalar} {s t : Option Bool} :
      x = lit a → y = lit c → a.truth = .ok s → c.truth = .ok t →
      Joined z g join x y (lit (.ofTruth (g s t)))
  | kept : Joined z g join x y (join x y)

theorem Joined.of_combineLiterals {join : Expr → Expr → Expr} {a c : Scalar}
    (h : combineLiterals g a c = .ok s) :
    Joined z g join (lit a) (lit c) s := by
  obtain ⟨t, ht, h⟩ := bind_eq_ok.1 h
  obtain ⟨u, hu, h⟩ := bind_eq_ok.1 h
  cases h
  exact .lits rfl rfl (mapError_eq_ok.1 ht) (mapError_eq_ok.1 hu)

/-- What both connectives do with simplified sides: one truth value absorbs the other side, the
other one leaves it. -/
def connective (absorbs leaves : Expr → Bool) (z : Bool)
    (g : Option Bool → Option Bool → Option Bool) (join : Expr → Expr → Expr) (x y : Expr) :
    Except Failure Expr :=
  if absorbs x || absorbs y then .ok (ofBool z)
  else if leaves x then .ok y
  else if leaves y then .ok x
  else
    match x, y with
    | lit a, lit c => combineLiterals g a c
    | x, y => .ok (join x y)

theorem simplifyAnd_eq_connective :
    simplifyAnd x y = connective isFalse isTrue false kleeneAnd and x y := rfl

theorem simplifyOr_eq_connective :
    simplifyOr x y = connective isTrue isFalse true kleeneOr or x y := rfl

theorem joined_connective {absorbs leaves : Expr → Bool} {join : Expr → Expr → Expr}
    (ha : ∀ {e}, absorbs e → e = ofBool z) (hl : ∀ {e}, leaves e → e = ofBool (!z))
    (h : connective absorbs leaves z g join x y = .ok s) : Joined z g join x y s := by
  unfold connective at h
  split at h
  · rename_i hz
    cases h
    exact .absorbed ((Bool.or_eq_true_iff.1 hz).imp ha ha)
  split at h
  · rename_i hx
    cases h
    exact .right (hl hx)
  split at h
  · rename_i hy
    cases h
    exact .left (hl hy)
  split at h
  · exact .of_combineLiterals h
  · cases h
    exact .kept

theorem joined_simplifyAnd (h : simplifyAnd x y = .ok s) : Joined false kleeneAnd and x y s :=
  joined_connective eq_false_of_isFalse eq_true_of_isTrue (simplifyAnd_eq_connective ▸ h)

theorem joined_simplifyOr (h : simplifyOr x y = .ok s) : Joined true kleeneOr or x y s :=
  joined_connective eq_true_of_isTrue eq_false_of_isFalse (simplifyOr_eq_connective ▸ h)

theorem simplified_and (h : simplifyAnd a' b' = .ok s) (ha : Simplified facts a a')
    (hb : Simplified facts b b') : Simplified facts (and a b) s := by
  cases joined_simplifyAnd h with
  | absorbed hz => exact .andFalse ha hb hz
  | left hz =>
    subst hz
    exact .andTrueRight ha hb
  | right hz =>
    subst hz
    exact .andTrueLeft ha hb
  | lits hx hy hs ht =>
    subst hx hy
    exact .andLits ha hb hs ht
  | kept => exact .and ha hb

theorem simplified_or (h : simplifyOr a' b' = .ok s) (ha : Simplified facts a a')
    (hb : Simplified facts b b') : Simplified facts (or a b) s := by
  cases joined_simplifyOr h with
  | absorbed hz => exact .orTrue ha hb hz
  | left hz =>
    subst hz
    exact .orFalseRight ha hb
  | right hz =>
    subst hz
    exact .orFalseLeft ha hb
  | lits hx hy hs ht =>
    subst hx hy
    exact .orLits ha hb hs ht
  | kept => exact .or ha hb

end Connectives

theorem simplified_comparison {op : Comparison} {a b a' b' u : Expr}
    (h : simplifyComparison facts op a' b' = .ok u) (ea : a.simplifyWith facts = .ok a')
    (eb : b.simplifyWith facts = .ok b') (ha : Simplified facts a a') (hb : Simplified facts b b') :
    Simplified facts (compare op a b) u := by
  unfold simplifyComparison at h
  split at h
  · obtain ⟨o, ho, h⟩ := bind_eq_ok.1 h
    cases h
    exact .compared ha hb (mapError_eq_ok.1 ho)
  · split at h
    · rename_i hd
      cases h
      exact .decided ha hb ⟨ea, eb⟩ hd
    · cases h
      exact .compare ha hb
  · split at h
    · rename_i hd
      cases h
      exact .decidedFlip ha hb ⟨eb, ea⟩ hd
    · cases h
      exact .compare ha hb
  · cases h
    exact .compare ha hb

theorem simplified_valid {e e' : Expr} (he : Simplified facts e e') :
    Simplified facts (isValid e) (simplifyValid facts e') := by
  unfold simplifyValid
  split
  · exact .validLit he
  · split
    · rename_i hv
      exact .validKnown he hv
    · exact .isValid he
  · exact .isValid he

theorem simplified_member {e e' u : Expr} {set : List Scalar} (hset : set ≠ [])
    (h : simplifyMember facts set e' = .ok u) (ee : e.simplifyWith facts = .ok e')
    (he : Simplified facts e e') : Simplified facts (member e set) u := by
  unfold simplifyMember at h
  split at h
  · split at h
    · rename_i hn
      cases h
      exact .memberNull he hn hset
    · exact .memberLit he hset h
  · simp only at h
    split at h
    · rename_i hc
      cases h
      obtain ⟨s, hs, hd⟩ := List.mem_map.1 (List.contains_iff_mem.1 hc)
      exact .memberFound he ⟨s, hs, ⟨ee, rfl⟩, hd⟩
    · split at h
      · rename_i ha
        cases h
        rw [List.all_map, List.all_eq_true] at ha
        exact .memberMissed he hset fun s hs => ⟨⟨ee, rfl⟩, by simpa using ha s hs⟩
      · cases h
        exact .member he
  · cases h
    exact .member he

theorem simplified_of_ok {e s : Expr} (h : e.simplifyWith facts = .ok s) :
    Simplified facts e s := by
  induction e generalizing s with
  | field n =>
    simp only [simplifyWith, Except.ok.injEq] at h
    subst h
    cases hv : (facts n).value with
    | none => exact .field hv
    | some v => exact .known hv
  | lit v =>
    cases h
    exact .lit
  | compare op a b iha ihb =>
    obtain ⟨a', ha, h⟩ := bind_eq_ok.1 h
    obtain ⟨b', hb, h⟩ := bind_eq_ok.1 h
    exact simplified_comparison h ha hb (iha ha) (ihb hb)
  | and a b iha ihb =>
    obtain ⟨a', ha, h⟩ := bind_eq_ok.1 h
    obtain ⟨b', hb, h⟩ := bind_eq_ok.1 h
    exact simplified_and h (iha ha) (ihb hb)
  | or a b iha ihb =>
    obtain ⟨a', ha, h⟩ := bind_eq_ok.1 h
    obtain ⟨b', hb, h⟩ := bind_eq_ok.1 h
    exact simplified_or h (iha ha) (ihb hb)
  | not e ih =>
    obtain ⟨e', he, h⟩ := bind_eq_ok.1 h
    unfold simplifyNot at h
    split at h
    · obtain ⟨t, ht, h⟩ := bind_eq_ok.1 h
      cases h
      exact .notLit (ih he) (mapError_eq_ok.1 ht)
    · cases h
      exact .not (ih he)
  | isValid e ih =>
    obtain ⟨e', he, h⟩ := bind_eq_ok.1 h
    cases h
    exact simplified_valid (ih he)
  | member e set ih =>
    simp only [simplifyWith] at h
    split at h
    · rename_i hset
      subst hset
      cases h
      exact .memberEmpty
    · rename_i hset
      obtain ⟨e', he, h⟩ := bind_eq_ok.1 h
      exact simplified_member hset h he (ih he)
  | cast e t ih =>
    obtain ⟨e', he, h⟩ := bind_eq_ok.1 h
    unfold simplifyCast at h
    split at h
    · obtain ⟨w, hw, h⟩ := bind_eq_ok.1 h
      cases h
      exact .castLit (ih he) hw
    · cases h
      exact .cast (ih he)

/-! Membership of a single value. -/

theorem or?_none_left (t : Option (Option Bool)) (b : Bool) :
    or? (some (if b then none else some false)) (or? (some none) t) = or? (some none) t := by
  cases b <;> rcases t with _ | _ | (_ | _) <;> rfl

theorem or?_true (t : Option (Option Bool)) : or? (some (some true)) t = some (some true) := by
  rcases t with _ | _ | (_ | _) <;> rfl

theorem or?_false (t : Option (Option Bool)) : or? (some (some false)) t = t := by
  rcases t with _ | _ | (_ | _) <;> rfl

theorem or?_right_true (t : Option (Option Bool)) :
    or? t (some (some true)) = some (some true) := by
  rcases t with _ | _ | (_ | _) <;> rfl

theorem literalMember_spec {v : Scalar} {set : List Scalar} {sawNull : Bool} {u : Expr}
    (h : literalMember v set sawNull = .ok u) : ∃ r, u = lit (.ofTruth r) ∧
      ((∀ s ∈ set, (Operand.scalar v).Calm (.scalar s)) →
        or? (some (if sawNull then none else some false)) ((ofScalar v).member? set) = some r) := by
  induction set generalizing sawNull with
  | nil =>
    cases h
    cases sawNull
    · exact ⟨some false, rfl, fun _ => rfl⟩
    · exact ⟨none, rfl, fun _ => rfl⟩
  | cons s set ih =>
    obtain ⟨o, ho, h⟩ := bind_eq_ok.1 h
    have compared (hs : ∀ c ∈ s :: set, (Operand.scalar v).Calm (.scalar c)) :
        (ofScalar v).member? (s :: set) =
          or? (some (o.map Comparison.eq.holds)) ((ofScalar v).member? set) := by
      have hcalm := hs s List.mem_cons_self
      rw [Value.member?, Operand.compare_scalar .eq (mapError_eq_ok.1 ho) (hcalm v s rfl rfl)]
    have rest (hs : ∀ c ∈ s :: set, (Operand.scalar v).Calm (.scalar c)) :
        ∀ c ∈ set, (Operand.scalar v).Calm (.scalar c) := (List.forall_mem_cons.1 hs).2
    split at h
    · cases h
      refine ⟨some true, rfl, fun hs => ?_⟩
      rw [compared hs]
      exact (congrArg _ (or?_true _)).trans (or?_right_true _)
    · rename_i o' hne
      obtain ⟨r, hr, hm⟩ := ih h
      refine ⟨r, hr, fun hs => ?_⟩
      have hf : Comparison.eq.holds o' = false := by
        cases o' <;> first | rfl | exact absurd rfl hne
      rw [compared hs, Option.map_some, hf, or?_false]
      exact hm (rest hs)
    · obtain ⟨r, hr, hm⟩ := ih h
      refine ⟨r, hr, fun hs => ?_⟩
      rw [compared hs, Option.map_none, or?_none_left]
      exact hm (rest hs)

/-! Fields of an expression. -/

theorem mem_addField {n m : String} {met : List String} : n ∈ addField m met ↔ n = m ∨ n ∈ met := by
  simp only [addField]
  split
  · rename_i h
    simp only [List.contains_iff_mem] at h
    constructor
    · exact .inr
    · rintro (rfl | hn)
      · exact h
      · exact hn
  · simp [or_comm]

theorem mem_fieldsFrom {n : String} {e : Expr} {met : List String} :
    n ∈ e.fieldsFrom met ↔ n ∈ met ∨ n ∈ e.fields := by
  have two {a b : Expr} {met : List String}
      (iha : ∀ {met}, n ∈ a.fieldsFrom met ↔ n ∈ met ∨ n ∈ a.fields)
      (ihb : ∀ {met}, n ∈ b.fieldsFrom met ↔ n ∈ met ∨ n ∈ b.fields) :
      n ∈ b.fieldsFrom (a.fieldsFrom met) ↔ n ∈ met ∨ n ∈ b.fieldsFrom (a.fieldsFrom []) := by
    rw [ihb, iha, ihb, or_assoc]
    rfl
  induction e generalizing met with
  | field m =>
    simp only [fields, fieldsFrom, mem_addField, List.not_mem_nil, or_false]
    exact or_comm
  | lit v => simp [fields, fieldsFrom]
  | compare op a b iha ihb => exact two iha ihb
  | and a b iha ihb => exact two iha ihb
  | or a b iha ihb => exact two iha ihb
  | not e ih => exact ih
  | member e set ih => exact ih
  | isValid e ih => exact ih
  | cast e t ih => exact ih

@[simp] theorem mem_fields_field {n m : String} : n ∈ (field m).fields ↔ n = m := by
  simp [fields, fieldsFrom, mem_addField]

@[simp] theorem mem_fields_lit {n : String} {v : Scalar} : n ∉ (lit v).fields := List.not_mem_nil

@[simp] theorem mem_fields_compare {n : String} {op : Comparison} {a b : Expr} :
    n ∈ (compare op a b).fields ↔ n ∈ a.fields ∨ n ∈ b.fields :=
  show n ∈ b.fieldsFrom a.fields ↔ _ from mem_fieldsFrom

@[simp] theorem mem_fields_and {n : String} {a b : Expr} :
    n ∈ (and a b).fields ↔ n ∈ a.fields ∨ n ∈ b.fields :=
  show n ∈ b.fieldsFrom a.fields ↔ _ from mem_fieldsFrom

@[simp] theorem mem_fields_or {n : String} {a b : Expr} :
    n ∈ (or a b).fields ↔ n ∈ a.fields ∨ n ∈ b.fields :=
  show n ∈ b.fieldsFrom a.fields ↔ _ from mem_fieldsFrom

@[simp] theorem fields_not (e : Expr) : (not e).fields = e.fields := rfl

@[simp] theorem fields_isValid (e : Expr) : (isValid e).fields = e.fields := rfl

@[simp] theorem fields_member (e : Expr) (set : List Scalar) :
    (member e set).fields = e.fields := rfl

@[simp] theorem fields_cast (e : Expr) (t : DataType) : (cast e t).fields = e.fields := rfl

theorem value?_congr {ρ σ : Row} {e : Expr} (h : ∀ n ∈ e.fields, ρ n = σ n) :
    e.value? ρ = e.value? σ := by
  induction e with
  | field n => exact h n (by simp)
  | lit v => rfl
  | compare op a b iha ihb | and a b iha ihb | or a b iha ihb =>
    rw [value?, value?, iha fun n hn => h n (by simp [hn]), ihb fun n hn => h n (by simp [hn])]
  | not e ih | isValid e ih | cast e t ih => rw [value?, value?, ih h]
  | member e set ih => rw [value?, value?, ih h]

def Meets (P : Expr → Expr → Prop) : Expr → Prop
  | field _ | lit _ => True
  | compare _ a b => P a b ∧ P b a ∧ a.Meets P ∧ b.Meets P
  | and a b | or a b => a.Meets P ∧ b.Meets P
  | not e | isValid e | cast e _ => e.Meets P
  | member e set => (∀ s ∈ set, P e (lit s)) ∧ e.Meets P

theorem meets_of_fields {P : Expr → Expr → Prop} {e : Expr}
    (h : ∀ a b : Expr, (∀ n ∈ a.fields, n ∈ e.fields) → P a b) : e.Meets P := by
  induction e with
  | field n => trivial
  | lit v => trivial
  | compare op a b iha ihb =>
    have left (n : String) (hn : n ∈ a.fields) : n ∈ (compare op a b).fields := by simp [hn]
    have right (n : String) (hn : n ∈ b.fields) : n ∈ (compare op a b).fields := by simp [hn]
    exact ⟨h a b left, h b a right, iha fun c d hc => h c d fun n hn => left n (hc n hn),
      ihb fun c d hc => h c d fun n hn => right n (hc n hn)⟩
  | and a b iha ihb | or a b iha ihb =>
    exact ⟨iha fun c d hc => h c d fun n hn => by simp [hc n hn],
      ihb fun c d hc => h c d fun n hn => by simp [hc n hn]⟩
  | not e ih => exact ih h
  | isValid e ih => exact ih h
  | member e set ih => exact ⟨fun s _ => h e (lit s) fun n hn => hn, ih h⟩
  | cast e t ih => exact ih h

namespace Simplified

variable {e s : Expr}

theorem fields_subset (h : Simplified facts e s) {n : String} (hn : n ∈ s.fields) :
    n ∈ e.fields ∧ (facts n).value = none := by
  induction h with
  | known => cases hn
  | field h =>
    rw [mem_fields_field] at hn
    subst hn
    exact ⟨by simp, h⟩
  | lit => cases hn
  | compare _ _ iha ihb | and _ _ iha ihb | or _ _ iha ihb =>
    simp only [mem_fields_compare, mem_fields_and, mem_fields_or] at hn ⊢
    rcases hn with hn | hn
    · exact ⟨.inl (iha hn).1, (iha hn).2⟩
    · exact ⟨.inr (ihb hn).1, (ihb hn).2⟩
  | andTrueLeft _ _ _ ih | orFalseLeft _ _ _ ih => exact ⟨by simp [(ih hn).1], (ih hn).2⟩
  | andTrueRight _ _ ih | orFalseRight _ _ ih => exact ⟨by simp [(ih hn).1], (ih hn).2⟩
  | not _ ih | isValid _ ih | member _ ih | cast _ ih => exact ih hn
  | memberLit _ _ h =>
    obtain ⟨r, rfl, -⟩ := literalMember_spec h
    cases hn
  | _ => cases hn

theorem isQuiet_lit_ofTruth (t : Option Bool) : (Expr.lit (.ofTruth t)).isQuiet := by
  cases t <;> rfl

theorem isQuiet (h : Simplified facts e s)
    (hf : ∀ n v, (facts n).value = some v → (ofScalar v).isQuiet) (hq : e.isQuiet) : s.isQuiet := by
  induction h with
  | known h => exact hf _ _ h
  | field h => rfl
  | lit => exact hq
  | compare _ _ iha ihb | and _ _ iha ihb | or _ _ iha ihb =>
    simp only [Expr.isQuiet, Bool.and_eq_true] at hq ⊢
    exact ⟨iha hq.1, ihb hq.2⟩
  | andTrueLeft _ _ _ ih | orFalseLeft _ _ _ ih =>
    simp only [Expr.isQuiet, Bool.and_eq_true] at hq
    exact ih hq.2
  | andTrueRight _ _ ih | orFalseRight _ _ ih =>
    simp only [Expr.isQuiet, Bool.and_eq_true] at hq
    exact ih hq.1
  | not _ ih | isValid _ ih | cast _ ih => exact ih hq
  | member _ ih =>
    simp only [Expr.isQuiet, Bool.and_eq_true] at hq ⊢
    exact ⟨ih hq.1, hq.2⟩
  | memberLit _ _ h =>
    obtain ⟨r, rfl, -⟩ := literalMember_spec h
    exact isQuiet_lit_ofTruth r
  | castLit _ h ih =>
    exact Value.isQuiet_cast? (Value.cast?_ofScalar h) (Value.isPlain_ofCell _ _) (ih hq)
  | _ => exact isQuiet_lit_ofTruth _

theorem recodes (h : Simplified facts e s) (sch : Schema) :
    (s.isEncoded sch → e.isEncoded sch) ∧ (e.recodes sch = false → s.recodes sch = false) := by
  induction h with
  | field h => exact ⟨id, id⟩
  | compare _ _ iha ihb =>
    refine ⟨fun h => Bool.noConfusion h, fun hr => ?_⟩
    simp only [Expr.recodes, Bool.or_eq_false_iff] at hr ⊢
    exact ⟨iha.2 hr.1, ihb.2 hr.2⟩
  | and _ _ iha ihb | or _ _ iha ihb =>
    simp only [isEncoded, Expr.recodes, Bool.or_eq_true, Bool.or_eq_false_iff]
    exact ⟨Or.imp iha.1 ihb.1, fun hr => ⟨iha.2 hr.1, ihb.2 hr.2⟩⟩
  | andTrueLeft _ _ _ ih | orFalseLeft _ _ _ ih =>
    simp only [isEncoded, Expr.recodes, Bool.or_eq_true, Bool.or_eq_false_iff]
    exact ⟨fun h => .inr (ih.1 h), fun hr => ih.2 hr.2⟩
  | andTrueRight _ _ ih | orFalseRight _ _ ih =>
    simp only [isEncoded, Expr.recodes, Bool.or_eq_true, Bool.or_eq_false_iff]
    exact ⟨fun h => .inl (ih.1 h), fun hr => ih.2 hr.1⟩
  | not _ ih | isValid _ ih | member _ ih => exact ⟨fun h => Bool.noConfusion h, ih.2⟩
  | memberLit _ _ h =>
    obtain ⟨r, rfl, -⟩ := literalMember_spec h
    exact ⟨fun h => Bool.noConfusion h, fun _ => rfl⟩
  | cast _ ih =>
    refine ⟨id, fun hr => ?_⟩
    simp only [Expr.recodes, Bool.or_eq_false_iff, Bool.and_eq_false_iff] at hr ⊢
    refine ⟨ih.2 hr.1, hr.2.imp_left fun h => ?_⟩
    exact Bool.eq_false_iff.2 fun h' => Bool.eq_false_iff.1 h (ih.1 h')
  | _ => exact ⟨fun h => Bool.noConfusion h, fun _ => rfl⟩

end Simplified

end Expr

/-- That facts say what is true of a value; where they do not know it, of its comparisons with some.
-/
structure Facts.Describes (g : Facts) (ok : Scalar → Prop) (x : Value) : Prop where
  value : ∀ v, g.value = some v → x = ofScalar v
  valid : g.value = none → ∀ b, g.valid = some b → x.isNull = !b
  decide : g.value = none → ∀ op v r t, ok v → g.decide op v = some r →
    Value.compare? op x (ofScalar v) = some t → t = some r

namespace Expr

theorem ofTruth_map {t : Option (Option Bool)} {x : Value} (h : t.map ofTruth = some x) :
    ∃ b, t = some b ∧ x = ofTruth b := by
  obtain ⟨b, hb, hx⟩ := Option.map_eq_some_iff.1 h
  exact ⟨b, hb, hx.symm⟩

theorem truth?_eq_some {ρ : Row} {e : Expr} {t : Option Bool} (h : e.truth? ρ = some t) :
    e.value? ρ = some (ofTruth t) := by
  obtain ⟨x, hx, ht⟩ := Option.bind_eq_some_iff.1 h
  rw [hx, Value.eq_ofTruth ht]

theorem truth?_of_value? {ρ : Row} {e : Expr} {t : Option Bool}
    (h : e.value? ρ = some (ofTruth t)) :
    e.truth? ρ = some t := by
  rw [truth?, h]
  exact Value.truth?_ofTruth t

theorem and?_mono {s t s' t' : Option (Option Bool)} {b : Option Bool}
    (hs : ∀ c, s = some c → s' = some c) (ht : ∀ c, t = some c → t' = some c)
    (h : and? s t = some b) : and? s' t' = some b := by
  rcases s with _ | c
  · rcases t with _ | _ | (_ | _)
    · cases h
    · cases h
    · cases h
      rw [ht _ rfl]
      rcases s' with _ | _ | (_ | _) <;> rfl
    · cases h
  · rw [hs c rfl]
    rcases t with _ | d
    · rcases c with _ | (_ | _)
      · cases h
      · cases h
        rcases t' with _ | _ | (_ | _) <;> rfl
      · cases h
    · rw [ht d rfl]
      exact h

theorem or?_mono {s t s' t' : Option (Option Bool)} {b : Option Bool}
    (hs : ∀ c, s = some c → s' = some c) (ht : ∀ c, t = some c → t' = some c)
    (h : or? s t = some b) : or? s' t' = some b := by
  rcases s with _ | c
  · rcases t with _ | _ | (_ | _)
    · cases h
    · cases h
    · cases h
    · cases h
      rw [ht _ rfl]
      rcases s' with _ | _ | (_ | _) <;> rfl
  · rw [hs c rfl]
    rcases t with _ | d
    · rcases c with _ | (_ | _)
      · cases h
      · cases h
      · cases h
        rcases t' with _ | _ | (_ | _) <;> rfl
    · rw [ht d rfl]
      exact h

theorem member?_found {x : Value} {set : List Scalar} {m : Option Bool} (h : x.member? set = some m)
    (hs : ∃ s ∈ set, ∀ t, Value.compare? .eq x (ofScalar s) = some t → t = some true) :
    m = some true := by
  induction set generalizing m with
  | nil =>
    obtain ⟨s, hs, -⟩ := hs
    cases hs
  | cons s set ih =>
    obtain ⟨s', hs', hc⟩ := hs
    rw [Value.member?] at h
    rcases List.mem_cons.1 hs' with rfl | hs'
    · cases ht : Value.compare? .eq x (ofScalar s') with
      | none =>
        rw [ht] at h
        cases hm : x.member? set with
        | none => simp [hm, or?] at h
        | some b =>
          rw [hm] at h
          rcases b with _ | (_ | _) <;> cases h
          rfl
      | some t =>
        rw [ht, hc t ht, or?_true] at h
        cases h
        rfl
    · cases hm : x.member? set with
      | none =>
        rw [hm] at h
        generalize Value.compare? .eq x (ofScalar s) = c at h
        rcases c with _ | _ | (_ | _) <;> cases h
        rfl
      | some b =>
        rw [hm, ih hm ⟨s', hs', hc⟩, or?_right_true] at h
        cases h
        rfl

theorem member?_missed {x : Value} {set : List Scalar} {m : Option Bool}
    (h : x.member? set = some m)
    (hs : ∀ s ∈ set, ∀ t, Value.compare? .eq x (ofScalar s) = some t → t = some false) :
    m = some false := by
  induction set generalizing m with
  | nil =>
    cases h
    rfl
  | cons s set ih =>
    rw [Value.member?] at h
    have hrest := fun s' hs' => hs s' (List.mem_cons_of_mem s hs')
    cases ht : Value.compare? .eq x (ofScalar s) with
    | none =>
      rw [ht] at h
      cases hm : x.member? set with
      | none => simp [hm, or?] at h
      | some b =>
        rw [hm, ih hm hrest] at h
        cases h
    | some t =>
      rw [ht, hs s List.mem_cons_self t ht, or?_false] at h
      exact ih h hrest

variable {ρ : Row} {ok : String → Scalar → Prop}

def Trusted (facts : String → Facts) (ok : String → Scalar → Prop) (a b : Expr) : Prop :=
  ∀ n v, Faces facts a b n v → ok n v

def Refines (ρ : Row) (e s : Expr) : Prop := ∀ x, e.value? ρ = some x → s.value? ρ = some x

theorem Refines.truth {e s : Expr} (h : Refines ρ e s) (t : Option Bool)
    (ht : e.truth? ρ = some t) :
    s.truth? ρ = some t :=
  truth?_of_value? (h _ (truth?_eq_some ht))

theorem value?_compare {op : Comparison} {a b : Expr} {x : Value}
    (h : (compare op a b).value? ρ = some x) : ∃ y z t, a.value? ρ = some y ∧ b.value? ρ = some z ∧
      Value.compare? op y z = some t ∧ x = ofTruth t := by
  obtain ⟨y, hy, h⟩ := Option.bind_eq_some_iff.1 h
  obtain ⟨z, hz, h⟩ := Option.bind_eq_some_iff.1 h
  obtain ⟨t, ht, rfl⟩ := ofTruth_map h
  exact ⟨y, z, t, hy, hz, ht, rfl⟩

theorem value?_and {a b a' b' : Expr} {x : Value} (h : (and a b).value? ρ = some x)
    (ha : Refines ρ a a') (hb : Refines ρ b b') :
    ∃ t, and? (a'.truth? ρ) (b'.truth? ρ) = some t ∧ x = ofTruth t := by
  obtain ⟨t, ht, rfl⟩ := ofTruth_map h
  exact ⟨t, and?_mono ha.truth hb.truth ht, rfl⟩

theorem value?_or {a b a' b' : Expr} {x : Value} (h : (or a b).value? ρ = some x)
    (ha : Refines ρ a a') (hb : Refines ρ b b') :
    ∃ t, or? (a'.truth? ρ) (b'.truth? ρ) = some t ∧ x = ofTruth t := by
  obtain ⟨t, ht, rfl⟩ := ofTruth_map h
  exact ⟨t, or?_mono ha.truth hb.truth ht, rfl⟩

theorem value?_not {e : Expr} {x : Value} (h : (not e).value? ρ = some x) :
    ∃ t, e.truth? ρ = some t ∧ x = ofTruth (kleeneNot t) := by
  obtain ⟨t, ht, rfl⟩ := Option.map_eq_some_iff.1 h
  exact ⟨t, ht, rfl⟩

theorem value?_isValid {e : Expr} {x : Value} (h : (isValid e).value? ρ = some x) :
    ∃ y, e.value? ρ = some y ∧ x = ofTruth (some !y.isNull) := by
  obtain ⟨y, hy, rfl⟩ := Option.map_eq_some_iff.1 h
  exact ⟨y, hy, rfl⟩

theorem value?_member {e : Expr} {set : List Scalar} {x : Value}
    (h : (member e set).value? ρ = some x) (hset : set ≠ []) :
    ∃ y t, e.value? ρ = some y ∧ y.member? set = some t ∧ x = ofTruth t := by
  simp only [value?, hset, ↓reduceIte] at h
  obtain ⟨y, hy, h⟩ := Option.bind_eq_some_iff.1 h
  obtain ⟨t, ht, rfl⟩ := ofTruth_map h
  exact ⟨y, t, hy, ht, rfl⟩

@[simp] theorem truth?_true (ρ : Row) : true_.truth? ρ = some (some true) := rfl

@[simp] theorem truth?_false (ρ : Row) : false_.truth? ρ = some (some false) := rfl

theorem truth?_lit {v : Scalar} {t : Option Bool} (h : v.truth = .ok t) :
    (lit v).truth? ρ = some t :=
  Operand.truth_scalar h

theorem and?_true_left (t : Option (Option Bool)) : and? (some (some true)) t = t := by
  rcases t with _ | _ | (_ | _) <;> rfl

theorem and?_true_right (t : Option (Option Bool)) : and? t (some (some true)) = t := by
  rcases t with _ | _ | (_ | _) <;> rfl

theorem and?_false {s t : Option (Option Bool)}
    (h : s = some (some false) ∨ t = some (some false)) :
    and? s t = some (some false) := by
  rcases h with rfl | rfl
  · rcases t with _ | _ | (_ | _) <;> rfl
  · rcases s with _ | _ | (_ | _) <;> rfl

theorem or?_true_or {s t : Option (Option Bool)} (h : s = some (some true) ∨ t = some (some true)) :
    or? s t = some (some true) := by
  rcases h with rfl | rfl
  · exact or?_true t
  · exact or?_right_true s

theorem or?_right_false (t : Option (Option Bool)) : or? t (some (some false)) = t := by
  rcases t with _ | _ | (_ | _) <;> rfl

theorem member?_null {set : List Scalar} (hset : set ≠ []) :
    Value.null.member? set = some none := by
  have or_none (t : Option Bool) (h : t ≠ some true) : or? (some none) (some t) = some none := by
    rcases t with _ | (_ | _) <;> first | rfl | exact absurd rfl h
  have all_null (set : List Scalar) : ∃ t, Value.null.member? set = some t ∧ t ≠ some true := by
    induction set with
    | nil => exact ⟨some false, rfl, nofun⟩
    | cons s set ih =>
      obtain ⟨t, ht, hne⟩ := ih
      exact ⟨none, by rw [Value.member?, ht]; exact or_none t hne, nofun⟩
  cases set with
  | nil => exact absurd rfl hset
  | cons s set =>
    obtain ⟨t, ht, hne⟩ := all_null set
    rw [Value.member?, ht]
    exact or_none t hne

/--
What simplification relies on in a row: the facts describe it, comparisons are with literals that
the facts bear, and literals are no signalling NaNs.
-/
structure Fits (facts : String → Facts) (ρ : Row) (ok : String → Scalar → Prop)
    (e : Expr) : Prop where
  described : ∀ n ∈ e.fields, ∀ x, ρ n = some x → (facts n).Describes (ok n) x
  trusted : e.Meets (Trusted facts ok)
  quiet : e.isQuiet

namespace Fits

variable {op : Comparison} {a b e : Expr} {set : List Scalar}

theorem of_both {c : Expr} (hf : ∀ n, n ∈ c.fields ↔ n ∈ a.fields ∨ n ∈ b.fields)
    (hm : c.Meets (Trusted facts ok) → a.Meets (Trusted facts ok) ∧ b.Meets (Trusted facts ok))
    (hq : c.isQuiet = (a.isQuiet && b.isQuiet)) (h : Fits facts ρ ok c) :
    Fits facts ρ ok a ∧ Fits facts ρ ok b := by
  have hq : a.isQuiet ∧ b.isQuiet := by
    rw [← Bool.and_eq_true, ← hq]
    exact h.quiet
  exact ⟨⟨fun n hn => h.described n ((hf n).2 (.inl hn)), (hm h.trusted).1, hq.1⟩,
    ⟨fun n hn => h.described n ((hf n).2 (.inr hn)), (hm h.trusted).2, hq.2⟩⟩

theorem compare (h : Fits facts ρ ok (compare op a b)) : Fits facts ρ ok a ∧ Fits facts ρ ok b :=
  of_both (fun _ => mem_fields_compare) (fun h => h.2.2) rfl h

theorem and (h : Fits facts ρ ok (and a b)) : Fits facts ρ ok a ∧ Fits facts ρ ok b :=
  of_both (fun _ => mem_fields_and) id rfl h

theorem or (h : Fits facts ρ ok (or a b)) : Fits facts ρ ok a ∧ Fits facts ρ ok b :=
  of_both (fun _ => mem_fields_or) id rfl h

theorem not (h : Fits facts ρ ok (not e)) : Fits facts ρ ok e := ⟨h.described, h.trusted, h.quiet⟩

theorem isValid (h : Fits facts ρ ok (isValid e)) : Fits facts ρ ok e :=
  ⟨h.described, h.trusted, h.quiet⟩

theorem cast {t : DataType} (h : Fits facts ρ ok (cast e t)) : Fits facts ρ ok e :=
  ⟨h.described, h.trusted, h.quiet⟩

theorem member (h : Fits facts ρ ok (member e set)) : Fits facts ρ ok e :=
  ⟨h.described, h.trusted.2, (Bool.and_eq_true_iff.1 h.quiet).1⟩

theorem decide (h : Fits facts ρ ok e) {n : String} {v : Scalar} {x : Value} {r : Bool}
    {t : Option Bool} (he : Simplified facts e (field n)) (hx : ρ n = some x) (hv : ok n v)
    (hr : (facts n).decide op v = some r) (ht : Value.compare? op x (ofScalar v) = some t) :
    t = some r :=
  have hn := he.fields_subset (mem_fields_field.2 rfl)
  (h.described n hn.1 x hx).decide hn.2 op v r t hv hr ht

end Fits

section Refinement

variable {op : Comparison} {a b a' b' e e' s : Expr} {v w : Scalar} {set : List Scalar}

theorem refines_compare (ha : Refines ρ a a') (hb : Refines ρ b b')
    (hs : ∀ y z t, a'.value? ρ = some y →
    b'.value? ρ = some z → Value.compare? op y z = some t → s.value? ρ = some (ofTruth t)) :
    Refines ρ (compare op a b) s := by
  intro x hx
  obtain ⟨y, z, t, hy, hz, ht, rfl⟩ := value?_compare hx
  exact hs y z t (ha y hy) (hb z hz) ht

theorem refines_compared {o : Option Ordering} (ha : Refines ρ a (lit v)) (hb : Refines ρ b (lit w))
    (ho : v.compare w = .ok o) (hq : (ofScalar v).isQuiet ∧ (ofScalar w).isQuiet) :
    Refines ρ (compare op a b) (lit (.ofTruth (o.map op.holds))) := by
  refine refines_compare ha hb fun y z t hy hz ht => ?_
  cases hy
  cases hz
  cases (Operand.compare_scalar op ho fun _ => hq).symm.trans ht
  rfl

theorem refines_and (ha : Refines ρ a a') (hb : Refines ρ b b')
    (hs : ∀ t, and? (a'.truth? ρ) (b'.truth? ρ) = some t → s.value? ρ = some (ofTruth t)) :
    Refines ρ (and a b) s := by
  intro x hx
  obtain ⟨t, ht, rfl⟩ := value?_and hx ha hb
  exact hs t ht

theorem refines_and_false (ha : Refines ρ a a') (hb : Refines ρ b b')
    (h : a' = false_ ∨ b' = false_) :
    Refines ρ (and a b) false_ := by
  refine refines_and ha hb fun t ht => ?_
  rw [and?_false (h.imp (fun h => by rw [h]; rfl) (fun h => by rw [h]; rfl))] at ht
  cases ht
  rfl

theorem refines_and_left (ha : Refines ρ a true_) (hb : Refines ρ b b') :
    Refines ρ (and a b) b' := by
  refine refines_and ha hb fun t ht => truth?_eq_some ?_
  rwa [truth?_true, and?_true_left] at ht

theorem refines_and_right (ha : Refines ρ a a') (hb : Refines ρ b true_) :
    Refines ρ (and a b) a' := by
  refine refines_and ha hb fun t ht => truth?_eq_some ?_
  rwa [truth?_true, and?_true_right] at ht

theorem refines_and_lits {s t : Option Bool} (ha : Refines ρ a (lit v)) (hb : Refines ρ b (lit w))
    (hs : v.truth = .ok s) (ht : w.truth = .ok t) :
    Refines ρ (and a b) (lit (.ofTruth (kleeneAnd s t))) := by
  refine refines_and ha hb fun r h => ?_
  rw [truth?_lit hs, truth?_lit ht, Operand.and?_some] at h
  cases h
  rfl

theorem refines_or (ha : Refines ρ a a') (hb : Refines ρ b b')
    (hs : ∀ t, or? (a'.truth? ρ) (b'.truth? ρ) = some t → s.value? ρ = some (ofTruth t)) :
    Refines ρ (or a b) s := by
  intro x hx
  obtain ⟨t, ht, rfl⟩ := value?_or hx ha hb
  exact hs t ht

theorem refines_or_true (ha : Refines ρ a a') (hb : Refines ρ b b') (h : a' = true_ ∨ b' = true_) :
    Refines ρ (or a b) true_ := by
  refine refines_or ha hb fun t ht => ?_
  rw [or?_true_or (h.imp (fun h => by rw [h]; rfl) (fun h => by rw [h]; rfl))] at ht
  cases ht
  rfl

theorem refines_or_left (ha : Refines ρ a false_) (hb : Refines ρ b b') :
    Refines ρ (or a b) b' := by
  refine refines_or ha hb fun t ht => truth?_eq_some ?_
  rwa [truth?_false, or?_false] at ht

theorem refines_or_right (ha : Refines ρ a a') (hb : Refines ρ b false_) :
    Refines ρ (or a b) a' := by
  refine refines_or ha hb fun t ht => truth?_eq_some ?_
  rwa [truth?_false, or?_right_false] at ht

theorem refines_or_lits {s t : Option Bool} (ha : Refines ρ a (lit v)) (hb : Refines ρ b (lit w))
    (hs : v.truth = .ok s) (ht : w.truth = .ok t) :
    Refines ρ (or a b) (lit (.ofTruth (kleeneOr s t))) := by
  refine refines_or ha hb fun r h => ?_
  rw [truth?_lit hs, truth?_lit ht, Operand.or?_some] at h
  cases h
  rfl

theorem refines_not (he : Refines ρ e e')
    (hs : ∀ t, e'.truth? ρ = some t → s.value? ρ = some (ofTruth (kleeneNot t))) :
    Refines ρ (not e) s := by
  intro x hx
  obtain ⟨t, ht, rfl⟩ := value?_not hx
  exact hs t (he.truth t ht)

theorem refines_isValid (he : Refines ρ e e')
    (hs : ∀ y, e'.value? ρ = some y → s.value? ρ = some (ofTruth (some !y.isNull))) :
    Refines ρ (isValid e) s := by
  intro x hx
  obtain ⟨y, hy, rfl⟩ := value?_isValid hx
  exact hs y (he y hy)

theorem refines_member (he : Refines ρ e e') (hset : set ≠ [])
    (hs : ∀ y t, e'.value? ρ = some y → y.member? set = some t → s.value? ρ = some (ofTruth t)) :
    Refines ρ (member e set) s := by
  intro x hx
  obtain ⟨y, t, hy, ht, rfl⟩ := value?_member hx hset
  exact hs y t (he y hy) ht

theorem refines_member_null (he : Refines ρ e (lit v)) (hv : v.isNull) (hset : set ≠ []) :
    Refines ρ (member e set) unknown := by
  refine refines_member he hset fun y t hy ht => ?_
  obtain ⟨type, value⟩ := v
  cases value with
  | none =>
    cases hy
    cases (member?_null hset).symm.trans ht
    rfl
  | some a => cases hv

theorem refines_member_lit {u : Expr} (he : Refines ρ e (lit v)) (hset : set ≠ [])
    (h : literalMember v set false = .ok u) (hq : (ofScalar v).isQuiet)
    (hquiet : ∀ s ∈ set, (ofScalar s).isQuiet) : Refines ρ (member e set) u := by
  refine refines_member he hset fun y t hy ht => ?_
  cases hy
  obtain ⟨r, rfl, hr⟩ := literalMember_spec h
  have hs := hr fun s hs => Operand.calm_of_isQuiet hq (hquiet s hs)
  rw [ht] at hs
  cases (or?_false (some t)).symm.trans hs
  rfl

theorem refines_cast {t : DataType} (he : Refines ρ e e')
    (hs : ∀ x y, e'.value? ρ = some x → x.cast? t = some y → s.value? ρ = some y) :
    Refines ρ (cast e t) s := by
  intro y hy
  obtain ⟨x, hx, hc⟩ := Option.bind_eq_some_iff.1 hy
  exact hs x y (he x hx) hc

end Refinement

theorem Simplified.refines {e s : Expr} (h : Simplified facts e s) (hfit : Fits facts ρ ok e)
    (hf : ∀ n v, (facts n).value = some v → (ofScalar v).isQuiet) : Refines ρ e s := by
  induction h with
  | @known n v h =>
    intro x hx
    rw [(hfit.described n (by simp) x hx).value v h, value?]
  | field | lit => exact fun x hx => hx
  | compare _ _ iha ihb =>
    refine refines_compare (iha hfit.compare.1) (ihb hfit.compare.2) fun y z t hy hz ht => ?_
    simp [value?, hy, hz, ht]
  | compared ha hb ho iha ihb =>
    exact refines_compared (iha hfit.compare.1) (ihb hfit.compare.2) ho
      ⟨ha.isQuiet hf hfit.compare.1.quiet, hb.isQuiet hf hfit.compare.2.quiet⟩
  | decided ha hb hface h iha ihb =>
    refine refines_compare (iha hfit.compare.1) (ihb hfit.compare.2) fun y z t hy hz ht => ?_
    cases hz
    rw [hfit.compare.1.decide ha hy (hfit.trusted.1 _ _ hface) h ht]
    rfl
  | decidedFlip ha hb hface h iha ihb =>
    refine refines_compare (iha hfit.compare.1) (ihb hfit.compare.2) fun y z t hy hz ht => ?_
    cases hy
    rw [← Value.compare?_flip] at ht
    rw [hfit.compare.2.decide hb hz (hfit.trusted.2.1 _ _ hface) h ht]
    rfl
  | and _ _ iha ihb =>
    exact refines_and (iha hfit.and.1) (ihb hfit.and.2) fun t ht => congrArg (Option.map ofTruth) ht
  | andFalse _ _ h iha ihb => exact refines_and_false (iha hfit.and.1) (ihb hfit.and.2) h
  | andTrueLeft _ _ iha ihb => exact refines_and_left (iha hfit.and.1) (ihb hfit.and.2)
  | andTrueRight _ _ iha ihb => exact refines_and_right (iha hfit.and.1) (ihb hfit.and.2)
  | andLits _ _ hs ht iha ihb => exact refines_and_lits (iha hfit.and.1) (ihb hfit.and.2) hs ht
  | or _ _ iha ihb =>
    exact refines_or (iha hfit.or.1) (ihb hfit.or.2) fun t ht => congrArg (Option.map ofTruth) ht
  | orTrue _ _ h iha ihb => exact refines_or_true (iha hfit.or.1) (ihb hfit.or.2) h
  | orFalseLeft _ _ iha ihb => exact refines_or_left (iha hfit.or.1) (ihb hfit.or.2)
  | orFalseRight _ _ iha ihb => exact refines_or_right (iha hfit.or.1) (ihb hfit.or.2)
  | orLits _ _ hs ht iha ihb => exact refines_or_lits (iha hfit.or.1) (ihb hfit.or.2) hs ht
  | not _ ih =>
    exact refines_not (ih hfit.not) fun t ht =>
      congrArg (Option.map fun t => ofTruth (kleeneNot t)) ht
  | notLit _ ht ih =>
    refine refines_not (ih hfit.not) fun t h => ?_
    cases (truth?_lit ht).symm.trans h
    rfl
  | isValid _ ih =>
    exact refines_isValid (ih hfit.isValid) fun y hy =>
      congrArg (Option.map fun x : Value => ofTruth (some !x.isNull)) hy
  | validLit _ ih =>
    refine refines_isValid (ih hfit.isValid) fun y hy => ?_
    cases hy
    rw [Value.isNull_ofScalar]
    rfl
  | @validKnown e n b he h ih =>
    refine refines_isValid (ih hfit.isValid) fun y hy => ?_
    have hn := he.fields_subset (mem_fields_field.2 rfl)
    rw [(hfit.described n hn.1 y hy).valid hn.2 b h, Bool.not_not]
    rfl
  | memberEmpty => exact fun x hx => hx
  | @member e e' set _ ih =>
    by_cases hset : set = []
    · subst hset
      exact fun x hx => hx
    · refine refines_member (ih hfit.member) hset fun y t hy ht => ?_
      simp [value?, hset, hy, ht]
  | memberNull _ h hset ih => exact refines_member_null (ih hfit.member) h hset
  | memberLit he hset h ih =>
    exact refines_member_lit (ih hfit.member) hset h (he.isQuiet hf hfit.member.quiet)
      (List.all_eq_true.1 (Bool.and_eq_true_iff.1 hfit.quiet).2)
  | memberFound he h ih =>
    obtain ⟨s, hs, hface, hd⟩ := h
    refine refines_member (ih hfit.member) (List.ne_nil_of_mem hs) fun y t hy ht => ?_
    rw [member?_found ht ⟨s, hs, fun t ht =>
      hfit.member.decide he hy (hfit.trusted.1 s hs _ s hface) hd ht⟩]
    rfl
  | memberMissed he hset h ih =>
    refine refines_member (ih hfit.member) hset fun y t hy ht => ?_
    rw [member?_missed ht fun s hs t ht =>
      hfit.member.decide he hy (hfit.trusted.1 s hs _ s (h s hs).1) (h s hs).2 ht]
    rfl
  | cast _ ih =>
    refine refines_cast (ih hfit.cast) fun x y hx hc => ?_
    simp [value?, hx, hc]
  | castLit _ h ih =>
    refine refines_cast (ih hfit.cast) fun x y hx hc => ?_
    cases hx
    cases (Value.cast?_ofScalar h).symm.trans hc
    rfl

end Expr

end TableScan
