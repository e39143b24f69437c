import TableScan.Proofs.Simplification

namespace TableScan

open Value (ofCell ofScalar ofTruth)

namespace Value

def Counts (x : Value) : Prop := x = null ∨ (∃ m, x.magnitude? = some m) ∧ x.isQuiet

def Alike (x y : Value) : Prop :=
  x = y ∨ ∃ m n, x.magnitude? = some m ∧ y.magnitude? = some n ∧ m.Same n ∧ x.isQuiet ∧ y.isQuiet

theorem eq_of_magnitude? {x : Value} {m : Magnitude} (h : x.magnitude? = some m) :
    ∃ p a, x = of (.scalar p) a := by
  cases x with
  | null => cases h
  | of t a =>
    cases t with
    | scalar p => exact ⟨p, a, rfl⟩
    | _ => cases h

theorem comparisonType_of_magnitude {p q : ScalarType} {a : p.Carrier} {b : q.Carrier}
    {m n : Magnitude} {o : Ordering} (hm : (of (.scalar p) a).magnitude? = some m)
    (hn : (of (.scalar q) b).magnitude? = some n) (ho : m.compare? n = some o) :
    (comparisonType (.scalar p) (.scalar q)).isSome := by
  cases p <;> cases q <;> cases hm <;> cases hn <;> cases ho <;> try rfl
  case int.int.refl.refl.refl s t =>
    by_cases hst : s = t
    · simp [comparisonType, hst]
    · rw [comparisonType_int hst]
      rfl

theorem compare?_counted {op : Comparison} {x y x' y' : Value} {m m' n n' : Magnitude}
    {t : Option Bool} (hx : x.magnitude? = some m) (hx' : x'.magnitude? = some m')
    (hy : y.magnitude? = some n) (hy' : y'.magnitude? = some n') (hm : m.Same m') (hn : n.Same n')
    (qx : x.isQuiet ∧ x'.isQuiet) (qy : y.isQuiet ∧ y'.isQuiet) (h : compare? op x y = some t) :
    compare? op x' y' = some t := by
  obtain ⟨p, a, rfl⟩ := eq_of_magnitude? hx
  obtain ⟨p', a', rfl⟩ := eq_of_magnitude? hx'
  obtain ⟨q, b, rfl⟩ := eq_of_magnitude? hy
  obtain ⟨q', b', rfl⟩ := eq_of_magnitude? hy'
  have ht : (comparisonType (.scalar p) (.scalar q)).isSome := by
    cases hc : comparisonType (.scalar p) (.scalar q) with
    | none => simp [compare?, hc] at h
    | some t => rfl
  obtain ⟨k, l, o, hk, hl, ho⟩ := comparable_of_comparisonType (a := a) (b := b) ht
  cases hx.symm.trans hk
  cases hy.symm.trans hl
  rw [compare?_of_magnitude op ht hx hy ho fun _ => ⟨qx.1, qy.1⟩] at h
  rw [hm.compare? hn] at ho
  rw [compare?_of_magnitude op (comparisonType_of_magnitude hx' hy' ho) hx' hy' ho fun _ =>
    ⟨qx.2, qy.2⟩]
  exact h

namespace Alike

variable {x y x' y' : Value}

theorem isNull (h : Alike x y) : x.isNull = y.isNull := by
  rcases h with rfl | ⟨m, n, hx, hy, -, -, -⟩
  · rfl
  · obtain ⟨p, a, rfl⟩ := eq_of_magnitude? hx
    obtain ⟨q, b, rfl⟩ := eq_of_magnitude? hy
    rfl

theorem eq_flag {m : Magnitude} {b : Bool} (h : (Magnitude.flag b).Same m) : m = .flag b := by
  have hb := h (.flag b)
  cases m <;> simp only [Magnitude.compare?, Option.some.injEq, reduceCtorEq] at hb
  rw [compare_eq_iff_eq.1 (hb.symm.trans (compare_eq_iff_eq.2 rfl))]

theorem truth? (h : Alike x y) {t : Option Bool} (hx : x.truth? = some t) : y.truth? = some t := by
  rcases h with rfl | ⟨m, n, hm, hn, hmn, -, -⟩
  · exact hx
  · obtain ⟨p, a, rfl⟩ := eq_of_magnitude? hm
    obtain ⟨q, b, rfl⟩ := eq_of_magnitude? hn
    cases p <;> cases hx
    cases hm
    rw [eq_flag hmn] at hn
    cases q <;> cases hn
    rfl

theorem compare? {op : Comparison} {t : Option Bool} (hx : Alike x x') (hy : Alike y y')
    (cx : x = x' ∨ Counts y) (cy : y = y' ∨ Counts x) (h : Value.compare? op x y = some t) :
    Value.compare? op x' y' = some t := by
  -- a value that changes meets one that counts, so that both do
  have counted (hx : Alike x x') (hy : Alike y y') (kx : Counts x) (ky : Counts y) :
      Value.compare? op x' y' = some t := by
    have same {x x' : Value} (hx : Alike x x') (kx : Counts x) : x = .null ∧ x' = .null ∨
        ∃ m m', x.magnitude? = some m ∧ x'.magnitude? = some m' ∧ m.Same m' ∧ x.isQuiet ∧
        x'.isQuiet := by
      rcases hx with rfl | hx
      · rcases kx with rfl | ⟨⟨m, hm⟩, q⟩
        · exact .inl ⟨rfl, rfl⟩
        · exact .inr ⟨m, m, hm, hm, .refl m, q, q⟩
      · exact .inr hx
    rcases same hx kx with ⟨rfl, rfl⟩ | ⟨m, m', hm, hm', hmm, qx⟩
    · exact h
    · rcases same hy ky with ⟨rfl, rfl⟩ | ⟨n, n', hn, hn', hnn, qy⟩
      · rw [compare?_null_right] at h ⊢
        exact h
      · exact compare?_counted hm hm' hn hn' hmm hnn qx qy h
  have counts {x x' : Value} (hx : Alike x x') (hne : ¬ x = x') : Counts x := by
    rcases hx with rfl | ⟨m, -, hm, -, -, q, -⟩
    · exact absurd rfl hne
    · exact .inr ⟨⟨m, hm⟩, q⟩
  by_cases ex : x = x'
  · by_cases ey : y = y'
    · rw [← ex, ← ey]
      exact h
    · exact counted hx hy (cy.resolve_left ey) (counts hy ey)
  · exact counted hx hy (counts hx ex) (cx.resolve_left ex)

end Alike

theorem counts_ofScalar {s : Scalar} (h : (ofScalar s).isQuiet) : Counts (ofScalar s) := by
  obtain ⟨p, value⟩ := s
  cases value with
  | none => exact .inl rfl
  | some a =>
    refine .inr ⟨?_, h⟩
    cases p <;> first | exact Empty.elim a | exact ⟨_, rfl⟩

theorem Alike.member? {x y : Value} (h : Alike x y) {set : List Scalar}
    (hs : set.all fun s => (ofScalar s).isQuiet) {t : Option Bool} (hx : x.member? set = some t) :
    y.member? set = some t := by
  induction set generalizing t with
  | nil => exact hx
  | cons s set ih =>
    rw [List.all_cons, Bool.and_eq_true] at hs
    rw [Value.member?] at hx ⊢
    exact Expr.or?_mono
      (fun c hc => h.compare? (.inl rfl) (.inr (counts_ofScalar hs.1)) (.inl rfl) hc)
      (fun c hc => ih hs.2 hc) hx

end Value

namespace Expr

def Changes (ρ σ : Row) (e : Expr) : Prop := ∃ n, e = field n ∧ ρ n ≠ σ n

def Counts (ρ : Row) (e : Expr) : Prop := ∀ x, e.value? ρ = some x → x.Counts

def Steady (changes counts : Expr → Prop) : Expr → Prop
  | field _ | lit _ => True
  | compare _ a b => a.Steady changes counts ∧ b.Steady changes counts ∧
      (changes a → counts b) ∧ (changes b → counts a)
  | and a b | or a b => a.Steady changes counts ∧ b.Steady changes counts
  | not e | isValid e | member e _ => e.Steady changes counts
  | cast e _ => e.Steady changes counts ∧ ¬ changes e

variable {ρ σ : Row} {changes counts : Expr → Prop}

def Likens (ρ σ : Row) (e : Expr) : Prop :=
  ∀ n ∈ e.fields, ∀ x, ρ n = some x → ∃ y, σ n = some y ∧ x.Alike y

def Follows (ρ σ : Row) (e : Expr) : Prop :=
  ∀ x, e.value? ρ = some x → ∃ y, e.value? σ = some y ∧ x.Alike y ∧ (x = y ∨ e.Changes ρ σ)

theorem Follows.truth {e : Expr} (h : Follows ρ σ e) (t : Option Bool) (ht : e.truth? ρ = some t) :
    e.truth? σ = some t := by
  obtain ⟨y, hy, ha, -⟩ := h _ (truth?_eq_some ht)
  rw [truth?, hy]
  exact ha.truth? (Value.truth?_ofTruth t)

theorem follows_of_same {e : Expr} (h : ∀ x, e.value? ρ = some x → e.value? σ = some x) :
    Follows ρ σ e :=
  fun x hx => ⟨x, h x hx, .inl rfl, .inl rfl⟩

theorem follows_compare {op : Comparison} {a b : Expr} (ha : Follows ρ σ a) (hb : Follows ρ σ b)
    (cb : a.Changes ρ σ → b.Counts ρ) (ca : b.Changes ρ σ → a.Counts ρ) :
    Follows ρ σ (compare op a b) := by
  refine follows_of_same fun x hx => ?_
  obtain ⟨y, z, t, hy, hz, ht, rfl⟩ := value?_compare hx
  obtain ⟨y', hy', hya, hyc⟩ := ha y hy
  obtain ⟨z', hz', hza, hzc⟩ := hb z hz
  have ht' :=
    hya.compare? hza (hyc.imp_right fun h => cb h z hz) (hzc.imp_right fun h => ca h y hy) ht
  simp [value?, hy', hz', ht']

theorem follows_member {e : Expr} {set : List Scalar} (he : Follows ρ σ e)
    (hs : set.all fun s => (ofScalar s).isQuiet) : Follows ρ σ (member e set) := by
  refine follows_of_same fun x hx => ?_
  by_cases hset : set = []
  · subst hset
    exact hx
  · obtain ⟨y, t, hy, ht, rfl⟩ := value?_member hx hset
    obtain ⟨y', hy', ha, -⟩ := he y hy
    simp [value?, hset, hy', ha.member? hs ht]

theorem Steady.follows {e : Expr} (h : e.Steady changes counts) (hq : e.isQuiet) (hl : Likens ρ σ e)
    (hch : ∀ a : Expr, a.Changes ρ σ → changes a)
    (hct : ∀ a b : Expr, a.Changes ρ σ → b.isQuiet → counts b → b.Counts ρ) :
    Follows ρ σ e := by
  have left {a b : Expr} (hl : ∀ n, n ∈ a.fields ∨ n ∈ b.fields →
      ∀ x, ρ n = some x → ∃ y, σ n = some y ∧ x.Alike y) : Likens ρ σ a :=
      fun n hn => hl n (.inl hn)
  have right {a b : Expr} (hl : ∀ n, n ∈ a.fields ∨ n ∈ b.fields →
      ∀ x, ρ n = some x → ∃ y, σ n = some y ∧ x.Alike y) : Likens ρ σ b :=
      fun n hn => hl n (.inr hn)
  induction e with
  | field n =>
    intro x hx
    obtain ⟨y, hy, ha⟩ := hl n (mem_fields_field.2 rfl) x hx
    refine ⟨y, hy, ha, ?_⟩
    by_cases hxy : x = y
    · exact .inl hxy
    · refine .inr ⟨n, rfl, fun hn => hxy ?_⟩
      rw [← hn] at hy
      exact Option.some.inj (hx.symm.trans hy)
  | lit v => exact follows_of_same fun x hx => hx
  | compare op a b iha ihb =>
    simp only [Likens, mem_fields_compare] at hl
    simp only [isQuiet, Bool.and_eq_true] at hq
    exact follows_compare (iha h.1 hq.1 (left hl)) (ihb h.2.1 hq.2 (right hl))
      (fun ca => hct a b ca hq.2 (h.2.2.1 (hch a ca)))
      (fun cb => hct b a cb hq.1 (h.2.2.2 (hch b cb)))
  | and a b iha ihb =>
    simp only [Likens, mem_fields_and] at hl
    simp only [isQuiet, Bool.and_eq_true] at hq
    refine follows_of_same fun x hx => ?_
    obtain ⟨t, ht, rfl⟩ := ofTruth_map hx
    exact congrArg (Option.map ofTruth) (and?_mono (iha h.1 hq.1 (left hl)).truth
      (ihb h.2 hq.2 (right hl)).truth ht)
  | or a b iha ihb =>
    simp only [Likens, mem_fields_or] at hl
    simp only [isQuiet, Bool.and_eq_true] at hq
    refine follows_of_same fun x hx => ?_
    obtain ⟨t, ht, rfl⟩ := ofTruth_map hx
    exact congrArg (Option.map ofTruth) (or?_mono (iha h.1 hq.1 (left hl)).truth
      (ihb h.2 hq.2 (right hl)).truth ht)
  | not e ih =>
    refine follows_of_same fun x hx => ?_
    obtain ⟨t, ht, rfl⟩ := value?_not hx
    exact congrArg (Option.map fun t => ofTruth (kleeneNot t)) ((ih h hq hl).truth t ht)
  | isValid e ih =>
    refine follows_of_same fun x hx => ?_
    obtain ⟨y, hy, rfl⟩ := value?_isValid hx
    obtain ⟨y', hy', ha, -⟩ := ih h hq hl y hy
    simp [value?, hy', ha.isNull]
  | member e set ih =>
    simp only [isQuiet, Bool.and_eq_true] at hq
    exact follows_member (ih h hq.1 hl) hq.2
  | cast e t ih =>
    refine follows_of_same fun x hx => ?_
    obtain ⟨y, hy, hc⟩ := Option.bind_eq_some_iff.1 hx
    obtain ⟨y', hy', -, hsame⟩ := ih h.1 hq hl y hy
    rw [hsame.resolve_right fun hc => h.2 (hch e hc)] at hc
    simp [value?, hy', hc]

end Expr

end TableScan
