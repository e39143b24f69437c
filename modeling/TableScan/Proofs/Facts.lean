import TableScan.Proofs.Simplification

/-!
Facts that hold of a value: what each conjunct of a guarantee adds holds too, and what the facts
decide of a comparison is so, where bounds and literal do not round the value differently.
-/

namespace TableScan

open Value (ofCell ofScalar ofTruth)

namespace Bound

def lowerOp (b : Bound) : Comparison := if b.inclusive then .ge else .gt

def upperOp (b : Bound) : Comparison := if b.inclusive then .le else .lt

/-- Whether a value compares with the bound as it does with a literal behind the bound. -/
structure Bears (b : Bound) (x : Value) (v : Scalar) : Prop where
  meets : x.meets b.value.type = x.meets v.type
  rounds : ∀ m n k, x.meets v.type = some m → b.value.magnitude? = some n → v.magnitude? = some k →
    exactlyOne m.isFloating n.isFloating k.isFloating = true →
      b.inclusive = k.isFloating ∨ n.isSmall ∨ k.isSmall

end Bound

namespace Facts

theorem ofGuarantee_induction {P : Facts → Prop} {given : Expr} {n : String} (h0 : P none_)
    (h : ∀ c ∈ given.conjuncts, ∀ g, P g → P (add n g c)) : P (ofGuarantee given n) := by
  have run (cs : List Expr) (hcs : ∀ c ∈ cs, ∀ g, P g → P (add n g c)) (g : Facts) (hg : P g) :
      P (cs.foldl (add n) g) := by
    induction cs generalizing g with
    | nil => exact hg
    | cons c cs ih =>
      exact ih (fun d hd => hcs d (List.mem_cons_of_mem c hd)) _ (hcs c List.mem_cons_self g hg)
  exact run _ h _ h0

structure Holds (g : Facts) (x : Value) : Prop where
  value : ∀ v, g.value = some v →
    if v.isNull then x = .null else Value.compare? .eq x (ofScalar v) = some (some true)
  valid : ∀ b, g.valid = some b → x.isNull = !b
  lower : ∀ b, g.lower = some b → Value.compare? b.lowerOp x (ofScalar b.value) = some (some true)
  upper : ∀ b, g.upper = some b → Value.compare? b.upperOp x (ofScalar b.value) = some (some true)
  excluded : ∀ v ∈ g.excluded, Value.compare? .ne x (ofScalar v) = some (some true)

namespace Holds

variable {g : Facts} {x : Value}

theorem of_none (x : Value) : Facts.none_.Holds x where
  value _ h := by cases h
  valid _ h := by cases h
  lower _ h := by cases h
  upper _ h := by cases h
  excluded _ h := absurd h List.not_mem_nil

theorem some_of_orElse {α : Type} {o : Option α} {a b : α} (h : (o <|> some a) = some b) :
    o = some b ∨ a = b := by
  cases o with
  | none => exact .inr (Option.some.inj h)
  | some c => exact .inl h

theorem of_tighten {tighter : Bound → Bound → Bool} {old : Option Bound} {new b : Bound}
    (h : tighten tighter old new = some b) : old = some b ∨ new = b := by
  unfold tighten at h
  split at h
  · exact .inr (Option.some.inj h)
  · split at h
    · exact .inr (Option.some.inj h)
    · exact .inl h

theorem isNull_of_compare? {op : Comparison} {x y : Value}
    (h : Value.compare? op x y = some (some true)) : x.isNull = false ∧ y.isNull = false := by
  cases x with
  | null => cases h
  | of p a =>
    cases y with
    | null => cases h
    | of q b => exact ⟨rfl, rfl⟩

theorem addComparison (h : g.Holds x) {op : Comparison} {v : Scalar}
    (hc : Value.compare? op x (ofScalar v) = some (some true)) :
    (g.addComparison op v).Holds x := by
  have hx := isNull_of_compare? hc
  rw [Value.isNull_ofScalar] at hx
  have hv : ∀ b, (g.valid <|> some true) = some b → x.isNull = !b := by
    intro b hb
    rcases some_of_orElse hb with hb | rfl
    · exact h.valid b hb
    · exact hx.1
  simp only [Facts.addComparison, hx.2, Bool.false_eq_true, ↓reduceIte]
  cases op with
  | eq =>
    refine ⟨fun w hw => ?_, hv, h.lower, h.upper, h.excluded⟩
    rcases some_of_orElse hw with hw | rfl
    · exact h.value w hw
    · simpa [hx.2] using hc
  | ne =>
    refine ⟨h.value, hv, h.lower, h.upper, fun w hw => ?_⟩
    rcases List.mem_append.1 hw with hw | hw
    · exact h.excluded w hw
    · rw [List.mem_singleton.1 hw]
      exact hc
  | lt | le =>
    refine ⟨h.value, hv, h.lower, fun b hb => ?_, h.excluded⟩
    rcases of_tighten hb with hb | rfl
    · exact h.upper b hb
    · exact hc
  | gt | ge =>
    refine ⟨h.value, hv, fun b hb => ?_, h.upper, h.excluded⟩
    rcases of_tighten hb with hb | rfl
    · exact h.lower b hb
    · exact hc

theorem add {ρ : Row} {n : String} (h : g.Holds x) (hn : ρ n = some x) {c : Expr}
    (hc : c.truth? ρ = some (some true)) : (Facts.add n g c).Holds x := by
  have compared {op : Comparison} {a b : Expr} {y z : Value}
      (hc : (Expr.compare op a b).truth? ρ = some (some true)) (ha : a.value? ρ = some y)
      (hb : b.value? ρ = some z) : Value.compare? op y z = some (some true) := by
    obtain ⟨y', z', t, hy, hz, ht, hx⟩ := Expr.value?_compare (Expr.truth?_eq_some hc)
    cases ha.symm.trans hy
    cases hb.symm.trans hz
    rw [ht, Value.ofTruth_injective hx]
  unfold Facts.add
  split
  · rename_i op f v
    split
    · rename_i hf
      subst hf
      exact h.addComparison (compared hc hn rfl)
    · exact h
  · rename_i op v f
    split
    · rename_i hf
      subst hf
      apply h.addComparison
      rw [Value.compare?_flip]
      exact compared hc rfl hn
    · exact h
  · rename_i f
    split
    · rename_i hf
      subst hf
      refine ⟨h.value, fun b hb => ?_, h.lower, h.upper, h.excluded⟩
      rcases some_of_orElse hb with hb | rfl
      · exact h.valid b hb
      · obtain ⟨y, hy, hx⟩ := Expr.value?_isValid (Expr.truth?_eq_some hc)
        cases hn.symm.trans hy
        simpa using Value.ofTruth_injective hx
    · exact h
  · rename_i f
    split
    · rename_i hf
      subst hf
      obtain ⟨t, ht, hx⟩ := Expr.value?_not (Expr.truth?_eq_some hc)
      obtain ⟨y, hy, hx'⟩ := Expr.value?_isValid (Expr.truth?_eq_some ht)
      cases hn.symm.trans hy
      have hnull : x.isNull = true := by
        have := Value.ofTruth_injective hx
        rw [Value.ofTruth_injective hx'] at this
        simpa [kleeneNot] using this
      refine ⟨fun w hw => ?_, fun b hb => ?_, h.lower, h.upper, h.excluded⟩
      · rcases some_of_orElse hw with hw | rfl
        · exact h.value w hw
        · cases x with
          | null => rfl
          | of p a => cases hnull
      · rcases some_of_orElse hb with hb | rfl
        · exact h.valid b hb
        · exact hnull
    · exact h
  · exact h

theorem ofGuarantee {ρ : Row} {n : String} {given : Expr} (hn : ρ n = some x)
    (hc : ∀ c ∈ given.conjuncts, c.truth? ρ = some (some true) ∨ ∀ g, Facts.add n g c = g) :
    (Facts.ofGuarantee given n).Holds x := by
  refine Facts.ofGuarantee_induction (P := fun g => g.Holds x) (of_none x) fun c hmem g h => ?_
  rcases hc c hmem with ht | he
  · exact h.add hn ht
  · rw [he]
    exact h

theorem order?_eq_some {a b : Scalar} {o : Ordering} (h : a.order? b = some o) :
    ∃ m n, a.magnitude? = some m ∧ b.magnitude? = some n ∧ m.compare? n = some o := by
  have hc : a.compare b = .ok (some o) := by
    unfold Scalar.order? at h
    cases hc : a.compare b with
    | error e => simp [hc, Except.toOption] at h
    | ok r => simpa [hc, Except.toOption] using h
  simp only [Scalar.compare] at hc
  split at hc
  · cases hc
  · split at hc
    · rename_i m n hm hn
      split at hc
      · rename_i r hr
        cases hc
        exact ⟨m, n, hm, hn, hr⟩
      · cases hc
    · cases hc

theorem meets_of_true {op : Comparison} {w : Scalar} (hx : x.isPlain) (hq : x.isQuiet)
    (hw : (ofScalar w).isQuiet) (h : Value.compare? op x (ofScalar w) = some (some true)) :
    ∃ m n p, x.meets w.type = some m ∧ w.magnitude? = some n ∧ m.compare? n = some p ∧
      op.holds p = true := by
  have hnull := isNull_of_compare? h
  obtain ⟨q, value⟩ := w
  cases value with
  | none => cases hnull.2
  | some b =>
    cases hn : Scalar.magnitude? ⟨q, some b⟩ with
    | none =>
      cases q <;> first | exact Empty.elim b | cases hn
    | some n =>
      have hc := Value.compared h hnull.1 hx hn fun _ _ => ⟨hq, hw⟩
      cases hm : x.meets q with
      | none => cases hc.unknown hm
      | some m =>
        obtain ⟨p, hp, ht⟩ := hc.known hm
        exact ⟨m, n, p, rfl, rfl, hp, (Option.some.inj ht).symm⟩

theorem chained {op : Comparison} {b : Bound} {v : Scalar} {m k : Magnitude} {o r side : Ordering}
    (hx : x.isPlain) (hq : x.isQuiet) (hw : (ofScalar b.value).isQuiet) (hb : b.Bears x v)
    (h : Value.compare? op x (ofScalar b.value) = some (some true)) (hs : side ≠ .eq)
    (hop : ∀ p, op.holds p = true → p = side ∨ p = .eq ∧ b.inclusive = true)
    (hm : x.meets v.type = some m) (hk : v.magnitude? = some k) (hr : m.compare? k = some r)
    (ho : b.value.order? v = some o) : Chained side b.inclusive o r := by
  obtain ⟨m', n, p, hm', hn, hp, ht⟩ := meets_of_true hx hq hw h
  cases (hb.meets.trans hm).symm.trans hm'
  obtain ⟨n', k', hn', hk', ho'⟩ := order?_eq_some ho
  cases hn.symm.trans hn'
  cases hk.symm.trans hk'
  exact Magnitude.chained hp ho' hr hs (hb.rounds m n k hm hn hk) (hop p ht)

end Holds

def bounds (g : Facts) : List Bound :=
  g.lower.toList ++ g.upper.toList ++ g.excluded.map fun v => ⟨v, false⟩

theorem isNull_of_decide {g : Facts} {op : Comparison} {v : Scalar} {r : Bool}
    (h : g.decide op v = some r) : v.isNull = false := by
  by_contra hn
  rw [decide, if_pos (by simpa using hn)] at h
  cases h

/-- Where a field lies relative to a literal, as far as the facts know. -/
structure Located (g : Facts) (v : Scalar) (r : Ordering) : Prop where
  above : g.lower.any (Bound.beyond .gt v) = true → r = .gt
  atLeast : g.lower.any (Bound.reaches .gt v) = true → r = .gt ∨ r = .eq
  below : g.upper.any (Bound.beyond .lt v) = true → r = .lt
  atMost : g.upper.any (Bound.reaches .lt v) = true → r = .lt ∨ r = .eq
  excluded : g.excluded.any (fun e => e.order? v = some .eq) = true → r ≠ .eq

theorem Located.decide {g : Facts} {v : Scalar} {o : Ordering} (h : g.Located v o) {op : Comparison}
    {r : Bool} (hd : g.decide op v = some r) : op.holds o = r := by
  unfold Facts.decide at hd
  split at hd
  · cases hd
  · have he := h.excluded
    have ha := h.above
    have hl := h.atLeast
    have hb := h.below
    have hm := h.atMost
    simp only at hd
    generalize g.excluded.any (fun e => e.order? v = some .eq) = excluded at hd he
    generalize g.lower.any (Bound.beyond .gt v) = above at hd ha
    generalize g.lower.any (Bound.reaches .gt v) = atLeast at hd hl
    generalize g.upper.any (Bound.beyond .lt v) = below at hd hb
    generalize g.upper.any (Bound.reaches .lt v) = atMost at hd hm
    cases op <;> cases o <;> simp_all [Comparison.holds]
    -- an excluded value or a bound beyond the literal decides equality where the order is strict
    all_goals
      split at hd
      · cases hd
        rfl
      · split at hd <;> cases hd
        rfl

namespace Holds

variable {g : Facts} {x : Value}

theorem lowerOp_holds (b : Bound) {p : Ordering} (h : b.lowerOp.holds p = true) :
    p = .gt ∨ p = .eq ∧ b.inclusive = true := by
  obtain ⟨value, inclusive⟩ := b
  cases inclusive <;> cases p <;> simp_all [Bound.lowerOp, Comparison.holds]

theorem upperOp_holds (b : Bound) {p : Ordering} (h : b.upperOp.holds p = true) :
    p = .lt ∨ p = .eq ∧ b.inclusive = true := by
  obtain ⟨value, inclusive⟩ := b
  cases inclusive <;> cases p <;> simp_all [Bound.upperOp, Comparison.holds]

theorem beyond_iff {side : Ordering} {v : Scalar} {b : Bound} (h : b.beyond side v = true) :
    ∃ o, b.value.order? v = some o ∧ (o = side ∨ o = .eq ∧ b.inclusive = false) := by
  unfold Bound.beyond at h
  split at h
  · rename_i o ho
    refine ⟨o, ho, ?_⟩
    simpa using h
  · cases h

theorem reaches_iff {side : Ordering} {v : Scalar} {b : Bound} (h : b.reaches side v = true) :
    ∃ o, b.value.order? v = some o ∧ (o = side ∨ o = .eq) := by
  unfold Bound.reaches at h
  split at h
  · rename_i o ho
    refine ⟨o, ho, ?_⟩
    simpa using h
  · cases h

theorem located {v : Scalar} {m k : Magnitude} {o : Ordering} (h : g.Holds x) (hx : x.isPlain)
    (hb : ∀ b ∈ g.bounds, b.Bears x v ∧ (ofScalar b.value).isQuiet ∧ x.isQuiet)
    (hm : x.meets v.type = some m) (hk : v.magnitude? = some k) (ho : m.compare? k = some o) :
    g.Located v o := by
  have lower (b : Bound) (hl : g.lower = some b) {p : Ordering} (hp : b.value.order? v = some p) :
      Chained .gt b.inclusive p o := by
    obtain ⟨hbear, hw, hq⟩ := hb b (by simp [bounds, hl])
    exact chained hx hq hw hbear (h.lower b hl) nofun (fun p => lowerOp_holds b) hm hk ho hp
  have upper (b : Bound) (hu : g.upper = some b) {p : Ordering} (hp : b.value.order? v = some p) :
      Chained .lt b.inclusive p o := by
    obtain ⟨hbear, hw, hq⟩ := hb b (by simp [bounds, hu])
    exact chained hx hq hw hbear (h.upper b hu) nofun (fun p => upperOp_holds b) hm hk ho hp
  refine ⟨fun ha => ?_, fun ha => ?_, fun ha => ?_, fun ha => ?_, fun ha => ?_⟩
  · obtain ⟨b, hl, hv⟩ := (Option.any_eq_true _ _).1 ha
    obtain ⟨p, hp, hside⟩ := beyond_iff hv
    exact (lower b hl hp).beyond hside
  · obtain ⟨b, hl, hv⟩ := (Option.any_eq_true _ _).1 ha
    obtain ⟨p, hp, hside⟩ := reaches_iff hv
    exact (lower b hl hp).reaches hside
  · obtain ⟨b, hu, hv⟩ := (Option.any_eq_true _ _).1 ha
    obtain ⟨p, hp, hside⟩ := beyond_iff hv
    exact (upper b hu hp).beyond hside
  · obtain ⟨b, hu, hv⟩ := (Option.any_eq_true _ _).1 ha
    obtain ⟨p, hp, hside⟩ := reaches_iff hv
    exact (upper b hu hp).reaches hside
  · obtain ⟨e, he, hv⟩ := List.any_eq_true.1 ha
    rw [decide_eq_true_eq] at hv
    obtain ⟨hbear, hw, hq⟩ := hb ⟨e, false⟩ (by simp [bounds, he])
    obtain ⟨m', n, p, hm', hn, hp, ht⟩ := meets_of_true hx hq hw (h.excluded e he)
    obtain ⟨n', k', hn', hk', ho'⟩ := order?_eq_some hv
    cases (hbear.meets.trans hm).symm.trans hm'
    cases hn.symm.trans hn'
    cases hk.symm.trans hk'
    exact Magnitude.ne_of_eq hp ho' ho (fun hr => (hbear.rounds m n k hm hn hk hr).imp_left Eq.symm)
      (by simpa [Comparison.holds] using ht) rfl

theorem compare_bound {b : Bound} (h : g.Holds x) (hb : b ∈ g.bounds) :
    ∃ op, Value.compare? op x (ofScalar b.value) = some (some true) := by
  simp only [bounds, List.mem_append, Option.mem_toList, List.mem_map] at hb
  rcases hb with (hl | hu) | ⟨e, he, rfl⟩
  · exact ⟨_, h.lower b hl⟩
  · exact ⟨_, h.upper b hu⟩
  · exact ⟨_, h.excluded e he⟩

theorem isNull_bound {b : Bound} (h : g.Holds x) (hb : b ∈ g.bounds) : b.value.isNull = false := by
  obtain ⟨op, htrue⟩ := h.compare_bound hb
  rw [← Value.isNull_ofScalar]
  exact (isNull_of_compare? htrue).2

theorem decide_eq_none {op : Comparison} {v : Scalar}
    (h : ∀ b ∈ g.bounds, b.value.order? v = none) :
    g.decide op v = none := by
  have never {o : Option Bound} (ho : ∀ b, o = some b → b ∈ g.bounds) (side : Ordering) :
      o.any (Bound.beyond side v) = false ∧ o.any (Bound.reaches side v) = false := by
    cases o with
    | none => exact ⟨rfl, rfl⟩
    | some b => simp [Bound.beyond, Bound.reaches, h b (ho b rfl)]
  have hl := never (o := g.lower) fun b hb => by simp [bounds, hb]
  have hu := never (o := g.upper) fun b hb => by simp [bounds, hb]
  have he : g.excluded.any (fun e => e.order? v = some .eq) = false := by
    refine List.any_eq_false.2 fun e hmem => ?_
    simp [h ⟨e, false⟩ (by simp [bounds, hmem])]
  unfold Facts.decide
  split
  · rfl
  · simp only [he, hl, hu]
    cases op <;> rfl

theorem decide_none (op : Comparison) (v : Scalar) : none_.decide op v = none :=
  decide_eq_none fun _ hb => absurd hb List.not_mem_nil

theorem decide {op : Comparison} {v : Scalar} {r : Bool} {t : Option Bool} (h : g.Holds x)
    (hx : x.isPlain) (hv : ∀ a, x = .of (.scalar v.type) a → (ofScalar v).isQuiet)
    (hb : ∀ b ∈ g.bounds, b.Bears x v ∧ (ofScalar b.value).isQuiet ∧ x.isQuiet)
    (hd : g.decide op v = some r)
    (ht : Value.compare? op x (ofScalar v) = some t) : t = some r := by
  cases hbs : g.bounds with
  | nil => rw [decide_eq_none (by simp [hbs])] at hd; cases hd
  | cons b bs =>
    have mem : b ∈ g.bounds := by simp [hbs]
    obtain ⟨hbear, hw, hq⟩ := hb b mem
    obtain ⟨bop, htrue⟩ := h.compare_bound mem
    obtain ⟨m, n, p, hm, -, -, -⟩ := meets_of_true hx hq hw htrue
    rw [hbear.meets] at hm
    obtain ⟨q, value⟩ := v
    cases value with
    | none => cases hd
    | some a =>
      cases hk : Scalar.magnitude? ⟨q, some a⟩ with
      | none => cases q <;> first | exact Empty.elim a | cases hk
      | some k =>
        have hc := Value.compared ht (isNull_of_compare? htrue).1 hx hk fun a he => ⟨hq, hv a he⟩
        obtain ⟨o, ho, rfl⟩ := hc.known hm
        exact congrArg some ((h.located hx hb hm hk ho).decide hd)

end Holds

inductive Tells (n : String) : Expr → Comparison → Scalar → Prop
  | left {op : Comparison} {v : Scalar} : Tells n (.compare op (.field n) (.lit v)) op v
  | right {op : Comparison} {v : Scalar} : Tells n (.compare op (.lit v) (.field n)) op.flip v
  | absent : Tells n (.not (.isValid (.field n))) .eq .null

section Origin

variable {g : Facts} {n : String} {c : Expr} {op : Comparison} {v w : Scalar} {b : Bound}

theorem mem_bounds : b ∈ g.bounds ↔
    g.lower = some b ∨ g.upper = some b ∨ b.value ∈ g.excluded ∧ b.inclusive = false := by
  simp only [bounds, List.mem_append, Option.mem_toList, List.mem_map, or_assoc]
  refine or_congr_right (or_congr_right ⟨?_, fun h => ⟨b.value, h.1, by rw [← h.2]⟩⟩)
  rintro ⟨e, he, rfl⟩
  exact ⟨he, rfl⟩

theorem value_addComparison (h : (g.addComparison op v).value = some w) :
    g.value = some w ∨ op = .eq ∧ v = w := by
  unfold addComparison at h
  split at h
  · exact .inl h
  · cases op with
    | eq => exact (Holds.some_of_orElse h).imp_right fun h => ⟨rfl, h⟩
    | _ => exact .inl h

theorem bound_addComparison (h : b ∈ (g.addComparison op v).bounds) : b ∈ g.bounds ∨
    v = b.value ∧ v.isNull = false ∧ op ≠ .eq ∧ (b.inclusive = true ↔ op = .le ∨ op = .ge) := by
  unfold addComparison at h
  split at h
  · exact .inl h
  · rename_i hv
    have hv : v.isNull = false := by simpa using hv
    simp only [mem_bounds] at h ⊢
    cases op with
    | eq => exact .inl h
    | ne =>
      rcases h with h | h | ⟨h, hi⟩
      · exact .inl (.inl h)
      · exact .inl (.inr (.inl h))
      · rcases List.mem_append.1 h with h | h
        · exact .inl (.inr (.inr ⟨h, hi⟩))
        · exact .inr ⟨(List.mem_singleton.1 h).symm, hv, nofun, by simp [hi]⟩
    | lt | le =>
      rcases h with h | h | h
      · exact .inl (.inl h)
      · rcases Holds.of_tighten h with h | rfl
        · exact .inl (.inr (.inl h))
        · exact .inr ⟨rfl, hv, nofun, by simp⟩
      · exact .inl (.inr (.inr h))
    | gt | ge =>
      rcases h with h | h | h
      · rcases Holds.of_tighten h with h | rfl
        · exact .inl (.inl h)
        · exact .inr ⟨rfl, hv, nofun, by simp⟩
      · exact .inl (.inr (.inl h))
      · exact .inl (.inr (.inr h))

theorem value_add (h : (add n g c).value = some v) : g.value = some v ∨ Tells n c .eq v := by
  unfold add at h
  split at h
  · split at h
    · rename_i hf
      subst hf
      refine (value_addComparison h).imp_right ?_
      rintro ⟨rfl, rfl⟩
      exact .left
    · exact .inl h
  · rename_i op' _ _
    split at h
    · rename_i hf
      subst hf
      refine (value_addComparison h).imp_right ?_
      rintro ⟨hop, rfl⟩
      rw [← hop]
      exact .right
    · exact .inl h
  · split at h <;> exact .inl h
  · split at h
    · rename_i hf
      subst hf
      refine (Holds.some_of_orElse h).imp_right ?_
      rintro rfl
      exact .absent
    · exact .inl h
  · exact .inl h

theorem bound_add (h : b ∈ (add n g c).bounds) : b ∈ g.bounds ∨
    ∃ op, Tells n c op b.value ∧ b.value.isNull = false ∧ op ≠ .eq ∧
      (b.inclusive = true ↔ op = .le ∨ op = .ge) := by
  unfold add at h
  split at h
  · split at h
    · rename_i hf
      subst hf
      refine (bound_addComparison h).imp_right ?_
      rintro ⟨rfl, hv, hop, hi⟩
      exact ⟨_, .left, hv, hop, hi⟩
    · exact .inl h
  · split at h
    · rename_i hf
      subst hf
      refine (bound_addComparison h).imp_right ?_
      rintro ⟨rfl, hv, hop, hi⟩
      exact ⟨_, .right, hv, hop, hi⟩
    · exact .inl h
  · split at h <;> exact .inl h
  · split at h <;> exact .inl h
  · exact .inl h

theorem tells_value {given : Expr} (h : (ofGuarantee given n).value = some v) :
    ∃ c ∈ given.conjuncts, Tells n c .eq v := by
  revert h
  refine ofGuarantee_induction (P := fun g => g.value = some v → _) (fun h => by cases h) ?_
  intro c hc g hg h
  rcases value_add h with h | h
  · exact hg h
  · exact ⟨c, hc, h⟩

theorem tells_bound {given : Expr} (h : b ∈ (ofGuarantee given n).bounds) :
    ∃ c ∈ given.conjuncts, ∃ op, Tells n c op b.value ∧ b.value.isNull = false ∧ op ≠ .eq ∧
      (b.inclusive = true ↔ op = .le ∨ op = .ge) := by
  revert h
  refine ofGuarantee_induction (P := fun g => b ∈ g.bounds → _)
    (fun h => absurd h List.not_mem_nil) ?_
  intro c hc g hg h
  rcases bound_add h with h | h
  · exact hg h
  · exact ⟨c, hc, h⟩

theorem tells_boundTo? {e : Expr} (h : e.boundTo? n = some v) :
    ∃ c ∈ e.conjuncts, Tells n c .eq v := by
  obtain ⟨c, hc, hb⟩ := List.mem_filterMap.1 (mem_of_lookup h)
  refine ⟨c, hc, ?_⟩
  unfold Expr.binding? at hb
  split at hb <;> cases hb
  · exact .left
  · exact .right
  · exact .absent

theorem Tells.isQuiet (h : Tells n c op v) (hc : c.isQuiet) : (ofScalar v).isQuiet := by
  cases h with
  | left => exact (Bool.and_eq_true_iff.1 hc).2
  | right => exact (Bool.and_eq_true_iff.1 hc).1
  | absent => rfl

end Origin

end Facts

end TableScan
