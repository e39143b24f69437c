import TableScan.Proofs.Folding
import TableScan.Proofs.Residuals

namespace TableScan

open Value (ofScalar ofTruth)

/-- Whether facts describe every row of a batch, and fix no field but to null. -/
structure Batch.Upholds (b : Batch) (facts : String → Facts) : Prop where
  null : ∀ n a, (facts n).value = some a → a = .null
  rows : ∀ i < b.rows, ∀ n x, b.row i n = some x → (facts n).Describes (fun _ => True) x

namespace Operand

variable {v w : Operand} {t : DataType} {i : Nat}

theorem castTo_null (h : v.castTo t = .ok w) (hv : v.at? i = some .null) :
    w.at? i = some .null := by
  cases v with
  | scalar s =>
    obtain ⟨s', hs, h⟩ := bind_eq_ok.1 h
    cases h
    have hcast := Value.cast?_ofScalar hs
    rw [Option.some.inj hv] at hcast
    exact hcast.symm
  | column c =>
    obtain ⟨d, hd, h⟩ := bind_eq_ok.1 h
    cases h
    obtain ⟨type, cells⟩ := c
    obtain ⟨new, hnew, rfl⟩ := map_eq_ok.1 (mapError_eq_ok.1 hd)
    obtain ⟨cell, hcell, hnull⟩ := Option.map_eq_some_iff.1 hv
    obtain rfl : cell = none := by
      have := congrArg Value.isNull hnull
      rw [Value.isNull_ofCell] at this
      exact Option.isNone_iff_eq_none.1 this
    unfold Column.castCells at hnew
    split at hnew
    · rename_i ht
      subst ht
      cases hnew
      exact congrArg (Option.map _) hcell
    · split at hnew
      · cases hnew
      · obtain ⟨y, hy, hc⟩ := mapM_getElem? (mapError_eq_ok.1 hnew) hcell
        cases hc
        exact congrArg (Option.map _) hy

end Operand

namespace Expr

open Operand

variable {b : Batch} {facts : String → Facts} {e s x y x' y' : Expr} {v v₁ v₂ : Operand}
  {a c : Scalar} {set : List Scalar} {t : DataType} {op : Comparison}

def BecomesKnown (b : Batch) (facts : String → Facts) (e : Expr) (a : Scalar) : Prop :=
  (∃ c, e.operand b = .ok (.column c)) ∧ e.simplifyWith facts = .ok (lit a)

/--
Whether casts of columns, and comparisons behind them, do the same once simplification makes
literals of the columns: what is cast to single precision is not compared with signalling NaNs, and
what is in a dictionary is not repacked into another.
-/
structure KnownAlike (b : Batch) (facts : String → Facts) (e : Expr) : Prop where
  quiet : (∀ c ∈ e.casts, c.2.plain = .float32 → ∀ a, ¬c.1.BecomesKnown b facts a) ∨ e.isQuiet
  packed : ∀ c ∈ e.casts, ∀ a, c.1.BecomesKnown b facts a → a.isNull = false →
    c.1.isEncoded b.schema →
    c.2.isRepacked = false

theorem KnownAlike.part (h : e.KnownAlike b facts) (hc : ∀ c ∈ x.casts, c ∈ e.casts)
    (hq : e.isQuiet → x.isQuiet) :
    x.KnownAlike b facts :=
  ⟨h.quiet.imp (fun hn c hm => hn c (hc c hm)) hq, fun c hm => h.packed c (hc c hm)⟩

theorem KnownAlike.left (h : e.KnownAlike b facts) (hc : e.casts = x.casts ++ y.casts)
    (hq : e.isQuiet = (x.isQuiet && y.isQuiet)) : x.KnownAlike b facts :=
  h.part (fun _ hm => hc ▸ List.mem_append_left _ hm) fun h => (Bool.and_eq_true_iff.1 (hq ▸ h)).1

theorem KnownAlike.right (h : e.KnownAlike b facts) (hc : e.casts = x.casts ++ y.casts)
    (hq : e.isQuiet = (x.isQuiet && y.isQuiet)) : y.KnownAlike b facts :=
  h.part (fun _ hm => hc ▸ List.mem_append_right _ hm) fun h => (Bool.and_eq_true_iff.1 (hq ▸ h)).2

/-- A literal that is left of an expression, and the value of the expression. -/
structure Known (b : Batch) (facts : String → Facts) (e : Expr) (v : Operand)
    (a : Scalar) : Prop where
  same : v.Same b.rows (.scalar a)
  kind : v = .scalar a ∨ (v.IsSingle → v.type = .boolean) ∧
    (a.dataType = .float32 → ∃ c ∈ e.casts, c.2.plain = .float32 ∧ ∃ a, c.1.BecomesKnown b facts a)

/-- What is left of an expression over a batch, as far as it is a literal or a field. -/
structure Left (b : Batch) (facts : String → Facts) (e s : Expr) (v : Operand) : Prop where
  value : e.operand b = .ok v
  left : e.simplifyWith facts = .ok s
  field : ∀ n, s = .field n → ¬v.IsSingle ∧ ∀ i < b.rows, v.at? i = b.row i n
  lit : ∀ a, s = .lit a → Known b facts e v a

namespace Known

theorem refl (a : Scalar) : Known b facts e (.scalar a) a := ⟨.refl _, .inl rfl⟩

theorem of_truths {r : Option Bool} (hv : v.type = .boolean)
    (h : ∀ i < b.rows, v.at? i = some (ofTruth r)) :
    Known b facts e v (.ofTruth r) :=
  ⟨h, .inr ⟨fun _ => hv, nofun⟩⟩

theorem of_same {r : Option Bool} (hv : v.type = .boolean)
    (h : v.Same b.rows (.scalar (.ofTruth r))) :
    Known b facts e v (.ofTruth r) := of_truths hv h

theorem ne_float32 (h : Known b facts e v a)
    (hc : ∀ c ∈ e.casts, c.2.plain = .float32 → ∀ a, ¬c.1.BecomesKnown b facts a) :
    v = .scalar a ∨ (∀ s, v = .scalar s → s.dataType ≠ .float32) ∧
      ∀ s, Operand.scalar a = .scalar s → s.dataType ≠ .float32 := by
  refine h.kind.imp_right fun ⟨hv, ha⟩ => ⟨?_, ?_⟩
  · rintro s rfl hs
    cases hs.symm.trans (hv trivial)
  · rintro _ ⟨⟩ hs
    obtain ⟨c, hmem, ht, a', hbecomes⟩ := ha hs
    exact hc c hmem ht a' hbecomes

end Known

namespace Left

theorem fills (h : Left b facts e s v) : v.Fills b.rows := fills_operand h.value

theorem isQuiet (h : Left b facts e (.lit a) v) (hb : b.Upholds facts) (hq : e.isQuiet) :
    v.isQuiet ∧ (Operand.scalar a).isQuiet := by
  refine ⟨isQuiet_operand h.value hq, (simplified_of_ok h.left).isQuiet (fun n a ha => ?_) hq⟩
  rw [hb.null n a ha]
  rfl

theorem calm (h₁ : Left b facts x (.lit a) v₁) (h₂ : Left b facts y (.lit c) v₂)
    (hb : b.Upholds facts) (hk : (Expr.compare op x y).KnownAlike b facts) :
    (v₁ = .scalar a ∧ v₂ = .scalar c) ∨ (v₁.Calm v₂ ∧ (Operand.scalar a).Calm (.scalar c)) := by
  rcases hk.quiet with hc | hq
  · rw [casts, List.forall_mem_append] at hc
    obtain hv₁ | ⟨hv, ha⟩ := (h₁.lit a rfl).ne_float32 hc.1
    · obtain hv₂ | ⟨hv, ha⟩ := (h₂.lit c rfl).ne_float32 hc.2
      · exact .inl ⟨hv₁, hv₂⟩
      · exact .inr ⟨calm_of_ne (.inr hv), calm_of_ne (.inr ha)⟩
    · exact .inr ⟨calm_of_ne (.inl hv), calm_of_ne (.inl ha)⟩
  · obtain ⟨hv₁, ha⟩ := h₁.isQuiet hb (Bool.and_eq_true_iff.1 hq).1
    obtain ⟨hv₂, hc⟩ := h₂.isQuiet hb (Bool.and_eq_true_iff.1 hq).2
    exact .inr ⟨calm_of_isQuiet hv₁ hv₂, calm_of_isQuiet ha hc⟩

theorem calm_member (h : Left b facts x (.lit a) v₁) (hb : b.Upholds facts)
    (hk : (Expr.member x set).KnownAlike b facts) :
    v₁ = .scalar a ∨ ∀ s ∈ set, v₁.Calm (.scalar s) ∧ (Operand.scalar a).Calm (.scalar s) := by
  rcases hk.quiet with hc | hq
  · exact ((h.lit a rfl).ne_float32 hc).imp_right fun ⟨hv, ha⟩ s _ =>
      ⟨calm_of_ne (.inl hv), calm_of_ne (.inl ha)⟩
  · obtain ⟨hx, hset⟩ := Bool.and_eq_true_iff.1 hq
    obtain ⟨hv, ha⟩ := h.isQuiet hb hx
    rw [List.all_eq_true] at hset
    exact .inr fun s hmem => ⟨calm_of_isQuiet hv (hset s hmem), calm_of_isQuiet ha (hset s hmem)⟩

theorem calm_of_field {n : String} (h : Left b facts x (.field n) v) (w : Operand) :
    v.Calm w ∧ w.Calm v := by
  refine ⟨?_, ?_⟩
  · rintro a c rfl
    exact absurd trivial (h.field n rfl).1
  · rintro a c - rfl
    exact absurd trivial (h.field n rfl).1

theorem describes {n : String} (h : Left b facts x (.field n) v) (hb : b.Upholds facts) {i : Nat}
    (hi : i < b.rows) :
    ∃ z, v.at? i = some z ∧ (facts n).value = none ∧ (facts n).Describes (fun _ => True) z := by
  obtain ⟨z, hz⟩ := h.fills.at? hi
  have hnone := ((simplified_of_ok h.left).fields_subset (mem_fields_field.2 rfl)).2
  exact ⟨z, hz, hnone, hb.rows i hi n z (((h.field n rfl).2 i hi).symm.trans hz)⟩

theorem literal (hvalue : e.operand b = .ok (.scalar a))
    (hleft : e.simplifyWith facts = .ok (.lit a)) :
    Left b facts e (.lit a) (.scalar a) where
  value := hvalue
  left := hleft
  field _ hn := by cases hn
  lit _ ha := by
    cases ha
    exact .refl _

theorem name {n : String} (hb : b.Upholds facts) (hv : (Expr.field n).operand b = .ok v)
    (hs : (Expr.field n).simplifyWith facts = .ok s) : Left b facts (Expr.field n) s v := by
  obtain ⟨c, hc, rfl⟩ := operand_field_eq_ok hv
  have row (i : Nat) : b.row i n = c.value? i := by
    rw [Batch.row, hc]
    rfl
  cases hvalue : (facts n).value with
  | none =>
    obtain rfl : Expr.field n = s := by simpa [simplifyWith, hvalue] using hs
    refine ⟨hv, hs, ?_, ?_⟩ <;> rintro _ ⟨⟩
    exact ⟨id, fun i _ => (row i).symm⟩
  | some a =>
    obtain rfl : Expr.lit a = s := by simpa [simplifyWith, hvalue] using hs
    refine ⟨hv, hs, ?_, ?_⟩ <;> rintro _ ⟨⟩
    refine ⟨fun i hi => ?_, .inr ⟨False.elim, fun hfloat => ?_⟩⟩
    · obtain ⟨z, hz⟩ := (fills_operand hv).at? hi
      rw [hz, (hb.rows i hi n z ((row i).trans hz)).value a hvalue]
      rfl
    · rw [hb.null n a hvalue] at hfloat
      cases hfloat

theorem compare (h₁ : Left b facts x x' v₁) (h₂ : Left b facts y y' v₂) (hb : b.Upholds facts)
    (hv : Operand.compareWith op b.rows v₁ v₂ = .ok v)
    (hs : simplifyComparison facts op x' y' = .ok s)
    (hk : (Expr.compare op x y).KnownAlike b facts) : Left b facts (Expr.compare op x y) s v where
  value := bind_eq_ok.2 ⟨v₁, h₁.value, bind_eq_ok.2 ⟨v₂, h₂.value, hv⟩⟩
  left := bind_eq_ok.2 ⟨x', h₁.left, bind_eq_ok.2 ⟨y', h₂.left, hs⟩⟩
  field n hn := by
    subst hn
    obtain ⟨_, hn⟩ | ⟨hn, -⟩ := simplifyComparison_cases hs <;> cases hn
  lit r hr := by
    subst hr
    have htype := type_compareWith hv
    unfold simplifyComparison at hs
    split at hs
    · rename_i a c
      obtain ⟨o, ho, hs⟩ := bind_eq_ok.1 hs
      cases hs
      have hw : Operand.compareWith op b.rows (.scalar a) (.scalar c) =
          .ok (.scalar (.ofTruth (o.map op.holds))) :=
        bind_eq_ok.2 ⟨o, ho, rfl⟩
      obtain ⟨rfl, rfl⟩ | ⟨hcalm, hcalm'⟩ := h₁.calm h₂ hb hk
      · cases hv.symm.trans hw
        exact .refl _
      · exact .of_same htype
          ((h₁.lit a rfl).same.compareWith (h₂.lit c rfl).same h₁.fills h₂.fills hv hw hcalm hcalm')
    · rename_i n c
      split at hs <;> cases hs
      rename_i r hr
      refine .of_truths htype fun i hi => ?_
      obtain ⟨z, hz, hnone, hdescribes⟩ := h₁.describes hb hi
      obtain ⟨u, hu, hi⟩ :=
        compareWith_at? hv hi hz ((h₂.lit c rfl).same i hi) (h₁.calm_of_field v₂).1
      rw [hi, hdescribes.decide hnone op c r u trivial hr hu]
    · rename_i c n
      split at hs <;> cases hs
      rename_i r hr
      refine .of_truths htype fun i hi => ?_
      obtain ⟨z, hz, hnone, hdescribes⟩ := h₂.describes hb hi
      obtain ⟨u, hu, hi⟩ :=
        compareWith_at? hv hi ((h₁.lit c rfl).same i hi) hz (h₂.calm_of_field v₁).2
      rw [← Value.compare?_flip] at hu
      rw [hi, hdescribes.decide hnone op.flip c r u trivial hr hu]
    · cases hs

section Connectives

variable {z : Bool} {g : Option Bool → Option Bool → Option Bool} {join : Expr → Expr → Expr}

theorem of_truth {r : Option Bool} {i : Nat} (h : Left b facts x (ofBool z) v) (hi : i < b.rows)
    (hr : v.at? i = some (ofTruth r)) : r = some z :=
  Value.ofTruth_injective (Option.some.inj (hr.symm.trans ((h.lit _ rfl).same i hi)))

theorem of_side (h : Left b facts x s v₁) (hvalue : e.operand b = .ok v)
    (hleft : e.simplifyWith facts = .ok s) (htype : v.type = .boolean)
    (htruth : isTruthType v₁.type) (hsingle : v.IsSingle → v₁.IsSingle) (hsame : v.Same b.rows v₁)
    (hc : ∀ c ∈ x.casts, c ∈ e.casts) : Left b facts e s v where
  value := hvalue
  left := hleft
  field n hn := by
    obtain ⟨hs, hrow⟩ := h.field n hn
    exact ⟨mt hsingle hs, fun i hi => (hsame i hi).trans (hrow i hi)⟩
  lit a ha := by
    have hknown := h.lit a ha
    refine ⟨fun i hi => (hsame i hi).trans (hknown.same i hi),
      .inr ⟨fun _ => htype, fun hfloat => ?_⟩⟩
    obtain rfl | ⟨-, hkind⟩ := hknown.kind
    · rw [show (Operand.scalar a).type = .float32 from hfloat] at htruth
      cases htruth
    · obtain ⟨c, hmem, hc'⟩ := hkind hfloat
      exact ⟨c, hc c hmem, hc'⟩

theorem connect (hg : Absorbs z g) (hj : Joined z g join x' y' s) (h₁ : Left b facts x x' v₁)
    (h₂ : Left b facts y y' v₂) (hv : Operand.combine g b.rows v₁ v₂ = .ok v)
    (hvalue : e.operand b = .ok v) (hleft : e.simplifyWith facts = .ok s)
    (hcasts : e.casts = x.casts ++ y.casts)
    (hjoin : ∀ a n, join x' y' ≠ .lit a ∧ join x' y' ≠ .field n) : Left b facts e s v := by
  have htype : v.type = .boolean := type_combine hv
  have htruth := isTruthType_of_combine hv
  have hsingle := single_combine hv
  have row {i : Nat} (hi : i < b.rows) := combine_row hv h₁.fills h₂.fills hi
  cases hj with
  | absorbed hz =>
    refine ⟨hvalue, hleft, nofun, ?_⟩
    rintro _ ⟨⟩
    refine .of_truths htype fun i hi => ?_
    obtain ⟨r, t, hr, ht, hu⟩ := row hi
    obtain rfl | rfl := hz
    · rw [hu, h₁.of_truth hi hr, hg.decided_left]
    · rw [hu, h₂.of_truth hi ht, hg.decided_right]
  | left hz =>
    subst hz
    refine h₁.of_side hvalue hleft htype htruth.1 (fun hs => (hsingle.1 hs).1)
      (fun i hi => ?_) fun c hc => ?_
    · obtain ⟨r, t, hr, ht, hu⟩ := row hi
      rw [hu, h₂.of_truth hi ht, hg.neutral_right, hr]
    · exact hcasts ▸ List.mem_append_left _ hc
  | right hz =>
    subst hz
    refine h₂.of_side hvalue hleft htype htruth.2 (fun hs => (hsingle.1 hs).2)
      (fun i hi => ?_) fun c hc => ?_
    · obtain ⟨r, t, hr, ht, hu⟩ := row hi
      rw [hu, h₁.of_truth hi hr, hg.neutral_left, ht]
    · exact hcasts ▸ List.mem_append_right _ hc
  | @lits a c r t hx hy hr ht =>
    refine ⟨hvalue, hleft, nofun, ?_⟩
    rintro _ ⟨⟩
    exact .of_same htype ((h₁.lit a hx).same.combine (h₂.lit c hy).same h₁.fills h₂.fills hv
      (combine_scalars b.rows hr ht))
  | kept => exact ⟨hvalue, hleft, fun n hn => absurd hn (hjoin .null n).2,
      fun a ha => absurd ha (hjoin a "").1⟩

theorem and (h₁ : Left b facts x x' v₁) (h₂ : Left b facts y y' v₂)
    (hv : Operand.combine kleeneAnd b.rows v₁ v₂ = .ok v) (hs : simplifyAnd x' y' = .ok s) :
    Left b facts (Expr.and x y) s v :=
  .connect absorbs_kleeneAnd (joined_simplifyAnd hs) h₁ h₂ hv
    (bind_eq_ok.2 ⟨v₁, h₁.value, bind_eq_ok.2 ⟨v₂, h₂.value, hv⟩⟩)
    (bind_eq_ok.2 ⟨x', h₁.left, bind_eq_ok.2 ⟨y', h₂.left, hs⟩⟩) rfl fun _ _ => ⟨nofun, nofun⟩

theorem or (h₁ : Left b facts x x' v₁) (h₂ : Left b facts y y' v₂)
    (hv : Operand.combine kleeneOr b.rows v₁ v₂ = .ok v) (hs : simplifyOr x' y' = .ok s) :
    Left b facts (Expr.or x y) s v :=
  .connect absorbs_kleeneOr (joined_simplifyOr hs) h₁ h₂ hv
    (bind_eq_ok.2 ⟨v₁, h₁.value, bind_eq_ok.2 ⟨v₂, h₂.value, hv⟩⟩)
    (bind_eq_ok.2 ⟨x', h₁.left, bind_eq_ok.2 ⟨y', h₂.left, hs⟩⟩) rfl fun _ _ => ⟨nofun, nofun⟩

end Connectives

theorem not (h : Left b facts x x' v₁) (hv : v₁.negate b.rows = .ok v)
    (hs : simplifyNot x' = .ok s) :
    Left b facts (Expr.not x) s v where
  value := bind_eq_ok.2 ⟨v₁, h.value, hv⟩
  left := bind_eq_ok.2 ⟨x', h.left, hs⟩
  field n hn := by
    subst hn
    obtain ⟨_, hn⟩ | ⟨hn, -⟩ := simplifyNot_cases hs <;> cases hn
  lit r hr := by
    subst hr
    unfold simplifyNot at hs
    split at hs
    · rename_i a
      obtain ⟨t, ht, hs⟩ := bind_eq_ok.1 hs
      cases hs
      have hw : Operand.negate b.rows (.scalar a) = .ok (.scalar (.ofTruth (kleeneNot t))) :=
        bind_eq_ok.2 ⟨t, ht, rfl⟩
      exact .of_same (type_negate hv) ((h.lit a rfl).same.negate h.fills hv hw)
    · cases hs

theorem isValid (h : Left b facts x x' v₁) (hb : b.Upholds facts) :
    Left b facts (Expr.isValid x) (simplifyValid facts x') v₁.validity where
  value := (operand_isValid b x).trans (bind_eq_ok.2 ⟨v₁, h.value, rfl⟩)
  left := bind_eq_ok.2 ⟨x', h.left, rfl⟩
  field n hn := by
    obtain ⟨_, h⟩ | ⟨h, -⟩ := simplifyValid_cases facts x' <;> cases hn.symm.trans h
  lit r hr := by
    unfold simplifyValid at hr
    split at hr
    · rename_i a
      cases hr
      exact .of_same (type_validity v₁) ((h.lit a rfl).same.validity h.fills)
    · rename_i n
      split at hr <;> cases hr
      rename_i t ht
      refine .of_truths (type_validity v₁) fun i hi => ?_
      obtain ⟨z, hz, hnone, hdescribes⟩ := h.describes hb hi
      rw [validity_at? hz, hdescribes.valid hnone t ht, Bool.not_not]
    · cases hr

theorem known_member (h : Left b facts x (.lit a) v₁) (hb : b.Upholds facts) (hset : set ≠ [])
    (hv : Expr.memberOf v₁ b.rows set = .ok v)
    (hs : simplifyMember facts set (.lit a) = .ok (.lit c))
    (hk : (Expr.member x set).KnownAlike b facts) : Known b facts (Expr.member x set) v c := by
  obtain rfl | hcalm := h.calm_member hb hk
  · have hone : simplifyMember (fun _ => Facts.none_) set (.lit a) = .ok (.lit c) := hs
    cases operand_simplifyMember hone hset rfl hv
    exact .refl c
  · have hsame := (h.lit a rfl).same
    have row {i : Nat} (hi : i < b.rows) :=
      memberOf_at? hv hi (hsame i hi) fun s hs => (hcalm s hs).1
    rw [simplifyMember] at hs
    split at hs
    · rename_i hnull
      cases hs
      refine .of_truths (type_memberOf hv) fun i hi => ?_
      obtain ⟨m, hm, hu⟩ := row hi
      rw [Value.ofScalar_of_isNull hnull, member?_null hset] at hm
      rw [hu, ← Option.some.inj hm]
    · obtain ⟨q, hq, hspec⟩ := literalMember_spec hs
      cases hq
      have hmember := (or?_false _).symm.trans (hspec fun s hs => (hcalm s hs).2)
      refine .of_truths (type_memberOf hv) fun i hi => ?_
      obtain ⟨m, hm, hu⟩ := row hi
      rw [hu, Option.some.inj (hm.symm.trans hmember)]

theorem decided_member {n : String} (h : Left b facts x (.field n) v₁) (hb : b.Upholds facts)
    (hv : Expr.memberOf v₁ b.rows set = .ok v)
    (hs : simplifyMember facts set (.field n) = .ok (.lit c)) :
    Known b facts (Expr.member x set) v c := by
  have row {i : Nat} (hi : i < b.rows) : ∃ z m, z.member? set = some m ∧
      v.at? i = some (ofTruth m) ∧
      ∀ c r t, (facts n).decide .eq c = some r → Value.compare? .eq z (ofScalar c) = some t →
      t = some r := by
    obtain ⟨z, hz, hnone, hdescribes⟩ := h.describes hb hi
    obtain ⟨m, hm, hu⟩ := memberOf_at? hv hi hz fun s _ => (h.calm_of_field _).1
    exact ⟨z, m, hm, hu, fun c r t hr ht => hdescribes.decide hnone .eq c r t trivial hr ht⟩
  rw [simplifyMember] at hs
  split at hs
  · rename_i hfound
    cases hs
    obtain ⟨c, hc, hr⟩ := List.mem_map.1 (List.contains_iff_mem.1 hfound)
    refine .of_truths (type_memberOf hv) fun i hi => ?_
    obtain ⟨z, m, hm, hu, hdecides⟩ := row hi
    rw [hu, member?_found hm ⟨c, hc, fun t => hdecides c true t hr⟩]
  · split at hs
    · rename_i hmissed
      cases hs
      rw [List.all_map, List.all_eq_true] at hmissed
      refine .of_truths (type_memberOf hv) fun i hi => ?_
      obtain ⟨z, m, hm, hu, hdecides⟩ := row hi
      rw [hu, member?_missed hm fun c hc t => hdecides c false t (eq_of_beq (hmissed c hc))]
    · cases hs

theorem member (h : Left b facts x x' v₁) (hb : b.Upholds facts) (hset : set ≠ [])
    (hv : Expr.memberOf v₁ b.rows set = .ok v) (hs : simplifyMember facts set x' = .ok s)
    (hk : (Expr.member x set).KnownAlike b facts) : Left b facts (Expr.member x set) s v where
  value := by
    rw [operand, if_neg hset]
    exact bind_eq_ok.2 ⟨v₁, h.value, hv⟩
  left := by
    rw [simplifyWith, if_neg hset]
    exact bind_eq_ok.2 ⟨x', h.left, hs⟩
  field n hn := by
    subst hn
    obtain ⟨_, hn⟩ | ⟨hn, -⟩ := simplifyMember_cases hs <;> cases hn
  lit r hr := by
    subst hr
    cases x' with
    | lit a => exact h.known_member hb hset hv hs hk
    | field n => exact h.decided_member hb hv hs
    | _ => cases hs

theorem same_cast (h : Left b facts x (.lit a) v₁) (hv : v₁.castTo t = .ok v)
    (hc : a.castTo t = .ok c) (hk : (Expr.cast x t).KnownAlike b facts) :
    v.Same b.rows (.scalar c) := by
  have hw : Operand.castTo t (.scalar a) = .ok (.scalar c) := bind_eq_ok.2 ⟨c, hc, rfl⟩
  have hsame := (h.lit a rfl).same
  cases hnull : a.isNull with
  | true =>
    intro i hi
    have hi := hsame i hi
    have ha : (Operand.scalar a).at? i = some .null :=
      congrArg some (Value.ofScalar_of_isNull hnull)
    rw [castTo_null hv (hi.trans ha), castTo_null hw ha]
  | false =>
    refine hsame.castTo h.fills hv hw (fun hd => ?_) nofun
    cases v₁ with
    | scalar s => cases hd
    | column d =>
      exact hk.packed _ (mem_casts_cast x t) a ⟨⟨d, h.value⟩, h.left⟩ hnull
        (isEncoded_of_operand h.value hd)

theorem cast (h : Left b facts x x' v₁) (hrows : 0 < b.rows) (hv : v₁.castTo t = .ok v)
    (hs : simplifyCast t x' = .ok s) (hk : (Expr.cast x t).KnownAlike b facts) :
    Left b facts (Expr.cast x t) s v where
  value := bind_eq_ok.2 ⟨v₁, h.value, hv⟩
  left := bind_eq_ok.2 ⟨x', h.left, hs⟩
  field n hn := by
    subst hn
    obtain ⟨_, hn⟩ | ⟨hn, -⟩ := simplifyCast_cases hs <;> cases hn
  lit r hr := by
    subst hr
    unfold simplifyCast at hs
    split at hs
    · rename_i a
      obtain ⟨_, ha, hs⟩ := bind_eq_ok.1 hs
      cases hs
      have same := h.same_cast hv ha hk
      refine ⟨same, ?_⟩
      have ht : r.dataType = t.plain := Scalar.dataType_castTo ha
      cases v₁ with
      | scalar s =>
        obtain ⟨s', hs, hv⟩ := bind_eq_ok.1 hv
        cases hv
        exact .inl (congrArg Operand.scalar
          (same.eq_scalar hrows (ht.trans (Scalar.dataType_castTo hs).symm)).symm)
      | column d =>
        obtain ⟨_, -, hv⟩ := bind_eq_ok.1 hv
        cases hv
        exact .inr ⟨False.elim, fun hfloat =>
          ⟨_, mem_casts_cast x t, ht.symm.trans hfloat, a, ⟨d, h.value⟩, h.left⟩⟩
    · cases hs

end Left

end Expr

end TableScan
