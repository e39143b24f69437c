import TableScan.Proofs.Evaluation

namespace TableScan

theorem conversion?_null_half {p : DataType} (h : p.plain = .null) :
    conversion? p .float16 = none := by
  induction p with
  | dictionary k p ih => exact ih h
  | scalar s =>
    cases h
    rfl
  | _ => cases h

theorem Column.castCells_null_half {c : Column} {cells : List (Option DataType.float16.Carrier)}
    (h : c.type.plain = .null) : c.castCells .float16 ≠ .ok cells := by
  intro hcells
  unfold castCells at hcells
  split at hcells
  · rename_i ht
    rw [ht] at h
    cases h
  · rw [conversion, conversion?_null_half h] at hcells
    cases hcells

theorem comparisonType_scalar {p q : ScalarType} {t : DataType}
    (h : comparisonType (.scalar p) (.scalar q) = some t) : t ≠ .float16 := by
  rintro rfl
  rcases comparisonType_cases h with h' | h' | ⟨-, h' | ⟨-, h' | h' | h'⟩⟩ | ⟨-, h'⟩ | ⟨-, h'⟩
  case inr.inl =>
    cases h'
    cases q <;> cases h
  all_goals cases h'

namespace Operand

variable {op : Comparison} {rows : Nat} {u v w v₁ v₂ w₁ w₂ : Operand} {set : List Scalar}

theorem comparable_of_compareWith (h : compareWith op rows v w = .ok u) :
    Comparable v.type w.type := by
  cases compared h with
  | @single a b o ho =>
    unfold Scalar.compare at ho
    split at ho
    · cases ho
    · rename_i hsome
      obtain ⟨t, ht⟩ : ∃ t, comparisonType a.dataType b.dataType = some t := by
        simpa [Option.isNone_iff_eq_none, Option.ne_none_iff_exists'] using hsome
      exact ⟨t, ht, fun _ => comparisonType_scalar ht⟩
  | nulls _ ht => exact ⟨.null, ht, nofun⟩
  | @cells _ _ t _ _ _ ht _ hxs hys =>
    refine ⟨t, ht, ?_⟩
    rintro hnull rfl
    rw [← type_toColumn rows v, ← type_toColumn rows w] at hnull
    rcases hnull with hn | hn
    · exact Column.castCells_null_half hn hxs
    · exact Column.castCells_null_half hn hys

theorem isTruthType_of_truths {ts : List (Option Bool)} (h : v.truths rows = .ok ts) :
    Expr.isTruthType v.type := by
  rw [← type_toColumn rows v]
  unfold truths at h
  split at h
  · rename_i hc
    rw [hc]
    rfl
  · rename_i hc
    rw [hc]
    rfl
  · cases h

theorem isTruthType_of_truth {s : Scalar} {t : Option Bool} (h : s.truth = .ok t) :
    Expr.isTruthType s.dataType := by
  unfold Scalar.truth at h
  split at h
  · rfl
  · rfl
  · cases h

theorem isTruthType_of_combine {g : Option Bool → Option Bool → Option Bool}
    (h : combine g rows v w = .ok u) :
    Expr.isTruthType v.type ∧ Expr.isTruthType w.type := by
  cases combined h with
  | single hs ht => exact ⟨isTruthType_of_truth hs, isTruthType_of_truth ht⟩
  | byRow _ hs ht => exact ⟨isTruthType_of_truths hs, isTruthType_of_truths ht⟩

/-- Whether an operand may take the place of another: a single value that of a column, and nulls of
no type that of unknown truth values. -/
structure Agrees (v w : Operand) : Prop where
  type : w.type = v.type ∨ (w.IsSingle ∧ w.type = v.type.plain) ∨
    (v.type = .boolean ∧ w.type = .null)
  single : v.IsSingle → w.IsSingle

theorem Agrees.refl (v : Operand) : v.Agrees v := ⟨.inl rfl, id⟩

theorem Agrees.isTruthType (h : v.Agrees w) (hv : Expr.isTruthType v.type) :
    Expr.isTruthType w.type := by
  have hplain : v.type.plain = v.type := by
    simp only [Expr.isTruthType, Bool.or_eq_true, decide_eq_true_eq] at hv
    obtain hv | hv := hv <;> rw [hv] <;> rfl
  obtain ht | ⟨-, ht⟩ | ⟨-, ht⟩ := h.type
  · rw [ht]
    exact hv
  · rw [ht, hplain]
    exact hv
  · rw [ht]
    rfl

theorem Agrees.plain (h : v.Agrees w) :
    w.type.plain = v.type.plain ∨ (v.type.plain = .boolean ∧ w.type.plain = .null) := by
  obtain ht | ⟨-, ht⟩ | ⟨hv, ht⟩ := h.type
  · exact .inl (by rw [ht])
  · exact .inl (by rw [ht, DataType.plain_plain])
  · exact .inr (by rw [hv, ht]; exact ⟨rfl, rfl⟩)

theorem Agrees.of_isTruthType (hv : v.type = .boolean) (hw : Expr.isTruthType w.type)
    (hs : v.IsSingle → w.IsSingle) : v.Agrees w := by
  refine ⟨?_, hs⟩
  simp only [Expr.isTruthType, Bool.or_eq_true, decide_eq_true_eq] at hw
  rcases hw with hw | hw
  · exact .inl (hw.trans hv.symm)
  · exact .inr (.inr ⟨hv, hw⟩)

end Operand

theorem plain_of_comparable_boolean {l r : DataType} (h : Comparable l r)
    (hl : l.plain = .boolean) :
    r.plain = .boolean ∨ r.plain = .null := by
  obtain ⟨t, ht, -⟩ := h
  unfold comparisonType at ht
  simp only [hl] at ht
  split at ht
  · rename_i hr
    exact .inl hr.symm
  · split at ht
    · rename_i hn
      cases hn
    · split at ht
      · rename_i hr
        exact .inr hr
      · split at ht
        · rename_i hn
          cases hn
        · cases ht

theorem Comparable.symm {l r : DataType} (h : Comparable l r) : Comparable r l := by
  obtain ⟨t, ht, hn⟩ := h
  exact ⟨t, (Value.comparisonType_comm l r).trans ht, fun h => hn h.symm⟩

theorem Comparable.congr {l l' r : DataType} (h : Comparable l r)
    (hl : l'.plain = l.plain ∨ (l.plain = .boolean ∧ l'.plain = .null)) : Comparable l' r := by
  rcases hl with hl | ⟨hl, hl'⟩
  · obtain ⟨t, ht, hn⟩ := h
    refine ⟨t, ?_, by rwa [hl]⟩
    unfold comparisonType at ht ⊢
    rw [hl]
    exact ht
  · rcases plain_of_comparable_boolean h hl with hr | hr
    · exact ⟨.boolean, by simp [comparisonType, hl', hr], fun _ e => by cases e⟩
    · exact ⟨.null, by simp [comparisonType, hl', hr], fun _ e => by cases e⟩

namespace Operand

variable {op : Comparison} {rows : Nat} {u v w v₁ v₂ w₁ w₂ : Operand} {set : List Scalar}
  {g : Option Bool → Option Bool → Option Bool}

theorem single_combine (h : combine g rows v w = .ok u) : u.IsSingle ↔ v.IsSingle ∧ w.IsSingle := by
  cases combined h with
  | single => exact ⟨fun _ => ⟨trivial, trivial⟩, fun _ => trivial⟩
  | byRow hne => exact ⟨False.elim, hne⟩

theorem single_compareWith (h : compareWith op rows v w = .ok u) :
    u.IsSingle ↔ (v.IsSingle ∧ w.IsSingle) ∨ (v.type.plain = .null ∧ w.type.plain = .null) := by
  cases compared h with
  | single => exact ⟨fun _ => .inl ⟨trivial, trivial⟩, fun _ => trivial⟩
  | nulls _ ht => exact ⟨fun _ => .inr ((comparisonType_plain ht).2.2 rfl), fun _ => trivial⟩
  | cells hne ht hn =>
    refine ⟨False.elim, fun h => h.elim hne fun hnull => hn ?_⟩
    simpa [comparisonType, hnull.1, hnull.2] using ht.symm

theorem Agrees.compareWith (h₁ : v₁.Agrees w₁) (h₂ : v₂.Agrees w₂)
    (h : Operand.compareWith op rows v₁ v₂ = .ok v) (rows' : Nat) :
    ∃ w, Operand.compareWith op rows' w₁ w₂ = .ok w ∧ v.Agrees w := by
  -- whether types compare depends on the plain types alone, and truth values may be nulls
  have hc := ((comparable_of_compareWith h).congr h₁.plain).symm.congr h₂.plain
  obtain ⟨w, hw⟩ : ∃ w, Operand.compareWith op rows' w₁ w₂ = .ok w :=
    compareWith_of_comparable hc.symm
  refine ⟨w, hw, .of_isTruthType (type_compareWith h)
    (by rw [type_compareWith hw]; rfl) fun hs => ?_⟩
  have null {v w : Operand} (h : v.Agrees w) (hv : v.type.plain = .null) :
      w.type.plain = .null := by
    rcases h.plain with hw | ⟨hb, -⟩
    · exact hw.trans hv
    · exact absurd (hv.symm.trans hb) nofun
  refine (single_compareWith hw).2 (((single_compareWith h).1 hs).imp ?_ ?_)
  · exact fun ⟨hs₁, hs₂⟩ => ⟨h₁.single hs₁, h₂.single hs₂⟩
  · exact fun ⟨hn₁, hn₂⟩ => ⟨null h₁ hn₁, null h₂ hn₂⟩

theorem Agrees.combine (h₁ : v₁.Agrees w₁) (h₂ : v₂.Agrees w₂)
    (h : Operand.combine g rows v₁ v₂ = .ok v) (rows' : Nat) :
    ∃ w, Operand.combine g rows' w₁ w₂ = .ok w ∧ v.Agrees w := by
  obtain ⟨ht₁, ht₂⟩ := isTruthType_of_combine h
  obtain ⟨w, hw⟩ : ∃ w, Operand.combine g rows' w₁ w₂ = .ok w :=
    combine_of_isTruthType (h₁.isTruthType ht₁) (h₂.isTruthType ht₂)
  refine ⟨w, hw, .of_isTruthType (type_combine h) (by rw [type_combine hw]; rfl) fun hs => ?_⟩
  exact (single_combine hw).2 (((single_combine h).1 hs).imp h₁.single h₂.single)

theorem Agrees.memberOf (h : v₁.Agrees w₁) (hm : Expr.memberOf v₁ rows set = .ok v) (rows' : Nat) :
    ∃ w, Expr.memberOf w₁ rows' set = .ok w ∧ v.Agrees w := by
  have fold {set : List Scalar} {found found' : Operand} (hf : found.Agrees found')
      (hm : set.foldlM (fun found s => do
        Operand.combine kleeneOr rows found (← Operand.compareWith .eq rows v₁ (.scalar s))) found =
          .ok v) :
      ∃ w, set.foldlM (fun found s => do
        Operand.combine kleeneOr rows' found (← Operand.compareWith .eq rows' w₁ (.scalar s)))
          found' = .ok w ∧
          v.Agrees w := by
    induction set generalizing found found' with
    | nil =>
      cases hm
      exact ⟨found', rfl, hf⟩
    | cons s set ih =>
      obtain ⟨next, hnext, hm⟩ := bind_eq_ok.1 hm
      obtain ⟨c, hc, hnext⟩ := bind_eq_ok.1 hnext
      obtain ⟨c', hc', hagree⟩ := h.compareWith (.refl _) hc rows'
      obtain ⟨next', hnext', hagree⟩ := hf.combine hagree hnext rows'
      obtain ⟨w, hw, hagree⟩ := ih hagree hm
      exact ⟨w, bind_eq_ok.2 ⟨next', bind_eq_ok.2 ⟨c', hc', hnext'⟩, hw⟩, hagree⟩
  cases set with
  | nil =>
    cases hm
    exact ⟨_, rfl, .refl _⟩
  | cons s set =>
    obtain ⟨first, hfirst, hm⟩ := bind_eq_ok.1 hm
    obtain ⟨first', hfirst', hagree⟩ := h.compareWith (.refl _) hfirst rows'
    obtain ⟨w, hw, hagree⟩ := fold hagree hm
    exact ⟨w, bind_eq_ok.2 ⟨first', hfirst', hw⟩, hagree⟩

theorem single_negate (h : negate rows v = .ok u) : u.IsSingle ↔ v.IsSingle := by
  cases v with
  | scalar s =>
    obtain ⟨_, -, h⟩ := bind_eq_ok.1 h
    cases h
    exact Iff.rfl
  | column c =>
    obtain ⟨_, -, h⟩ := bind_eq_ok.1 h
    cases h
    exact Iff.rfl

theorem isTruthType_of_negate (h : negate rows v = .ok u) : Expr.isTruthType v.type := by
  cases v with
  | scalar s =>
    obtain ⟨t, ht, -⟩ := bind_eq_ok.1 h
    exact isTruthType_of_truth (mapError_eq_ok.1 ht)
  | column c =>
    obtain ⟨ts, hts, -⟩ := bind_eq_ok.1 h
    exact isTruthType_of_truths hts

theorem Agrees.negate (h : v₁.Agrees w₁) (hv : Operand.negate rows v₁ = .ok v) (rows' : Nat) :
    ∃ w, Operand.negate rows' w₁ = .ok w ∧ v.Agrees w := by
  obtain ⟨w, hw⟩ : ∃ w, Operand.negate rows' w₁ = .ok w :=
    negate_of_isTruthType (h.isTruthType (isTruthType_of_negate hv))
  refine ⟨w, hw, .of_isTruthType (type_negate hv) (by rw [type_negate hw]; rfl) fun hs => ?_⟩
  exact (single_negate hw).2 (h.single ((single_negate hv).1 hs))

theorem Agrees.validity (h : v.Agrees w) : v.validity.Agrees w.validity := by
  refine .of_isTruthType (type_validity v) (by rw [type_validity w]; rfl) fun hs => ?_
  cases v with
  | column c => exact hs.elim
  | scalar a => cases w with
    | column c => exact h.single hs
    | scalar b => trivial

theorem Agrees.castTo {t : DataType} (h : v₁.Agrees w₁) (hv : Operand.castTo t v₁ = .ok v)
    (hw : Operand.castTo t w₁ = .ok w) : v.Agrees w := by
  cases v₁ with
  | column c =>
    obtain ⟨d, hd, hv⟩ := bind_eq_ok.1 hv
    cases hv
    have ht : d.type = t := Column.type_cast (mapError_eq_ok.1 hd)
    refine ⟨?_, False.elim⟩
    obtain hw | ⟨hs, hw⟩ := type_castTo hw
    · exact .inl (hw.trans ht.symm)
    · exact .inr (.inl ⟨hs, hw.trans (by rw [← ht]; rfl)⟩)
  | scalar a => cases w₁ with
    | column c => exact (h.single trivial).elim
    | scalar b =>
      obtain ⟨a', ha, hv⟩ := bind_eq_ok.1 hv
      obtain ⟨b', hb, hw⟩ := bind_eq_ok.1 hw
      cases hv
      cases hw
      exact ⟨.inl ((Scalar.dataType_castTo hb).trans (Scalar.dataType_castTo ha).symm), id⟩

def Same (rows : Nat) (v w : Operand) : Prop := ∀ i < rows, v.at? i = w.at? i

theorem Same.refl (v : Operand) : v.Same rows v := fun _ _ => rfl

theorem Fills.at? (h : v.Fills rows) {i : Nat} (hi : i < rows) : ∃ x, v.at? i = some x := by
  rw [← value?_toColumn v hi]
  have hlen : i < (v.toColumn rows).cells.length := hi.trans_eq h.symm
  exact ⟨_, congrArg (Option.map _) (List.getElem?_eq_getElem hlen)⟩

theorem combine_row (h : Operand.combine g rows v w = .ok u) (hv : v.Fills rows) (hw : w.Fills rows)
    {i : Nat} (hi : i < rows) :
    ∃ s t, v.at? i = some (Value.ofTruth s) ∧ w.at? i = some (Value.ofTruth t) ∧
      u.at? i = some (Value.ofTruth (g s t)) := by
  obtain ⟨x, hx⟩ := hv.at? hi
  obtain ⟨y, hy⟩ := hw.at? hi
  obtain ⟨s, t, hs, ht, hu⟩ := combine_at? h hi hx hy
  exact ⟨s, t, hx.trans (congrArg some (Value.eq_ofTruth hs)),
    hy.trans (congrArg some (Value.eq_ofTruth ht)), hu⟩

theorem Same.combine (h₁ : v₁.Same rows w₁) (h₂ : v₂.Same rows w₂) (f₁ : v₁.Fills rows)
    (f₂ : v₂.Fills rows) (hv : Operand.combine g rows v₁ v₂ = .ok v)
    (hw : Operand.combine g rows w₁ w₂ = .ok w) : v.Same rows w := by
  intro i hi
  obtain ⟨x, hx⟩ := f₁.at? hi
  obtain ⟨y, hy⟩ := f₂.at? hi
  obtain ⟨s, t, hs, ht, hv⟩ := combine_at? hv hi hx hy
  obtain ⟨s', t', hs', ht', hw⟩ :=
    combine_at? hw hi ((h₁ i hi).symm.trans hx) ((h₂ i hi).symm.trans hy)
  cases hs.symm.trans hs'
  cases ht.symm.trans ht'
  exact hv.trans hw.symm

theorem Same.compareWith (h₁ : v₁.Same rows w₁) (h₂ : v₂.Same rows w₂) (f₁ : v₁.Fills rows)
    (f₂ : v₂.Fills rows) (hv : Operand.compareWith op rows v₁ v₂ = .ok v)
    (hw : Operand.compareWith op rows w₁ w₂ = .ok w) (cv : v₁.Calm v₂) (cw : w₁.Calm w₂) :
    v.Same rows w := by
  intro i hi
  obtain ⟨x, hx⟩ := f₁.at? hi
  obtain ⟨y, hy⟩ := f₂.at? hi
  obtain ⟨r, hr, hv⟩ := compareWith_at? hv hi hx hy cv
  obtain ⟨r', hr', hw⟩ :=
    compareWith_at? hw hi ((h₁ i hi).symm.trans hx) ((h₂ i hi).symm.trans hy) cw
  cases hr.symm.trans hr'
  exact hv.trans hw.symm

theorem Same.memberOf (h : v₁.Same rows w₁) (f : v₁.Fills rows)
    (hv : Expr.memberOf v₁ rows set = .ok v) (hw : Expr.memberOf w₁ rows set = .ok w)
    (cv : ∀ s ∈ set, v₁.Calm (.scalar s)) (cw : ∀ s ∈ set, w₁.Calm (.scalar s)) :
    v.Same rows w := by
  intro i hi
  obtain ⟨x, hx⟩ := f.at? hi
  obtain ⟨m, hm, hv⟩ := Expr.memberOf_at? hv hi hx cv
  obtain ⟨m', hm', hw⟩ := Expr.memberOf_at? hw hi ((h i hi).symm.trans hx) cw
  cases hm.symm.trans hm'
  exact hv.trans hw.symm

theorem Same.negate (h : v₁.Same rows w₁) (f : v₁.Fills rows) (hv : Operand.negate rows v₁ = .ok v)
    (hw : Operand.negate rows w₁ = .ok w) : v.Same rows w := by
  intro i hi
  obtain ⟨x, hx⟩ := f.at? hi
  obtain ⟨t, ht, hv⟩ := negate_at? hv hi hx
  obtain ⟨t', ht', hw⟩ := negate_at? hw hi ((h i hi).symm.trans hx)
  cases ht.symm.trans ht'
  exact hv.trans hw.symm

theorem Same.validity (h : v.Same rows w) (f : v.Fills rows) : v.validity.Same rows w.validity := by
  intro i hi
  obtain ⟨x, hx⟩ := f.at? hi
  exact (validity_at? hx).trans (validity_at? ((h i hi).symm.trans hx)).symm

theorem Same.castTo {t : DataType} (h : v₁.Same rows w₁) (f : v₁.Fills rows)
    (hv : Operand.castTo t v₁ = .ok v) (hw : Operand.castTo t w₁ = .ok w)
    (pv : v₁.type.isDictionary = true → t.isRepacked = false)
    (pw : w₁.type.isDictionary = true → t.isRepacked = false) : v.Same rows w := by
  intro i hi
  obtain ⟨x, hx⟩ := f.at? hi
  obtain ⟨y, hy, hv⟩ := castTo_at? hv hx pv
  obtain ⟨y', hy', hw⟩ := castTo_at? hw ((h i hi).symm.trans hx) pw
  cases hy.symm.trans hy'
  exact hv.trans hw.symm

theorem Same.truths {ts us : List (Option Bool)} (h : v.Same rows w) (fv : v.Fills rows)
    (fw : w.Fills rows) (hv : v.truths rows = .ok ts) (hw : w.truths rows = .ok us) : us = ts := by
  refine List.ext_getElem? fun i => ?_
  by_cases hi : i < rows
  · obtain ⟨x, hx⟩ := fv.at? hi
    obtain ⟨t, ht, hxt⟩ := truths_getElem? hv hi hx
    obtain ⟨t', ht', hxt'⟩ := truths_getElem? hw hi ((h i hi).symm.trans hx)
    cases hxt.symm.trans hxt'
    exact ht'.trans ht.symm
  · rw [List.getElem?_eq_none ((fw.truths hw).trans_le (not_lt.1 hi)),
      List.getElem?_eq_none ((fv.truths hv).trans_le (not_lt.1 hi))]

end Operand

namespace Value

theorem ofSome_injective (t : DataType) : Function.Injective (ofSome t) := by
  induction t with
  | dictionary k t ih => exact ih
  | _ =>
    intro a b h
    cases h
    rfl

theorem ofCell_injective (t : DataType) : Function.Injective (ofCell t) := by
  intro a b h
  have hnull := congrArg isNull h
  rw [isNull_ofCell, isNull_ofCell] at hnull
  cases a with
  | none => cases b with
    | none => rfl
    | some b => cases hnull
  | some a => cases b with
    | none => cases hnull
    | some b => exact congrArg some (ofSome_injective t h)

end Value

namespace Operand

variable {rows : Nat} {v w : Operand}

theorem Same.eq {c d : Column} (h : (column c).Same rows (column d)) (hc : (column c).Fills rows)
    (hd : (column d).Fills rows) (ht : d.type = c.type) : d = c := by
  obtain ⟨type, cells⟩ := c
  obtain ⟨_, cells'⟩ := d
  cases ht
  have hlen : cells.length = rows := hc
  have hlen' : cells'.length = rows := hd
  refine congrArg (Column.mk type) (List.ext_getElem? fun i => ?_)
  by_cases hi : i < rows
  · exact (Option.map_injective (Value.ofCell_injective type) (h i hi)).symm
  · rw [List.getElem?_eq_none (by omega), List.getElem?_eq_none (by omega)]

theorem Same.eq_scalar {a c : Scalar} (h : (scalar a).Same rows (scalar c)) (hrows : 0 < rows)
    (ht : c.dataType = a.dataType) : c = a := by
  obtain ⟨type, a⟩ := a
  obtain ⟨_, c⟩ := c
  cases ht
  exact congrArg (Scalar.mk type) (Value.ofCell_injective _ (Option.some.inj (h 0 hrows))).symm

theorem calm_of_ne {a b : Operand} (h : (∀ s, a = scalar s → s.dataType ≠ .float32) ∨
    ∀ s, b = scalar s → s.dataType ≠ .float32) : a.Calm b := by
  rintro s t rfl rfl hst
  have hs : s.dataType ≠ .float32 := by
    rcases h with h | h
    · exact h s rfl
    · exact fun he => h t rfl ((congrArg DataType.scalar hst).symm.trans he)
  have ht : t.dataType ≠ .float32 := fun he => hs ((congrArg DataType.scalar hst).trans he)
  exact ⟨Value.isQuiet_ofCell_of_ne (show s.dataType.plain ≠ .float32 from hs) _,
    Value.isQuiet_ofCell_of_ne (show t.dataType.plain ≠ .float32 from ht) _⟩

end Operand

end TableScan
