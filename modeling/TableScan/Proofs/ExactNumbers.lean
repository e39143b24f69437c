import TableScan.Proofs.Evaluation
import Mathlib.Data.Rat.Floor
import Mathlib.Tactic.FieldSimp
import Mathlib.Tactic.Positivity

namespace TableScan

def truncated (p : ℚ) : ℤ := if 0 ≤ p then ⌊p⌋ else -⌊-p⌋

def rounded (p : ℚ) : ℤ := if 0 ≤ p then ⌊p + 1 / 2⌋ else -⌊-p + 1 / 2⌋

@[simp] theorem truncated_intCast (i : ℤ) : truncated i = i := by
  rw [truncated, ← Int.cast_neg, Int.floor_intCast, Int.floor_intCast, neg_neg, ite_self]

@[simp] theorem rounded_intCast (i : ℤ) : rounded i = i := by
  have hfloor (j : ℤ) : ⌊(j : ℚ) + 1 / 2⌋ = j := by
    rw [Int.floor_eq_iff]
    constructor <;> linarith
  rw [rounded, ← Int.cast_neg, hfloor, hfloor, neg_neg, ite_self]

variable {n : ℕ}

theorem div_natCast_nonneg_iff (i : ℤ) (h : 0 < n) : 0 ≤ (i : ℚ) / n ↔ 0 ≤ i := by
  rw [le_div_iff₀ (by exact_mod_cast h), zero_mul, Int.cast_nonneg_iff]

theorem truncated_div (i : ℤ) (h : 0 < n) : truncated (i / n) = i.tdiv n := by
  by_cases hi : 0 ≤ i
  · rw [truncated, if_pos ((div_natCast_nonneg_iff i h).2 hi), Rat.floor_intCast_div_natCast,
      Int.tdiv_eq_ediv_of_nonneg hi]
  · rw [truncated, if_neg (mt (div_natCast_nonneg_iff i h).1 hi), ← neg_div, ← Int.cast_neg,
      Rat.floor_intCast_div_natCast, ← Int.tdiv_eq_ediv_of_nonneg (by omega), Int.neg_tdiv, neg_neg]

theorem floor_add_half (i : ℤ) (h : 0 < n) : ⌊(i : ℚ) / n + 1 / 2⌋ = (2 * i + n) / (2 * n) := by
  have hn : (n : ℚ) ≠ 0 := by exact_mod_cast h.ne'
  have hsum : (i : ℚ) / n + 1 / 2 = ((2 * i + n : ℤ) : ℚ) / (2 * n : ℕ) := by
    push_cast
    field_simp
  rw [hsum, Rat.floor_intCast_div_natCast]
  push_cast
  rfl

theorem rounded_div (i : ℤ) (h : 0 < n) : rounded (i / n) =
    if i < 0 then -(((2 * i.natAbs + n) / (2 * n) : ℕ) : ℤ)
      else ((2 * i.natAbs + n) / (2 * n) : ℕ) := by
  have habs : (((2 * i.natAbs + n) / (2 * n) : ℕ) : ℤ) = (2 * |i| + n) / (2 * n) := by
    push_cast
    rfl
  rw [habs]
  by_cases hi : 0 ≤ i
  · rw [rounded, if_pos ((div_natCast_nonneg_iff i h).2 hi), floor_add_half i h, if_neg (by omega),
      abs_of_nonneg hi]
  · rw [rounded, if_neg (mt (div_natCast_nonneg_iff i h).1 hi), ← neg_div, ← Int.cast_neg,
      floor_add_half _ h, if_pos (by omega), abs_of_neg (by omega)]

namespace DataType

def isExact : DataType → Bool
  | scalar (.int _) | decimal _ _ => true
  | _ => false

theorem facts_of_isExact {t : DataType} (h : t.isExact) :
    t.plain = t ∧ t ≠ .null ∧ t.isNumeric ∧ t.isFloating = false := by
  unfold isExact at h
  split at h
  · exact ⟨rfl, nofun, rfl, rfl⟩
  · exact ⟨rfl, nofun, rfl, rfl⟩
  · cases h

def whole : DataType → ℚ → ℤ
  | decimal _ _, p => rounded p
  | _, p => truncated p

def spans : DataType → ℤ → Bool
  | scalar (.int t), i => t.min ≤ i && i ≤ t.max
  | decimal digits _, i => i.natAbs < 10 ^ digits
  | _, _ => false

theorem spans_int {t : IntType} {i : ℤ} : (int t).spans i ↔ t.min ≤ i ∧ i ≤ t.max := by
  simp [spans]

theorem spans_decimal {digits : ℕ} {scale i : ℤ} :
    (decimal digits scale).spans i ↔ i.natAbs < 10 ^ digits := by
  simp [spans]

def whole? (t : DataType) (p : ℚ) : Option ℤ :=
  if t.spans (t.whole p) then some (t.whole p) else none

end DataType

namespace Decimals

theorem div_zpow_of_nonpos {scale : ℤ} (h : scale ≤ 0) (i : ℤ) :
    (i : ℚ) / 10 ^ scale = ((i * 10 ^ (-scale).toNat : ℤ) : ℚ) := by
  obtain ⟨k, rfl⟩ : ∃ k : ℕ, scale = -k := ⟨(-scale).toNat, by omega⟩
  rw [zpow_neg, zpow_natCast, div_inv_eq_mul, neg_neg, Int.toNat_natCast]
  push_cast
  rfl

theorem div_zpow_of_nonneg {scale : ℤ} (h : 0 ≤ scale) (i : ℤ) :
    (i : ℚ) / 10 ^ scale = i / (10 ^ scale.toNat : ℕ) := by
  obtain ⟨k, rfl⟩ := Int.eq_ofNat_of_zero_le h
  rw [zpow_natCast, Int.toNat_natCast]
  push_cast
  rfl

theorem toFixed_eq (t : IntType) (scale i : ℤ) : (toFixed t scale i).lenient =
    .ok (Fixed.ofInt? t (truncated (i / 10 ^ scale))) := by
  have hwhole : (if 0 ≤ scale then i.tdiv (10 ^ scale.toNat) else i * 10 ^ (-scale).toNat) =
      truncated (i / 10 ^ scale) := by
    split
    · rename_i h
      rw [div_zpow_of_nonneg h, truncated_div i (by positivity)]
      push_cast
      rfl
    · rename_i h
      rw [div_zpow_of_nonpos (by omega), truncated_intCast]
  rw [toFixed, hwhole]
  cases Fixed.ofInt? t (truncated (i / 10 ^ scale)) <;> rfl

theorem fit_eq (digits : ℕ) (i : ℤ) :
    (fit digits i).lenient =
      .ok (if (DataType.decimal digits 0).spans i then some i else none) := by
  simp only [fit, DataType.spans_decimal]
  split <;> rfl

theorem rescale_eq (scale i : ℤ) : (rescale 38 0 scale i).lenient =
    .ok ((DataType.decimal 38 0).whole? (i / 10 ^ scale)) := by
  rw [rescale, DataType.whole?]
  split
  · rename_i h
    have hwhole : (DataType.decimal 38 0).whole (i / 10 ^ scale) = i * 10 ^ (0 - scale).toNat := by
      rw [DataType.whole, div_zpow_of_nonpos h, rounded_intCast, Int.zero_sub]
    rw [hwhole]
    dsimp only
    split
    · exact fit_eq _ _
    · rename_i hword
      rw [if_neg (mt DataType.spans_decimal.1 (mt inWord_of_natAbs_lt hword))]
      rfl
  · rename_i h
    have hwhole : (DataType.decimal 38 0).whole (i / 10 ^ scale) =
        if i < 0 then
          -(((2 * i.natAbs + 10 ^ (scale - 0).toNat) / (2 * 10 ^ (scale - 0).toNat) : ℕ) : ℤ)
        else ((2 * i.natAbs + 10 ^ (scale - 0).toNat) / (2 * 10 ^ (scale - 0).toNat) : ℕ) := by
      rw [DataType.whole, div_zpow_of_nonneg (by omega), rounded_div i (by positivity),
        Int.sub_zero]
    rw [hwhole]
    exact fit_eq _ _

end Decimals

namespace Value

def amount? : Value → Option ℚ
  | of (.scalar (.int _)) i => some (Fixed.val i)
  | of (.decimal _ scale) i => some ((i : ℤ) / 10 ^ scale)
  | _ => none

/-- The number that a value counts as on a type: its own where it is of the type, and elsewhere the
whole number that stands for it there, if there is one. -/
def heldIn? (t : DataType) : Value → Option ℚ
  | of s a => if s = t then (of s a).amount? else (of s a).amount?.bind fun p =>
      (t.whole? p).map Int.cast
  | null => none

variable {s t : DataType} {a : s.Carrier} {p q : ℚ}

theorem heldIn?_of_type (a : t.Carrier) : (of t a).heldIn? t = (of t a).amount? := by
  rw [heldIn?, if_pos rfl]

theorem heldIn?_of_spans {v : Value} {i : ℤ} (hv : v.amount? = some (i : ℚ)) (hi : t.spans i) :
    v.heldIn? t = some (i : ℚ) := by
  have hwhole : t.whole i = i := by
    unfold DataType.whole
    split
    · exact rounded_intCast i
    · exact truncated_intCast i
  cases v with
  | null => cases hv
  | of s a =>
    rw [heldIn?, hv]
    split
    · rfl
    · simp [DataType.whole?, hwhole, hi]

inductive Denotes : Value → ℚ → Prop
  | int {t : IntType} (i : Fixed t) : Denotes (of (.int t) i) i.val
  | decimal {digits : ℕ} {scale : ℤ} (i : ℤ) :
      Denotes (of (.decimal digits scale) i) (i / 10 ^ scale)

theorem denotes_of_amount? {v : Value} (h : v.amount? = some p) : v.Denotes p := by
  unfold amount? at h
  split at h
  · cases h
    exact .int _
  · cases h
    exact .decimal _
  · cases h

theorem isExact_of_amount? (h : (of s a).amount? = some p) : s.isExact := by
  cases denotes_of_amount? h <;> rfl

theorem exists_exact (h : s.isExact) (a : s.Carrier) : ∃ p, (of s a).amount? = some p := by
  unfold DataType.isExact at h
  split at h
  · exact ⟨_, rfl⟩
  · exact ⟨_, rfl⟩
  · cases h

theorem div_zpow_lt_div_zpow (scale : ℤ) {i j : ℤ} (h : i < j) :
    (i : ℚ) / 10 ^ scale < j / 10 ^ scale :=
  div_lt_div_of_pos_right (Int.cast_lt.2 h) (zpow_pos (by norm_num) scale)

theorem compare_exact {a b : t.Carrier} (hp : (of t a).amount? = some p)
    (hq : (of t b).amount? = some q) :
    t.compare a b = compare p q := by
  cases denotes_of_amount? hp with
  | int i =>
    cases hq
    rw [← cmp_eq_compare, Int.cast_strictMono.cmp_map_eq, cmp_eq_compare]
    rfl
  | @decimal digits scale i =>
    cases hq
    have hmono : StrictMono fun i : ℤ => (i : ℚ) / 10 ^ scale :=
      fun _ _ => div_zpow_lt_div_zpow scale
    rw [← cmp_eq_compare, hmono.cmp_map_eq, cmp_eq_compare]
    rfl

theorem amount?_ofInt? (t : IntType) (i : ℤ) :
    ((Fixed.ofInt? t i).bind fun b => (of (.int t) b).amount?) =
    (if (DataType.int t).spans i then some i else none).map Int.cast := by
  unfold Fixed.ofInt?
  split
  · rename_i h
    rw [if_pos (DataType.spans_int.2 h)]
    rfl
  · rename_i h
    rw [if_neg (mt DataType.spans_int.1 h)]
    rfl

theorem asCell?_int_of_exact {t : IntType} (hst : s ≠ .int t) (h : (of s a).amount? = some p) :
    (of s a).asCell? (.int t) = some (Fixed.ofInt? t (truncated p)) := by
  cases denotes_of_amount? h with
  | int i =>
    refine asCell?_of_flat hst rfl nofun rfl ?_
    rw [truncated_intCast]
    change (Outcome.ofOption _ (Fixed.ofInt? t i.val)).lenient = _
    cases Fixed.ofInt? t i.val <;> rfl
  | @decimal digits scale i =>
    exact asCell?_of_flat hst rfl nofun rfl (Decimals.toFixed_eq t scale i)

theorem asCell?_decimal_of_exact (hst : s ≠ .decimal 38 0) (h : (of s a).amount? = some p) :
    (of s a).asCell? (.decimal 38 0) = some ((DataType.decimal 38 0).whole? p) := by
  cases denotes_of_amount? h with
  | int i =>
    rw [asCell?_int_decimal, DataType.whole?, DataType.whole, rounded_intCast,
      if_pos (DataType.spans_decimal.2 i.natAbs_lt)]
  | @decimal digits scale i => exact asCell?_of_flat hst rfl nofun rfl (Decimals.rescale_eq scale i)

theorem asCell?_of_exact (h : (of s a).amount? = some p)
    (ht : s = t ∨ (∃ u, t = .int u) ∨ t = .decimal 38 0) :
    ∃ cell, (of s a).asCell? t = some cell ∧
      (cell.bind fun b => (of t b).amount?) = (of s a).heldIn? t := by
  by_cases hst : s = t
  · subst hst
    exact ⟨some a, asCell?_of_type s a, (heldIn?_of_type a).symm⟩
  rw [heldIn?, if_neg hst, h, Option.bind_some]
  rcases ht with rfl | ⟨u, rfl⟩ | rfl
  · exact absurd rfl hst
  · exact ⟨_, asCell?_int_of_exact hst h, amount?_ofInt? u (truncated p)⟩
  · refine ⟨_, asCell?_decimal_of_exact hst h, ?_⟩
    cases (DataType.decimal 38 0).whole? p with
    | none => rfl
    | some i => simp [amount?]

theorem comparisonType_exact {s r : DataType} (hs : s.isExact) (hr : r.isExact) :
    ∃ t, comparisonType s r = some t ∧ (s = t ∧ r = t ∨ (∃ u, t = .int u) ∨ t = .decimal 38 0) := by
  obtain ⟨hsp, hsn, hsm, hsf⟩ := DataType.facts_of_isExact hs
  obtain ⟨hrp, hrn, hrm, hrf⟩ := DataType.facts_of_isExact hr
  simp only [comparisonType, hsp, hrp, hsn, hrn, hsm, hrm, hsf, hrf, ↓reduceIte, Bool.and_self,
    Bool.or_self, Bool.false_eq_true]
  split_ifs with h
  · exact ⟨s, rfl, .inl ⟨rfl, h.symm⟩⟩
  · exact ⟨_, rfl, .inr (.inl ⟨_, rfl⟩)⟩
  · exact ⟨_, rfl, .inr (.inr rfl)⟩
  · exact ⟨_, rfl, .inr (.inl ⟨_, rfl⟩)⟩

theorem compare?_exact {s r t : DataType} {a : s.Carrier} {b : r.Carrier} (op : Comparison)
    (ht : comparisonType s r = some t) (hp : (of s a).amount? = some p)
    (hq : (of r b).amount? = some q) :
    compare? op (of s a) (of r b) =
      some (do return op.holds (compare (← (of s a).heldIn? t) (← (of r b).heldIn? t))) := by
  obtain ⟨t', ht', hcases⟩ := comparisonType_exact (isExact_of_amount? hp) (isExact_of_amount? hq)
  cases ht.symm.trans ht'
  obtain ⟨c, hc, hcx⟩ := asCell?_of_exact hp (hcases.imp_left And.left)
  obtain ⟨d, hd, hdy⟩ := asCell?_of_exact hq (hcases.imp_left And.right)
  have hcells : compare? op (of s a) (of r b) = some (Operand.compareCells op c d) := by
    simp [compare?, ht, hc, hd]
  have hexact : t.isExact := by
    rcases hcases with ⟨rfl, -⟩ | ⟨u, rfl⟩ | rfl
    · exact isExact_of_amount? hp
    · rfl
    · rfl
  rw [hcells, ← hcx, ← hdy]
  cases c with
  | none => rfl
  | some c =>
    obtain ⟨p', hp'⟩ := exists_exact hexact c
    cases d with
    | none => simp [hp', Operand.compareCells]
    | some d =>
      obtain ⟨q', hq'⟩ := exists_exact hexact d
      simp [hp', hq', Operand.compareCells, compare_exact hp' hq']

theorem comparisonType_self (h : s.isExact) : comparisonType s s = some s := by
  rw [comparisonType, (DataType.facts_of_isExact h).1, if_pos rfl]

theorem spans_of_integers {s r : IntType} (hsr : s ≠ r)
    (ht : comparisonType (.int s) (.int r) = some t) (i : Fixed s) : t.spans i.val := by
  rw [comparisonType_int hsr] at ht
  split_ifs at ht with hu hd
  · cases ht
    exact DataType.spans_int.2 (i.within_uint64 hu.1)
  · cases ht
    exact DataType.spans_decimal.2 i.natAbs_lt
  · cases ht
    exact DataType.spans_int.2 (i.within_int64 fun h => hd (.inl h))

theorem heldIn?_common {r : DataType} {b : r.Carrier} (ht : comparisonType s r = some t)
    (hp : (of s a).amount? = some p) (hq : (of r b).amount? = some q)
    (h : s = r ∨ s.isInteger ∧ r.isInteger ∨ ∃ m n : ℤ, p = m ∧ q = n ∧ t.spans m ∧ t.spans n) :
    (of s a).heldIn? t = some p ∧ (of r b).heldIn? t = some q := by
  by_cases hsr : s = r
  · subst hsr
    cases ht.symm.trans (comparisonType_self (isExact_of_amount? hp))
    exact ⟨(heldIn?_of_type a).trans hp, (heldIn?_of_type b).trans hq⟩
  rcases h with h | ⟨hs, hr⟩ | ⟨m, n, rfl, rfl, hm, hn⟩
  · exact absurd h hsr
  · cases denotes_of_amount? hp with
    | decimal => cases hs
    | @int s i =>
      cases denotes_of_amount? hq with
      | decimal => cases hr
      | @int r j =>
        have hne : s ≠ r := fun he => hsr (he ▸ rfl)
        exact ⟨heldIn?_of_spans rfl (spans_of_integers hne ht i),
          heldIn?_of_spans rfl (spans_of_integers hne.symm ((comparisonType_comm _ _).trans ht) j)⟩
  · exact ⟨heldIn?_of_spans hp hm, heldIn?_of_spans hq hn⟩

end Value

theorem Column.value?_exact {c : Column} (h : c.type.isExact) {i : ℕ} {x : Value}
    (hx : c.value? i = some x) (hnull : x.isNull = false) :
    ∃ a p, x = .of c.type a ∧ x.amount? = some p := by
  obtain ⟨type, cells⟩ := c
  obtain ⟨cell, -, rfl⟩ := Option.map_eq_some_iff.1 hx
  cases cell with
  | none => cases hnull
  | some a =>
    obtain ⟨p, hp⟩ := Value.exists_exact h a
    have hof : Value.ofSome type a = .of type a := by
      cases type with
      | dictionary => cases h
      | _ => rfl
    exact ⟨a, p, hof, by rw [Value.ofCell_some, hof, hp]⟩

namespace Expr

open Value (ofTruth)

variable {b : Batch} {l r : Expr} {c d : Column}

/--
Columns of integers and decimals always compare, row by row, by the numbers that are held in the
common type. These are the exact ones where the types are equal, where both are integers, and where
both numbers are whole and lie in the range of the common type. Elsewhere a fraction may be lost on
the way.
-/
theorem eval_compare_exact (op : Comparison) (hl : l.operand b = .ok (.column c))
    (hr : r.operand b = .ok (.column d)) (hc : c.type.isExact) (hd : d.type.isExact) :
    ∃ t e, comparisonType c.type d.type = some t ∧ (compare op l r).eval b = .ok e ∧
      ∀ i x y, c.value? i = some x → d.value? i = some y → x.isNull = false → y.isNull = false →
        ∃ p q, x.amount? = some p ∧ y.amount? = some q ∧
          e.value? i =
            some (ofTruth do return op.holds (Ord.compare (← x.heldIn? t) (← y.heldIn? t))) ∧
          (c.type = d.type ∨ c.type.isInteger ∧ d.type.isInteger ∨
              (∃ m n : ℤ, p = m ∧ q = n ∧ t.spans m ∧ t.spans n) →
            e.value? i = some (ofTruth (some (op.holds (Ord.compare p q))))) := by
  obtain ⟨t, ht, -⟩ := Value.comparisonType_exact hc hd
  obtain ⟨hcp, hcn, -, -⟩ := DataType.facts_of_isExact hc
  obtain ⟨hdp, hdn, -, -⟩ := DataType.facts_of_isExact hd
  obtain ⟨u, hu⟩ : ∃ u, Operand.compareWith op b.rows (.column c) (.column d) = .ok u := by
    refine Operand.compareWith_of_comparable ⟨t, ht, ?_⟩
    rintro (h | h)
    · exact absurd (hcp.symm.trans h) hcn
    · exact absurd (hdp.symm.trans h) hdn
  refine ⟨t, u.toColumn b.rows,
    ht, by rw [eval, operand, hl, hr]; exact bind_eq_ok.2 ⟨u, hu, rfl⟩, ?_⟩
  intro i x y hx hy hxn hyn
  have hi : i < b.rows := by
    obtain ⟨cell, hcell, -⟩ := Option.map_eq_some_iff.1 hx
    obtain ⟨hlt, -⟩ := List.getElem?_eq_some_iff.1 hcell
    exact hlt.trans_eq (fills_operand hl)
  obtain ⟨a, p, rfl, hp⟩ := Column.value?_exact hc hx hxn
  obtain ⟨a', q, rfl, hq⟩ := Column.value?_exact hd hy hyn
  have hrow : (u.toColumn b.rows).value? i = some (ofTruth do
      return op.holds
        (Ord.compare (← (Value.of c.type a).heldIn? t) (← (Value.of d.type a').heldIn? t))) := by
    obtain ⟨o, ho, hat⟩ := Operand.compareWith_at? hu hi hx hy (Operand.calm_of_isQuiet rfl rfl)
    rw [Value.compare?_exact op ht hp hq] at ho
    cases ho
    rw [Operand.value?_toColumn u hi, hat]
  refine ⟨p, q, hp, hq, hrow, fun hheld => ?_⟩
  obtain ⟨hxt, hyt⟩ := Value.heldIn?_common ht hp hq hheld
  rw [hrow, hxt, hyt]
  rfl

def halves : Batch where
  rows := 2
  columns := [⟨"x", false, ⟨.float64, [some (.round false 3 2), some (.ofInt 2)]⟩, .empty⟩,
    ⟨"y", false, ⟨.int .int32, [some (.wrap .int32 1), some (.wrap .int32 2)]⟩, .empty⟩]
  sized := by simp [Column.length]

def hundredths : Expr := cast (field "x") (.decimal 10 2)

theorem operand_hundredths :
    hundredths.operand halves = .ok (.column ⟨.decimal 10 2, [some 150, some 200]⟩) := rfl

theorem eval_compare_exact_whole : ∃ e, (compare .eq hundredths (field "y")).eval halves = .ok e ∧
    e.value? 1 = some (ofTruth (some true)) := by
  have hx : (Value.of (.decimal 10 2) (200 : ℤ)).amount? = some 2 := by norm_num [Value.amount?]
  have hy : (Value.of (.int .int32) (.wrap .int32 2)).amount? = some 2 := by
    rw [Value.amount?, show (Fixed.wrap .int32 2).val = 2 from rfl, Int.cast_ofNat]
  obtain ⟨t, e, ht, he, hrows⟩ :=
    eval_compare_exact .eq operand_hundredths (r := field "y") rfl rfl rfl
  obtain ⟨p, q, hp, hq, -, hexact⟩ := hrows 1 _ _ rfl rfl rfl rfl
  cases ht
  cases hx.symm.trans hp
  cases hy.symm.trans hq
  refine ⟨e, he,
    (hexact (.inr (.inr ⟨2, 2, by norm_num, by norm_num, by decide, by decide⟩))).trans ?_⟩
  rw [compare_eq_iff_eq.2 rfl]
  rfl

/-- The fraction is dropped before one and a half is compared with one. -/
theorem eval_compare_inexact :
    (compare .eq hundredths (field "y")).eval halves = .ok ⟨.boolean, [some true, some true]⟩ ∧
      (Value.of (.decimal 10 2) (150 : ℤ)).amount? = some (3 / 2) ∧
      (Value.of (.int .int32) (.wrap .int32 1)).amount? = some 1 ∧
      Comparison.eq.holds (Ord.compare (3 / 2 : ℚ) 1) = false := by
  have hone : (Fixed.wrap .int32 1).val = 1 := rfl
  refine ⟨rfl, ?_, ?_, ?_⟩
  · norm_num [Value.amount?]
  · rw [Value.amount?, hone, Int.cast_one]
  · rw [compare_gt_iff_gt.2 (by norm_num)]
    rfl

end Expr

end TableScan
