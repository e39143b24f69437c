import Mathlib.Data.List.Induction
import TableScan.Proofs.Constants
import TableScan.Proofs.Lines

/-!
Comparisons of a field with literals, and what they settle together. The tightest bounds see of a
literal what the comparisons see of it one by one, so that their order does not matter; what is
settled is so for every value that satisfies them all, and one of them settles it alone.
-/

namespace TableScan

open Value (ofScalar)

/-- What can be known of where a field lies relative to a literal. -/
inductive Sight : Type
  | excluded | above | atLeast | below | atMost
  deriving DecidableEq

def Sight.holds : Sight → Ordering → Bool
  | excluded, o => o != .eq
  | above, o => o == .gt
  | atLeast, o => o != .lt
  | below, o => o == .lt
  | atMost, o => o != .gt

namespace Comparison

variable {known asked : Comparison} {s : Sight}

def sights : Comparison → List Sight
  | eq | ne => [.excluded, .above, .below]
  | lt | ge => [.atLeast, .below]
  | le | gt => [.above, .atMost]

theorem exists_holds_eq (h : s ∈ asked.sights) :
    ∃ r, ∀ o, s.holds o = true → asked.holds o = r := by
  refine ⟨asked.holds (match s with |
    .excluded | .above | .atLeast => .gt | .below | .atMost => .lt), ?_⟩
  revert h
  cases asked <;> cases s <;> rintro h (_ | _ | _) <;> revert h <;> decide

/-- What a comparison with a bound tells of a literal, by the order of the bound and the literal. An
equation tells nothing, as the value is put in the place of the field. -/
def tells : Comparison → Ordering → Sight → Bool
  | ne, o, .excluded => o == .eq
  | lt, o, .below | lt, o, .atMost | le, o, .atMost => o != .gt
  | le, o, .below => o == .lt
  | gt, o, .above | gt, o, .atLeast | ge, o, .atLeast => o != .lt
  | ge, o, .above => o == .gt
  | _, _, _ => false

def Settles (known : Comparison) (o : Ordering) (asked : Comparison) (r : Bool) : Prop :=
  ∀ x bound v : Int, compare bound v = o → known.holds (compare x bound) = true →
    asked.holds (compare x v) = r

theorem holds_of_tells {x bound v : Int} (h : known.tells (compare bound v) s = true)
    (hx : known.holds (compare x bound) = true) : s.holds (compare x v) = true := by
  cases known <;> cases s <;>
    simp only [tells, Bool.false_eq_true, beq_iff_eq, bne_iff_ne, ne_eq, holds, Sight.holds,
      compare_eq_iff_eq, compare_lt_iff_lt, compare_gt_iff_gt] at h hx ⊢ <;> omega

def place : Ordering → Int
  | .lt => 2
  | .eq => 0
  | .gt => -2

theorem exists_settles_iff {o : Ordering} (hk : known ≠ .eq) :
    (∃ r, known.Settles o asked r) ↔ ∃ s ∈ asked.sights, known.tells o s = true := by
  constructor
  · rintro ⟨r, h⟩
    -- values on all sides of the bound and the literal, and between them, show whether it is
    -- settled
    have probe : ∀ x ∈ [-3, -2, -1, 0, 1, 2, 3],
        known.holds (compare x 0) = true → asked.holds (compare x (place o)) = r :=
      fun x _ => h x 0 (place o) (by cases o <;> rfl)
    clear h
    revert probe hk
    cases known <;> cases asked <;> cases o <;> cases r <;> decide
  · rintro ⟨s, hs, ht⟩
    obtain ⟨r, hr⟩ := exists_holds_eq hs
    refine ⟨r, fun x bound v ho hx => hr _ (holds_of_tells ?_ hx)⟩
    rw [ho]
    exact ht

theorem tells_eq (o : Ordering) (s : Sight) : eq.tells o s = false := by cases s <;> rfl

end Comparison

namespace Facts

variable {l : Line} {g g' : Facts} {v w : Scalar} {op : Comparison} {n : String} {c : Expr}

theorem any_tighten {tighter : Bound → Bound → Bool} {f : Bound → Bool} {old : Option Bound}
    {new : Bound} (hnew : ∀ b, old = some b → tighter new b = true → f b = true → f new = true)
    (hold : ∀ b, old = some b → tighter new b = false → f new = true → f b = true) :
    (tighten tighter old new).any f = (old.any f || f new) := by
  cases old with
  | none => rfl
  | some b =>
    simp only [tighten, Option.any_some]
    split
    · rename_i h
      rw [Option.any_some, Bool.eq_iff_iff, Bool.or_eq_true]
      exact ⟨.inr, fun h' => h'.elim (hnew b rfl h) id⟩
    · rename_i h
      rw [Option.any_some, Bool.eq_iff_iff, Bool.or_eq_true]
      exact ⟨.inl, fun h' => h'.elim id (hold b rfl (Bool.eq_false_of_not_eq_true h))⟩

def sees (g : Facts) (v : Scalar) : Sight → Bool
  | .excluded => g.excluded.any fun e => e.order? v = some .eq
  | .above => g.lower.any (Bound.beyond .gt v)
  | .atLeast => g.lower.any (Bound.reaches .gt v)
  | .below => g.upper.any (Bound.beyond .lt v)
  | .atMost => g.upper.any (Bound.reaches .lt v)

theorem decide_congr (h : ∀ s, g.sees v s = g'.sees v s) : g.decide op v = g'.decide op v := by
  have he := h .excluded
  have ha := h .above
  have hl := h .atLeast
  have hb := h .below
  have hm := h .atMost
  simp only [sees] at he ha hl hb hm
  simp only [decide, he, ha, hl, hb, hm]

theorem isSome_decide (hv : v.isNull = false) :
    (g.decide op v).isSome = op.sights.any (g.sees v) := by
  unfold decide
  rw [if_neg (by simp [hv])]
  cases op <;> simp only [Comparison.sights, List.any_cons, List.any_nil, sees]
  all_goals
    generalize g.excluded.any (fun e => e.order? v = some .eq) = excluded
    generalize g.lower.any (Bound.beyond .gt v) = above
    generalize g.lower.any (Bound.reaches .gt v) = atLeast
    generalize g.upper.any (Bound.beyond .lt v) = below
    generalize g.upper.any (Bound.reaches .lt v) = atMost
    revert excluded above atLeast below atMost
    decide

def learn (ps : List (Comparison × Scalar)) : Facts :=
  ps.foldl (fun g p => g.addComparison p.1 p.2) none_

theorem learn_append (ps : List (Comparison × Scalar)) (p : Comparison × Scalar) :
    learn (ps ++ [p]) = (learn ps).addComparison p.1 p.2 := by
  rw [learn, List.foldl_append]
  rfl

theorem any_tighten_of_line (old : Option Bound) (new : Bound) {side : Ordering}
    (hs : side = .lt ∨ side = .gt) (hold : ∀ b, old = some b → b.LiesOn l) (hnew : new.LiesOn l)
    (hv : v.type.line? = some l) :
    (tighten (Bound.tighter side) old new).any (Bound.beyond side v) =
        (old.any (Bound.beyond side v) || new.beyond side v) ∧
      (tighten (Bound.tighter side) old new).any (Bound.reaches side v) =
        (old.any (Bound.reaches side v) || new.reaches side v) := by
  have tighter (b : Bound) (hb : old = some b) (h : new.tighter side b = true) :
      Bound.Covers l side new b :=
    Bound.covers_of_tighter hnew (hold b hb) (by rcases hs with rfl | rfl <;> nofun) h
  have looser (b : Bound) (hb : old = some b) (h : new.tighter side b = false) :
      Bound.Covers l side b new :=
    Bound.covers_of_not_tighter hnew (hold b hb) hs h
  exact ⟨any_tighten (fun b hb h => (tighter b hb h).beyond v hv)
    (fun b hb h => (looser b hb h).beyond v hv),
    any_tighten (fun b hb h => (tighter b hb h).reaches v hv)
    (fun b hb h => (looser b hb h).reaches v hv)⟩

theorem sees_addComparison (hg : ∀ b ∈ g.bounds, b.LiesOn l) (hw : w.type.line? = some l)
    (hv : v.type.line? = some l) (s : Sight) :
    (g.addComparison op w).sees v s = (g.sees v s || (learn [(op, w)]).sees v s) := by
  cases hn : w.isNull with
  | true =>
    simp only [learn, List.foldl_cons, List.foldl_nil, addComparison, hn, ↓reduceIte]
    cases s <;> exact (Bool.or_false _).symm
  | false =>
    simp only [learn, List.foldl_cons, List.foldl_nil, addComparison, hn, Bool.false_eq_true,
      ↓reduceIte]
    have lower (i : Bool) := any_tighten_of_line g.lower ⟨w, i⟩ (.inr rfl)
      (fun b hb => hg b (mem_bounds.2 (.inl hb))) ⟨hw, hn⟩ hv
    have upper (i : Bool) := any_tighten_of_line g.upper ⟨w, i⟩ (.inl rfl)
      (fun b hb => hg b (mem_bounds.2 (.inr (.inl hb)))) ⟨hw, hn⟩ hv
    simp only [Bound.tighterUpper_eq, Bound.tighterLower_eq]
    cases op with
    | eq => cases s <;> exact (Bool.or_false _).symm
    | ne =>
      cases s with
      | excluded => exact List.any_append
      | _ => exact (Bool.or_false _).symm
    | lt | le =>
      cases s with
      | below => exact (upper _).1
      | atMost => exact (upper _).2
      | _ => exact (Bool.or_false _).symm
    | gt | ge =>
      cases s with
      | above => exact (lower _).1
      | atLeast => exact (lower _).2
      | _ => exact (Bool.or_false _).symm

variable {ps qs : List (Comparison × Scalar)}

theorem liesOn_of_mem_bounds (hps : ∀ p ∈ ps, p.2.type.line? = some l) {b : Bound}
    (h : b ∈ (learn ps).bounds) :
    b.LiesOn l := by
  induction ps using List.reverseRecOn with
  | nil => exact absurd h List.not_mem_nil
  | append_singleton ps p ih =>
    rw [learn_append] at h
    rcases bound_addComparison h with h | ⟨hv, hn, -⟩
    · exact ih (fun q hq => hps q (List.mem_append_left _ hq)) h
    · rw [hv] at hn
      exact ⟨hv ▸ hps p (List.mem_append_right _ (List.mem_singleton.2 rfl)), hn⟩

theorem sees_learn (hps : ∀ p ∈ ps, p.2.type.line? = some l) (hv : v.type.line? = some l)
    (s : Sight) :
    (learn ps).sees v s = ps.any fun p => (learn [p]).sees v s := by
  induction ps using List.reverseRecOn with
  | nil => cases s <;> rfl
  | append_singleton ps p ih =>
    have hold (q : Comparison × Scalar) (hq : q ∈ ps) := hps q (List.mem_append_left _ hq)
    rw [learn_append, List.any_append, ← ih hold,
      sees_addComparison (fun b hb => liesOn_of_mem_bounds hold hb)
      (hps p (List.mem_append_right _ (List.mem_singleton.2 rfl))) hv]
    exact congrArg _ (Bool.or_false _).symm

theorem sees_learn_singleton (known : Comparison) (w v : Scalar) (s : Sight) :
    (learn [(known, w)]).sees v s = (w.order? v).any (known.tells · s) := by
  cases hn : w.isNull with
  | true =>
    have ho : w.order? v = none := by
      by_contra h
      obtain ⟨o, ho⟩ := Option.ne_none_iff_exists'.1 h
      rw [(Scalar.isNull_of_order? ho).1] at hn
      cases hn
    simp only [ho, learn, List.foldl_cons, List.foldl_nil, addComparison, hn, ↓reduceIte]
    cases s <;> rfl
  | false =>
    simp only [learn, List.foldl_cons, List.foldl_nil, addComparison, hn, Bool.false_eq_true,
      ↓reduceIte]
    cases known <;> cases s <;>
      simp only [sees, none_, tighten, Option.any_none, Option.any_some, Bound.beyond,
        Bound.reaches, Comparison.tells, List.any_nil, List.nil_append, List.any_cons] <;>
      rcases w.order? v with _ | (_ | _ | _) <;> rfl

theorem isSome_decide_learn (hps : ∀ p ∈ ps, p.2.type.line? = some l) (hv : v.type.line? = some l) :
    ((learn ps).decide op v).isSome = true ↔
      ∃ p ∈ ps, p.1 ≠ .eq ∧ ∃ o r, p.2.order? v = some o ∧ p.1.Settles o op r := by
  cases hn : v.isNull with
  | true =>
    rw [decide, if_pos hn]
    refine iff_of_false Bool.false_ne_true ?_
    rintro ⟨p, -, -, o, r, ho, -⟩
    rw [(Scalar.isNull_of_order? ho).2] at hn
    cases hn
  | false =>
    rw [isSome_decide hn, List.any_eq_true]
    constructor
    · rintro ⟨s, hs, hsees⟩
      rw [sees_learn hps hv, List.any_eq_true] at hsees
      obtain ⟨⟨known, w⟩, hp, hsees⟩ := hsees
      rw [sees_learn_singleton, Option.any_eq_true] at hsees
      obtain ⟨o, ho, ht⟩ := hsees
      have hk : known ≠ .eq := by
        rintro rfl
        rw [Comparison.tells_eq] at ht
        cases ht
      obtain ⟨r, hr⟩ := (Comparison.exists_settles_iff hk).2 ⟨s, hs, ht⟩
      exact ⟨_, hp, hk, o, r, ho, hr⟩
    · rintro ⟨⟨known, w⟩, hp, hk, o, r, ho, hr⟩
      obtain ⟨s, hs, ht⟩ := (Comparison.exists_settles_iff hk).1 ⟨r, hr⟩
      refine ⟨s, hs, ?_⟩
      rw [sees_learn hps hv, List.any_eq_true]
      exact ⟨_, hp, by rw [sees_learn_singleton, Option.any_eq_true]; exact ⟨o, ho, ht⟩⟩

theorem decide_learn_congr (hps : ∀ p ∈ ps, p.2.type.line? = some l) (hv : v.type.line? = some l)
    (h : ∀ p, p ∈ ps ↔ p ∈ qs) : (learn ps).decide op v = (learn qs).decide op v := by
  refine decide_congr fun s => ?_
  rw [sees_learn hps hv, sees_learn (fun p hp => hps p ((h p).2 hp)) hv, Bool.eq_iff_iff,
    List.any_eq_true, List.any_eq_true]
  exact exists_congr fun p => and_congr_left' (h p)

end Facts

namespace Expr

def comparison? (n : String) : Expr → Option (Comparison × Scalar)
  | compare op (field f) (lit v) => if f = n then some (op, v) else none
  | compare op (lit v) (field f) => if f = n then some (op.flip, v) else none
  | _ => none

def comparisons (n : String) (e : Expr) : List (Comparison × Scalar) :=
  e.conjuncts.filterMap (comparison? n)

theorem eq_of_comparison? {n : String} {e : Expr} {p : Comparison × Scalar}
    (h : e.comparison? n = some p) :
    e = compare p.1 (field n) (lit p.2) ∨ e = compare p.1.flip (lit p.2) (field n) := by
  unfold comparison? at h
  split at h
  · obtain ⟨hf, h⟩ := Option.ite_none_right_eq_some.1 h
    cases h
    exact .inl (by rw [hf])
  · obtain ⟨hf, h⟩ := Option.ite_none_right_eq_some.1 h
    cases h
    exact .inr (by rw [hf, Comparison.flip_flip])
  · cases h

end Expr

namespace Facts

variable {l : Line} {g g' : Facts} {v : Scalar} {op : Comparison} {n : String} {c : Expr}

structure BoundAlike (g g' : Facts) : Prop where
  lower : g.lower = g'.lower
  upper : g.upper = g'.upper
  excluded : g.excluded = g'.excluded

theorem BoundAlike.decide (h : g.BoundAlike g') : g.decide op v = g'.decide op v := by
  simp only [Facts.decide, h.lower, h.upper, h.excluded]

theorem BoundAlike.addComparison (h : g.BoundAlike g') :
    (g.addComparison op v).BoundAlike (g'.addComparison op v) := by
  unfold Facts.addComparison
  split
  · exact h
  · cases op <;> constructor <;> simp only [h.lower, h.upper, h.excluded]

theorem add_of_comparison? {p : Comparison × Scalar} (h : c.comparison? n = some p) :
    add n g c = g.addComparison p.1 p.2 := by
  rcases Expr.eq_of_comparison? h with rfl | rfl
  · exact if_pos rfl
  · exact (if_pos rfl).trans (by rw [Comparison.flip_flip])

theorem BoundAlike.add (h : g.BoundAlike g') (hc : c.comparison? n = none) :
    (add n g c).BoundAlike g' := by
  unfold Facts.add
  split
  · rw [if_neg (by rintro rfl; simp [Expr.comparison?] at hc)]
    exact h
  · rw [if_neg (by rintro rfl; simp [Expr.comparison?] at hc)]
    exact h
  · split <;> exact ⟨h.lower, h.upper, h.excluded⟩
  · split <;> exact ⟨h.lower, h.upper, h.excluded⟩
  · exact h

theorem decide_ofGuarantee (given : Expr) (n : String) (op : Comparison) (v : Scalar) :
    (ofGuarantee given n).decide op v = (learn (given.comparisons n)).decide op v := by
  have run (cs : List Expr) (g g' : Facts) (h : g.BoundAlike g') :
      (cs.foldl (add n) g).BoundAlike
        ((cs.filterMap (Expr.comparison? n)).foldl (fun g p => g.addComparison p.1 p.2) g') := by
    induction cs generalizing g g' with
    | nil => exact h
    | cons c cs ih =>
      cases hc : c.comparison? n with
      | none =>
        rw [List.filterMap_cons_none hc]
        exact ih _ _ (h.add hc)
      | some p =>
        rw [List.filterMap_cons_some hc, List.foldl_cons, List.foldl_cons, add_of_comparison? hc]
        exact ih _ _ h.addComparison
  exact (run given.conjuncts none_ none_ ⟨rfl, rfl, rfl⟩).decide

variable {x : Value} {ps : List (Comparison × Scalar)}

theorem holds_learn (h : ∀ p ∈ ps, Value.compare? p.1 x (ofScalar p.2) = some (some true)) :
    (learn ps).Holds x := by
  induction ps using List.reverseRecOn with
  | nil => exact .of_none x
  | append_singleton ps p ih =>
    rw [learn_append]
    exact (ih fun q hq => h q (List.mem_append_left _ hq)).addComparison
      (h p (List.mem_append_right _ (List.mem_singleton.2 rfl)))

theorem eq_of_decide_learn {r : Bool} {t : Option Bool} (hps : ∀ p ∈ ps, p.2.type.line? = some l)
    (hv : v.type.line? = some l) (hx : x.LiesOn l)
    (h : ∀ p ∈ ps, Value.compare? p.1 x (ofScalar p.2) = some (some true))
    (hd : (learn ps).decide op v = some r) (ht : Value.compare? op x (ofScalar v) = some t) :
    t = some r := by
  refine (holds_learn h).decide (isPlain_of_liesOn hx) (fun _ _ => isQuiet_of_line hv)
    (fun b hb => ?_) hd ht
  have hbl := (liesOn_of_mem_bounds hps hb).line
  exact ⟨Bound.bears_of_line hx hbl hv, isQuiet_of_line hbl, isQuiet_of_liesOn hx⟩

end Facts

theorem Scalar.answer_of_line {l : Line} {a v : Scalar} (op : Comparison)
    (ha : a.type.line? = some l) (hv : v.type.line? = some l) :
    ∃ t, a.answer op v = .ok (.ofTruth t) ∧
      Value.compare? op (ofScalar a) (ofScalar v) = some t := by
  obtain ⟨o, ho⟩ :=
    Scalar.compare_of_comparisonType (v := a) (w := v) (isSome_comparisonType_of_line ha hv)
  refine ⟨o.map op.holds, ?_, Operand.compare_scalar op ho fun _ =>
    ⟨isQuiet_of_line ha, isQuiet_of_line hv⟩⟩
  rw [answer, ho]
  rfl

namespace Expr

variable {b : Batch} {c : Column} {l : Line} {v : Scalar} {n : String} {ρ : Row} {x : Value}
  {t : Option Bool}

theorem compare?_of_truth? {e : Expr} {p : Comparison × Scalar} (he : e.comparison? n = some p)
    (hx : ρ n = some x) (ht : e.truth? ρ = some t) :
    Value.compare? p.1 x (ofScalar p.2) = some t := by
  rcases eq_of_comparison? he with rfl | rfl
  · obtain ⟨y, z, s, hy, hz, hs, hst⟩ := value?_compare (truth?_eq_some ht)
    cases hx.symm.trans hy
    cases hz
    rw [hs, Value.ofTruth_injective hst]
  · obtain ⟨y, z, s, hy, hz, hs, hst⟩ := value?_compare (truth?_eq_some ht)
    cases hx.symm.trans hz
    cases hy
    rw [← Value.compare?_flip, hs, Value.ofTruth_injective hst]

theorem compare?_of_mask {e : Expr} {p : Comparison × Scalar} {m : List (Option Bool)} {i : Nat}
    (he : e.comparison? n = some p) (hp : p.2.type.line? = some l) (hm : e.mask b = .ok m)
    (hi : i < b.rows) (hx : b.row i n = some x) :
    ∃ t, m[i]? = some t ∧ Value.compare? p.1 x (ofScalar p.2) = some t := by
  have hplain : e.isQuiet ∧ e.recodes b.schema = false := by
    rcases eq_of_comparison? he with rfl | rfl
    · exact ⟨isQuiet_of_line hp, rfl⟩
    · exact ⟨by rw [isQuiet, isQuiet, isQuiet, Bool.and_true]; exact isQuiet_of_line hp, rfl⟩
  obtain ⟨t, ht, htruth⟩ := mask_truth hm hplain.1 hplain.2 hi
  exact ⟨t, ht, compare?_of_truth? he hx htruth⟩

theorem comparable_of_line {t : DataType} (ht : t.line? = some l) (hv : v.type.line? = some l) :
    Comparable t v.dataType := by
  obtain ⟨p, hp, hpl⟩ := DataType.plain_of_line ht
  have not_null {q : ScalarType} (hq : q.line? = some l) : DataType.scalar q ≠ .null := by
    intro h
    cases h
    cases hq
  obtain ⟨common, hcommon⟩ := Option.isSome_iff_exists.1
    (isSome_comparisonType (.inl hp) (.inl rfl) (isSome_comparisonType_of_line hpl hv))
  refine ⟨common, hcommon, ?_⟩
  rintro (h | h)
  · exact absurd (hp.symm.trans h) (not_null hpl)
  · exact absurd h (not_null hv)

theorem exists_mask_of_comparison? {e : Expr} {p : Comparison × Scalar}
    (he : e.comparison? n = some p) (hp : p.2.type.line? = some l) (hc : b.column? n = some c)
    (hl : c.type.line? = some l) :
    ∃ m, e.mask b = .ok m := by
  have hcomp := comparable_of_line hl hp
  obtain ⟨u, hu⟩ : ∃ u, e.operand b = .ok u := by
    rcases eq_of_comparison? he with rfl | rfl
    · rw [operand, operand, hc]
      exact Operand.compareWith_of_comparable (v := .column c) hcomp
    · rw [operand, operand, operand, hc]
      exact Operand.compareWith_of_comparable (v := .scalar p.2) (w := .column c) hcomp.symm
  have ht : u.type = .boolean :=
    type_of_asks hu (by rcases eq_of_comparison? he with rfl | rfl <;> rfl)
  obtain ⟨m, hm⟩ : ∃ m, u.truths b.rows = .ok m := Operand.truths_of_isTruthType (by rw [ht]; rfl)
  exact ⟨m, bind_eq_ok.2 ⟨u, hu, hm⟩⟩

def HasTruth (b : Batch) (i : Nat) (e : Expr) (t : Bool) : Prop :=
  ∃ m, e.mask b = .ok m ∧ m[i]? = some (some t)

end Expr

namespace Facts

open TableScan.Expr

variable {given : Expr} {n : String} {op : Comparison} {l : Line} {v : Scalar} {r : Bool}

theorem answer_of_decide (hl : ∀ p ∈ given.comparisons n, p.2.type.line? = some l)
    (hv : v.type.line? = some l) (hr : (ofGuarantee given n).decide op v = some r) {a : Scalar}
    (ha : a.type.line? = some l)
    (h : ∀ p ∈ given.comparisons n, a.answer p.1 p.2 = .ok (.ofBool true)) :
    a.answer op v = .ok (.ofBool r) := by
  have hsat : ∀ p ∈ given.comparisons n, Value.compare? p.1 (ofScalar a) (ofScalar p.2) =
      some (some true) := by
    intro p hp
    obtain ⟨s, has, hs⟩ := Scalar.answer_of_line p.1 ha (hl p hp)
    cases has.symm.trans (h p hp)
    exact hs
  obtain ⟨t, hat, ht⟩ := Scalar.answer_of_line op ha hv
  rw [decide_ofGuarantee] at hr
  rw [hat, eq_of_decide_learn hl hv (liesOn_ofCell (t := a.dataType) ha _) hsat hr ht]
  rfl

theorem hasTruth_of_decide (hl : ∀ p ∈ given.comparisons n, p.2.type.line? = some l)
    (hv : v.type.line? = some l) (hr : (ofGuarantee given n).decide op v = some r) {b : Batch}
    {c : Column} {i : Nat} (hc : b.column? n = some c) (hcl : c.type.line? = some l)
    (hi : i < b.rows) (h : ∀ e ∈ given.conjuncts, (e.comparison? n).isSome → e.HasTruth b i true)
    {asked : Expr} (hasked : asked.comparison? n = some (op, v)) : asked.HasTruth b i r := by
  obtain ⟨x, hcx⟩ := value?_column hc hi
  have hx : b.row i n = some x := by rw [Batch.row, hc, Option.bind_some, hcx]
  have hxl : x.LiesOn l := by
    obtain ⟨a, -, rfl⟩ := Option.map_eq_some_iff.1 hcx
    exact liesOn_ofCell hcl a
  have hsat : ∀ p ∈ given.comparisons n, Value.compare? p.1 x (ofScalar p.2) =
      some (some true) := by
    intro p hp
    obtain ⟨e, he, hep⟩ := List.mem_filterMap.1 hp
    obtain ⟨m, hm, hmi⟩ := h e he (by rw [hep]; rfl)
    obtain ⟨t, ht, hs⟩ := compare?_of_mask hep (hl p hp) hm hi hx
    cases hmi.symm.trans ht
    exact hs
  obtain ⟨m, hm⟩ := exists_mask_of_comparison? hasked hv hc hcl
  obtain ⟨t, hmt, ht⟩ := compare?_of_mask hasked hv hm hi hx
  rw [decide_ofGuarantee] at hr
  rw [eq_of_decide_learn hl hv hxl hsat hr ht] at hmt
  exact ⟨m, hm, hmt⟩

theorem decide_perm {given' : Expr} (hl : ∀ p ∈ given.comparisons n, p.2.type.line? = some l)
    (hv : v.type.line? = some l) (h : given'.conjuncts.Perm given.conjuncts) :
    (ofGuarantee given' n).decide op v = (ofGuarantee given n).decide op v := by
  have hmem (p : Comparison × Scalar) : p ∈ given'.comparisons n ↔ p ∈ given.comparisons n :=
    (h.filterMap (comparison? n)).mem_iff
  rw [decide_ofGuarantee, decide_ofGuarantee]
  exact decide_learn_congr (fun p hp => hl p ((hmem p).1 hp)) hv hmem

/--
Comparisons of a field settle another one only as it is for every value that satisfies them,
standing alone or in a column. They settle it just where one of them does alone; equations are left
out, since what a field equals takes its place. Their order does not matter.
-/
theorem decide_comparisons (given : Expr) (n : String) (op : Comparison) {l : Line} {v : Scalar}
    (hl : ∀ p ∈ given.comparisons n, p.2.type.line? = some l) (hv : v.type.line? = some l) :
    (∀ r, (ofGuarantee given n).decide op v = some r →
      (∀ a : Scalar, a.type.line? = some l →
        (∀ p ∈ given.comparisons n, a.answer p.1 p.2 = .ok (.ofBool true)) →
          a.answer op v = .ok (.ofBool r)) ∧
      ∀ (b : Batch) (c : Column) (i : Nat), b.column? n = some c → c.type.line? = some l →
        i < b.rows →
        (∀ e ∈ given.conjuncts, (e.comparison? n).isSome → e.HasTruth b i true) →
          ∀ asked : Expr, asked.comparison? n = some (op, v) → asked.HasTruth b i r) ∧
    (((ofGuarantee given n).decide op v).isSome ↔
      ∃ p ∈ given.comparisons n, p.1 ≠ .eq ∧ ∃ o r, p.2.order? v = some o ∧ p.1.Settles o op r) ∧
    ∀ given' : Expr, given'.conjuncts.Perm given.conjuncts →
      (ofGuarantee given' n).decide op v = (ofGuarantee given n).decide op v := by
  refine ⟨fun r hr => ⟨fun a ha h => ?_, fun b c i hc hcl hi h asked hasked => ?_⟩, ?_,
    fun given' h => ?_⟩
  · exact answer_of_decide hl hv hr ha h
  · exact hasTruth_of_decide hl hv hr hc hcl hi h hasked
  · rw [decide_ofGuarantee]
    exact isSome_decide_learn hl hv
  · exact decide_perm hl hv h

section Twenty

def twenty (t : IntType) (h : t.min ≤ 20 ∧ 20 ≤ t.max) : Scalar := .ofFixed (t := t) ⟨20, h.1, h.2⟩

def atMostTwenty : Expr := compare .le (field "x") (lit (twenty .int64 (by decide)))

def belowTwenty : Expr := compare .gt (lit (twenty .uint8 (by decide))) (field "x")

def nineteen : Batch where
  rows := 1
  columns :=
    [⟨"x", true, ⟨.dictionary .int8 (.int .uint16), [some ⟨19, by decide, by decide⟩]⟩, .empty⟩]
  sized := by simp [Column.length]

theorem decide_comparisons_twenty :
    (compare .ge (field "x") (lit (twenty .int32 (by decide)))).HasTruth nineteen 0 false ∧
      (Scalar.ofFixed (t := .int8) ⟨19, by decide, by decide⟩).answer .ge
      (twenty .int32 (by decide)) =
        .ok (.ofBool false) ∧
      (ofGuarantee (and belowTwenty atMostTwenty) "x").decide .ge (twenty .int32 (by decide)) =
        some false := by
  obtain ⟨hsound, -, horder⟩ :=
    decide_comparisons (and atMostTwenty belowTwenty) "x" .ge (l := .integers)
    (v := twenty .int32 (by decide)) (by decide) rfl
  have hd : (ofGuarantee (and atMostTwenty belowTwenty) "x").decide .ge
      (twenty .int32 (by decide)) = some false := by
    decide
  obtain ⟨hvalues, hrows⟩ := hsound false hd
  refine ⟨hrows nineteen _ 0 rfl rfl (by decide) (fun e he _ => ?_) _ rfl,
    hvalues _ rfl (fun p hp => ?_),
    (horder (and belowTwenty atMostTwenty) (.swap _ _ _)).trans hd⟩
  · rcases List.mem_pair.1 he with rfl | rfl <;> exact ⟨_, rfl, rfl⟩
  · rcases List.mem_pair.1 hp with rfl | rfl <;> rfl

end Twenty

end Facts

end TableScan
