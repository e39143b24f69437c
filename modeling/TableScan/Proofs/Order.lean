import TableScan.Value
import TableScan.Proofs.Rounding

namespace TableScan

open Std (TransCmp OrientedCmp LawfulEqCmp)

theorem compareBytes_eq_compareLex (a b : List UInt8) :
    compareBytes a b = List.compareLex Ord.compare a b := by
  induction a generalizing b with
  | nil => cases b <;> rfl
  | cons x xs ih =>
    cases b with
    | nil => rfl
    | cons y ys => rw [compareBytes, List.compareLex_cons_cons, ih]

theorem compareBytes_eq : compareBytes = List.compareLex Ord.compare :=
  funext fun a => funext fun b => compareBytes_eq_compareLex a b

instance : TransCmp compareBytes := by
  rw [compareBytes_eq]
  infer_instance

instance : LawfulEqCmp compareBytes := by
  rw [compareBytes_eq]
  infer_instance

instance {f : FloatFormat} : TransCmp (Floating.compare (f := f)) where
  eq_swap {x y} := (OrientedCmp.eq_swap : Ord.compare x.order y.order = _)
  isLE_trans {x y z} (hxy : (Ord.compare x.order y.order).isLE)
      (hyz : (Ord.compare y.order z.order).isLE) := show (Ord.compare x.order z.order).isLE from
    TransCmp.isLE_trans hxy hyz

instance {t : IntType} : TransCmp (Fixed.compare (t := t)) where
  eq_swap {x y} := (OrientedCmp.eq_swap : Ord.compare x.val y.val = _)
  isLE_trans {x y z} (hxy : (Ord.compare x.val y.val).isLE)
      (hyz : (Ord.compare y.val z.val).isLE) := show (Ord.compare x.val z.val).isLE from
    TransCmp.isLE_trans hxy hyz

theorem Floating.eq_of_compare {f : FloatFormat} {x y : Floating f} (h : x.compare y = .eq) :
    x = y :=
  Floating.order_injective (compare_eq_iff_eq.1 h)

theorem Fixed.eq_of_compare {t : IntType} {i j : Fixed t} (h : i.compare j = .eq) : i = j :=
  Fixed.ext (compare_eq_iff_eq.1 h)

theorem swap_of_oriented {α : Type} (cmp : α → α → Ordering) [OrientedCmp cmp] (a b : α) :
    cmp b a = (cmp a b).swap := OrientedCmp.eq_swap

theorem ScalarType.compare_swap (t : ScalarType) (a b : t.Carrier) :
    t.compare b a = (t.compare a b).swap := by
  cases t with
  | null => exact Empty.elim a
  | boolean => exact swap_of_oriented (Ord.compare (α := Bool)) a b
  | int t => exact swap_of_oriented (Fixed.compare (t := t)) a b
  | float32 => exact swap_of_oriented (Floating.compare (f := .single)) a b
  | float64 => exact swap_of_oriented (Floating.compare (f := .double)) a b
  | utf8 | largeUtf8 => exact swap_of_oriented (Ord.compare (α := String)) a b
  | binary => exact swap_of_oriented compareBytes a b
  | date32 => exact swap_of_oriented (Fixed.compare (t := .int32)) a b
  | date64 => exact swap_of_oriented (Fixed.compare (t := .int64)) a b

theorem ScalarType.eq_of_compare {t : ScalarType} {a b : t.Carrier} (h : t.compare a b = .eq) :
    a = b := by
  cases t with
  | null => exact Empty.elim a
  | boolean => exact compare_eq_iff_eq.1 (show Ord.compare (α := Bool) a b = .eq from h)
  | int t => exact Fixed.eq_of_compare h
  | float32 => exact Floating.eq_of_compare (f := .single) h
  | float64 => exact Floating.eq_of_compare (f := .double) h
  | utf8 | largeUtf8 =>
    exact LawfulEqCmp.eq_of_compare (show Ord.compare (α := String) a b = .eq from h)
  | binary => exact LawfulEqCmp.eq_of_compare (show compareBytes a b = .eq from h)
  | date32 => exact Fixed.eq_of_compare (t := .int32) h
  | date64 => exact Fixed.eq_of_compare (t := .int64) h

theorem DataType.compare_swap (t : DataType) (a b : t.Carrier) :
    t.compare b a = (t.compare a b).swap := by
  have ints (i j : Int) : Ord.compare j i = (Ord.compare i j).swap :=
    swap_of_oriented Ord.compare i j
  induction t with
  | scalar t => exact t.compare_swap a b
  | dictionary k t ih => exact ih a b
  | float16 => exact swap_of_oriented (Floating.compare (f := .half)) a b
  | decimal => exact ints a b
  | timestamp | time64 | duration => exact swap_of_oriented (Fixed.compare (t := .int64)) a b
  | time32 => exact swap_of_oriented (Fixed.compare (t := .int32)) a b
  | interval unit =>
    simp only [DataType.compare, Interval.compare, Ordering.swap_then, ← ints]
  | largeBinary => exact swap_of_oriented compareBytes a b
  | utf8View => exact swap_of_oriented (Ord.compare (α := String)) a b

/-- What a comparison with a bound on one side tells of a comparison with a value behind the bound.
-/
structure Chained (side : Ordering) (inclusive : Bool) (bound value : Ordering) : Prop where
  beyond : bound = side ∨ bound = .eq ∧ inclusive = false → value = side
  reaches : bound = side ∨ bound = .eq → value = side ∨ value = .eq

theorem chained_of_trans {α : Type} {cmp : α → α → Ordering} [TransCmp cmp] {x b v : α}
    {side : Ordering} (hs : side ≠ .eq) {inclusive : Bool}
    (h : cmp x b = side ∨ cmp x b = .eq ∧ inclusive = true) :
    Chained side inclusive (cmp b v) (cmp x v) := by
  have strict (hx : cmp x b = side) (hb : cmp b v = side ∨ cmp b v = .eq) : cmp x v = side := by
    cases side with
    | eq => exact absurd rfl hs
    | lt =>
      rcases hb with hb | hb
      · exact TransCmp.lt_trans hx hb
      · exact TransCmp.lt_of_lt_of_eq hx hb
    | gt =>
      rcases hb with hb | hb
      · exact TransCmp.gt_trans hx hb
      · exact TransCmp.gt_of_gt_of_eq hx hb
  rcases h with hx | ⟨hx, hi⟩
  · exact ⟨fun hb => strict hx (hb.imp_right And.left), fun hb => .inl (strict hx hb)⟩
  · rw [TransCmp.congr_left hx]
    constructor
    · rintro (hb | ⟨-, hn⟩)
      · exact hb
      · simp [hi] at hn
    · exact id

theorem chained_lt {b v x w : Int} {inclusive : Bool}
    (hb : b < v ∨ b = v ∧ inclusive = false → x < w) (hr : b ≤ v → x ≤ w) :
    Chained .lt inclusive (Ord.compare b v) (Ord.compare x w) where
  beyond h := by
    rw [compare_lt_iff_lt, compare_eq_iff_eq] at h
    exact compare_lt_iff_lt.2 (hb h)
  reaches h := by
    rw [compare_lt_iff_lt, compare_eq_iff_eq] at h ⊢
    exact (hr (by omega)).lt_or_eq

theorem chained_gt {b v x w : Int} {inclusive : Bool}
    (hb : v < b ∨ b = v ∧ inclusive = false → w < x) (hr : v ≤ b → w ≤ x) :
    Chained .gt inclusive (Ord.compare b v) (Ord.compare x w) where
  beyond h := by
    rw [compare_gt_iff_gt, compare_eq_iff_eq] at h
    exact compare_gt_iff_gt.2 (hb h)
  reaches h := by
    rw [compare_gt_iff_gt, compare_eq_iff_eq] at h ⊢
    exact (hr (by omega)).lt_or_eq.imp_right Eq.symm

def exactlyOne (a b c : Bool) : Bool :=
  (a && !b && !c) || (!a && b && !c) || (!a && !b && c)

namespace Magnitude

def isFloating : Magnitude → Bool
  | floating _ => true
  | _ => false

def isSmall : Magnitude → Bool
  | number i => i.natAbs < 2 ^ 53
  | floating x => (Floating.ofInt (-2 ^ 53) : Floating .double).order < x.order &&
      x.order < (Floating.ofInt (2 ^ 53) : Floating .double).order
  | _ => false

theorem order_mono {i j : Int} (h : i ≤ j) :
    (Floating.ofInt i : Floating .double).order ≤ (Floating.ofInt j : Floating .double).order :=
  Floating.order_ofInt_mono h

theorem order_strict {i j : Int} (hs : (number i).isSmall ∨ (number j).isSmall) (h : i < j) :
    (Floating.ofInt i : Floating .double).order < (Floating.ofInt j : Floating .double).order :=
  Floating.order_ofInt_lt h (by simpa [isSmall] using hs)

theorem isSmall_of_order {i : Int} {x : Floating .double} (hx : (floating x).isSmall)
    (h : (Floating.ofInt i : Floating .double).order = x.order) : (number i).isSmall := by
  simp only [isSmall, Bool.and_eq_true, decide_eq_true_eq] at hx ⊢
  have low (hi : i ≤ -2 ^ 53) := order_mono hi
  have high (hi : 2 ^ 53 ≤ i) := order_mono hi
  omega

def Same (m n : Magnitude) : Prop := ∀ k, m.compare? k = n.compare? k

theorem Same.refl (m : Magnitude) : m.Same m := fun _ => rfl

theorem Same.symm {m n : Magnitude} (h : m.Same n) : n.Same m := fun k => (h k).symm

theorem compare?_swap (m n : Magnitude) : n.compare? m = (m.compare? n).map Ordering.swap := by
  have ints (i j : Int) : Ord.compare j i = (Ord.compare i j).swap :=
    swap_of_oriented Ord.compare i j
  have floats (x y : Floating .double) : y.compare x = (x.compare y).swap :=
    swap_of_oriented (Floating.compare (f := .double)) x y
  cases m <;> cases n <;> simp only [compare?, Option.map_some, Option.map_none, Option.some.injEq]
  case number.number => exact ints _ _
  case number.floating => exact floats _ _
  case floating.number => exact floats _ _
  case floating.floating => exact floats _ _
  case text.text => exact swap_of_oriented (Ord.compare (α := String)) _ _
  case milliseconds.milliseconds => exact ints _ _
  case flag.flag => exact swap_of_oriented (Ord.compare (α := Bool)) _ _
  case bytes.bytes => exact swap_of_oriented compareBytes _ _

theorem Same.compare? {m m' n n' : Magnitude} (hm : m.Same m') (hn : n.Same n') :
    m.compare? n = m'.compare? n' := by
  rw [hm n, compare?_swap n m', hn m', ← compare?_swap]

theorem compare_ofInt {i : Int} (hi : (number i).isSmall) (j : Int) :
    (Floating.ofInt i : Floating .double).compare (Floating.ofInt j) = Ord.compare i j := by
  rcases lt_trichotomy i j with h | rfl | h
  · rw [compare_lt_iff_lt.2 h]
    exact compare_lt_iff_lt.2 (order_strict (.inl hi) h)
  · rw [compare_eq_iff_eq.2 rfl]
    exact compare_eq_iff_eq.2 rfl
  · rw [compare_gt_iff_gt.2 h]
    exact compare_gt_iff_gt.2 (order_strict (.inr hi) h)

theorem same_ofInt {i : Int} (hi : (number i).isSmall) :
    (number i).Same (floating (Floating.ofInt i)) := by
  intro k
  cases k with
  | number j => exact congrArg some (compare_ofInt hi j).symm
  | _ => rfl

theorem same_of_eq {m n : Magnitude} (h : m.compare? n = some .eq)
    (hf : m.isFloating = n.isFloating ∨ n.isSmall) : m.Same n := by
  cases m <;> cases n <;> simp only [Magnitude.compare?, Option.some.injEq, reduceCtorEq] at h
  case number.floating i x =>
    have hi := isSmall_of_order (hf.resolve_left nofun) (compare_eq_iff_eq.1 h)
    rw [← Floating.eq_of_compare h]
    exact same_ofInt hi
  case floating.number x i =>
    rw [Floating.eq_of_compare h]
    exact (same_ofInt (hf.resolve_left nofun)).symm
  case number.number => rw [compare_eq_iff_eq.1 h]; exact .refl _
  case floating.floating => rw [Floating.eq_of_compare h]; exact .refl _
  case text.text => rw [LawfulEqCmp.eq_of_compare h]; exact .refl _
  case milliseconds.milliseconds => rw [compare_eq_iff_eq.1 h]; exact .refl _
  case flag.flag => rw [compare_eq_iff_eq.1 h]; exact .refl _
  case bytes.bytes => rw [LawfulEqCmp.eq_of_compare h]; exact .refl _

variable {x b v : Magnitude} {p q r side : Ordering} {inclusive : Bool}

/-- A number and its bound are rounded to meet a value, but not to meet each other. They may be
rounded to one number, which a strict bound does not allow for, unless bound or value is small. -/
theorem chained_value {x b : Int} {v : Floating .double} (hs : side ≠ .eq)
    (hr : inclusive = true ∨ (number b).isSmall ∨ (floating v).isSmall)
    (h : Ord.compare x b = side ∨ Ord.compare x b = .eq ∧ inclusive = true) :
    Chained side inclusive ((Floating.ofInt b).compare v) ((Floating.ofInt x).compare v) := by
  have small (hi : inclusive = false) (ho : (Floating.ofInt b : Floating .double).order = v.order) :
      (number b).isSmall :=
    (hr.resolve_left (by simp [hi])).elim id fun hv => isSmall_of_order hv ho
  cases side with
  | eq => exact absurd rfl hs
  | lt =>
    rw [compare_lt_iff_lt, compare_eq_iff_eq] at h
    have hm := order_mono (show x ≤ b by omega)
    refine chained_lt (fun hb => ?_) (fun hb => by omega)
    rcases hb with hb | ⟨hb, rfl⟩
    · omega
    · exact (order_strict (.inr (small rfl hb)) (by simpa using h)).trans_eq hb
  | gt =>
    rw [compare_gt_iff_gt, compare_eq_iff_eq] at h
    have hm := order_mono (show b ≤ x by omega)
    refine chained_gt (fun hb => ?_) (fun hb => by omega)
    rcases hb with hb | ⟨hb, rfl⟩
    · omega
    · exact hb.symm.trans_lt (order_strict (.inl (small rfl hb)) (by simpa using h))

/-- A number and a value are rounded to meet the bound between them, but not to meet each other. An
inclusive bound may be what both are rounded to, unless bound or value is small. -/
theorem chained_bound {x v : Int} {b : Floating .double} (hs : side ≠ .eq)
    (hr : inclusive = false ∨ (floating b).isSmall ∨ (number v).isSmall)
    (h : (Floating.ofInt x).compare b = side ∨ (Floating.ofInt x).compare b = .eq ∧
      inclusive = true) :
    Chained side inclusive (b.compare (Floating.ofInt v)) (Ord.compare x v) := by
  have small (ho : b.order = (Floating.ofInt v : Floating .double).order) :
      inclusive = false ∨ (number v).isSmall :=
    hr.imp_right fun h => h.elim (fun hb => isSmall_of_order hb ho.symm) id
  simp only [Floating.compare] at h
  cases side with
  | eq => exact absurd rfl hs
  | lt =>
    rw [compare_lt_iff_lt, compare_eq_iff_eq] at h
    have mono (hvx : v ≤ x) := order_mono hvx
    refine chained_lt (fun hb => ?_) (fun hb => ?_)
    · rcases hb with hb | ⟨hb, rfl⟩
      · omega
      · simp at h
        omega
    by_contra hvx
    have := mono (by omega)
    rcases small (by omega) with rfl | hv
    · simp at h
      omega
    · have := order_strict (.inl hv) (show v < x by omega)
      omega
  | gt =>
    rw [compare_gt_iff_gt, compare_eq_iff_eq] at h
    have mono (hxv : x ≤ v) := order_mono hxv
    refine chained_gt (fun hb => ?_) (fun hb => ?_)
    · rcases hb with hb | ⟨hb, rfl⟩
      · omega
      · simp at h
        omega
    by_contra hvx
    have := mono (by omega)
    rcases small (by omega) with rfl | hv
    · simp at h
      omega
    · have := order_strict (.inr hv) (show x < v by omega)
      omega

/-- A bound and the value behind it are rounded to meet a number, but not to meet each other. The
number may be what both are rounded to, if the bound is inclusive, unless bound or value is small.
-/
theorem chained_ends {b v : Int} {x : Floating .double} (hs : side ≠ .eq)
    (hr : inclusive = false ∨ (number b).isSmall ∨ (number v).isSmall)
    (h : x.compare (Floating.ofInt b) = side ∨ x.compare (Floating.ofInt b) = .eq ∧
      inclusive = true) :
    Chained side inclusive (Ord.compare b v) (x.compare (Floating.ofInt v)) := by
  have small (hi : inclusive = true) : (number b).isSmall ∨ (number v).isSmall :=
    hr.resolve_left (by simp [hi])
  simp only [Floating.compare] at h
  cases side with
  | eq => exact absurd rfl hs
  | lt =>
    rw [compare_lt_iff_lt, compare_eq_iff_eq] at h
    have mono (hbv : b ≤ v) := order_mono hbv
    refine chained_lt (fun hb => ?_) (fun _ => by omega)
    rcases hb with hb | ⟨hb, rfl⟩
    · rcases h with h | ⟨h, hi⟩
      · have := mono hb.le
        omega
      · have := order_strict (small hi) hb
        omega
    · have := mono hb.le
      simp at h
      omega
  | gt =>
    rw [compare_gt_iff_gt, compare_eq_iff_eq] at h
    have mono (hvb : v ≤ b) := order_mono hvb
    refine chained_gt (fun hb => ?_) (fun _ => by omega)
    rcases hb with hb | ⟨hb, rfl⟩
    · rcases h with h | ⟨h, hi⟩
      · have := mono hb.le
        omega
      · have := order_strict (small hi).symm hb
        omega
    · have := mono hb.ge
      simp at h
      omega

/--
From a bound to a value behind it. Where integers are rounded in some of the comparisons alone, the
bound must be inclusive if it is the value that rounds, and strict otherwise, unless one of them is
small.
-/
theorem chained (hxb : x.compare? b = some p) (hbv : b.compare? v = some q)
    (hxv : x.compare? v = some r) (hs : side ≠ .eq)
    (hr : exactlyOne x.isFloating b.isFloating v.isFloating = true →
      inclusive = v.isFloating ∨ b.isSmall ∨ v.isSmall)
    (h : p = side ∨ p = .eq ∧ inclusive = true) : Chained side inclusive q r := by
  cases x <;> cases b <;> cases v <;>
    simp only [compare?, Option.some.injEq, reduceCtorEq] at hxb hbv hxv <;> subst hxb hbv hxv
  case number.number.floating => exact chained_value hs (hr rfl) h
  case number.floating.number => exact chained_bound hs (hr rfl) h
  case floating.number.number => exact chained_ends hs (hr rfl) h
  all_goals exact chained_of_trans hs h

theorem ne_of_eq (hxb : x.compare? b = some p) (hbv : b.compare? v = some q)
    (hxv : x.compare? v = some r)
    (hr : exactlyOne x.isFloating b.isFloating v.isFloating = true →
      v.isFloating = false ∨ b.isSmall ∨ v.isSmall)
    (hp : p ≠ .eq) (hq : q = .eq) : r ≠ .eq := by
  cases x <;> cases b <;> cases v <;>
    simp only [compare?, Option.some.injEq, reduceCtorEq] at hxb hbv hxv <;> subst hxb hbv hxv
  case number.number.floating x b v =>
    intro h
    simp only [Floating.compare, compare_eq_iff_eq, ne_eq] at hp hq h
    have hb : (number b).isSmall := by
      rcases hr rfl with hv | hb | hv
      · cases hv
      · exact hb
      · exact isSmall_of_order hv hq
    rcases lt_or_gt_of_ne hp with hxb | hxb
    · have := order_strict (.inr hb) hxb
      omega
    · have := order_strict (.inl hb) hxb
      omega
  case number.floating.number x b v =>
    intro h
    rw [compare_eq_iff_eq] at h
    subst h
    exact hp (OrientedCmp.eq_symm hq)
  case floating.number.number x b v =>
    rw [compare_eq_iff_eq] at hq
    rw [← hq]
    exact hp
  all_goals
    intro h
    exact hp (TransCmp.eq_trans h (OrientedCmp.eq_symm hq))

end Magnitude

end TableScan
