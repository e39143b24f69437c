import TableScan.Proofs.ByteOrder
import TableScan.Proofs.Casts
import TableScan.Proofs.Meaning

/-! Statistics that are true of their columns, as those are that are recorded with the rows of a
group. -/

namespace TableScan

open Std (TransCmp OrientedCmp ReflCmp)
open Value (ofScalar)

/-- Whether what is recorded of a column is true of it. Extremes bound what is stored, cut short or
not. -/
structure Statistics.IsTrue (st : Statistics) (c : Column) : Prop where
  nulls : ∀ n, st.nulls = some n → n = c.cells.countP (·.isNone)
  least : ∀ low, st.low = some low → ∀ v, some v ∈ c.cells →
    ∀ x, c.type.stored? v = some ⟨st.type, x⟩ →
    (st.type.compare c.type.plain.isUnsigned low.value x).isLE
  greatest : ∀ high, st.high = some high → ∀ v, some v ∈ c.cells →
    ∀ x, c.type.stored? v = some ⟨st.type, x⟩ →
    (st.type.compare c.type.plain.isUnsigned x high.value).isLE

def RowGroup.IsTrue (g : RowGroup) : Prop :=
  ∀ chunk ∈ g.chunks, ∀ n st, chunk.path = [n] → chunk.statistics = some st →
    ∀ c, g.rows.column? n = some c → st.IsTrue c

namespace Statistics.IsTrue

variable {st : Statistics} {c : Column}

theorem isNull (h : st.IsTrue c) {i : Nat} {x : Value} (hx : c.value? i = some x) :
    (st.nulls = some c.length → x.isNull = true) ∧ (st.nulls = some 0 → x.isNull = false) := by
  obtain ⟨cell, hcell, rfl⟩ := Option.map_eq_some_iff.1 hx
  have hmem := List.mem_of_getElem? hcell
  refine ⟨fun hall => ?_, fun hnone => ?_⟩
  · have := List.countP_eq_length.1 (h.nulls _ hall).symm cell hmem
    obtain rfl : cell = none := by simpa using this
    rfl
  · have := List.countP_eq_zero.1 (h.nulls _ hnone).symm cell hmem
    cases cell with
    | none => simp at this
    | some a =>
      obtain ⟨b, hb⟩ := Value.ofSome_plain c.type a
      rw [Value.ofCell_some, hb]
      rfl

end Statistics.IsTrue

section Least

variable {α : Type} {cmp : α → α → Ordering} [TransCmp cmp]

instance transCmp_flip : TransCmp fun a b => cmp b a where
  eq_swap := OrientedCmp.eq_swap
  isLE_trans hab hbc := TransCmp.isLE_trans hbc hab

theorem foldl_least (a : α) (as : List α) :
    (cmp (as.foldl (fun m x => if cmp x m = .lt then x else m) a) a).isLE ∧
      ∀ x ∈ as, (cmp (as.foldl (fun m x => if cmp x m = .lt then x else m) a) x).isLE := by
  induction as generalizing a with
  | nil => exact ⟨ReflCmp.isLE_rfl, nofun⟩
  | cons x as ih =>
    have both : (cmp (if cmp x a = .lt then x else a) a).isLE ∧
        (cmp (if cmp x a = .lt then x else a) x).isLE := by
      split
      · rename_i h
        exact ⟨by rw [h]; rfl, ReflCmp.isLE_rfl⟩
      · rename_i h
        exact ⟨ReflCmp.isLE_rfl, OrientedCmp.isLE_of_isGE (Ordering.isGE_iff_ne_lt.2 h)⟩
    obtain ⟨hfirst, hrest⟩ := ih (if cmp x a = .lt then x else a)
    rw [List.foldl_cons]
    refine ⟨TransCmp.isLE_trans hfirst both.1, List.forall_mem_cons.2 ⟨?_, hrest⟩⟩
    exact TransCmp.isLE_trans hfirst both.2

theorem isLE_least {as : List α} {m : α} (h : Statistics.least cmp as = some m) :
    ∀ x ∈ as, (cmp m x).isLE := by
  cases as with
  | nil => cases h
  | cons a as =>
    cases h
    exact List.forall_mem_cons.2 (foldl_least a as)

end Least

instance {t : ScalarType} : TransCmp t.compare := by
  cases t with
  | null => exact { eq_swap := fun {a} => Empty.elim a, isLE_trans := fun {a} => Empty.elim a }
  | boolean => exact inferInstanceAs (TransCmp (Ord.compare (α := Bool)))
  | int t => exact inferInstanceAs (TransCmp (Fixed.compare (t := t)))
  | float32 => exact inferInstanceAs (TransCmp (Floating.compare (f := .single)))
  | float64 => exact inferInstanceAs (TransCmp (Floating.compare (f := .double)))
  | utf8 | largeUtf8 => exact inferInstanceAs (TransCmp (Ord.compare (α := String)))
  | binary => exact inferInstanceAs (TransCmp compareBytes)
  | date32 => exact inferInstanceAs (TransCmp (Fixed.compare (t := .int32)))
  | date64 => exact inferInstanceAs (TransCmp (Fixed.compare (t := .int64)))

namespace Statistics

variable {limit : Option Nat} {t : ScalarType} {cells : List (Option t.Carrier)}

theorem compare?_of_type (op : Comparison) (a b : t.Carrier) :
    Value.compare? op (.of (.scalar t) a) (ofScalar ⟨t, some b⟩) =
      some (some (op.holds (t.compare a b))) := by
  have hc : comparisonType (.scalar t) (.scalar t) = some (.scalar t) := by
    cases t with
    | int t => cases t <;> rfl
    | _ => rfl
  rw [Value.ofScalar_some]
  exact Value.compare?_of hc (Value.asCell?_of_type (.scalar t) a)
    (Value.asCell?_of_type (.scalar t) b) rfl

def isRanged : ScalarType → Bool
  | .boolean | .date32 | .utf8 => true
  | .int t => t.signed
  | _ => false

theorem isQuiet_of_ranged {p : ScalarType} (hp : isRanged p = true) (a : Option p.Carrier) :
    (Value.ofCell (.scalar p) a).isQuiet := by
  cases a with
  | none => rfl
  | some a => cases p <;> first | rfl | cases hp

section Words

variable {t : IntType} (ht : t.signed = true ∧ t.bits ≤ 32)

include ht

theorem stored_word (i : Fixed t) :
    ∃ z : Fixed .int32, Fixed.stored i = ⟨.int32, z⟩ ∧ z.val = i.val := by
  obtain ⟨hs, hb⟩ := ht
  have hfits : IntType.min .int32 ≤ t.min ∧ t.max ≤ IntType.max .int32 := by
    cases t <;> cases hs <;> first | decide | exact absurd hb (by decide)
  refine ⟨.wrap .int32 i.val, ?_,
    Scalar.val_wrap rfl ⟨hfits.1.trans i.lower, i.upper.trans hfits.2⟩⟩
  cases t <;> cases hs <;> first | rfl | exact absurd hb (by decide)

omit ht in
theorem castTo_word {z : Fixed .int32} {v : Scalar}
    (h : (Scalar.ofFixed z).castTo (.int t) = .ok v) :
    ∃ a : Fixed t, v = ⟨.int t, some a⟩ ∧ z.val = a.val := by
  by_cases hne : IntType.int32 = t
  · subst hne
    rw [Scalar.castTo, if_pos (show (Scalar.ofFixed z).dataType = .int .int32 from rfl)] at h
    cases h
    exact ⟨z, rfl, rfl⟩
  · obtain ⟨a, rfl, hcompare⟩ := Scalar.cast_int_int hne h
    have hmagnitude :=
      (Scalar.compare_eq_iff (m := .number z.val) (n := .number a.val) rfl rfl).1 hcompare
    exact ⟨a, rfl, compare_eq_iff_eq.1 (Option.some.inj hmagnitude)⟩

end Words

theorem ofExtreme?_eq_some {p : PhysicalType} {x : p.Carrier} {t : DataType} {v : Scalar}
    (h : ofExtreme? p x t = some v) :
    ∃ q, t = .scalar q ∧ isRanged q = true ∧ ∃ a : q.Carrier, v = ⟨q, some a⟩ ∧
      t.plain.isUnsigned = false ∧ ∀ y : q.Carrier, ∃ z : p.Carrier,
        DataType.stored? (.scalar q) y = some ⟨p, z⟩ ∧ p.compare false x z = q.compare a y := by
  unfold ofExtreme? at h
  split at h
  · cases h
    exact ⟨.boolean, rfl, rfl, _, rfl, rfl, fun y => ⟨y, rfl, rfl⟩⟩
  · rename_i i t
    simp only [Option.ite_none_right_eq_some] at h
    obtain ⟨ht, h⟩ := h
    obtain ⟨a, rfl, hval⟩ := castTo_word (toOption_eq_some.1 h)
    refine ⟨.int t, rfl, ht.1, a, rfl, by simp [DataType.plain, DataType.isUnsigned, ht.1],
      fun y => ?_⟩
    obtain ⟨z, hz, hzval⟩ := stored_word ht y
    refine ⟨z, congrArg some hz, ?_⟩
    change Ord.compare (Fixed.val i) z.val = Ord.compare a.val (Fixed.val y)
    rw [hval, hzval]
  · cases h
    exact ⟨.date32, rfl, rfl, _, rfl, rfl, fun y => ⟨y, rfl, rfl⟩⟩
  · rename_i i
    cases h
    refine ⟨.int .int64, rfl, rfl, i, rfl, rfl, fun y => ⟨.wrap .int64 (Fixed.val y), rfl, ?_⟩⟩
    exact congrArg (Ord.compare i.val) (Scalar.val_wrap rfl ⟨Fixed.lower y, Fixed.upper y⟩)
  · obtain ⟨s, hs, rfl⟩ := Option.map_eq_some_iff.1 h
    refine ⟨.utf8, rfl, rfl, s, rfl, rfl, fun y => ⟨Text.utf8 y, rfl, ?_⟩⟩
    rw [← Text.decode_eq_ok.1 (toOption_eq_some.1 hs)]
    exact Text.compareBytes_utf8 s y
  · cases h

instance {unsigned : Bool} {p : PhysicalType} : TransCmp (p.compare unsigned) := by
  cases p with
  | boolean => exact inferInstanceAs (TransCmp (Ord.compare (α := Bool)))
  | int32 | int64 =>
    cases unsigned with
    | true => exact inferInstanceAs (TransCmp (compareOn Fixed.word))
    | false => exact inferInstanceAs (TransCmp Fixed.compare)
  | float | double => exact inferInstanceAs (TransCmp (compareOn Floating.signed))
  | int96 | byteArray | fixedByteArray => exact inferInstanceAs (TransCmp compareBytes)

section Range

variable {st : Statistics} {low high : Scalar}

theorem range?_eq_some {t : DataType} (h : st.range? t = some (low, high)) :
    ∃ low' high', st.low = some low' ∧ st.high = some high' ∧
      ofExtreme? st.type low'.value t = some low ∧
      ofExtreme? st.type high'.value t = some high := by
  obtain ⟨low', hlow, h⟩ := Option.bind_eq_some_iff.1 h
  obtain ⟨high', hhigh, h⟩ := Option.bind_eq_some_iff.1 h
  split at h
  · cases h
  · obtain ⟨_, ha, h⟩ := Option.bind_eq_some_iff.1 h
    obtain ⟨_, hb, h⟩ := Option.bind_eq_some_iff.1 h
    cases h
    exact ⟨low', high', hlow, hhigh, ha, hb⟩

theorem ranged_of_range? {t : DataType} (h : st.range? t = some (low, high)) :
    ∃ q, t = .scalar q ∧ isRanged q = true ∧
      ∃ a b : q.Carrier, low = ⟨q, some a⟩ ∧ high = ⟨q, some b⟩ := by
  obtain ⟨_, _, -, -, hlow, hhigh⟩ := range?_eq_some h
  obtain ⟨q, rfl, hq, a, rfl, -⟩ := ofExtreme?_eq_some hlow
  obtain ⟨_, hq', -, b, rfl, -⟩ := ofExtreme?_eq_some hhigh
  cases hq'
  exact ⟨q, rfl, hq, a, b, rfl, rfl⟩

variable {q : ScalarType} {cells : List (Option q.Carrier)} {a b : q.Carrier}

theorem IsTrue.isLE_range (h : st.IsTrue ⟨.scalar q, cells⟩)
    (hr : st.range? (.scalar q) = some (⟨q, some a⟩, ⟨q, some b⟩)) {y : q.Carrier}
    (hy : some y ∈ cells) :
    (q.compare a y).isLE ∧ (q.compare y b).isLE := by
  obtain ⟨low, high, hlow, hhigh, ha, hb⟩ := range?_eq_some hr
  obtain ⟨_, hq, -, _, hv, hunsigned, hleast⟩ := ofExtreme?_eq_some ha
  cases hq
  cases hv
  obtain ⟨_, hq, -, _, hv, -, hgreatest⟩ := ofExtreme?_eq_some hb
  cases hq
  cases hv
  obtain ⟨z, hz, hcompare⟩ := hleast y
  obtain ⟨z', hz', hcompare'⟩ := hgreatest y
  cases hz.symm.trans hz'
  have hle := h.least _ hlow y hy z hz
  have hge := OrientedCmp.isGE_of_isLE (h.greatest _ hhigh y hy z hz)
  rw [hunsigned] at hle hge
  rw [hcompare] at hle
  rw [hcompare'] at hge
  exact ⟨hle, OrientedCmp.isLE_of_isGE hge⟩

end Range

theorem Stored.as?_eq_some {p : PhysicalType} {s : Stored} {x : p.Carrier} :
    s.as? p = some x ↔ s = ⟨p, x⟩ := by
  obtain ⟨p', x'⟩ := s
  unfold Stored.as?
  constructor
  · intro h
    split at h
    · rename_i hp
      cases hp
      cases h
      rfl
    · cases h
  · rintro ⟨⟩
    exact dif_pos rfl

theorem record_of_short {R : (p : PhysicalType) → p.Carrier → p.Carrier → Prop} {limit : Option Nat}
    {short? : Nat → List UInt8 → Option (List UInt8)} (hself : ∀ p x, R p x x)
    (hshort : ∀ n bs cs, short? n bs = some cs → R .byteArray cs bs) {p : PhysicalType}
    (x : p.Carrier) :
    R p (record limit short? p x).value x := by
  unfold record
  split
  · split
    · rename_i short hs
      obtain ⟨n, -, hs⟩ := Option.bind_eq_some_iff.1 hs
      exact hshort n _ _ hs
    · exact hself _ _
  · exact hself _ _

theorem mem_stored {c : Column} {v : c.type.Carrier} {p : PhysicalType} {x : p.Carrier}
    (hv : some v ∈ c.cells) (hx : c.type.stored? v = some ⟨p, x⟩) :
    x ∈ (c.cells.filterMap fun cell => cell.bind c.type.stored?).filterMap (·.as? p) :=
  List.mem_filterMap.2 ⟨_, List.mem_filterMap.2 ⟨_, hv, hx⟩, Stored.as?_eq_some.2 rfl⟩

theorem isTrue_ofColumn (limit : Option Nat) (c : Column) : (ofColumn limit c).IsTrue c where
  nulls n h := (Option.some.inj h).symm
  least low h v hv x hx := by
    obtain ⟨m, hm, rfl⟩ := Option.map_eq_some_iff.1 h
    refine TransCmp.isLE_trans ?_ (isLE_least hm x (mem_stored hv hx))
    exact record_of_short (R := fun p y x => (p.compare c.type.plain.isUnsigned y x).isLE)
      (fun _ _ => ReflCmp.isLE_rfl) (fun n bs cs => isLE_shortLow?) m
  greatest high h v hv x hx := by
    obtain ⟨m, hm, rfl⟩ := Option.map_eq_some_iff.1 h
    refine TransCmp.isLE_trans (isLE_least hm x (mem_stored hv hx)) ?_
    exact record_of_short (R := fun p y x => (p.compare c.type.plain.isUnsigned x y).isLE)
      (fun _ _ => ReflCmp.isLE_rfl) (fun n bs cs => isLE_shortHigh?) m

end Statistics

theorem RowGroup.isTrue_ofRows {rows : Batch} (h : (rows.columns.map (·.name)).Nodup)
    (record : Bool) (limit : Option Nat) : (ofRows record limit rows).IsTrue := by
  intro chunk hchunk n st hpath hst c hc
  obtain ⟨s, hs, rfl⟩ := List.mem_map.1 hchunk
  cases hpath
  have hfirst : rows.column? s.name = some s.column :=
    congrArg (Option.map Series.column) (find?_of_nodup h hs)
  cases hfirst.symm.trans hc
  simp only [Option.ite_none_right_eq_some, Option.some.injEq] at hst
  obtain ⟨-, rfl⟩ := hst
  exact Statistics.isTrue_ofColumn limit s.column

end TableScan
