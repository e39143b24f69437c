import TableScan.Proofs.Planning
import TableScan.Proofs.Widening

/-!
Row groups that statistics rule out have no rows that a filter selects, so that statistics do not
change what a scan yields. Statistics are about the columns of the file; what they say must carry
over to the values that these are cast to.
-/

namespace TableScan

open Value (ofScalar)
open Statistics (isRanged isQuiet_of_ranged)

/-! What a group guarantees. -/

theorem Expr.mem_conjuncts_all {c : Expr} {es : List Expr} (h : c ∈ (all es).conjuncts) :
    c = true_ ∨ ∃ e ∈ es, c ∈ e.conjuncts := by
  rw [conjuncts_all] at h
  split at h
  · exact .inl (List.mem_singleton.1 h)
  · exact .inr (List.mem_flatMap.1 h)

theorem Expr.not_true_of_unsatisfiable {e : Expr} {ρ : Row} (h : e.isSatisfiable = false) :
    e.truth? ρ ≠ some (some true) := by
  cases e with
  | lit v =>
    simp only [isSatisfiable, Bool.not_eq_false', Bool.or_eq_true, decide_eq_true_eq] at h
    rcases h with (rfl | rfl) | rfl <;> exact nofun
  | _ => cases h

/-! What compares with a literal is of a type that does. -/

theorem Scalar.isSome_of_order? {a b : Scalar} (h : a.order? b ≠ none) :
    (comparisonType a.dataType b.dataType).isSome := by
  by_contra hnone
  refine h ?_
  rw [order?, compare, if_pos (by simpa using hnone)]
  rfl

theorem Value.isSome_of_compare? {op : Comparison} {q : DataType} {a : q.Carrier} {v : Scalar}
    {r : Option Bool} (hv : v.isNull = false) (h : compare? op (.of q a) (ofScalar v) = some r) :
    (comparisonType q v.dataType).isSome := by
  obtain ⟨p, value⟩ := v
  cases value with
  | none => cases hv
  | some b =>
    obtain ⟨t, ht, -⟩ := Option.bind_eq_some_iff.1 h
    exact Option.isSome_of_eq_some ht

namespace RowGroup

variable {g : RowGroup} {s : Schema} {n : String} {c : Expr}

inductive Says (st : Statistics) (rows : Nat) (t : DataType) (n : String) : Expr → Prop
  | absent : st.nulls = some rows → Says st rows t n (.not (.isValid (.field n)))
  | least {low high : Scalar} : st.nulls = some 0 → st.range? t = some (low, high) →
      Says st rows t n (.compare .ge (.field n) (.lit low))
  | greatest {low high : Scalar} : st.nulls = some 0 → st.range? t = some (low, high) →
      Says st rows t n (.compare .le (.field n) (.lit high))

theorem said_of_mem {rows : Nat} {t : DataType} {st : Statistics} (h : c ∈ claims rows n t st) :
    Says st rows t n c := by
  unfold claims at h
  split at h
  · rename_i hn
    rw [List.mem_singleton.1 h]
    exact .absent hn.1
  · split at h
    · rename_i hn
      split at h
      · rename_i low high hrange
        simp only [List.mem_cons, List.not_mem_nil, or_false] at h
        rcases h with rfl | rfl
        · exact .least hn hrange
        · exact .greatest hn hrange
      · cases h
    · cases h

theorem said_of_guarantee (h : c ∈ (g.guarantee s).conjuncts) : c = .true_ ∨
    ∃ n st f, ⟨[n], some st⟩ ∈ g.chunks ∧ s.field? n = some f ∧ Says st g.rows.rows f.type n c := by
  refine (Expr.mem_conjuncts_all h).imp_right ?_
  rintro ⟨e, he, hc⟩
  obtain ⟨⟨path, statistics⟩, hchunk, he⟩ := List.mem_flatMap.1 he
  unfold facts at he
  split at he
  · rename_i n st hpath hstatistics
    obtain rfl : path = [n] := hpath
    obtain rfl : statistics = some st := hstatistics
    split at he
    · rename_i f hf
      have hsaid := said_of_mem he
      obtain rfl : c = e := by cases hsaid <;> exact List.mem_singleton.1 hc
      exact ⟨n, st, f, hchunk, hf, hsaid⟩
    · cases he
  · cases he

theorem Says.add {st : Statistics} {rows : Nat} {t : DataType} (h : Says st rows t n c) {m : String}
    (hm : m ≠ n) (f : Facts) : Facts.add m f c = f := by
  cases h <;> simp [Facts.add, hm.symm]

theorem eq_null_of_value {v : Scalar} (h : (Facts.ofGuarantee (g.guarantee s) n).value = some v) :
    v = .null := by
  obtain ⟨c, hc, ht⟩ := Facts.tells_value h
  rcases said_of_guarantee hc with rfl | ⟨m, st, f, -, -, hsaid⟩
  · cases ht
  · cases hsaid <;> cases ht
    rfl

/-! What is said of a column, of the value to which one of its cells is brought. -/

def HasRange (g : RowGroup) (s : Schema) (n : String) (p : ScalarType) : Prop :=
  ∃ st f range, ⟨[n], some st⟩ ∈ g.chunks ∧ s.field? n = some f ∧ f.type = .scalar p ∧
    st.nulls = some 0 ∧
    st.range? f.type = some range

theorem HasRange.isRanged {p : ScalarType} (h : g.HasRange s n p) : isRanged p = true := by
  obtain ⟨_, _, _, -, -, hp, -, hrange⟩ := h
  obtain ⟨q, hq, hranged, -⟩ := Statistics.ranged_of_range? hrange
  cases hp.symm.trans hq
  exact hranged

theorem HasRange.unique {p q : ScalarType} (hp : g.HasRange s n p) (hq : g.HasRange s n q) :
    p = q := by
  obtain ⟨_, f, _, -, hf, hp, -⟩ := hp
  obtain ⟨_, f', _, -, hf', hq, -⟩ := hq
  cases hf.symm.trans hf'
  exact DataType.scalar.inj (hp.symm.trans hq)

/-- A value of a column that has a range, and what it is in another type. -/
structure Held (g : RowGroup) (s : Schema) (n : String) (t : DataType) (p : ScalarType)
    (a : p.Carrier) (x : Value) : Prop where
  range : g.HasRange s n p
  mem : ∃ cells, g.rows.column? n = some ⟨.scalar p, cells⟩ ∧ some a ∈ cells
  cast : (Value.of (.scalar p) a).cast? t = some x

inductive Brought (g : RowGroup) (s : Schema) (n : String) (t : DataType) : Value → Expr → Prop
  | absent : Brought g s n t .null (.not (.isValid (.field n)))
  | least {p : ScalarType} {a b : p.Carrier} {x : Value} :
      g.Held s n t p a x → (p.compare b a).isLE →
      Brought g s n t x (.compare .ge (.field n) (.lit ⟨p, some b⟩))
  | greatest {p : ScalarType} {a b : p.Carrier} {x : Value} :
      g.Held s n t p a x → (p.compare a b).isLE →
      Brought g s n t x (.compare .le (.field n) (.lit ⟨p, some b⟩))

variable {t : DataType} {x y : Value} {col : Column} {i : Nat} {f : Field}

theorem Says.brought {st : Statistics} (h : Says st g.rows.rows f.type n c)
    (hchunk : ⟨[n], some st⟩ ∈ g.chunks) (hf : s.field? n = some f) (hst : st.IsTrue col)
    (hcol : g.rows.column? n = some col) (hy : col.value? i = some y)
    (htype : ∀ q, f.type = .scalar q → col.type = .scalar q) (hnull : y = .null → x = .null)
    (hcast : ∀ q, f.type = .scalar q → y.cast? t = some x) : g.Brought s n t x c := by
  have held {low high : Scalar} (hnone : st.nulls = some 0)
      (hrange : st.range? f.type = some (low, high)) :
      ∃ (p : ScalarType) (a b b' : p.Carrier), low = ⟨p, some b⟩ ∧ high = ⟨p, some b'⟩ ∧
      g.Held s n t p a x ∧
        (p.compare b a).isLE ∧ (p.compare a b').isLE := by
    obtain ⟨p, hp, -, b, b', rfl, rfl⟩ := Statistics.ranged_of_range? hrange
    have hvalid := (hst.isNull hy).2 hnone
    have hcast := hcast p hp
    obtain ⟨type, cells⟩ := col
    obtain rfl : type = .scalar p := htype p hp
    obtain ⟨cell, hcell, rfl⟩ := Option.map_eq_some_iff.1 hy
    cases cell with
    | none => cases hvalid
    | some a =>
      have hmem := List.mem_of_getElem? hcell
      refine ⟨p, a, b, b', rfl, rfl,
        ⟨⟨st, f, _, hchunk, hf, hp, hnone, hrange⟩, ⟨cells, hcol, hmem⟩, hcast⟩, ?_⟩
      rw [hp] at hrange
      exact hst.isLE_range hrange hmem
  cases h with
  | absent hall =>
    have hy := (hst.isNull hy).1 (hall.trans (congrArg some (g.rows.length_of_column? hcol).symm))
    cases y with
    | null =>
      rw [hnull rfl]
      exact .absent
    | of p a => cases hy
  | least hnone hrange =>
    obtain ⟨p, a, b, -, rfl, -, hheld, hle, -⟩ := held hnone hrange
    exact .least hheld hle
  | greatest hnone hrange =>
    obtain ⟨p, a, -, b, -, rfl, hheld, -, hle⟩ := held hnone hrange
    exact .greatest hheld hle

theorem Held.keeps_of_widens {p : ScalarType} {a : p.Carrier} (h : g.Held s n t p a x)
    (hw : p.widens t) :
    p.Keeps t a x := by
  obtain ⟨b, hb, hkeeps⟩ := ScalarType.asCell?_of_widens h.range.isRanged hw a
  have hx : (Value.of (.scalar p) a).cast? t = some (Value.ofCell t (some b)) :=
    congrArg (Option.map _) hb
  rw [Option.some.inj (h.cast.symm.trans hx), Value.ofCell_some]
  exact hkeeps

def Brings (g : RowGroup) (s : Schema) (n : String) (t : DataType) (x : Value) : Prop :=
  ∀ c ∈ (g.guarantee s).conjuncts, g.Brought s n t x c ∨ ∀ f, Facts.add n f c = f

namespace Brings

theorem induction (h : g.Brings s n t x) {P : Facts → Prop} (h0 : P Facts.none_)
    (hstep : ∀ c f, g.Brought s n t x c → P f → P (Facts.add n f c)) :
    P (Facts.ofGuarantee (g.guarantee s) n) := by
  refine Facts.ofGuarantee_induction h0 fun c hc f hf => ?_
  rcases h c hc with hbrought | hid
  · exact hstep c f hbrought hf
  · rw [hid]
    exact hf

theorem eq_of_value (h : g.Brings s n t x) {v : Scalar}
    (hv : (Facts.ofGuarantee (g.guarantee s) n).value = some v) :
    x = ofScalar v := by
  revert v
  refine h.induction (P := fun f => ∀ {v}, f.value = some v → x = ofScalar v)
    (fun hv => by cases hv) ?_
  intro c f hc ih v hv
  rcases Facts.value_add hv with hv | htells
  · exact ih hv
  · cases hc <;> cases htells
    rfl

theorem held_of_bound (h : g.Brings s n t x) :
    ∀ bound ∈ (Facts.ofGuarantee (g.guarantee s) n).bounds,
    ∃ (p : ScalarType) (a b : p.Carrier), bound = ⟨⟨p, some b⟩, true⟩ ∧ g.Held s n t p a x := by
  refine h.induction (P := fun f => ∀ bound ∈ f.bounds, ∃ (p : ScalarType) (a b : p.Carrier),
    bound = ⟨⟨p, some b⟩, true⟩ ∧ g.Held s n t p a x) (fun _ hb => absurd hb List.not_mem_nil) ?_
  intro c f hc ih bound hb
  rcases Facts.bound_add hb with hb | ⟨op, htells, hvalid, -, hinclusive⟩
  · exact ih bound hb
  · obtain ⟨v, inclusive⟩ := bound
    cases hc with
    | absent =>
      cases htells
      cases hvalid
    | least hheld =>
      cases htells
      obtain rfl : inclusive = true := hinclusive.2 (.inr rfl)
      exact ⟨_, _, _, rfl, hheld⟩
    | greatest hheld =>
      cases htells
      obtain rfl : inclusive = true := hinclusive.2 (.inl rfl)
      exact ⟨_, _, _, rfl, hheld⟩

section Kept

variable (hk : ∀ p a, g.Held s n t p a x → p.Keeps t a x)

include hk

theorem isNull_of_valid (h : g.Brings s n t x) {b : Bool}
    (hb : (Facts.ofGuarantee (g.guarantee s) n).valid = some b) :
    x.isNull = !b := by
  revert b
  refine h.induction (P := fun f => ∀ {b}, f.valid = some b → x.isNull = !b)
    (fun hb => by cases hb) ?_
  intro c f hc ih b hb
  cases hc with
  | absent =>
    simp only [Facts.add, if_true] at hb
    rcases Facts.Holds.some_of_orElse hb with hb | rfl
    · exact ih hb
    · rfl
  | least hheld | greatest hheld =>
    simp only [Facts.add, Facts.addComparison, Scalar.isNull, if_true] at hb
    rcases Facts.Holds.some_of_orElse hb with hb | rfl
    · exact ih hb
    · exact (hk _ _ hheld).1

theorem holds (h : g.Brings s n t x)
    (ht : ∀ p, g.HasRange s n p → (comparisonType t (.scalar p)).isSome) :
    (Facts.ofGuarantee (g.guarantee s) n).Holds x := by
  refine Facts.Holds.ofGuarantee (ρ := fun _ => some x) rfl fun c hc =>
    (h c hc).imp_left fun hbrought => ?_
  cases hbrought with
  | absent => rfl
  | least hheld hle =>
    have heq := (hk _ _ hheld).2 (ht _ hheld.range)
    simp [Expr.truth?, Expr.value?, Value.ofScalar_some,
      (compare?_bound hheld.range.isRanged heq).1 hle]
  | greatest hheld hle =>
    have heq := (hk _ _ hheld).2 (ht _ hheld.range)
    simp [Expr.truth?, Expr.value?, Value.ofScalar_some,
      (compare?_bound hheld.range.isRanged heq).2 hle]

theorem decide_eq (h : g.Brings s n t x) (hx : x.isPlain)
    (htyped : ∀ q (a : q.Carrier), x = .of q a → q = t.plain) {op : Comparison} {v : Scalar}
    {r : Bool} {u : Option Bool}
    (hsettles : ∀ p, g.HasRange s n p → (∀ a, x = .of (.scalar v.type) a → (ofScalar v).isQuiet) ∧
      ∀ bound ∈ (Facts.ofGuarantee (g.guarantee s) n).bounds, bound.Settles t v)
    (hd : (Facts.ofGuarantee (g.guarantee s) n).decide op v = some r)
    (hu : Value.compare? op x (ofScalar v) = some u) : u = some r := by
  have hv := Facts.isNull_of_decide hd
  obtain ⟨bound, hb, horder⟩ : ∃ bound ∈ (Facts.ofGuarantee (g.guarantee s) n).bounds,
      bound.value.order? v ≠ none := by
    by_contra hnone
    push Not at hnone
    rw [Facts.Holds.decide_eq_none hnone] at hd
    cases hd
  obtain ⟨p, a, b, rfl, hheld⟩ := h.held_of_bound bound hb
  -- the literal compares with the bound and with the value, so that these two compare as well
  have hcomparable : (comparisonType t (.scalar p)).isSome := by
    have hvalid := (hk _ _ hheld).1
    have hne : DataType.scalar v.type ≠ .null :=
      fun h => Scalar.type_ne_null hv (DataType.scalar.inj h)
    have hp : DataType.scalar p ≠ .null := by
      rintro ⟨⟩
      cases hheld.range.isRanged
    cases x with
    | null => cases hvalid
    | of q c =>
      have hq := Value.isSome_of_compare? hv hu
      have htrans := DataType.isSome_comparisonType_trans (r := .scalar p)
        (t := v.dataType) hp hne hq (Scalar.isSome_of_order? horder)
      rwa [htyped q c rfl, comparisonType, DataType.plain_plain] at htrans
  have hholds : (Facts.ofGuarantee (g.guarantee s) n).Holds x := by
    refine h.holds hk fun q hq => ?_
    rw [hq.unique hheld.range]
    exact hcomparable
  obtain ⟨hquiet, hall⟩ := hsettles p hheld.range
  refine hholds.decide hx hquiet (fun bound hb => ?_) hd hu
  obtain ⟨q, a', b', rfl, hheld'⟩ := h.held_of_bound bound hb
  refine ⟨(hall _ hb).bears rfl hv htyped, isQuiet_of_ranged hheld'.range.isRanged (some b'), ?_⟩
  exact Value.isQuiet_cast? hheld.cast rfl (isQuiet_of_ranged hheld.range.isRanged (some a))

end Kept

end Brings

end RowGroup

/-! The rows of a group, as a dataset has them. -/

namespace ParquetOptions

variable (o : ParquetOptions)

theorem field?_schema (s : Schema) (n : String) :
    (o.schema s).field? n = (s.field? n).map o.field := by
  rw [schema, Schema.field?, List.find?_map]
  have hname : ((fun f : Field => decide (f.name = n)) ∘ o.field) = fun f =>
    decide (f.name = n) := by
    funext f
    simp only [Function.comp_apply, field]
    split <;> rfl
  rw [hname]
  rfl

theorem value_cell (n : String) (c : Cell) : (o.cell n c).value = c.value := by
  unfold cell
  split
  · obtain ⟨t, x⟩ := c
    cases x <;> rfl
  · rfl

theorem type_cell (f : Field) (x : Option f.type.Carrier) :
    (o.cell f.name (.of f.type x)).1 = (o.field f).type := by
  cases h : o.encodes f.name f.type <;> simp [cell, field, Cell.of, h]

end ParquetOptions

theorem ParquetOptions.type_field (o : ParquetOptions) (f : Field) {q : ScalarType}
    (h : (o.field f).type = .scalar q) :
    f.type = .scalar q := by
  unfold field at h
  split at h
  · cases h
  · exact h

namespace RowGroup

variable {g : RowGroup} {o : ParquetOptions} {fr : Fragment} {ds : Schema} {n : String} {i : Nat}
  {x : Value} {e : Expr}

theorem column_of_field {f : Field} (hi : i < g.rows.rows)
    (hf : (o.schema g.rows.schema).field? n = some f) :
    ∃ col y, g.rows.column? n = some col ∧ col.value? i = some y.value ∧
      (g.rows.tuple i).encode o n = some y ∧
      y.1 = f.type ∧ ∀ q, f.type = .scalar q → col.type = .scalar q := by
  rw [o.field?_schema] at hf
  obtain ⟨f', hf', rfl⟩ := Option.map_eq_some_iff.1 hf
  have hname : f'.name = n := Schema.name_of_field? hf'
  obtain ⟨col, hcol, ht⟩ := Batch.field?_column hf'
  obtain ⟨y, hy⟩ := col.cell?_isSome (i := i) (by rw [g.rows.length_of_column? hcol]; exact hi)
  refine ⟨col, o.cell n y, hcol, ?_, ?_, ?_, fun q hq => ?_⟩
  · rw [Column.value?_cell?, hy, Option.map_some, o.value_cell]
  · rw [Tuple.encode, Batch.tuple, hcol, Option.bind_some, hy, Option.map_some]
  · obtain ⟨a, -, rfl⟩ := Option.map_eq_some_iff.1 hy
    obtain ⟨name, type, nullable, metadata⟩ := f'
    cases ht
    rw [← hname]
    exact o.type_cell ⟨name, col.type, nullable, metadata⟩ a
  · rw [← ht]
    exact o.type_field f' hq

theorem brings_seen (hg : g.IsTrue) (hi : i < g.rows.rows)
    (hfree : (fr.physical.field? n).isSome → fr.partition.boundTo? n = none)
    (hread : fr.physical = o.schema g.rows.schema)
    (hx : (fr.seen ds ((g.rows.tuple i).encode o)).row n = some x) :
    g.Brings (o.schema g.rows.schema) n (ds.typeOf n) x := by
  intro c hc
  rcases said_of_guarantee hc with rfl | ⟨m, st, f, hchunk, hf, hsaid⟩
  · exact .inr fun _ => rfl
  · by_cases hm : n = m
    · subst hm
      obtain ⟨col, y, hcol, hvalue, htuple, htype, hcolumn⟩ := column_of_field hi hf
      obtain ⟨z, hz, rfl⟩ := Option.map_eq_some_iff.1 hx
      obtain ⟨f', hf', hname, hcell⟩ := fr.seen_eq_some hz
      rw [hread, hf, Option.bind_some, htuple,
        fr.cell_file (by rw [hname]; exact hfree (by rw [hread, hf]; rfl))] at hcell
      rw [Schema.typeOf_of_field? hf']
      exact .inl (hsaid.brought hchunk hf (hg _ hchunk n st rfl rfl col hcol) hcol hvalue hcolumn
        (Cell.value_cast?_null hcell) fun q hq => Cell.value_cast? hcell (by rw [htype, hq]; rfl))
    · exact .inr (hsaid.add hm)

/--
Whether what statistics say of columns of a file is so of the columns to which a dataset casts them:
no value is lost or becomes a different one, and rounding does not show where the column is compared
with a literal. Of wider types this is true of itself.
-/
structure Suits (g : RowGroup) (o : ParquetOptions) (ds : Schema) (e : Expr) : Prop where
  kept : ∀ n ∈ e.fields, ∀ p a x, g.Held (o.schema g.rows.schema) n (ds.typeOf n) p a x →
    p.widens (ds.typeOf n) = false → p.Keeps (ds.typeOf n) a x
  settled : e.Meets fun a b => ∀ n v,
    Expr.Faces (Facts.ofGuarantee (g.guarantee (o.schema g.rows.schema))) a b n v →
    v.isNull = false →
      ∀ p, g.HasRange (o.schema g.rows.schema) n p → p.widens (ds.typeOf n) = false →
        (ds.typeOf n).isInexact = true →
          ∀ bound ∈ (Facts.ofGuarantee (g.guarantee (o.schema g.rows.schema)) n).bounds,
            bound.Settles (ds.typeOf n) v

theorem suits_of_widens
    (h : ∀ n ∈ e.fields, ∀ p, g.HasRange (o.schema g.rows.schema) n p → p.widens (ds.typeOf n)) :
    g.Suits o ds e where
  kept n hn p a x hheld hw := by
    rw [h n hn p hheld.range] at hw
    cases hw
  settled := by
    refine Expr.meets_of_fields fun a b hab n v hface hv p hrange hw => ?_
    have hn := (Expr.simplified_of_ok hface.field).fields_subset (Expr.mem_fields_field.2 rfl)
    rw [h n (hab n hn.1) p hrange] at hw
    cases hw

namespace Suits

theorem keeps (h : g.Suits o ds e) (hn : n ∈ e.fields) (p : ScalarType) (a : p.Carrier)
    (hheld : g.Held (o.schema g.rows.schema) n (ds.typeOf n) p a x) :
    p.Keeps (ds.typeOf n) a x := by
  cases hw : p.widens (ds.typeOf n) with
  | true => exact hheld.keeps_of_widens hw
  | false => exact h.kept n hn p a x hheld hw

theorem fits (h : g.Suits o ds e) (hg : g.IsTrue) (hi : i < g.rows.rows) (he : e.isQuiet)
    (hfree : ∀ n ∈ e.fields, (fr.physical.field? n).isSome → fr.partition.boundTo? n = none)
    (hread : fr.physical = o.schema g.rows.schema) :
    Expr.Fits (Facts.ofGuarantee (g.guarantee (o.schema g.rows.schema)))
      (fr.seen ds ((g.rows.tuple i).encode o)).row
      (fun n v => v.isNull = false → (ofScalar v).isQuiet ∧
        ∀ p, g.HasRange (o.schema g.rows.schema) n p → p.widens (ds.typeOf n) = false →
          (ds.typeOf n).isInexact = true →
          ∀ bound ∈ (Facts.ofGuarantee (g.guarantee (o.schema g.rows.schema)) n).bounds,
            bound.Settles (ds.typeOf n) v) e where
  quiet := he
  trusted := by
    refine h.settled.mono he fun a b hb hab n v hface hn => ⟨?_, hab n v hface hn⟩
    refine (Expr.simplified_of_ok hface.literal).isQuiet (fun n v hv => ?_) hb
    rw [eq_null_of_value hv]
    rfl
  described := by
    intro n hn x hx
    have hbrings := brings_seen hg hi (hfree n hn) hread hx
    have hk := h.keeps (x := x) hn
    refine ⟨fun v => hbrings.eq_of_value, fun _ b => hbrings.isNull_of_valid hk,
      fun _ op v r t hok hd hu => ?_⟩
    obtain ⟨hquiet, hsettles⟩ := hok (Facts.isNull_of_decide hd)
    refine hbrings.decide_eq hk (Tuple.row_isPlain hx) (fun q a hq => ?_) (fun p hrange => ?_) hd hu
    · exact fr.seen_isTyped ds _ n q a (hx.trans (congrArg some hq))
    · refine ⟨fun _ _ => hquiet, fun bound hb => ?_⟩
      obtain ⟨q, a, b, rfl, hheld⟩ := hbrings.held_of_bound bound hb
      have hranged := hheld.range.isRanged
      obtain rfl := hheld.range.unique hrange
      cases hw : q.widens (ds.typeOf n) with
      | true => exact ScalarType.settles_of_widens hranged rfl rfl hw v
      | false =>
        cases ht : (ds.typeOf n).isInexact with
        | true => exact hsettles q hrange hw ht _ hb
        | false => exact ScalarType.settles_of_exact hranged rfl ht v

theorem not_satisfies (h : g.Suits o ds e) (hg : g.IsTrue) (he : e.isQuiet)
    (hfree : ∀ n ∈ e.fields, (fr.physical.field? n).isSome → fr.partition.boundTo? n = none)
    (hread : fr.physical = o.schema g.rows.schema)
    (hmay : g.mayMatch (o.schema g.rows.schema) e = false) :
    ∀ p ∈ g.rows.tuples, (fr.seen ds (p.encode o)).satisfies e = false := by
  intro p hp
  obtain ⟨i, hi, rfl⟩ := List.mem_map.1 hp
  replace hi := List.mem_range.1 hi
  rw [mayMatch] at hmay
  split at hmay
  · cases hmay
  · split at hmay
    · rename_i u hu
      by_contra hsat
      have htrue : e.truth? (fr.seen ds ((g.rows.tuple i).encode o)).row = some (some true) := by
        simpa [Tuple.satisfies] using hsat
      have hrefines :=
        (Expr.simplified_of_ok hu).refines (h.fits hg hi he hfree hread) fun n v hv => by
        rw [eq_null_of_value hv]
        rfl
      exact Expr.not_true_of_unsatisfiable hmay (hrefines.truth _ htrue)
    · cases hmay

end Suits

end RowGroup

/-! Files. -/

def FileImage.IsTrue : FileImage → Prop
  | parquet f => ∀ g ∈ f.groups, g.IsTrue
  | _ => True

/-! Tables in groups of so many rows. -/

namespace ParquetFile

theorem slice_of_mem_chunks {b u : Batch} {size : Option Nat} (h : u ∈ b.chunks size) :
    u = b ∨ ∃ i n, u = b.slice i n := by
  have pieces {size fuel start : Nat} (h : u ∈ b.piecesFrom size fuel start) : ∃ i n,
      u = b.slice i n := by
    induction fuel generalizing start with
    | zero => cases h
    | succ fuel ih =>
      unfold Batch.piecesFrom at h
      split at h
      · rcases List.mem_cons.1 h with rfl | h
        · exact ⟨start, size, rfl⟩
        · exact ih h
      · cases h
  unfold Batch.chunks at h
  split at h
  · cases h
  · cases size with
    | none => exact .inl (List.mem_singleton.1 h)
    | some n =>
      dsimp only [Batch.pieces] at h
      split at h
      · exact .inl (List.mem_singleton.1 h)
      · exact .inr (pieces h)

variable {table : Batch} {groupRows : Option Nat} {record : Bool} {limit : Option Nat}

theorem isUniform_ofTable :
    (FileImage.parquet (ofTable table groupRows record limit)).IsUniform := by
  intro g hg
  obtain ⟨u, hu, rfl⟩ := List.mem_map.1 hg
  obtain rfl | ⟨i, n, rfl⟩ := slice_of_mem_chunks hu
  · rfl
  · exact List.map_map.trans (List.map_congr_left fun s _ => rfl)

theorem isTrue_ofTable (h : (table.columns.map (·.name)).Nodup) :
    (FileImage.parquet (ofTable table groupRows record limit)).IsTrue := by
  intro g hg
  obtain ⟨u, hu, rfl⟩ := List.mem_map.1 hg
  refine RowGroup.isTrue_ofRows ?_ record limit
  obtain rfl | ⟨i, n, rfl⟩ := slice_of_mem_chunks hu
  · exact h
  · have hnames : (table.slice i n).columns.map (·.name) = table.columns.map (·.name) :=
      List.map_map.trans (List.map_congr_left fun s _ => rfl)
    rw [hnames]
    exact h

end ParquetFile

/-! What is read of a file. -/

def FileImage.Suits (image : FileImage) (fr : Fragment) (ds : Schema) (e : Expr) : Prop :=
  match fr.format, image with
  | .parquet o, parquet f => ∀ g ∈ f.groups, g.Suits o ds e
  | _, _ => True

def Fragment.Describes (fr : Fragment) (file : OpenFile) : Prop :=
  fr.format.inspect file = .ok fr.physical

theorem Fragment.Describes.physical {fr : Fragment} {file : OpenFile} (h : fr.Describes file)
    {o : ParquetOptions} {f : ParquetFile} (hformat : fr.format = .parquet o)
    (hfile : file.image = .parquet f) :
    fr.physical = o.schema f.schema := by
  rw [Describes, hformat] at h
  obtain ⟨f', hf', h⟩ := bind_eq_ok.1 h
  cases hfile.symm.trans (ParquetFile.image_of_ofFile hf')
  exact (Except.ok.inj h).symm

theorem flatMap_filter {α β : Type} {l : List α} {q : α → Bool} {f : α → List β}
    (h : ∀ a ∈ l, q a = false → f a = []) : (l.filter q).flatMap f = l.flatMap f := by
  induction l with
  | nil => rfl
  | cons a l ih =>
    have hl := ih fun b hb => h b (List.mem_cons_of_mem a hb)
    rw [List.filter_cons, List.flatMap_cons]
    cases hq : q a with
    | true => rw [if_pos rfl, List.flatMap_cons, hl]
    | false => rw [if_neg nofun, hl, h a List.mem_cons_self hq, List.nil_append]

theorem flatMap_zipIdx {α β : Type} (l : List α) (f : α → List β) :
    (l.zipIdx.flatMap fun x => f x.1) = l.flatMap f := by
  rw [← List.flatMap_map Prod.fst f, List.zipIdx_map_fst]

theorem Format.stored_of_isTrue {format : Format} {e : Expr} {image : FileImage}
    (h : e.isTrue = true) :
    format.stored e image = format.whole image := by
  cases format with
  | ipc => cases image <;> rfl
  | parquet o =>
    cases image with
    | parquet f =>
      rw [stored, whole, ParquetFile.selected, h, Bool.not_true, Bool.and_false,
        if_neg Bool.false_ne_true, flatMap_zipIdx f.groups fun g =>
          g.rows.tuples.map (Tuple.encode o)]
    | _ => rfl

theorem Fragment.filter_stored {fr : Fragment} {file : OpenFile} {ds : Schema} {e : Expr}
    (hd : fr.Describes file) (hu : file.image.IsUniform) (ht : file.image.IsTrue)
    (hs : file.image.Suits fr ds e) (he : e.isQuiet)
    (hfree : ∀ n ∈ e.fields, (fr.physical.field? n).isSome → fr.partition.boundTo? n = none) :
    ((fr.format.stored e file.image).map (fr.seen ds)).filter (·.satisfies e) =
      ((fr.format.whole file.image).map (fr.seen ds)).filter (·.satisfies e) := by
  cases hformat : fr.format with
  | ipc => cases file.image <;> rfl
  | parquet o =>
    cases himage : file.image with
    | ipc f => rfl
    | raw bytes => rfl
    | parquet f =>
      have hphysical := hd.physical hformat himage
      rw [himage] at hu ht
      simp only [FileImage.Suits, hformat, himage] at hs
      simp only [Format.stored, Format.whole, List.map_flatMap, List.filter_flatMap]
      rw [← flatMap_zipIdx f.groups]
      unfold ParquetFile.selected
      split
      · refine flatMap_filter fun g hg hmay => ?_
        have hg := List.mem_of_getElem? (List.mem_zipIdx_iff_getElem?.1 hg)
        rw [← hu g.1 hg] at hmay hphysical
        refine List.filter_eq_nil_iff.2 fun p hp => ?_
        obtain ⟨_, hencoded, rfl⟩ := List.mem_map.1 hp
        obtain ⟨q, hq, rfl⟩ := List.mem_map.1 hencoded
        simpa using (hs g.1 hg).not_satisfies (ht g.1 hg) he hfree hphysical hmay q hq
      · rfl

def Dataset.HasTrueStatistics (d : Dataset) (files : FileAccess) : Prop :=
  ∀ fr ∈ d.fragments, ∀ file, (fr.origin.openFile files).result = .ok file → file.image.IsTrue

theorem ScanTask.tuples_items_whole {t : ScanTask} {files : FileAccess} {bs : List Batch}
    {file : OpenFile} (h : t.items files = bs.map .ok)
    (hfile : (t.fragment.origin.openFile files).result = .ok file) (hd : t.fragment.Describes file)
    (hq : t.filter.isQuiet) (hr : t.filter.recodes t.context.dataset = false)
    (hfree : ∀ n ∈ t.filter.fields, (t.fragment.physical.field? n).isSome →
      t.fragment.partition.boundTo? n = none) (hu : file.image.IsUniform) (ht : file.image.IsTrue)
    (hs : file.image.Suits t.fragment t.context.dataset t.filter) :
    bs.flatMap Batch.tuples = (((t.fragment.format.whole file.image).map
      (t.fragment.seen t.context.dataset)).filter (·.satisfies t.filter)).map
        (·.project t.context.projected) := by
  have huniform (file' : OpenFile) (h' : (t.fragment.origin.openFile files).result = .ok file') :
      file'.image.IsUniform := by
    cases hfile.symm.trans h'
    exact hu
  obtain ⟨file', hfile', -, heq⟩ := tuples_items h hq hr huniform
  cases hfile.symm.trans hfile'
  rw [heq, Fragment.filter_stored hd hu ht hs hq hfree]

end TableScan
