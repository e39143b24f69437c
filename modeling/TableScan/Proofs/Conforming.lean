import TableScan.Proofs.Facts
import TableScan.Proofs.Reading

namespace TableScan

open Value (ofCell)

def Cell.cast? (t : DataType) (c : Cell) : Option Cell :=
  if c.1 = t then some c else ((conversion c.1 t).cell? c.2).map (.of t)

theorem Cell.cast?_self (t : DataType) (x : Option t.Carrier) : (of t x).cast? t = some (of t x) :=
  if_pos rfl

theorem Cell.cast?_of {p t : DataType} {x : Option p.Carrier} {y : Option t.Carrier} (hne : p ≠ t)
    (h : (conversion p t).cell? x = some y) : (of p x).cast? t = some (of t y) :=
  (if_neg hne).trans (congrArg (Option.map (of t)) h)

theorem Cell.type_cast? {c x : Cell} {t : DataType} (h : c.cast? t = some x) : x.1 = t := by
  unfold Cell.cast? at h
  split at h
  · cases h
    assumption
  · obtain ⟨_, -, rfl⟩ := Option.map_eq_some_iff.1 h
    rfl

theorem Cell.value_cast? {c d : Cell} {t : DataType} (h : c.cast? t = some d)
    (hc : c.1.isDictionary = false) : c.value.cast? t = some d.value := by
  obtain ⟨p, x⟩ := c
  unfold cast? at h
  split at h
  · rename_i e
    cases h
    subst e
    cases x with
    | none => rfl
    | some a =>
      have hself := Value.asCell?_self (p := p) (fun hd => absurd hd (by simp [hc])) a
      exact congrArg (Option.map (ofCell p)) hself
  · obtain ⟨y, hy, rfl⟩ := Option.map_eq_some_iff.1 h
    have hcast := Value.asCell?_ofCell hy fun hd => absurd hd (by simp [hc])
    exact congrArg (Option.map (ofCell t)) hcast

theorem Cell.value_cast?_null {c d : Cell} {t : DataType} (h : c.cast? t = some d)
    (hc : c.value = .null) : d.value = .null := by
  obtain ⟨p, x⟩ := c
  cases x with
  | some a =>
    have hnull := congrArg Value.isNull hc
    rw [value, Value.isNull_ofCell] at hnull
    cases hnull
  | none =>
    unfold cast? at h
    split at h
    · cases h
      rfl
    · obtain ⟨y, hy, rfl⟩ := Option.map_eq_some_iff.1 h
      obtain ⟨f, -, hy⟩ := Rule.cell?_eq_some hy
      cases hy
      rfl

theorem Column.cell?_cast {c d : Column} {t : DataType} (h : c.cast t = .ok d) {i : Nat} {x : Cell}
    (hx : c.cell? i = some x) : ∃ y, d.cell? i = some y ∧ x.cast? t = some y := by
  obtain ⟨type, old⟩ := c
  obtain ⟨cells, hcells, rfl⟩ := map_eq_ok.1 h
  obtain ⟨a, ha, rfl⟩ := Option.map_eq_some_iff.1 hx
  simp only at ha
  simp only [castCells] at hcells
  split at hcells
  · rename_i e
    subst e
    cases hcells
    exact ⟨_, congrArg (Option.map (Cell.of type)) ha, Cell.cast?_self type a⟩
  · rename_i hne
    split at hcells
    · cases hcells
    · rename_i f hf
      obtain ⟨y, hy, hc⟩ := mapM_getElem? (mapError_eq_ok.1 hcells) ha
      refine ⟨.of t y, congrArg (Option.map (Cell.of t)) hy, Cell.cast?_of hne ?_⟩
      simp [Rule.cell?, hf, Except.toOption, hc]

namespace Fragment

variable (fr : Fragment)

/-- The cell of a field of the dataset in a row of the fragment, where the file has the given one.
-/
def cell (f : Field) (c : Option Cell) : Option Cell :=
  match fr.partition.boundTo? f.name with
  | some v => if v.isNull then some (.null f.type) else (v.castTo f.type).toOption.map Cell.ofScalar
  | none =>
    match c with
    | some c => c.cast? f.type
    | none => some (.null f.type)

variable {fr} {f : Field}

theorem cell_null {v : Scalar} {c : Option Cell} (hv : fr.partition.boundTo? f.name = some v)
    (hn : v.isNull = true) : fr.cell f c = some (.null f.type) := by
  simp only [cell, hv, hn, ↓reduceIte]

theorem cell_fixed {v w : Scalar} {c : Option Cell} (hv : fr.partition.boundTo? f.name = some v)
    (hn : v.isNull = false) (hw : v.castTo f.type = .ok w) : fr.cell f c = some (.ofScalar w) := by
  simp [cell, hv, hn, hw, Except.toOption]

theorem cell_file {c : Cell} (hf : fr.partition.boundTo? f.name = none) :
    fr.cell f (some c) = c.cast? f.type := by
  simp only [cell, hf]

theorem cell_missing (hf : fr.partition.boundTo? f.name = none) :
    fr.cell f none = some (.null f.type) := by
  simp only [cell, hf]

theorem cell_of_bound {c : Option Cell} (h : (fr.partition.boundTo? f.name).isSome) :
    fr.cell f c = fr.cell f none := by
  obtain ⟨v, hv⟩ := Option.isSome_iff_exists.1 h
  simp only [cell, hv]

theorem cell_eq_some {c : Option Cell} {x : Cell} (h : fr.cell f c = some x) : x = .null f.type ∨
    (∃ v w, fr.partition.boundTo? f.name = some v ∧ v.isNull = false ∧ v.castTo f.type = .ok w ∧
      x = .ofScalar w) ∨
    ∃ y, fr.partition.boundTo? f.name = none ∧ c = some y ∧ y.cast? f.type = some x := by
  unfold cell at h
  split at h
  · rename_i v hv
    split at h
    · cases h
      exact .inl rfl
    · rename_i hn
      obtain ⟨w, hw, rfl⟩ := Option.map_eq_some_iff.1 h
      refine .inr (.inl ⟨v, w, hv, by simpa using hn, ?_, rfl⟩)
      cases hc : v.castTo f.type with
      | error e => rw [hc] at hw; cases hw
      | ok w' => rw [hc] at hw; cases hw; rfl
  · rename_i hv
    split at h
    · exact .inr (.inr ⟨_, hv, rfl, h⟩)
    · cases h
      exact .inl rfl

theorem cell_typed {c : Option Cell} {x : Cell} (h : fr.cell f c = some x) :
    (∃ v w : Scalar, v.castTo f.type = .ok w ∧ x = .ofScalar w) ∨ x.1 = f.type := by
  rcases cell_eq_some h with rfl | ⟨v, w, -, -, hw, rfl⟩ | ⟨y, -, -, hy⟩
  · exact .inr rfl
  · exact .inl ⟨v, w, hw, rfl⟩
  · exact .inr (Cell.type_cast? hy)

theorem cell_isQuiet {c : Option Cell} {x : Cell} (h : fr.cell f c = some x)
    (hq : fr.partition.isQuiet) (hc : ∀ y, c = some y → y.cast? f.type = some x → x.value.isQuiet) :
    x.value.isQuiet := by
  rcases cell_eq_some h with rfl | ⟨v, w, hv, -, hw, rfl⟩ | ⟨y, -, hy, hx⟩
  · rfl
  · obtain ⟨e, he, ht⟩ := Facts.tells_boundTo? hv
    exact Value.isQuiet_cast? (Value.cast?_ofScalar hw) (Value.isPlain_ofCell _ _)
      (ht.isQuiet (Expr.isQuiet_conjuncts hq e he))
  · exact hc y hy hx

def seen (fr : Fragment) (s : Schema) (p : Tuple) : Tuple := fun n =>
  (s.field? n).bind fun f => fr.cell f ((fr.physical.field? n).bind fun _ => p n)

theorem seen_eq_some {s : Schema} {p : Tuple} {n : String} {x : Cell} (h : fr.seen s p n = some x) :
    ∃ f, s.field? n = some f ∧ f.name = n ∧
      fr.cell f ((fr.physical.field? n).bind fun _ => p n) = some x := by
  obtain ⟨f, hf, hx⟩ := Option.bind_eq_some_iff.1 h
  exact ⟨f, hf, Schema.name_of_field? hf, hx⟩

theorem project_seen {s u : Schema} {p : Tuple} (hu : ∀ n, u.field? n = s.field? n)
    (hp : ∀ n f, s.field? n = some f → ∃ c, fr.seen s p n = some c) :
    (fr.seen s p).project u = fr.seen s p := by
  funext n
  rw [Tuple.project, hu]
  cases hn : s.field? n with
  | none =>
    rw [seen, hn]
    rfl
  | some f =>
    obtain ⟨c, hc⟩ := hp n f hn
    rw [hc]
    rfl

theorem seen_isTyped (fr : Fragment) (s : Schema) (p : Tuple) :
    (fr.seen s p).row.IsTyped s.typeOf := by
  intro n t a hx
  obtain ⟨x, hx, ha⟩ := Option.map_eq_some_iff.1 hx
  obtain ⟨f, hf, -, hc⟩ := seen_eq_some hx
  rw [Schema.typeOf_of_field? hf]
  rcases cell_typed hc with ⟨v, w, hw, rfl⟩ | ht
  · obtain ⟨y, -, hy⟩ := Option.map_eq_some_iff.1 (Value.cast?_ofScalar hw)
    exact Expr.type_ofCell (hy.trans ha)
  · rw [← ht]
    exact Expr.type_ofCell ha

theorem seen_isDictionary {s : Schema} {p : Tuple} {n : String} {x : Cell}
    (h : fr.seen s p n = some x) (hx : x.1.isDictionary = true) :
    ∃ f, s.field? n = some f ∧ f.type.isDictionary = true := by
  obtain ⟨f, hf, -, hc⟩ := seen_eq_some h
  rcases cell_typed hc with ⟨v, w, -, rfl⟩ | ht
  · cases hx
  · exact ⟨f, hf, ht ▸ hx⟩

end Fragment

namespace ScanTask

def conformed (t : ScanTask) (p : Tuple) : Tuple := fun n =>
  (t.needed.field? n).bind fun f => t.fragment.cell f (p n)

variable {t : ScanTask} {b u : Batch} {i : Nat} {f : Field} {rows : Nat}

/-- What a field gets, by the fragment's place and the column of the file, if it has one. -/
inductive Gets (t : ScanTask) (rows : Nat) (f : Field) : Option Column → Column → Prop
  | null {v : Scalar} {c : Option Column} : t.fixed? f.name = some v → v.isNull = true →
      Gets t rows f c (.nulls f.type rows)
  | fixed {v w : Scalar} {c : Option Column} :
      t.fixed? f.name = some v → v.isNull = false → v.castTo f.type = .ok w →
      Gets t rows f c (.constant w rows)
  | file {c d : Column} : t.fixed? f.name = none → c.cast f.type = .ok d → Gets t rows f (some c) d
  | missing : t.fixed? f.name = none → Gets t rows f none (.nulls f.type rows)

theorem Gets.unique {o : Option Column} {c d : Column} (hc : t.Gets rows f o c)
    (hd : t.Gets rows f o d) : c = d := by
  cases hc <;> cases hd <;> simp_all

theorem gets_of_conformField {s : SizedSeries b.rows} (h : t.conformField b f = .ok s) :
    ∃ c, t.Gets b.rows f (b.column? f.name) c ∧ s.series = ⟨f.name, f.nullable, c, f.metadata⟩ := by
  unfold conformField at h
  split at h
  · rename_i v hv
    unfold fill at h
    split at h
    · rename_i hn
      cases h
      exact ⟨_, .null hv hn, rfl⟩
    · rename_i hn
      obtain ⟨w, hw, h⟩ := bind_eq_ok.1 h
      cases h
      exact ⟨_, .fixed hv (by simpa using hn) hw, rfl⟩
  · rename_i hv
    split at h
    · rename_i c hc
      unfold convert at h
      split at h
      · rename_i d hd
        cases h
        exact ⟨d, hc ▸ .file hv hd, rfl⟩
      · cases h
    · rename_i hc
      cases h
      exact ⟨_, hc ▸ .missing hv, rfl⟩

theorem conformField_of_gets {c : Column} (h : t.Gets b.rows f (b.column? f.name) c) :
    ∃ s : SizedSeries b.rows, t.conformField b f = .ok s ∧
      s.series = ⟨f.name, f.nullable, c, f.metadata⟩ := by
  generalize hc : b.column? f.name = o at h
  unfold conformField
  cases h with
  | null hv hn =>
    rw [hv]
    exact ⟨_, if_pos hn, rfl⟩
  | fixed hv hn hw =>
    rw [hv]
    exact ⟨_, (if_neg (by simp [hn])).trans (bind_eq_ok.2 ⟨_, hw, rfl⟩), rfl⟩
  | @file d _ hv hd =>
    rw [hv]
    dsimp only
    split
    · rename_i d' hd'
      cases hc.symm.trans hd'
      unfold convert
      split
      · rename_i e he
        cases hd.symm.trans he
        exact ⟨_, rfl, rfl⟩
      · rename_i e he
        cases hd.symm.trans he
    · rename_i hnone
      cases hc.symm.trans hnone
  | missing hv =>
    rw [hv]
    dsimp only
    split
    · rename_i d' hd'
      cases hc.symm.trans hd'
    · exact ⟨_, rfl, rfl⟩

theorem checkTypes_eq_ok {fields : Schema} {columns : List (SizedSeries rows)} :
    checkTypes fields columns = .ok () ↔
    ∀ p ∈ fields.zip columns, p.2.series.column.type = p.1.type := by
  unfold checkTypes
  constructor
  · intro h p hp
    split at h
    · cases h
    · rename_i hnone
      obtain ⟨k, hk⟩ := List.getElem?_of_mem hp
      simpa using List.find?_eq_none.1 hnone (p, k) (List.mem_zipIdx_iff_getElem?.2 hk)
  · intro h
    split
    · rename_i f s i hfind
      have hp :=
        List.mem_of_getElem? (List.mem_zipIdx_iff_getElem?.1 (List.mem_of_find?_eq_some hfind))
      exact absurd (h _ hp) (by simpa using List.find?_some hfind)
    · rfl

theorem conform_eq_ok : t.conform b = .ok u ↔ u.rows = b.rows ∧ List.Forall₂ (fun f s => ∃ c,
    t.Gets b.rows f (b.column? f.name) c ∧ c.type = f.type ∧
      s = ⟨f.name, f.nullable, c, f.metadata⟩) t.needed u.columns := by
  constructor
  · intro h
    obtain ⟨columns, hcolumns, h⟩ := bind_eq_ok.1 h
    obtain ⟨_, htypes, h⟩ := bind_eq_ok.1 h
    cases h
    have htypes := checkTypes_eq_ok.1 (mapError_eq_ok.1 htypes)
    refine ⟨rfl, List.forall₂_map_right_iff.2 ?_⟩
    refine List.forall₂_iff_zip.2 ⟨(mapM_eq_ok.1 hcolumns).length_eq, fun {f s} hz => ?_⟩
    obtain ⟨c, hc, hs⟩ := gets_of_conformField (List.forall₂_zip (mapM_eq_ok.1 hcolumns) hz)
    refine ⟨c, hc, ?_, hs⟩
    have htype := htypes _ hz
    rw [hs] at htype
    exact htype
  · rintro ⟨hrows, hcolumns⟩
    obtain ⟨columns, hall⟩ : ∃ columns : List (SizedSeries b.rows), List.Forall₂ (fun f s =>
        t.conformField b f = .ok s ∧ s.series.column.type = f.type) t.needed columns ∧
        columns.map (·.series) = u.columns := by
      generalize t.needed = fields, u.columns = us at hcolumns ⊢
      induction hcolumns with
      | nil => exact ⟨[], .nil, rfl⟩
      | cons hf _ ih =>
        obtain ⟨c, hc, htype, rfl⟩ := hf
        obtain ⟨s, hs, hseries⟩ := conformField_of_gets hc
        obtain ⟨columns, hcolumns, rfl⟩ := ih
        exact ⟨s :: columns, .cons ⟨hs, by rw [hseries]; exact htype⟩ hcolumns, by
          rw [List.map_cons, hseries]⟩
    have hchecked : checkTypes t.needed columns = .ok () :=
      checkTypes_eq_ok.2 fun p hp => (List.forall₂_zip hall.1 hp).2
    have hmap := mapM_eq_ok.2 (hall.1.imp fun _ _ h => h.1)
    refine bind_eq_ok.2 ⟨columns, hmap, bind_eq_ok.2 ⟨(), mapError_eq_ok.2 hchecked, ?_⟩⟩
    exact congrArg Except.ok (Batch.ext hrows.symm hall.2)

theorem rows_conform (h : t.conform b = .ok u) : u.rows = b.rows := (conform_eq_ok.1 h).1

theorem column?_conform (h : t.conform b = .ok u) {n : String} (hf : t.needed.field? n = some f) :
    ∃ c, u.column? n = some c ∧ c.type = f.type ∧ t.Gets b.rows f (b.column? n) c := by
  have hcolumns := (conform_eq_ok.1 h).2
  rw [Batch.column?]
  rw [Schema.field?] at hf
  generalize t.needed = fields, u.columns = columns at hcolumns hf ⊢
  induction hcolumns with
  | nil => cases hf
  | @cons g _ _ _ hg _ ih =>
    obtain ⟨c, hc, htype, rfl⟩ := hg
    rw [List.find?_cons] at hf ⊢
    dsimp only
    by_cases hn : g.name = n
    · rw [decide_eq_true hn] at hf ⊢
      cases hf
      exact ⟨c, rfl, htype, hn ▸ hc⟩
    · rw [decide_eq_false hn] at hf ⊢
      exact ih hf

theorem conform_none (h : t.conform b = .ok u) {n : String} (hn : t.needed.field? n = none) :
    u.column? n = none := by
  have hcolumns := (conform_eq_ok.1 h).2
  rw [Schema.field?, List.find?_eq_none] at hn
  rw [Batch.column?, Option.map_eq_none_iff, List.find?_eq_none]
  intro s hs
  obtain ⟨f, hf, c, -, -, rfl⟩ := forall₂_mem hcolumns hs
  exact hn f hf

theorem conform_of_gets
    (h : ∀ f ∈ t.needed, ∃ c, t.Gets b.rows f (b.column? f.name) c ∧ c.type = f.type) :
    ∃ u, t.conform b = .ok u := by
  have sized (f : Field) (hf : f ∈ t.needed) : ∃ s : SizedSeries b.rows, ∃ c,
      t.Gets b.rows f (b.column? f.name) c ∧ c.type = f.type ∧
      s.series = ⟨f.name, f.nullable, c, f.metadata⟩ := by
    obtain ⟨c, hc, htype⟩ := h f hf
    obtain ⟨s, -, hs⟩ := conformField_of_gets hc
    exact ⟨s, c, hc, htype, hs⟩
  obtain ⟨columns, hcolumns⟩ := exists_forall₂ sized
  exact ⟨.ofSized columns, conform_eq_ok.2 ⟨rfl, List.forall₂_map_right_iff.2 hcolumns⟩⟩

theorem Gets.cell {c : Column} (h : t.Gets b.rows f (b.column? f.name) c) (hi : i < b.rows) :
    ∃ x, c.cell? i = some x ∧ t.fragment.cell f (b.tuple i f.name) = some x := by
  have constant (t : DataType) (a : Option t.Carrier) :
      Column.cell? ⟨t, List.replicate b.rows a⟩ i = some (.of t a) :=
    congrArg (Option.map (Cell.of t)) (List.getElem?_replicate_of_lt hi)
  rw [Batch.tuple]
  generalize hc : b.column? f.name = o at h
  cases h with
  | null hv hn => exact ⟨_, constant f.type none, Fragment.cell_null hv hn⟩
  | @fixed _ w _ hv hn hw => exact ⟨_, constant w.dataType w.value, Fragment.cell_fixed hv hn hw⟩
  | @file d _ hv hd =>
    obtain ⟨x, hx⟩ := d.cell?_isSome (i := i) (by rw [b.length_of_column? hc]; exact hi)
    obtain ⟨y, hy, hxy⟩ := Column.cell?_cast hd hx
    exact ⟨y, hy, by rw [Option.bind_some, hx, Fragment.cell_file hv, hxy]⟩
  | missing hv => exact ⟨_, constant f.type none, Fragment.cell_missing hv⟩

theorem conform_field (h : t.conform b = .ok u) {n : String} (hf : t.needed.field? n = some f) :
    ∃ c, u.column? n = some c ∧ c.type = f.type ∧
      ∀ i < b.rows, ∃ x, c.cell? i = some x ∧ t.fragment.cell f (b.tuple i n) = some x := by
  obtain ⟨c, hc, htype, hgets⟩ := column?_conform h hf
  obtain rfl : f.name = n := Schema.name_of_field? hf
  exact ⟨c, hc, htype, fun i hi => hgets.cell hi⟩

theorem tuple_conform (h : t.conform b = .ok u) (hi : i < b.rows) :
    u.tuple i = t.conformed (b.tuple i) := by
  funext n
  unfold conformed
  cases hn : t.needed.field? n with
  | none => rw [Batch.tuple, conform_none h hn]; rfl
  | some f =>
    obtain ⟨c, hc, -, hx⟩ := conform_field h hn
    obtain ⟨x, hx, hcell⟩ := hx i hi
    rw [Batch.tuple, hc, Option.bind_some, hx, Option.bind_some, hcell]

theorem tuples_conform (h : t.conform b = .ok u) : u.tuples = b.tuples.map t.conformed := by
  rw [Batch.tuples, Batch.tuples, rows_conform h, List.map_map]
  exact List.map_congr_left fun i hi => tuple_conform h (List.mem_range.1 hi)

theorem find?_filter_name {s : Schema} {q : Field → Bool} {n : String}
    (hq : ∀ f, f.name = n → q f = true) :
    Schema.field? (s.filter q) n = s.field? n := by
  rw [Schema.field?, List.find?_filter, Schema.field?]
  congr 1
  funext f
  by_cases hf : f.name = n <;> simp [hf, hq]

theorem needed_field? {n : String} (hn : n ∈ t.filter.fields ∨ n ∈ t.context.projected.names) :
    t.needed.field? n = (t.context.dataset.field? n).map fun f => { f with nullable := true } := by
  rw [needed, Schema.field?, List.find?_map]
  exact congrArg (Option.map _) (find?_filter_name fun f hf => by simpa [hf] using hn)

theorem field?_of_needed {n : String} (hf : t.needed.field? n = some f) :
    ∃ f', t.context.dataset.field? n = some f' ∧ f'.type = f.type := by
  rw [needed, Schema.field?, List.find?_map] at hf
  obtain ⟨f', hf', rfl⟩ := Option.map_eq_some_iff.1 hf
  refine ⟨f', ?_, rfl⟩
  have hmem := List.mem_filter.1 (List.mem_of_find?_eq_some hf')
  have hname : f'.name = n := Schema.name_of_field? hf'
  refine (find?_filter_name fun g hg => ?_).symm.trans hf'
  rw [hg, ← hname]
  exact hmem.2

end ScanTask

theorem Batch.field?_column {b : Batch} {n : String} {f : Field} (h : b.schema.field? n = some f) :
    ∃ c, b.column? n = some c ∧ f.type = c.type := by
  rw [schema, Schema.field?, List.find?_map] at h
  obtain ⟨s, hs, rfl⟩ := Option.map_eq_some_iff.1 h
  exact ⟨s.column, by rw [column?]; exact congrArg (Option.map Series.column) hs, rfl⟩

def Schema.NoMoreEncoded (s s' : Schema) : Prop :=
  ∀ n f, s.field? n = some f → f.type.isDictionary = true →
    ∃ f', s'.field? n = some f' ∧ f'.type.isDictionary = true

namespace Expr

theorem isEncoded_mono {s s' : Schema} (h : s.NoMoreEncoded s') {e : Expr}
    (he : e.isEncoded s = true) :
    e.isEncoded s' = true := by
  induction e with
  | field n =>
    obtain ⟨f, hf, hd⟩ := (Option.any_eq_true _ _).1 he
    obtain ⟨f', hf', hd'⟩ := h n f hf hd
    exact (Option.any_eq_true _ _).2 ⟨f', hf', hd'⟩
  | and a b iha ihb | or a b iha ihb =>
    rw [isEncoded, Bool.or_eq_true] at he ⊢
    exact he.imp iha ihb
  | cast e t => exact he
  | _ => cases he

theorem recodes_mono {s s' : Schema} (h : s.NoMoreEncoded s') {e : Expr}
    (he : e.recodes s' = false) :
    e.recodes s = false := by
  induction e with
  | field n => rfl
  | lit v => rfl
  | compare op a b iha ihb | and a b iha ihb | or a b iha ihb =>
    simp only [recodes, Bool.or_eq_false_iff] at he ⊢
    exact ⟨iha he.1, ihb he.2⟩
  | not e ih | isValid e ih | member e set ih => exact ih he
  | cast e t ih =>
    simp only [recodes, Bool.or_eq_false_iff, Bool.and_eq_false_iff] at he ⊢
    refine ⟨ih he.1, he.2.imp_left fun hd => ?_⟩
    exact Bool.eq_false_iff.2 fun hd' => Bool.eq_false_iff.1 hd (isEncoded_mono h hd')

end Expr

namespace ScanTask

variable {t : ScanTask} {b u : Batch}

theorem encoded_conform (h : t.conform b = .ok u) : u.schema.NoMoreEncoded t.context.dataset := by
  intro n f hf hd
  obtain ⟨c, hc, htype⟩ := Batch.field?_column hf
  cases hn : t.needed.field? n with
  | none => cases hc.symm.trans (conform_none h hn)
  | some f' =>
    obtain ⟨c', hc', ht, -⟩ := conform_field h hn
    cases hc.symm.trans hc'
    obtain ⟨g, hg, hgt⟩ := field?_of_needed hn
    exact ⟨g, hg, by rw [hgt, ← ht, ← htype]; exact hd⟩

theorem eq_of_checked (h : b.checked = .ok u) : u = b := by
  unfold Batch.checked at h
  split at h
  · cases h
  · cases h
    rfl

theorem tuples_process (h : t.process b = .ok u) (hq : t.filter.isQuiet)
    (hr : t.filter.recodes t.context.dataset = false) :
    u.tuples = ((b.tuples.map t.conformed).filter (·.satisfies t.filter)).map
      (·.project t.context.projected) := by
  obtain ⟨w, hw, h⟩ := bind_eq_ok.1 h
  obtain ⟨v, hv, h⟩ := bind_eq_ok.1 h
  rw [eq_of_checked (mapError_eq_ok.1 h), Batch.tuples_project,
    Batch.tuples_satisfying hv hq (fun _ => Expr.recodes_mono (encoded_conform hw) hr),
    tuples_conform hw]

theorem untilFailure_eq_ok {items : Batches} {bs : List Batch}
    (h : untilFailure items = bs.map .ok) :
    ∃ all : List Batch, items = all.map .ok ∧ bs = all.filter (·.rows ≠ 0) := by
  induction items generalizing bs with
  | nil =>
    cases bs with
    | nil => exact ⟨[], rfl, rfl⟩
    | cons b bs => cases h
  | cons item items ih =>
    cases item with
    | error e => cases bs <;> cases h
    | ok b =>
      simp only [untilFailure] at h
      split at h
      · rename_i hb
        obtain ⟨all, rfl, rfl⟩ := ih h
        exact ⟨b :: all, rfl, by simp [hb]⟩
      · rename_i hb
        cases bs with
        | nil => cases h
        | cons b' bs =>
          obtain ⟨hb', hrest⟩ := List.cons.inj h
          cases hb'
          obtain ⟨all, rfl, rfl⟩ := ih hrest
          exact ⟨b :: all, rfl, by simp [hb]⟩

theorem mem_untilFailure {items : Batches} {item : Except Failure Batch}
    (h : item ∈ untilFailure items) :
    item ∈ items ∧ ∀ b, item = .ok b → b.rows ≠ 0 := by
  induction items with
  | nil => cases h
  | cons first items ih =>
    cases first with
    | error e =>
      rw [List.mem_singleton.1 h]
      exact ⟨List.mem_cons_self, nofun⟩
    | ok b =>
      rw [untilFailure] at h
      split at h
      · exact (ih h).imp_left (List.mem_cons_of_mem _)
      · rename_i hb
        rcases List.mem_cons.1 h with rfl | h
        · refine ⟨List.mem_cons_self, ?_⟩
          rintro _ ⟨⟩
          exact hb
        · exact (ih h).imp_left (List.mem_cons_of_mem _)

theorem map_bind_eq_ok {α β ε : Type} {f : α → Except ε β} {items : List (Except ε α)} {bs : List β}
    (h : items.map (· >>= f) = bs.map .ok) :
    ∃ as, items = as.map .ok ∧ List.Forall₂ (fun a b => f a = .ok b) as bs := by
  induction items generalizing bs with
  | nil =>
    cases bs with
    | nil => exact ⟨[], rfl, .nil⟩
    | cons b bs => cases h
  | cons item items ih =>
    cases bs with
    | nil => cases h
    | cons b bs =>
      obtain ⟨hb, hrest⟩ := List.cons.inj h
      obtain ⟨a, rfl, hb⟩ := bind_eq_ok.1 hb
      obtain ⟨as, has, hbs⟩ := ih hrest
      exact ⟨a :: as, by rw [has, List.map_cons], .cons hb hbs⟩

variable {files : FileAccess} {bs : List Batch}

theorem items_eq_ok (h : t.items files = bs.map .ok) : ∃ file read all,
    (t.fragment.origin.openFile files).result = .ok file ∧
      t.fragment.format.read file t.request = .ok (read.map .ok) ∧
      List.Forall₂ (fun b u => t.process b = .ok u) read all ∧ bs = all.filter (·.rows ≠ 0) := by
  unfold items itemsOf at h
  split at h
  · rename_i batches hb
    obtain ⟨file, hfile, hread⟩ := bind_eq_ok.1 hb
    obtain ⟨all, hall, rfl⟩ := untilFailure_eq_ok h
    obtain ⟨read, rfl, hprocess⟩ := map_bind_eq_ok hall
    exact ⟨file, read, all, hfile, hread, hprocess, rfl⟩
  · cases bs <;> cases h

theorem seen_of_needed {n : String} (hn : n ∈ t.filter.fields ∨ n ∈ t.context.projected.names)
    (p : Tuple) :
    t.conformed (p.restrict t.columns) n = t.fragment.seen t.context.dataset p n := by
  simp only [conformed, Fragment.seen, needed_field? hn]
  cases hf : t.context.dataset.field? n with
  | none => rfl
  | some f =>
    have hname : f.name = n := Schema.name_of_field? hf
    have hmem : n ∈ t.needed.names := by
      obtain ⟨g, hg⟩ : ∃ g, t.needed.field? n = some g := ⟨_, by rw [needed_field? hn, hf]; rfl⟩
      exact Schema.mem_names_of_field? hg
    have hcolumns : n ∈ t.columns ↔ (t.fragment.physical.field? n).isSome ∧ t.fixed? n = none := by
      simp [columns, hmem]
    simp only [Option.map_some, Option.bind_some, Tuple.restrict, hcolumns]
    cases hfix : t.fixed? n with
    | some v =>
      subst hname
      simp only [Fragment.cell, show t.fragment.partition.boundTo? f.name = some v from hfix]
    | none =>
      cases t.fragment.physical.field? n with
      | none => rfl
      | some g => rfl

/--
A task that succeeds yields the tuples of its file, as the dataset has them, that satisfy its
filter. Every field that is needed has a cell of its type in each of them.
-/
theorem tuples_items (h : t.items files = bs.map .ok) (hq : t.filter.isQuiet)
    (hr : t.filter.recodes t.context.dataset = false)
    (hf : ∀ file, (t.fragment.origin.openFile files).result = .ok file → file.image.IsUniform) :
    ∃ file, (t.fragment.origin.openFile files).result = .ok file ∧
      (∀ p ∈ t.fragment.format.stored t.filter file.image, ∀ n f,
        t.context.dataset.field? n = some f →
        n ∈ t.filter.fields ∨ n ∈ t.context.projected.names →
          ∃ c, t.fragment.seen t.context.dataset p n = some c ∧ c.1 = f.type) ∧
      bs.flatMap Batch.tuples = (((t.fragment.format.stored t.filter file.image).map
        (t.fragment.seen t.context.dataset)).filter (·.satisfies t.filter)).map
          (·.project t.context.projected) := by
  obtain ⟨file, read, all, hfile, hread, hprocess, rfl⟩ := items_eq_ok h
  have hstored := Format.tuples_read hread rfl (hf file hfile)
  refine ⟨file, hfile, fun p hp n f hn hneeded => ?_, ?_⟩
  · have hmem : p.restrict t.columns ∈ read.flatMap Batch.tuples := by
      rw [hstored]
      exact List.mem_map.2 ⟨p, hp, rfl⟩
    obtain ⟨b, hb, hmem⟩ := List.mem_flatMap.1 hmem
    obtain ⟨i, hi, heq⟩ := List.mem_map.1 hmem
    obtain ⟨u, -, hu⟩ := forall₂_mem hprocess.flip hb
    obtain ⟨w, hw, -⟩ := bind_eq_ok.1 hu
    obtain ⟨c, -, ht, hcells⟩ :=
      conform_field hw (by rw [needed_field? hneeded, hn, Option.map_some])
    obtain ⟨x, hc, hx⟩ := hcells i (List.mem_range.1 hi)
    refine ⟨x, ?_, ?_⟩
    · rw [← seen_of_needed hneeded, ← heq, conformed, needed_field? hneeded, hn]
      exact hx
    · obtain ⟨_, -, rfl⟩ := Option.map_eq_some_iff.1 hc
      exact ht
  · have run {read all : List Batch} (hp : List.Forall₂ (fun b u => t.process b = .ok u) read all) :
        all.flatMap Batch.tuples = ((((read.flatMap Batch.tuples).map t.conformed)).filter
          (·.satisfies t.filter)).map (·.project t.context.projected) := by
      induction hp with
      | nil => rfl
      | cons hb _ ih =>
        rw [List.flatMap_cons, List.flatMap_cons, ih, tuples_process hb hq hr, List.map_append,
          List.filter_append, List.map_append]
    rw [Batch.rowWise_tuples.flatMap_filter, run hprocess, hstored, List.map_map, List.filter_map,
      List.filter_map, List.map_map, List.map_map]
    have hsat (p : Tuple) : (t.conformed (p.restrict t.columns)).satisfies t.filter =
        (t.fragment.seen t.context.dataset p).satisfies t.filter :=
      Tuple.satisfies_congr fun n hn => seen_of_needed (.inl hn) p
    have hproj (p : Tuple) : (t.conformed (p.restrict t.columns)).project t.context.projected =
        (t.fragment.seen t.context.dataset p).project t.context.projected :=
      Tuple.project_congr fun n hn => seen_of_needed (.inr hn) p
    simp only [Function.comp_def, hsat, hproj]
    rfl

end ScanTask

end TableScan
