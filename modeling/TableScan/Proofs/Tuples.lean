import TableScan.Scan.Task
import TableScan.Proofs.Rows

namespace TableScan

open Value (ofCell)

abbrev Cell : Type := Σ t : DataType, Option t.Carrier

namespace Cell

def of (t : DataType) (x : Option t.Carrier) : Cell := ⟨t, x⟩

def null (t : DataType) : Cell := of t none

def ofScalar (s : Scalar) : Cell := of s.dataType s.value

def value (c : Cell) : Value := ofCell c.1 c.2

@[simp] theorem value_null (t : DataType) : (null t).value = .null := rfl

@[simp] theorem value_ofScalar (s : Scalar) : (ofScalar s).value = Value.ofScalar s := rfl

end Cell

abbrev Tuple : Type := String → Option Cell

namespace Tuple

def row (p : Tuple) : Row := fun n => (p n).map Cell.value

theorem row_isPlain {p : Tuple} {n : String} {x : Value} (h : p.row n = some x) : x.isPlain := by
  obtain ⟨c, -, rfl⟩ := Option.map_eq_some_iff.1 h
  exact Value.isPlain_ofCell _ _

def restrict (names : List String) (p : Tuple) : Tuple := fun n => if n ∈ names then p n else none

def project (s : Schema) (p : Tuple) : Tuple := fun n =>
  (s.field? n).map fun f => (p n).getD (.null f.type)

def HasTypes (p : Tuple) (s : Schema) (names : List String) : Prop :=
  ∀ n ∈ names, ∀ f, s.field? n = some f → ∀ c, p n = some c → c.1 = f.type

def satisfies (e : Expr) (p : Tuple) : Bool := e.truth? p.row = some (some true)

variable {p q : Tuple}

theorem satisfies_congr {e : Expr} (h : ∀ n ∈ e.fields, p n = q n) :
    p.satisfies e = q.satisfies e := by
  have hv : e.value? p.row = e.value? q.row :=
    Expr.value?_congr fun n hn => congrArg (Option.map Cell.value) (h n hn)
  rw [satisfies, satisfies, Expr.truth?, Expr.truth?, hv]

theorem project_congr {s : Schema} (h : ∀ n ∈ s.names, p n = q n) : p.project s = q.project s := by
  funext n
  simp only [project]
  cases hf : s.field? n with
  | none => rfl
  | some f =>
    rw [h n (Schema.mem_names_of_field? hf)]

end Tuple

namespace Column

def cell? (c : Column) (i : Nat) : Option Cell := c.cells[i]?.map (Cell.of c.type)

theorem cell?_isSome {c : Column} {i : Nat} (h : i < c.length) : ∃ x, c.cell? i = some x :=
  ⟨.of c.type (c.cells.get ⟨i, h⟩),
    congrArg (Option.map (Cell.of c.type)) (List.getElem?_eq_getElem h)⟩

theorem value?_cell? (c : Column) (i : Nat) : c.value? i = (c.cell? i).map Cell.value := by
  rw [value?, cell?, Option.map_map]
  rfl

theorem cell?_slice (c : Column) {start count i : Nat} (h : i < count) :
    (c.slice start count).cell? i = c.cell? (start + i) := by
  exact congrArg (Option.map (Cell.of c.type))
    ((List.getElem?_take_of_lt h).trans List.getElem?_drop)

theorem keep_map {α β : Type} (f : α → β) (mask : List Bool) (as : List α) :
    keep mask (as.map f) = (keep mask as).map f := by
  induction mask generalizing as with
  | nil => cases as <;> rfl
  | cons b mask ih =>
    cases as with
    | nil => cases b <;> rfl
    | cons a as => cases b <;> simp [keep, ih]

theorem getElem?_keep {α : Type} (mask : List Bool) (as : List α) (j : Nat) :
    (keep mask as)[j]? = (keep mask (List.range as.length))[j]?.bind (as[·]?) := by
  have hall : as.map some = (List.range as.length).map (as[·]?) := by
    apply List.ext_getElem? fun i => ?_
    by_cases hi : i < as.length <;> simp [hi]
  have hkeep := congrArg (·[j]?) (congrArg (keep mask) hall)
  simp only [keep_map, List.getElem?_map] at hkeep
  generalize (keep mask as)[j]? = a at hkeep ⊢
  generalize (keep mask (List.range as.length))[j]? = k at hkeep ⊢
  cases a <;> cases k <;> simp_all

end Column

namespace Batch

def tuple (b : Batch) (i : Nat) : Tuple := fun n => (b.column? n).bind (·.cell? i)

def tuples (b : Batch) : List Tuple := (List.range b.rows).map b.tuple

variable {b : Batch} {i : Nat}

theorem row_tuple (b : Batch) (i : Nat) : (b.tuple i).row = b.row i := by
  funext n
  simp only [Tuple.row, tuple, row]
  cases b.column? n with
  | none => rfl
  | some c => exact (c.value?_cell? i).symm

theorem length_tuples (b : Batch) : b.tuples.length = b.rows := by simp [tuples]

theorem getElem?_tuples (hi : i < b.rows) : b.tuples[i]? = some (b.tuple i) := by
  simp [tuples, hi]

theorem tuple_eq_none {n : String} (hi : i < b.rows) : b.tuple i n = none ↔ b.column? n = none := by
  simp only [tuple]
  cases hc : b.column? n with
  | none => simp
  | some c =>
    obtain ⟨x, hx⟩ := c.cell?_isSome (i := i) (by rw [b.length_of_column? hc]; exact hi)
    simp [hx]

theorem tuples_congr {b u : Batch} {is : List Nat} (hr : u.rows = is.length)
    (h : ∀ j i, is[j]? = some i → u.tuple j = b.tuple i) : u.tuples = is.map b.tuple := by
  apply List.ext_getElem? fun j => ?_
  by_cases hj : j < is.length
  · rw [getElem?_tuples (hr ▸ hj), List.getElem?_map, List.getElem?_eq_getElem hj, Option.map_some,
      h j _ (List.getElem?_eq_getElem hj)]
  · rw [List.getElem?_eq_none (by rw [length_tuples, hr]; omega),
      List.getElem?_eq_none (by simpa using hj)]

theorem column?_map {b u : Batch} {f : Series → Series} (hc : u.columns = b.columns.map f)
    (hf : ∀ s, (f s).name = s.name) (n : String) :
    u.column? n = (b.columns.find? (·.name = n)).map fun s => (f s).column := by
  rw [column?, hc, List.find?_map, Option.map_map]
  congr 2
  funext s
  simp [hf]

theorem column?_restrict (b : Batch) (names : List String) (n : String) :
    (b.restrict names).column? n = if n ∈ names then b.column? n else none := by
  simp only [column?, restrict, List.find?_filter]
  split
  · rename_i hn
    congr 2
    funext s
    by_cases hs : s.name = n <;> simp [hs, hn]
  · rename_i hn
    rw [Option.map_eq_none_iff, List.find?_eq_none]
    intro s _ hs
    simp only [List.contains_iff_mem, decide_eq_true_eq] at hs
    exact hn (hs.2 ▸ hs.1)

theorem tuples_restrict (b : Batch) (names : List String) :
    (b.restrict names).tuples = b.tuples.map (·.restrict names) := by
  simp only [tuples, List.map_map]
  apply List.map_congr_left
  intro i _
  funext n
  simp only [tuple, column?_restrict, Function.comp_apply, Tuple.restrict]
  split <;> rfl

theorem column?_ofSized {rows : Nat} {s : Schema} {f : Field → SizedSeries rows}
    (hf : ∀ x, (f x).series.name = x.name) (n : String) :
    (ofSized (s.map f)).column? n = (s.field? n).map fun x => (f x).series.column := by
  simp only [column?, ofSized, Schema.field?, List.map_map, List.find?_map, Option.map_map]
  congr 2
  funext x
  simp [hf]

theorem name_underField (b : Batch) (f : Field) : (b.underField f).series.name = f.name := by
  unfold underField
  split <;> rfl

theorem cell?_underField (f : Field) (hi : i < b.rows) :
    (b.underField f).series.column.cell? i = some ((b.tuple i f.name).getD (.null f.type)) := by
  unfold underField
  split
  · rename_i c hc
    obtain ⟨x, hx⟩ := c.cell?_isSome (i := i) (by rw [b.length_of_column? hc]; exact hi)
    simp [SizedSeries.ofColumn, tuple, hc, hx]
  · rename_i hc
    rw [(tuple_eq_none hi).2 hc]
    exact congrArg (Option.map (Cell.of f.type)) (List.getElem?_replicate_of_lt hi)

theorem tuples_project (b : Batch) (s : Schema) :
    (b.project s).tuples = b.tuples.map (·.project s) := by
  simp only [tuples, List.map_map]
  apply List.map_congr_left
  intro i hi
  funext n
  simp only [tuple, project, column?_ofSized b.name_underField, Function.comp_apply, Tuple.project]
  cases hf : s.field? n with
  | none => rfl
  | some f =>
    have hn : f.name = n := Schema.name_of_field? hf
    rw [Option.map_some, Option.bind_some, cell?_underField (b := b) f (List.mem_range.1 hi), hn]
    rfl

theorem tuples_slice (b : Batch) (start count : Nat) :
    (b.slice start count).tuples = (b.tuples.drop start).take count := by
  have cut (i : Nat) (hi : i < count) : (b.slice start count).tuple i = b.tuple (start + i) := by
    funext n
    simp only [tuple]
    rw [column?_map (b := b) (f := fun s => { s with column := s.column.slice start count }) rfl
      (fun _ => rfl), column?]
    cases b.columns.find? (·.name = n) with
    | none => rfl
    | some s => exact s.column.cell?_slice hi
  apply List.ext_getElem? fun j => ?_
  by_cases hj : j < count
  · by_cases hr : start + j < b.rows
    · rw [getElem?_tuples (by simp only [slice]; omega), List.getElem?_take_of_lt hj,
        List.getElem?_drop, getElem?_tuples hr, cut j hj]
    · rw [List.getElem?_eq_none (by rw [length_tuples]; simp only [slice]; omega),
        List.getElem?_eq_none (by simp [length_tuples]; omega)]
  · rw [List.getElem?_eq_none (by rw [length_tuples]; simp only [slice]; omega),
      List.getElem?_eq_none (by simp [length_tuples]; omega)]

structure RowWise {α : Type} (f : Batch → List α) : Prop where
  length : ∀ b, (f b).length = b.rows
  slice : ∀ b i n, f (b.slice i n) = ((f b).drop i).take n

theorem rowWise_tuples : RowWise tuples := ⟨length_tuples, tuples_slice⟩

namespace RowWise

variable {α : Type} {f : Batch → List α}

theorem of_rows (h : RowWise f) (hb : b.rows = 0) : f b = [] :=
  List.eq_nil_of_length_eq_zero ((h.length b).trans hb)

theorem flatMap_piecesFrom (h : RowWise f) (b : Batch) {size : Nat} (hs : 0 < size)
    {fuel start : Nat} (hf : b.rows ≤ start + fuel) :
    (b.piecesFrom size fuel start).flatMap f = (f b).drop start := by
  induction fuel generalizing start with
  | zero => exact (List.drop_eq_nil_of_le (by rw [h.length]; omega)).symm
  | succ fuel ih =>
    simp only [piecesFrom]
    split
    · rw [List.flatMap_cons, h.slice, ih (by omega), ← List.drop_drop, List.take_append_drop]
    · exact (List.drop_eq_nil_of_le (by rw [h.length]; omega)).symm

theorem flatMap_pieces (h : RowWise f) (b : Batch) {size : Nat} (hs : 0 < size) :
    (b.pieces size).flatMap f = f b := by
  unfold pieces
  split
  · simp
  · exact h.flatMap_piecesFrom b hs (by omega)

theorem flatMap_chunks (h : RowWise f) (b : Batch) (size : Nat) :
    (b.chunks (some size)).flatMap f = f b := by
  unfold chunks
  split
  · rename_i hb
    exact (h.of_rows hb).symm
  · exact h.flatMap_pieces b (by omega)

theorem flatMap_filter (h : RowWise f) (bs : List Batch) :
    (bs.filter (·.rows ≠ 0)).flatMap f = bs.flatMap f := by
  induction bs with
  | nil => rfl
  | cons b bs ih =>
    rw [List.filter_cons, List.flatMap_cons]
    split
    · rw [List.flatMap_cons, ih]
    · rename_i hb
      rw [ih, h.of_rows (by simpa using hb), List.nil_append]

end RowWise

theorem length_keep_range (mask : List Bool) (b : Batch) :
    (b.filter mask).rows = (Column.keep mask (List.range b.rows)).length :=
  Column.length_keep_congr mask (by simp)

theorem tuples_filter (b : Batch) (mask : List Bool) :
    (b.filter mask).tuples = Column.keep mask b.tuples := by
  have kept {j i : Nat} (hj : (Column.keep mask (List.range b.rows))[j]? = some i) :
      (b.filter mask).tuple j = b.tuple i := by
    funext n
    simp only [tuple]
    rw [column?_map (b := b) (f := fun s => { s with column := s.column.filter mask }) rfl
      (fun _ => rfl), column?]
    cases hs : b.columns.find? (·.name = n) with
    | none => rfl
    | some s =>
      have hl := b.sized s (List.mem_of_find?_eq_some hs)
      refine congrArg (Option.map (Cell.of s.column.type)) ?_
      refine (Column.getElem?_keep mask s.column.cells j).trans ?_
      rw [show s.column.cells.length = b.rows from hl, hj]
      rfl
  rw [tuples_congr (length_keep_range mask b) fun j i => kept, tuples, Column.keep_map]

theorem keep_eq_filter {α : Type} {mask : List Bool} {as : List α} {f : α → Bool}
    (h : ∀ (i : Nat) (a : α), as[i]? = some a → mask[i]? = some (f a)) :
    Column.keep mask as = as.filter f := by
  induction as generalizing mask with
  | nil => cases mask with
    | nil => rfl
    | cons m mask => cases m <;> rfl
  | cons a as ih =>
    cases mask with
    | nil => simpa using h 0 a rfl
    | cons m mask =>
      have hm : m = f a := by simpa using h 0 a rfl
      have hr := ih fun i a' ha' => by simpa using h (i + 1) a' ha'
      cases hf : f a <;> simp [Column.keep, hm, hf, hr]

theorem satisfies_true (p : Tuple) : p.satisfies .true_ = true := by
  simp [Tuple.satisfies]

theorem truth?_of_satisfying {b u : Batch} {e : Expr} (h : b.satisfying e = .ok u) (hq : e.isQuiet)
    (hr : 0 < b.rows → e.recodes b.schema = false) :
    ∀ p ∈ b.tuples, ∃ t, e.truth? p.row = some t := by
  intro p hp
  obtain ⟨i, hi, rfl⟩ := List.mem_map.1 hp
  replace hi := List.mem_range.1 hi
  unfold satisfying at h
  split at h
  · rename_i ht
    rw [Expr.eq_true_of_isTrue ht]
    exact ⟨some true, rfl⟩
  · obtain ⟨m, hm, -⟩ := bind_eq_ok.1 h
    obtain ⟨t, -, htruth⟩ := Expr.mask_truth hm hq (hr (by omega)) hi
    exact ⟨t, by rw [row_tuple, htruth]⟩

theorem tuples_satisfying {b u : Batch} {e : Expr} (h : b.satisfying e = .ok u) (hq : e.isQuiet)
    (hr : 0 < b.rows → e.recodes b.schema = false) :
    u.tuples = b.tuples.filter (·.satisfies e) := by
  unfold satisfying at h
  split at h
  · rename_i ht
    cases h
    rw [Expr.eq_true_of_isTrue ht, List.filter_eq_self.2 fun p _ => satisfies_true p]
  · obtain ⟨m, hm, h⟩ := bind_eq_ok.1 h
    cases h
    rw [tuples_filter]
    apply keep_eq_filter
    intro i p hp
    have hi : i < b.rows := by
      by_contra hi
      rw [List.getElem?_eq_none (by rw [length_tuples]; omega)] at hp
      cases hp
    rw [getElem?_tuples hi] at hp
    cases hp
    obtain ⟨t, ht, htruth⟩ := Expr.mask_truth hm hq (hr (by omega)) hi
    rw [List.getElem?_map, ht, Tuple.satisfies, row_tuple, htruth]
    rcases t with _ | (_ | _) <;> rfl

theorem cell?_append (t : DataType) (xs ys : List (Option t.Carrier)) (i : Nat) :
    Column.cell? ⟨t, xs ++ ys⟩ i =
      if i < xs.length then Column.cell? ⟨t, xs⟩ i else Column.cell? ⟨t, ys⟩ (i - xs.length) := by
  simp only [Column.cell?]
  split
  · rename_i h
    rw [List.getElem?_append_left h]
  · rename_i h
    rw [List.getElem?_append_right (by omega)]

theorem column?_index (b : Batch) (n : String) :
    b.column? n = (b.schema.findIdx? (·.name = n)).bind fun k => b.columns[k]?.map (·.column) := by
  rw [column?, List.find?_eq_bind_findIdx?_getElem?, schema, List.findIdx?_map, Option.map_bind]
  rfl

theorem schema_concat (s : Schema) (bs : List Batch) : (concat s bs).schema = s := by
  simp only [schema, concat, List.map_map]
  exact (List.map_congr_left fun x _ => rfl).trans (List.zipIdx_map_fst 0 s)

theorem cell?_joinColumn {b : Batch} {s : Series} {k : Nat} (hs : b.columns[k]? = some s)
    (bs : List Batch) (i : Nat) : (joinColumn s.column.type k (b :: bs)).cell? i =
      if i < b.rows then s.column.cell? i
        else (joinColumn s.column.type k bs).cell? (i - b.rows) := by
  have hl : s.column.cells.length = b.rows := b.sized s (List.mem_of_getElem? hs)
  simp only [joinColumn, List.flatMap_cons, hs, ↓reduceDIte, cell?_append, hl]

theorem getElem?_columns_concat {b : Batch} (bs : List Batch) (k : Nat) :
    (concat b.schema bs).columns[k]? =
    b.columns[k]?.map fun s => ⟨s.name, s.nullable, joinColumn s.column.type k bs, s.metadata⟩ := by
  have hf : b.schema[k]? = b.columns[k]?.map (·.field) := List.getElem?_map
  cases hs : b.columns[k]? <;> simp [concat, hf, hs, Series.field]

theorem tuple_concat {b : Batch} {bs : List Batch} (i : Nat) (n : String) :
    (concat b.schema (b :: bs)).tuple i n =
      if i < b.rows then b.tuple i n else (concat b.schema bs).tuple (i - b.rows) n := by
  simp only [tuple, column?_index, schema_concat]
  cases hk : b.schema.findIdx? (·.name = n) with
  | none => simp
  | some k =>
    have hlt : k < b.columns.length := by
      simpa [schema] using (List.findIdx?_eq_some_iff_findIdx_eq.1 hk).1
    obtain ⟨s, hs⟩ : ∃ s, b.columns[k]? = some s := ⟨_, List.getElem?_eq_getElem hlt⟩
    simp only [Option.bind_some, getElem?_columns_concat, hs, Option.map_some, cell?_joinColumn hs]

theorem tuples_concat {s : Schema} {bs : List Batch} (h : ∀ b ∈ bs, b.schema = s) :
    (concat s bs).tuples = bs.flatMap tuples := by
  induction bs with
  | nil => rfl
  | cons b bs ih =>
    obtain rfl := h b List.mem_cons_self
    have hr : (concat b.schema (b :: bs)).rows = b.rows + (concat b.schema bs).rows := by
      simp [concat]
    rw [List.flatMap_cons, ← ih fun u hu => h u (List.mem_cons_of_mem b hu), tuples, hr,
      List.range_add, List.map_append, List.map_map]
    congr 1
    · apply List.map_congr_left
      intro i hi
      funext n
      rw [tuple_concat, if_pos (List.mem_range.1 hi)]
    · apply List.map_congr_left
      intro i _
      funext n
      rw [Function.comp_apply, tuple_concat, if_neg (by omega), Nat.add_sub_cancel_left]

end Batch

end TableScan
