import TableScan.Proofs.Conforming
import TableScan.Proofs.Locality

namespace TableScan

theorem slice_one {α : Type} (as : List α) (i : Nat) : (as.drop i).take 1 = as[i]?.toList := by
  rw [List.take_one, List.head?_drop]

theorem keep_flatMap {α : Type} (mask : List Bool) (as : List α) : Column.keep mask as =
    (List.range as.length).flatMap fun i =>
      Column.keep ((mask.drop i).take 1) ((as.drop i).take 1) := by
  induction as generalizing mask with
  | nil => cases mask with
    | nil => rfl
    | cons m mask => cases m <;> rfl
  | cons a as ih =>
    rw [List.length_cons, List.range_succ_eq_map, List.flatMap_cons, List.flatMap_map]
    cases mask with
    | nil => simp [Column.keep]
    | cons m mask =>
      have hrest : Column.keep (m :: mask) (a :: as) =
          Column.keep [m] [a] ++ Column.keep mask as := by
        cases m <;> rfl
      rw [hrest, ih mask]
      rfl

theorem flatMap_slice_one {α : Type} (as : List α) :
    ((List.range as.length).flatMap fun i => (as.drop i).take 1) = as := by
  induction as with
  | nil => rfl
  | cons a as ih =>
    rw [List.length_cons, List.range_succ_eq_map, List.flatMap_cons, List.flatMap_map]
    exact congrArg (a :: ·) ih

namespace Batch

variable {b u : Batch} {i n : Nat}

def singles (b : Batch) : List Batch := (List.range b.rows).map (b.slice · 1)

theorem getElem?_singles (b : Batch) (i : Nat) :
    b.singles[i]? = if i < b.rows then some (b.slice i 1) else none := by
  rw [singles, List.getElem?_map]
  split
  · rename_i hi
    rw [List.getElem?_range hi]
    rfl
  · rename_i hi
    rw [List.getElem?_eq_none (by simpa using hi)]
    rfl

theorem slice_one_congr {b u : Batch} {g : Column → Column}
    (hc : u.columns = b.columns.map fun s => { s with column := g s.column }) {i j : Nat}
    (hi : i < b.rows) (hj : j < u.rows)
    (hg : ∀ s ∈ b.columns, (g s.column).slice j 1 = s.column.slice i 1) :
    u.slice j 1 = b.slice i 1 := by
  refine Batch.ext ?_ ?_
  · simp only [slice]
    omega
  · simp only [slice, hc, List.map_map]
    refine List.map_congr_left fun s hs => ?_
    rw [Function.comp_apply, hg s hs]

theorem slice_slice (b : Batch) {i n j : Nat} (hj : j < (b.slice i n).rows) :
    (b.slice i n).slice j 1 = b.slice (i + j) 1 := by
  have hlt : j < n ∧ i + j < b.rows := by
    simp only [slice] at hj
    omega
  refine slice_one_congr (g := (·.slice i n)) rfl hlt.2 hj fun s _ => ?_
  simp only [Column.slice, slice_one, List.getElem?_take_of_lt hlt.1, List.getElem?_drop]

theorem rowWise_singles : RowWise singles where
  length b := by simp [singles]
  slice b i n := by
    apply List.ext_getElem? fun j => ?_
    rw [getElem?_singles, List.getElem?_take, List.getElem?_drop, getElem?_singles]
    by_cases hj : j < (b.slice i n).rows
    · have hlt : j < n ∧ i + j < b.rows := by
        simp only [slice] at hj
        omega
      rw [if_pos hj, if_pos hlt.1, if_pos hlt.2, slice_slice b hj]
    · rw [if_neg hj]
      simp only [slice] at hj
      split
      · rw [if_neg (by omega)]
      · rfl

theorem RowWise.flatMap_singles {α : Type} {f : Batch → List α} (h : RowWise f) (b : Batch) :
    b.singles.flatMap f = f b := by
  rw [singles, List.flatMap_map]
  simp only [h.slice]
  rw [← h.length b]
  exact flatMap_slice_one (f b)

theorem singles_filter (b : Batch) (mask : List Bool) :
    (b.filter mask).singles = Column.keep mask b.singles := by
  apply List.ext_getElem? fun j => ?_
  have hlength : b.singles.length = b.rows := rowWise_singles.length b
  rw [Column.getElem?_keep, hlength, getElem?_singles, length_keep_range]
  split
  · rename_i hj
    obtain ⟨k, hk⟩ : ∃ k, (Column.keep mask (List.range b.rows))[j]? = some k :=
      ⟨_, List.getElem?_eq_getElem hj⟩
    have hlt : k < b.rows := by
      have hrange := Column.getElem?_keep mask (List.range b.rows) j
      rw [List.length_range, hk, Option.bind_some] at hrange
      exact List.mem_range.1 (List.mem_of_getElem? hrange.symm)
    rw [hk, Option.bind_some, getElem?_singles, if_pos hlt]
    refine congrArg some (slice_one_congr (g := (·.filter mask)) rfl hlt
      (length_keep_range mask b ▸ hj) fun s hs => ?_)
    have hcells : s.column.cells.length = b.rows := b.sized s hs
    simp only [Column.slice, Column.filter, slice_one]
    rw [Column.getElem?_keep, hcells, hk]
    rfl
  · rename_i hj
    rw [List.getElem?_eq_none (by omega)]
    rfl

theorem underField_slice (b : Batch) (f : Field) (i n : Nat) : ((b.slice i n).underField f).series =
    { (b.underField f).series with column := (b.underField f).series.column.slice i n } := by
  have hcolumn := Expr.column?_slice b i n f.name
  unfold underField
  split
  · rename_i c hc
    split
    · rename_i d hd
      rw [hc, hd] at hcolumn
      cases hcolumn
      rfl
    · rename_i hd
      rw [hc, hd] at hcolumn
      cases hcolumn
  · rename_i hc
    split
    · rename_i d hd
      rw [hc, hd] at hcolumn
      cases hcolumn
    · exact congrArg (Series.mk f.name f.nullable · f.metadata)
        (Column.slice_nulls f.type b.rows i n).symm

theorem slice_project (b : Batch) (s : Schema) (i n : Nat) :
    (b.project s).slice i n = (b.slice i n).project s := by
  refine Batch.ext rfl ?_
  simp only [project, ofSized, slice, List.map_map]
  refine List.map_congr_left fun f _ => ?_
  exact (underField_slice b f i n).symm

theorem singles_project (b : Batch) (s : Schema) :
    (b.project s).singles = b.singles.map (·.project s) := by
  rw [singles, singles, List.map_map]
  exact List.map_congr_left fun i _ => slice_project b s i 1

def kept (filter : Expr) (b : Batch) : List Batch :=
  match b.satisfying filter with
  | .ok u => u.singles
  | .error _ => []

theorem kept_of_ok {filter : Expr} (h : b.satisfying filter = .ok u) :
    b.kept filter = u.singles := by
  rw [kept, h]

theorem singles_satisfying {filter : Expr} (h : b.satisfying filter = .ok u) :
    u.singles = b.singles.flatMap (kept filter) ∧
    ∀ i, ∃ v, (b.slice i 1).satisfying filter = .ok v := by
  unfold satisfying at h
  split at h
  · rename_i htrue
    cases h
    have hall (v : Batch) : v.satisfying filter = .ok v := if_pos htrue
    refine ⟨?_, fun i => ⟨_, hall _⟩⟩
    have hkept : kept filter = singles := funext fun v => kept_of_ok (hall v)
    rw [hkept, rowWise_singles.flatMap_singles]
  · rename_i htrue
    obtain ⟨m, hm, h⟩ := bind_eq_ok.1 h
    cases h
    have hrow (i : Nat) : (b.slice i 1).satisfying filter =
        .ok ((b.slice i 1).filter (((m.map (· == some true)).drop i).take 1)) := by
      rw [satisfying, if_neg htrue]
      refine bind_eq_ok.2 ⟨_, Expr.mask_slice hm i 1, ?_⟩
      rw [List.map_take, List.map_drop]
      rfl
    refine ⟨?_, fun i => ⟨_, hrow i⟩⟩
    rw [singles_filter, keep_flatMap, rowWise_singles.length, singles, List.flatMap_map]
    refine List.flatMap_congr fun i _ => ?_
    rw [kept_of_ok (hrow i), singles_filter, rowWise_singles.slice]
    rfl

end Batch

namespace ScanTask

variable {t : ScanTask} {b u : Batch}

theorem Gets.slice {rows : Nat} {f : Field} {o : Option Column} {c : Column} (h : t.Gets rows f o c)
    (i n : Nat) :
    t.Gets (min n (rows - i)) f (o.map (·.slice i n)) (c.slice i n) := by
  cases h with
  | null hv hn =>
    rw [Column.slice_nulls]
    exact .null hv hn
  | fixed hv hn hw =>
    rw [Column.slice_constant]
    exact .fixed hv hn hw
  | file hv hd => exact .file hv (Column.cast_slice hd i n)
  | missing hv =>
    rw [Column.slice_nulls]
    exact .missing hv

theorem conform_slice (h : t.conform b = .ok u) (i n : Nat) :
    t.conform (b.slice i n) = .ok (u.slice i n) := by
  obtain ⟨hrows, hcolumns⟩ := conform_eq_ok.1 h
  refine conform_eq_ok.2 ⟨by simp only [Batch.slice, hrows],
    List.forall₂_map_right_iff.2 (hcolumns.imp fun f s hs => ?_)⟩
  obtain ⟨c, hc, htype, rfl⟩ := hs
  rw [Expr.column?_slice]
  exact ⟨_, hc.slice i n, htype, rfl⟩

def made (t : ScanTask) (b : Batch) : Except Failure Batch := do
  return (← (← t.conform b).satisfying t.filter).project t.context.projected

theorem made_of_process (h : t.process b = .ok u) : t.made b = .ok u := by
  obtain ⟨w, hw, h⟩ := bind_eq_ok.1 h
  obtain ⟨v, hv, h⟩ := bind_eq_ok.1 h
  rw [eq_of_checked (mapError_eq_ok.1 h)]
  exact bind_eq_ok.2 ⟨w, hw, bind_eq_ok.2 ⟨v, hv, rfl⟩⟩

def madeRows (t : ScanTask) (b : Batch) : List Batch :=
  match t.made b with
  | .ok u => u.singles
  | .error _ => []

theorem singles_process (h : t.process b = .ok u) : u.singles = b.singles.flatMap t.madeRows := by
  obtain ⟨w, hw, h⟩ := bind_eq_ok.1 (made_of_process h)
  obtain ⟨v, hv, h⟩ := bind_eq_ok.1 h
  cases h
  obtain ⟨hsingles, hrow⟩ := Batch.singles_satisfying hv
  rw [Batch.singles_project, hsingles, Batch.singles, Batch.singles, rows_conform hw,
    List.flatMap_map, List.flatMap_map, List.map_flatMap]
  refine List.flatMap_congr fun i _ => ?_
  obtain ⟨x, hx⟩ := hrow i
  have hmade : t.made (b.slice i 1) = .ok (x.project t.context.projected) :=
    bind_eq_ok.2 ⟨_, conform_slice hw i 1, bind_eq_ok.2 ⟨x, hx, rfl⟩⟩
  rw [Batch.kept_of_ok hx, madeRows, hmade]
  exact (Batch.singles_project ..).symm

variable {files : FileAccess} {bs : List Batch}

theorem singles_items (h : t.items files = bs.map .ok) :
    ∃ file, (t.fragment.origin.openFile files).result = .ok file ∧
    bs.flatMap Batch.singles =
      ((t.fragment.format.uncut t.request file.image).flatMap Batch.singles).flatMap
        t.madeRows := by
  obtain ⟨file, read, all, hfile, hread, hprocess, rfl⟩ := items_eq_ok h
  refine ⟨file, hfile, ?_⟩
  rw [Batch.rowWise_singles.flatMap_filter, ← Format.flatMap_read Batch.rowWise_singles hread]
  clear hread h
  induction hprocess with
  | nil => rfl
  | cons hb _ ih =>
    rw [List.flatMap_cons, List.flatMap_cons, List.flatMap_append, singles_process hb]
    exact congrArg _ ih

end ScanTask

namespace Batch

theorem RowWise.flatMap_flatMap {α : Type} {f : Batch → List α} (h : RowWise f) (bs : List Batch) :
    (bs.flatMap singles).flatMap f = bs.flatMap f := by
  rw [List.flatMap_assoc]
  exact List.flatMap_congr fun b _ => h.flatMap_singles b

theorem RowWise.length_flatMap {α : Type} {f : Batch → List α} (h : RowWise f) (bs : List Batch) :
    (bs.flatMap f).length = (bs.map (·.rows)).sum := by
  rw [List.length_flatMap]
  simp only [h.length]

def cellsAt (t : DataType) (position : Nat) (b : Batch) : List (Option t.Carrier) :=
  match b.columns[position]? with
  | some s => if h : s.column.type = t then h ▸ s.column.cells else List.replicate b.rows none
  | none => List.replicate b.rows none

theorem rowWise_cellsAt (t : DataType) (position : Nat) : RowWise (cellsAt t position) where
  length b := by
    have hjoin := length_joinColumn t position [b]
    simp only [Column.length, joinColumn, List.flatMap_singleton] at hjoin
    exact hjoin.trans (Nat.add_zero _)
  slice b i n := by
    have hcolumn : (b.slice i n).columns[position]? =
        b.columns[position]?.map fun s => { s with column := s.column.slice i n } :=
        List.getElem?_map
    unfold cellsAt
    rw [hcolumn]
    cases b.columns[position]? with
    | none => exact (replicate_slice none b.rows i n).symm
    | some s =>
      obtain ⟨name, nullable, ⟨type, cells⟩, metadata⟩ := s
      dsimp only [Option.map_some]
      split
      · rename_i h
        obtain rfl : type = t := h
        rw [dif_pos rfl]
        rfl
      · rename_i h
        rw [dif_neg (show ¬ type = t from h)]
        exact (replicate_slice none b.rows i n).symm

theorem concat_singles (s : Schema) (bs : List Batch) :
    concat s (bs.flatMap singles) = concat s bs := by
  refine Batch.ext ?_ (List.map_congr_left fun ⟨f, i⟩ _ => ?_)
  · change ((bs.flatMap singles).map (·.rows)).sum = (bs.map (·.rows)).sum
    rw [← rowWise_singles.length_flatMap, ← rowWise_singles.length_flatMap,
      rowWise_singles.flatMap_flatMap]
  · have hcells : (bs.flatMap singles).flatMap (cellsAt f.type i) = bs.flatMap (cellsAt f.type i) :=
      (rowWise_cellsAt f.type i).flatMap_flatMap bs
    exact congrArg (fun cells => Series.mk f.name f.nullable ⟨f.type, cells⟩ f.metadata) hcells

end Batch

end TableScan
