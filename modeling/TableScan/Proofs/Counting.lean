import TableScan.Proofs.Cuts
import TableScan.Proofs.Filtering
import TableScan.Proofs.Formats

namespace TableScan

namespace Batch

variable {names : List String} {b b' : Batch}

theorem Agrees.restrict (h : b.Agrees names b') {columns columns' : List String}
    (hc : ∀ n ∈ names, n ∈ columns ↔ n ∈ columns') :
    (b.restrict columns).Agrees names (b'.restrict columns') := by
  refine ⟨h.rows, fun n hn => ?_⟩
  rw [column?_restrict, column?_restrict, h.column n hn]
  simp only [hc n hn]

theorem Agrees.slice (h : b.Agrees names b') (i n : Nat) :
    (b.slice i n).Agrees names (b'.slice i n) := by
  refine ⟨by simp only [Batch.slice, h.rows], fun name hname => ?_⟩
  rw [Expr.column?_slice, Expr.column?_slice, h.column name hname]

theorem column?_batch (o : ParquetOptions) (b : Batch) (n : String) :
    (o.batch b).column? n = (b.column? n).map fun c => (o.series ⟨n, true, c, .empty⟩).column := by
  rw [column?_map (b := b) (f := o.series) rfl o.name_series, column?]
  cases h : b.columns.find? (·.name = n) with
  | none => rfl
  | some s =>
    obtain rfl : s.name = n := by simpa using List.find?_some h
    simp only [Option.map_some, ParquetOptions.series]
    split <;> rfl

theorem Agrees.encoded (h : b.Agrees names b') (o : ParquetOptions) :
    (o.batch b).Agrees names (o.batch b') := by
  refine ⟨h.rows, fun n hn => ?_⟩
  rw [column?_batch, column?_batch, h.column n hn]

theorem Agrees.piecesFrom (h : b.Agrees names b') (size fuel start : Nat) :
    List.Forall₂ (Agrees names) (b.piecesFrom size fuel start) (b'.piecesFrom size fuel start) := by
  induction fuel generalizing start with
  | zero => exact .nil
  | succ fuel ih =>
    rw [Batch.piecesFrom, Batch.piecesFrom, h.rows]
    split
    · exact .cons (h.slice start size) (ih (start + size))
    · exact .nil

theorem Agrees.pieces (h : b.Agrees names b') (size : Nat) :
    List.Forall₂ (Agrees names) (b.pieces size) (b'.pieces size) := by
  rw [Batch.pieces, Batch.pieces, h.rows]
  split
  · exact .cons h .nil
  · exact h.piecesFrom size _ 0

theorem Agrees.chunks (h : b.Agrees names b') (size : Nat) :
    List.Forall₂ (Agrees names) (b.chunks (some size)) (b'.chunks (some size)) := by
  rw [Batch.chunks, Batch.chunks, h.rows]
  split
  · exact .nil
  · exact h.pieces _

end Batch

theorem Format.read_agrees {names columns columns' : List String}
    (hc : ∀ n ∈ names, n ∈ columns ↔ n ∈ columns') {format : Format} {file : OpenFile} {size : Nat}
    {predicate : Expr} {read read' : List Batch}
    (h : format.read file ⟨some columns, size, predicate⟩ = .ok (read.map .ok))
    (h' : format.read file ⟨some columns', size, predicate⟩ = .ok (read'.map .ok)) :
    List.Forall₂ (Batch.Agrees names) read read' := by
  have whole (b : Batch) : (b.restrict columns).Agrees names (b.restrict columns') :=
    (⟨rfl, fun _ _ => rfl⟩ : b.Agrees names b).restrict hc
  cases format with
  | parquet o =>
    obtain ⟨f, hf, h⟩ := bind_eq_ok.1 h
    obtain ⟨f', hf', h'⟩ := bind_eq_ok.1 h'
    cases hf.symm.trans hf'
    simp only at h h'
    split at h
    · cases read <;> cases h
    split at h'
    · cases read' <;> cases h'
    rw [← map_ok_injective (Except.ok.inj h), ← map_ok_injective (Except.ok.inj h')]
    exact ((whole _).encoded o).chunks _
  | ipc =>
    obtain ⟨f, hf, h⟩ := bind_eq_ok.1 h
    obtain ⟨f', hf', h'⟩ := bind_eq_ok.1 h'
    cases hf.symm.trans hf'
    rw [← map_ok_injective (Except.ok.inj h), ← map_ok_injective (Except.ok.inj h')]
    induction f.batches with
    | nil => exact .nil
    | cons b bs ih => exact List.rel_append ((whole b).pieces _) ih

theorem Schema.mem_names {s : Schema} {n : String} : n ∈ s.names ↔ (s.field? n).isSome := by
  constructor
  · intro h
    obtain ⟨f, hf, hn⟩ := List.mem_map.1 h
    exact List.find?_isSome.2 ⟨f, hf, decide_eq_true hn⟩
  · intro h
    obtain ⟨f, hf⟩ := Option.isSome_iff_exists.1 h
    exact mem_names_of_field? hf

namespace ScanTask

def withFields (fields : Schema) (t : ScanTask) : ScanTask :=
  { t with context := { t.context with projected := fields } }

variable {t : ScanTask} {fields : Schema} {b b' u u' : Batch} {files : FileAccess}
  {bs bs' : List Batch}

theorem needed_withFields {n : String} (hn : n ∈ t.filter.fields) :
    (t.withFields fields).needed.field? n = t.needed.field? n := by
  rw [needed_field? (.inl hn), needed_field? (t := t.withFields fields) (.inl hn)]
  rfl

theorem mem_columns {n : String} : n ∈ t.columns ↔
    (t.needed.field? n).isSome ∧ (t.fragment.physical.field? n).isSome ∧ t.fixed? n = none := by
  simp [columns, Schema.mem_names]

theorem Gets.withFields {rows : Nat} {f : Field} {o : Option Column} {c : Column}
    (h : (t.withFields fields).Gets rows f o c) : t.Gets rows f o c := by
  cases h with
  | null hv hn => exact .null hv hn
  | fixed hv hn hw => exact .fixed hv hn hw
  | file hv hd => exact .file hv hd
  | missing hv => exact .missing hv

theorem conform_agrees (h : b.Agrees t.filter.fields b') (hu : t.conform b = .ok u)
    (hu' : (t.withFields fields).conform b' = .ok u') : u.Agrees t.filter.fields u' := by
  refine ⟨by rw [rows_conform hu, rows_conform hu', h.rows], fun n hn => ?_⟩
  cases hf : t.needed.field? n with
  | none => rw [conform_none hu hf, conform_none hu' ((needed_withFields hn).trans hf)]
  | some f =>
    obtain ⟨c, hc, -, hgets⟩ := column?_conform hu hf
    obtain ⟨c', hc', -, hgets'⟩ := column?_conform hu' ((needed_withFields hn).trans hf)
    rw [← h.rows, ← h.column n hn] at hgets'
    rw [hc, hc', hgets.unique hgets'.withFields]

theorem rows_satisfying_agrees {filter : Expr} (h : b.Agrees filter.fields b')
    (hu : b.satisfying filter = .ok u) (hu' : b'.satisfying filter = .ok u') :
    u.rows = u'.rows := by
  unfold Batch.satisfying at hu hu'
  split at hu
  · rename_i htrue
    rw [if_pos htrue] at hu'
    cases hu
    cases hu'
    exact h.rows
  · rename_i htrue
    rw [if_neg htrue, ← Expr.mask_agrees h] at hu'
    obtain ⟨m, hm, hu⟩ := bind_eq_ok.1 hu
    obtain ⟨m', hm', hu'⟩ := bind_eq_ok.1 hu'
    cases hm.symm.trans hm'
    cases hu
    cases hu'
    simp only [Batch.filter, h.rows]

theorem rows_process_agrees (h : b.Agrees t.filter.fields b') (hu : t.process b = .ok u)
    (hu' : (t.withFields fields).process b' = .ok u') : u.rows = u'.rows := by
  obtain ⟨w, hw, hu⟩ := bind_eq_ok.1 (made_of_process hu)
  obtain ⟨v, hv, hu⟩ := bind_eq_ok.1 hu
  obtain ⟨w', hw', hu'⟩ := bind_eq_ok.1 (made_of_process hu')
  obtain ⟨v', hv', hu'⟩ := bind_eq_ok.1 hu'
  cases hu
  cases hu'
  have hrows : v.rows = v'.rows := rows_satisfying_agrees (conform_agrees h hw hw') hv hv'
  exact hrows

theorem sum_items (h : t.items files = bs.map .ok)
    (h' : (t.withFields fields).items files = bs'.map .ok) :
    (bs.map (·.rows)).sum = (bs'.map (·.rows)).sum := by
  obtain ⟨file, read, all, hfile, hread, hall, rfl⟩ := items_eq_ok h
  obtain ⟨file', read', all', hfile', hread', hall', rfl⟩ := items_eq_ok h'
  cases hfile.symm.trans hfile'
  have hcolumns (n : String) (hn : n ∈ t.filter.fields) : n ∈ t.columns ↔
      n ∈ (t.withFields fields).columns := by
    rw [mem_columns, mem_columns, needed_withFields hn]
    rfl
  have hagrees := Format.read_agrees hcolumns hread hread'
  have hrows : all.map (·.rows) = all'.map (·.rows) := by
    clear h h' hread hread'
    induction hagrees generalizing all all' with
    | nil =>
      cases hall
      cases hall'
      rfl
    | cons hb _ ih =>
      cases hall with
      | cons hu hall =>
        cases hall' with
        | cons hu' hall' =>
          rw [List.map_cons, List.map_cons, rows_process_agrees hb hu hu', ih _ hall _ hall']
  have sum (all : List Batch) : ((all.filter (·.rows ≠ 0)).map (·.rows)).sum =
      (all.map (·.rows)).sum := by
    rw [← Batch.rowWise_tuples.length_flatMap, Batch.rowWise_tuples.flatMap_filter,
      Batch.rowWise_tuples.length_flatMap]
  rw [sum, sum, hrows]

end ScanTask

namespace Source

theorem simplify_of_unsatisfiable {filter : Expr} (h : filter.isSatisfiable = false) (g : Expr) :
    filter.simplify g = .ok filter := by
  cases filter with
  | lit v => rfl
  | _ => cases h

theorem candidates_of_unsatisfiable {filter : Expr} (h : filter.isSatisfiable = false)
    (s : Source) :
    s.candidates filter = .ok [] := by
  cases s with
  | leaf kind schema p fragments =>
    exact bind_eq_ok.2 ⟨filter, simplify_of_unsatisfiable h p, if_neg (by rw [h]; nofun)⟩
  | tree schema p sources =>
    exact bind_eq_ok.2 ⟨filter, simplify_of_unsatisfiable h p, if_neg (by rw [h]; nofun)⟩

end Source

namespace Scan

variable {s : Scan} {files : FileAccess} {bs : List Batch} {n : Nat}

theorem plan_of_unsatisfiable (h : s.filter.isSatisfiable = false) : s.plan = .ok [] := by
  have hsources : s.dataset.sources.mapM (Source.candidates s.filter) =
      .ok (s.dataset.sources.map fun _ => []) :=
    mapM_eq_ok.2 (List.forall₂_map_right_iff.2
      (List.forall₂_same.2 fun source _ => source.candidates_of_unsatisfiable h))
  rw [plan_eq_candidates, Dataset.candidates, hsources]
  refine congrArg Except.ok (List.map_eq_nil_iff.2 (List.flatten_eq_nil_iff.2 fun cs hcs => ?_))
  obtain ⟨_, -, rfl⟩ := List.mem_map.1 hcs
  rfl

/-- Rows are counted as a scan yields them. -/
theorem countRows_eq_sum (h : (s.countRows files).result = .ok n)
    (hbs : (s.toBatches files).result = .ok bs) :
    n = (bs.map (·.rows)).sum := by
  obtain ⟨tasks, bss, hplan, hbss, rfl⟩ := gather_eq_ok h
  obtain ⟨tasks', bss', hplan', hbss', rfl⟩ := toBatches_eq_ok hbs
  unfold countPlan at hplan
  split at hplan
  · rw [tasks_eq_candidates] at hplan
    rw [plan_eq_candidates] at hplan'
    obtain ⟨cs, hcs, rfl⟩ := map_eq_ok.1 hplan
    obtain ⟨cs', hcs', rfl⟩ := map_eq_ok.1 hplan'
    cases hcs.symm.trans hcs'
    rw [List.forall₂_map_left_iff] at hbss hbss'
    clear h hbs hplan hplan' hcs hcs'
    induction hbss generalizing bss' with
    | nil =>
      cases hbss'
      rfl
    | cons hitems _ ih =>
      cases hbss' with
      | cons hitems' hbss' =>
        rw [List.flatten_cons, List.flatten_cons, List.map_append, List.map_append, List.sum_append,
          List.sum_append, ih _ hbss']
        exact congrArg (· + _) (ScanTask.sum_items hitems' hitems).symm
  · rename_i hsat
    rw [plan_of_unsatisfiable (by simpa using hsat)] at hplan'
    cases hplan
    cases hplan'
    cases hbss
    cases hbss'
    rfl

def keysOfPositive : ScanRequest := ⟨Expr.above Expr.zero, some ["k"], .default_⟩

theorem countRows_eq_sum_keyed :
    ∃ s bs, build (ofKeys oneAndTwo (.int .int32)) keysOfPositive = .ok s ∧
    (s.countRows (keyed ["k=1", "k=2"])).result = .ok 2 ∧
    (s.toBatches (keyed ["k=1", "k=2"])).result = .ok bs ∧
    2 = (bs.map (·.rows)).sum := by
  obtain ⟨s, bs, h, hn, hbs⟩ : ∃ s bs,
      build (ofKeys oneAndTwo (.int .int32)) keysOfPositive = .ok s ∧
      (s.countRows (keyed ["k=1", "k=2"])).result = .ok 2 ∧
      (s.toBatches (keyed ["k=1", "k=2"])).result = .ok bs :=
    ⟨_, _, rfl, rfl, rfl⟩
  exact ⟨s, bs, h, hn, hbs, countRows_eq_sum hn hbs⟩

end Scan

end TableScan
