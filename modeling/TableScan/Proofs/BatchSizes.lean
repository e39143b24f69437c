import TableScan.Proofs.Cuts
import TableScan.Proofs.Formats
import TableScan.Proofs.Executions

/-!
Scans that differ in the sizes of their batches, or in whether they run on threads. They have the
same rows in the same order, and every batch has rows, but no more than were asked for.
-/

namespace TableScan

def ParquetOptions.recut (size : Option Nat) (o : ParquetOptions) : ParquetOptions :=
  { o with batchSize := size }

namespace Format

def recut (size : Option Nat) : Format → Format
  | parquet o => parquet (o.recut size)
  | ipc => ipc

/-- The most rows of a batch, where a scan asks for so many: a format may have a size of its own. -/
def cut (scan : Nat) : Format → Nat
  | parquet o => max 1 (o.batchSize.getD scan)
  | ipc => max 1 scan

theorem uncut_recut (size : Option Nat) {request request' : ReadRequest}
    (hc : request.columns = request'.columns) (hp : request.predicate = request'.predicate)
    (format : Format) (image : FileImage) :
    (format.recut size).uncut request' image = format.uncut request image := by
  cases format with
  | parquet o =>
    cases image with
    | parquet f =>
      rw [recut, uncut, uncut, hc, hp]
      rfl
    | _ => rfl
  | ipc => cases image <;> simp only [recut, uncut, hc]

end Format

def Dataset.recut (size : Option Nat) (d : Dataset) : Dataset := d.mapFormat (Format.recut size)

namespace ScanTask

variable {t : ScanTask} {files : FileAccess} {bs : List Batch} {b : Batch}

def uncut (t : ScanTask) : ScanTask :=
  { t with
    fragment := t.fragment.mapFormat (.recut none)
    context := { t.context with batchSize := 0 } }

def rowsOf (t : ScanTask) (image : FileImage) : List Batch :=
  ((t.fragment.format.uncut t.request image).flatMap Batch.singles).flatMap t.madeRows

theorem rowsOf_uncut (t : ScanTask) (image : FileImage) :
    t.uncut.rowsOf image = t.rowsOf image := by
  have huncut : (t.fragment.format.recut none).uncut t.uncut.request image =
      t.fragment.format.uncut t.request image :=
    Format.uncut_recut none rfl rfl t.fragment.format image
  exact congrArg (fun parts => (parts.flatMap Batch.singles).flatMap t.madeRows) huncut

theorem singles_eq {t t' : ScanTask} {bs bs' : List Batch} (ht : t.uncut = t'.uncut)
    (h : t.items files = bs.map .ok) (h' : t'.items files = bs'.map .ok) :
    bs.flatMap Batch.singles = bs'.flatMap Batch.singles := by
  obtain ⟨file, hfile, hbs⟩ := singles_items h
  obtain ⟨file', hfile', hbs'⟩ := singles_items h'
  have horigin : t.fragment.origin = t'.fragment.origin := congrArg (fun u => u.fragment.origin) ht
  rw [horigin] at hfile
  cases hfile.symm.trans hfile'
  rw [hbs, hbs']
  have hrows := congrArg (fun u => u.rowsOf file.image) ht
  simp only [rowsOf_uncut] at hrows
  exact hrows

end ScanTask

theorem Column.length_keep_le {α : Type} (mask : List Bool) (as : List α) :
    (keep mask as).length ≤ as.length := by
  induction mask generalizing as with
  | nil => cases as <;> simp [keep]
  | cons m mask ih =>
    cases as with
    | nil => cases m <;> simp [keep]
    | cons a as =>
      have hrest := ih as
      cases m <;> simp only [keep, List.length_cons] <;> omega

namespace Batch

theorem rows_slice_le (b : Batch) (start count : Nat) :
    (b.slice start count).rows ≤ count := Nat.min_le_left _ _

theorem rows_piecesFrom_le {b u : Batch} {size fuel start : Nat}
    (h : u ∈ b.piecesFrom size fuel start) :
    u.rows ≤ size := by
  induction fuel generalizing start with
  | zero => cases h
  | succ fuel ih =>
    simp only [piecesFrom] at h
    split at h
    · rcases List.mem_cons.1 h with rfl | h
      · exact b.rows_slice_le start size
      · exact ih h
    · cases h

theorem rows_pieces_le {b u : Batch} {size : Nat} (h : u ∈ b.pieces size) : u.rows ≤ size := by
  unfold pieces at h
  split at h
  · rename_i hb
    rwa [List.mem_singleton.1 h]
  · exact rows_piecesFrom_le h

theorem rows_chunks_le {b u : Batch} {size : Nat} (h : u ∈ b.chunks (some size)) :
    u.rows ≤ max 1 size := by
  unfold chunks at h
  split at h
  · cases h
  · exact rows_pieces_le h

theorem rows_satisfying_le {b u : Batch} {filter : Expr} (h : b.satisfying filter = .ok u) :
    u.rows ≤ b.rows := by
  unfold satisfying at h
  split at h
  · cases h
    exact Nat.le_refl _
  · obtain ⟨m, -, h⟩ := bind_eq_ok.1 h
    cases h
    have hlength := Column.length_keep_le (m.map (· == some true)) (List.replicate b.rows ())
    rw [List.length_replicate] at hlength
    exact hlength

end Batch

theorem Format.rows_read_le {format : Format} {file : OpenFile} {request : ReadRequest}
    {items : Batches} {b : Batch} (h : format.read file request = .ok items) (hb : .ok b ∈ items) :
    b.rows ≤ format.cut request.batchSize := by
  cases format with
  | parquet o =>
    obtain ⟨f, -, h⟩ := bind_eq_ok.1 h
    simp only at h
    split at h
    · cases h
      cases List.mem_singleton.1 hb
    · cases h
      obtain ⟨u, hu, hub⟩ := List.mem_map.1 hb
      cases hub
      exact Batch.rows_chunks_le hu
  | ipc =>
    obtain ⟨f, -, h⟩ := bind_eq_ok.1 h
    cases h
    obtain ⟨u, hu, hub⟩ := List.mem_map.1 hb
    cases hub
    obtain ⟨v, -, hu⟩ := List.mem_flatMap.1 hu
    exact Batch.rows_pieces_le hu

namespace ScanTask

variable {t : ScanTask} {files : FileAccess} {b u : Batch}

theorem rows_process_le (h : t.process b = .ok u) : u.rows ≤ b.rows := by
  obtain ⟨w, hw, h⟩ := bind_eq_ok.1 (made_of_process h)
  obtain ⟨v, hv, h⟩ := bind_eq_ok.1 h
  cases h
  have hle : v.rows ≤ w.rows := Batch.rows_satisfying_le hv
  rw [rows_conform hw] at hle
  exact hle

theorem rows_items (h : .ok b ∈ t.items files) :
    0 < b.rows ∧ b.rows ≤ t.fragment.format.cut t.context.batchSize := by
  unfold items itemsOf at h
  split at h
  · rename_i batches hbatches
    obtain ⟨file, -, hread⟩ := bind_eq_ok.1 hbatches
    obtain ⟨hmem, hrows⟩ := mem_untilFailure h
    obtain ⟨item, hitem, hprocess⟩ := List.mem_map.1 hmem
    obtain ⟨u, rfl, hprocess⟩ := bind_eq_ok.1 hprocess
    refine ⟨Nat.pos_of_ne_zero (hrows b rfl), ?_⟩
    calc b.rows
      _ ≤ u.rows := rows_process_le hprocess
      _ ≤ t.fragment.format.cut t.context.batchSize := Format.rows_read_le hread hitem
  · cases List.mem_singleton.1 h

end ScanTask

namespace Scan

variable {d d' : Dataset} {r r' : ScanRequest} {s s' : Scan} {files : FileAccess}
  {tasks tasks' : List ScanTask} {bs bs' : List Batch}

theorem plan_recut (hd : d.recut none = d'.recut none) (hf : r.filter = r'.filter)
    (hc : r.columns = r'.columns) (h : build d r = .ok s) (h' : build d' r' = .ok s')
    (hplan : s.plan = .ok tasks) (hplan' : s'.plan = .ok tasks') :
    s.projected = s'.projected ∧ tasks.map ScanTask.uncut = tasks'.map ScanTask.uncut := by
  obtain ⟨rfl, hfilter, names, hnames, hprojected⟩ := build_eq_ok h
  obtain ⟨rfl, hfilter', names', hnames', hprojected'⟩ := build_eq_ok h'
  have hschema : s.dataset.schema = s'.dataset.schema := by
    have hrecut : (s.dataset.recut none).schema = (s'.dataset.recut none).schema := by rw [hd]
    exact hrecut
  rw [← hf] at hfilter'
  have hsame : s.filter = s'.filter := Except.ok.inj (hfilter.symm.trans hfilter')
  rw [← hschema, ← hc] at hnames'
  cases hnames.symm.trans hnames'
  rw [← hschema] at hprojected'
  have hfields : s.projected = s'.projected := Except.ok.inj (hprojected.symm.trans hprojected')
  refine ⟨hfields, ?_⟩
  rw [plan_eq_candidates] at hplan hplan'
  obtain ⟨cs, hcs, rfl⟩ := map_eq_ok.1 hplan
  obtain ⟨cs', hcs', rfl⟩ := map_eq_ok.1 hplan'
  -- what the filter leaves has the same places and, but for the sizes, the same formats
  have hleft : cs.map (Prod.map (·.mapFormat (.recut none)) id) =
      cs'.map (Prod.map (·.mapFormat (.recut none)) id) := by
    have hcandidates := congrArg (Dataset.candidates s.filter) hd
    rw [Dataset.recut, Dataset.recut, Dataset.candidates_mapFormat, Dataset.candidates_mapFormat,
      hcs, hsame, hcs'] at hcandidates
    exact Except.ok.inj hcandidates
  have huncut (s : Scan) (cs : List (Fragment × Expr)) : (cs.map s.task).map ScanTask.uncut =
      (cs.map (Prod.map (·.mapFormat (.recut none)) id)).map fun c =>
        ⟨c.1, c.2, ⟨s.dataset.schema, s.projected, 0⟩⟩ := by
    rw [List.map_map, List.map_map]
    rfl
  rw [huncut, huncut, hleft, hschema, hfields]

/--
The rows of a scan, and their order, do not depend on the sizes of batches that it or its formats
ask for, nor on whether it runs on threads. Every batch that it yields has rows, but no more than
are asked for.
-/
theorem runs_recut (hd : d.recut none = d'.recut none) (hf : r.filter = r'.filter)
    (hc : r.columns = r'.columns) (h : build d r = .ok s) (h' : build d' r' = .ok s') :
    (∀ bs bs', s.Runs files (bs.map .ok) → s'.Runs files (bs'.map .ok) →
      bs.flatMap Batch.singles = bs'.flatMap Batch.singles ∧
      Batch.concat s.projected bs = Batch.concat s'.projected bs') ∧
    ∀ items, s.Runs files items → ∃ tasks, s.plan = .ok tasks ∧
      items = tasks.flatMap (ScanTask.results files) ∧
      ∀ t ∈ tasks, ∀ b, .ok b ∈ t.results files →
        0 < b.rows ∧ b.rows ≤ t.fragment.format.cut s.options.batchSize := by
  refine ⟨fun bs bs' hruns hruns' => ?_, fun items hruns => ?_⟩
  · obtain ⟨tasks, hplan, hitems⟩ := hruns.eq_resultsOf
    obtain ⟨tasks', hplan', hitems'⟩ := hruns'.eq_resultsOf
    obtain ⟨hfields, huncut⟩ := plan_recut hd hf hc h h' hplan hplan'
    obtain ⟨bss, hbss, rfl⟩ := resultsOf_eq_ok hitems.symm
    obtain ⟨bss', hbss', rfl⟩ := resultsOf_eq_ok hitems'.symm
    -- the batches of a task are those of some task that is the same but for the sizes
    have yields {tasks : List ScanTask} {bss : List (List Batch)}
        (h : List.Forall₂ (fun t bs => t.items files = bs.map .ok) tasks bss) :
        List.Forall₂ (fun u bs => ∃ t : ScanTask, t.uncut = u ∧ t.items files = bs.map .ok)
          (tasks.map ScanTask.uncut) bss :=
      List.forall₂_map_left_iff.2 (h.imp fun t bs h => ⟨t, rfl, h⟩)
    have hsingles : bss.flatten.flatMap Batch.singles = bss'.flatten.flatMap Batch.singles := by
      refine flatten_congr (yields hbss) (huncut ▸ yields hbss') fun u _ bs cs hbs hcs => ?_
      obtain ⟨t, rfl, ht⟩ := hbs
      obtain ⟨t', ht', hcs⟩ := hcs
      exact ScanTask.singles_eq ht'.symm ht hcs
    refine ⟨hsingles, ?_⟩
    rw [← Batch.concat_singles, hsingles, Batch.concat_singles, hfields]
  · obtain ⟨tasks, hplan, rfl⟩ := hruns.eq_resultsOf
    refine ⟨tasks, hplan, rfl, fun t ht b hb => ?_⟩
    obtain ⟨item, hitem, hok⟩ := List.mem_map.1 hb
    obtain rfl := mapError_eq_ok.1 hok
    obtain ⟨_, -, -, hcontext⟩ := mem_plan hplan ht
    have hbatch : t.context.batchSize = s.options.batchSize := by rw [hcontext]
    rw [← hbatch]
    exact ScanTask.rows_items hitem

section Sizes

def ofWholes (values : List (Fixed .int64)) : Batch where
  rows := values.length
  columns := [⟨"x", true, ⟨.int .int64, values.map some⟩, .empty⟩]
  sized := by simp [Column.length]

/-- A file of three groups, read in batches of a size of its own if it is given one, and a file of
one batch. -/
def groupsAndBatch (size : Option Nat) : Dataset :=
  let schema := (ofWholes []).schema
  let groups := [[Expr.seven], [Expr.zero, Expr.seven], [Expr.seven]].map fun vs =>
    RowGroup.ofRows true none (ofWholes vs)
  let batch := ofWholes [Expr.seven, Expr.zero, Expr.seven]
  ⟨[.leaf .memory schema .true_ [
    ⟨.buffer "a" (.parquet ⟨schema, groups⟩),
      .parquet { ParquetOptions.default_ with batchSize := size }, .true_, schema⟩,
    ⟨.buffer "b" (.ipc ⟨schema, [batch]⟩), .ipc, .true_, schema⟩]], schema⟩

def inBatches (size : Nat) (threads : Bool) : ScanRequest :=
  ⟨Expr.above Expr.zero, none,
    { ScanOptions.default_ with batchSize := size, useThreads := threads }⟩

/-- Batches of one row, and batches of two rows of the first file and three of the second, on
threads. -/
theorem runs_recut_wholes : ∃ s s' bs bs', build (groupsAndBatch none) (inBatches 1 false) = .ok s ∧
    build (groupsAndBatch (some 2)) (inBatches 3 true) = .ok s' ∧
    s.Runs .none_ (bs.map .ok) ∧ s'.Runs .none_ (bs'.map .ok) ∧ bs.map (·.rows) = [1, 1, 1, 1, 1] ∧
    bs'.map (·.rows) = [1, 2, 2] ∧ Batch.concat s.projected bs = Batch.concat s'.projected bs' := by
  obtain ⟨s, s', tasks, tasks', bs, bs', h, h', hplan, hplan', hbs, hbs', hmode, hmode', hp, hp',
      hrows, hrows'⟩ :
      ∃ s s' tasks tasks' bs bs', build (groupsAndBatch none) (inBatches 1 false) = .ok s ∧
      build (groupsAndBatch (some 2)) (inBatches 3 true) = .ok s' ∧ s.plan = .ok tasks ∧
      s'.plan = .ok tasks' ∧
      ScanTask.resultsOf .none_ tasks = bs.map .ok ∧
      ScanTask.resultsOf .none_ tasks' = bs'.map .ok ∧
      s.options.mode = .serial ∧ s'.options.mode = .ordered ∧ s.options.parallelism = .default_ ∧
      s'.options.parallelism = .default_ ∧ bs.map (·.rows) = [1, 1, 1, 1, 1] ∧
      bs'.map (·.rows) = [1, 2, 2] :=
    ⟨_, _, _, _, [_, _, _, _, _], [_, _, _], rfl, rfl, rfl, rfl, rfl, rfl, rfl, rfl, rfl, rfl,
      rfl, rfl⟩
  have hruns := runs_resultsOf .none_ (by rw [hmode]; nofun) (by rw [hp]; nofun) hplan
  have hruns' := runs_resultsOf .none_ (by rw [hmode']; nofun) (by rw [hp']; nofun) hplan'
  rw [hbs] at hruns
  rw [hbs'] at hruns'
  have hd : (groupsAndBatch none).recut none = (groupsAndBatch (some 2)).recut none := rfl
  have hf : (inBatches 1 false).filter = (inBatches 3 true).filter := rfl
  have hsame := (runs_recut hd hf rfl h h').1 bs bs' hruns hruns'
  exact ⟨s, s', bs, bs', h, h', hruns, hruns', hrows, hrows', hsame.2⟩

end Sizes

end Scan

end TableScan
