import TableScan.Proofs.Tuples

namespace TableScan

def ParquetOptions.cell (o : ParquetOptions) (name : String) (c : Cell) : Cell :=
  if o.encodes name c.1 then .of (.dictionary .int32 c.1) c.2 else c

def Tuple.encode (o : ParquetOptions) (p : Tuple) : Tuple := fun n => (p n).map (o.cell n)

theorem Tuple.encode_restrict (o : ParquetOptions) (names : List String) (p : Tuple) :
    (p.restrict names).encode o = (p.encode o).restrict names := by
  funext n
  simp only [encode, restrict]
  split <;> rfl

namespace ParquetOptions

variable (o : ParquetOptions)

theorem name_series (s : Series) : (o.series s).name = s.name := by
  unfold series
  split <;> rfl

theorem cell?_series (s : Series) (i : Nat) :
    (o.series s).column.cell? i = (s.column.cell? i).map (o.cell s.name) := by
  unfold series
  split
  · rename_i h
    simp only [Column.cell?, Series.asDictionary, Option.map_map]
    congr 1
    funext x
    simp [cell, Cell.of, h]
  · rename_i h
    simp only [Column.cell?, Option.map_map]
    congr 1
    funext x
    simp [cell, Cell.of, h]

theorem tuples_batch (b : Batch) : (o.batch b).tuples = b.tuples.map (Tuple.encode o) := by
  simp only [Batch.tuples, List.map_map]
  apply List.map_congr_left
  intro i _
  funext n
  simp only [Batch.tuple, Function.comp_apply, Tuple.encode]
  rw [Batch.column?_map (b := b) (f := o.series) rfl o.name_series, Batch.column?]
  cases hs : b.columns.find? (·.name = n) with
  | none => rfl
  | some s =>
    have hn : s.name = n := by simpa using List.find?_some hs
    rw [Option.map_some, Option.bind_some, cell?_series, hn]
    rfl

end ParquetOptions

def FileImage.IsUniform : FileImage → Prop
  | parquet f => ∀ g ∈ f.groups, g.rows.schema = f.schema
  | ipc f => ∀ b ∈ f.batches, b.schema = f.schema
  | raw _ => True

def Format.stored (predicate : Expr) : Format → FileImage → List Tuple
  | parquet o, .parquet f =>
      (f.selected o predicate).flatMap fun g => g.1.rows.tuples.map (Tuple.encode o)
  | ipc, .ipc f => f.batches.flatMap Batch.tuples
  | _, _ => []

def Format.whole : Format → FileImage → List Tuple
  | parquet o, .parquet f => f.groups.flatMap fun g => g.rows.tuples.map (Tuple.encode o)
  | ipc, .ipc f => f.batches.flatMap Batch.tuples
  | _, _ => []

variable {request : ReadRequest} {names : List String}

theorem ParquetFile.mem_zipIdx_of_selected {f : ParquetFile} {o : ParquetOptions} {e : Expr}
    {g : RowGroup × Nat} (h : g ∈ f.selected o e) : g ∈ f.groups.zipIdx := by
  unfold selected at h
  split at h
  · exact (List.mem_filter.1 h).1
  · exact h

theorem ParquetFile.mem_selected {f : ParquetFile} {o : ParquetOptions} {e : Expr}
    {g : RowGroup × Nat} (h : g ∈ f.selected o e) : g.1 ∈ f.groups :=
  List.mem_of_getElem? (List.mem_zipIdx_iff_getElem?.1 (mem_zipIdx_of_selected h))

theorem ParquetFile.image_of_ofFile {file : OpenFile} {f : ParquetFile} (h : ofFile file = .ok f) :
    file.image = .parquet f := by
  unfold ofFile at h
  split at h
  · split at h
    · cases h
    · cases h
      assumption
  · cases h

theorem ParquetFile.ofFile_ofImage (path : String) (f : ParquetFile) :
    ofFile (.ofImage path (.parquet f)) = .ok f := by
  have hfault : f.metadataFault (.ofImage path (.parquet f)) = none := by
    simp [metadataFault, OpenFile.ofImage]
  exact if_neg (by rw [hfault]; nofun)

theorem IpcFile.image_of_ofFile {file : OpenFile} {f : IpcFile} (h : ofFile file = .ok f) :
    file.image = .ipc f := by
  obtain ⟨_, -, h⟩ := bind_eq_ok.1 h
  split at h
  · cases h
    assumption
  · cases h

/-- The rows of a file that are read for a request, as they are before they are cut. -/
def Format.uncut (request : ReadRequest) : Format → FileImage → List Batch
  | parquet o, .parquet f =>
    [o.batch
      ((Batch.concat f.schema ((f.selected o request.predicate).map (·.1.rows))).requested
        request.columns)]
  | ipc, .ipc f => f.batches.map (·.requested request.columns)
  | _, _ => []

theorem Format.flatMap_read {α : Type} {rowsOf : Batch → List α} (hrows : Batch.RowWise rowsOf)
    {format : Format} {file : OpenFile} {bs : List Batch}
    (h : format.read file request = .ok (bs.map .ok)) :
    bs.flatMap rowsOf = (format.uncut request file.image).flatMap rowsOf := by
  cases format with
  | parquet o =>
    obtain ⟨f, hfile, h⟩ := bind_eq_ok.1 h
    simp only at h
    split at h
    · cases bs with
      | nil => cases h
      | cons b bs => cases h
    · rw [ParquetFile.image_of_ofFile hfile, ← map_ok_injective (Except.ok.inj h),
        hrows.flatMap_chunks]
      exact (List.flatMap_singleton ..).symm
  | ipc =>
    obtain ⟨f, hfile, h⟩ := bind_eq_ok.1 h
    rw [IpcFile.image_of_ofFile hfile, ← map_ok_injective (Except.ok.inj h), uncut,
      List.flatMap_assoc, List.flatMap_map]
    congr 1
    funext b
    exact hrows.flatMap_pieces _ (by omega)

theorem Format.tuples_uncut {format : Format} {image : FileImage}
    (hc : request.columns = some names) (hf : image.IsUniform) :
    (format.uncut request image).flatMap Batch.tuples =
      (format.stored request.predicate image).map (·.restrict names) := by
  cases format with
  | parquet o =>
    cases image with
    | parquet f =>
      have hs : ∀ b ∈ (f.selected o request.predicate).map fun g => g.1.rows,
          b.schema = f.schema := by
        intro b hb
        obtain ⟨g, hg, rfl⟩ := List.mem_map.1 hb
        exact hf g.1 (ParquetFile.mem_selected hg)
      rw [uncut, List.flatMap_singleton, ParquetOptions.tuples_batch, hc, Batch.requested,
        Batch.tuples_restrict, Batch.tuples_concat hs, List.map_map, List.flatMap_map,
        List.map_flatMap, stored, List.map_flatMap]
      congr 1
      funext g
      simp only [List.map_map]
      congr 1
      funext p
      exact Tuple.encode_restrict o names p
    | _ => rfl
  | ipc =>
    cases image with
    | ipc f =>
      rw [uncut, stored, hc, List.flatMap_map, List.map_flatMap]
      congr 1
      funext b
      exact Batch.tuples_restrict b names
    | _ => rfl

theorem Format.tuples_read {format : Format} {file : OpenFile} {bs : List Batch}
    (h : format.read file request = .ok (bs.map .ok)) (hc : request.columns = some names)
    (hf : file.image.IsUniform) :
    bs.flatMap Batch.tuples = (format.stored request.predicate file.image).map
    (·.restrict names) := by
  rw [flatMap_read Batch.rowWise_tuples h, tuples_uncut hc hf]

end TableScan
