import TableScan.Proofs.Reading

namespace TableScan

theorem Column.hasNulls_eq_false {c : Column} :
    c.hasNulls = false ↔ c.type = .null ∨ ∀ x ∈ c.cells, x.isSome := by
  simp [hasNulls, or_iff_not_imp_left, Option.isSome_iff_ne_none]

theorem Series.breaksField_eq_false {s : Series} :
    s.breaksField = false ↔ (s.nullable = false → s.column.hasNulls = false) := by
  cases hn : s.nullable <;> simp [breaksField, hn]

namespace Batch

/-- Whether a batch is of a schema, with no nulls where a field allows none. -/
structure IsOf (σ : Schema) (b : Batch) : Prop where
  schema : b.schema = σ
  valid : ∀ s ∈ b.columns, s.breaksField = false

variable {σ : Schema} {b u : Batch} {n : String}

theorem checked_of_valid (h : ∀ s ∈ b.columns, s.breaksField = false) : b.checked = .ok b := by
  have hnone : b.columns.find? (·.breaksField) = none :=
    List.find?_eq_none.2 fun s hs => by simp [h s hs]
  rw [checked, hnone]

theorem IsOf.column? (h : b.IsOf σ) {f : Field} (hf : σ.field? n = some f) :
    ∃ c, b.column? n = some c ∧
    c.type = f.type ∧ (f.nullable = false → c.hasNulls = false) := by
  rw [← h.schema, Schema.field?, Batch.schema, List.find?_map] at hf
  obtain ⟨s, hs, rfl⟩ := Option.map_eq_some_iff.1 hf
  refine ⟨s.column, congrArg (Option.map Series.column) hs, rfl, ?_⟩
  exact Series.breaksField_eq_false.1 (h.valid s (List.mem_of_find?_eq_some hs))

theorem IsOf.field? (h : b.IsOf σ) {c : Column} (hc : b.column? n = some c) :
    ∃ f, σ.field? n = some f := by
  obtain ⟨f, hf, -⟩ := Expr.field?_schema hc
  exact ⟨f, h.schema ▸ hf⟩

theorem IsOf.restrict (h : b.IsOf σ) (names : List String) :
    (b.restrict names).IsOf (σ.filter fun f => names.contains f.name) := by
  refine ⟨?_, fun s hs => h.valid s (List.mem_filter.1 hs).1⟩
  rw [← h.schema, Batch.schema, Batch.schema, List.filter_map]
  rfl

theorem IsOf.slice (h : b.IsOf σ) (start count : Nat) : (b.slice start count).IsOf σ := by
  constructor
  · rw [← h.schema, Batch.schema, Batch.schema, Batch.slice, List.map_map]
    rfl
  · intro s hs
    obtain ⟨t, ht, rfl⟩ := List.mem_map.1 hs
    refine Series.breaksField_eq_false.2 fun hn => ?_
    have hfull := Column.hasNulls_eq_false.1 (Series.breaksField_eq_false.1 (h.valid t ht) hn)
    exact Column.hasNulls_eq_false.2 (hfull.imp_right fun hfull x hx =>
      hfull x (List.mem_of_mem_drop (List.mem_of_mem_take hx)))

theorem IsOf.piecesFrom (h : b.IsOf σ) {size fuel start : Nat}
    (hu : u ∈ b.piecesFrom size fuel start) :
    u.IsOf σ := by
  induction fuel generalizing start with
  | zero => cases hu
  | succ fuel ih =>
    unfold Batch.piecesFrom at hu
    split at hu
    · rcases List.mem_cons.1 hu with rfl | hu
      · exact h.slice start size
      · exact ih hu
    · cases hu

theorem IsOf.pieces (h : b.IsOf σ) {size : Nat} (hu : u ∈ b.pieces size) : u.IsOf σ := by
  unfold Batch.pieces at hu
  split at hu
  · rw [List.mem_singleton.1 hu]
    exact h
  · exact h.piecesFrom hu

theorem IsOf.chunks (h : b.IsOf σ) {size : Option Nat} (hu : u ∈ b.chunks size) : u.IsOf σ := by
  unfold Batch.chunks at hu
  split at hu
  · cases hu
  · split at hu
    · exact h.pieces hu
    · rw [List.mem_singleton.1 hu]
      exact h

theorem isOf_concat {bs : List Batch} (h : ∀ b ∈ bs, b.IsOf σ) : (concat σ bs).IsOf σ := by
  refine ⟨schema_concat σ bs, fun s hs => ?_⟩
  obtain ⟨⟨f, i⟩, hf, rfl⟩ := List.mem_map.1 hs
  clear hs
  replace hf : σ[i]? = some f := List.mem_zipIdx_iff_getElem?.1 hf
  refine Series.breaksField_eq_false.2 fun hn => Column.hasNulls_eq_false.2 ?_
  by_cases ht : f.type = .null
  · exact .inl ht
  -- every cell of the joined column is one of the column at that place in some batch
  refine .inr fun x hx => ?_
  obtain ⟨b, hb, hx⟩ := List.mem_flatMap.1 hx
  rw [← (h b hb).schema, Batch.schema, List.getElem?_map] at hf
  obtain ⟨s, hs, rfl⟩ := Option.map_eq_some_iff.1 hf
  have hfull := Column.hasNulls_eq_false.1
    (Series.breaksField_eq_false.1 ((h b hb).valid s (List.mem_of_getElem? hs)) hn)
  simp only [hs, Series.field, ↓reduceDIte] at hx
  exact hfull.resolve_left ht x hx

end Batch

namespace ParquetOptions

variable (o : ParquetOptions) {σ : Schema} {b : Batch}

theorem name_field (f : Field) : (o.field f).name = f.name := by
  unfold field
  split <;> rfl

theorem field_series (s : Series) : (o.series s).field = o.field s.field := by
  by_cases he : o.encodes s.name s.column.type = true
  · rw [series, if_pos he, field, Series.field, Series.field, if_pos he]
    rfl
  · rw [series, if_neg he, field, Series.field, if_neg he]

theorem breaksField_series {s : Series} (h : s.breaksField = false) :
    (o.series s).breaksField = false := by
  unfold series
  split
  · rename_i he
    rw [Series.breaksField_eq_false] at h ⊢
    intro hn
    refine Column.hasNulls_eq_false.2 (.inr ?_)
    refine (Column.hasNulls_eq_false.1 (h hn)).resolve_left fun ht => ?_
    rw [encodes, ht, Bool.and_eq_true] at he
    cases he.2
  · exact h

theorem isOf_batch (h : b.IsOf σ) : (o.batch b).IsOf (o.schema σ) := by
  constructor
  · rw [← h.schema, Batch.schema, Batch.schema, schema, batch, List.map_map, List.map_map]
    exact List.map_congr_left fun s _ => o.field_series s
  · intro s hs
    obtain ⟨t, ht, rfl⟩ := List.mem_map.1 hs
    exact o.breaksField_series (h.valid t ht)

theorem schema_filter (σ : Schema) (names : List String) :
    (o.schema σ).filter (fun f => names.contains f.name) =
    o.schema (σ.filter fun f => names.contains f.name) := by
  rw [schema, schema, List.filter_map]
  congr 2
  funext f
  rw [Function.comp_apply, name_field]

end ParquetOptions

def FileImage.IsValid : FileImage → Prop
  | parquet f => ∀ g ∈ f.groups, g.rows.IsOf f.schema
  | ipc f => ∀ b ∈ f.batches, b.IsOf f.schema
  | raw _ => True

structure OpenFile.Decodes (file : OpenFile) : Prop where
  readable : file.columnFault = none
  valid : file.image.IsValid

namespace Format

variable {file : OpenFile} {request : ReadRequest} {names : List String} {physical : Schema}

theorem read_parquet {o : ParquetOptions} (hd : file.Decodes)
    (hi : (parquet o).inspect file = .ok physical) (hc : request.columns = some names) :
    ∃ bs : List Batch, (parquet o).read file request = .ok (bs.map .ok) ∧
      ∀ b ∈ bs, b.IsOf (physical.filter fun f => names.contains f.name) := by
  obtain ⟨f, hf, hi⟩ := bind_eq_ok.1 hi
  cases hi
  have himage := ParquetFile.image_of_ofFile hf
  have hvalid := hd.valid
  rw [himage] at hvalid
  have hrows : (Batch.concat f.schema ((f.selected o request.predicate).map fun g => g.1.rows)).IsOf
    f.schema := by
    refine Batch.isOf_concat fun b hb => ?_
    obtain ⟨g, hg, rfl⟩ := List.mem_map.1 hb
    exact hvalid g.1 (ParquetFile.mem_selected hg)
  have hbatch := o.isOf_batch (hrows.restrict names)
  rw [← o.schema_filter] at hbatch
  refine ⟨Batch.chunks _ (some (o.batchSize.getD request.batchSize)), ?_,
    fun b hb => hbatch.chunks hb⟩
  refine bind_eq_ok.2 ⟨f, hf, ?_⟩
  rw [hd.readable, hc]
  rfl

theorem read_ipc (hd : file.Decodes) (hi : ipc.inspect file = .ok physical)
    (hc : request.columns = some names) :
    ∃ bs : List Batch, ipc.read file request = .ok (bs.map .ok) ∧
      ∀ b ∈ bs, b.IsOf (physical.filter fun f => names.contains f.name) := by
  obtain ⟨f, hf, hi⟩ := bind_eq_ok.1 hi
  cases hi
  have himage := IpcFile.image_of_ofFile hf
  have hvalid := hd.valid
  rw [himage] at hvalid
  refine ⟨_, bind_eq_ok.2 ⟨f, hf, rfl⟩, fun b hb => ?_⟩
  obtain ⟨whole, hwhole, hb⟩ := List.mem_flatMap.1 hb
  rw [hc] at hb
  exact ((hvalid whole hwhole).restrict names).pieces hb

theorem read_of_decodes {format : Format} (hd : file.Decodes)
    (hi : format.inspect file = .ok physical) (hc : request.columns = some names) :
    ∃ bs : List Batch, format.read file request = .ok (bs.map .ok) ∧
      ∀ b ∈ bs, b.IsOf (physical.filter fun f => names.contains f.name) := by
  cases format with
  | parquet o => exact read_parquet hd hi hc
  | ipc => exact read_ipc hd hi hc

end Format

end TableScan
