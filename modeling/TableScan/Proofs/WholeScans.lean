import TableScan.Proofs.Filtering
import TableScan.Proofs.Validity

namespace TableScan

/-- What a fragment has for the fields of a schema: values and columns of their types, and no nulls
where they allow none. -/
structure Fragment.Supplies (fr : Fragment) (σ : Schema) : Prop where
  value : ∀ f ∈ σ, ∀ v, fr.partition.boundTo? f.name = some v → v.isNull = false →
    v.dataType = f.type
  column : ∀ f ∈ σ, ∀ g, fr.physical.field? f.name = some g →
    g.type = f.type ∧ (f.nullable = false → g.nullable = false)
  valid : ∀ f ∈ σ, f.nullable = false → ∀ v, fr.partition.boundTo? f.name = some v →
    v.isNull = false
  present : ∀ f ∈ σ, f.nullable = false → fr.partition.boundTo? f.name = none →
    (fr.physical.field? f.name).isSome

theorem Column.cast_self {c : Column} {t : DataType} (h : c.type = t) : c.cast t = .ok c := by
  subst h
  rw [cast, castCells, dif_pos rfl]
  rfl

theorem Column.hasNulls_constant {v : Scalar} (h : v.isNull = false) (n : Nat) :
    (constant v n).hasNulls = false := by
  refine hasNulls_eq_false.2 (.inr fun x hx => ?_)
  rw [List.eq_of_mem_replicate hx]
  obtain ⟨t, value⟩ := v
  cases value with
  | none => cases h
  | some value => rfl

namespace Batch

theorem underField_of_column? {b : Batch} {f : Field} {c : Column} (h : b.column? f.name = some c) :
    (b.underField f).series = ⟨f.name, f.nullable, c, f.metadata⟩ := by
  unfold underField
  split
  · rename_i hc
    cases h.symm.trans hc
    rfl
  · rename_i hc
    cases h.symm.trans hc

theorem isOf_project {b : Batch} {σ : Schema}
    (h : ∀ f ∈ σ, ∃ c, b.column? f.name = some c ∧ c.type = f.type ∧
    (f.nullable = false → c.hasNulls = false)) : (b.project σ).IsOf σ := by
  constructor
  · rw [schema, project, ofSized, List.map_map, List.map_map]
    refine (List.map_congr_left fun f hf => ?_).trans (List.map_id σ)
    obtain ⟨c, hc, ht, -⟩ := h f hf
    rw [Function.comp_apply, Function.comp_apply, underField_of_column? hc, Series.field, ht]
    rfl
  · intro s hs
    obtain ⟨s', hs', rfl⟩ := List.mem_map.1 hs
    obtain ⟨f, hf, rfl⟩ := List.mem_map.1 hs'
    obtain ⟨c, hc, -, hfull⟩ := h f hf
    rw [underField_of_column? hc, Series.breaksField_eq_false]
    exact hfull

end Batch

namespace ScanTask

variable {t : ScanTask} {σ : Schema} {b : Batch} {f : Field}

/-- Whether a task yields all rows of its fragment under all fields of a schema. -/
structure IsWhole (t : ScanTask) (σ : Schema) : Prop where
  filter : t.filter = .true_
  dataset : t.context.dataset = σ
  projected : t.context.projected = σ

theorem IsWhole.needed (h : t.IsWhole σ) :
    t.needed = σ.map fun f => { f with nullable := true } := by
  rw [ScanTask.needed, h.dataset, h.projected, List.filter_eq_self.2 fun f hf => ?_]
  have hname : f.name ∈ σ.names := List.mem_map_of_mem hf
  simp [hname]

theorem IsWhole.mem_columns (h : t.IsWhole σ) (hf : f ∈ σ) (hfixed : t.fixed? f.name = none)
    {g : Field} (hg : t.fragment.physical.field? f.name = some g) : f.name ∈ t.columns := by
  have hneeded : f.name ∈ t.needed.names := by
    rw [h.needed, Schema.names, List.map_map]
    exact List.mem_map_of_mem hf
  exact List.mem_filter.2 ⟨hneeded, by simp [hg, hfixed]⟩

theorem field?_columns {n : String} (hn : n ∈ t.columns) :
    Schema.field? (t.fragment.physical.filter fun f => t.columns.contains f.name) n =
      t.fragment.physical.field? n :=
  find?_filter_name fun f hf => by simpa [hf] using hn

theorem field?_of_columns {n : String} {g : Field}
    (hg : Schema.field? (t.fragment.physical.filter fun f => t.columns.contains f.name) n =
      some g) :
    t.fragment.physical.field? n = some g := by
  have hname : g.name = n := Schema.name_of_field? hg
  have hmem := (List.mem_filter.1 (List.mem_of_find?_eq_some hg)).2
  exact (field?_columns (hname ▸ List.contains_iff_mem.1 hmem)).symm.trans hg

theorem IsWhole.gets (h : t.IsWhole σ) (hsup : t.fragment.Supplies σ)
    (hb : b.IsOf (t.fragment.physical.filter fun f => t.columns.contains f.name)) (hf : f ∈ σ) :
    ∃ c, t.Gets b.rows { f with nullable := true } (b.column? f.name) c ∧ c.type = f.type ∧
      (f.nullable = false → c.hasNulls = false) := by
  cases hfixed : t.fixed? f.name with
  | some v =>
    cases hn : v.isNull with
    | true =>
      refine ⟨_, .null hfixed hn, rfl, fun hr => ?_⟩
      rw [hsup.valid f hf hr v hfixed] at hn
      cases hn
    | false =>
      have htype := hsup.value f hf v hfixed hn
      have hcast : v.castTo f.type = .ok v := by rw [Scalar.castTo, if_pos htype]
      exact ⟨_, .fixed hfixed hn hcast, htype, fun _ => Column.hasNulls_constant hn b.rows⟩
  | none =>
    cases hc : b.column? f.name with
    | some c =>
      obtain ⟨g, hg⟩ := hb.field? hc
      obtain ⟨c', hc', htype, hfull⟩ := hb.column? hg
      cases hc.symm.trans hc'
      obtain ⟨hgt, hnull⟩ := hsup.column f hf g (field?_of_columns hg)
      have hcast : c.cast f.type = .ok c := Column.cast_self (htype.trans hgt)
      exact ⟨c, .file hfixed hcast, htype.trans hgt, fun hr => hfull (hnull hr)⟩
    | none =>
      refine ⟨_, .missing hfixed, rfl, fun hr => ?_⟩
      obtain ⟨g, hg⟩ := Option.isSome_iff_exists.1 (hsup.present f hf hr hfixed)
      obtain ⟨c, hc', -⟩ := hb.column? ((field?_columns (h.mem_columns hf hfixed hg)).trans hg)
      cases hc.symm.trans hc'

theorem IsWhole.process (h : t.IsWhole σ) (hsup : t.fragment.Supplies σ)
    (hσ : ∀ f ∈ σ, σ.field? f.name = some f)
    (hb : b.IsOf (t.fragment.physical.filter fun f => t.columns.contains f.name)) :
    ∃ u, t.process b = .ok u ∧ u.IsOf σ := by
  obtain ⟨w, hw⟩ : ∃ w, t.conform b = .ok w := by
    refine conform_of_gets fun f hf => ?_
    rw [h.needed] at hf
    obtain ⟨g, hg, rfl⟩ := List.mem_map.1 hf
    obtain ⟨c, hc, htype, -⟩ := h.gets hsup hb hg
    exact ⟨c, hc, htype⟩
  -- batches are brought to nullable fields; under those of the schema no null may be left
  have hproject : (w.project σ).IsOf σ := by
    refine Batch.isOf_project fun f hf => ?_
    have hneeded : t.needed.field? f.name = some { f with nullable := true } := by
      have hprojected : f.name ∈ t.context.projected.names := by
        rw [h.projected]
        exact List.mem_map_of_mem hf
      rw [needed_field? (.inr hprojected), h.dataset, hσ f hf]
      rfl
    obtain ⟨c, hcolumn, -, hc⟩ := column?_conform hw hneeded
    obtain ⟨c', hc', htype, hfull⟩ := h.gets hsup hb hf
    obtain rfl := hc.unique hc'
    exact ⟨c, hcolumn, htype, hfull⟩
  refine ⟨w.project σ, bind_eq_ok.2 ⟨w, hw, bind_eq_ok.2 ⟨w, ?_, ?_⟩⟩, hproject⟩
  · rw [Batch.satisfying, h.filter]
    rfl
  · rw [h.projected, Batch.checked_of_valid hproject.valid]
    rfl

theorem IsWhole.items (h : t.IsWhole σ) (hsup : t.fragment.Supplies σ)
    (hσ : ∀ f ∈ σ, σ.field? f.name = some f) {files : FileAccess} {file : OpenFile}
    (hfile : (t.fragment.origin.openFile files).result = .ok file) (hd : file.Decodes)
    (hi : t.fragment.format.inspect file = .ok t.fragment.physical) :
    ∀ item ∈ t.items files, ∃ b, item = .ok b ∧ b.IsOf σ := by
  have hcolumns : t.request.columns = some t.columns := rfl
  obtain ⟨bs, hread, hbs⟩ := Format.read_of_decodes hd hi hcolumns
  have hitems : t.items files = t.processAll (bs.map .ok) := by
    have hopen : ((t.fragment.origin.openFile files).result >>= fun file =>
      t.fragment.format.read file t.request) =
        .ok (bs.map .ok) := bind_eq_ok.2 ⟨file, hfile, hread⟩
    rw [ScanTask.items, itemsOf, hopen]
  intro item hitem
  rw [hitems] at hitem
  obtain ⟨_, hmem, rfl⟩ := List.mem_map.1 (mem_untilFailure hitem).1
  obtain ⟨b, hb, rfl⟩ := List.mem_map.1 hmem
  exact h.process hsup hσ (hbs b hb)

end ScanTask

namespace Source

theorem filterMapM_candidate_true (fragments : List Fragment) :
    fragments.filterMapM (candidate .true_) = .ok (fragments.map fun fr => (fr, .true_)) := by
  refine filterMapM_eq_ok.2 ⟨fragments.map fun fr => some (fr, .true_), ?_, by simp⟩
  exact List.forall₂_map_right_iff.2 (List.forall₂_same.2 fun fr _ => rfl)

mutual

theorem candidates_true (s : Source) :
    s.candidates .true_ = .ok (s.fragments.map fun fr => (fr, .true_)) := by
  match s with
  | leaf _ _ _ fragments => exact bind_eq_ok.2 ⟨.true_, rfl, filterMapM_candidate_true fragments⟩
  | tree _ _ sources => exact bind_eq_ok.2 ⟨.true_, rfl, candidatesOf_true sources⟩

theorem candidatesOf_true (sources : List Source) : candidates.candidatesOf .true_ sources =
    .ok ((fragments.fragmentsOf sources).map fun fr => (fr, .true_)) := by
  match sources with
  | [] => rfl
  | s :: rest =>
    refine bind_eq_ok.2 ⟨_, candidates_true s, bind_eq_ok.2 ⟨_, candidatesOf_true rest, ?_⟩⟩
    rw [fragments.fragmentsOf, List.map_append]
    rfl

end

end Source

namespace Scan

theorem plan_true {s : Scan} (h : s.filter = .true_) :
    s.plan = .ok (s.dataset.fragments.map fun fr => s.task (fr, .true_)) := by
  refine bind_eq_ok.2 ⟨s.dataset.sources.map fun source => source.fragments.map fun fr =>
    s.task (fr, .true_), ?_, ?_⟩
  · refine mapM_eq_ok.2 (List.forall₂_map_right_iff.2 (List.forall₂_same.2 fun source _ => ?_))
    have hcandidates : source.candidates s.filter =
        .ok (source.fragments.map fun fr => (fr, .true_)) := by
      rw [h, source.candidates_true]
    refine bind_eq_ok.2 ⟨_, hcandidates, ?_⟩
    rw [List.map_map]
    rfl
  · rw [Dataset.fragments, List.map_flatMap, List.flatMap_def]
    rfl

end Scan

theorem Schema.project_names {σ : Schema} (h : ∀ f ∈ σ, σ.field? f.name = some f) :
    σ.project σ.names = .ok σ := by
  refine mapM_eq_ok.2 (List.forall₂_map_left_iff.2 (List.forall₂_same.2 fun f hf => ?_))
  rw [h f hf]

namespace Dataset

variable {d : Dataset} {files : FileAccess}

/--
Whether files and paths settle every field of a dataset: its name stands for it alone and occurs
once in a file; paths give it no values that would have to be encoded and, if it allows no nulls, no
nulls; and if they do not give it at all, a file does.
-/
structure IsSettled (d : Dataset) : Prop where
  distinct : ∀ f ∈ d.schema, d.schema.field? f.name = some f
  names : ∀ fr ∈ d.fragments, fr.physical.names.Nodup
  plain : ∀ fr ∈ d.fragments, ∀ f ∈ d.schema, ∀ v, fr.partition.boundTo? f.name = some v →
    v.isNull = false →
    f.type.plain = f.type
  valid : ∀ fr ∈ d.fragments, ∀ f ∈ d.schema, f.nullable = false →
    ∀ v, fr.partition.boundTo? f.name = some v → v.isNull = false
  stored : ∀ fr ∈ d.fragments, ∀ f ∈ d.schema, f.nullable = false →
    fr.partition.boundTo? f.name = none →
    ∃ other ∈ d.fragments, (other.physical.field? f.name).isSome

variable {root : String} {format : Format} {options : DiscoveryOptions}

theorem opens_discover (h : (discover files root format options).result = .ok d) (fr : Fragment)
    (hfr : fr ∈ d.fragments) : ∃ file, (fr.origin.openFile files).result = .ok file ∧
      fr.format.inspect file = .ok fr.physical := by
  obtain ⟨found, hfound, rfl⟩ := discover_eq_ok h
  obtain ⟨paths, scheme, -, -, hfragments, -⟩ := Discovery.inspect_found.1 hfound
  rw [fragments, List.flatMap_singleton] at hfr
  obtain ⟨path, -, hfragment⟩ := forall₂_mem hfragments hfr
  exact (Discovery.fragment_eq_ok hfragment).2

theorem supplies_discover (h : (discover files root format options).result = .ok d)
    (hs : options.schema = none) (hp : options.partitioning.IsUsual) (hd : d.IsSettled) :
    ∀ fr ∈ d.fragments, fr.Supplies d.schema := by
  have hfits := (isPlain_discover h hs hp).fits
  obtain ⟨u, partition, hunify, happend⟩ : ∃ u partition,
      Schema.unify (d.fragments.map (·.physical)) = .ok u ∧
      u.appendPartition partition = .ok d.schema := by
    obtain ⟨found, hfound, rfl⟩ := discover_eq_ok h
    obtain ⟨paths, scheme, -, -, -, hschema⟩ := Discovery.inspect_found.1 hfound
    obtain ⟨u, hu, happend⟩ := Discovery.schemaOf_parts hs hschema
    refine ⟨u, scheme.schema, ?_, happend⟩
    rw [fragments, List.flatMap_singleton]
    exact hu
  have typeOf_eq (f : Field) (hf : f ∈ d.schema) : d.schema.typeOf f.name = f.type :=
    Schema.typeOf_of_field? (hd.distinct f hf)
  -- a field that a file has is that of the unified files, which the scheme does not change
  have unified (fr : Fragment) (hfr : fr ∈ d.fragments) (f : Field) (hf : f ∈ d.schema) (g : Field)
      (hg : fr.physical.field? f.name = some g) : u.field? f.name = some f := by
    have hname : g.name = f.name := Schema.name_of_field? hg
    obtain ⟨k, hk, -⟩ :=
      Schema.typeOf_unify hunify (List.mem_map_of_mem hfr) (List.mem_of_find?_eq_some hg)
    rw [hname] at hk
    rw [hk, ← (Schema.field?_appendPartition happend f.name).1 k hk, hd.distinct f hf]
  intro fr hfr
  refine ⟨fun f hf v hv hn => ?_, fun f hf g hg => ⟨?_, fun hr => ?_⟩, hd.valid fr hfr,
    fun f hf hr hv => ?_⟩
  · have hfixes := (hfits fr hfr).fixes
    rw [(hfixes.types f.name).2 v ((hfixes.value f.name).trans hv) hn, typeOf_eq f hf,
      hd.plain fr hfr f hf v hv hn]
  · rw [← typeOf_eq f hf, (hfits fr hfr).typed f.name g hg]
  · have hname : g.name = f.name := Schema.name_of_field? hg
    exact (Schema.required_unify hunify (unified fr hfr f hf g hg) hr).1 _
      (List.mem_map_of_mem hfr) g
      (List.mem_of_find?_eq_some hg) hname
  · obtain ⟨other, hother, hsome⟩ := hd.stored fr hfr f hf hr hv
    obtain ⟨g, hg⟩ := Option.isSome_iff_exists.1 hsome
    have hnodup (s : Schema) (hs : s ∈ d.fragments.map (·.physical)) : s.names.Nodup := by
      obtain ⟨fr, hfr, rfl⟩ := List.mem_map.1 hs
      exact hd.names fr hfr
    exact Option.isSome_iff_exists.2
      (Schema.field?_of_required hunify hnodup (unified other hother f hf g hg) hr
      (List.mem_map_of_mem hfr))

end Dataset

namespace Scan

variable {d : Dataset} {files : FileAccess} {o : ScanOptions} {root : String} {format : Format}
  {options : DiscoveryOptions}

theorem build_all (hd : ∀ f ∈ d.schema, d.schema.field? f.name = some f) (ho : o.check = .ok ()) :
    build d ⟨.true_, none, o⟩ = .ok ⟨d, .true_, d.schema, o⟩ :=
  bind_eq_ok.2 ⟨(), ho, bind_eq_ok.2 ⟨_, rfl, bind_eq_ok.2 ⟨_, Schema.project_names hd, rfl⟩⟩⟩

/--
A discovered dataset can be scanned. Every file is read, nothing fails, and every batch is of the
schema, with no nulls where a field allows none.
-/
theorem resultsOf_discover (h : (Dataset.discover files root format options).result = .ok d)
    (hschema : options.schema = none) (hpartitioning : options.partitioning.IsUsual)
    (hd : d.IsSettled)
    (hfiles : ∀ fr ∈ d.fragments, ∀ file, (fr.origin.openFile files).result = .ok file →
      file.Decodes) (ho : o.check = .ok ()) :
      ∃ s tasks, build d ⟨.true_, none, o⟩ = .ok s ∧ s.plan = .ok tasks ∧
      tasks.map (·.fragment) = d.fragments ∧
      ∀ item ∈ ScanTask.resultsOf files tasks, ∃ b, item = .ok b ∧ b.IsOf d.schema := by
  have hsupplies := Dataset.supplies_discover h hschema hpartitioning hd
  refine ⟨_, _, build_all hd.distinct ho, plan_true rfl, ?_, fun item hitem => ?_⟩
  · rw [List.map_map]
    exact List.map_id d.fragments
  obtain ⟨t, ht, hitem⟩ := List.mem_flatMap.1 hitem
  obtain ⟨fr, hfr, rfl⟩ := List.mem_map.1 ht
  obtain ⟨file, hfile, hinspect⟩ := Dataset.opens_discover h fr hfr
  obtain ⟨item, hmem, rfl⟩ := List.mem_map.1 hitem
  have hwhole : (task ⟨d, .true_, d.schema, o⟩ (fr, .true_)).IsWhole d.schema := ⟨rfl, rfl, rfl⟩
  obtain ⟨b, rfl, hb⟩ :=
    hwhole.items (hsupplies fr hfr) hd.distinct hfile (hfiles fr hfr file hfile) hinspect item hmem
  exact ⟨b, rfl, hb⟩

theorem decodes_keyed {directories : List String} {pairs : List (String × Scalar)} {t : DataType}
    {fr : Fragment} {file : OpenFile} (hfr : fr ∈ (ofKeys pairs t).fragments)
    (hfile : (fr.origin.openFile (keyed directories)).result = .ok file) : file.Decodes := by
  have himage := image_keyedBy hfr hfile
  obtain ⟨source, hsource, hfr⟩ := List.mem_flatMap.1 hfr
  cases List.mem_singleton.1 hsource
  obtain ⟨pair, -, rfl⟩ := List.mem_map.1 hfr
  cases hfile
  refine ⟨rfl, ?_⟩
  rw [himage]
  intro b hb
  rw [List.mem_singleton.1 hb]
  exact ⟨rfl, by decide⟩

theorem isSettled_keyed : (ofKeys oneAndTwo (.int .int32)).IsSettled := by
  have hplain : ∀ f ∈ (ofKeys oneAndTwo (.int .int32)).schema, f.type.plain = f.type := by decide
  have hnullable : ∀ f ∈ (ofKeys oneAndTwo (.int .int32)).schema, f.nullable ≠ false := by decide
  constructor
  · decide
  · decide
  · exact fun _ _ f hf _ _ _ => hplain f hf
  · exact fun _ _ f hf hr => absurd hr (hnullable f hf)
  · exact fun _ _ f hf hr => absurd hr (hnullable f hf)

theorem resultsOf_discover_keyed : ∃ d s tasks,
    (Dataset.discover (keyed ["k=1", "k=2"]) "" .ipc (underKey (.int .int32))).result = .ok d ∧
    build d .default_ = .ok s ∧ s.plan = .ok tasks ∧ tasks.map (·.fragment) = d.fragments ∧
    ∀ item ∈ ScanTask.resultsOf (keyed ["k=1", "k=2"]) tasks,
      ∃ b, item = .ok b ∧ b.IsOf d.schema := by
  have hd := discover_keyed oneAndTwo (.int .int32) rfl (by decide) (List.cons_ne_nil _ _)
  obtain ⟨s, tasks, h⟩ := resultsOf_discover hd rfl trivial isSettled_keyed
    (fun fr hfr file hfile => decodes_keyed hfr hfile) (o := .default_) rfl
  exact ⟨_, s, tasks, hd, h⟩

/-- A key that is to be a text of a dictionary. -/
theorem resultsOf_discover_encoded : ∃ d s tasks e,
    (Dataset.discover (keyed ["k=b"]) "" .ipc (underKey (.dictionary .int32 .utf8))).result =
      .ok d ∧
    (∀ fr ∈ d.fragments, ∀ file, (fr.origin.openFile (keyed ["k=b"])).result = .ok file →
      file.Decodes) ∧
    build d .default_ = .ok s ∧ s.plan = .ok tasks ∧
    ScanTask.resultsOf (keyed ["k=b"]) tasks = [.error e] := by
  have hd := discover_keyed [("k=b", .ofText "b")] (.dictionary .int32 .utf8) rfl
    (by decide +kernel) (List.cons_ne_nil _ _)
  exact ⟨_, _, _, _, hd, fun fr hfr file hfile => decodes_keyed hfr hfile, rfl, rfl, rfl⟩

end Scan

end TableScan
