import TableScan.Proofs.Partitions
import TableScan.Proofs.Skipping
import TableScan.Proofs.Unification

namespace TableScan

namespace Accounted

theorem result_mapM {α β : Type} (f : α → Accounted β) (as : List α) :
    (as.mapM f).result = as.mapM fun a => (f a).result := by
  have run (as : List α) (bs : List β) :
      (List.mapM.loop f as bs).result = List.mapM.loop (fun a => (f a).result) as bs := by
    induction as generalizing bs with
    | nil => rfl
    | cons a as ih => simp only [List.mapM.loop, result_bind, ih]
  exact run as []

theorem result_filterM {α : Type} (f : α → Accounted Bool) (as : List α) :
    (as.filterM f).result = as.filterM fun a => (f a).result := by
  have run (as acc : List α) :
      (as.filterAuxM f acc).result = as.filterAuxM (fun a => (f a).result) acc := by
    induction as generalizing acc with
    | nil => rfl
    | cons a as ih => simp only [List.filterAuxM, result_bind, ih]
  simp only [List.filterM, result_bind, run]
  rfl

end Accounted

/-- Whether a schema has the columns of a fragment's file as they are read, and the fields its path
fixes. -/
structure Fragment.Fits (fr : Fragment) (files : FileAccess) (s : Schema) : Prop where
  fixes : fr.partition.Fixes s
  inspected : ∀ file, (fr.origin.openFile files).result = .ok file → fr.Describes file
  typed : ∀ n f, fr.physical.field? n = some f → s.typeOf n = f.type

namespace Fragment.Fits

variable {fr : Fragment} {files : FileAccess} {s : Schema} {file : OpenFile} {e u : Expr}

theorem free (h : fr.Fits files s) (hn : Narrowed e [.true_, fr.partition] u) :
    ∀ n ∈ u.fields, fr.partition.boundTo? n = none := fun n hmem =>
  (h.fixes.value n).symm.trans ((hn.fields_subset hmem).2 _ (by simp))

theorem suits (h : fr.Fits files s) (hfile : (fr.origin.openFile files).result = .ok file)
    (hu : file.image.IsUniform) : file.image.Suits fr s u := by
  unfold FileImage.Suits
  split
  · rename_i o f hformat himage
    have hphysical := (h.inspected file hfile).physical hformat himage
    rw [himage] at hu
    refine fun g hg => RowGroup.suits_of_widens fun n _ p hrange => ?_
    obtain ⟨_, field, _, -, hfield, hp, -⟩ := hrange
    rw [hu g hg, ← hphysical] at hfield
    rw [h.typed n field hfield, hp]
    simp [ScalarType.widens]
  · trivial

end Fragment.Fits

namespace Discovery

variable {d : Discovery} {files : FileAccess} {scheme : Scheme} {s : Schema}

theorem partition_eq_ok {path : String} {p : Expr} (hs : scheme.IsUsual)
    (h : d.partition scheme path = .ok p) :
    ∃ pairs : List (String × Option Scalar), p = .all (pairs.map Expr.fixing) ∧
      scheme.schema.Reads pairs := by
  unfold partition at h
  split at h
  · exact Scheme.parse_eq_ok hs h
  · cases h
    exact ⟨[], rfl, .of_mem fun n v h => absurd h List.not_mem_nil⟩

theorem schemaOf_parts {fragments : List Fragment} (hs : d.options.schema = none)
    (h : d.schemaOf scheme fragments = .ok s) :
    ∃ u, Schema.unify (fragments.map (·.physical)) = .ok u ∧
      u.appendPartition scheme.schema = .ok s := by
  unfold schemaOf at h
  rw [hs] at h
  exact bind_eq_ok.1 h

theorem schemaOf_eq_ok {fragments : List Fragment} (hs : d.options.schema = none)
    (h : d.schemaOf scheme fragments = .ok s) :
    (∀ n f, scheme.schema.field? n = some f → ∃ g, s.field? n = some g ∧ g.type = f.type) ∧
      ∀ fr ∈ fragments, ∀ n f, fr.physical.field? n = some f → s.typeOf n = f.type := by
  obtain ⟨u, hu, h⟩ := schemaOf_parts hs h
  refine ⟨fun n => (Schema.field?_appendPartition h n).2, fun fr hfr n f hf => ?_⟩
  obtain rfl : f.name = n := Schema.name_of_field? hf
  obtain ⟨g, hg, ht⟩ :=
    Schema.typeOf_unify hu (List.mem_map_of_mem hfr) (List.mem_of_find?_eq_some hf)
  rw [Schema.typeOf_of_field? ((Schema.field?_appendPartition h _).1 g hg), ht]

theorem fragment_eq_ok {path : String} {fr : Fragment}
    (h : (d.fragment files scheme path).result = .ok fr) :
    d.partition scheme path = .ok fr.partition ∧
    ∃ file, (fr.origin.openFile files).result = .ok file ∧
      fr.format.inspect file = .ok fr.physical := by
  simp only [fragment, Accounted.result_bind] at h
  obtain ⟨p, hp, h⟩ := bind_eq_ok.1 h
  obtain ⟨file, hfile, h⟩ := bind_eq_ok.1 h
  obtain ⟨physical, hphysical, h⟩ := bind_eq_ok.1 h
  cases h
  exact ⟨hp, file, hfile, hphysical⟩

theorem inspect_found {i : Inspection} : (d.inspect files).result = .ok i ↔
    ∃ paths scheme, (d.paths files).result = .ok paths ∧
      d.options.partitioning.resolve (paths.filterMap d.partitionPath?) = .ok scheme ∧
      List.Forall₂ (fun path fr => (d.fragment files scheme path).result =
        .ok fr) paths i.fragments ∧
      d.schemaOf scheme i.fragments = .ok i.schema := by
  simp only [inspect, Accounted.result_bind]
  constructor
  · intro h
    obtain ⟨paths, hpaths, h⟩ := bind_eq_ok.1 h
    obtain ⟨scheme, hscheme, h⟩ := bind_eq_ok.1 h
    obtain ⟨fragments, hfragments, h⟩ := bind_eq_ok.1 h
    obtain ⟨s, hschema, h⟩ := bind_eq_ok.1 h
    cases h
    rw [Accounted.result_mapM] at hfragments
    exact ⟨paths, scheme, hpaths, hscheme, mapM_eq_ok.1 hfragments, hschema⟩
  · rintro ⟨paths, scheme, hpaths, hscheme, hfragments, hschema⟩
    rw [← mapM_eq_ok, ← Accounted.result_mapM] at hfragments
    exact bind_eq_ok.2 ⟨_, hpaths, bind_eq_ok.2 ⟨_, hscheme, bind_eq_ok.2 ⟨_, hfragments,
      bind_eq_ok.2 ⟨_, hschema, rfl⟩⟩⟩⟩

theorem inspect_eq_ok {i : Inspection} (hs : d.options.schema = none)
    (hp : d.options.partitioning.IsUsual) (h : (d.inspect files).result = .ok i) :
    ∀ fr ∈ i.fragments, fr.Fits files i.schema := by
  obtain ⟨paths, scheme, -, hscheme, hfragments, hschema⟩ := inspect_found.1 h
  obtain ⟨hfields, htyped⟩ := schemaOf_eq_ok hs hschema
  intro fr hfr
  obtain ⟨path, -, hfragment⟩ := forall₂_mem hfragments hfr
  obtain ⟨hpartition, file, hfile, hphysical⟩ := fragment_eq_ok hfragment
  obtain ⟨pairs, hpairs, hreads⟩ :=
    partition_eq_ok (Partitioning.isUsual_resolve hp hscheme) hpartition
  refine ⟨hpairs ▸ hreads.fixes hfields, fun file' hfile' => ?_, htyped _ hfr⟩
  cases hfile.symm.trans hfile'
  exact hphysical

end Discovery

namespace Dataset

variable {d : Dataset} {files : FileAccess}

/-- A dataset of one source that says nothing of its fragments, whose schema they all fit. -/
structure IsPlain (d : Dataset) (files : FileAccess) : Prop where
  way : ∀ fr ps, (fr, ps) ∈ d.places → ps = [.true_, fr.partition]
  fits : ∀ fr ∈ d.fragments, fr.Fits files d.schema

theorem discover_eq_ok {root : String} {format : Format} {options : DiscoveryOptions}
    (h : (discover files root format options).result = .ok d) :
    ∃ found, (Discovery.inspect ⟨.ofRoot root, format, options⟩ files).result = .ok found ∧
      d = ⟨[found.source], found.schema⟩ := by
  simp only [discover, Accounted.result_bind] at h
  obtain ⟨found, hfound, h⟩ := bind_eq_ok.1 h
  exact ⟨found, hfound, (Except.ok.inj h).symm⟩

theorem isPlain_discover {root : String} {format : Format} {options : DiscoveryOptions}
    (h : (discover files root format options).result = .ok d) (hs : options.schema = none)
    (hp : options.partitioning.IsUsual) : d.IsPlain files := by
  obtain ⟨found, hfound, rfl⟩ := discover_eq_ok h
  have hfits := Discovery.inspect_eq_ok hs hp hfound
  refine ⟨fun fr ps hplace => ?_, fun fr hfr => ?_⟩
  · simp only [places, List.flatMap_singleton] at hplace
    obtain ⟨fr', -, hplace⟩ := List.mem_map.1 hplace
    cases hplace
    rfl
  · simp only [fragments, List.flatMap_singleton] at hfr
    exact hfits fr hfr

end Dataset

namespace KeptDiscovery

variable {k : KeptDiscovery} {access : FileAccess} {found : Inspection} {e : Failure}

def after (k : KeptDiscovery) (times : List FileAccess) : KeptDiscovery :=
  times.foldl (fun k access => (k.inspection access).2) k

theorem inspection_of_found (h : k.found? = some found) :
    k.inspection access = (pure found, k) := by
  rw [inspection, h]

theorem found_of_inspection (h : (k.inspection access).1.result = .ok found) :
    (k.inspection access).2.found? = some found := by
  unfold inspection at h ⊢
  split at h
  · rename_i old hold
    cases h
    exact hold
  · exact congrArg Except.toOption h

theorem inspection_of_error (h : (k.inspection access).1.result = .error e) :
    (k.inspection access).2 = k := by
  obtain ⟨d, found?⟩ := k
  cases found? with
  | some found => cases h
  | none => exact congrArg (KeptDiscovery.mk d) (congrArg Except.toOption h)

theorem found_after (h : k.found? = some found) (times : List FileAccess) :
    (k.after times).found? = some found := by
  induction times generalizing k with
  | nil => exact h
  | cons access times ih => exact ih ((congrArg (·.2.found?) (inspection_of_found h)).trans h)

/-- The source is the one whose schema was told, however often the files were looked at since and
whatever has become of them, and no file is touched for it again. -/
theorem finish_of_inspect {schema : Schema} (h : (k.inspect access).1.result = .ok schema)
    (times : List FileAccess) (access' : FileAccess) :
    ∃ source : Source, (((k.inspect access).2.after times).finish access').1 = pure source ∧
      source.schema = schema := by
  obtain ⟨found, hfound, rfl⟩ : ∃ found, (k.inspection access).1.result = .ok found ∧
      found.schema = schema := by
    rw [inspect, Accounted.result_map] at h
    exact map_eq_ok.1 h
  have hkept := found_after (found_of_inspection hfound) times
  refine ⟨found.source, ?_, rfl⟩
  change (·.source) <$> ((((k.inspection access).2.after times).inspection access').1) = _
  rw [inspection_of_found hkept]
  rfl

end KeptDiscovery

end TableScan
