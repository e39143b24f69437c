import TableScan.Proofs.Discovery

/-!
Filtered scans. A scan of a discovered dataset yields the rows on which its filter is true, of those
that a scan without a filter yields: what paths say, what statistics say and what is evaluated on
columns agree.
-/

namespace TableScan

namespace Fragment

def rows (fr : Fragment) (files : FileAccess) (s : Schema) : List Tuple :=
  match (fr.origin.openFile files).result with
  | .ok file => (fr.format.whole file.image).map (fr.seen s)
  | .error _ => []

variable {fr : Fragment} {files : FileAccess} {s : Schema} {q : Tuple}

theorem rows_of_open {file : OpenFile} (h : (fr.origin.openFile files).result = .ok file) :
    fr.rows files s = (fr.format.whole file.image).map (fr.seen s) := by
  simp only [rows, h]

theorem mem_rows (h : q ∈ fr.rows files s) : ∃ p, q = fr.seen s p := by
  unfold rows at h
  split at h
  · obtain ⟨p, -, rfl⟩ := List.mem_map.1 h
    exact ⟨p, rfl⟩
  · cases h

end Fragment

def Tuple.IsWhole (p : Tuple) (s : Schema) : Prop :=
  ∀ n f, s.field? n = some f → ∃ c, p n = some c ∧ c.1 = f.type

theorem Narrowed.eq_true {ps : List Expr} {e u : Expr} (h : Narrowed e ps u) (he : e = .true_) :
    u = .true_ := by
  induction h with
  | nil => exact he
  | cons hs _ ih =>
    subst he
    cases hs
    exact ih rfl

namespace Scan

variable {d : Dataset} {r : ScanRequest} {s : Scan} {files : FileAccess} {x : Fragment × List Expr}
  {bs : List Batch} {o : ScanOptions}

theorem tuples_of_yields_all (h : build d ⟨.true_, none, o⟩ = .ok s) (hu : d.IsUniform files)
    (hx : x ∈ d.places) (hy : s.Yields files x bs) :
    (∀ q ∈ x.1.rows files d.schema, q.IsWhole d.schema) ∧
    bs.flatMap Batch.tuples = x.1.rows files d.schema := by
  obtain ⟨rfl, hfold, -⟩ := build_eq_ok h
  have htrue : s.filter = .true_ :=
    (Except.ok.inj (show Except.ok .true_ = Except.ok s.filter from hfold)).symm
  cases hy with
  | ruledOut hn hsat =>
    cases hn.eq_true htrue
    cases hsat
  | @scanned fr ps u _ hn hitems =>
    cases hn.eq_true htrue
    obtain ⟨file, hfile, hcells, heq⟩ :=
      ScanTask.tuples_items hitems rfl rfl (hu fr (Dataset.mem_places hx).1)
    simp only [fragment_task, filter_task, context_task] at hfile hcells heq
    rw [Format.stored_of_isTrue rfl] at hcells heq
    simp only [Fragment.rows_of_open hfile]
    have whole (p : Tuple) (hp : p ∈ fr.format.whole file.image) :
        (fr.seen s.dataset.schema p).IsWhole s.dataset.schema :=
      fun n f hf => hcells p hp n f hf (.inr (mem_projected h rfl hf))
    refine ⟨fun q hq => ?_, heq.trans ?_⟩
    · obtain ⟨p, hp, rfl⟩ := List.mem_map.1 hq
      exact whole p hp
    · rw [List.filter_eq_self.2 fun p _ => Batch.satisfies_true p, List.map_map]
      refine List.map_congr_left fun p hp => ?_
      exact fr.project_seen (field?_projected h rfl) fun n f hf =>
        (whole p hp n f hf).imp fun c hc => hc.1

theorem satisfies_of_narrowed {fr : Fragment} {ps qs : List Expr} {u : Expr} {q : Tuple}
    (h : build d r = .ok s) (hp : d.IsPlain files) (hq : r.filter.isQuiet)
    (hx : (fr, ps ++ qs) ∈ d.places) (hmem : q ∈ fr.rows files d.schema)
    (hwhole : q.IsWhole d.schema) (htruth : ∃ t, r.filter.truth? q.row = some t)
    (hn : Narrowed s.filter ps u) :
    q.satisfies u = q.satisfies r.filter := by
  obtain ⟨rfl, hfold, -⟩ := build_eq_ok h
  obtain ⟨t, htruth⟩ := htruth
  obtain ⟨p, rfl⟩ := Fragment.mem_rows hmem
  have hfits := (hp.fits fr (Dataset.mem_places hx).1).fixes
  have hhonours := hfits.honours s.filter
  rw [← hp.way fr _ hx] at hhonours
  have hleft :=
    hhonours.truth? (fun n _ f hf c hc => ?_) (Dataset.mem_places hx).2 (fun p hp' ⟨a, ha⟩ => ?_) hn
    (Expr.isQuiet_fold hfold hq) (Expr.truth?_fold hfold hq htruth)
  · rw [Tuple.satisfies, Tuple.satisfies, hleft, htruth]
  · obtain ⟨c', hc', ht⟩ := hwhole n f hf
    cases hc.symm.trans hc'
    exact ht
  · have htypes : p.Types s.dataset.schema := by
      have hmem : p ∈ [.true_, fr.partition] := hp.way fr _ hx ▸ List.mem_append_left qs hp'
      simp only [List.mem_cons, List.not_mem_nil, or_false] at hmem
      rcases hmem with rfl | rfl
      · exact Expr.Fixes.true_.types
      · exact hfits.types
    exact absurd ha (htypes.not_isRetyped a)

theorem tuples_of_yields (h : build d r = .ok s) (hp : d.IsPlain files) (hu : d.IsUniform files)
    (ht : d.HasTrueStatistics files) (hq : r.filter.isQuiet)
    (hr : r.filter.recodes d.schema = false) (hx : x ∈ d.places)
    (hrows : ∀ q ∈ x.1.rows files d.schema,
      q.IsWhole d.schema ∧ ∃ t, r.filter.truth? q.row = some t) (hy : s.Yields files x bs) :
    bs.flatMap Batch.tuples =
      ((x.1.rows files d.schema).filter (·.satisfies r.filter)).map (·.project s.projected) := by
  obtain ⟨rfl, hfold, -⟩ := build_eq_ok h
  cases hy with
  | ruledOut hn hsat =>
    rw [List.filter_eq_nil_iff.2 fun q hmem => ?_]
    · rfl
    · obtain ⟨hwhole, htruth⟩ := hrows q hmem
      rw [← satisfies_of_narrowed h hp hq hx hmem hwhole htruth hn]
      simpa [Tuple.satisfies] using Expr.not_true_of_unsatisfiable hsat
  | @scanned fr ps u _ hn hitems =>
    have hfr := (Dataset.mem_places hx).1
    have hfits := hp.fits fr hfr
    obtain ⟨file, -, -, hfile, -⟩ := ScanTask.items_eq_ok hitems
    rw [fragment_task] at hfile
    have hway := hp.way fr ps hx
    have hquiet :=
      hn.isQuiet (Expr.isQuiet_fold hfold hq) (hway ▸ (hfits.fixes.honours s.filter).quiet)
    have heq := ScanTask.tuples_items_whole hitems hfile (hfits.inspected file hfile) hquiet
      (hn.recodes (Expr.recodes_fold hfold hr)) (fun n hmem _ => hfits.free (hway ▸ hn) n hmem)
        (hu fr hfr file hfile)
      (ht fr hfr file hfile) (hfits.suits hfile (hu fr hfr file hfile))
    simp only [fragment_task, filter_task, context_task] at heq
    rw [heq, ← Fragment.rows_of_open hfile, List.filter_congr fun q hmem => ?_]
    obtain ⟨hwhole, htruth⟩ := hrows q hmem
    have hplace : (fr, ps ++ []) ∈ s.dataset.places := by
      rw [List.append_nil]
      exact hx
    exact satisfies_of_narrowed h hp hq hplace hmem hwhole htruth hn

theorem flatMap_yields {s : Scan} {places : List (Fragment × List Expr)} {bss : List (List Batch)}
    {g : Fragment → List Tuple} (h : List.Forall₂ (s.Yields files) places bss)
    (hg : ∀ x ∈ places, ∀ bs, s.Yields files x bs → bs.flatMap Batch.tuples = g x.1) :
    bss.flatten.flatMap Batch.tuples = places.flatMap fun x => g x.1 := by
  induction h with
  | nil => rfl
  | @cons x bs places bss hy _ ih =>
    rw [List.flatten_cons, List.flatMap_append, List.flatMap_cons, hg x List.mem_cons_self bs hy,
      ih fun y hy => hg y (List.mem_cons_of_mem x hy)]

end Scan

namespace Dataset

def rows (d : Dataset) (files : FileAccess) : List Tuple :=
  d.places.flatMap fun x => x.1.rows files d.schema

end Dataset

namespace Scan

variable {d : Dataset} {r : ScanRequest} {s s₀ : Scan} {files : FileAccess}
  {bs bs₀ kept : List Batch} {o : ScanOptions}

theorem tuples_all (h : build d ⟨.true_, none, o⟩ = .ok s) (hu : d.IsUniform files)
    (hbs : (s.toBatches files).result = .ok bs) :
    (∀ q ∈ d.rows files, q.IsWhole d.schema) ∧ bs.flatMap Batch.tuples = d.rows files := by
  obtain ⟨bss, hbss, rfl⟩ := toBatches_yields hbs
  obtain ⟨rfl, -, -⟩ := build_eq_ok h
  refine ⟨fun q hq => ?_,
    flatMap_yields (g := (·.rows files s.dataset.schema)) hbss fun x hx bs hy =>
    (tuples_of_yields_all h hu hx hy).2⟩
  obtain ⟨x, hx, hq⟩ := List.mem_flatMap.1 hq
  obtain ⟨bs, -, hy⟩ := forall₂_mem hbss.flip hx
  exact (tuples_of_yields_all h hu hx hy).1 q hq

theorem tuples_kept (h : build d ⟨.true_, none, o⟩ = .ok s) (hu : d.IsUniform files)
    (hbs : (s.toBatches files).result = .ok bs) (hkept : bs.mapM (·.satisfying r.filter) = .ok kept)
    (hq : r.filter.isQuiet) (hr : r.filter.recodes d.schema = false) :
    (∀ q ∈ d.rows files, ∃ t, r.filter.truth? q.row = some t) ∧
      kept.flatMap Batch.tuples = (d.rows files).filter (·.satisfies r.filter) := by
  have hrows := (tuples_all h hu hbs).2
  have recodes (b : Batch) (hb : b ∈ bs) (h0 : 0 < b.rows) : r.filter.recodes b.schema = false := by
    have hmem : b.tuple 0 ∈ d.rows files := by
      rw [← hrows]
      exact List.mem_flatMap.2 ⟨b, hb, List.mem_map.2 ⟨0, List.mem_range.2 h0, rfl⟩⟩
    obtain ⟨x, -, hmem⟩ := List.mem_flatMap.1 hmem
    obtain ⟨p, hp⟩ := Fragment.mem_rows hmem
    exact recodes_of_tuple hp h0 hr
  rw [← hrows]
  replace hkept := mapM_eq_ok.1 hkept
  constructor
  · intro q hq'
    obtain ⟨b, hb, hq'⟩ := List.mem_flatMap.1 hq'
    obtain ⟨u, -, hu⟩ := forall₂_mem hkept.flip hb
    exact Batch.truth?_of_satisfying hu hq (recodes b hb) q hq'
  · clear hrows hbs
    induction hkept with
    | nil => rfl
    | @cons b u bs kept hu _ ih =>
      rw [List.flatMap_cons, List.flatMap_cons, List.filter_append,
        Batch.tuples_satisfying hu hq (recodes b List.mem_cons_self),
        ih fun c hc => recodes c (List.mem_cons_of_mem b hc)]

/--
A scan of a discovered dataset yields, in order, the rows of a scan of all columns without a filter
on which the filter is evaluated to true, in the columns that are projected.
-/
theorem tuples_discover {root : String} {format : Format} {options : DiscoveryOptions}
    (hd : (Dataset.discover files root format options).result = .ok d)
    (hschema : options.schema = none) (hpartitioning : options.partitioning.IsUsual)
    (h : build d r = .ok s) (h₀ : build d ⟨.true_, none, o⟩ = .ok s₀)
    (hbs : (s.toBatches files).result = .ok bs) (hbs₀ : (s₀.toBatches files).result = .ok bs₀)
    (hkept : bs₀.mapM (·.satisfying r.filter) = .ok kept) (hu : d.IsUniform files)
    (ht : d.HasTrueStatistics files) (hq : r.filter.isQuiet)
    (hr : r.filter.recodes d.schema = false) :
    bs.flatMap Batch.tuples = (kept.map (·.project s.projected)).flatMap Batch.tuples := by
  have hp := Dataset.isPlain_discover hd hschema hpartitioning
  obtain ⟨htruth, hrows⟩ := tuples_kept h₀ hu hbs₀ hkept hq hr
  have hwhole := (tuples_all h₀ hu hbs₀).1
  obtain ⟨bss, hbss, rfl⟩ := toBatches_yields hbs
  obtain ⟨rfl, -, -⟩ := build_eq_ok h
  have hyields := flatMap_yields hbss (g := fun fr =>
    ((fr.rows files s.dataset.schema).filter (·.satisfies r.filter)).map (·.project s.projected))
    fun x hx bs hy => tuples_of_yields h hp hu ht hq hr hx (fun q hmem =>
      have hmem : q ∈ s.dataset.rows files := List.mem_flatMap.2 ⟨x, hx, hmem⟩
      ⟨hwhole q hmem, htruth q hmem⟩) hy
  calc bss.flatten.flatMap Batch.tuples
      = ((s.dataset.rows files).filter (·.satisfies r.filter)).map (·.project s.projected) := by
        rw [hyields, Dataset.rows, List.filter_flatMap, List.map_flatMap]
    _ = (kept.flatMap Batch.tuples).map (·.project s.projected) := by rw [hrows]
    _ = (kept.map (·.project s.projected)).flatMap Batch.tuples := by
        rw [List.map_flatMap, List.flatMap_map]
        exact congrArg (fun f => kept.flatMap f)
          (funext fun b => (b.tuples_project s.projected).symm)

section Keys

def keyedBy (image : FileImage) (directories : List String) : FileAccess where
  list _ := pure (directories.map fun name => ⟨name ++ "/a", 0⟩)
  openFile path := pure (.ofImage path image)

def underKey (t : DataType) : DiscoveryOptions :=
  { DiscoveryOptions.default_ with partitioning := .scheme (.hive [⟨"k", t, true, .empty⟩] true) }

def fragmentOf (format : Format) (file : Schema) (pair : String × Scalar) : Fragment :=
  ⟨.stored (pair.1 ++ "/a"), format, .compare .eq (.field "k") (.lit pair.2), file⟩

def datasetOf (format : Format) (file : Schema) (pairs : List (String × Scalar)) (t : DataType) :
    Dataset :=
  let schema : Schema := file ++ [⟨"k", t, true, .empty⟩]
  ⟨[.leaf .filesystem schema .true_ (pairs.map (fragmentOf format file))], schema⟩

variable {format : Format} {file : Schema} {image : FileImage} {pairs : List (String × Scalar)}
  {t : DataType}

theorem schemaOf_underKey (root : String) (t : DataType) {fragments : List Fragment}
    (hne : fragments ≠ []) (h : ∀ fr ∈ fragments, fr.physical = file)
    (hnames : (file.map (·.name)).Nodup)
    (hkey : file.appendPartition [⟨"k", t, true, .empty⟩] =
      .ok (file ++ [⟨"k", t, true, .empty⟩])) :
    Discovery.schemaOf ⟨.ofRoot root, format, underKey t⟩
        (.hive [⟨"k", t, true, .empty⟩] true) fragments =
      .ok (file ++ [⟨"k", t, true, .empty⟩]) := by
  obtain ⟨n, hn⟩ := Nat.exists_eq_add_one_of_ne_zero (mt List.length_eq_zero_iff.1 hne)
  have hphysical : fragments.map (·.physical) = List.replicate (n + 1) file := by
    rw [← hn, List.map_eq_replicate_iff]
    exact h
  refine bind_eq_ok.2 ⟨file, ?_, hkey⟩
  rw [hphysical]
  exact Schema.unify_replicate hnames n

theorem discover_keyedBy (pairs : List (String × Scalar)) (t : DataType)
    (hpaths :
      (Discovery.paths ⟨.ofRoot "", format, underKey t⟩ (keyedBy image (pairs.map (·.1)))).result =
      .ok (pairs.map fun pair => pair.1 ++ "/a"))
    (hparse : ∀ pair ∈ pairs, Scheme.parse (.hive [⟨"k", t, true, .empty⟩] true) (pair.1 ++ "/a") =
      .ok (.compare .eq (.field "k") (.lit pair.2)))
    (hinspect : ∀ path, format.inspect (.ofImage path image) = .ok file) (hne : pairs ≠ [])
    (hnames : (file.map (·.name)).Nodup)
    (hkey : file.appendPartition [⟨"k", t, true, .empty⟩] =
      .ok (file ++ [⟨"k", t, true, .empty⟩])) :
    (Dataset.discover (keyedBy image (pairs.map (·.1))) "" format (underKey t)).result =
      .ok (datasetOf format file pairs t) := by
  have hfragments :
      List.Forall₂ (fun path fr => (Discovery.fragment ⟨.ofRoot "", format, underKey t⟩
      (keyedBy image (pairs.map (·.1))) (.hive [⟨"k", t, true, .empty⟩] true) path).result = .ok fr)
      (pairs.map fun pair => pair.1 ++ "/a") (pairs.map (fragmentOf format file)) := by
    refine List.forall₂_map_left_iff.2
      (List.forall₂_map_right_iff.2 (List.forall₂_same.2 fun pair hpair => ?_))
    unfold Discovery.fragment
    rw [Accounted.result_bind]
    refine bind_eq_ok.2 ⟨_, hparse pair hpair, ?_⟩
    rw [Accounted.result_bind]
    refine bind_eq_ok.2 ⟨_, rfl, ?_⟩
    rw [Accounted.result_bind]
    exact bind_eq_ok.2 ⟨file, hinspect _, rfl⟩
  have hphysical (fr : Fragment) (hfr : fr ∈ pairs.map (fragmentOf format file)) :
      fr.physical = file := by
    obtain ⟨pair, -, rfl⟩ := List.mem_map.1 hfr
    rfl
  have hfound :
      (Discovery.inspect ⟨.ofRoot "", format, underKey t⟩
        (keyedBy image (pairs.map (·.1)))).result =
      .ok ⟨pairs.map (fragmentOf format file), (datasetOf format file pairs t).schema⟩ :=
    Discovery.inspect_found.2 ⟨_, _, hpaths, rfl, hfragments,
      schemaOf_underKey "" t (mt List.map_eq_nil_iff.1 hne) hphysical hnames hkey⟩
  unfold Dataset.discover
  rw [Accounted.result_bind, hfound]
  rfl

theorem image_keyedBy {directories : List String} {fr : Fragment} {opened : OpenFile}
    (hfr : fr ∈ (datasetOf format file pairs t).fragments)
    (hfile : (fr.origin.openFile (keyedBy image directories)).result = .ok opened) :
    opened.image = image := by
  obtain ⟨source, hsource, hfr⟩ := List.mem_flatMap.1 hfr
  cases List.mem_singleton.1 hsource
  obtain ⟨pair, -, rfl⟩ := List.mem_map.1 hfr
  cases hfile
  rfl

def sevens : Batch := Expr.wholes Expr.seven

def keyed (directories : List String) : FileAccess :=
  keyedBy (.ipc ⟨sevens.schema, [sevens]⟩) directories

def keyedFile (pair : String × Scalar) : Fragment := fragmentOf .ipc sevens.schema pair

def ofKeys (pairs : List (String × Scalar)) (t : DataType) : Dataset :=
  datasetOf .ipc sevens.schema pairs t

theorem discover_keyed (pairs : List (String × Scalar)) (t : DataType)
    (hpaths : (Discovery.paths ⟨.ofRoot "", .ipc, underKey t⟩ (keyed (pairs.map (·.1)))).result =
      .ok (pairs.map fun pair => pair.1 ++ "/a"))
    (hparse : ∀ pair ∈ pairs, Scheme.parse (.hive [⟨"k", t, true, .empty⟩] true) (pair.1 ++ "/a") =
      .ok (.compare .eq (.field "k") (.lit pair.2)))
    (hne : pairs ≠ []) :
    (Dataset.discover (keyed (pairs.map (·.1))) "" .ipc (underKey t)).result =
      .ok (ofKeys pairs t) :=
  discover_keyedBy pairs t hpaths hparse (fun _ => rfl) hne (List.nodup_singleton _) rfl

def whereKey (op : Comparison) (v : Scalar) : ScanRequest :=
  ⟨.compare op (.field "k") (.lit v), none, .default_⟩

def oneAndTwo : List (String × Scalar) :=
  [("k=1", .ofFixed (t := .int32) ⟨1, by decide, by decide⟩),
    ("k=2", .ofFixed (t := .int32) ⟨2, by decide, by decide⟩)]

def two : Scalar := .ofFixed (t := .int32) ⟨2, by decide, by decide⟩

def aboveOne : ScanRequest := whereKey .gt (.ofFixed (t := .int32) ⟨1, by decide, by decide⟩)

def measured : Batch where
  rows := 4
  columns :=
    [⟨"x", true, ⟨.int .int64, [some Expr.zero, some Expr.seven, some ⟨20, by decide, by decide⟩,
        some ⟨21, by decide, by decide⟩]⟩, .empty⟩,
      ⟨"y", true, ⟨.float64, [some (Floating.ofInt 1), some (Floating.nan false),
        some (Floating.ofInt 1), some (Floating.ofInt 1)]⟩, .empty⟩]
  sized := by simp [Column.length]

def measuredFile : ParquetFile := ParquetFile.ofTable measured (some 2) true none

def aboveAll : ScanRequest :=
  ⟨.all [aboveOne.filter, .compare .gt (.field "y") (.lit ⟨.float64, some (Floating.ofInt 2)⟩),
    .compare .lt (.field "x") (.lit (.ofFixed (t := .int64) ⟨10, by decide, by decide⟩))], none,
    .default_⟩

/-- The row that a scan yields is of a group whose recorded range does not reach it, and which is
read nevertheless. -/
theorem tuples_discover_keyed : ∃ d s s₀ b bs₀ kept,
    (Dataset.discover (keyedBy (.parquet measuredFile) ["k=1", "k=2"]) "" (.parquet .default_)
      (underKey (.int .int32))).result = .ok d ∧
    build d aboveAll = .ok s ∧ build d .default_ = .ok s₀ ∧
    (s.toBatches (keyedBy (.parquet measuredFile) ["k=1", "k=2"])).result = .ok [b] ∧ b.rows = 1 ∧
    (s₀.toBatches (keyedBy (.parquet measuredFile) ["k=1", "k=2"])).result = .ok bs₀ ∧
    bs₀.map (·.rows) = [4, 4] ∧
    bs₀.mapM (·.satisfying aboveAll.filter) = .ok kept ∧
    [b].flatMap Batch.tuples = (kept.map (·.project s.projected)).flatMap Batch.tuples := by
  have hd :
      (Dataset.discover (keyedBy (.parquet measuredFile) ["k=1", "k=2"]) "" (.parquet .default_)
        (underKey (.int .int32))).result =
        .ok (datasetOf (.parquet .default_) measured.schema oneAndTwo (.int .int32)) :=
    discover_keyedBy oneAndTwo (.int .int32) rfl (by decide) (fun _ => rfl) (List.cons_ne_nil _ _)
      (by decide) rfl
  obtain ⟨s, s₀, b, bs₀, kept, hs, hs₀, hb, hrows, hbs₀, hlen, hkept⟩ : ∃ s s₀ b bs₀ kept,
      build (datasetOf (.parquet .default_) measured.schema oneAndTwo (.int .int32)) aboveAll =
        .ok s ∧
      build (datasetOf (.parquet .default_) measured.schema oneAndTwo (.int .int32)) .default_ =
        .ok s₀ ∧
      (s.toBatches (keyedBy (.parquet measuredFile) ["k=1", "k=2"])).result = .ok [b] ∧ b.rows = 1 ∧
      (s₀.toBatches (keyedBy (.parquet measuredFile) ["k=1", "k=2"])).result = .ok bs₀ ∧
      bs₀.map (·.rows) = [4, 4] ∧
      bs₀.mapM (·.satisfying aboveAll.filter) = .ok kept :=
    ⟨_, _, _, _, _, rfl, rfl, rfl, rfl, rfl, rfl, rfl⟩
  refine ⟨_, s, s₀, b, bs₀, kept, hd, hs, hs₀, hb, hrows, hbs₀, hlen, hkept, ?_⟩
  refine tuples_discover hd rfl trivial hs hs₀ hb hbs₀ hkept ?_ ?_ rfl rfl
  · intro fr hfr file hfile
    rw [image_keyedBy hfr hfile]
    exact ParquetFile.isUniform_ofTable
  · intro fr hfr file hfile
    rw [image_keyedBy hfr hfile]
    exact ParquetFile.isTrue_ofTable (by decide)

/-- A key read as the one quiet pattern that is not a number is above the signalling one, as a
column. -/
theorem tuples_discover_signalling : ∃ d s s₀ b,
    (Dataset.discover (keyed ["k=nan"]) "" .ipc (underKey .float32)).result = .ok d ∧
    build d (whereKey .gt ⟨.float32, some ⟨0x7f800001⟩⟩) = .ok s ∧ build d .default_ = .ok s₀ ∧
    (s.toBatches (keyed ["k=nan"])).result = .ok [] ∧
    (s₀.toBatches (keyed ["k=nan"])).result = .ok [b] ∧
    (whereKey .gt ⟨.float32, some ⟨0x7f800001⟩⟩).filter.mask b = .ok [some true] := by
  have hd := discover_keyed [("k=nan", ⟨.float32, some ⟨0x7fc00000⟩⟩)] .float32 rfl
    (by decide +kernel) (List.cons_ne_nil _ _)
  exact ⟨_, _, _, _, hd, rfl, rfl, rfl, rfl, rfl⟩

end Keys

end Scan

end TableScan
