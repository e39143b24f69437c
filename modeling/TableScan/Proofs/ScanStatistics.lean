import TableScan.Proofs.Formats
import TableScan.Proofs.Skipping

namespace TableScan

def ParquetOptions.withStatistics (on : Bool) (o : ParquetOptions) : ParquetOptions :=
  { o with useRowGroupStatistics := on }

def Format.withStatistics (on : Bool) : Format → Format
  | parquet o => parquet (o.withStatistics on)
  | ipc => ipc

def Fragment.withStatistics (on : Bool) (fr : Fragment) : Fragment :=
  { fr with format := fr.format.withStatistics on }

namespace Source

variable (on : Bool)

def withStatistics : Source → Source
  | leaf kind s p fragments => leaf kind s p (fragments.map (·.withStatistics on))
  | tree s p sources => tree s p (allWithStatistics sources)
where
  allWithStatistics : List Source → List Source
    | [] => []
    | s :: rest => s.withStatistics :: allWithStatistics rest

mutual

theorem withStatistics_eq (s : Source) :
    s.withStatistics on = s.mapFormat (Format.withStatistics on) := by
  match s with
  | leaf kind schema p fragments => rfl
  | tree schema p sources => exact congrArg (tree schema p) (allWithStatistics_eq sources)

theorem allWithStatistics_eq (sources : List Source) :
    withStatistics.allWithStatistics on sources =
      mapFormat.allMapFormat (Format.withStatistics on) sources := by
  match sources with
  | [] => rfl
  | s :: rest => exact congrArg₂ List.cons (withStatistics_eq s) (allWithStatistics_eq rest)

end

end Source

def Dataset.withStatistics (on : Bool) (d : Dataset) : Dataset :=
  ⟨d.sources.map (·.withStatistics on), d.schema⟩

def ScanTask.withStatistics (on : Bool) (t : ScanTask) : ScanTask :=
  { t with fragment := t.fragment.withStatistics on }

namespace Scan

variable {d : Dataset} {r : ScanRequest} {s : Scan} (on : Bool)

def withStatistics (s : Scan) : Scan := { s with dataset := s.dataset.withStatistics on }

theorem build_withStatistics :
    build (d.withStatistics on) r = (build d r).map (withStatistics on) := by
  unfold build
  rw [show (d.withStatistics on).schema = d.schema from rfl]
  cases r.options.check with
  | error e => rfl
  | ok =>
    cases columnsOf d.schema r.columns with
    | error e => rfl
    | ok names =>
      simp only [bind, Except.bind]
      cases d.schema.project names with
      | error e => rfl
      | ok projected =>
        cases checkFilter d.schema r.filter with
        | error e => rfl
        | ok => cases r.filter.fold <;> rfl

theorem plan_withStatistics :
    (s.withStatistics on).plan = s.plan.map (List.map (·.withStatistics on)) := by
  have hdataset : (s.withStatistics on).dataset = s.dataset.mapFormat (Format.withStatistics on) :=
    congrArg (Dataset.mk · s.dataset.schema)
      (List.map_congr_left fun source _ => source.withStatistics_eq on)
  rw [plan_eq_candidates, plan_eq_candidates, hdataset, Dataset.candidates_mapFormat]
  change ((s.dataset.candidates s.filter).map _).map _ = _
  cases s.dataset.candidates s.filter with
  | error e => rfl
  | ok cs => exact congrArg Except.ok (by rw [List.map_map, List.map_map]; rfl)

end Scan

namespace Fragment

variable {on : Bool} {fr : Fragment} {ds : Schema} {e : Expr} {image : FileImage}

theorem describes_withStatistics {file : OpenFile} (h : fr.Describes file) :
    (fr.withStatistics on).Describes file := by
  have hinspect (format : Format) : (format.withStatistics on).inspect file =
      format.inspect file := by
    cases format <;> rfl
  exact (hinspect fr.format).trans h

theorem suits_withStatistics (h : image.Suits fr ds e) :
    image.Suits (fr.withStatistics on) ds e := by
  unfold FileImage.Suits at h ⊢
  cases hformat : fr.format with
  | ipc =>
    rw [show (fr.withStatistics on).format = .ipc by rw [withStatistics, hformat]; rfl]
    trivial
  | parquet o =>
    rw [show (fr.withStatistics on).format = .parquet (o.withStatistics on) by
      rw [withStatistics, hformat]; rfl]
    cases image with
    | parquet f =>
      simp only [hformat] at h ⊢
      exact fun g hg => ⟨(h g hg).kept, (h g hg).settled⟩
    | _ => trivial

theorem whole_withStatistics :
    (fr.withStatistics on).format.whole image = fr.format.whole image := by
  unfold withStatistics Format.withStatistics
  cases fr.format <;> cases image <;> rfl

end Fragment

theorem ScanTask.tuples_items_withStatistics {on : Bool} {t : ScanTask} {files : FileAccess}
    {bs : List Batch} {file : OpenFile} (h : (t.withStatistics on).items files = bs.map .ok)
    (hfile : (t.fragment.origin.openFile files).result = .ok file) (hd : t.fragment.Describes file)
    (hq : t.filter.isQuiet) (hr : t.filter.recodes t.context.dataset = false)
    (hfree : ∀ n ∈ t.filter.fields, (t.fragment.physical.field? n).isSome →
      t.fragment.partition.boundTo? n = none) (hu : file.image.IsUniform) (ht : file.image.IsTrue)
    (hs : file.image.Suits t.fragment t.context.dataset t.filter) :
    bs.flatMap Batch.tuples = (((t.fragment.format.whole file.image).map
      (t.fragment.seen t.context.dataset)).filter (·.satisfies t.filter)).map
        (·.project t.context.projected) := by
  have heq := tuples_items_whole h hfile (Fragment.describes_withStatistics hd) hq hr hfree hu ht
    (Fragment.suits_withStatistics hs)
  rw [show (t.withStatistics on).fragment = t.fragment.withStatistics on from rfl,
    Fragment.whole_withStatistics] at heq
  exact heq

namespace Scan

variable {d : Dataset} {r : ScanRequest} {s s₁ s₀ : Scan} {files : FileAccess}
  {bs₁ bs₀ : List Batch}

/--
Statistics do not change the rows that a scan yields, where they suit what the ways to the files
leave of its filter and no place says of a column of a file that it equals null, which sets it
without being known.
-/
theorem tuples_withStatistics (h₁ : build (d.withStatistics true) r = .ok s₁)
    (h₀ : build (d.withStatistics false) r = .ok s₀) (hbs₁ : (s₁.toBatches files).result = .ok bs₁)
    (hbs₀ : (s₀.toBatches files).result = .ok bs₀) (hu : d.IsUniform files)
    (hfiles : ∀ fr ∈ d.fragments, ∀ file, (fr.origin.openFile files).result = .ok file →
      fr.Describes file)
    (htrue : d.HasTrueStatistics files) (hq : r.filter.isQuiet)
    (hr : r.filter.recodes d.schema = false)
    (hps : ∀ fr ps, (fr, ps) ∈ d.places → ∀ p ∈ ps, p.isQuiet)
    (hfixed : ∀ fr ∈ d.fragments, ∀ n ∈ r.filter.fields, (fr.physical.field? n).isSome →
      (Facts.ofGuarantee fr.partition n).value = fr.partition.boundTo? n)
    (hs : ∀ fr ps e u, (fr, ps) ∈ d.places → r.filter.fold = .ok e → Narrowed e ps u →
      ∀ file, (fr.origin.openFile files).result = .ok file → file.image.Suits fr d.schema u) :
    bs₁.flatMap Batch.tuples = bs₀.flatMap Batch.tuples := by
  rw [build_withStatistics] at h₁ h₀
  obtain ⟨s, hs₁, rfl⟩ := map_eq_ok.1 h₁
  obtain ⟨s', hs₀, rfl⟩ := map_eq_ok.1 h₀
  cases hs₁.symm.trans hs₀
  obtain ⟨rfl, hfold, -⟩ := build_eq_ok hs₁
  obtain ⟨tasks₁, bss₁, hplan₁, hitems₁, rfl⟩ := toBatches_eq_ok hbs₁
  obtain ⟨tasks₀, bss₀, hplan₀, hitems₀, rfl⟩ := toBatches_eq_ok hbs₀
  rw [plan_withStatistics] at hplan₁ hplan₀
  obtain ⟨tasks, hplan, rfl⟩ := map_eq_ok.1 hplan₁
  obtain ⟨tasks', hplan', rfl⟩ := map_eq_ok.1 hplan₀
  cases hplan.symm.trans hplan'
  have hsq := Expr.isQuiet_fold hfold hq
  have hsr := Expr.recodes_fold hfold hr
  -- what a task yields, whether or not it looks at statistics
  have yields (on : Bool) (t : ScanTask) (bs : List Batch) (ht : t ∈ tasks)
      (h : (t.withStatistics on).items files = bs.map .ok) :
      ∃ file, (t.fragment.origin.openFile files).result = .ok file ∧
        bs.flatMap Batch.tuples = (((t.fragment.format.whole file.image).map
          (t.fragment.seen t.context.dataset)).filter (·.satisfies t.filter)).map
            (·.project t.context.projected) := by
    obtain ⟨file, _, _, hfile, -⟩ := ScanTask.items_eq_ok h
    replace hfile : (t.fragment.origin.openFile files).result = .ok file := hfile
    obtain ⟨ps, hplace, hn, hctx⟩ := mem_plan hplan ht
    have hd : t.context.dataset = s.dataset.schema := by rw [hctx]
    obtain ⟨hfr, hown⟩ := Dataset.mem_places hplace
    have hfree (n : String) (hmem : n ∈ t.filter.fields)
        (hread : (t.fragment.physical.field? n).isSome) :
        t.fragment.partition.boundTo? n = none := by
      obtain ⟨hmem, hnone⟩ := hn.fields_subset hmem
      have hfilter := ((Expr.simplified_fold hfold).fields_subset hmem).1
      exact (hfixed _ hfr n hfilter hread).symm.trans (hnone _ hown)
    exact ⟨file, hfile, ScanTask.tuples_items_withStatistics h hfile (hfiles _ hfr file hfile)
      (hn.isQuiet hsq (hps _ ps hplace)) (hd ▸ hn.recodes hsr) hfree (hu _ hfr file hfile)
      (htrue _ hfr file hfile) (hd ▸ hs _ ps _ _ hplace hfold hn file hfile)⟩
  refine flatten_congr (List.forall₂_map_left_iff.1 hitems₁)
    (List.forall₂_map_left_iff.1 hitems₀) ?_
  intro t ht bs cs h h'
  obtain ⟨file, hfile, heq⟩ := yields true t bs ht h
  obtain ⟨file', hfile', heq'⟩ := yields false t cs ht h'
  cases hfile.symm.trans hfile'
  rw [heq, heq']

section Groups

variable {t u : IntType}

def single (v : Fixed t) : Batch where
  rows := 1
  columns := [⟨"x", true, ⟨.int t, [some v]⟩, .empty⟩]
  sized := by simp [Column.length]

def grouped (values : List (Fixed t)) (u : IntType) : Dataset :=
  let file : Schema := [⟨"x", .int t, true, .empty⟩]
  let groups := values.map fun v => RowGroup.ofRows true none (single v)
  ⟨[.leaf .memory file .true_
    [⟨.buffer "a" (.parquet ⟨file, groups⟩), .parquet .default_, .true_, file⟩]],
    [⟨"x", .int u, true, .empty⟩]⟩

theorem suits_single {o : ParquetOptions} {v : Fixed t} (h : u.min ≤ v.val ∧ v.val ≤ u.max)
    (e : Expr) :
    (RowGroup.ofRows true none (single v)).Suits o [⟨"x", .int u, true, .empty⟩] e where
  kept n _ p a x hheld _ := by
    obtain ⟨cells, hcolumn, hmem⟩ := hheld.mem
    obtain rfl : n = "x" := by
      by_contra hn
      have hmissing : (single v).column? n = none := by simp [Batch.column?, single, Ne.symm hn]
      cases hmissing.symm.trans hcolumn
    cases hcolumn
    cases List.mem_singleton.1 hmem
    have hcell := Value.asCell?_int (t := u) v h
    cases (congrArg (Option.map (Value.ofCell (.int u))) hcell).symm.trans hheld.cast
    exact ScalarType.keeps_of_same hheld.range.isRanged rfl rfl
      (congrArg some (compare_eq_iff_eq.2 rfl))
  settled := by
    refine Expr.meets_of_fields fun a b _ n v _ _ p _ _ hinexact => ?_
    have htype : Schema.typeOf [⟨"x", .int u, true, .empty⟩] n = .int u ∨
        Schema.typeOf [⟨"x", .int u, true, .empty⟩] n = .null := by
      by_cases hn : "x" = n <;> simp [Schema.typeOf, Schema.field?, hn]
    rcases htype with htype | htype <;> rw [htype] at hinexact <;> cases hinexact

def selecting (e : Expr) : ScanRequest := ⟨e, none, .default_⟩

def aboveTen : ScanRequest := selecting (Expr.above (.wrap .int64 10))

def sevenAndTwenty (t : IntType) : List (Fixed t) := [.wrap t 7, .wrap t 20]

def FindsOne (d : Dataset) (r : ScanRequest) : Prop := ∃ s₁ s₀ b₁ b₀,
  build (d.withStatistics true) r = .ok s₁ ∧ build (d.withStatistics false) r = .ok s₀ ∧
    (s₁.toBatches .none_).result = .ok [b₁] ∧ (s₀.toBatches .none_).result = .ok [b₀] ∧
    b₁.rows = 1 ∧ [b₁].flatMap Batch.tuples = [b₀].flatMap Batch.tuples

/-- Of two groups the statistics rule out the one that has no integer above ten, in a wider type and
in a narrower one in which its integers fit. -/
theorem tuples_withStatistics_grouped : FindsOne (grouped (sevenAndTwenty .int32) .int64) aboveTen ∧
    FindsOne (grouped (sevenAndTwenty .int64) .int32) aboveTen := by
  have same {t u : IntType} (values : List (Fixed t))
      (hvalues : ∀ v ∈ values, u.min ≤ v.val ∧ v.val ≤ u.max)
      {s₁ s₀ : Scan} {bs₁ bs₀ : List Batch}
      (h₁ : build ((grouped values u).withStatistics true) aboveTen = .ok s₁)
      (h₀ : build ((grouped values u).withStatistics false) aboveTen = .ok s₀)
      (hbs₁ : (s₁.toBatches .none_).result = .ok bs₁)
      (hbs₀ : (s₀.toBatches .none_).result = .ok bs₀) :
      bs₁.flatMap Batch.tuples = bs₀.flatMap Batch.tuples := by
    refine tuples_withStatistics h₁ h₀ hbs₁ hbs₀ ?_ ?_ ?_ rfl rfl ?_ ?_ ?_
    · intro fr hfr file hfile
      cases List.mem_singleton.1 hfr
      cases hfile
      intro g hg
      obtain ⟨v, -, rfl⟩ := List.mem_map.1 hg
      rfl
    · intro fr hfr file hfile
      cases List.mem_singleton.1 hfr
      cases hfile
      exact congrArg (Except.map _) (ParquetFile.ofFile_ofImage "a" _)
    · intro fr hfr file hfile
      cases List.mem_singleton.1 hfr
      cases hfile
      intro g hg
      obtain ⟨v, -, rfl⟩ := List.mem_map.1 hg
      exact RowGroup.isTrue_ofRows (by simp [single]) true none
    · intro fr ps hplace p hp
      cases List.mem_singleton.1 hplace
      obtain rfl : p = .true_ := by simpa using hp
      rfl
    · intro fr hfr n _ _
      cases List.mem_singleton.1 hfr
      rfl
    · intro fr ps e u hplace _ _ file hfile
      cases List.mem_singleton.1 hplace
      cases hfile
      intro g hg
      obtain ⟨v, hv, rfl⟩ := List.mem_map.1 hg
      exact suits_single (hvalues v hv) u
  constructor
  · obtain ⟨s₁, s₀, b₁, b₀, h₁, h₀, hbs₁, hbs₀, hrows⟩ : ∃ s₁ s₀ b₁ b₀,
        build ((grouped (sevenAndTwenty .int32) .int64).withStatistics true) aboveTen = .ok s₁ ∧
        build ((grouped (sevenAndTwenty .int32) .int64).withStatistics false) aboveTen = .ok s₀ ∧
        (s₁.toBatches .none_).result = .ok [b₁] ∧ (s₀.toBatches .none_).result = .ok [b₀] ∧
        b₁.rows = 1 := ⟨_, _, _, _, rfl, rfl, rfl, rfl, rfl⟩
    exact ⟨s₁, s₀, b₁, b₀, h₁, h₀, hbs₁, hbs₀, hrows, same _ (by decide) h₁ h₀ hbs₁ hbs₀⟩
  · obtain ⟨s₁, s₀, b₁, b₀, h₁, h₀, hbs₁, hbs₀, hrows⟩ : ∃ s₁ s₀ b₁ b₀,
        build ((grouped (sevenAndTwenty .int64) .int32).withStatistics true) aboveTen = .ok s₁ ∧
        build ((grouped (sevenAndTwenty .int64) .int32).withStatistics false) aboveTen = .ok s₀ ∧
        (s₁.toBatches .none_).result = .ok [b₁] ∧ (s₀.toBatches .none_).result = .ok [b₀] ∧
        b₁.rows = 1 := ⟨_, _, _, _, rfl, rfl, rfl, rfl, rfl⟩
    exact ⟨s₁, s₀, b₁, b₀, h₁, h₀, hbs₁, hbs₀, hrows, same _ (by decide) h₁ h₀ hbs₁ hbs₀⟩

/-- An integer that does not fit the type of the dataset is null there, but valid by its statistics.
-/
theorem tuples_withStatistics_narrowed : ∃ s₁ s₀ b,
    build ((grouped (t := .int64) [⟨3000000000, by decide, by decide⟩] .int32).withStatistics true)
      (selecting (.not (.isValid (.field "x")))) = .ok s₁ ∧
    build ((grouped (t := .int64) [⟨3000000000, by decide, by decide⟩] .int32).withStatistics false)
      (selecting (.not (.isValid (.field "x")))) = .ok s₀ ∧
    (s₁.toBatches .none_).result = .ok [] ∧ (s₀.toBatches .none_).result = .ok [b] ∧ b.rows = 1 :=
  ⟨_, _, _, rfl, rfl, rfl, rfl, rfl⟩

end Groups

end Scan

end TableScan
