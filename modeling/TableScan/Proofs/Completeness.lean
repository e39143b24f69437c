import TableScan.Proofs.Nesting
import TableScan.Proofs.PlanFailures

/-!
Filters by the fields of a partition alone. The planner decides them: a fragment is planned just if
its rows satisfy the filter, and nothing is left of the filter there.
-/

namespace TableScan

open Value (ofScalar)

namespace Expr

theorem eq_true_of_isSatisfiable {u : Expr} {σ : Schema} {t : DataType} (hu : u.IsLit)
    (ht : Typed σ u t) (htruth : isTruthType t) (hs : u.isSatisfiable) : u = true_ := by
  obtain ⟨v, rfl⟩ := hu
  cases ht
  simp only [isTruthType, Bool.or_eq_true, decide_eq_true_eq] at htruth
  obtain ⟨type, value⟩ := v
  rcases htruth with htype | htype <;> cases htype
  · rcases value with _ | (_ | _)
    · cases hs
    · cases hs
    · rfl
  · cases value with
    | none => cases hs
    | some a => exact Empty.elim a

end Expr

namespace Narrowed

variable {e u : Expr} {ps : List Expr} {σ : Schema} {t : DataType}

theorem isLit (h : Narrowed e ps u) (hps : ps ≠ []) (hu : ∀ n, n ∉ u.fields) : u.IsLit := by
  induction h with
  | nil => exact absurd rfl hps
  | @cons e e' u p ps hs hrest ih =>
    cases hrest with
    | nil => exact Expr.isLit_of_simplifyWith hs hu
    | cons => exact ih (List.cons_ne_nil _ _) hu

theorem isTruthType (h : Narrowed e ps u) (ht : Expr.Typed σ e t) (htruth : Expr.isTruthType t)
    (hps : ∀ p ∈ ps, Expr.Admits σ (Facts.ofGuarantee p)) :
    ∃ t', Expr.Typed σ u t' ∧ Expr.isTruthType t' := by
  induction h generalizing t with
  | nil => exact ⟨t, ht, htruth⟩
  | cons hs _ ih =>
    rw [List.forall_mem_cons] at hps
    obtain ⟨t', ht', hstands⟩ :=
      (Expr.simplified_of_ok hs).hasType ht hps.1 fun _ _ _ _ _ => trivial
    exact ih ht' (hstands.isTruthType htruth) hps.2

end Narrowed

namespace Expr.Fixes

variable {p e u : Expr} {ps : List Expr} {σ : Schema} {ρ : Row} {t : DataType}

theorem of_way (h : p.Fixes σ) (hps : ∀ q ∈ ps, q = Expr.true_ ∨ q = p) : ∀ q ∈ ps, q.Fixes σ := by
  intro q hq
  rcases hps q hq with rfl | rfl
  · exact .true_
  · exact h

theorem obeys (h : p.Fixes σ) (ht : ρ.IsTyped σ.typeOf) (hplain : ∀ n x, ρ n = some x → x.isPlain)
    (hρ : ∀ n x v, ρ n = some x → p.boundTo? n = some v → x = ofScalar v) : ρ.Obeys σ p where
  typed := ht
  plain := hplain
  holds n x hx := by
    refine h.binds.holds fun v hv => ?_
    rw [hρ n x v hx ((h.value n).symm.trans hv)]
    exact Value.is_ofScalar v
  quiet n x hx hne := by
    obtain ⟨v, hv⟩ := Option.ne_none_iff_exists'.1 (h.binds.value_ne_none hne)
    rw [hρ n x v hx ((h.value n).symm.trans hv)]
    exact (Facts.IsQuiet.ofGuarantee h.quiet n).value v hv
  retyped := fun ⟨a, ha⟩ => absurd ha (h.types.not_isRetyped a)

theorem eq_true_of_narrowed (h : p.Fixes σ) (ht : Typed σ e t) (htruth : isTruthType t)
    (hbound : ∀ n ∈ e.fields, (p.boundTo? n).isSome) (hp : p ∈ ps)
    (hps : ∀ q ∈ ps, q = Expr.true_ ∨ q = p) (hu : Narrowed e ps u) (hs : u.isSatisfiable) :
    u = Expr.true_ := by
  have hlit : u.IsLit := by
    refine hu.isLit (List.ne_nil_of_mem hp) fun n hn => ?_
    obtain ⟨hn, hnone⟩ := hu.fields_subset hn
    have hvalue := hbound n hn
    rw [← h.value, hnone p hp] at hvalue
    cases hvalue
  obtain ⟨t', ht', htruth'⟩ := hu.isTruthType ht htruth fun q hq => (h.of_way hps q hq).types.admits
  exact eq_true_of_isSatisfiable hlit ht' htruth' hs

theorem truth? {b : Option Bool} (h : p.Fixes σ) (hps : ∀ q ∈ ps, q = Expr.true_ ∨ q = p)
    (hu : Narrowed e ps u) (he : e.isQuiet) (hρ : ρ.Obeys σ p) (hb : e.truth? ρ = some b) :
    u.truth? ρ = some b := by
  have hways := h.of_way hps
  refine hu.truth? (.of_types (fun q hq => (hways q hq).types) e) he
    (fun q hq => ⟨(hways q hq).quiet, ?_⟩) hb
  rcases hps q hq with rfl | rfl
  · exact Fixes.true_.obeys hρ.typed hρ.plain fun n x v _ hv => by cases hv
  · exact hρ

end Expr.Fixes

theorem Batch.row_isPlain {b : Batch} {i : Nat} {n : String} {x : Value} (h : b.row i n = some x) :
    x.isPlain := by
  rw [← b.row_tuple] at h
  exact Tuple.row_isPlain h

theorem Expr.Fixes.obeys_only {p : Expr} {b : Batch} {i : Nat} {names : List String}
    (h : p.Fixes b.schema)
    (hrow : ∀ n ∈ names, ∀ v, p.boundTo? n = some v → b.row i n = some (ofScalar v)) :
    ((b.row i).only names).Obeys b.schema p := by
  refine h.obeys (fun n t a hx => b.row_isTyped i n t a (Row.of_only hx).2)
    (fun n x hx => Batch.row_isPlain (Row.of_only hx).2) fun n x v hx hbound => ?_
  obtain ⟨hn, hx⟩ := Row.of_only hx
  exact Option.some.inj (hx.symm.trans (hrow n hn v hbound))

theorem Scheme.fixes_of_parse {scheme : Scheme} {path : String} {p : Expr} {σ : Schema}
    (hs : scheme.IsUsual) (hp : scheme.parse path = .ok p)
    (htypes : ∀ n v, p.boundTo? n = some v → v.isNull = false → v.dataType = (σ.typeOf n).plain) :
    p.Fixes σ := by
  obtain ⟨pairs, rfl, hreads⟩ := Scheme.parse_eq_ok hs hp
  exact hreads.fixes_of_types htypes

namespace Source

variable {s : Source} {fr : Fragment} {ps : List Expr}

theorem placesOf_eq (sources : List Source) : places.placesOf sources = sources.flatMap places := by
  induction sources with
  | nil => rfl
  | cons s rest ih => rw [places.placesOf, ih, List.flatMap_cons]

theorem fragmentsOf_eq (sources : List Source) :
    fragments.fragmentsOf sources = sources.flatMap fragments := by
  induction sources with
  | nil => rfl
  | cons s rest ih => rw [fragments.fragmentsOf, ih, List.flatMap_cons]

theorem IsOpen.eq_of_mem_places (h : s.IsOpen) (hplace : (fr, ps) ∈ s.places) :
    ∀ p ∈ ps, p = .true_ ∨ p = fr.partition := by
  induction h generalizing ps with
  | leaf =>
    obtain ⟨f, -, h⟩ := List.mem_map.1 hplace
    cases h
    simp
  | tree _ ih =>
    obtain ⟨⟨f, qs⟩, hq, h⟩ := List.mem_map.1 hplace
    cases h
    rw [placesOf_eq] at hq
    obtain ⟨child, hchild, hq⟩ := List.mem_flatMap.1 hq
    exact List.forall_mem_cons.2 ⟨.inl rfl, ih child hchild hq⟩

theorem IsOpen.exists_place (h : s.IsOpen) (hfr : fr ∈ s.fragments) :
    ∃ ps, (fr, ps) ∈ s.places := by
  induction h with
  | leaf => exact ⟨_, List.mem_map.2 ⟨fr, hfr, rfl⟩⟩
  | @tree schema sources _ ih =>
    rw [fragments, fragmentsOf_eq] at hfr
    obtain ⟨child, hchild, hfr⟩ := List.mem_flatMap.1 hfr
    obtain ⟨ps, hplace⟩ := ih child hchild hfr
    refine ⟨.true_ :: ps, List.mem_map.2 ⟨(fr, ps), ?_, rfl⟩⟩
    rw [placesOf_eq]
    exact List.mem_flatMap.2 ⟨child, hchild, hplace⟩

mutual

theorem isSatisfiable_of_mem (s : Source) {filter : Expr} {cs : List (Fragment × Expr)}
    (h : s.candidates filter = .ok cs) {c : Fragment × Expr} (hc : c ∈ cs) : c.2.isSatisfiable := by
  match s with
  | leaf kind schema p fragments =>
    obtain ⟨e, -, h⟩ := bind_eq_ok.1 h
    split at h
    · obtain ⟨os, hos, rfl⟩ := filterMapM_eq_ok.1 h
      obtain ⟨o, ho, hoc⟩ := List.mem_filterMap.1 hc
      obtain ⟨f, -, hf⟩ := forall₂_mem hos ho
      obtain ⟨u, -, rfl⟩ := candidate_eq_ok hf
      obtain ⟨hs, h⟩ := Option.ite_none_right_eq_some.1 hoc
      cases h
      exact hs
    · cases h
      cases hc
  | tree schema p sources =>
    obtain ⟨e, -, h⟩ := bind_eq_ok.1 h
    split at h
    · exact isSatisfiable_of_memOf sources h hc
    · cases h
      cases hc

theorem isSatisfiable_of_memOf (sources : List Source) {filter : Expr} {cs : List (Fragment × Expr)}
    (h : candidates.candidatesOf filter sources = .ok cs) {c : Fragment × Expr} (hc : c ∈ cs) :
    c.2.isSatisfiable := by
  match sources with
  | [] =>
    cases h
    cases hc
  | s :: rest =>
    obtain ⟨first, hfirst, h⟩ := bind_eq_ok.1 h
    obtain ⟨others, hothers, h⟩ := bind_eq_ok.1 h
    cases h
    rcases List.mem_append.1 hc with hc | hc
    · exact isSatisfiable_of_mem s hfirst hc
    · exact isSatisfiable_of_memOf rest hothers hc

end

end Source

namespace Dataset

variable {d : Dataset} {fr : Fragment} {ps : List Expr}

theorem eq_of_mem_places (hopen : ∀ source ∈ d.sources, source.IsOpen) (h : (fr, ps) ∈ d.places) :
    ∀ p ∈ ps, p = .true_ ∨ p = fr.partition := by
  obtain ⟨source, hsource, h⟩ := List.mem_flatMap.1 h
  exact (hopen source hsource).eq_of_mem_places h

theorem exists_place (hopen : ∀ source ∈ d.sources, source.IsOpen) (hfr : fr ∈ d.fragments) :
    ∃ ps, (fr, ps) ∈ d.places := by
  obtain ⟨source, hsource, hfr⟩ := List.mem_flatMap.1 hfr
  obtain ⟨ps, h⟩ := (hopen source hsource).exists_place hfr
  exact ⟨ps, List.mem_flatMap.2 ⟨source, hsource, h⟩⟩

end Dataset

namespace Scan

variable {d : Dataset} {r : ScanRequest} {s : Scan} {tasks : List ScanTask} {fr : Fragment}
  {ps : List Expr}

theorem isSatisfiable_of_mem_plan (h : s.plan = .ok tasks) {t : ScanTask} (ht : t ∈ tasks) :
    t.filter.isSatisfiable := by
  obtain ⟨tss, htss, h⟩ := bind_eq_ok.1 h
  cases h
  obtain ⟨ts, hts, ht⟩ := List.mem_flatten.1 ht
  obtain ⟨source, -, hsource⟩ := forall₂_mem (mapM_eq_ok.1 htss) hts
  obtain ⟨cs, hcs, h⟩ := bind_eq_ok.1 hsource
  cases h
  obtain ⟨c, hc, rfl⟩ := List.mem_map.1 ht
  exact source.isSatisfiable_of_mem hcs hc

theorem planned_or_ruledOut (hplan : s.plan = .ok tasks) (hplace : (fr, ps) ∈ s.dataset.places) :
    (∃ t ∈ tasks, t.fragment = fr) ∨
      ∃ qs u, (∀ q ∈ qs, q ∈ ps) ∧ Narrowed s.filter qs u ∧ u.isSatisfiable = false := by
  obtain ⟨os, hos, rfl⟩ := plan_eq_ok hplan
  obtain ⟨o, ho, hleft⟩ := forall₂_mem hos.flip hplace
  cases hleft with
  | @kept fr ps u hn =>
    exact .inl ⟨s.task (fr, u),
      List.mem_map.2 ⟨(fr, u), List.mem_filterMap.2 ⟨_, ho, rfl⟩, rfl⟩, rfl⟩
  | @ruledOut fr ps qs u hn hu => exact .inr ⟨ps, u, fun q hq => List.mem_append_left _ hq, hn, hu⟩

theorem eq_true_of_mem_plan (h : build d r = .ok s) (hopen : ∀ source ∈ d.sources, source.IsOpen)
    (hplan : s.plan = .ok tasks) (hfixes : fr.partition.Fixes d.schema)
    (hbound : ∀ n ∈ r.filter.fields, (fr.partition.boundTo? n).isSome) {t : ScanTask}
    (ht : t ∈ tasks) (hfr : t.fragment = fr) : t.filter = .true_ := by
  obtain ⟨type, htype, htruth⟩ := typeIn_build h
  obtain ⟨rfl, hfold, -⟩ := build_eq_ok h
  obtain ⟨ps, hplace, hn, -⟩ := mem_plan hplan ht
  rw [hfr] at hplace
  exact hfixes.eq_true_of_narrowed (Expr.typed_of_typeIn htype) htruth hbound
    (List.mem_cons_of_mem _ (Dataset.mem_places hplace).2)
    (List.forall_mem_cons.2 ⟨.inl rfl, Dataset.eq_of_mem_places hopen hplace⟩) (.cons hfold hn)
    (isSatisfiable_of_mem_plan hplan ht)

/--
A filter all of whose fields are fixed by the partition of a fragment, which was read from a path,
is decided by the planner. Nothing is left of it where the fragment is planned; and in rows that
hold the values of the partition it is true, if it can be evaluated there, just if the fragment is
planned.
-/
theorem planned_iff_mask (h : build d r = .ok s) (hopen : ∀ source ∈ d.sources, source.IsOpen)
    (hplan : s.plan = .ok tasks) (hfr : fr ∈ d.fragments) {scheme : Scheme} {path : String}
    (hs : scheme.IsUsual) (hp : scheme.parse path = .ok fr.partition)
    (htypes : ∀ n v, fr.partition.boundTo? n = some v → v.isNull = false →
      v.dataType = (d.schema.typeOf n).plain)
    (hbound : ∀ n ∈ r.filter.fields, (fr.partition.boundTo? n).isSome) :
    (∀ t ∈ tasks, t.fragment = fr → t.filter = .true_) ∧
      (r.filter.isQuiet → r.filter.recodes d.schema = false →
        ∀ (b : Batch) (i : Nat) (m : List (Option Bool)),
        b.schema = d.schema → i < b.rows →
        (∀ n ∈ r.filter.fields, ∀ v, fr.partition.boundTo? n = some v →
          b.row i n = some (ofScalar v)) →
        r.filter.mask b = .ok m → ((∃ t ∈ tasks, t.fragment = fr) ↔ m[i]? = some (some true))) := by
  have hfixes := Scheme.fixes_of_parse hs hp htypes
  have decided (t : ScanTask) := eq_true_of_mem_plan (t := t) h hopen hplan hfixes hbound
  refine ⟨decided, fun hq hr b i m hb hi hrow hm => ?_⟩
  obtain ⟨rfl, hfold, -⟩ := build_eq_ok h
  rw [← hb] at hr hfixes
  obtain ⟨v, hv, htruth⟩ := Expr.mask_truth hm hq hr hi
  rw [← Expr.truth?_only fun n hn => hn] at htruth
  -- folding is one more step on the way, under nothing
  have left {ps : List Expr} {u : Expr} (hps : ∀ q ∈ ps, q = .true_ ∨ q = fr.partition)
      (hu : Narrowed s.filter ps u) : u.truth? ((b.row i).only r.filter.fields) = some v :=
    hfixes.truth? (List.forall_mem_cons.2 ⟨.inl rfl, hps⟩) (.cons hfold hu) hq
      (hfixes.obeys_only hrow) htruth
  rw [hv, Option.some.injEq]
  constructor
  · rintro ⟨t, ht, he⟩
    obtain ⟨ps, hplace, hn, -⟩ := mem_plan hplan ht
    rw [he] at hplace
    have hleft := left (Dataset.eq_of_mem_places hopen hplace) hn
    rw [decided t ht he] at hleft
    exact (Option.some.inj hleft).symm
  · rintro rfl
    obtain ⟨ps, hplace⟩ := Dataset.exists_place hopen hfr
    refine (planned_or_ruledOut hplan hplace).resolve_right ?_
    rintro ⟨qs, u, hqs, hn, hu⟩
    exact Expr.not_true_of_unsatisfiable hu
      (left (fun q hq => Dataset.eq_of_mem_places hopen hplace q (hqs q hq)) hn)

section Keys

def ofKey (v : Scalar) : Batch where
  rows := 1
  columns :=
    [⟨"x", true, ⟨.int .int64, [some Expr.seven]⟩, .empty⟩, ⟨"k", true, .constant v 1, .empty⟩]
  sized := by simp [Column.length, Column.constant]; rfl

theorem planned_iff_mask_keyed :
    ∃ s tasks m, build (ofKeys oneAndTwo (.int .int32)) aboveOne = .ok s ∧
    s.plan = .ok tasks ∧ aboveOne.filter.mask (ofKey two) = .ok m ∧ m[0]? = some (some true) ∧
    (∃ t ∈ tasks, t.fragment = keyedFile ("k=2", two)) ∧
    ∀ t ∈ tasks, t.fragment = keyedFile ("k=2", two) → t.filter = .true_ := by
  obtain ⟨s, tasks, m, hs, hplan, hm, hi⟩ : ∃ s tasks m,
      build (ofKeys oneAndTwo (.int .int32)) aboveOne = .ok s ∧
      s.plan = .ok tasks ∧ aboveOne.filter.mask (ofKey two) = .ok m ∧ m[0]? = some (some true) :=
    ⟨_, _, _, rfl, rfl, rfl, rfl⟩
  have hbound (n : String) (v : Scalar)
      (h : (keyedFile ("k=2", two)).partition.boundTo? n = some v) :
      n = "k" ∧ v = two := by
    have hlookup : [("k", two)].lookup n = some v := h
    cases List.mem_singleton.1 (mem_of_lookup hlookup)
    exact ⟨rfl, rfl⟩
  have hfr : keyedFile ("k=2", two) ∈ (ofKeys oneAndTwo (.int .int32)).fragments :=
    List.mem_append_left _ (List.mem_cons_of_mem _ List.mem_cons_self)
  have husual : Scheme.IsUsual (.hive [⟨"k", .int .int32, true, .empty⟩] true) := trivial
  have hparse : Scheme.parse (.hive [⟨"k", .int .int32, true, .empty⟩] true) "k=2/a" =
      .ok (keyedFile ("k=2", two)).partition := by rfl
  obtain ⟨hdecided, hiff⟩ := planned_iff_mask hs
    (fun source hsource => by cases List.mem_singleton.1 hsource; exact .leaf) hplan hfr
      husual hparse
    (fun n v h _ => by obtain ⟨rfl, rfl⟩ := hbound n v h; rfl)
    (fun n hn => by cases List.mem_singleton.1 hn; rfl)
  refine ⟨s, tasks, m, hs, hplan, hm, hi, ?_, hdecided⟩
  refine (hiff rfl rfl (ofKey two) 0 m rfl (by decide) (fun n hn v h => ?_) hm).2 hi
  obtain ⟨rfl, rfl⟩ := hbound n v h
  rfl

/-- A key that is not a number, in quiet bits, is above one in signalling bits only as a column. -/
theorem planned_iff_mask_signalling :
    let v : Scalar := ⟨.float32, some ⟨0x7fc00000⟩⟩
    let r := whereKey .gt ⟨.float32, some ⟨0x7f800001⟩⟩
    Scheme.parse (.hive [⟨"k", .float32, true, .empty⟩] true) "k=nan/a" =
      .ok (keyedFile ("k=nan", v)).partition ∧
      (∃ s, build (ofKeys [("k=nan", v)] .float32) r = .ok s ∧ s.plan = .ok []) ∧
      (keyedFile ("k=nan", v)).partition.boundTo? "k" = some v ∧
      (ofKey v).row 0 "k" = some (ofScalar v) ∧ r.filter.mask (ofKey v) = .ok [some true] :=
  ⟨by decide +kernel, ⟨_, rfl, rfl⟩, rfl, rfl, rfl⟩

end Keys

end Scan

end TableScan
