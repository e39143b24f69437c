import TableScan.Scan
import TableScan.Proofs.Conforming
import TableScan.Proofs.Guarantee

namespace TableScan

inductive Narrowed : Expr → List Expr → Expr → Prop
  | nil (e : Expr) : Narrowed e [] e
  | cons {e e' u p : Expr} {ps : List Expr} : e.simplify p = .ok e' → Narrowed e' ps u →
      Narrowed e (p :: ps) u

/-- What the expressions on a way say of fields carries over to what is left of the filter at each.
-/
inductive Carried (s : Schema) : Expr → List Expr → Prop
  | nil (e : Expr) : Carried s e []
  | cons {e p : Expr} {ps : List Expr} : e.Carries s p →
      (∀ e', e.simplify p = .ok e' → Carried s e' ps) → Carried s e (p :: ps)

theorem Carried.of_types {s : Schema} {ps : List Expr} (h : ∀ p ∈ ps, p.Types s) (e : Expr) :
    Carried s e ps := by
  induction ps generalizing e with
  | nil => exact .nil e
  | cons p ps ih =>
    exact .cons ((h p List.mem_cons_self).carries e) fun e' _ =>
      ih (fun q hq => h q (List.mem_cons_of_mem p hq)) e'

theorem Carried.of_append {s : Schema} {e : Expr} {ps qs : List Expr} (h : Carried s e (ps ++ qs)) :
    Carried s e ps := by
  induction ps generalizing e with
  | nil => exact .nil e
  | cons p ps ih =>
    cases h with
    | cons hc hrest => exact .cons hc fun e' he' => ih (hrest e' he')

namespace Narrowed

variable {e u : Expr} {ps : List Expr}

theorem isQuiet (h : Narrowed e ps u) (he : e.isQuiet) (hps : ∀ p ∈ ps, p.isQuiet) : u.isQuiet := by
  induction h with
  | nil => exact he
  | @cons e e' u p ps hs _ ih =>
    have hp := hps p List.mem_cons_self
    exact ih ((Expr.simplified_of_ok hs).isQuiet
      (fun n v hv => (Facts.IsQuiet.ofGuarantee hp n).value v hv) he)
        fun q hq => hps q (List.mem_cons_of_mem p hq)

theorem recodes (h : Narrowed e ps u) {s : Schema} (he : e.recodes s = false) :
    u.recodes s = false := by
  induction h with
  | nil => exact he
  | cons hs _ ih => exact ih (((Expr.simplified_of_ok hs).recodes s).2 he)

theorem fields_subset (h : Narrowed e ps u) {n : String} (hn : n ∈ u.fields) :
    n ∈ e.fields ∧ ∀ p ∈ ps, (Facts.ofGuarantee p n).value = none := by
  induction h with
  | nil => exact ⟨hn, fun p hp => absurd hp List.not_mem_nil⟩
  | cons hs _ ih =>
    obtain ⟨hn, hps⟩ := ih hn
    obtain ⟨hn, hp⟩ := (Expr.simplified_of_ok hs).fields_subset hn
    exact ⟨hn, List.forall_mem_cons.2 ⟨hp, hps⟩⟩

theorem truth? (h : Narrowed e ps u) {s : Schema} {ρ : Row} {t : Option Bool} (hc : Carried s e ps)
    (he : e.isQuiet) (hps : ∀ p ∈ ps, p.isQuiet ∧ ρ.Obeys s p) (ht : e.truth? ρ = some t) :
    u.truth? ρ = some t := by
  induction h with
  | nil => exact ht
  | @cons e e' u p ps hs _ ih =>
    cases hc with
    | cons hc hrest =>
      obtain ⟨hp, hρ⟩ := hps p List.mem_cons_self
      have he' := (Expr.simplified_of_ok hs).isQuiet
        (fun n v hv => (Facts.IsQuiet.ofGuarantee hp n).value v hv) he
      exact ih (hrest e' hs) he' (fun q hq => hps q (List.mem_cons_of_mem p hq))
        (hc.truth? hs he hp hρ ht)

end Narrowed

namespace Expr

variable {e u : Expr}

theorem simplified_fold (h : e.fold = .ok u) : Simplified (fun _ => Facts.none_) e u :=
  simplified_of_ok h

theorem isQuiet_fold (h : e.fold = .ok u) (he : e.isQuiet) : u.isQuiet :=
  (simplified_fold h).isQuiet (fun n v hv => by cases hv) he

theorem recodes_fold {s : Schema} (h : e.fold = .ok u) (he : e.recodes s = false) :
    u.recodes s = false :=
  ((simplified_fold h).recodes s).2 he

theorem truth?_fold {ρ : Row} {t : Option Bool} (h : e.fold = .ok u) (he : e.isQuiet)
    (ht : e.truth? ρ = some t) : u.truth? ρ = some t := by
  have hnone (x : Value) : Facts.none_.Describes (fun _ => True) x := by
    constructor
    · intro v hv
      cases hv
    · intro _ b hb
      cases hb
    · intro _ op v r t _ hd
      rw [Facts.Holds.decide_none] at hd
      cases hd
  have hfits : Fits (fun _ => Facts.none_) ρ (fun _ _ => True) e :=
    ⟨fun n _ x _ => hnone x, meets_of_fields fun _ _ _ _ _ _ => trivial, he⟩
  exact ((simplified_fold h).refines hfits fun n v hv => by cases hv).truth t ht

end Expr

namespace Source

def places : Source → List (Fragment × List Expr)
  | leaf _ _ p fragments => fragments.map fun f => (f, [p, f.partition])
  | tree _ p sources => (placesOf sources).map fun (f, ps) => (f, p :: ps)
where
  placesOf : List Source → List (Fragment × List Expr)
    | [] => []
    | s :: rest => s.places ++ placesOf rest

theorem candidate_eq_ok {filter : Expr} {f : Fragment} {o : Option (Fragment × Expr)}
    (h : candidate filter f = .ok o) : ∃ u, filter.simplify f.partition = .ok u ∧
      o = if u.isSatisfiable then some (f, u) else none := by
  obtain ⟨u, hu, h⟩ := bind_eq_ok.1 h
  cases h
  exact ⟨u, hu, rfl⟩

/-- What a filter leaves at a place: what the way to it leaves, or nothing as soon as that selects
no row. -/
inductive Left (e : Expr) : Fragment × List Expr → Option (Fragment × Expr) → Prop
  | kept {fr : Fragment} {ps : List Expr} {u : Expr} :
      Narrowed e ps u → Left e (fr, ps) (some (fr, u))
  | ruledOut {fr : Fragment} {ps qs : List Expr} {u : Expr} :
      Narrowed e ps u → u.isSatisfiable = false →
      Left e (fr, ps ++ qs) none

theorem Left.cons {e e' p : Expr} {fr : Fragment} {ps : List Expr} {o : Option (Fragment × Expr)}
    (hs : e.simplify p = .ok e') (h : Left e' (fr, ps) o) : Left e (fr, p :: ps) o := by
  cases h with
  | kept hn => exact .kept (.cons hs hn)
  | @ruledOut _ ps qs u hn hu =>
    have hout : Left e (fr, (p :: ps) ++ qs) none := .ruledOut (.cons hs hn) hu
    exact hout

theorem left_of_unsatisfiable {e e' p : Expr} (hs : e.simplify p = .ok e')
    (hu : e'.isSatisfiable = false) (places : List (Fragment × List Expr)) :
    List.Forall₂ (Left e) (places.map fun x => (x.1, p :: x.2)) (places.map fun _ => none) := by
  induction places with
  | nil => exact .nil
  | cons x places ih =>
    have hout : Left e (x.1, [p] ++ x.2) none := .ruledOut (.cons hs (.nil e')) hu
    exact .cons hout ih

mutual

theorem candidates_eq_ok (s : Source) {filter : Expr} {cs : List (Fragment × Expr)}
    (h : s.candidates filter = .ok cs) :
    ∃ os, List.Forall₂ (Left filter) s.places os ∧ cs = os.filterMap id := by
  match s with
  | leaf kind schema p fragments =>
    obtain ⟨e, he, h⟩ := bind_eq_ok.1 h
    split at h
    · obtain ⟨os, hos, rfl⟩ := filterMapM_eq_ok.1 h
      refine ⟨os, List.forall₂_map_left_iff.2 (hos.imp fun f o ho => ?_), rfl⟩
      obtain ⟨u, hu, rfl⟩ := candidate_eq_ok ho
      split
      · exact .kept (.cons he (.cons hu (.nil u)))
      · rename_i hsat
        have hout : Left filter (f, [p, f.partition] ++ []) none :=
          .ruledOut (.cons he (.cons hu (.nil u))) (by simpa using hsat)
        exact hout
    · rename_i hsat
      cases h
      have hleft :=
        left_of_unsatisfiable he (by simpa using hsat) (fragments.map fun f => (f, [f.partition]))
      rw [List.map_map] at hleft
      exact ⟨_, hleft, by simp⟩
  | tree schema p sources =>
    obtain ⟨e, he, h⟩ := bind_eq_ok.1 h
    split at h
    · obtain ⟨os, hos, rfl⟩ := candidatesOf_eq_ok sources h
      exact ⟨os, List.forall₂_map_left_iff.2 (hos.imp fun _ _ ho => ho.cons he), rfl⟩
    · rename_i hsat
      cases h
      exact ⟨_, left_of_unsatisfiable he (by simpa using hsat) _, by simp⟩

theorem candidatesOf_eq_ok (sources : List Source) {filter : Expr} {cs : List (Fragment × Expr)}
    (h : candidates.candidatesOf filter sources = .ok cs) :
    ∃ os, List.Forall₂ (Left filter) (places.placesOf sources) os ∧ cs = os.filterMap id := by
  match sources with
  | [] =>
    cases h
    exact ⟨[], .nil, rfl⟩
  | s :: rest =>
    obtain ⟨first, hfirst, h⟩ := bind_eq_ok.1 h
    obtain ⟨others, hothers, h⟩ := bind_eq_ok.1 h
    cases h
    obtain ⟨os, hos, rfl⟩ := candidates_eq_ok s hfirst
    obtain ⟨os', hos', rfl⟩ := candidatesOf_eq_ok rest hothers
    exact ⟨os ++ os', List.rel_append hos hos', List.filterMap_append.symm⟩

end

end Source

def FileAccess.none_ : FileAccess := (Storage.empty .memory).access

def Dataset.places (d : Dataset) : List (Fragment × List Expr) := d.sources.flatMap (·.places)

namespace Source

mutual

theorem mem_places (s : Source) {fr : Fragment} {ps : List Expr} (h : (fr, ps) ∈ s.places) :
    fr ∈ s.fragments ∧ fr.partition ∈ ps := by
  match s with
  | leaf kind schema p fragments =>
    obtain ⟨f, hf, h⟩ := List.mem_map.1 h
    cases h
    exact ⟨hf, by simp⟩
  | tree schema p sources =>
    obtain ⟨⟨f, ps⟩, hf, h⟩ := List.mem_map.1 h
    cases h
    obtain ⟨hfr, hp⟩ := mem_placesOf sources hf
    exact ⟨hfr, List.mem_cons_of_mem p hp⟩

theorem mem_placesOf (sources : List Source) {fr : Fragment} {ps : List Expr}
    (h : (fr, ps) ∈ places.placesOf sources) :
    fr ∈ fragments.fragmentsOf sources ∧ fr.partition ∈ ps := by
  match sources with
  | [] => cases h
  | s :: rest =>
    rcases List.mem_append.1 h with h | h
    · exact (mem_places s h).imp_left (List.mem_append_left _)
    · exact (mem_placesOf rest h).imp_left (List.mem_append_right _)

end

end Source

namespace Dataset

variable {d : Dataset} {fr : Fragment} {ps : List Expr}

theorem mem_places (h : (fr, ps) ∈ d.places) : fr ∈ d.fragments ∧ fr.partition ∈ ps := by
  obtain ⟨source, hs, h⟩ := List.mem_flatMap.1 h
  exact (source.mem_places h).imp_left fun h => List.mem_flatMap.2 ⟨source, hs, h⟩

def IsUniform (d : Dataset) (files : FileAccess) : Prop :=
  ∀ fr ∈ d.fragments, ∀ file, (fr.origin.openFile files).result = .ok file → file.image.IsUniform

end Dataset

theorem Schema.field?_project {s u : Schema} {names : List String} (h : s.project names = .ok u)
    (n : String) : u.field? n = if n ∈ names then s.field? n else none := by
  induction names generalizing u with
  | nil =>
    cases h
    rfl
  | cons name names ih =>
    cases mapM_eq_ok.1 h with
    | @cons _ f _ u hf hu =>
      have hrest := ih (mapM_eq_ok.2 hu)
      split at hf
      · rename_i g hg
        cases hf
        have hname : f.name = name := name_of_field? hg
        rw [field?, List.find?_cons]
        by_cases hn : f.name = n
        · have hmem : n ∈ name :: names := by simp [← hn, hname]
          rw [if_pos hmem, ← hn, hname, hg]
          simp
        · have hmem : n ∈ name :: names ↔ n ∈ names := by
            simp [show n ≠ name from fun h => hn (hname.trans h.symm)]
          simp only [hn, decide_false, hmem]
          exact hrest
      · cases hf

namespace Scan

variable {d : Dataset} {r : ScanRequest} {s : Scan} {files : FileAccess} {bs : List Batch}

theorem build_eq_ok (h : build d r = .ok s) : s.dataset = d ∧ r.filter.fold = .ok s.filter ∧
    ∃ names, columnsOf d.schema r.columns = .ok names ∧
      d.schema.project names = .ok s.projected := by
  obtain ⟨-, -, h⟩ := bind_eq_ok.1 h
  obtain ⟨names, hnames, h⟩ := bind_eq_ok.1 h
  obtain ⟨projected, hprojected, h⟩ := bind_eq_ok.1 h
  obtain ⟨-, -, h⟩ := bind_eq_ok.1 h
  obtain ⟨filter, hfilter, h⟩ := bind_eq_ok.1 h
  cases h
  exact ⟨rfl, hfilter, names, hnames, hprojected⟩

theorem field?_projected (h : build d r = .ok s) (hc : r.columns = none) (n : String) :
    s.projected.field? n = d.schema.field? n := by
  obtain ⟨-, -, names, hnames, hp⟩ := build_eq_ok h
  rw [hc] at hnames
  cases hnames
  rw [Schema.field?_project hp]
  split
  · rfl
  · rename_i hn
    cases hf : d.schema.field? n with
    | none => rfl
    | some f =>
      exact absurd (Schema.mem_names_of_field? hf) hn

theorem mem_projected (h : build d r = .ok s) (hc : r.columns = none) {n : String} {f : Field}
    (hf : d.schema.field? n = some f) : n ∈ s.projected.names := by
  rw [← field?_projected h hc] at hf
  exact Schema.mem_names_of_field? hf

def task (s : Scan) (c : Fragment × Expr) : ScanTask :=
  ⟨c.1, c.2, ⟨s.dataset.schema, s.projected, s.options.batchSize⟩⟩

@[simp] theorem fragment_task (c : Fragment × Expr) : (s.task c).fragment = c.1 := rfl

@[simp] theorem filter_task (c : Fragment × Expr) : (s.task c).filter = c.2 := rfl

@[simp] theorem context_task (c : Fragment × Expr) :
    (s.task c).context = ⟨s.dataset.schema, s.projected, s.options.batchSize⟩ := rfl

theorem plan_eq_ok {tasks : List ScanTask} (h : s.plan = .ok tasks) :
    ∃ os, List.Forall₂ (Source.Left s.filter) s.dataset.places os ∧
      tasks = (os.filterMap id).map s.task := by
  obtain ⟨tss, htss, h⟩ := bind_eq_ok.1 h
  cases h
  have run {sources : List Source} {tss : List (List ScanTask)}
      (h : List.Forall₂ (fun source ts => s.tasksOf s.projected source = .ok ts) sources tss) :
      ∃ os, List.Forall₂ (Source.Left s.filter) (sources.flatMap (·.places)) os ∧
        tss.flatten = (os.filterMap id).map s.task := by
    induction h with
    | nil => exact ⟨[], .nil, rfl⟩
    | cons hsource _ ih =>
      obtain ⟨os', hos', htss⟩ := ih
      obtain ⟨cs, hcs, hts⟩ := bind_eq_ok.1 hsource
      cases hts
      obtain ⟨os, hos, rfl⟩ := Source.candidates_eq_ok _ hcs
      refine ⟨os ++ os', List.rel_append hos hos', ?_⟩
      rw [List.flatten_cons, htss, List.filterMap_append, List.map_append]
      rfl
  exact run (mapM_eq_ok.1 htss)

theorem mem_plan {tasks : List ScanTask} {t : ScanTask} (h : s.plan = .ok tasks) (ht : t ∈ tasks) :
    ∃ ps, (t.fragment, ps) ∈ s.dataset.places ∧ Narrowed s.filter ps t.filter ∧
      t.context = ⟨s.dataset.schema, s.projected, s.options.batchSize⟩ := by
  obtain ⟨os, hos, rfl⟩ := plan_eq_ok h
  obtain ⟨c, hc, rfl⟩ := List.mem_map.1 ht
  obtain ⟨o, ho, rfl⟩ := List.mem_filterMap.1 hc
  obtain ⟨place, hplace, hleft⟩ := forall₂_mem hos ho
  cases hleft with
  | kept hn => exact ⟨_, hplace, hn, rfl⟩

theorem results_eq_ok {t : ScanTask} (h : t.results files = bs.map .ok) :
    t.items files = bs.map .ok := by
  unfold ScanTask.results at h
  generalize t.items files = items at h ⊢
  induction items generalizing bs with
  | nil =>
    cases bs with
    | nil => rfl
    | cons b bs => cases h
  | cons item items ih =>
    cases bs with
    | nil => cases h
    | cons b bs =>
      obtain ⟨hi, hrest⟩ := List.cons.inj h
      rw [List.map_cons, ← ih hrest, mapError_eq_ok.1 hi]

theorem collect_eq_ok {items : Batches} (h : ScanTask.collect items = .ok bs) :
    items = bs.map .ok := by
  have hall := mapM_eq_ok.1 h
  induction hall with
  | nil => rfl
  | cons hb hrest ih => exact congrArg₂ List.cons hb (ih (mapM_eq_ok.2 hrest))

theorem resultsOf_eq_ok {tasks : List ScanTask} (h : ScanTask.resultsOf files tasks = bs.map .ok) :
    ∃ bss : List (List Batch), List.Forall₂ (fun t bs => t.items files = bs.map .ok) tasks bss ∧
      bs = bss.flatten := by
  induction tasks generalizing bs with
  | nil =>
    cases bs with
    | nil => exact ⟨[], .nil, rfl⟩
    | cons b bs => cases h
  | cons t tasks ih =>
    obtain ⟨first, rest, rfl, hfirst, hrest⟩ := List.append_eq_map_iff.1 h
    obtain ⟨bss, hbss, rfl⟩ := ih hrest.symm
    exact ⟨first :: bss, .cons (results_eq_ok hfirst.symm) hbss, rfl⟩

theorem gather_eq_ok {α : Type} {plan : Except Failure (List ScanTask)} {f : List Batch → α} {x : α}
    (h : (gather files plan f).result = .ok x) : ∃ tasks bss, plan = .ok tasks ∧
      List.Forall₂ (fun t bs => t.items files = bs.map .ok) tasks bss ∧ x = f bss.flatten := by
  simp only [gather, Accounted.result_bind] at h
  obtain ⟨tasks, htasks, h⟩ := bind_eq_ok.1 h
  obtain ⟨bs, hbs, h⟩ := map_eq_ok.1 h
  cases h
  obtain ⟨bss, hbss, rfl⟩ := resultsOf_eq_ok (collect_eq_ok hbs)
  exact ⟨tasks, bss, htasks, hbss, rfl⟩

theorem toBatches_eq_ok (h : (s.toBatches files).result = .ok bs) :
    ∃ tasks bss, s.plan = .ok tasks ∧
      List.Forall₂ (fun t bs => t.items files = bs.map .ok) tasks bss ∧ bs = bss.flatten :=
  gather_eq_ok h

/-- What a scan yields of a place: the batches of its task, or none where the filter rules it out.
-/
inductive Yields (s : Scan) (files : FileAccess) : Fragment × List Expr → List Batch → Prop
  | scanned {fr : Fragment} {ps : List Expr} {u : Expr} {bs : List Batch} : Narrowed s.filter ps u →
      (s.task (fr, u)).items files = bs.map .ok → Yields s files (fr, ps) bs
  | ruledOut {fr : Fragment} {ps qs : List Expr} {u : Expr} : Narrowed s.filter ps u →
      u.isSatisfiable = false → Yields s files (fr, ps ++ qs) []

theorem toBatches_yields (h : (s.toBatches files).result = .ok bs) :
    ∃ bss, List.Forall₂ (s.Yields files) s.dataset.places bss ∧ bs = bss.flatten := by
  obtain ⟨tasks, bss, hplan, hitems, rfl⟩ := toBatches_eq_ok h
  obtain ⟨os, hos, rfl⟩ := plan_eq_ok hplan
  have run {places : List (Fragment × List Expr)} {os : List (Option (Fragment × Expr))}
      {bss : List (List Batch)} (hos : List.Forall₂ (Source.Left s.filter) places os)
      (hitems : List.Forall₂ (fun t bs => t.items files = bs.map .ok)
        ((os.filterMap id).map s.task) bss) :
      ∃ css, List.Forall₂ (s.Yields files) places css ∧ bss.flatten = css.flatten := by
    induction hos generalizing bss with
    | nil =>
      cases hitems
      exact ⟨[], .nil, rfl⟩
    | cons hleft _ ih =>
      cases hleft with
      | kept hn =>
        cases hitems with
        | @cons _ bs _ bss hbs hitems =>
          obtain ⟨css, hcss, heq⟩ := ih hitems
          exact ⟨bs :: css, .cons (.scanned hn hbs) hcss, by
            rw [List.flatten_cons, List.flatten_cons, heq]⟩
      | ruledOut hn hu =>
        obtain ⟨css, hcss, heq⟩ := ih hitems
        exact ⟨[] :: css, .cons (.ruledOut hn hu) hcss, heq⟩
  exact run hos hitems

/--
A row that a scan yields is one of a fragment, as the dataset has it. What the expressions on the
way to the fragment leave of the filter is true of it.
-/
theorem mem_toBatches (h : (s.toBatches files).result = .ok bs) (hf : s.dataset.IsUniform files)
    (hq : s.filter.isQuiet) (hr : s.filter.recodes s.dataset.schema = false)
    (hps : ∀ fr ps, (fr, ps) ∈ s.dataset.places → ∀ p ∈ ps, p.isQuiet) {b : Batch} {i : Nat}
    (hb : b ∈ bs) (hi : i < b.rows) :
    ∃ fr ps u p, (fr, ps) ∈ s.dataset.places ∧ Narrowed s.filter ps u ∧
      (fr.seen s.dataset.schema p).satisfies u ∧
      b.tuple i = (fr.seen s.dataset.schema p).project s.projected ∧
      ∀ n f, s.dataset.schema.field? n = some f → n ∈ u.fields ∨ n ∈ s.projected.names →
        ∃ c, fr.seen s.dataset.schema p n = some c ∧ c.1 = f.type := by
  obtain ⟨tasks, bss, htasks, hbss, rfl⟩ := toBatches_eq_ok h
  obtain ⟨bs, hbs, hb⟩ := List.mem_flatten.1 hb
  obtain ⟨t, ht, hitems⟩ := forall₂_mem hbss hbs
  obtain ⟨ps, hplace, hn, hctx⟩ := mem_plan htasks ht
  have hd : t.context.dataset = s.dataset.schema := by rw [hctx]
  have hp : t.context.projected = s.projected := by rw [hctx]
  obtain ⟨file, -, hsome, heq⟩ := ScanTask.tuples_items hitems (hn.isQuiet hq (hps _ _ hplace))
    (by rw [hd]; exact hn.recodes hr) (hf _ (Dataset.mem_places hplace).1)
  have hmem : b.tuple i ∈ bs.flatMap Batch.tuples :=
    List.mem_flatMap.2 ⟨b, hb, List.mem_map.2 ⟨i, List.mem_range.2 hi, rfl⟩⟩
  rw [heq] at hmem
  obtain ⟨q, hq, htuple⟩ := List.mem_map.1 hmem
  obtain ⟨hq, hsat⟩ := List.mem_filter.1 hq
  obtain ⟨p, hp', rfl⟩ := List.mem_map.1 hq
  rw [hd] at hsome hsat htuple
  rw [hp] at hsome htuple
  exact ⟨_, ps, t.filter, p, hplace, hn, hsat, htuple.symm, hsome p hp'⟩

end Scan

end TableScan
