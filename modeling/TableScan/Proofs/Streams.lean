import TableScan.Proofs.Planning
import TableScan.Scan.Results

/-!
Streams of results. A task yields the batches that have rows, up to its first failure; the tasks of
a scan yield what each of them yields alone, one task after the other.
-/

namespace TableScan

section Drains

variable {σ α : Type} {next : σ → Option α × σ} {rest : σ → List α} {s s' : σ}

inductive Drains (next : σ → Option α × σ) : σ → List α → Prop
  | done {s s' : σ} : next s = (none, s') → Drains next s []
  | item {s s' : σ} {x : α} {xs : List α} :
      next s = (some x, s') → Drains next s' xs → Drains next s (x :: xs)

/-- What is left of a stream: a step takes the first of it, and a stream that has ended has nothing
left. -/
structure Leaves (next : σ → Option α × σ) (rest : σ → List α) : Prop where
  step : ∀ s, rest s = (next s).1.toList ++ rest (next s).2
  stop : ∀ s, (next s).1 = none → rest (next s).2 = []

theorem Leaves.of_none (h : Leaves next rest) (hn : next s = (none, s')) : rest s = [] := by
  rw [h.step, h.stop s (congrArg Prod.fst hn), hn]
  rfl

theorem Leaves.of_some (h : Leaves next rest) {x : α} (hn : next s = (some x, s')) :
    rest s = x :: rest s' := by
  rw [h.step, hn]
  rfl

theorem Leaves.drains_iff (h : Leaves next rest) {xs : List α} :
    Drains next s xs ↔ xs = rest s := by
  constructor
  · intro hd
    induction hd with
    | done hn => exact (h.of_none hn).symm
    | item hn _ ih => rw [h.of_some hn, ih]
  · intro hxs
    induction xs generalizing s with
    | nil =>
      match hn : next s with
      | (none, s') => exact .done hn
      | (some x, s') => cases hxs.trans (h.of_some hn)
    | cons x xs ih =>
      match hn : next s with
      | (none, s') => cases hxs.trans (h.of_none hn)
      | (some y, s') =>
        obtain ⟨rfl, hxs⟩ := List.cons.inj (hxs.trans (h.of_some hn))
        exact .item hn (ih hxs)

end Drains

namespace TaskRun

variable (opening : Opening) {r r' : TaskRun} {item : Except Failure Batch}

theorem readOn_spec (t : ScanTask) (bs : Batches) : (readOn t bs).2.task = t ∧
    t.processAll bs = (readOn t bs).1.toList ++ (readOn t bs).2.rest opening ∧
    ((readOn t bs).1 = none → (readOn t bs).2.rest opening = []) := by
  induction bs with
  | nil => exact ⟨rfl, rfl, fun _ => rfl⟩
  | cons item bs ih =>
    rw [ScanTask.processAll, List.map_cons, readOn]
    cases item >>= t.process with
    | error e => exact ⟨rfl, rfl, fun _ => rfl⟩
    | ok b =>
      simp only [ScanTask.untilFailure]
      split
      · exact ih
      · exact ⟨rfl, rfl, fun h => by cases h⟩

theorem next_spec (r : TaskRun) : (r.next opening).2.task = r.task ∧
    r.rest opening = (r.next opening).1.toList ++ (r.next opening).2.rest opening ∧
    ((r.next opening).1 = none → (r.next opening).2.rest opening = []) := by
  match r with
  | ⟨t, .pending⟩ =>
    simp only [next, rest]
    split
    · exact readOn_spec opening t _
    · exact ⟨rfl, rfl, fun h => nomatch h⟩
  | ⟨t, .reading bs⟩ => exact readOn_spec opening t bs
  | ⟨t, .done⟩ => exact ⟨rfl, rfl, fun _ => rfl⟩

theorem leaves : Leaves (next opening) (rest opening) :=
  ⟨fun r => (next_spec opening r).2.1, fun r => (next_spec opening r).2.2⟩

theorem namedRest_of_result? (h : r.result? opening = some (item, r')) :
    r.namedRest opening = item :: r'.namedRest opening := by
  unfold result? at h
  split at h
  · rename_i hn
    cases h
    have htask : r'.task = r.task := by rw [← (next_spec opening r).1, hn]
    rw [namedRest, (leaves opening).of_some hn, List.map_cons, namedRest]
    congr 2
    funext y
    rw [named, named, htask]
  · cases h

theorem namedRest_of_result?_none (h : r.result? opening = none) : r.namedRest opening = [] := by
  unfold result? at h
  split at h
  · cases h
  · rename_i hn
    rw [namedRest, (leaves opening).of_none hn]
    rfl

end TaskRun

namespace ScanResults

def left (opening : Opening) (current : Option TaskRun) (pending : List ScanTask) : Batches :=
  (current.toList ++ pending.map TaskRun.start).flatMap (·.namedRest opening)

theorem rest_of_running {r : ScanResults} (h : ¬ r.cancelled) :
    r.rest = left r.opening r.current r.pending :=
  if_neg h

theorem flatMap_namedRest_of_none {opening : Opening} {current : Option TaskRun}
    (h : current.bind (·.result? opening) = none) :
    current.toList.flatMap (·.namedRest opening) = [] := by
  cases current with
  | none => rfl
  | some r => simpa using TaskRun.namedRest_of_result?_none opening h

theorem nextFrom_spec (opening : Opening) (current : Option TaskRun) (pending : List ScanTask) :
    left opening current pending = (nextFrom opening current pending).1.toList ++
      left opening (nextFrom opening current pending).2.1 (nextFrom opening current pending).2.2 ∧
    ((nextFrom opening current pending).1 = none →
      left opening (nextFrom opening current pending).2.1 (nextFrom opening current pending).2.2 =
        []) := by
  fun_induction nextFrom with
  | case1 current pending item run h =>
    obtain ⟨r, rfl, h⟩ := Option.bind_eq_some_iff.1 h
    exact ⟨by simp [left, TaskRun.namedRest_of_result? opening h], fun h => nomatch h⟩
  | case2 current h =>
    exact ⟨List.flatMap_append.trans (by rw [flatMap_namedRest_of_none h]; rfl), fun _ => rfl⟩
  | case3 current h t pending ih =>
    have hskip : left opening current (t :: pending) = left opening (some (.start t)) pending := by
      rw [left, List.flatMap_append, flatMap_namedRest_of_none h]
      rfl
    rw [hskip]
    exact ih

theorem next_of_running {r : ScanResults} (h : ¬ r.cancelled) :
    r.next.1 = (nextFrom r.opening r.current r.pending).1 ∧
    r.next.2.rest =
      left r.opening (nextFrom r.opening r.current r.pending).2.1
      (nextFrom r.opening r.current r.pending).2.2 := by
  rw [next, if_neg h]
  exact ⟨rfl, if_neg h⟩

theorem leaves : Leaves next rest where
  step r := by
    by_cases hc : r.cancelled
    · rw [next, if_pos hc, rest, if_pos hc]
      rfl
    · rw [rest_of_running hc, (next_of_running hc).1, (next_of_running hc).2]
      exact (nextFrom_spec ..).1
  stop r h := by
    by_cases hc : r.cancelled
    · rw [next, if_pos hc, rest, if_pos hc]
    · rw [(next_of_running hc).1] at h
      rw [(next_of_running hc).2]
      exact (nextFrom_spec ..).2 h

end ScanResults

/-- The batches that a task yields, and the failure that ends it, if one does. -/
structure Ending : Type where
  batches : List Batch
  failure? : Option Failure

namespace Ending

def items (o : Ending) : Batches := o.batches.map .ok ++ (o.failure?.map .error).toList

def under (path : String) (o : Ending) : Ending :=
  { o with failure? := o.failure?.map (.fragment path) }

def whole (os : List Ending) : Except Failure (List Batch) :=
  match os.findSome? (·.failure?) with
  | some e => .error e
  | none => .ok (os.flatMap (·.batches))

theorem items_under (path : String) (o : Ending) :
    (o.under path).items = o.items.map fun item => item.mapError (.fragment path) := by
  obtain ⟨batches, failure?⟩ := o
  cases failure? <;> simp [items, under, Except.mapError]

theorem collect_append (bs : List Batch) (items : Batches) :
    ScanTask.collect (bs.map .ok ++ items) = (ScanTask.collect items).map (bs ++ ·) := by
  induction bs with
  | nil => cases h : ScanTask.collect items <;> simp [h, Except.map]
  | cons b bs ih =>
    have hcons : ScanTask.collect (.ok b :: (bs.map .ok ++ items)) =
        (ScanTask.collect (bs.map .ok ++ items)).map (b :: ·) := by
      rw [ScanTask.collect, List.mapM_cons]
      cases h : List.mapM id (bs.map .ok ++ items) <;> simp [ScanTask.collect, h] <;> rfl
    rw [List.map_cons, List.cons_append, hcons, ih]
    cases ScanTask.collect items <;> rfl

theorem collect_items (os : List Ending) : ScanTask.collect (os.flatMap items) = whole os := by
  induction os with
  | nil => rfl
  | cons o os ih =>
    obtain ⟨batches, failure?⟩ := o
    rw [List.flatMap_cons, items, List.append_assoc, collect_append]
    cases failure? with
    | some e => rfl
    | none =>
      have hwhole : whole (⟨batches, none⟩ :: os) = (whole os).map (batches ++ ·) := by
        rw [whole, whole, List.findSome?_cons]
        dsimp only
        cases os.findSome? (·.failure?) <;> rfl
      rw [hwhole, ← ih]
      rfl

end Ending

namespace ScanTask

/-- How a task ends, by what its file gives: read to the end, or up to what fails first. -/
inductive Ends (opening : Opening) (t : ScanTask) : Ending → Prop
  | unopened {e : Failure} : opening t = .error e → Ends opening t ⟨[], some e⟩
  | exhausted {read made : List Batch} :
      opening t = .ok (read.map .ok) → read.mapM t.process = .ok made →
      Ends opening t ⟨made.filter (·.rows ≠ 0), none⟩
  | unread {read made : List Batch} {e : Failure} {behind : Batches} :
      opening t = .ok (read.map .ok ++ .error e :: behind) → read.mapM t.process = .ok made →
      Ends opening t ⟨made.filter (·.rows ≠ 0), some e⟩
  | unprocessed {read made : List Batch} {b : Batch} {e : Failure} {behind : Batches} :
      opening t = .ok (read.map .ok ++ .ok b :: behind) → read.mapM t.process = .ok made →
      t.process b = .error e →
      Ends opening t ⟨made.filter (·.rows ≠ 0), some e⟩

variable {opening : Opening} {t : ScanTask}

theorem processAll_append {read made : List Batch} (h : read.mapM t.process = .ok made)
    (behind : Batches) :
    t.processAll (read.map .ok ++ behind) =
      (made.filter (·.rows ≠ 0)).map .ok ++ t.processAll behind := by
  have hall := mapM_eq_ok.1 h
  clear h
  induction hall with
  | nil => rfl
  | @cons b u read made hb _ ih =>
    have hitem : ((.ok b : Except Failure Batch) >>= t.process) = .ok u := hb
    rw [processAll] at ih ⊢
    rw [List.map_cons, List.cons_append, List.map_cons, hitem, untilFailure, ih, List.filter_cons]
    by_cases hu : u.rows = 0 <;> simp [hu, processAll]

theorem Ends.rest {o : Ending} (h : t.Ends opening o) :
    (TaskRun.start t).rest opening = o.items := by
  cases h with
  | unopened h => simp [TaskRun.rest, TaskRun.start, h, Ending.items]
  | exhausted h hmade =>
    have hall := processAll_append hmade []
    rw [List.append_nil] at hall
    simp only [TaskRun.rest, TaskRun.start, h, hall]
    rfl
  | unread h hmade =>
    simp only [TaskRun.rest, TaskRun.start, h, processAll_append hmade]
    rfl
  | @unprocessed read made b e behind h hmade hfail =>
    have hitem : ((.ok b : Except Failure Batch) >>= t.process) = .error e := hfail
    simp only [TaskRun.rest, TaskRun.start, h, processAll_append hmade]
    rw [processAll, List.map_cons, hitem]
    rfl

theorem exists_ends (opening : Opening) (t : ScanTask) : ∃ o, t.Ends opening o := by
  cases h : opening t with
  | error e => exact ⟨_, .unopened h⟩
  | ok items =>
    -- what was read and made so far stands before the rest
    suffices hrest : ∀ (rest : Batches) (read made : List Batch), items = read.map .ok ++ rest →
        read.mapM t.process = .ok made → ∃ o, t.Ends opening o from hrest items [] [] rfl rfl
    intro rest
    induction rest with
    | nil =>
      rintro read made rfl hmade
      rw [List.append_nil] at h
      exact ⟨_, .exhausted h hmade⟩
    | cons item rest ih =>
      rintro read made rfl hmade
      cases item with
      | error e => exact ⟨_, .unread h hmade⟩
      | ok b =>
        cases hb : t.process b with
        | error e => exact ⟨_, .unprocessed h hmade hb⟩
        | ok u =>
          have hmore : (read ++ [b]).mapM t.process = .ok (made ++ [u]) :=
            mapM_eq_ok.2 (List.rel_append (mapM_eq_ok.1 hmade) (.cons hb .nil))
          exact ih (read ++ [b]) (made ++ [u]) (by simp) hmore

end ScanTask

namespace ScanTask

/-- How a task ends in a scan: as it does alone, its failure under the path of its fragment. -/
def EndsIn (opening : Opening) (t : ScanTask) (o : Ending) : Prop :=
  ∃ alone, t.Ends opening alone ∧ o = alone.under t.fragment.path ∧
    ∀ items, Drains (TaskRun.next opening) (.start t) items ↔ items = alone.items

variable {opening : Opening}

theorem exists_endsIn (opening : Opening) (t : ScanTask) : ∃ o, t.EndsIn opening o := by
  obtain ⟨alone, h⟩ := exists_ends opening t
  refine ⟨alone.under t.fragment.path, alone, h, rfl, fun items => ?_⟩
  rw [(TaskRun.leaves opening).drains_iff, h.rest]

theorem EndsIn.namedRest {t : ScanTask} {o : Ending} (h : t.EndsIn opening o) :
    (TaskRun.start t).namedRest opening = o.items := by
  obtain ⟨alone, h, rfl, -⟩ := h
  rw [TaskRun.namedRest, h.rest, Ending.items_under]
  rfl

theorem rest_ofTasks {tasks : List ScanTask} {ends : List Ending} (mode : ScanMode)
    (h : List.Forall₂ (EndsIn opening) tasks ends) :
    (ScanResults.ofTasks mode opening tasks).rest = ends.flatMap Ending.items := by
  rw [ScanResults.rest_of_running (r := .ofTasks mode opening tasks) Bool.false_ne_true]
  change (tasks.map TaskRun.start).flatMap (·.namedRest opening) = _
  induction h with
  | nil => rfl
  | cons ht _ ih => rw [List.map_cons, List.flatMap_cons, List.flatMap_cons, ht.namedRest, ih]

theorem resultsOf_eq_rest (files : FileAccess) (mode : ScanMode) (tasks : List ScanTask) :
    resultsOf files tasks = (ScanResults.start files mode tasks).rest := by
  change tasks.flatMap (results files) =
    (tasks.map TaskRun.start).flatMap (·.namedRest (ScanTask.opening files))
  rw [List.flatMap_map]
  rfl

end ScanTask

namespace ScanResults

/--
Of tasks run one after the other, each ends as it does alone, its failure under the path of its
fragment, and then the next one begins. A scan has all their batches or, if some fail, the failure
of the first of these.
-/
theorem drains_serial (opening : Opening) (tasks : List ScanTask) : ∃ ends : List Ending,
    List.Forall₂ (ScanTask.EndsIn opening) tasks ends ∧
    (∀ items, Drains next (.ofTasks .serial opening tasks) items ↔
      items = ends.flatMap Ending.items) ∧
    ∀ (files : FileAccess) (s : Scan), opening = ScanTask.opening files → s.plan = .ok tasks →
      (s.toBatches files).result = Ending.whole ends := by
  obtain ⟨ends, hends⟩ := exists_forall₂ fun t (_ : t ∈ tasks) => ScanTask.exists_endsIn opening t
  refine ⟨ends, hends, fun items => ?_, ?_⟩
  · rw [leaves.drains_iff, ScanTask.rest_ofTasks .serial hends]
  · rintro files s rfl hplan
    have hresults : ScanTask.resultsOf files tasks = ends.flatMap Ending.items := by
      rw [ScanTask.resultsOf_eq_rest files .serial]
      exact ScanTask.rest_ofTasks .serial hends
    have hgather : (s.toBatches files).result =
        id <$> ScanTask.collect (ScanTask.resultsOf files tasks) := by
      rw [Scan.toBatches, Scan.gather, Accounted.result_bind, hplan]
      rfl
    rw [hgather, hresults, Ending.collect_items, id_map]

section Broken

def ofCell (cell : Option (Fixed .int64)) : Batch where
  rows := 1
  columns := [⟨"x", true, ⟨.int .int64, [cell]⟩, .empty⟩]
  sized := by simp [Column.length]

def ofCells (name : String) (cells : List (Option (Fixed .int64))) : Fragment :=
  let schema : Schema := [⟨"x", .int .int64, true, .empty⟩]
  ⟨.buffer name (.ipc ⟨schema, cells.map ofCell⟩), .ipc, .true_, schema⟩

def seven : Option (Fixed .int64) := some Expr.seven

def broken : Dataset :=
  let schema : Schema := [⟨"x", .int .int64, false, .empty⟩]
  ⟨[.leaf .memory schema .true_ [ofCells "a" [seven], ofCells "b" [seven, none, seven],
    ofCells "c" [seven]]], schema⟩

theorem drains_serial_broken :
    ∃ s tasks b e, Scan.build broken .default_ = .ok s ∧ s.plan = .ok tasks ∧
    Drains next (.ofTasks .serial (ScanTask.opening .none_) tasks) [.ok b, .ok b, .error e, .ok b] ∧
    e = .fragment "b" (.column (.nullsIn "x")) ∧ (s.toBatches .none_).result = .error e := by
  obtain ⟨s, tasks, b, e, hs, hplan, hrest, he⟩ : ∃ s tasks b e,
      Scan.build broken .default_ = .ok s ∧
      s.plan = .ok tasks ∧ (start .none_ .serial tasks).rest = [.ok b, .ok b, .error e, .ok b] ∧
      e = .fragment "b" (.column (.nullsIn "x")) := ⟨_, _, _, _, rfl, rfl, rfl, rfl⟩
  obtain ⟨ends, -, hdrains, hbatches⟩ := drains_serial (ScanTask.opening .none_) tasks
  have hall := leaves.drains_iff.2 hrest.symm
  refine ⟨s, tasks, b, e, hs, hplan, hall, he, ?_⟩
  rw [hbatches .none_ s rfl hplan, ← Ending.collect_items, ← (hdrains _).1 hall]
  rfl

end Broken

end ScanResults

end TableScan
