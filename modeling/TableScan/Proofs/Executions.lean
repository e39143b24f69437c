import TableScan.Proofs.Pool

/-!
Scans that are run as their options say. In whatever order results come, a scan collects the same
batches, in another order at most, and counts the same rows; and where one schedule meets a failure,
so does every other.
-/

namespace TableScan

theorem Interleaved.flatten {α : Type} (ls : List (List α)) : Interleaved ls ls.flatten := by
  induction ls with
  | nil => exact .done nofun
  | cons l ls ih =>
    induction l with
    | nil => exact ih.insert_nil [] _
    | cons x l ihl => exact @Interleaved.next _ [] ls x l _ ihl

/-- What tasks yield that are run as the options of a scan say: one after the other or on threads.
-/
inductive ScanOptions.Runs (o : ScanOptions) (files : FileAccess) (tasks : List ScanTask) :
    Batches → Prop
  | serial {items : Batches} :
      o.mode = .serial → Drains ScanResults.next (.start files .serial tasks) items →
      Runs o files tasks items
  | ordered {items : Batches} {processors : Nat} {workers : Workers} : o.mode = .ordered →
      Workers.ofParallelism processors o.parallelism = .ok workers →
      Threads.Finishes workers (ScanTask.opening files) (.start tasks) items →
      Runs o files tasks items
  | unordered {items : Batches} {processors : Nat} {workers : Workers} : o.mode = .unordered →
      Workers.ofParallelism processors o.parallelism = .ok workers →
      Pool.Finishes workers (ScanTask.opening files) (.start tasks) items → Runs o files tasks items

theorem ScanTask.drains_iff {files : FileAccess} {tasks : List ScanTask} {items : Batches} :
    Drains ScanResults.next (.start files .serial tasks) items ↔ items = resultsOf files tasks := by
  rw [ScanResults.leaves.drains_iff, resultsOf_eq_rest files .serial]

namespace ScanOptions

variable {o : ScanOptions} {files : FileAccess} {tasks : List ScanTask} {items : Batches}

theorem Runs.eq_resultsOf (h : o.Runs files tasks items) (hmode : o.mode ≠ .unordered) :
    items = ScanTask.resultsOf files tasks := by
  cases h with
  | serial _ h => exact ScanTask.drains_iff.1 h
  | ordered _ _ h => exact ScanTask.drains_iff.1 ((Threads.finishes_iff _).1 h)
  | unordered h => exact absurd h hmode

theorem Runs.interleaved (h : o.Runs files tasks items) :
    Interleaved (tasks.map (ScanTask.results files)) items := by
  by_cases hmode : o.mode = .unordered
  · cases h with
    | unordered _ _ h => exact Pool.interleaved_results h
    | serial h => cases hmode.symm.trans h
    | ordered h => cases hmode.symm.trans h
  · rw [h.eq_resultsOf hmode, ScanTask.resultsOf, List.flatMap_def]
    exact .flatten _

theorem Runs.perm (h : o.Runs files tasks items) : items.Perm (ScanTask.resultsOf files tasks) :=
  h.interleaved.perm.trans (.of_eq List.flatMap_def.symm)

theorem exists_runs (files : FileAccess) (tasks : List ScanTask)
    (hthreads : o.parallelism ≠ .threads 0) :
    ∃ items, o.Runs files tasks items := by
  have workers (n : Nat) (hn : 0 < n) : ∃ workers, Workers.ofCount n = .ok workers :=
    ⟨⟨n, hn⟩, dif_pos hn⟩
  obtain ⟨w, hw⟩ : ∃ w, Workers.ofParallelism 1 o.parallelism = .ok w := by
    cases hp : o.parallelism with
    | default_ => exact workers 1 Nat.one_pos
    | threads n => exact workers n (Nat.pos_of_ne_zero fun hn => hthreads (by rw [hp, hn]))
  cases hm : o.mode with
  | serial => exact ⟨_, .serial hm (ScanTask.drains_iff.2 rfl)⟩
  | ordered => exact ⟨_, .ordered hm hw (Threads.finishes w _ _)⟩
  | unordered =>
    obtain ⟨items, h⟩ := Pool.finishes w (ScanTask.opening files) (.start tasks)
    exact ⟨items, .unordered hm hw h⟩

end ScanOptions

namespace ScanTask

variable {items items' : Batches} {bs : List Batch}

theorem collect_iff : collect items = .ok bs ↔ items = bs.map .ok := by
  refine ⟨Scan.collect_eq_ok, ?_⟩
  rintro rfl
  exact mapM_eq_ok.2 (List.forall₂_map_left_iff.2 (List.forall₂_same.2 fun _ _ => rfl))

theorem mem_of_collect {e : Failure} (h : collect items = .error e) : .error e ∈ items := by
  obtain ⟨item, hitem, he⟩ := mapM_eq_error h
  exact he ▸ hitem

theorem collect_perm (h : items.Perm items') :
    (∃ bs bs', collect items = .ok bs ∧ collect items' = .ok bs' ∧ bs.Perm bs') ∨
      ∃ e e', collect items = .error e ∧ collect items' = .error e' ∧ .error e ∈ items' := by
  have hall (bs : List Batch) (items : Batches) (h : items.Perm (bs.map .ok)) :
      ∃ bs' : List Batch, items = bs'.map .ok ∧ bs'.Perm bs := by
    refine ⟨items.filterMap Except.toOption, ?_, ?_⟩
    · have hok : ∀ item ∈ items, ∃ b, item = .ok b := fun item hitem => by
        obtain ⟨b, -, hb⟩ := List.mem_map.1 (h.mem_iff.1 hitem)
        exact ⟨b, hb.symm⟩
      clear h
      induction items with
      | nil => rfl
      | cons item items ih =>
        obtain ⟨⟨b, rfl⟩, hrest⟩ := List.forall_mem_cons.1 hok
        exact congrArg (List.cons _) (ih hrest)
    · refine (h.filterMap _).trans (.of_eq ?_)
      rw [List.filterMap_map]
      exact List.filterMap_some
  cases hbs : collect items with
  | ok bs =>
    obtain ⟨bs', hbs', hperm⟩ := hall bs items' (Scan.collect_eq_ok hbs ▸ h.symm)
    exact .inl ⟨bs, bs', rfl, collect_iff.2 hbs', hperm.symm⟩
  | error e =>
    cases hbs' : collect items' with
    | ok bs' =>
      obtain ⟨bs, hok, -⟩ := hall bs' items (Scan.collect_eq_ok hbs' ▸ h)
      cases (collect_iff.2 hok).symm.trans hbs
    | error e' => exact .inr ⟨e, e', rfl, rfl, h.mem_iff.1 (mem_of_collect hbs)⟩

end ScanTask

namespace Scan

variable {s : Scan} {files : FileAccess} {tasks : List ScanTask} {items : Batches}

/-- What a scan yields that is run in the order of its tasks, on threads or on none. -/
structure Runs (s : Scan) (files : FileAccess) (items : Batches) : Prop where
  inOrder : s.options.mode ≠ .unordered
  planned : ∃ tasks, s.plan = .ok tasks ∧ s.options.Runs files tasks items

theorem Runs.eq_resultsOf (h : s.Runs files items) :
    ∃ tasks, s.plan = .ok tasks ∧ items = ScanTask.resultsOf files tasks := by
  obtain ⟨tasks, hplan, hruns⟩ := h.planned
  exact ⟨tasks, hplan, hruns.eq_resultsOf h.inOrder⟩

theorem runs_resultsOf (files : FileAccess) (hmode : s.options.mode ≠ .unordered)
    (hthreads : s.options.parallelism ≠ .threads 0) (hplan : s.plan = .ok tasks) :
    s.Runs files (ScanTask.resultsOf files tasks) := by
  obtain ⟨items, hruns⟩ := ScanOptions.exists_runs files tasks hthreads
  exact ⟨hmode, tasks, hplan, hruns.eq_resultsOf hmode ▸ hruns⟩

theorem gather_result {α : Type} {plan : Except Failure (List ScanTask)} {f : List Batch → α}
    (h : plan = .ok tasks) :
    (gather files plan f).result = (ScanTask.collect (ScanTask.resultsOf files tasks)).map f := by
  subst h
  rfl

theorem toBatches_of_runs (hplan : s.plan = .ok tasks) (h : s.options.Runs files tasks items) :
    (∃ bs bs', ScanTask.collect items = .ok bs ∧ (s.toBatches files).result = .ok bs' ∧
      bs.Perm bs') ∨
      ∃ e e', ScanTask.collect items = .error e ∧ (s.toBatches files).result = .error e' ∧
        .error e ∈ ScanTask.resultsOf files tasks := by
  have hresult : (s.toBatches files).result =
      ScanTask.collect (ScanTask.resultsOf files tasks) := by
    rw [toBatches, gather_result hplan]
    cases ScanTask.collect (ScanTask.resultsOf files tasks) <;> rfl
  rw [hresult]
  exact ScanTask.collect_perm h.perm

theorem countRows_of_runs (hplan : s.countPlan = .ok tasks) (h : s.options.Runs files tasks items) :
    (∃ bs, ScanTask.collect items = .ok bs ∧
      (s.countRows files).result = .ok (bs.map (·.rows)).sum) ∨
      ∃ e e', ScanTask.collect items = .error e ∧ (s.countRows files).result = .error e' ∧
        .error e ∈ ScanTask.resultsOf files tasks := by
  have hresult : (s.countRows files).result =
      (ScanTask.collect (ScanTask.resultsOf files tasks)).map fun bs => (bs.map (·.rows)).sum :=
    gather_result hplan
  rcases ScanTask.collect_perm h.perm with ⟨bs, bs', hbs, hbs', hperm⟩ | ⟨e, e', he, he', hmem⟩
  · rw [hresult, hbs']
    exact .inl ⟨bs, hbs, congrArg Except.ok (hperm.symm.map _).sum_nat⟩
  · rw [hresult, he']
    exact .inr ⟨e, e', he, rfl, hmem⟩

end Scan

end TableScan
