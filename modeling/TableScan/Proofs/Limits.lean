import TableScan.CommandLine.Run
import TableScan.Proofs.Cuts
import TableScan.Proofs.Discovery
import TableScan.Proofs.Listings
import TableScan.Proofs.Executions

/-!
Scans that are printed up to a number of rows. They are the first rows of the scan, wherever its
batches end, and a failure counts only while rows are still wanted.
-/

namespace TableScan

theorem Scan.parallelism_of_build {d : Dataset} {r : ScanRequest} {s : Scan}
    (h : build d r = .ok s) :
    s.options.parallelism ≠ .threads 0 := by
  obtain ⟨_, hcheck, h⟩ := bind_eq_ok.1 h
  obtain ⟨_, -, h⟩ := bind_eq_ok.1 h
  obtain ⟨_, -, h⟩ := bind_eq_ok.1 h
  obtain ⟨_, -, h⟩ := bind_eq_ok.1 h
  obtain ⟨_, -, h⟩ := bind_eq_ok.1 h
  cases h
  intro hthreads
  rw [ScanOptions.check, if_pos hthreads] at hcheck
  split at hcheck <;> cases hcheck

namespace CommandLine

def rowsOf (items : Batches) : List Batch :=
  items.flatMap fun item => item.toOption.toList.flatMap Batch.singles

def FailsBefore (n : Nat) (items : Batches) (e : Failure) : Prop :=
  ∃ (bs : List Batch) (behind : Batches), items = bs.map .ok ++ .error e :: behind ∧
    (bs.map (·.rows)).sum < n

/--
Where the loop over results can stand: the batches that were taken, how many rows they have, and the
results that were not asked for. While fewer rows than wanted were taken, it goes on with the next
batch.
-/
inductive Reaches (n : Nat) (items : Batches) : List Batch → Nat → Batches → Prop
  | start : Reaches n items [] 0 items
  | take {bs : List Batch} {taken : Nat} {b : Batch} {rest : Batches} :
      Reaches n items bs taken (.ok b :: rest) → taken < n →
      Reaches n items (bs ++ [b.slice 0 (min b.rows (n - taken))])
      (taken + min b.rows (n - taken)) rest

variable {n taken : Nat} {items rest : Batches} {bs : List Batch} {e : Failure}

theorem upTo_ok (n : Nat) {taken : Nat} (h : taken < n) (b : Batch) (rest : Batches) :
    upTo (some n) taken (.ok b :: rest) = (upTo (some n) (taken + min b.rows (n - taken)) rest).map
      (b.slice 0 (min b.rows (n - taken)) :: ·) := by
  rw [upTo]
  dsimp only
  rw [if_neg (by omega)]
  change (upTo (some n) (taken + min b.rows (n - taken)) rest >>= fun bs => pure (_ :: bs)) = _
  cases upTo (some n) (taken + min b.rows (n - taken)) rest <;> rfl

theorem upTo_error (h : taken < n) : upTo (some n) taken (.error e :: rest) = .error e := by
  rw [upTo]
  dsimp only
  rw [if_neg (by omega)]
  rfl

theorem upTo_of_le (h : n ≤ taken) (rest : Batches) : upTo (some n) taken rest = .ok [] := by
  cases rest with
  | nil => rfl
  | cons item rest =>
    rw [upTo]
    exact if_pos h

namespace Reaches

theorem upTo_eq (h : Reaches n items bs taken rest) :
    upTo (some n) 0 items = (upTo (some n) taken rest).map (bs ++ ·) := by
  induction h with
  | start => cases upTo (some n) 0 items <;> rfl
  | @take bs taken b rest _ hlt ih =>
    rw [ih, upTo_ok n hlt]
    cases upTo (some n) (taken + min b.rows (n - taken)) rest <;> simp [Except.map]

theorem taken_eq (h : Reaches n items bs taken rest) :
    ∃ before : List Batch, items = before.map .ok ++ rest ∧
    taken = min n (before.map (·.rows)).sum ∧
    bs.flatMap Batch.singles = (before.flatMap Batch.singles).take n := by
  induction h with
  | start => exact ⟨[], rfl, by simp, by simp⟩
  | @take bs taken b rest _ hlt ih =>
    obtain ⟨before, hitems, htaken, hrows⟩ := ih
    have hlength := Batch.rowWise_singles.length_flatMap before
    refine ⟨before ++ [b], by simp [hitems], ?_, ?_⟩
    · simp only [List.map_append, List.sum_append, List.map_cons, List.map_nil, List.sum_cons,
        List.sum_nil]
      omega
    · -- fewer rows than are wanted stand before the batch, so that all of them were taken
      have hbefore : (before.flatMap Batch.singles).take n = before.flatMap Batch.singles :=
        List.take_of_length_le (by omega)
      have hroom : n - (before.flatMap Batch.singles).length = n - taken := by omega
      rw [List.flatMap_append, List.flatMap_append, List.flatMap_singleton,
        List.flatMap_singleton, hrows, List.take_append, hbefore, hroom,
        Batch.rowWise_singles.slice, List.drop_zero, ← Batch.rowWise_singles.length b, Nat.min_comm,
        ← List.take_eq_take_min]

theorem exists_stop (h : Reaches n items bs taken rest) :
    ∃ bs' taken' rest', Reaches n items bs' taken' rest' ∧
    (rest' = [] ∨ n ≤ taken' ∨ taken' < n ∧ ∃ e behind, rest' = .error e :: behind) := by
  induction rest generalizing bs taken with
  | nil => exact ⟨bs, taken, [], h, .inl rfl⟩
  | cons item rest ih =>
    rcases Nat.lt_or_ge taken n with hlt | hge
    · cases item with
      | error e => exact ⟨bs, taken, _, h, .inr (.inr ⟨hlt, e, rest, rfl⟩)⟩
      | ok b => exact ih (h.take hlt)
    · exact ⟨bs, taken, _, h, .inr (.inl hge)⟩

end Reaches

theorem rowsOf_append (bs : List Batch) (rest : Batches) :
    rowsOf (bs.map .ok ++ rest) = bs.flatMap Batch.singles ++ rowsOf rest := by
  rw [rowsOf, List.flatMap_append, List.flatMap_map]
  simp [rowsOf, Except.toOption]

theorem FailsBefore.of_append {before : List Batch} (h : FailsBefore n (before.map .ok ++ rest) e) :
    (before.map (·.rows)).sum < n ∧ FailsBefore (n - (before.map (·.rows)).sum) rest e := by
  obtain ⟨bs, behind, hitems, hlt⟩ := h
  induction before generalizing bs n with
  | nil => exact ⟨(Nat.zero_le _).trans_lt hlt, bs, behind, hitems, hlt⟩
  | cons b before ih =>
    cases bs with
    | nil => cases hitems
    | cons b' bs =>
      obtain ⟨hb, hmore⟩ := List.cons.inj hitems
      obtain rfl := Except.ok.inj hb
      rw [List.map_cons, List.sum_cons] at hlt ⊢
      obtain ⟨hbefore, hrest⟩ := ih (n := n - b.rows) bs hmore (by omega)
      rw [Nat.sub_sub] at hrest
      exact ⟨by omega, hrest⟩

theorem upTo_cases (n : Nat) (items : Batches) :
    (∃ e, upTo (some n) 0 items = .error e ∧ ∀ e', FailsBefore n items e' ↔ e' = e) ∨
      ∃ bs, upTo (some n) 0 items = .ok bs ∧ bs.flatMap Batch.singles = (rowsOf items).take n ∧
        ∀ e, ¬FailsBefore n items e := by
  have hstart : Reaches n items [] 0 items := .start
  obtain ⟨bs, taken, rest, h, hstop⟩ := hstart.exists_stop
  obtain ⟨before, rfl, htaken, hrows⟩ := h.taken_eq
  have hlength := Batch.rowWise_singles.length_flatMap before
  rw [h.upTo_eq, rowsOf_append]
  rcases hstop with rfl | hfull | ⟨hlt, e, behind, rfl⟩
  · refine .inr ⟨bs, by simp [upTo, Except.map], by simpa [rowsOf] using hrows, fun e hfails => ?_⟩
    obtain ⟨-, bs, behind, hitems, -⟩ := hfails.of_append
    simp at hitems
  · refine .inr ⟨bs, by simp [upTo_of_le hfull, Except.map], ?_, fun e hfails => ?_⟩
    · rw [hrows, List.take_append_of_le_length (by omega)]
    · have := hfails.of_append.1
      omega
  · refine .inl ⟨e, by rw [upTo_error hlt]; rfl, fun e' => ⟨fun hfails => ?_, ?_⟩⟩
    · obtain ⟨-, bs, behind', hitems, -⟩ := hfails.of_append
      cases bs with
      | nil => exact (Except.error.inj (List.cons.inj hitems).1).symm
      | cons b bs => cases hitems
    · rintro rfl
      exact ⟨before, behind, rfl, by omega⟩

theorem upTo_none (taken : Nat) (items : Batches) :
    upTo none taken items = ScanTask.collect items := by
  induction items generalizing taken with
  | nil => rfl
  | cons item items ih =>
    rw [ScanTask.collect, List.mapM_cons]
    cases item with
    | error e => rfl
    | ok b =>
      change (upTo none (taken + b.rows) items >>= fun bs => pure (b :: bs)) = _
      rw [ih]
      rfl

theorem mapM_rows {bs : List Batch} {f : TextFault} :
    bs.mapM Table.rows = .error f ↔ ∃ zone, bs.findSome? Batch.unknownZone? = some zone ∧
    f = .zone zone := by
  induction bs with
  | nil => exact ⟨nofun, fun ⟨_, h, _⟩ => nomatch h⟩
  | cons b bs ih =>
    rw [List.mapM_cons, List.findSome?_cons]
    cases hb : b.unknownZone? with
    | some zone =>
      have hrows : Table.rows b = .error (.zone zone) := by rw [Table.rows, hb]
      rw [hrows]
      simp [bind, Except.bind, eq_comm]
    | none =>
      obtain ⟨rows, hrows⟩ : ∃ rows, Table.rows b = .ok rows := by
        rw [Table.rows, hb]
        exact ⟨_, rfl⟩
      rw [hrows, ← ih]
      cases bs.mapM Table.rows <;> simp [bind, Except.bind, pure, Except.pure]

theorem printed_eq_error {bs : List Batch} {r : Report} : printed bs = .error r ↔
    ∃ zone, bs.findSome? Batch.unknownZone? = some zone ∧
      r = .plain (TextFault.zone zone).message := by
  have hrender : ∀ f, Table.render bs = .error f ↔ bs.mapM Table.rows = .error f := by
    intro f
    cases bs with
    | nil => exact ⟨nofun, nofun⟩
    | cons b bs =>
      rw [Table.render]
      cases (b :: bs).mapM Table.rows <;> simp [bind, Except.bind, pure, Except.pure]
  rw [printed, mapError_eq_error]
  simp only [hrender, mapM_rows]
  constructor
  · rintro ⟨_, ⟨zone, hzone, rfl⟩, rfl⟩
    exact ⟨zone, hzone, rfl⟩
  · rintro ⟨zone, hzone, rfl⟩
    exact ⟨_, ⟨zone, hzone, rfl⟩, rfl⟩

def Unprintable (n : Nat) (items : Batches) (zone : String) : Prop :=
  ∃ bs, upTo (some n) 0 items = .ok bs ∧ bs.findSome? Batch.unknownZone? = some zone

variable {d : Disk} {c : Config} {a : ScanArguments} {access : FileAccess} {dataset : Dataset}
  {filter : Expr} {s : Scan} {tasks : List ScanTask}

theorem scan_eq (hopen : openDataset d c a.dataset = .ok (access, dataset))
    (hfilter : parseFilters dataset.schema a.filters = .ok filter)
    (hbuild : Scan.build dataset ⟨filter, a.columns, scanOptions c a⟩ = .ok s)
    (hcount : a.count = false) (hplan : s.plan = .ok tasks) (limit : Option Nat) :
    scan d c { a with limit := limit } =
      (upTo limit 0 (ScanTask.resultsOf access tasks)).mapError Report.ofFailure >>= printed := by
  have hresults := ScanTask.resultsOf_eq_rest access s.options.mode tasks
  have hlimited : Scan.build dataset ⟨filter, a.columns, scanOptions c { a with limit := limit }⟩ =
    .ok s := hbuild
  have hrows : ¬a.count = true := by simp [hcount]
  simp only [scan, hopen, hfilter, hlimited, hplan, doing, hresults, Except.mapError, bind,
    Except.bind, if_neg hrows]

/--
A planned scan has one stream of results, on threads or on none. Without a limit its batches are
printed, unless it fails. With one, it fails just if a failure comes before so many rows, or the
batches of these rows cannot be printed; otherwise the batches that are printed have just so many of
its first rows. Never are more rows taken than are wanted.
-/
theorem scan_limit (hopen : openDataset d c a.dataset = .ok (access, dataset))
    (hfilter : parseFilters dataset.schema a.filters = .ok filter)
    (hbuild : Scan.build dataset ⟨filter, a.columns, scanOptions c a⟩ = .ok s)
    (hcount : a.count = false) (hplan : s.plan = .ok tasks) (hmode : s.options.mode ≠ .unordered) :
    ∃ items, (∀ items', s.Runs access items' ↔ items' = items) ∧
      scan d c { a with limit := none } = (ScanTask.collect items).mapError Report.ofFailure >>=
        printed ∧
      ∀ n, (∀ r, scan d c { a with limit := some n } = .error r ↔
        (∃ e, FailsBefore n items e ∧ r = .ofFailure e) ∨
          ∃ zone, Unprintable n items zone ∧ r = .plain (TextFault.zone zone).message) ∧
        (∀ lines, scan d c { a with limit := some n } = .ok lines →
          ∃ bs, Table.render bs = .ok lines ∧
          bs.flatMap Batch.singles = (rowsOf items).take n) ∧
        ∀ bs taken rest, Reaches n items bs taken rest →
          taken ≤ n ∧ upTo (some n) 0 items = (upTo (some n) taken rest).map (bs ++ ·) := by
  have hthreads : s.options.parallelism ≠ .threads 0 := Scan.parallelism_of_build hbuild
  have hlimit := scan_eq hopen hfilter hbuild hcount hplan
  refine ⟨ScanTask.resultsOf access tasks, fun items' => ⟨fun hruns => ?_, ?_⟩, ?_,
    fun n => ⟨?_, ?_, ?_⟩⟩
  · obtain ⟨tasks', hplan', rfl⟩ := hruns.eq_resultsOf
    rw [Except.ok.inj (hplan.symm.trans hplan')]
  · rintro rfl
    exact Scan.runs_resultsOf access hmode hthreads hplan
  · rw [hlimit, upTo_none]
  · intro r
    rw [hlimit]
    rcases upTo_cases n (ScanTask.resultsOf access tasks) with ⟨e, heq, hfails⟩ |
      ⟨bs, heq, -, hfails⟩
    · simp [heq, hfails, Unprintable, Except.mapError, bind, Except.bind, eq_comm]
    · simp [heq, hfails, Unprintable, Except.mapError, bind, Except.bind, printed_eq_error]
  · intro lines hlines
    rw [hlimit] at hlines
    rcases upTo_cases n (ScanTask.resultsOf access tasks) with ⟨e, heq, -⟩ | ⟨bs, heq, hrows, -⟩
    · rw [heq] at hlines
      cases hlines
    · rw [heq] at hlines
      exact ⟨bs, mapError_eq_ok.1 hlines, hrows⟩
  · intro bs taken rest h
    obtain ⟨_, -, htaken, -⟩ := h.taken_eq
    exact ⟨by omega, h.upTo_eq⟩

section Broken

theorem openDataset_of_found (a : DatasetArguments) {files : FileSystem}
    {partitioning : Partitioning} (found : Inspection) (hfiles : c.storage.build d = .ok files)
    (hpartitioning : parsePartitioning a.partitioning a.strict = .ok partitioning)
    (hfound :
      (Discovery.inspect ⟨.ofRoot a.root, formatOf c a.format, { DiscoveryOptions.default_ with
      partitioning := partitioning
      excludeInvalid := a.excludeInvalid }⟩ files.storage.access).result = .ok found) :
    openDataset d c a = .ok (files.storage.access, ⟨[found.source], found.schema⟩) := by
  have hdataset : (Dataset.discover files.storage.access a.root (formatOf c a.format) _).result =
      .ok ⟨[found.source], found.schema⟩ :=
      (Accounted.result_bind _ _).trans (bind_eq_ok.2 ⟨_, hfound, rfl⟩)
  rw [openDataset, hfiles, hpartitioning]
  exact bind_eq_ok.2
    ⟨_, rfl, bind_eq_ok.2 ⟨_, rfl, bind_eq_ok.2 ⟨_, by rw [doing, hdataset]; rfl, rfl⟩⟩⟩

def twoOfOne : Batch where
  rows := 2
  columns := [⟨"x", false, ⟨.int .int32, [some (.wrap .int32 7), some (.wrap .int32 8)]⟩, .empty⟩,
    ⟨"k", false, ⟨.int .int32, [some (.wrap .int32 1), some (.wrap .int32 1)]⟩, .empty⟩]
  sized := by simp [Column.length]

def brokenStorage : Storage where
  backend := .directories
  files := [("t/k=1/a", .ipc ⟨twoOfOne.schema, [twoOfOne, twoOfOne]⟩),
    ("t/k=__HIVE_DEFAULT_PARTITION__/b", .ipc ⟨twoOfOne.schema, [twoOfOne]⟩)]
  directories := ["", "t", "t/k=1", "t/k=__HIVE_DEFAULT_PARTITION__"]

def keyless : Failure := .fragment "t/k=__HIVE_DEFAULT_PARTITION__/b" (.column (.nullsIn "k"))

def keyedDiscovery : Discovery :=
  ⟨.ofRoot "t", .ipc, { DiscoveryOptions.default_ with partitioning := .discovery (.hive false) }⟩

def brokenFound : Inspection where
  fragments := [
    ⟨.stored "t/k=1/a", .ipc, .compare .eq (.field "k") (.lit (.ofFixed (.wrap .int32 1))),
      twoOfOne.schema⟩,
    ⟨.stored "t/k=__HIVE_DEFAULT_PARTITION__/b", .ipc, .not (.isValid (.field "k")),
      twoOfOne.schema⟩]
  schema := twoOfOne.schema

theorem inspect_broken :
    (keyedDiscovery.inspect brokenStorage.access).result = .ok brokenFound := by
  obtain ⟨files, hfiles, hlisted⟩ : ∃ files, brokenStorage.list "t" = .ok files ∧
      files.map (·.path) = ["t/k=1/a", "t/k=__HIVE_DEFAULT_PARTITION__/b"] :=
    Storage.list_of_perm (by decide +kernel) (by decide) (by decide +kernel)
  have hfound : ((Selector.ofRoot "t").paths brokenStorage.access).result =
      .ok (files.map (·.path)) := by
    change ((do return (← brokenStorage.listed "t").map (·.path)) :
      Accounted (List String)).result = _
    rw [Accounted.result_bind, Storage.listed, hfiles]
    rfl
  have hpaths : (keyedDiscovery.paths brokenStorage.access).result =
      .ok ["t/k=1/a", "t/k=__HIVE_DEFAULT_PARTITION__/b"] := by
    rw [keyedDiscovery, Discovery.paths, Accounted.result_bind, hfound, hlisted]
    rfl
  have hunify : Schema.unify [twoOfOne.schema, twoOfOne.schema] = .ok twoOfOne.schema :=
    Schema.unify_replicate (s := twoOfOne.schema) (by decide) 1
  have hschema : keyedDiscovery.schemaOf
      (.hive [⟨"k", .int .int32, true, .empty⟩] false) brokenFound.fragments =
      .ok twoOfOne.schema := bind_eq_ok.2 ⟨_, hunify, rfl⟩
  exact Discovery.inspect_found.2 ⟨_, _, hpaths, rfl, .cons rfl (.cons rfl .nil), hschema⟩

def wholeScan : ScanArguments where
  dataset := ⟨"t", .ipc, "hive", false, false⟩
  filters := []
  columns := none
  batchSize := some 2
  threads := none
  unordered := false
  serial := false
  count := false
  limit := none

theorem scan_limit_broken : ∃ access dataset s tasks items,
    openDataset ⟨brokenStorage⟩ .default_ wholeScan.dataset = .ok (access, dataset) ∧
    parseFilters dataset.schema wholeScan.filters = .ok .true_ ∧
    Scan.build dataset ⟨.true_, wholeScan.columns, scanOptions .default_ wholeScan⟩ = .ok s ∧
    wholeScan.count = false ∧ s.plan = .ok tasks ∧ s.options.mode ≠ .unordered ∧
    items = [.ok twoOfOne, .ok twoOfOne, .error keyless] ∧
    (∀ items', s.Runs access items' ↔ items' = items) ∧
    scan ⟨brokenStorage⟩ .default_ { wholeScan with limit := some 5 } =
      .error (.ofFailure keyless) ∧
    ∃ lines bs, scan ⟨brokenStorage⟩ .default_ { wholeScan with limit := some 3 } = .ok lines ∧
      Table.render bs = .ok lines ∧ bs.flatMap Batch.singles = (rowsOf items).take 3 := by
  have hfiles : StorageConfig.build ⟨brokenStorage⟩ Config.default_.storage =
    .ok (.ofStorage brokenStorage) := rfl
  have hhive : parsePartitioning "hive" false = .ok (.discovery (.hive false)) := rfl
  have hopen := openDataset_of_found wholeScan.dataset brokenFound hfiles hhive inspect_broken
  let s : Scan :=
    ⟨⟨[brokenFound.source], brokenFound.schema⟩, .true_, brokenFound.schema,
      scanOptions .default_ wholeScan⟩
  obtain ⟨tasks, hplan, hresults⟩ : ∃ tasks, s.plan = .ok tasks ∧
      ScanTask.resultsOf (FileSystem.ofStorage brokenStorage).storage.access tasks =
        [.ok twoOfOne, .ok twoOfOne, .error keyless] := ⟨_, rfl, rfl⟩
  have hmode : s.options.mode ≠ .unordered := by decide
  obtain ⟨items, hruns, -, hlimit⟩ :=
    scan_limit (a := wholeScan) (s := s) hopen rfl rfl rfl hplan hmode
  have hitems : items = [.ok twoOfOne, .ok twoOfOne, .error keyless] := by
    rw [← (hruns _).1 (Scan.runs_resultsOf _ hmode nofun hplan), hresults]
  obtain ⟨lines, hscan⟩ : ∃ lines,
      scan ⟨brokenStorage⟩ .default_ { wholeScan with limit := some 3 } = .ok lines := by
    rw [scan_eq hopen (s := s) rfl rfl rfl hplan, hresults]
    exact ⟨_, rfl⟩
  obtain ⟨bs, hbs, hrows⟩ := (hlimit 3).2.1 lines hscan
  exact ⟨_, _, s, tasks, items, hopen, rfl, rfl, rfl, hplan, hmode, hitems, hruns,
    ((hlimit 5).1 _).2 (.inl ⟨keyless, ⟨[twoOfOne, twoOfOne], [], hitems, by decide⟩, rfl⟩), lines,
    bs, hscan, hbs, hrows⟩

end Broken

section Zones

def unzoned : Batch where
  rows := 1
  columns := [⟨"t", true, ⟨.timestamp .millisecond (some "UTC"), [none]⟩, .empty⟩]
  sized := by simp [Column.length]

def unzonedStorage : Storage where
  backend := .directories
  files := [("t/a", .ipc ⟨unzoned.schema, [unzoned]⟩)]
  directories := ["", "t"]

def unzonedScan : ScanArguments := { wholeScan with dataset := ⟨"t", .ipc, "none", false, false⟩ }

def unzonedFound : Inspection := ⟨[⟨.stored "t/a", .ipc, .true_, unzoned.schema⟩], unzoned.schema⟩

theorem inspect_unzoned : (Discovery.inspect ⟨.ofRoot "t", .ipc, { DiscoveryOptions.default_ with
    partitioning := .scheme .none_ }⟩ unzonedStorage.access).result = .ok unzonedFound := by
  obtain ⟨files, hfiles, hlisted⟩ : ∃ files, unzonedStorage.list "t" = .ok files ∧
      files.map (·.path) = ["t/a"] :=
    Storage.list_of_perm (by decide +kernel) (by decide) (by decide +kernel)
  have hfound : ((Selector.ofRoot "t").paths unzonedStorage.access).result =
      .ok (files.map (·.path)) := by
    change ((do return (← unzonedStorage.listed "t").map (·.path)) :
      Accounted (List String)).result = _
    rw [Accounted.result_bind, Storage.listed, hfiles]
    rfl
  have hpaths : (Discovery.paths ⟨.ofRoot "t", .ipc, { DiscoveryOptions.default_ with
      partitioning := .scheme .none_ }⟩ unzonedStorage.access).result = .ok ["t/a"] := by
    rw [Discovery.paths, Accounted.result_bind, hfound, hlisted]
    rfl
  have hunify : Schema.unify [unzoned.schema] = .ok unzoned.schema :=
    Schema.unify_replicate (s := unzoned.schema) (by decide) 0
  exact Discovery.inspect_found.2
    ⟨_, _, hpaths, rfl, .cons rfl .nil, bind_eq_ok.2 ⟨_, hunify, rfl⟩⟩

/-- Nothing fails before the rows that are wanted are there, but they are not printed. -/
theorem scan_limit_unzoned : ∃ access dataset s tasks,
    openDataset ⟨unzonedStorage⟩ .default_ unzonedScan.dataset = .ok (access, dataset) ∧
    parseFilters dataset.schema unzonedScan.filters = .ok .true_ ∧
    Scan.build dataset ⟨.true_, unzonedScan.columns, scanOptions .default_ unzonedScan⟩ = .ok s ∧
    unzonedScan.count = false ∧ s.plan = .ok tasks ∧ s.options.mode ≠ .unordered ∧
    (∀ items', s.Runs access items' ↔ items' = [.ok unzoned]) ∧
    scan ⟨unzonedStorage⟩ .default_ { unzonedScan with limit := some 5 } = .error (.plain
      "Parser error: Invalid timezone \"UTC\": only offset based timezones supported without chrono-tz feature") := by
  have hfiles : StorageConfig.build ⟨unzonedStorage⟩ Config.default_.storage =
    .ok (.ofStorage unzonedStorage) := rfl
  have hnone : parsePartitioning "none" false = .ok (.scheme .none_) := rfl
  have hopen := openDataset_of_found unzonedScan.dataset unzonedFound hfiles hnone inspect_unzoned
  let s : Scan :=
    ⟨⟨[unzonedFound.source], unzonedFound.schema⟩, .true_, unzonedFound.schema,
      scanOptions .default_ unzonedScan⟩
  obtain ⟨tasks, hplan, hresults⟩ : ∃ tasks, s.plan = .ok tasks ∧
      ScanTask.resultsOf (FileSystem.ofStorage unzonedStorage).storage.access tasks =
      [.ok unzoned] := ⟨_, rfl, rfl⟩
  have hmode : s.options.mode ≠ .unordered := by decide
  refine ⟨_, _, s, tasks, hopen, rfl, rfl, rfl, hplan, hmode,
    fun items' => ⟨fun hruns => ?_, ?_⟩, ?_⟩
  · obtain ⟨tasks', hplan', rfl⟩ := hruns.eq_resultsOf
    rw [← Except.ok.inj (hplan.symm.trans hplan'), hresults]
  · rintro rfl
    rw [← hresults]
    exact Scan.runs_resultsOf _ hmode nofun hplan
  · rw [scan_eq hopen (s := s) rfl rfl rfl hplan, hresults]
    rfl

end Zones

end CommandLine

end TableScan
