import TableScan.Proofs.Streams
import TableScan.Scan.Threads

namespace TableScan

theorem exists_finishes {σ : Type} {Step : σ → Option (Except Failure Batch) → σ → Prop} {last : σ}
    (measure : σ → Nat) (hstep : ∀ r item r', Step r item r' → measure r' < measure r)
    (hgoes : ∀ r, r ≠ last → ∃ item r', Step r item r') (r : σ) :
    ∃ items, Finishes Step last r items := by
  induction hn : measure r using Nat.strongRecOn generalizing r with
  | ind n ih =>
    subst hn
    by_cases hr : r = last
    · exact ⟨[], hr ▸ .done⟩
    · obtain ⟨item, r', hs⟩ := hgoes r hr
      obtain ⟨items, hrest⟩ := ih _ (hstep r item r' hs) r' rfl
      exact ⟨_, .step hs hrest⟩

variable {workers : Workers} {opening : Opening}

namespace ThreadedTask

def left (opening : Opening) (t : ThreadedTask) : Batches :=
  t.sent ++ if t.closed then [] else t.run.namedRest opening

def steps (opening : Opening) (t : ThreadedTask) : Nat :=
  t.sent.length + 1 + if t.closed then 0 else 2 * (t.run.namedRest opening).length + 1

end ThreadedTask

namespace Threads

def left (opening : Opening) (r : Threads) : Batches :=
  r.started.flatMap (·.left opening) ++ r.waiting.flatMap fun t =>
    (TaskRun.start t).namedRest opening

def steps (opening : Opening) (r : Threads) : Nat :=
  (r.started.map (·.steps opening)).sum +
    (r.waiting.map fun t => 2 * ((TaskRun.start t).namedRest opening).length + 3).sum

variable {r r' : Threads} {item : Option (Except Failure Batch)} {items : Batches}

theorem Step.left_eq (h : Step workers opening r item r') :
    r.left opening = item.toList ++ r'.left opening := by
  cases h with
  | begin => simp [left, ThreadedTask.left, ThreadedTask.start]
  | send _ h => simp [left, ThreadedTask.left, TaskRun.namedRest_of_result? opening h]
  | close h => simp [left, ThreadedTask.left, TaskRun.namedRest_of_result?_none opening h]
  | take => simp [left, ThreadedTask.left]
  | leave => simp [left, ThreadedTask.left]

theorem Step.steps_eq (h : Step workers opening r item r') :
    r.steps opening = r'.steps opening + 1 := by
  cases h with
  | begin =>
    simp only [steps, ThreadedTask.steps, ThreadedTask.start, List.map_append, List.sum_append,
      List.map_cons, List.map_nil, List.sum_cons, List.sum_nil, List.length_nil, Bool.false_eq_true,
      if_false]
    omega
  | send _ h =>
    simp only [steps, ThreadedTask.steps, List.map_append, List.sum_append, List.map_cons,
      List.sum_cons, TaskRun.namedRest_of_result? opening h, List.length_cons, List.length_append,
      List.length_nil, Bool.false_eq_true, if_false]
    omega
  | close h =>
    simp only [steps, ThreadedTask.steps, List.map_append, List.sum_append, List.map_cons,
      List.sum_cons, TaskRun.namedRest_of_result?_none opening h, List.length_nil,
      Bool.false_eq_true, if_false, if_true]
    omega
  | take =>
    simp only [steps, ThreadedTask.steps, List.map_cons, List.sum_cons, List.length_cons]
    omega
  | leave =>
    simp only [steps, ThreadedTask.steps, List.map_cons, List.sum_cons, List.length_nil, if_true]
    omega

theorem exists_step (workers : Workers) (opening : Opening) (h : r ≠ ⟨[], []⟩) :
    ∃ item r', Step workers opening r item r' := by
  obtain ⟨started, waiting⟩ := r
  match started, waiting with
  | [], [] => exact absurd rfl h
  | [], t :: waiting => exact ⟨_, _, .begin workers.positive⟩
  | ⟨run, item :: sent, closed⟩ :: after, waiting => exact ⟨_, _, .take⟩
  | ⟨run, [], true⟩ :: after, waiting => exact ⟨_, _, .leave⟩
  | ⟨run, [], false⟩ :: after, waiting =>
    cases hr : run.result? opening with
    | none =>
      exact ⟨_, _,
        (.close hr : Step workers opening ⟨[] ++ ⟨run, [], false⟩ :: after, waiting⟩ _ _)⟩
    | some result =>
      have hroom : 0 < ThreadedTask.depth := by decide
      exact ⟨_, _,
        (.send hroom hr : Step workers opening ⟨[] ++ ⟨run, [], false⟩ :: after, waiting⟩ _ _)⟩

theorem Finishes.eq_left (h : Finishes workers opening r items) : items = r.left opening := by
  induction h with
  | done => rfl
  | step hs _ ih => rw [hs.left_eq, ih]

theorem finishes (workers : Workers) (opening : Opening) (r : Threads) :
    Finishes workers opening r (r.left opening) := by
  have hsteps (r : Threads) (item : Option (Except Failure Batch)) (r' : Threads)
      (h : Step workers opening r item r') : r'.steps opening < r.steps opening :=
        h.steps_eq ▸ Nat.lt_succ_self _
  obtain ⟨items, h⟩ :=
    exists_finishes (steps opening) hsteps (fun _ => exists_step workers opening) r
  exact Finishes.eq_left h ▸ h

theorem finishes_iff (tasks : List ScanTask) : Finishes workers opening (start tasks) items ↔
    Drains ScanResults.next (.ofTasks .serial opening tasks) items := by
  have hleft : (start tasks).left opening = (ScanResults.ofTasks .serial opening tasks).rest := by
    rw [ScanResults.rest_of_running (r := .ofTasks .serial opening tasks) Bool.false_ne_true]
    exact (List.flatMap_map ..).symm
  rw [ScanResults.leaves.drains_iff, ← hleft]
  exact ⟨Finishes.eq_left, fun h => h ▸ finishes workers opening (start tasks)⟩

end Threads

end TableScan
