import TableScan.Proofs.Threads

/-!
Tasks on threads that share a queue. However the threads are scheduled, what is taken is what the
tasks yield one after the other, in another order: the results of each task keep theirs. No schedule
goes on forever, and none gets stuck before the end.
-/

namespace TableScan

/-- A list that takes its items from the fronts of lists, until these are used up. -/
inductive Interleaved {α : Type} : List (List α) → List α → Prop
  | done {ls : List (List α)} : (∀ l ∈ ls, l = []) → Interleaved ls []
  | next {before after : List (List α)} {x : α} {l xs : List α} :
      Interleaved (before ++ l :: after) xs → Interleaved (before ++ (x :: l) :: after) (x :: xs)

namespace Interleaved

variable {α : Type} {ls before after : List (List α)} {l xs : List α}

theorem perm (h : Interleaved ls xs) : xs.Perm ls.flatten := by
  induction h with
  | done h => rw [List.flatten_eq_nil_iff.2 h]
  | @next before after x l xs _ ih =>
    rw [List.flatten_append, List.flatten_cons] at ih ⊢
    exact (ih.cons x).trans (@List.perm_middle _ x before.flatten _).symm

theorem sublist (h : Interleaved ls xs) (hl : l ∈ ls) : l.Sublist xs := by
  induction h generalizing l with
  | done h => rw [h l hl]
  | @next before after x l' xs _ ih =>
    rcases List.mem_append.1 hl with hl | hl
    · exact .cons x (ih (List.mem_append_left _ hl))
    · rcases List.mem_cons.1 hl with rfl | hl
      · exact .cons_cons x (ih (List.mem_append_right _ List.mem_cons_self))
      · exact .cons x (ih (List.mem_append_right _ (List.mem_cons_of_mem _ hl)))

theorem insert_nil (before after : List (List α)) (h : Interleaved (before ++ after) xs) :
    Interleaved (before ++ [] :: after) xs := by
  generalize hls : before ++ after = ls at h
  induction h generalizing before after with
  | @done ls h =>
    rw [← hls] at h
    refine .done fun l hl => ?_
    rcases List.mem_append.1 hl with hl | hl
    · exact h l (List.mem_append_left _ hl)
    · exact (List.mem_cons.1 hl).elim id fun hl => h l (List.mem_append_right _ hl)
  | @next before' after' x l xs _ ih =>
    -- the list that gives the item stands before the new one or behind it
    rcases List.append_eq_append_iff.1 hls.symm with ⟨mid, rfl, hmid⟩ | ⟨mid, rfl, rfl⟩
    · cases mid with
      | nil =>
        obtain rfl : after = (x :: l) :: after' := by simpa using hmid.symm
        have hrest : Interleaved ((before' ++ [[]]) ++ l :: after') xs := by
          simpa using ih before' (l :: after') rfl
        simpa using hrest.next (x := x)
      | cons l' mid =>
        obtain ⟨rfl, rfl⟩ := List.cons.inj hmid
        have hrest : Interleaved (before' ++ l :: (mid ++ [] :: after)) xs := by
          simpa using ih (before' ++ l :: mid) after (by simp)
        simpa using hrest.next (x := x)
    · have hrest : Interleaved ((before ++ [] :: mid) ++ l :: after') xs := by
        simpa using ih before (mid ++ l :: after') (by simp)
      simpa using hrest.next (x := x)

end Interleaved

namespace Pool

variable {workers : Workers} {opening : Opening} {r r' : Pool}
  {item : Option (Except Failure Batch)} {items : Batches}

def lefts (opening : Opening) (r : Pool) : List Batches :=
  (r.running ++ r.waiting.map TaskRun.start).map (·.namedRest opening)

/-- How many steps there are still: a task is begun and left, a result is sent and taken. -/
def steps (opening : Opening) (r : Pool) : Nat :=
  r.running.length + 2 * r.waiting.length + r.sent.length +
    2 * ((r.lefts opening).map List.length).sum

theorem Step.interleaved (h : Step workers opening r item r') {later : Batches}
    (hlater : Interleaved (r'.lefts opening) later) :
    ∃ later', item.toList ++ (r'.sent ++ later) = r.sent ++ later' ∧
      Interleaved (r.lefts opening) later' := by
  cases h with
  | begin => exact ⟨later, rfl, by simpa [lefts] using hlater⟩
  | @send before after run run' sent waiting item _ hrun =>
    refine ⟨item :: later, by simp, ?_⟩
    have hleft := TaskRun.namedRest_of_result? opening hrun
    simp only [lefts, List.map_append, List.map_cons, List.append_assoc, List.cons_append, hleft]
      at hlater ⊢
    exact .next hlater
  | @leave before after run sent waiting hrun =>
    refine ⟨later, rfl, ?_⟩
    have hleft := TaskRun.namedRest_of_result?_none opening hrun
    simp only [lefts, List.map_append, List.map_cons, List.append_assoc, List.cons_append, hleft]
      at hlater ⊢
    exact hlater.insert_nil _ _
  | take => exact ⟨later, rfl, hlater⟩

theorem Step.steps_eq (h : Step workers opening r item r') :
    r.steps opening = r'.steps opening + 1 := by
  cases h with
  | begin =>
    simp only [steps, lefts, List.map_append, List.map_cons, List.map_nil, List.length_append,
      List.length_cons, List.length_nil, List.sum_append, List.sum_cons, List.sum_nil]
    omega
  | send _ hrun =>
    simp only [steps, lefts, List.map_append, List.map_cons, List.length_append, List.length_cons,
      List.length_nil, List.sum_append, List.sum_cons, TaskRun.namedRest_of_result? opening hrun]
    omega
  | leave hrun =>
    simp only [steps, lefts, List.map_append, List.map_cons, List.length_append, List.length_cons,
      List.length_nil, List.sum_append, List.sum_cons,
      TaskRun.namedRest_of_result?_none opening hrun]
    omega
  | take =>
    simp only [steps, lefts, List.length_cons]
    omega

theorem exists_step (workers : Workers) (opening : Opening) (h : r ≠ ⟨[], [], []⟩) :
    ∃ item r', Step workers opening r item r' := by
  obtain ⟨running, sent, waiting⟩ := r
  match running, sent, waiting with
  | [], [], [] => exact absurd rfl h
  | _, _ :: _, _ => exact ⟨_, _, .take⟩
  | [], [], _ :: _ => exact ⟨_, _, .begin workers.positive⟩
  | run :: after, [], waiting =>
    cases hrun : run.result? opening with
    | none =>
      exact ⟨_, _, (.leave hrun : Step workers opening ⟨[] ++ run :: after, [], waiting⟩ _ _)⟩
    | some result =>
      have hroom : 0 < depth workers := Nat.mul_pos workers.positive (by decide)
      exact ⟨_, _, (.send hroom hrun : Step workers opening ⟨[] ++ run :: after, [], waiting⟩ _ _)⟩

theorem Finishes.interleaved (h : Finishes workers opening r items) :
    ∃ later, items = r.sent ++ later ∧ Interleaved (r.lefts opening) later := by
  induction h with
  | done => exact ⟨[], rfl, .done nofun⟩
  | step hs _ ih =>
    obtain ⟨later, rfl, hlater⟩ := ih
    exact hs.interleaved hlater

theorem finishes (workers : Workers) (opening : Opening) (r : Pool) :
    ∃ items, Finishes workers opening r items := by
  have hsteps (r : Pool) (item : Option (Except Failure Batch)) (r' : Pool)
      (h : Step workers opening r item r') :
      r'.steps opening < r.steps opening := h.steps_eq ▸ Nat.lt_succ_self _
  exact exists_finishes (steps opening) hsteps (fun _ => exists_step workers opening) r

theorem interleaved_results {files : FileAccess} {tasks : List ScanTask}
    (h : Finishes workers (ScanTask.opening files) (start tasks) items) :
    Interleaved (tasks.map (ScanTask.results files)) items := by
  obtain ⟨later, rfl, hlater⟩ := h.interleaved
  have hlefts : (start tasks).lefts (ScanTask.opening files) =
      tasks.map (ScanTask.results files) := by
    rw [lefts, start, List.nil_append, List.map_map]
    rfl
  exact hlefts ▸ hlater

end Pool

end TableScan
