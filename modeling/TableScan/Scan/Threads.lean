import TableScan.Scan.Results

/-!
Tasks on threads. Threads take tasks up one after the other. Where results are wanted in order, each
task sends its own to a queue that has little room, and the queues are emptied in the order of the
tasks; else all tasks send to one queue, from which results are taken as they come. How threads are
ended whose results nobody takes is left out.
-/

namespace TableScan

/-- Steps from a state to the last one, with the results that are taken on the way. -/
inductive Finishes {σ : Type} (Step : σ → Option (Except Failure Batch) → σ → Prop) (last : σ) :
    σ → Batches → Prop
  | done : Finishes Step last last []
  | step {r r' : σ} {item : Option (Except Failure Batch)} {items : Batches} :
      Step r item r' → Finishes Step last r' items → Finishes Step last r (item.toList ++ items)

structure ThreadedTask : Type where
  run : TaskRun
  sent : Batches
  closed : Bool

namespace ThreadedTask

def depth : Nat := 4

def start (t : ScanTask) : ThreadedTask := ⟨.start t, [], false⟩

end ThreadedTask

/-- Tasks of which results are still wanted: those that threads have taken up, and those behind
them. -/
structure Threads : Type where
  started : List ThreadedTask
  waiting : List ScanTask

namespace Threads

def start (tasks : List ScanTask) : Threads := ⟨[], tasks⟩

/-- What a thread does, or the one who takes the results; the step that takes one is marked with it.
-/
inductive Step (workers : Workers) (opening : Opening) :
    Threads → Option (Except Failure Batch) → Threads → Prop
  | begin {started : List ThreadedTask} {t : ScanTask} {waiting : List ScanTask} :
      started.countP (!·.closed) < workers.count →
      Step workers opening ⟨started, t :: waiting⟩ none ⟨started ++ [.start t], waiting⟩
  | send {before after : List ThreadedTask} {run run' : TaskRun} {sent : Batches}
      {waiting : List ScanTask} {item : Except Failure Batch} :
      sent.length < ThreadedTask.depth → run.result? opening = some (item, run') →
      Step workers opening ⟨before ++ ⟨run, sent, false⟩ :: after, waiting⟩ none
        ⟨before ++ ⟨run', sent ++ [item], false⟩ :: after, waiting⟩
  | close {before after : List ThreadedTask} {run : TaskRun} {sent : Batches}
      {waiting : List ScanTask} :
      run.result? opening = none →
      Step workers opening ⟨before ++ ⟨run, sent, false⟩ :: after, waiting⟩ none
        ⟨before ++ ⟨run, sent, true⟩ :: after, waiting⟩
  | take {after : List ThreadedTask} {run : TaskRun} {item : Except Failure Batch} {sent : Batches}
      {closed : Bool} {waiting : List ScanTask} :
      Step workers opening ⟨⟨run, item :: sent, closed⟩ :: after, waiting⟩ (some item)
        ⟨⟨run, sent, closed⟩ :: after, waiting⟩
  -- the first task has nothing to send any more
  | leave {after : List ThreadedTask} {run : TaskRun} {waiting : List ScanTask} :
      Step workers opening ⟨⟨run, [], true⟩ :: after, waiting⟩ none ⟨after, waiting⟩

def Finishes (workers : Workers) (opening : Opening) : Threads → Batches → Prop :=
  TableScan.Finishes (Step workers opening) ⟨[], []⟩

end Threads

/-- Tasks that threads are at, the queue that they share, and the tasks that none has taken up. -/
structure Pool : Type where
  running : List TaskRun
  sent : Batches
  waiting : List ScanTask

namespace Pool

def start (tasks : List ScanTask) : Pool := ⟨[], [], tasks⟩

def depth (workers : Workers) : Nat := workers.count * ThreadedTask.depth

inductive Step (workers : Workers) (opening : Opening) :
    Pool → Option (Except Failure Batch) → Pool → Prop
  | begin {running : List TaskRun} {sent : Batches} {t : ScanTask} {waiting : List ScanTask} :
      running.length < workers.count →
      Step workers opening ⟨running, sent, t :: waiting⟩ none ⟨running ++ [.start t], sent, waiting⟩
  | send {before after : List TaskRun} {run run' : TaskRun} {sent : Batches}
      {waiting : List ScanTask} {item : Except Failure Batch} :
      sent.length < depth workers → run.result? opening = some (item, run') →
      Step workers opening ⟨before ++ run :: after, sent, waiting⟩ none
        ⟨before ++ run' :: after, sent ++ [item], waiting⟩
  | leave {before after : List TaskRun} {run : TaskRun} {sent : Batches} {waiting : List ScanTask} :
      run.result? opening = none →
      Step workers opening ⟨before ++ run :: after, sent, waiting⟩ none
      ⟨before ++ after, sent, waiting⟩
  | take {running : List TaskRun} {item : Except Failure Batch} {sent : Batches}
      {waiting : List ScanTask} :
      Step workers opening ⟨running, item :: sent, waiting⟩ (some item) ⟨running, sent, waiting⟩

def Finishes (workers : Workers) (opening : Opening) : Pool → Batches → Prop :=
  TableScan.Finishes (Step workers opening) ⟨[], [], []⟩

end Pool

end TableScan
