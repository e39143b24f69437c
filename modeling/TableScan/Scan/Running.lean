import TableScan.Scan

namespace TableScan

/-- What opening a task gives: batches to be read, of which some may fail, or the reason why there
are none. -/
abbrev Opening : Type := ScanTask → Except Failure Batches

inductive TaskState : Type
  | pending
  | reading : Batches → TaskState
  | done

structure TaskRun : Type where
  task : ScanTask
  state : TaskState

namespace ScanTask

def opening (files : FileAccess) : Opening := fun t =>
  (t.fragment.origin.openFile files).result >>= fun file => t.fragment.format.read file t.request

end ScanTask

namespace TaskRun

def start (t : ScanTask) : TaskRun := ⟨t, .pending⟩

/-- Reads on to the next batch that fails or has rows. After a failure nothing more is read. -/
def readOn (t : ScanTask) : Batches → Option (Except Failure Batch) × TaskRun
  | [] => (none, ⟨t, .done⟩)
  | item :: rest =>
    match item >>= t.process with
    | .error e => (some (.error e), ⟨t, .done⟩)
    | .ok b => if b.rows = 0 then readOn t rest else (some (.ok b), ⟨t, .reading rest⟩)

variable (opening : Opening)

def next (r : TaskRun) : Option (Except Failure Batch) × TaskRun :=
  match r.state with
  | .pending =>
    match opening r.task with
    | .ok batches => readOn r.task batches
    | .error e => (some (.error e), ⟨r.task, .done⟩)
  | .reading batches => readOn r.task batches
  | .done => (none, r)

def named (r : TaskRun) (item : Except Failure Batch) : Except Failure Batch :=
  item.mapError (.fragment r.task.fragment.path)

def result? (r : TaskRun) : Option (Except Failure Batch × TaskRun) :=
  match r.next opening with
  | (some item, next) => some (r.named item, next)
  | (none, _) => none

def rest (r : TaskRun) : Batches :=
  match r.state with
  | .pending =>
    match opening r.task with
    | .ok batches => r.task.processAll batches
    | .error e => [.error e]
  | .reading batches => r.task.processAll batches
  | .done => []

def namedRest (r : TaskRun) : Batches := (r.rest opening).map r.named

end TaskRun

end TableScan
