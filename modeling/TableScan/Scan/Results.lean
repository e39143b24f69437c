import TableScan.Scan.Running

namespace TableScan

inductive ScanMode : Type
  | serial | ordered | unordered
  deriving DecidableEq

namespace ScanMode

def name : ScanMode → String
  | serial => "serial"
  | ordered => "ordered"
  | unordered => "unordered"

end ScanMode

namespace ScanOptions

def mode (o : ScanOptions) : ScanMode :=
  if o.useThreads then
    match o.order with
    | .ordered => .ordered
    | .unordered => .unordered
  else .serial

end ScanOptions

structure ScanResults : Type where
  mode : ScanMode
  opening : Opening
  current : Option TaskRun
  pending : List ScanTask
  cancelled : Bool

namespace ScanResults

def ofTasks (mode : ScanMode) (opening : Opening) (tasks : List ScanTask) : ScanResults :=
  ⟨mode, opening, none, tasks, false⟩

/-- The results of tasks, whatever the mode: without order those on threads come as some mixture of
the same, in order they come as they do here. -/
def start (files : FileAccess) (mode : ScanMode) (tasks : List ScanTask) : ScanResults :=
  .ofTasks mode (ScanTask.opening files) tasks

/-- The next result of the task that runs or, when it has none left, of the first task behind it
that has one. -/
def nextFrom (opening : Opening) (current : Option TaskRun) (pending : List ScanTask) :
    Option (Except Failure Batch) × Option TaskRun × List ScanTask :=
  match current.bind (·.result? opening) with
  | some (item, run) => (some item, some run, pending)
  | none =>
    match pending with
    | [] => (none, none, [])
    | t :: pending => nextFrom opening (some (.start t)) pending

def next (r : ScanResults) : Option (Except Failure Batch) × ScanResults :=
  if r.cancelled then (none, r)
  else
    let (item, current, pending) := nextFrom r.opening r.current r.pending
    (item, { r with current := current, pending := pending })

def take (r : ScanResults) : Nat → Batches × ScanResults
  | 0 => ([], r)
  | n + 1 =>
    match r.next with
    | (none, r) => ([], r)
    | (some item, r) =>
      let (items, r) := r.take n
      (item :: items, r)

def rest (r : ScanResults) : Batches :=
  if r.cancelled then []
  else (r.current.toList ++ r.pending.map TaskRun.start).flatMap fun run => run.namedRest r.opening

def cancel (r : ScanResults) : ScanResults := { r with cancelled := true }

def text (r : ScanResults) : String :=
  "ScanResults \x7b mode: \"" ++ r.mode.name ++ "\", cancelled: " ++
    (if r.cancelled then "true" else "false") ++ " \x7d"

end ScanResults

end TableScan
