import TableScan.Arithmetic
import TableScan.Dataset
import TableScan.Expr.Typing
import TableScan.Scan.Options
import TableScan.Scan.Task

open scoped TableScan.Arithmetic

namespace TableScan

structure ScanRequest : Type where
  filter : Expr
  columns : Option (List String)
  options : ScanOptions

namespace ScanRequest

def default_ : ScanRequest := ⟨.true_, none, .default_⟩

end ScanRequest

structure Scan : Type where
  dataset : Dataset
  filter : Expr
  projected : Schema
  options : ScanOptions

namespace Scan

def repeated? : List String → List String → Option String
  | _, [] => none
  | met, name :: rest => if met.contains name then some name else repeated? (name :: met) rest

def columnsOf (s : Schema) : Option (List String) → Except Failure (List String)
  | none => .ok s.names
  | some names =>
    match repeated? [] names with
    | some name => .error (.argument (.duplicateColumn name))
    | none => .ok names

def checkFilter (s : Schema) (filter : Expr) : Except Failure Unit := do
  let t ← filter.typeIn s
  if !Expr.isTruthType t then throw (.type (.filter filter.text t))

def build (d : Dataset) (r : ScanRequest) : Except Failure Scan := do
  r.options.check
  let projected ← d.schema.project (← columnsOf d.schema r.columns)
  checkFilter d.schema r.filter
  return ⟨d, ← r.filter.fold, projected, r.options⟩

variable (s : Scan)

def tasksOf (projected : Schema) (source : Source) : Except Failure (List ScanTask) := do
  let candidates ← source.candidates s.filter
  return candidates.map fun (f, residual) =>
    ⟨f, residual, ⟨s.dataset.schema, projected, s.options.batchSize⟩⟩

def tasks (projected : Schema) : Except Failure (List ScanTask) := do
  return (← s.dataset.sources.mapM (s.tasksOf projected)).flatten

def plan : Except Failure (List ScanTask) := s.tasks s.projected

def countPlan : Except Failure (List ScanTask) :=
  if s.filter.isSatisfiable then s.tasks [] else .ok []

end Scan

namespace ScanTask

def results (files : FileAccess) (t : ScanTask) : Batches :=
  (t.items files).map fun item => item.mapError (.fragment t.fragment.path)

def resultsOf (files : FileAccess) (tasks : List ScanTask) : Batches :=
  tasks.flatMap (results files)

def collect (bs : Batches) : Except Failure (List Batch) := bs.mapM id

/-- How many results are taken by one who stops at the first failure. -/
def demand : Batches → Nat
  | [] => 1
  | .ok _ :: rest => demand rest + 1
  | .error _ :: _ => 1

def started (files : FileAccess) : Nat → List ScanTask → List ScanTask
  | 0, _ => []
  | _, [] => []
  | n + 1, t :: rest => t :: started files (n + 1 - (t.items files).length) rest

def trafficFor (files : FileAccess) (n : Nat) (tasks : List ScanTask) : Traffic :=
  (started files n tasks).foldl (fun sum t => sum + t.traffic files) .none_

end ScanTask

namespace Scan

variable (files : FileAccess)

def gather {α : Type} (plan : Except Failure (List ScanTask)) (f : List Batch → α) :
    Accounted α := do
  let tasks ← plan
  let results := ScanTask.resultsOf files tasks
  ⟨ScanTask.trafficFor files (ScanTask.demand results) tasks, f <$> ScanTask.collect results⟩

variable (s : Scan)

/-- The batches in the order of the tasks. Where results come without order, so do the batches. -/
def toBatches : Accounted (List Batch) := gather files s.plan id

def toTable : Accounted Batch := gather files s.plan (Batch.concat s.projected)

/-- The number of rows. Only the columns of the filter are read. -/
def countRows : Accounted Nat := gather files s.countPlan fun bs => (bs.map (·.rows)).sum

end Scan

end TableScan
