import TableScan.Fragment
import TableScan.Expr.Eval

/-!
Tasks: the reading of one fragment under what is left of a filter. Batches of the file are brought
to the fields of the dataset, filtered, and projected.
-/

namespace TableScan

structure ScanContext : Type where
  dataset : Schema
  projected : Schema
  batchSize : Nat

structure ScanTask : Type where
  fragment : Fragment
  filter : Expr
  context : ScanContext

structure SizedSeries (rows : Nat) : Type where
  series : Series
  sized : series.column.length = rows

namespace SizedSeries

def ofColumn {rows : Nat} (f : Field) (c : Column) (h : c.length = rows) : SizedSeries rows :=
  ⟨⟨f.name, f.nullable, c, f.metadata⟩, h⟩

def nulls (rows : Nat) (f : Field) : SizedSeries rows :=
  .ofColumn f (.nulls f.type rows) (Column.length_nulls f.type rows)

end SizedSeries

namespace Batch

def ofSized {rows : Nat} (columns : List (SizedSeries rows)) : Batch where
  rows := rows
  columns := columns.map (·.series)
  sized := by
    intro s hs
    obtain ⟨t, _, rfl⟩ := List.mem_map.1 hs
    exact t.sized

def underField (b : Batch) (f : Field) : SizedSeries b.rows :=
  match h : b.column? f.name with
  | some c => .ofColumn f c (b.length_of_column? h)
  | none => .nulls b.rows f

def project (b : Batch) (s : Schema) : Batch := ofSized (s.map b.underField)

def satisfying (b : Batch) (filter : Expr) : Except Failure Batch := do
  if filter.isTrue then return b
  return b.filter ((← filter.mask b).map (· == some true))

end Batch

namespace ScanTask

variable (t : ScanTask)

/-- The fields that the filter or the result needs, as the dataset orders them. Any may be null. -/
def needed : Schema :=
  (t.context.dataset.filter fun f =>
    t.filter.fields.contains f.name || t.context.projected.names.contains f.name).map
      fun f => { f with nullable := true }

def fixed? (name : String) : Option Scalar := t.fragment.partition.boundTo? name

def columns : List String :=
  (t.needed.names.filter fun name =>
    (t.fragment.physical.field? name).isSome && (t.fixed? name).isNone)

def request : ReadRequest := ⟨some t.columns, t.context.batchSize, t.filter⟩

def fill (rows : Nat) (f : Field) (v : Scalar) : Except Failure (SizedSeries rows) := do
  if v.isNull then return .nulls rows f
  let v ← v.castTo f.type
  return .ofColumn f (.constant v rows) (Column.length_constant v rows)

def convert {rows : Nat} (f : Field) (c : Column) (h : c.length = rows) :
    Except Failure (SizedSeries rows) :=
  match hc : c.cast f.type with
  | .ok d => .ok (.ofColumn f d ((Column.length_cast hc).trans h))
  | .error e => .error (.column e)

/-- A field of the dataset: fixed by the fragment's place, in the file, or null. -/
def conformField (b : Batch) (f : Field) : Except Failure (SizedSeries b.rows) :=
  match t.fixed? f.name with
  | some v => fill b.rows f v
  | none =>
    match h : b.column? f.name with
    | some c => convert f c (b.length_of_column? h)
    | none => .ok (.nulls b.rows f)

def checkTypes {rows : Nat} (fields : Schema) (columns : List (SizedSeries rows)) :
    Except ColumnFault Unit :=
  match (fields.zip columns).zipIdx.find? fun ((f, s), _) => s.series.column.type ≠ f.type with
  | some ((f, s), i) => .error (.types f.type s.series.column.type i)
  | none => .ok ()

def conform (b : Batch) : Except Failure Batch := do
  let columns ← t.needed.mapM (t.conformField b)
  (checkTypes t.needed columns).mapError .column
  return .ofSized columns

def process (b : Batch) : Except Failure Batch := do
  let b ← (← t.conform b).satisfying t.filter
  ((b.project t.context.projected).checked).mapError .column

def untilFailure : Batches → Batches
  | [] => []
  | .error e :: _ => [.error e]
  | .ok b :: rest => if b.rows = 0 then untilFailure rest else .ok b :: untilFailure rest

def processAll (bs : Batches) : Batches := untilFailure (bs.map (· >>= t.process))

def itemsOf (file : Except Failure OpenFile) : Batches :=
  match file >>= fun file => t.fragment.format.read file t.request with
  | .ok batches => t.processAll batches
  | .error e => [.error e]

def items (files : FileAccess) : Batches := t.itemsOf (t.fragment.origin.openFile files).result

def traffic (files : FileAccess) : Traffic := (t.fragment.origin.openFile files).traffic

end ScanTask

end TableScan
