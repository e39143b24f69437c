import TableScan.Expr
import TableScan.Batch

namespace TableScan

def kleeneAnd : Option Bool → Option Bool → Option Bool
  | some false, _ => some false
  | _, some false => some false
  | some true, some true => some true
  | _, _ => none

def kleeneOr : Option Bool → Option Bool → Option Bool
  | some true, _ => some true
  | _, some true => some true
  | some false, some false => some false
  | _, _ => none

def kleeneNot (a : Option Bool) : Option Bool := a.map (!·)

/-- The value of an expression over a batch: one for each row, or the same for all of them. -/
inductive Operand : Type
  | column : Column → Operand
  | scalar : Scalar → Operand

namespace Operand

def type : Operand → DataType
  | column c => c.type
  | scalar s => s.dataType

def toColumn (rows : Nat) : Operand → Column
  | column c => c
  | scalar s => .constant s rows

def truths (rows : Nat) (v : Operand) : Except Failure (List (Option Bool)) :=
  match v.toColumn rows with
  | ⟨.scalar .boolean, cells⟩ => .ok cells
  | ⟨.scalar .null, cells⟩ => .ok (cells.map fun _ => none)
  | c => .error (TypeFault.mask c.type)

def ofTruths (ts : List (Option Bool)) : Operand := column ⟨.boolean, ts⟩

def combine (f : Option Bool → Option Bool → Option Bool) (rows : Nat) :
    Operand → Operand → Except Failure Operand
  | scalar a, scalar b => do
    let x ← a.truth.mapError .type
    let y ← b.truth.mapError .type
    return scalar (.ofTruth (f x y))
  | a, b => do
    let xs ← a.truths rows
    let ys ← b.truths rows
    return ofTruths (List.zipWith f xs ys)

def compareCells {t : DataType} (op : Comparison) :
    Option t.Carrier → Option t.Carrier → Option Bool
  | some a, some b => some (op.holds (t.compare a b))
  | _, _ => none

def compareColumns (op : Comparison) (t : DataType) (a b : Column) : Except Failure Operand := do
  let xs ← (a.castCells t).mapError .column
  let ys ← (b.castCells t).mapError .column
  return ofTruths (List.zipWith (compareCells op) xs ys)

def compareWith (op : Comparison) (rows : Nat) : Operand → Operand → Except Failure Operand
  | scalar a, scalar b => do
    let o ← (a.compare b).mapError .type
    return scalar (.ofTruth (o.map op.holds))
  | a, b =>
    match comparisonType a.type b.type with
    | none => .error (TypeFault.compare a.type b.type)
    | some t =>
      if t = .null then .ok (scalar (.ofTruth none))
      else compareColumns op t (a.toColumn rows) (b.toColumn rows)

end Operand

namespace Expr

open Operand

def memberOf (v : Operand) (rows : Nat) : List Scalar → Except Failure Operand
  | [] => .ok (.scalar (.ofBool false))
  | s :: set => do
    let first ← compareWith .eq rows v (.scalar s)
    set.foldlM (fun found s => do
      combine kleeneOr rows found (← compareWith .eq rows v (.scalar s))) first

def operand (b : Batch) : Expr → Except Failure Operand
  | field name =>
    match b.column? name with
    | some c => .ok (.column c)
    | none => .error (.unknownField name)
  | lit v => .ok (.scalar v)
  | compare op x y => do
    let l ← x.operand b
    let r ← y.operand b
    compareWith op b.rows l r
  | and x y => do
    let l ← x.operand b
    let r ← y.operand b
    combine kleeneAnd b.rows l r
  | or x y => do
    let l ← x.operand b
    let r ← y.operand b
    combine kleeneOr b.rows l r
  | not e => do
    match ← e.operand b with
    | .scalar s => return .scalar (.ofTruth (kleeneNot (← s.truth.mapError .type)))
    | v => return ofTruths ((← v.truths b.rows).map kleeneNot)
  | isValid e => do
    match ← e.operand b with
    | .scalar s => return .scalar (.ofBool (!s.isNull))
    | .column c => return ofTruths (c.valid.map some)
  | member e set =>
    if set = [] then .ok (.scalar (.ofBool false))
    else do memberOf (← e.operand b) b.rows set
  | cast e t => do
    match ← e.operand b with
    | .scalar s => return .scalar (← s.castTo t)
    | .column c => return .column (← (c.cast t).mapError .column)

def eval (b : Batch) (e : Expr) : Except Failure Column := do
  return (← e.operand b).toColumn b.rows

def mask (b : Batch) (e : Expr) : Except Failure (List (Option Bool)) := do
  (← e.operand b).truths b.rows

end Expr

end TableScan
