import TableScan.Partition.Hive

namespace TableScan

inductive Scheme : Type
  | none_ : Scheme
  | positional : Schema → Scheme
  | hive : Schema → Bool → Scheme
  | dictionary : Schema → List (List (String × Expr)) → Scheme
  | function : Schema → (String → Nat → Except Failure Expr) → Scheme

namespace Scheme

def typeName : Scheme → String
  | none_ => "default"
  | positional _ => "schema"
  | hive _ _ => "hive"
  | dictionary _ _ => "segment_dictionary"
  | function _ _ => "function"

def schema : Scheme → Schema
  | none_ => []
  | positional s | hive s _ | dictionary s _ | function s _ => s

def segment : Scheme → String → Nat → Except Failure Expr
  | none_, _, _ => .ok .true_
  | positional s, name, depth =>
    match s[depth]? with
    | none => .ok .true_
    | some f => do return .compare .eq (.field f.name) (.lit (← Scalar.parse f.type name))
  | hive s strict, name, _ => Hive.segment s strict name
  | dictionary _ tables, name, depth =>
    .ok ((tables[depth]?.bind (·.lookup name)).getD .true_)
  | function _ f, name, depth => f name depth

def inPath (path : String) : Failure → Failure
  | .parse f => .parse (.inPath f path)
  | e => e

def parse (scheme : Scheme) (path : String) : Except Failure Expr := do
  let conditions ← (Path.directories path).zipIdx.mapM fun (name, depth) =>
    (scheme.segment name depth).mapError (inPath path)
  return .all (conditions.filter fun e => !e.isTrue)

end Scheme

end TableScan
