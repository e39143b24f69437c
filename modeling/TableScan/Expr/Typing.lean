import TableScan.Expr.Text
import TableScan.Schema

namespace TableScan.Expr

/-- Truth values, and the type of nothing else than nulls, which stands for unknown. -/
def isTruthType (t : DataType) : Bool := t = .boolean || t = .null

def expectTruth (e : Expr) (t : DataType) : Except Failure Unit :=
  if isTruthType t then .ok () else .error (TypeFault.operand e.text t)

def checkSet (e : Expr) (t : DataType) : List Scalar → Except Failure Unit
  | [] => .ok ()
  | v :: rest =>
    if (comparisonType t v.dataType).isNone then .error (TypeFault.setElement v e.text t)
    else checkSet e t rest

def typeIn (s : Schema) : Expr → Except Failure DataType
  | field name =>
    match s.field? name with
    | some f => .ok f.type
    | none => .error (.unknownField name)
  | lit v => .ok v.dataType
  | compare op a b => do
    let l ← a.typeIn s
    let r ← b.typeIn s
    if (comparisonType l r).isNone then
      throw (Failure.type (.compareIn l r (a.text ++ " " ++ op.symbol ++ " " ++ b.text)))
    return .boolean
  | and a b | or a b => do
    expectTruth a (← a.typeIn s)
    expectTruth b (← b.typeIn s)
    return .boolean
  | not e => do
    expectTruth e (← e.typeIn s)
    return .boolean
  | member e set => do
    let t ← e.typeIn s
    checkSet e t set
    return .boolean
  | isValid e => do
    let _ ← e.typeIn s
    return .boolean
  | cast e target => do
    let t ← e.typeIn s
    if !castable t target then throw (Failure.type (.castIn e.text t target))
    return target

end TableScan.Expr
