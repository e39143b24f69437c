import TableScan.Failure

namespace TableScan

def DataType.scalar? : (t : DataType) → Option t.Carrier → Except TypeFault Scalar
  | .scalar t, v => .ok ⟨t, v⟩
  | .dictionary _ value, v => value.scalar? v
  | t, _ => .error (.noScalar t)

namespace Scalar

def nullOf (t : DataType) : Except TypeFault Scalar := t.scalar? none

def convert (s : Scalar) (t : DataType) : Except CastFault (Option t.Carrier) := do
  let f ← conversion s.dataType t
  match s.value with
  | none => return none
  | some v => return some (← (f v).strict)

def parse (t : DataType) (s : String) : Except Failure Scalar :=
  match (ofText s).convert t with
  | .error e => .error (ParseFault.value s t e)
  | .ok cell => (t.scalar? cell).mapError .type

/-- The value in another type; what cannot be kept fails. -/
def castTo (s : Scalar) (t : DataType) : Except Failure Scalar :=
  if s.dataType = t then .ok s
  else
    match s.convert t with
    | .error e => .error (TypeFault.cast s t e)
    | .ok cell => (t.scalar? cell).mapError .type

/-- The order of two values: none when either is null, a fault when their types do not compare. -/
def compare (a b : Scalar) : Except TypeFault (Option Ordering) :=
  if (comparisonType a.dataType b.dataType).isNone then .error (.compare a.dataType b.dataType)
  else
    match a.magnitude?, b.magnitude? with
    | some x, some y =>
      match x.compare? y with
      | some o => .ok (some o)
      | none => .error (.compare a.dataType b.dataType)
    | _, _ => .ok none

def order? (a b : Scalar) : Option Ordering := (a.compare b).toOption.join

def truth : Scalar → Except TypeFault (Option Bool)
  | ⟨.null, _⟩ => .ok none
  | ⟨.boolean, b⟩ => .ok b
  | s => .error (.truth s)

end Scalar

end TableScan
