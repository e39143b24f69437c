import TableScan.Expr
import TableScan.Value.Scalar
import TableScan.Schema
import TableScan.Path
import TableScan.Text.Percent

namespace TableScan.Hive

def nullValue : String := "__HIVE_DEFAULT_PARTITION__"

def isNullValue (value : String) : Bool := value = "" || value = nullValue

def keyValue (segment : String) : Except SegmentFault (String × String) := do
  let some (key, value) := Path.splitOnce? '=' segment.toList | throw .notPair
  let some key := Text.Percent.decode? key | throw .keyEncoding
  if key = "" then throw .emptyKey
  let some value := Text.Percent.decode? value | throw .valueEncoding
  return (key, value)

/-- A segment that cannot be used fails where the scheme is strict, and says nothing elsewhere. -/
def malformed (strict : Bool) (segment : String) (fault : SegmentFault) : Except Failure Expr :=
  if strict then .error (ParseFault.segment segment fault) else .ok .true_

def segment (schema : Schema) (strict : Bool) (segment : String) : Except Failure Expr :=
  match keyValue segment with
  | .error fault => malformed strict segment fault
  | .ok (key, value) =>
    match schema.field? key with
    | none => .ok .true_
    | some f =>
      if isNullValue value then .ok (.not (.isValid (.field key)))
      else
        match Scalar.parse f.type value with
        | .ok v => .ok (.compare .eq (.field key) (.lit v))
        | .error e => malformed strict segment (.value e.message)

def encode (s : String) : String := Text.Percent.encode Text.Percent.isUnreserved s

def formatField (e : Expr) (f : Field) : Except Failure (Option String) :=
  match e.boundTo? f.name with
  | none => .ok none
  | some v => do
    let value ← if v.isNull then pure nullValue else (fun v => encode v.text) <$> v.castTo f.type
    return some (encode f.name ++ "=" ++ value)

def format (schema : Schema) (e : Expr) : Except Failure String := do
  return "/".intercalate (← schema.filterMapM (formatField e))

end TableScan.Hive
