import TableScan.Partition.Scheme

namespace TableScan

/-- An integer as it would be written: no plus sign and no zeros before it. -/
def isCanonicalInteger (s : String) : Bool :=
  let digits := match s.toList with
    | '-' :: rest => rest
    | cs => cs
  digits ≠ [] && digits.all Text.isDigit && (digits = ['0'] || digits.head? ≠ some '0')

def fitsInteger (t : IntType) (s : String) : Bool :=
  ((Text.integer? s.toList).bind (Fixed.ofInt? t)).isSome

def inferType (values : List String) : DataType :=
  if values = [] || !values.all isCanonicalInteger then .utf8
  else if values.all (fitsInteger .int32) then .int .int32
  else if values.all (fitsInteger .int64) then .int .int64
  else .utf8

inductive SchemeDiscovery : Type
  | hive : Bool → SchemeDiscovery
  | positional : List String → SchemeDiscovery
  deriving DecidableEq

namespace SchemeDiscovery

def pairs (strict : Bool) (path : String) : Except Failure (List (String × String)) :=
  (Path.directories path).filterMapM fun name =>
    match Hive.keyValue name with
    | .ok pair => .ok (some pair)
    | .error fault =>
      if strict then .error (ParseFault.inPath (.segment name fault) path) else .ok none

def valuesOf (key : String) (pairs : List (String × String)) : List String :=
  pairs.filterMap fun (k, v) => if k = key && !Hive.isNullValue v then some v else none

def hiveSchema (pairs : List (String × String)) : Schema :=
  (pairs.map (·.1)).eraseDups.map fun key => ⟨key, inferType (valuesOf key pairs), true, .empty⟩

def namesAt (depth : Nat) (paths : List String) : List String :=
  paths.filterMap fun path => (Path.directories path)[depth]?

def inspect (paths : List String) : SchemeDiscovery → Except Failure Schema
  | hive strict => do return hiveSchema (← paths.mapM (pairs strict)).flatten
  | positional names =>
    .ok (names.zipIdx.map fun (name, depth) =>
      ⟨name, inferType (namesAt depth paths), true, .empty⟩)

def typeName : SchemeDiscovery → String
  | hive _ => "hive"
  | positional _ => "schema"

def finish (schema : Schema) : SchemeDiscovery → Scheme
  | hive strict => .hive schema strict
  | positional _ => .positional schema

end SchemeDiscovery

inductive Partitioning : Type
  | scheme : Scheme → Partitioning
  | discovery : SchemeDiscovery → Partitioning

namespace Partitioning

def resolve (paths : List String) : Partitioning → Except Failure Scheme
  | scheme s => .ok s
  | discovery d => do return d.finish (← d.inspect paths)

end Partitioning

end TableScan
