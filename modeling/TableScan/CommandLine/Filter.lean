import TableScan.CommandLine.Report
import TableScan.Expr
import TableScan.Value.Scalar
import TableScan.Schema
import TableScan.Partition.Discovery
import TableScan.Text.Blank

namespace TableScan.CommandLine

/-- The operator at the front of a text: of two that fit, the longer one. -/
def operator? : List Char → Option (Comparison × List Char)
  | '>' :: '=' :: rest => some (.ge, rest)
  | '<' :: '=' :: rest => some (.le, rest)
  | '!' :: '=' :: rest => some (.ne, rest)
  | '=' :: '=' :: rest => some (.eq, rest)
  | '=' :: rest => some (.eq, rest)
  | '<' :: rest => some (.lt, rest)
  | '>' :: rest => some (.gt, rest)
  | _ => none

def splitOperator? : List Char → Option (List Char × Comparison × List Char)
  | [] => none
  | c :: cs =>
    match operator? (c :: cs) with
    | some (op, rest) => some ([], op, rest)
    | none => (splitOperator? cs).map fun (before, op, rest) => (c :: before, op, rest)

/-- A column, an operator and a value of the column's type; blanks around the sides do not count. -/
def parseComparison (s : Schema) (text : String) : Except Report Expr :=
  match splitOperator? text.toList with
  | none => .error (.plain ("filter '" ++ text ++ "' has no comparison operator"))
  | some (left, op, right) =>
    let name := Text.trim (String.ofList left)
    match s.field? name with
    | none =>
      .error (.plain ("filter '" ++ text ++ "' references unknown column '" ++ name ++ "'"))
    | some f =>
      match Scalar.parse f.type (Text.trim (String.ofList right)) with
      | .ok v => .ok (.compare op (.field name) (.lit v))
      | .error e =>
        .error ((Report.ofFailure e).within ("invalid value in filter '" ++ text ++ "'"))

def parseFilters (s : Schema) (filters : List String) : Except Report Expr := do
  return .all (← filters.mapM (parseComparison s))

def parsePartitioning (text : String) (strict : Bool) : Except Report Partitioning :=
  match Path.splitOnce? ':' text.toList with
  | none =>
    if text = "none" then .ok (.scheme .none_)
    else if text = "hive" then .ok (.discovery (.hive strict))
    else unknown
  | some (kind, names) =>
    if String.ofList kind = "directory" then
      let names := ((Path.split ',' names).map fun n => Text.trim (String.ofList n)).filter (· ≠ "")
      if names = [] then .error (.plain "directory partitioning needs at least one field name")
      else .ok (.discovery (.positional names))
    else unknown
where
  unknown : Except Report Partitioning :=
    .error (.plain ("unknown partitioning '" ++ text ++
      "', expected none, hive or directory:<fields>"))

end TableScan.CommandLine
