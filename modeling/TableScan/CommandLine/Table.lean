import TableScan.Batch
import TableScan.Calendar.Reader
import TableScan.Path
import TableScan.Text.Width

namespace TableScan

def DataType.shown (t : DataType) : Option t.Carrier → String
  | none => ""
  | some x =>
    match t.cellText x with
    | .ok s => s
    | .error e => "ERROR: " ++ e.message

/-- The zone of the timestamps of a type, if it is not an offset. Other zones are not known. -/
def DataType.unknownZone? : DataType → Option String
  | .timestamp _ (some zone) => if (Calendar.offset? zone.toList).isSome then none else some zone
  | .dictionary _ value => value.unknownZone?
  | _ => none

def Batch.unknownZone? (b : Batch) : Option String :=
  b.columns.findSome? (·.column.type.unknownZone?)

namespace CommandLine.Table

abbrev Row : Type := List (List String)

def lines (s : String) : List String := (Path.split '\n' s.toList).map String.ofList

def header (s : Schema) : Row := s.map fun f => lines f.name

def row (b : Batch) (i : Nat) : Row :=
  b.columns.map fun s => lines (s.column.type.shown (s.column.cells[i]?.getD none))

-- how a column is shown is settled before any of its cells is
def rows (b : Batch) : Except TextFault (List Row) :=
  match b.unknownZone? with
  | some zone => .error (.zone zone)
  | none => .ok ((List.range b.rows).map (row b))

def cellWidth (cell : List String) : Nat := (cell.map Text.width).foldl max 1

def widths (all : List Row) (columns : Nat) : List Nat :=
  (List.range columns).map fun i => (all.map fun r => cellWidth (r[i]?.getD [])).foldl max 1

def border (widths : List Nat) : String :=
  "+" ++ "+".intercalate (widths.map fun w => String.ofList (List.replicate (w + 2) '-')) ++ "+"

def padded (width : Nat) (line : String) : String :=
  line ++ String.ofList (List.replicate (width - Text.width line) ' ')

def line (widths : List Nat) (r : Row) (i : Nat) : String :=
  "|" ++ "|".intercalate (List.zipWith (fun w cell => " " ++ padded w (cell[i]?.getD "") ++ " ")
    widths r) ++ "|"

def height (r : Row) : Nat := (r.map List.length).foldl max 0

def rowLines (widths : List Nat) (r : Row) : List String :=
  (List.range (height r)).map (line widths r)

def render : List Batch → Except TextFault (List String)
  | [] => .ok [border [], border []]
  | b :: rest => do
    let head := header b.schema
    let body := (← (b :: rest).mapM rows).flatten
    let ws := widths (head :: body) head.length
    return [border ws] ++ rowLines ws head ++ [border ws] ++ body.flatMap (rowLines ws) ++
      [border ws]

end CommandLine.Table

end TableScan
