import TableScan.IntType
import TableScan.Floating.Format
import TableScan.Text.Integer

/-!
Types of columns. Seventeen of them have single values that stand alone in expressions; the others
occur in files and as the result of casts. Types of lists and records are left out: nothing takes
their values apart.
-/

namespace TableScan

inductive TimeUnit : Type
  | second | millisecond | microsecond | nanosecond
  deriving DecidableEq

namespace TimeUnit

def perSecond : TimeUnit → Nat
  | second => 1
  | millisecond => 1000
  | microsecond => 1000000
  | nanosecond => 1000000000

def text : TimeUnit → String
  | second => "Second"
  | millisecond => "Millisecond"
  | microsecond => "Microsecond"
  | nanosecond => "Nanosecond"

def all : List TimeUnit := [second, millisecond, microsecond, nanosecond]

end TimeUnit

inductive IntervalUnit : Type
  | yearMonth | dayTime | monthDayNano
  deriving DecidableEq

namespace IntervalUnit

def text : IntervalUnit → String
  | yearMonth => "YearMonth"
  | dayTime => "DayTime"
  | monthDayNano => "MonthDayNano"

def all : List IntervalUnit := [yearMonth, dayTime, monthDayNano]

end IntervalUnit

/-- The types of values that stand alone. -/
inductive ScalarType : Type
  | null
  | boolean
  | int : IntType → ScalarType
  | float32
  | float64
  | utf8
  | largeUtf8
  | binary
  | date32
  | date64
  deriving DecidableEq

namespace ScalarType

def text : ScalarType → String
  | null => "Null"
  | boolean => "Boolean"
  | int t => t.text
  | float32 => "Float32"
  | float64 => "Float64"
  | utf8 => "Utf8"
  | largeUtf8 => "LargeUtf8"
  | binary => "Binary"
  | date32 => "Date32"
  | date64 => "Date64"

def all : List ScalarType :=
  [null, boolean, float32, float64, utf8, largeUtf8, binary, date32, date64] ++ IntType.all.map int

theorem mem_all (t : ScalarType) : t ∈ all := by
  cases t with
  | int t => cases t <;> decide
  | _ => decide

end ScalarType

inductive DataType : Type
  | scalar : ScalarType → DataType
  | dictionary : IntType → DataType → DataType
  | float16
  | decimal : Nat → Int → DataType
  | timestamp : TimeUnit → Option String → DataType
  | time32 : TimeUnit → DataType
  | time64 : TimeUnit → DataType
  | duration : TimeUnit → DataType
  | interval : IntervalUnit → DataType
  | largeBinary
  | utf8View
  deriving DecidableEq

namespace DataType

abbrev null : DataType := scalar .null
abbrev boolean : DataType := scalar .boolean
abbrev int (t : IntType) : DataType := scalar (.int t)
abbrev float32 : DataType := scalar .float32
abbrev float64 : DataType := scalar .float64
abbrev utf8 : DataType := scalar .utf8
abbrev largeUtf8 : DataType := scalar .largeUtf8
abbrev binary : DataType := scalar .binary
abbrev date32 : DataType := scalar .date32
abbrev date64 : DataType := scalar .date64

def plain : DataType → DataType
  | dictionary _ value => value.plain
  | t => t

def isInteger : DataType → Bool
  | scalar (.int _) => true
  | _ => false

def isUnsigned : DataType → Bool
  | scalar (.int t) => !t.signed
  | _ => false

def isFloating : DataType → Bool
  | scalar .float32 | scalar .float64 | float16 => true
  | _ => false

def isNumeric : DataType → Bool
  | scalar (.int _) | scalar .float32 | scalar .float64 | float16 | decimal _ _ => true
  | _ => false

def isTemporal : DataType → Bool
  | scalar .date32 | scalar .date64 | timestamp _ _ | time32 _ | time64 _ | duration _
  | interval _ => true
  | _ => false

def isPrimitive (t : DataType) : Bool := t.isNumeric || t.isTemporal

def isText : DataType → Bool
  | scalar .utf8 | scalar .largeUtf8 | utf8View => true
  | _ => false

def text : DataType → String
  | scalar t => t.text
  | dictionary key value => "Dictionary(" ++ key.text ++ ", " ++ value.text ++ ")"
  | float16 => "Float16"
  | decimal precision scale => s!"Decimal128({precision}, {scale})"
  | timestamp unit none => "Timestamp(" ++ unit.text ++ ", None)"
  | timestamp unit (some zone) => "Timestamp(" ++ unit.text ++ ", Some(\"" ++ zone ++ "\"))"
  | time32 unit => "Time32(" ++ unit.text ++ ")"
  | time64 unit => "Time64(" ++ unit.text ++ ")"
  | duration unit => "Duration(" ++ unit.text ++ ")"
  | interval unit => "Interval(" ++ unit.text ++ ")"
  | largeBinary => "LargeBinary"
  | utf8View => "Utf8View"

def arguments? (name : String) (cs : List Char) : Option (List Char) :=
  let opening := name.toList ++ ['(']
  if opening.isPrefixOf cs ∧ cs.getLast? = some ')' then
    some ((cs.drop opening.length).dropLast)
  else none

def atComma? (cs : List Char) : Option (String × List Char) :=
  match cs.dropWhile (· ≠ ',') with
  | ',' :: ' ' :: rest => some (String.ofList (cs.takeWhile (· ≠ ',')), rest)
  | _ => none

def unit? (cs : List Char) : Option TimeUnit :=
  TimeUnit.all.find? fun u => u.text = String.ofList cs

def zone? (cs : List Char) : Option (Option String) :=
  if cs = "None".toList then some none
  else (arguments? "Some" cs).bind fun quoted =>
    if 2 ≤ quoted.length ∧ quoted.head? = some '"' ∧ quoted.getLast? = some '"' then
      some (some (String.ofList (quoted.drop 1).dropLast))
    else none

def flat? (cs : List Char) : Option DataType :=
  let name := String.ofList cs
  ((ScalarType.all.find? fun t => t.text = name).map scalar)
    <|> ([float16, largeBinary, utf8View].find? fun t => t.text = name)
    <|> ((arguments? "Decimal128" cs).bind atComma?).bind (fun (p, s) => do
      let precision ← Text.natural? p.toList
      let scale ← Text.integer? s
      some (decimal precision scale))
    <|> ((arguments? "Timestamp" cs).bind atComma?).bind (fun (u, z) => do
      let unit ← unit? u.toList
      let zone ← zone? z
      some (timestamp unit zone))
    <|> ((arguments? "Time32" cs).bind unit?).map time32
    <|> ((arguments? "Time64" cs).bind unit?).map time64
    <|> ((arguments? "Duration" cs).bind unit?).map duration
    <|> ((arguments? "Interval" cs).bind fun u =>
      IntervalUnit.all.find? fun v => v.text = String.ofList u).map interval

def ofChars? : Nat → List Char → Option DataType
  | 0, _ => none
  | fuel + 1, cs =>
    match (arguments? "Dictionary" cs).bind atComma? with
    | some (key, value) => do
      let key ← IntType.all.find? fun t => t.text = key
      let value ← ofChars? fuel value
      some (dictionary key value)
    | none => flat? cs

def ofText? (s : String) : Option DataType := ofChars? (s.toList.length + 1) s.toList

end DataType

/-- The type on which values of two types are compared, if there is one. -/
def comparisonType (left right : DataType) : Option DataType :=
  let l := left.plain
  let r := right.plain
  if l = r then some l
  else if l = .null then some r
  else if r = .null then some l
  else if l.isNumeric && r.isNumeric then
    if l.isFloating || r.isFloating then some .float64
    else if l.isUnsigned && r.isUnsigned then some (.int .uint64)
    else if l = .int .uint64 || r = .int .uint64 then some (.decimal 38 0)
    else some (.int .int64)
  else
    match l, r with
    | .scalar .utf8, .scalar .largeUtf8 | .scalar .largeUtf8, .scalar .utf8 => some .largeUtf8
    | .scalar .date32, .scalar .date64 | .scalar .date64, .scalar .date32 => some .date64
    | _, _ => none

end TableScan
