import TableScan.Value
import TableScan.Calendar.Reader
import TableScan.Floating.Text

namespace TableScan

def dateText (days : Int) : String := ((Date.ofDays? days).map Date.text).getD "null"

/-- Texts stand without quotes, floating-point numbers without exponents, instants as their date. -/
def Scalar.text : Scalar → String
  | ⟨_, none⟩ => "null"
  | ⟨.boolean, some b⟩ => if b then "true" else "false"
  | ⟨.int _, some i⟩ => toString i.val
  | ⟨.float32, some x⟩ => Floating.text (f := .single) .plain x
  | ⟨.float64, some x⟩ => Floating.text (f := .double) .plain x
  | ⟨.utf8, some s⟩ | ⟨.largeUtf8, some s⟩ => s
  | ⟨.binary, some b⟩ => Text.hex b
  | ⟨.date32, some d⟩ => dateText (Fixed.val d)
  | ⟨.date64, some d⟩ => dateText (Int.fdiv (Fixed.val d) 86400000)

/-- A cell that has no text: the calendar or the clock does not reach it. -/
inductive TextFault : Type
  | temporal : Int → DataType → TextFault
  | datetime : Int → DataType → TextFault
  | zone : String → TextFault
  deriving DecidableEq

def decimalText (i : Int) (scale : Int) : String :=
  let digits := Nat.toDigits 10 i.natAbs
  let sign := if i < 0 then "-" else ""
  if scale ≤ 0 then
    sign ++ String.ofList digits ++ (if i = 0 then "" else Floating.zeros (-scale).toNat)
  else
    let places := scale.toNat
    let padded := List.replicate (places + 1 - digits.length) '0' ++ digits
    let whole := padded.length - places
    sign ++ String.ofList (padded.take whole) ++ "." ++ String.ofList (padded.drop whole)

def instantOf (unit : TimeUnit) (i : Int) : Instant :=
  Instant.ofNanos (i * (1000000000 / unit.perSecond : Nat))

def offsetText (seconds : Int) : String :=
  if seconds = 0 then "Z"
  else
    let minutes := seconds.natAbs / 60
    (if seconds < 0 then "-" else "+") ++ Text.padded 2 (minutes / 60) ++ ":" ++
      Text.padded 2 (minutes % 60)

def timestampText (unit : TimeUnit) (zone : Option String) (i : Int) : Except TextFault String := do
  let failed := TextFault.datetime i (.timestamp unit zone)
  match zone with
  | none => ((instantOf unit i).text?.map .ok).getD (.error failed)
  | some name =>
    let some offset := Calendar.offset? name.toList | throw (.zone name)
    let t := instantOf unit i
    let some there := Instant.text? { t with seconds := t.seconds + offset } | throw failed
    return there ++ offsetText offset

def clockCellText (type : DataType) (unit : TimeUnit) (i : Int) : Except TextFault String :=
  let t := instantOf unit i
  if 0 ≤ t.seconds ∧ t.seconds < 86400 then .ok (Instant.clockText t.seconds.toNat t.nanos)
  else .error (.temporal i type)

def durationText (unit : TimeUnit) (i : Int) : String :=
  if i = 0 then "P0D"
  else
    let t := Instant.ofNanos (i.natAbs * (1000000000 / unit.perSecond : Nat))
    let decimals := (Text.padded 9 t.nanos).toList.reverse.dropWhile (· = '0')
    (if i < 0 then "-PT" else "PT") ++ toString t.seconds ++
      (if decimals = [] then "" else "." ++ String.ofList decimals.reverse) ++ "S"

def intervalText (i : Interval) (unit : IntervalUnit) : String :=
  let part (n : Int) (name : String) : List String := if n = 0 then [] else [toString n ++ name]
  let seconds := i.nanos.tdiv 1000000000
  let rest := i.nanos.tmod 1000000000
  let decimals :=
    if unit = .dayTime then Text.padded 3 (rest.natAbs / 1000000) else Text.padded 9 rest.natAbs
  let clock := if seconds.tmod 60 = 0 ∧ rest = 0 then [] else
    [(if i.nanos < 0 then "-" else "") ++ toString (seconds.tmod 60).natAbs ++ "." ++ decimals ++
      " secs"]
  if unit = .yearMonth then s!"{i.months.tdiv 12} years {i.months.tmod 12} mons"
  else
    " ".intercalate (part i.months " mons" ++ part i.days " days" ++
      part (seconds.tdiv 3600) " hours" ++ part ((seconds.tdiv 60).tmod 60) " mins" ++ clock)

def DataType.cellText : (t : DataType) → t.Carrier → Except TextFault String
  | .scalar .null, x => nomatch x
  | .scalar .boolean, b => .ok (if b then "true" else "false")
  | .scalar (.int _), i => .ok (toString (Fixed.val i))
  | .scalar .float32, x => .ok (Floating.text (f := .single) (.cell .single) x)
  | .scalar .float64, x => .ok (Floating.text (f := .double) (.cell .double) x)
  | .scalar .utf8, s | .scalar .largeUtf8, s | .utf8View, s => .ok s
  | .scalar .binary, b | .largeBinary, b => .ok (Text.hex b)
  | .scalar .date32, d =>
    ((Date.ofDays? (Fixed.val d)).map fun d => .ok d.text).getD
      (.error (.temporal (Fixed.val d) .date32))
  | .scalar .date64, d =>
    ((instantOf .millisecond (Fixed.val d)).text?.map .ok).getD
      (.error (.temporal (Fixed.val d) .date64))
  | .dictionary _ value, x => value.cellText x
  | .float16, x =>
    .ok (Floating.text .plain (Floating.convert (f := .half) (g := .single) x))
  | .decimal _ scale, i => .ok (decimalText i scale)
  | .timestamp unit zone, i => timestampText unit zone (Fixed.val i)
  | .time32 unit, i => clockCellText (.time32 unit) unit (Fixed.val i)
  | .time64 unit, i => clockCellText (.time64 unit) unit (Fixed.val i)
  | .duration unit, i => .ok (durationText unit (Fixed.val i))
  | .interval unit, i => .ok (intervalText i unit)

end TableScan
