import TableScan.Arithmetic
import TableScan.IntType
import TableScan.Text.Blank
import TableScan.Text.Integer

open scoped TableScan.Arithmetic

namespace TableScan

structure Interval : Type where
  months : Int
  days : Int
  nanos : Int
  deriving DecidableEq

inductive IntervalFault : Type
  | malformed
  | repeated : String → IntervalFault
  | wide : Int → String → IntervalFault
  | overflow : Int → String → Int → IntervalFault
  | notMonths
  | notMilliseconds
  deriving DecidableEq

namespace Interval

def zero : Interval := ⟨0, 0, 0⟩

def compare (a b : Interval) : Ordering :=
  (Ord.compare a.months b.months).then
    ((Ord.compare a.days b.days).then (Ord.compare a.nanos b.nanos))

def sum (t : IntType) (a b : Int) : Except IntervalFault Int :=
  match Fixed.ofInt? t (a + b) with
  | some c => .ok c.val
  | none => .error (.overflow a "+" b)

def product (a b : Int) : Except IntervalFault Int :=
  match Fixed.ofInt? .int64 (a * b) with
  | some c => .ok c.val
  | none => .error (.overflow a "*" b)

def plus (a b : Interval) : Except IntervalFault Interval := do
  return ⟨← sum .int32 a.months b.months, ← sum .int32 a.days b.days, ← sum .int64 a.nanos b.nanos⟩

end Interval

structure Amount : Type where
  whole : Int
  fraction : Int
  deriving DecidableEq

namespace Amount

def places : Nat := 15

def word? (cs : List Char) : Option Int :=
  ((Text.integer? cs).bind (Fixed.ofInt? .int64)).map (·.val)

def ofChars? (cs : List Char) : Option Amount :=
  let whole := cs.takeWhile (· ≠ '.')
  match cs.drop whole.length with
  | [] => (word? cs).map (⟨·, 0⟩)
  | _ :: decimals => do
    if places < decimals.length then none
    let n ← if whole = [] ∨ whole = ['-'] then some 0 else word? whole
    let d ← Text.natural? decimals
    let fraction : Int := d * 10 ^ (places - decimals.length)
    some ⟨n, if whole.head? = some '-' then -fraction else fraction⟩

def part (a : Amount) (size : Int) : Int := (a.fraction * size).tdiv (10 ^ places)

def inParts (a : Amount) (size : Int) : Except IntervalFault Int := do
  Interval.sum .int64 (← Interval.product a.whole size) (a.part size)

def narrow (a : Amount) (what : String) (n : Int) : Except IntervalFault Int :=
  if (Fixed.ofInt? .int32 n).isSome then .ok n else .error (.wide a.whole what)

end Amount

inductive SpanUnit : Type
  | century | decade | year | month | week | day
  | hour | minute | second | millisecond | microsecond | nanosecond
  deriving DecidableEq

namespace SpanUnit

def all : List SpanUnit :=
  [century, decade, year, month, week, day, hour, minute, second, millisecond, microsecond,
    nanosecond]

def names : SpanUnit → List String
  | century => ["c", "cent", "cents", "century", "centuries"]
  | decade => ["dec", "decs", "decade", "decades"]
  | year => ["y", "yr", "yrs", "year", "years"]
  | month => ["mon", "mons", "month", "months"]
  | week => ["w", "week", "weeks"]
  | day => ["d", "day", "days"]
  | hour => ["h", "hr", "hrs", "hour", "hours"]
  | minute => ["m", "min", "mins", "minute", "minutes"]
  | second => ["s", "sec", "secs", "second", "seconds"]
  | millisecond => ["ms", "msec", "msecs", "msecond", "mseconds", "millisecond", "milliseconds"]
  | microsecond => ["us", "usec", "usecs", "usecond", "useconds", "microsecond", "microseconds"]
  | nanosecond => ["nanosecond", "nanoseconds"]

def ofChars? (cs : List Char) : Option SpanUnit :=
  let name := String.ofList (cs.map Char.toLower)
  all.find? fun u => u.names.contains name

def dayNanos : Int := 86400000000000

def amount (a : Amount) : SpanUnit → Except IntervalFault Interval
  | century => do
    let hundreds ← Interval.product a.whole 100
    let n ← Interval.sum .int64 (← Interval.product hundreds 12) (a.part 1200)
    return ⟨← a.narrow "centuries as months" n, 0, 0⟩
  | decade => do
    let tens ← Interval.product a.whole 10
    let n ← Interval.sum .int64 (← Interval.product tens 12) (a.part 120)
    return ⟨← a.narrow "decades as months" n, 0, 0⟩
  | year => do return ⟨← a.narrow "years as months" (← a.inParts 12), 0, 0⟩
  | month => do return ⟨← a.narrow "months" a.whole, a.part 30, 0⟩
  | week => do
    return ⟨0, ← a.narrow "weeks as days" (← Interval.product a.whole 7), a.part (7 * dayNanos)⟩
  | day => do return ⟨0, ← a.narrow "days" a.whole, a.part dayNanos⟩
  | hour => do return ⟨0, 0, ← a.inParts 3600000000000⟩
  | minute => do return ⟨0, 0, ← a.inParts 60000000000⟩
  | second => do return ⟨0, 0, ← a.inParts 1000000000⟩
  | millisecond => do return ⟨0, 0, ← a.inParts 1000000⟩
  | microsecond => do return ⟨0, 0, ← a.inParts 1000⟩
  | nanosecond => do return ⟨0, 0, ← a.inParts 1⟩

end SpanUnit

namespace Interval

def words : List Char → List (List Char)
  | [] => [[]]
  | c :: cs =>
    if Text.isBlank c then [] :: words cs
    else
      match words cs with
      | [] => [[c]]
      | word :: rest => (c :: word) :: rest

def isAmount (c : Char) : Bool := Text.isDigit c || c = '.' || c = '-'

def terms : List (List Char) → List (List Char × Option (List Char))
  | [] => []
  | word :: rest =>
    match word.dropWhile isAmount, rest with
    | [], unit :: rest => (word, some unit) :: terms rest
    | [], [] => [(word, none)]
    | unit, rest => (word.takeWhile isAmount, some unit) :: terms rest

def term? (bare : SpanUnit) : List Char × Option (List Char) → Option (Amount × SpanUnit × String)
  | (amount, none) => (Amount.ofChars? amount).map (·, bare, "")
  | (amount, some unit) => do
    some (← Amount.ofChars? amount, ← SpanUnit.ofChars? unit, String.ofList unit)

def repeated? : List SpanUnit → List (Amount × SpanUnit × String) → Option String
  | _, [] => none
  | met, (_, unit, name) :: rest =>
    if met.contains unit then some name else repeated? (unit :: met) rest

def ofText (bare : SpanUnit) (s : String) : Except IntervalFault Interval := do
  let some ts := (terms (words s.toList)).mapM (term? bare) | throw .malformed
  if let some name := repeated? [] ts then throw (.repeated name)
  ts.foldlM (fun total (amount, unit, _) => do total.plus (← unit.amount amount)) zero

def yearMonth (s : String) : Except IntervalFault Interval := do
  let i ← ofText .year s
  if i.days = 0 ∧ i.nanos = 0 then return i
  throw .notMonths

def dayTime (s : String) : Except IntervalFault Interval := do
  let i ← ofText .day s
  let days := (product32 i.months 30).bind fun n => (Fixed.ofInt? .int32 (n + i.days)).map (·.val)
  match days, Fixed.ofInt? .int32 (i.nanos.tdiv 1000000) with
  | some days, some millis =>
    if i.nanos.tmod 1000000 = 0 then return ⟨0, days, millis.val * 1000000⟩
    else throw .notMilliseconds
  | _, _ => throw .notMilliseconds
where
  product32 (a b : Int) : Option Int := (Fixed.ofInt? .int32 (a * b)).map (·.val)

end Interval

end TableScan
