import TableScan.Text.Bytes
import TableScan.Text.Blank
import TableScan.Text.Integer

namespace TableScan

structure Date : Type where
  year : Int
  month : Nat
  day : Nat
  deriving DecidableEq

namespace Date

def isLeap (year : Int) : Bool := year % 4 == 0 && (year % 100 != 0 || year % 400 == 0)

def daysInMonth (year : Int) (month : Nat) : Nat :=
  if month = 2 then if isLeap year then 29 else 28
  else if month = 4 ∨ month = 6 ∨ month = 9 ∨ month = 11 then 30
  else 31

def inRange (year : Int) : Bool := -262143 ≤ year && year ≤ 262142

def ofParts? (year : Int) (month day : Nat) : Option Date :=
  if inRange year ∧ 1 ≤ month ∧ month ≤ 12 ∧ 1 ≤ day ∧ day ≤ daysInMonth year month then
    some ⟨year, month, day⟩
  else none

/-- Days since 1970-01-01, counting years from March so that the leap day comes last. -/
def toDays (d : Date) : Int :=
  let y := if d.month ≤ 2 then d.year - 1 else d.year
  let era := Int.fdiv y 400
  let yearOfEra := y - era * 400
  let monthFromMarch : Int := (d.month + 9) % 12
  let dayOfYear := (153 * monthFromMarch + 2) / 5 + d.day - 1
  let dayOfEra := yearOfEra * 365 + yearOfEra / 4 - yearOfEra / 100 + dayOfYear
  era * 146097 + dayOfEra - 719468

def ofDays (days : Int) : Date :=
  let z := days + 719468
  let era := Int.fdiv z 146097
  let dayOfEra := z - era * 146097
  let yearOfEra := (dayOfEra - dayOfEra / 1460 + dayOfEra / 36524 - dayOfEra / 146096) / 365
  let dayOfYear := dayOfEra - (365 * yearOfEra + yearOfEra / 4 - yearOfEra / 100)
  let monthFromMarch := (5 * dayOfYear + 2) / 153
  let day := dayOfYear - (153 * monthFromMarch + 2) / 5 + 1
  let month := if monthFromMarch < 10 then monthFromMarch + 3 else monthFromMarch - 9
  ⟨yearOfEra + era * 400 + (if month ≤ 2 then 1 else 0), month.toNat, day.toNat⟩

def ofDays? (days : Int) : Option Date :=
  let d := ofDays days
  if inRange d.year then some d else none

def text (d : Date) : String :=
  let year :=
    if 0 ≤ d.year ∧ d.year ≤ 9999 then Text.padded 4 d.year.toNat
    else (if d.year < 0 then "-" else "+") ++ Text.padded 4 d.year.natAbs
  year ++ "-" ++ Text.padded 2 d.month ++ "-" ++ Text.padded 2 d.day

end Date

/-- Seconds since 1970-01-01T00:00:00; the nanoseconds of a leap second are a thousand million or
more. -/
structure Instant : Type where
  seconds : Int
  nanos : Nat
  deriving DecidableEq

namespace Instant

def date? (t : Instant) : Option Date := Date.ofDays? (Int.fdiv t.seconds 86400)

def secondOfDay (t : Instant) : Nat := (Int.fmod t.seconds 86400).toNat

def ofNanos (n : Int) : Instant := ⟨Int.fdiv n 1000000000, (Int.fmod n 1000000000).toNat⟩

def toNanos (t : Instant) : Int := t.seconds * 1000000000 + t.nanos

def clockText (second nanos : Nat) : String :=
  let clock := Text.padded 2 (second / 3600) ++ ":" ++ Text.padded 2 (second / 60 % 60) ++ ":" ++
    Text.padded 2 (second % 60)
  if nanos = 0 then clock
  else if nanos % 1000000 = 0 then clock ++ "." ++ Text.padded 3 (nanos / 1000000)
  else if nanos % 1000 = 0 then clock ++ "." ++ Text.padded 6 (nanos / 1000)
  else clock ++ "." ++ Text.padded 9 nanos

def text? (t : Instant) : Option String :=
  t.date?.map fun d => d.text ++ "T" ++ clockText t.secondOfDay t.nanos

end Instant

end TableScan
