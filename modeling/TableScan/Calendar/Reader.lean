import TableScan.Arithmetic
import TableScan.Calendar

open scoped TableScan.Arithmetic

namespace TableScan

open Text

inductive TimestampFault : Type
  | short | date | separator | time | offset
  | zone (text : String)
  deriving DecidableEq

namespace Calendar

def digitAt (bytes : List UInt8) (i : Nat) : Option Nat :=
  bytes[i]?.bind fun b => if 48 ≤ b ∧ b ≤ 57 then some (b.toNat - 48) else none

def isAt (bytes : List UInt8) (i : Nat) (c : Char) : Bool := bytes[i]? == some c.toNat.toUInt8

def digitsFrom (bytes : List UInt8) (start count : Nat) : List (Option Nat) :=
  (List.range count).map fun i => digitAt bytes (start + i)

/--
Dates of at most ten bytes: `YYYYMMDD`, or `YYYY-MM-DD` where month and day may have one digit. What
stands behind a day of one digit is not looked at.
-/
def shortDate? (bytes : List UInt8) : Option Date :=
  if isAt bytes 4 '-' then
    match digitsFrom bytes 0 10 with
    | [some a, some b, some c, some d, none, some m, some n, none, some x, some y] =>
      if isAt bytes 7 '-' then year a b c d (10 * m + n) (10 * x + y) else none
    | [some a, some b, some c, some d, none, some m, some n, none, some x, none] =>
      if isAt bytes 7 '-' then year a b c d (10 * m + n) x else none
    | [some a, some b, some c, some d, none, some m, none, some x, some y, none] =>
      if isAt bytes 6 '-' then year a b c d m (10 * x + y) else none
    | [some a, some b, some c, some d, none, some m, none, some x, none, none] =>
      if isAt bytes 6 '-' then year a b c d m x else none
    | _ => none
  else
    match digitsFrom bytes 0 8 with
    | [some a, some b, some c, some d, some m, some n, some x, some y] =>
      if bytes.length = 8 then year a b c d (10 * m + n) (10 * x + y) else none
    | _ => none
where
  year (a b c d month day : Nat) : Option Date :=
    Date.ofParts? (1000 * a + 100 * b + 10 * c + d : Nat) month day

def signedDate? (negative : Bool) (rest : List Char) : Option Date := do
  let digits := rest.takeWhile (· ≠ '-')
  if digits.length < 4 ∨ digits.length = rest.length then none
  let year ← natural? digits
  if (if negative then 2 ^ (31 : Nat) else 2 ^ (31 : Nat) - 1) < year then none
  let monthAndDay := rest.drop (digits.length + 1)
  let month := monthAndDay.takeWhile (· ≠ '-')
  if month.length = monthAndDay.length then none
  let day := monthAndDay.drop (month.length + 1)
  Date.ofParts? (if negative then -(year : Int) else year) (← unsigned? month) (← unsigned? day)

def longDate? (bytes : List UInt8) : Option Date :=
  match digitsFrom bytes 0 10 with
  | [some a, some b, some c, some d, none, some m, some n, none, some x, some y] =>
    if isAt bytes 4 '-' ∧ isAt bytes 7 '-' then
      Date.ofParts? (1000 * a + 100 * b + 10 * c + d : Nat) (10 * m + n) (10 * x + y)
    else none
  | _ => none

def timeOfDay? (hour minute second nanos : Nat) : Option (Nat × Nat) :=
  if hour < 24 ∧ minute < 60 ∧ second ≤ 60 then
    if second = 60 then some (hour * 3600 + minute * 60 + 59, nanos + 1000000000)
    else some (hour * 3600 + minute * 60 + second, nanos)
  else none

def nanoseconds (digits : List Nat) : Nat :=
  let nine := digits.take 9
  nine.foldl (fun n d => 10 * n + d) 0 * 10 ^ (9 - nine.length)

def fractionFrom (bytes : List UInt8) : List Nat :=
  (bytes.takeWhile fun b => 48 ≤ b && b ≤ 57).map fun b => b.toNat - 48

def timestampTime? (bytes : List UInt8) : Option ((Nat × Nat) × Nat) :=
  match digitsFrom bytes 11 8 with
  | [some a, some b, none, some c, some d, none, some e, some f] =>
    if isAt bytes 13 ':' ∧ isAt bytes 16 ':' then
      if isAt bytes 19 '.' then
        match fractionFrom (bytes.drop 20) with
        | [] => none
        | digits => (timeOfDay? (10 * a + b) (10 * c + d) (10 * e + f) (nanoseconds digits)).map
            (·, 20 + digits.length)
      else (timeOfDay? (10 * a + b) (10 * c + d) (10 * e + f) 0).map (·, 19)
    else none
  | [some a, some b, some c, some d, some e, some f, none, none] =>
    (timeOfDay? (10 * a + b) (10 * c + d) (10 * e + f) 0).map (·, 17)
  | _ => none

def offset? (text : List Char) : Option Int := do
  let digits ← match text with
    | [_, a, b, ':', c, d] | [_, a, b, c, d] => some [a, b, c, d]
    | [_, a, b] => some [a, b, '0', '0']
    | _ => none
  if !digits.all isDigit then none
  let hhmm := digitsValue digits
  let seconds : Int := (hhmm / 100 * 3600 + hhmm % 100 * 60 : Nat)
  if 86400 ≤ seconds then none
  match text.head? with
  | some '+' => some seconds
  | some '-' => some (-seconds)
  | _ => none

/-- A timestamp; without an offset of its own it is read in the zone given, in seconds east. -/
def timestamp (zone : Int) (s : String) : Except TimestampFault Instant := do
  let bytes := utf8 s
  if bytes.length < 10 then throw .short
  let some date := longDate? bytes | throw .date
  let midnight := date.toDays * 86400
  if bytes.length = 10 then return ⟨midnight - zone, 0⟩
  if !(isAt bytes 10 'T' || isAt bytes 10 't' || isAt bytes 10 ' ') then throw .separator
  let some ((seconds, nanos), stop) := timestampTime? bytes | throw .time
  let there := midnight + seconds
  match bytes.drop stop with
  | [] => return ⟨there - zone, nanos⟩
  | rest =>
    if rest = [90] ∨ rest = [122] then return ⟨there, nanos⟩
    let text := dropBlanks ((decode rest).toOption.getD "").toList
    let some offset := offset? text | throw (.zone (String.ofList text))
    return ⟨there - offset, nanos⟩

def date? (s : String) : Option Date :=
  match s.toList with
  | '+' :: rest => signedDate? false rest
  | '-' :: rest => signedDate? true rest
  | _ =>
    let bytes := utf8 s
    if bytes.length ≤ 10 then shortDate? bytes
    else (timestamp 0 s).toOption.bind (·.date?)

def milliseconds? (s : String) : Option Int :=
  if (utf8 s).length ≤ 10 then (date? s).map fun d => d.toDays * 86400000
  else (timestamp 0 s).toOption.map fun t => t.seconds * 1000 + (t.nanos / 1000000 : Nat)

def clock? (s : String) : Option Nat := do
  let cs := s.toList
  if (utf8 s).length ≠ cs.length ∨ cs.length < 4 then none
  let half := match cs.drop (cs.length - 3) with
    | [' ', 'A', 'M'] | [' ', 'a', 'm'] | [' ', 'A', 'm'] | [' ', 'a', 'M'] => some false
    | [' ', 'P', 'M'] | [' ', 'p', 'm'] | [' ', 'P', 'm'] | [' ', 'p', 'M'] => some true
    | _ => none
  let cs := if half.isSome then cs.take (cs.length - 3) else cs
  if cs.length < 4 then none
  let (hour, rest) ← match cs with
    | a :: ':' :: rest => some (['0', a], rest)
    | a :: b :: ':' :: rest => some ([a, b], rest)
    | _ => none
  let (minute, rest) ← match rest with
    | c :: d :: rest => some ([c, d], rest)
    | _ => none
  let (second, nanos) ← match rest with
    | [] => some (['0', '0'], 0)
    | [':', e, f] => some ([e, f], 0)
    | ':' :: e :: f :: '.' :: decimals =>
      (natural? decimals).map fun _ => ([e, f], nanoseconds (decimals.map fun c => c.toNat - 48))
    | _ => none
  let hour ← natural? hour
  let minute ← natural? minute
  let second ← natural? second
  let hour ← match half with
    | none => some hour
    | some pm =>
      if hour = 12 then some (if pm then 12 else 0)
      else if 1 ≤ hour ∧ hour ≤ 11 then some (if pm then hour + 12 else hour)
      else none
  let (seconds, nanos) ← timeOfDay? hour minute second nanos
  some (seconds * 1000000000 + nanos)

end Calendar

def TimestampFault.message (text : String) : TimestampFault → String
  | .zone name =>
    "Invalid timezone \"" ++ name ++
      "\": only offset based timezones supported without chrono-tz feature"
  | fault =>
    "Error parsing timestamp from '" ++ text ++ "': " ++ match fault with
      | .short => "timestamp must contain at least 10 characters"
      | .date => "error parsing date"
      | .separator => "invalid timestamp separator"
      | .time => "error parsing time"
      | .offset | .zone _ => "error computing timezone offset"

end TableScan
