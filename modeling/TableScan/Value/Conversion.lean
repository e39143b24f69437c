import TableScan.Arithmetic
import TableScan.Value.Text
import TableScan.Floating.Reader
import TableScan.Text.Quoted

/-!
Conversions of cells between types. Whether there is one is known by the two types alone. It fails
for whole columns where something that all cells need is missing, such as the offset of a zone; and
what it makes of a cell may still be a fault. A lossy cell becomes null where casts are lenient and
fails where they are strict; a broken one fails either way.
-/

open scoped TableScan.Arithmetic

namespace TableScan

inductive CastFault : Type
  | unsupported : DataType → DataType → CastFault
  | outOfRange : String → DataType → CastFault
  | decimalOutOfRange : Int → DataType → CastFault
  | unreadable : String → DataType → CastFault
  | notBoolean : String → CastFault
  | timestamp : String → TimestampFault → CastFault
  | timestampOverflow : Instant → CastFault
  | noDate : TimeUnit → Int → CastFault
  | noTime : TimeUnit → Int → CastFault
  | noLocalTime
  | interval : String → IntervalFault → CastFault
  | notDuration
  | durationOverflow : Int → CastFault
  | unpackable : DataType → CastFault
  | encoding : Text.Malformed → CastFault
  | text : TextFault → CastFault
  | decimalOverflow : Nat → Int → String → CastFault
  | precision : Int → Nat → CastFault
  | arithmetic : Int → String → Int → CastFault
  deriving DecidableEq

def overflowText (a : Int) (op : String) (b : Int) : String :=
  "Overflow happened on: " ++ toString a ++ " " ++ op ++ " " ++ toString b

inductive FaultKind : Type
  | cast | argument | parser | arithmetic | compute
  deriving DecidableEq

namespace FaultKind

def heading : FaultKind → String
  | cast => "Cast error: "
  | argument => "Invalid argument error: "
  | parser => "Parser error: "
  | arithmetic => "Arithmetic overflow: "
  | compute => "Compute error: "

end FaultKind

namespace TextFault

def kind : TextFault → FaultKind
  | zone _ => .parser
  | _ => .cast

def detail : TextFault → String
  | temporal i t => s!"Failed to convert {i} to temporal for {t.text}"
  | datetime i t => s!"Failed to convert {i} to datetime for {t.text}"
  | zone name => TimestampFault.message "" (.zone name)

def message (f : TextFault) : String := f.kind.heading ++ f.detail

end TextFault

namespace IntervalFault

def kind : IntervalFault → FaultKind
  | notMonths | notMilliseconds => .cast
  | overflow _ _ _ => .arithmetic
  | _ => .parser

def detail (text : String) : IntervalFault → String
  | malformed => invalid
  | repeated unit => invalid ++ ". Repeated type '" ++ unit ++ "'"
  | wide n what =>
    "Unable to represent " ++ toString n ++ " " ++ what ++ " in a signed 32-bit integer"
  | overflow a op b => overflowText a op b
  | notMonths =>
    "Cannot cast " ++ text ++ " to IntervalYearMonth. Only year and month fields are allowed."
  | notMilliseconds =>
    "Cannot cast " ++ text ++
      " to IntervalDayTime because the nanos part isn't multiple of milliseconds"
where
  invalid : String := "Invalid input syntax for type interval: " ++ Text.quoted text

end IntervalFault

namespace CastFault

def kind : CastFault → FaultKind
  | timestamp _ _ => .parser
  | text f => f.kind
  | encoding _ | precision _ _ => .argument
  | arithmetic _ _ _ => .arithmetic
  | interval _ f => f.kind
  | notDuration | durationOverflow _ => .compute
  | _ => .cast

def stamps (unit : TimeUnit) : String := "arrow_array::types::Timestamp" ++ unit.text ++ "Type"

def detail : CastFault → String
  | unsupported a b => "Casting from " ++ a.text ++ " to " ++ b.text ++ " not supported"
  | outOfRange v t => "Can't cast value " ++ v ++ " to type " ++ t.text
  | decimalOutOfRange v t => s!"value of {v} is out of range {t.text}"
  | unreadable s t => "Cannot cast string '" ++ s ++ "' to value of " ++ t.text ++ " type"
  | notBoolean s => "Cannot cast value '" ++ s ++ "' to value of Boolean type"
  | timestamp s f => f.message s
  | timestampOverflow t =>
    "Overflow converting " ++ (t.text?.getD "").map (fun c => if c = 'T' then ' ' else c) ++
      " to Nanosecond"
  | encoding m => "Encountered non UTF-8 data: " ++ m.message
  | text f => f.detail
  | decimalOverflow p s v => s!"Cannot cast to Decimal128({p}, {s}). Overflowing on {v}"
  | precision v p =>
    if 0 ≤ v then
      s!"{v} is too large to store in a Decimal128 of precision {p}. Max is {(10 ^ p - 1 : Int)}"
    else s!"{v} is too small to store in a Decimal128 of precision {p}. Min is {(1 - 10 ^ p : Int)}"
  | arithmetic a op b => overflowText a op b
  | noDate unit i => "Cannot convert " ++ stamps unit ++ " " ++ toString i ++ " to datetime"
  | noTime unit i => "Failed to create naive time with " ++ stamps unit ++ " " ++ toString i
  | noLocalTime => "Cannot cast timezone to different timezone"
  | interval s f => f.detail s
  | notDuration => "Cannot convert interval containing non-zero months or days to duration"
  | durationOverflow i => "Cannot cast to Interval(MonthDayNano). Overflowing on " ++ toString i
  | unpackable t => "Unsupported output type for dictionary packing: " ++ t.text

def message (f : CastFault) : String := f.kind.heading ++ f.detail

end CastFault

/-- What a conversion makes of a cell. -/
inductive Outcome (α : Type) : Type
  | ok : α → Outcome α
  | lossy : CastFault → Outcome α
  | broken : CastFault → Outcome α

namespace Outcome

variable {α β : Type}

def map (f : α → β) : Outcome α → Outcome β
  | ok a => ok (f a)
  | lossy e => lossy e
  | broken e => broken e

def bind : Outcome α → (α → Outcome β) → Outcome β
  | ok a, f => f a
  | lossy e, _ => lossy e
  | broken e, _ => broken e

def ofOption (fault : CastFault) : Option α → Outcome α
  | some a => ok a
  | none => lossy fault

def strict : Outcome α → Except CastFault α
  | ok a => .ok a
  | lossy e | broken e => .error e

def lenient : Outcome α → Except CastFault (Option α)
  | ok a => .ok (some a)
  | lossy _ => .ok none
  | broken e => .error e

theorem ofOption_eq_ok {fault : CastFault} {o : Option α} {a : α} :
    ofOption fault o = .ok a ↔ o = some a := by
  cases o with
  | none => exact ⟨nofun, nofun⟩
  | some b => rw [ofOption, ok.injEq, Option.some.injEq]

end Outcome

/-- How cells become other cells, one by one, unless what they all need is missing. -/
abbrev Rule (α β : Type) : Type := Except CastFault (α → Outcome β)

namespace Rule

variable {α β γ : Type}

def andThen : Rule α β → Rule β γ → Rule α γ
  | .ok f, .ok g => .ok fun a => (f a).bind g
  | .error e, _ | _, .error e => .error e

end Rule

inductive Number : Type
  | int : Int → Number
  | floating : (f : FloatFormat) → Floating f → Number

namespace Number

def text : Number → String
  | int i => toString i
  | floating _ x => x.text .message

def toFixed (t : IntType) (n : Number) : Outcome (Fixed t) :=
  let whole? := match n with
    | int i => some i
    | floating _ x => x.truncate?
  .ofOption (.outOfRange n.text (.int t)) (whole?.bind (Fixed.ofInt? t))

def toFloating (g : FloatFormat) : Number → Floating g
  | int i => .ofInt i
  | floating _ x => x.convert

def isZero : Number → Bool
  | int i => i == 0
  | floating _ x => x.isZero

end Number

namespace DataType

def number? : (t : DataType) → Option (t.Carrier → Number)
  | .scalar (.int _) => some fun i => .int i.val
  | .scalar .float32 => some fun x => .floating .single x
  | .scalar .float64 => some fun x => .floating .double x
  | .float16 => some fun x => .floating .half x
  | _ => none

def ticks? : (t : DataType) → Option (t.Carrier → Fixed .int64)
  | .timestamp _ _ => some fun i => i
  | .duration _ => some fun i => i
  | _ => none

def string? : (t : DataType) → Option (t.Carrier → String)
  | .scalar .utf8 => some fun s => s
  | .scalar .largeUtf8 => some fun s => s
  | .utf8View => some fun s => s
  | _ => none

def bytes? : (t : DataType) → Option (t.Carrier → List UInt8)
  | .scalar .binary => some fun b => b
  | .largeBinary => some fun b => b
  | _ => none

end DataType

namespace Decimals

def fit (precision : Nat) (i : Int) : Outcome Int :=
  if i.natAbs < 10 ^ precision then .ok i else .lossy (.precision i precision)

def inWord (i : Int) : Bool := -(2 ^ (127 : Nat)) ≤ i && i < 2 ^ (127 : Nat)

def ofInt (precision : Nat) (scale i : Int) : Outcome Int :=
  if 0 ≤ scale then
    let factor : Int := 10 ^ scale.toNat
    if inWord (i * factor) then fit precision (i * factor)
    else .lossy (.arithmetic i "*" factor)
  else fit precision (i.tdiv (10 ^ (-scale).toNat))

def ofFloating {f : FloatFormat} (precision : Nat) (scale : Int) (x : Floating f) : Outcome Int :=
  let overflow : Outcome Int := .lossy (.decimalOverflow precision scale (x.text .message))
  if x.isFinite then
    let (n, d) := x.fraction
    let scaled : Floating .double :=
      if 0 ≤ scale then .round x.negative (n * 10 ^ scale.toNat) d
      else .round x.negative n (d * 10 ^ (-scale).toNat)
    if scaled.isFinite then
      let (n, d) := scaled.fraction
      let nearest := (2 * n + d) / (2 * d)
      let signed : Int := if scaled.negative then -(nearest : Int) else nearest
      if inWord signed then fit precision signed else overflow
    else overflow
  else overflow

def parse? (scale : Nat) (s : String) : Option Int := do
  let cs := (Text.trim s).toList
  let (negative, cs) := match cs with
    | '-' :: rest => (true, rest)
    | '+' :: rest => (false, rest)
    | cs => (false, cs)
  let whole := cs.takeWhile (· ≠ '.')
  let decimals := (cs.drop whole.length).drop 1
  if !(whole.all Text.isDigit && decimals.all Text.isDigit) then none
  let magnitude :=
    if scale < decimals.length then
      let unit := 10 ^ (decimals.length - scale)
      let n := Text.digitsValue decimals
      Text.digitsValue whole * 10 ^ scale + n / unit + (if unit / 2 ≤ n % unit then 1 else 0)
    else Text.digitsValue (whole ++ decimals) * 10 ^ (scale - decimals.length)
  if whole ++ decimals = [] ∧ scale = 0 then none
  let signed : Int := if negative then -(magnitude : Int) else magnitude
  if inWord signed then some signed else none

def ofText (precision : Nat) (scale : Int) (s : String) : Outcome Int :=
  (Outcome.ofOption (.unreadable s (.decimal 38 10)) (parse? scale.toNat s)).bind (fit precision)

def rescale (precision : Nat) (scale from_ i : Int) : Outcome Int :=
  if from_ ≤ scale then
    let factor : Int := 10 ^ (scale - from_).toNat
    if inWord (i * factor) then fit precision (i * factor)
    else .lossy (.decimalOverflow precision scale (toString i))
  else
    let unit := 10 ^ (from_ - scale).toNat
    let nearest := (2 * i.natAbs + unit) / (2 * unit)
    fit precision (if i < 0 then -(nearest : Int) else nearest)

def toFixed (t : IntType) (scale i : Int) : Outcome (Fixed t) :=
  let whole := if 0 ≤ scale then i.tdiv (10 ^ scale.toNat) else i * 10 ^ (-scale).toNat
  .ofOption (.decimalOutOfRange whole (.int t)) (Fixed.ofInt? t whole)

def toFloating (f : FloatFormat) (scale i : Int) : Floating f :=
  let unscaled : Floating .double := .ofInt i
  let (n, d) := unscaled.fraction
  let quotient : Floating .double :=
    if 0 ≤ scale then .round (i < 0) n (d * 10 ^ scale.toNat)
    else .round (i < 0) (n * 10 ^ (-scale).toNat) d
  quotient.convert

end Decimals

namespace Conversion

def parseBoolean (s : String) : Outcome Bool :=
  let word := Text.trim (String.ofList (s.toList.map Char.toLower))
  if ["t", "tr", "tru", "true", "y", "ye", "yes", "on", "1"].contains word then .ok true
  else if ["f", "fa", "fal", "fals", "false", "n", "no", "of", "off", "0"].contains word then
    .ok false
  else .lossy (.notBoolean word)

def ofBool (b : Bool) : Int := if b then 1 else 0

def each {α β : Type} (f : α → Outcome β) : Option (Rule α β) := some (.ok f)

def eachOf {α β γ : Type} (read? : Option (α → β)) (f : β → Outcome γ) : Option (Rule α γ) :=
  read?.map fun read => .ok fun a => f (read a)

def zoneOffset : Option String → Except CastFault Int
  | none => .ok 0
  | some name =>
    match Calendar.offset? name.toList with
    | some offset => .ok offset
    | none => .error (.timestamp "" (.zone name))

def eachIn {α β : Type} (zone : Option String) (f : Int → α → Outcome β) : Option (Rule α β) :=
  some ((zoneOffset zone).map f)

def toBoolean? (a : DataType) : Option (Rule a.Carrier Bool) :=
  eachOf a.number? (fun n => .ok !n.isZero) <|> eachOf a.string? parseBoolean

def parseFixed (t : IntType) (s : String) : Outcome (Fixed t) :=
  .ofOption (.unreadable s (.int t)) ((Text.integer? s.toList).bind (Fixed.ofInt? t))

def parseFloating (f : FloatFormat) (name : DataType) (s : String) : Outcome (Floating f) :=
  .ofOption (.unreadable s name) (Floating.ofText? s)

def toFixed? (t : IntType) : (a : DataType) → Option (Rule a.Carrier (Fixed t))
  | .scalar .boolean => each fun b => (Number.int (ofBool b)).toFixed t
  | .decimal _ scale => each fun i => Decimals.toFixed t scale i
  | .scalar .date32 =>
    if t = .int32 ∨ t = .int64 then each fun d => (Number.int (Fixed.val d)).toFixed t else none
  | .scalar .date64 =>
    if t = .int32 ∨ t = .int64 then each fun d => (Number.int (Fixed.val d)).toFixed t else none
  | .time32 _ => if t = .int32 then each fun i => (Number.int (Fixed.val i)).toFixed t else none
  | .time64 _ => if t = .int64 then each fun i => (Number.int (Fixed.val i)).toFixed t else none
  | .interval .yearMonth =>
    if t = .int64 then each fun i => (Number.int (Interval.months i)).toFixed t else none
  | a => eachOf a.number? (·.toFixed t)
    <|> eachOf a.ticks? (fun i => (Number.int i.val).toFixed t)
    <|> eachOf a.string? (parseFixed t)

def toFloating? (f : FloatFormat) (name : DataType) :
    (a : DataType) → Option (Rule a.Carrier (Floating f))
  | .scalar .boolean => each fun b => .ok (.ofInt (ofBool b))
  | .decimal _ scale =>
    if f = .half then none else each fun i => .ok (Decimals.toFloating f scale i)
  | a => eachOf a.number? (fun n => .ok (n.toFloating f))
    <|> eachOf a.ticks? (fun i => .ok (.ofInt i.val))
    <|> (if f = .half then none else eachOf a.string? (parseFloating f name))

def toDecimal? (precision : Nat) (scale : Int) : (a : DataType) → Option (Rule a.Carrier Int)
  | .scalar (.int _) => each fun i => Decimals.ofInt precision scale i.val
  | .scalar .float32 => each fun x => Decimals.ofFloating (f := .single) precision scale x
  | .scalar .float64 => each fun x => Decimals.ofFloating (f := .double) precision scale x
  | .decimal _ scale' => each fun i => Decimals.rescale precision scale scale' i
  | a => eachOf a.ticks? (fun i => Decimals.ofInt precision scale i.val)
    <|> eachOf a.string? (Decimals.ofText precision scale)

def zoneOf : DataType → Option String
  | .timestamp _ zone => zone
  | _ => none

def decode (bytes : List UInt8) : Outcome String :=
  match Text.decode bytes with
  | .ok s => .ok s
  | .error m => .lossy (.encoding m)

def toText? (a : DataType) : Option (Rule a.Carrier String) :=
  eachOf a.string? .ok <|> eachOf a.bytes? decode <|>
    (if a.isPrimitive ∨ a = .boolean then
      eachIn (zoneOf a) fun _ x => match a.cellText x with
        | .ok s => .ok s
        | .error f => .broken (.text f)
    else none)

def toBytes? : (a : DataType) → Option (Rule a.Carrier (List UInt8))
  | .scalar (.int _) => each fun i => .ok i.bytes
  | a => eachOf a.string? (fun s => .ok (Text.utf8 s)) <|> eachOf a.bytes? .ok

def local? (unit : TimeUnit) (offset i : Int) : Option Instant :=
  let t := instantOf unit i
  t.date?.map fun _ => { t with seconds := t.seconds + offset }

def daysOf (unit : TimeUnit) (offset i : Int) : Outcome (Fixed .int32) :=
  match local? unit offset i with
  | some t => .ok (.clamp .int32 (Int.fdiv t.seconds 86400))
  | none => .broken (.noDate unit i)

def timeOf (t : IntType) (unit : TimeUnit) (new : TimeUnit) (offset i : Int) : Outcome (Fixed t) :=
  match local? unit offset i with
  | some at_ =>
    let nanos := at_.secondOfDay * 1000000000 + at_.nanos
    .ok (.clamp t (nanos * new.perSecond / 1000000000 : Nat))
  | none => .broken (.noTime unit i)

def toDate32? : (a : DataType) → Option (Rule a.Carrier (Fixed .int32))
  | .scalar (.int .int32) => each fun i => .ok i
  | .scalar (.int .int64) => each fun i => (Number.int (Fixed.val i)).toFixed .int32
  | .scalar .date64 => each fun d => .ok (.wrap .int32 ((Fixed.val d).tdiv 86400000))
  | .timestamp unit zone => eachIn zone fun offset i => daysOf unit offset (Fixed.val i)
  | a => eachOf a.string? fun s =>
    .ofOption (.unreadable s .date32)
      ((Calendar.date? s).bind fun d => Fixed.ofInt? .int32 d.toDays)

def times (i : Int) (factor : Nat) : Outcome (Fixed .int64) :=
  .ofOption (.arithmetic i "*" factor) (Fixed.ofInt? .int64 (i * factor))

def changeUnit (old new : TimeUnit) (i : Int) : Outcome (Fixed .int64) :=
  if new.perSecond ≤ old.perSecond then
    .ok (.clamp .int64 (i.tdiv (old.perSecond / new.perSecond : Nat)))
  else times i (new.perSecond / old.perSecond)

/-- The same in a word that does not tell when finer units overflow it. -/
def changeUnitIn (t : IntType) (old new : TimeUnit) (i : Int) : Fixed t :=
  if new.perSecond ≤ old.perSecond then .wrap t (i.tdiv (old.perSecond / new.perSecond : Nat))
  else .wrap t (i * (new.perSecond / old.perSecond : Nat))

def toDate64? : (a : DataType) → Option (Rule a.Carrier (Fixed .int64))
  | .scalar (.int .int32) => each fun i => .ok (.clamp .int64 (Fixed.val i * 86400000))
  | .scalar (.int .int64) => each fun i => .ok i
  | .scalar .date32 => each fun d => .ok (.clamp .int64 (Fixed.val d * 86400000))
  | .timestamp unit _ => each fun i => changeUnit unit .millisecond (Fixed.val i)
  | a => eachOf a.string? fun s =>
    .ofOption (.unreadable s .date64) ((Calendar.milliseconds? s).bind (Fixed.ofInt? .int64))

def parseTimestamp (unit : TimeUnit) (offset : Int) (s : String) : Outcome (Fixed .int64) :=
  match Calendar.timestamp offset s with
  | .error f => .lossy (.timestamp s f)
  | .ok t =>
    .ofOption (.timestampOverflow t)
      (Fixed.ofInt? .int64 (Int.fdiv (t.toNanos * unit.perSecond) 1000000000))

def intoZone (unit : TimeUnit) (offset : Int) (i : Fixed .int64) : Outcome (Fixed .int64) :=
  .ofOption .noLocalTime ((local? unit (-offset) i.val).bind fun _ =>
    Fixed.ofInt? .int64 (i.val - offset * unit.perSecond))

def entering {α : Type} (unit : TimeUnit) (zone : Option String) (f : α → Outcome (Fixed .int64)) :
    Option (Rule α (Fixed .int64)) :=
  match zone with
  | none => each f
  | some name => eachIn (some name) fun offset a => (f a).bind (intoZone unit offset)

def toTimestamp? (unit : TimeUnit) (zone : Option String) :
    (a : DataType) → Option (Rule a.Carrier (Fixed .int64))
  | .scalar .date32 => entering unit zone fun d =>
    .ok (.wrap .int64 (Fixed.val d * (86400 * unit.perSecond : Nat)))
  | .scalar .date64 => entering unit zone fun d =>
    .ok (changeUnitIn .int64 .millisecond unit (Fixed.val d))
  | .timestamp old none => entering unit zone fun i => changeUnit old unit (Fixed.val i)
  | .timestamp old (some _) => each fun i => changeUnit old unit (Fixed.val i)
  | .decimal _ scale => each fun i => Decimals.toFixed .int64 scale i
  | a => eachOf a.number? (·.toFixed .int64)
    <|> a.string?.bind fun string => eachIn zone fun offset x =>
      parseTimestamp unit offset (string x)

def parseClock (name : DataType) (t : IntType) (unit : TimeUnit) (s : String) : Outcome (Fixed t) :=
  let ofClock := (Calendar.clock? s).map fun nanos : Nat =>
    ((nanos * unit.perSecond / 1000000000 : Nat) : Int)
  .ofOption (.unreadable s name)
    ((ofClock <|> Text.integer? s.toList).bind (Fixed.ofInt? t))

def toTime32? (unit : TimeUnit) : (a : DataType) → Option (Rule a.Carrier (Fixed .int32))
  | .scalar (.int .int32) => each fun i => .ok i
  | .time32 old => each fun i => .ok (changeUnitIn .int32 old unit (Fixed.val i))
  | .time64 old => each fun i => .ok (changeUnitIn .int32 old unit (Fixed.val i))
  | .timestamp old zone => eachIn zone fun offset i => timeOf .int32 old unit offset (Fixed.val i)
  | a => eachOf a.string? (parseClock (.time32 unit) .int32 unit)

def toTime64? (unit : TimeUnit) : (a : DataType) → Option (Rule a.Carrier (Fixed .int64))
  | .scalar (.int .int64) => each fun i => .ok i
  | .time32 old => each fun i => .ok (changeUnitIn .int64 old unit (Fixed.val i))
  | .time64 old => each fun i => .ok (changeUnitIn .int64 old unit (Fixed.val i))
  | .timestamp old zone => eachIn zone fun offset i => timeOf .int64 old unit offset (Fixed.val i)
  | a => eachOf a.string? (parseClock (.time64 unit) .int64 unit)

def toDuration? (unit : TimeUnit) : (a : DataType) → Option (Rule a.Carrier (Fixed .int64))
  | .duration old => each fun i => changeUnit old unit (Fixed.val i)
  | .decimal _ scale => each fun i => Decimals.toFixed .int64 scale i
  | .interval .monthDayNano => each fun i =>
    if Interval.months i = 0 ∧ Interval.days i = 0 then
      .ok (.clamp .int64 ((Interval.nanos i).tdiv (1000000000 / unit.perSecond : Nat)))
    else .lossy .notDuration
  | a => eachOf a.number? (·.toFixed .int64)

def parseInterval (unit : IntervalUnit) (s : String) : Outcome Interval :=
  let result := match unit with
    | .yearMonth => Interval.yearMonth s
    | .dayTime => Interval.dayTime s
    | .monthDayNano => Interval.ofText .month s
  match result with
  | .ok i => .ok i
  | .error f => .lossy (.interval s f)

def toInterval? (unit : IntervalUnit) : (a : DataType) → Option (Rule a.Carrier Interval)
  | .scalar (.int .int32) =>
    if unit = .yearMonth then each fun i => .ok ⟨Fixed.val i, 0, 0⟩ else none
  | .duration old =>
    if unit = .monthDayNano then
      each fun i => .ofOption (.durationOverflow (Fixed.val i))
        ((Fixed.ofInt? .int64 (Fixed.val i * (1000000000 / old.perSecond : Nat))).map
          fun n => ⟨0, 0, n.val⟩)
    else none
  | .interval _ => if unit = .monthDayNano then each fun i => .ok i else none
  | a => eachOf a.string? (parseInterval unit)

def toNull? : (a : DataType) → Option (Rule a.Carrier Empty)
  | .decimal p s => each fun _ => .lossy (.unsupported (.decimal p s) .null)
  | _ => none

def flat? (a : DataType) : (b : DataType) → Option (Rule a.Carrier b.Carrier)
  | .scalar .null => toNull? a
  | .scalar .boolean => toBoolean? a
  | .scalar (.int t) => toFixed? t a
  | .scalar .float32 => toFloating? .single .float32 a
  | .scalar .float64 => toFloating? .double .float64 a
  | .scalar .utf8 => toText? a
  | .scalar .largeUtf8 => toText? a
  | .scalar .binary => toBytes? a
  | .scalar .date32 => toDate32? a
  | .scalar .date64 => toDate64? a
  | .dictionary _ _ => none
  | .float16 => toFloating? .half .float16 a
  | .decimal precision scale => toDecimal? precision scale a
  | .timestamp unit zone => toTimestamp? unit zone a
  | .time32 unit => toTime32? unit a
  | .time64 unit => toTime64? unit a
  | .duration unit => toDuration? unit a
  | .interval unit => toInterval? unit a
  | .largeBinary => toBytes? a
  | .utf8View => toText? a

def fromNull? : (b : DataType) → Option (Rule Empty b.Carrier)
  | .float16 => none
  | _ => each fun x => nomatch x

def toFlat? (a b : DataType) : Option (Rule a.Carrier b.Carrier) :=
  if h : a = b then each fun x => .ok (h ▸ x) else flat? a b

def packedAs? : DataType → Option DataType
  | .scalar .null | .scalar .boolean | .dictionary _ _ | .duration _ | .interval _ | .utf8View =>
      none
  | .scalar .date32 | .time32 _ => some (.int .int32)
  | .scalar .date64 | .time64 _ | .timestamp _ _ => some (.int .int64)
  | t => some t

def fromFlat? (a : DataType) : (b : DataType) → Option (Rule a.Carrier b.Carrier)
  | .dictionary _ value => (fromFlat? a value).map fun direct =>
    match packedAs? value with
    | none => .error (.unpackable value)
    | some t =>
      if t = value then direct
      else match toFlat? a t, toFlat? t value with
        | some f, some g => f.andThen g
        | _, _ => direct
  | b => toFlat? a b

end Conversion

def conversion? : (a b : DataType) → Option (Rule a.Carrier b.Carrier)
  | .dictionary _ value, .dictionary _ value' => conversion? value value'
  | .dictionary _ value, b => conversion? value b
  | .scalar .null, b =>
    if b = .null then Conversion.each fun x => nomatch x else Conversion.fromNull? b
  | a, b => Conversion.fromFlat? a b

def conversion (a b : DataType) : Rule a.Carrier b.Carrier :=
  (conversion? a b).getD (.error (.unsupported a b))

def castable (a b : DataType) : Bool := a = b || (conversion? a b).isSome

end TableScan
