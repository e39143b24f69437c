import TableScan.DataType
import TableScan.Calendar
import TableScan.Calendar.Interval

namespace TableScan

abbrev ScalarType.Carrier : ScalarType → Type
  | .null => Empty
  | .boolean => Bool
  | .int t => Fixed t
  | .float32 => Floating .single
  | .float64 => Floating .double
  | .utf8 | .largeUtf8 => String
  | .binary => List UInt8
  | .date32 => Fixed .int32
  | .date64 => Fixed .int64

abbrev DataType.Carrier : DataType → Type
  | .scalar t => t.Carrier
  | .dictionary _ value => value.Carrier
  | .float16 => Floating .half
  | .decimal _ _ => Int
  | .timestamp _ _ | .time64 _ | .duration _ => Fixed .int64
  | .time32 _ => Fixed .int32
  | .interval _ => Interval
  | .largeBinary => List UInt8
  | .utf8View => String

instance ScalarType.decEqCarrier : (t : ScalarType) → DecidableEq t.Carrier
  | .null => inferInstanceAs (DecidableEq Empty)
  | .boolean => inferInstanceAs (DecidableEq Bool)
  | .int t => inferInstanceAs (DecidableEq (Fixed t))
  | .float32 => inferInstanceAs (DecidableEq (Floating .single))
  | .float64 => inferInstanceAs (DecidableEq (Floating .double))
  | .utf8 => inferInstanceAs (DecidableEq String)
  | .largeUtf8 => inferInstanceAs (DecidableEq String)
  | .binary => inferInstanceAs (DecidableEq (List UInt8))
  | .date32 => inferInstanceAs (DecidableEq (Fixed .int32))
  | .date64 => inferInstanceAs (DecidableEq (Fixed .int64))

instance DataType.decEqCarrier : (t : DataType) → DecidableEq t.Carrier
  | .scalar t => t.decEqCarrier
  | .dictionary _ value => value.decEqCarrier
  | .float16 => inferInstanceAs (DecidableEq (Floating .half))
  | .decimal _ _ => inferInstanceAs (DecidableEq Int)
  | .timestamp _ _ => inferInstanceAs (DecidableEq (Fixed .int64))
  | .time64 _ => inferInstanceAs (DecidableEq (Fixed .int64))
  | .duration _ => inferInstanceAs (DecidableEq (Fixed .int64))
  | .time32 _ => inferInstanceAs (DecidableEq (Fixed .int32))
  | .interval _ => inferInstanceAs (DecidableEq Interval)
  | .largeBinary => inferInstanceAs (DecidableEq (List UInt8))
  | .utf8View => inferInstanceAs (DecidableEq String)

structure Scalar : Type where
  type : ScalarType
  value : Option type.Carrier
  deriving DecidableEq

namespace Scalar

def null : Scalar := ⟨.null, none⟩

def ofBool (b : Bool) : Scalar := ⟨.boolean, some b⟩

def ofTruth (b : Option Bool) : Scalar := ⟨.boolean, b⟩

def ofText (s : String) : Scalar := ⟨.utf8, some s⟩

def ofFixed {t : IntType} (i : Fixed t) : Scalar := ⟨.int t, some i⟩

def isNull (s : Scalar) : Bool := s.value.isNone

def dataType (s : Scalar) : DataType := .scalar s.type

def text? : Scalar → Option String
  | ⟨.utf8, s⟩ => s
  | ⟨.largeUtf8, s⟩ => s
  | _ => none

end Scalar

def compareBytes : List UInt8 → List UInt8 → Ordering
  | [], [] => .eq
  | [], _ :: _ => .lt
  | _ :: _, [] => .gt
  | x :: xs, y :: ys => (compare x y).then (compareBytes xs ys)

/-- Numbers by size, floating-point numbers in the total order of their patterns, texts and bytes by
their first difference, and false before true. -/
def ScalarType.compare : (t : ScalarType) → t.Carrier → t.Carrier → Ordering
  | .null, a, _ => nomatch a
  | .boolean, a, b => Ord.compare (a : Bool) b
  | .int _, a, b => Fixed.compare a b
  | .float32, a, b => Floating.compare (f := .single) a b
  | .float64, a, b => Floating.compare (f := .double) a b
  | .utf8, a, b | .largeUtf8, a, b => Ord.compare (a : String) b
  | .binary, a, b => compareBytes a b
  | .date32, a, b => Fixed.compare (t := .int32) a b
  | .date64, a, b => Fixed.compare (t := .int64) a b

def DataType.compare : (t : DataType) → t.Carrier → t.Carrier → Ordering
  | .scalar t, a, b => t.compare a b
  | .dictionary _ value, a, b => value.compare a b
  | .float16, a, b => Floating.compare (f := .half) a b
  | .decimal _ _, a, b => Ord.compare (a : Int) b
  | .timestamp _ _, a, b | .time64 _, a, b | .duration _, a, b => Fixed.compare (t := .int64) a b
  | .time32 _, a, b => Fixed.compare (t := .int32) a b
  | .interval _, a, b => Interval.compare a b
  | .largeBinary, a, b => compareBytes a b
  | .utf8View, a, b => Ord.compare (a : String) b

/-- What a value counts as in comparisons with values of other types. -/
inductive Magnitude : Type
  | number : Int → Magnitude
  | floating : Floating .double → Magnitude
  | text : String → Magnitude
  | milliseconds : Int → Magnitude
  | flag : Bool → Magnitude
  | bytes : List UInt8 → Magnitude
  deriving DecidableEq

def Scalar.magnitude? : Scalar → Option Magnitude
  | ⟨.null, _⟩ => none
  | ⟨.boolean, b⟩ => b.map .flag
  | ⟨.int _, i⟩ => i.map fun i => .number i.val
  | ⟨.float32, x⟩ => x.map fun x => .floating (Floating.convert (f := .single) x)
  | ⟨.float64, x⟩ => x.map .floating
  | ⟨.utf8, s⟩ | ⟨.largeUtf8, s⟩ => s.map .text
  | ⟨.binary, b⟩ => b.map .bytes
  | ⟨.date32, d⟩ => d.map fun d => .milliseconds (Fixed.val d * 86400000)
  | ⟨.date64, d⟩ => d.map fun d => .milliseconds (Fixed.val d)

/-- A number meets a floating-point number as the floating-point number nearest to it. -/
def Magnitude.compare? : Magnitude → Magnitude → Option Ordering
  | .number a, .number b => some (Ord.compare a b)
  | .number a, .floating b => some ((Floating.ofInt a).compare b)
  | .floating a, .number b => some (a.compare (Floating.ofInt b))
  | .floating a, .floating b => some (a.compare b)
  | .text a, .text b => some (Ord.compare a b)
  | .milliseconds a, .milliseconds b => some (Ord.compare a b)
  | .flag a, .flag b => some (Ord.compare a b)
  | .bytes a, .bytes b => some (compareBytes a b)
  | _, _ => none

end TableScan
