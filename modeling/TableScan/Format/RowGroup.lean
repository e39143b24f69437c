import TableScan.Batch
import TableScan.Expr.Simplify

/-!
Row groups: runs of rows that a file keeps together, with statistics about each column. The
statistics of a group give an expression that holds for all of its rows.
-/

open scoped TableScan.Arithmetic

namespace TableScan

inductive PhysicalType : Type
  | boolean | int32 | int64 | int96 | float | double | byteArray | fixedByteArray
  deriving DecidableEq

abbrev PhysicalType.Carrier : PhysicalType → Type
  | .boolean => Bool
  | .int32 => Fixed .int32
  | .int64 => Fixed .int64
  | .float => Floating .single
  | .double => Floating .double
  | .int96 | .byteArray | .fixedByteArray => List UInt8

structure Stored : Type where
  type : PhysicalType
  value : type.Carrier

def Stored.as? (p : PhysicalType) (s : Stored) : Option p.Carrier :=
  if h : s.type = p then some (h ▸ s.value) else none

/-- A least or greatest value, which may have been cut short. -/
structure Extreme (p : PhysicalType) : Type where
  value : p.Carrier
  exact : Bool

/-- What is recorded of a column in a group. -/
structure Statistics : Type where
  type : PhysicalType
  low : Option (Extreme type)
  high : Option (Extreme type)
  nulls : Option Nat

structure ColumnChunk : Type where
  path : List String
  statistics : Option Statistics

structure RowGroup : Type where
  rows : Batch
  chunks : List ColumnChunk

namespace IntType

def physical : IntType → PhysicalType
  | int64 | uint64 => .int64
  | _ => .int32

end IntType

def Fixed.stored {t : IntType} (i : Fixed t) : Stored :=
  match t with
  | .int64 | .uint64 => ⟨.int64, .wrap .int64 i.val⟩
  | _ => ⟨.int32, .wrap .int32 i.val⟩

namespace DataType

def physical : DataType → PhysicalType
  | scalar .null | scalar .date32 | time32 _ => .int32
  | scalar .boolean => .boolean
  | scalar (.int t) => t.physical
  | scalar .float32 => .float
  | scalar .float64 => .double
  | scalar .date64 | timestamp _ _ | time64 _ | duration _ => .int64
  | scalar .utf8 | scalar .largeUtf8 | scalar .binary | largeBinary | utf8View => .byteArray
  | decimal precision _ =>
    if precision ≤ 9 then .int32 else if precision ≤ 18 then .int64 else .fixedByteArray
  | float16 | interval _ => .fixedByteArray
  | dictionary _ value => value.physical

-- NaN is left out of ranges; of half-precision numbers, decimals and intervals there are none
def stored? : (t : DataType) → t.Carrier → Option Stored
  | scalar .null, a => nomatch a
  | scalar .boolean, b => some ⟨.boolean, b⟩
  | scalar (.int _), i => some (Fixed.stored i)
  | scalar .float32, x => if Floating.isNaN x then none else some ⟨.float, x⟩
  | scalar .float64, x => if Floating.isNaN x then none else some ⟨.double, x⟩
  | scalar .utf8, s | scalar .largeUtf8, s | utf8View, s => some ⟨.byteArray, Text.utf8 s⟩
  | scalar .binary, b | largeBinary, b => some ⟨.byteArray, b⟩
  | scalar .date32, i | time32 _, i => some ⟨.int32, i⟩
  | scalar .date64, i | timestamp _ _, i | time64 _, i | duration _, i => some ⟨.int64, i⟩
  | dictionary _ value, v => value.stored? v
  | float16, _ | decimal _ _, _ | interval _, _ => none

end DataType

def Floating.signed {f : FloatFormat} (x : Floating f) : Int :=
  if x.negative then -(x.magnitude : Int) else x.magnitude

def Fixed.word {t : IntType} (i : Fixed t) : Int := i.val % 2 ^ t.bits

namespace PhysicalType

def compare (unsigned : Bool) : (p : PhysicalType) → p.Carrier → p.Carrier → Ordering
  | boolean, a, b => Ord.compare a b
  | int32, a, b | int64, a, b => if unsigned then Ord.compare a.word b.word else Fixed.compare a b
  | float, a, b | double, a, b => Ord.compare a.signed b.signed
  | int96, a, b | byteArray, a, b | fixedByteArray, a, b => compareBytes a b

end PhysicalType

namespace Statistics

def least {α : Type} (cmp : α → α → Ordering) : List α → Option α
  | [] => none
  | a :: as => some (as.foldl (fun m x => if cmp x m = .lt then x else m) a)

def beginning (bytes : Nat) : List Char → List Char
  | [] => []
  | c :: cs => if c.utf8Size ≤ bytes then c :: beginning (bytes - c.utf8Size) cs else []

def successor? (c : Char) : Option Char :=
  let n := if c.toNat = 0xd7ff then 0xe000 else c.toNat + 1
  let next := Char.ofNat n
  if n ≤ 0x10ffff ∧ next.utf8Size = c.utf8Size then some next else none

/-- The last character that has a successor replaced by it; what follows is dropped. -/
def increment? : List Char → Option (List Char)
  | [] => none
  | c :: cs => (increment? cs).map (c :: ·) <|> (successor? c).map ([·])

def incrementBytes? : List UInt8 → Option (List UInt8)
  | [] => none
  | b :: bs =>
    (incrementBytes? bs).map (b :: ·)
      <|> if b = 0xff then none else some ((b + 1) :: bs.map fun _ => 0)

def shortLow? (isText : Bool) (limit : Nat) (bytes : List UInt8) : Option (List UInt8) :=
  if isText then do
    let s ← (Text.decode bytes).toOption
    let short := beginning limit s.toList
    if short = [] then none else some (Text.utf8 (String.ofList short))
  else some (bytes.take limit)

def shortHigh? (isText : Bool) (limit : Nat) (bytes : List UInt8) : Option (List UInt8) :=
  if isText then do
    let s ← (Text.decode bytes).toOption
    let short ← increment? (beginning limit s.toList)
    some (Text.utf8 (String.ofList short))
  else incrementBytes? (bytes.take limit)

/-- An extreme as it is recorded: bytes beyond the limit are cut, where a shorter bound is found. -/
def record (limit : Option Nat) (short? : Nat → List UInt8 → Option (List UInt8)) :
    (p : PhysicalType) → p.Carrier → Extreme p
  | .byteArray, bytes =>
    match (limit.filter (· < bytes.length)).bind fun n => short? n bytes with
    | some short => ⟨short, false⟩
    | none => ⟨bytes, true⟩
  | _, value => ⟨value, true⟩

def ofColumn (limit : Option Nat) (c : Column) : Statistics :=
  let p := c.type.physical
  let cmp := p.compare c.type.plain.isUnsigned
  let isText := c.type.plain.isText
  let values := (c.cells.filterMap fun cell => cell.bind c.type.stored?).filterMap (·.as? p)
  { type := p
    low := (least cmp values).map (record limit (shortLow? isText) p)
    high := (least (fun a b => cmp b a) values).map (record limit (shortHigh? isText) p)
    nulls := some (c.cells.countP (·.isNone)) }

def ofExtreme? : (p : PhysicalType) → p.Carrier → DataType → Option Scalar
  | .boolean, b, .scalar .boolean => some (.ofBool b)
  | .int32, i, .scalar (.int t) =>
    if t.signed ∧ t.bits ≤ 32 then ((Scalar.ofFixed i).castTo (.int t)).toOption else none
  | .int32, i, .scalar .date32 => some ⟨.date32, some i⟩
  | .int64, i, .scalar (.int .int64) => some (.ofFixed i)
  | .byteArray, bytes, .scalar .utf8 => (Text.decode bytes).toOption.map .ofText
  -- ranges of floating-point numbers leave out NaN, which comparisons put above every number
  | _, _, _ => none

/-- The least and the greatest value of a column of a type, if statistics tell. -/
def range? (s : Statistics) (t : DataType) : Option (Scalar × Scalar) := do
  let low ← s.low
  let high ← s.high
  if s.type = .byteArray ∧ !(low.exact && high.exact) then none
  else
    let a ← ofExtreme? s.type low.value t
    let b ← ofExtreme? s.type high.value t
    some (a, b)

end Statistics

namespace RowGroup

def ofRows (record : Bool) (limit : Option Nat) (rows : Batch) : RowGroup where
  rows := rows
  chunks := rows.columns.map fun s =>
    ⟨[s.name], if record then some (.ofColumn limit s.column) else none⟩

def claims (rows : Nat) (name : String) (t : DataType) (s : Statistics) : List Expr :=
  if s.nulls = some rows ∧ 0 < rows then [.not (.isValid (.field name))]
  else if s.nulls = some 0 then
    match s.range? t with
    | some (low, high) =>
      [.compare .ge (.field name) (.lit low), .compare .le (.field name) (.lit high)]
    | none => []
  else []

/-- What is known of the column of a chunk in every row of the group: nothing of columns within
others. -/
def facts (schema : Schema) (rows : Nat) (chunk : ColumnChunk) : List Expr :=
  match chunk.path, chunk.statistics with
  | [name], some s =>
    match schema.field? name with
    | some f => claims rows name f.type s
    | none => []
  | _, _ => []

def guarantee (g : RowGroup) (schema : Schema) : Expr :=
  .all (g.chunks.flatMap (facts schema g.rows.rows))

def mayMatch (g : RowGroup) (schema : Schema) (predicate : Expr) : Bool :=
  let guarantee := g.guarantee schema
  if guarantee.isTrue then true
  else
    match predicate.simplify guarantee with
    | .ok e => e.isSatisfiable
    | .error _ => true

end RowGroup

end TableScan
