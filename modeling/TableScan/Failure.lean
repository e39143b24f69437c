import TableScan.Value.Conversion

namespace TableScan

inductive StorageKind : Type
  | io | notFound | permission | configuration | internal
  deriving DecidableEq

structure StorageError : Type where
  kind : StorageKind
  message : String
  source : Option String
  deriving DecidableEq

namespace StorageError

def heading : StorageKind → String
  | .io => "IO operation failed: "
  | .notFound => "Resource not found: "
  | .permission => "Permission denied: "
  | .configuration => "Invalid configuration: "
  | .internal => "Internal error: "

def text (e : StorageError) : String := heading e.kind ++ e.message

def isNotFound (e : StorageError) : Bool := e.kind == .notFound

end StorageError

inductive SegmentFault : Type
  | notPair | keyEncoding | emptyKey | valueEncoding
  | value : String → SegmentFault
  deriving DecidableEq

def SegmentFault.message : SegmentFault → String
  | notPair => "expected key=value"
  | keyEncoding => "key is not valid UTF-8"
  | emptyKey => "empty key"
  | valueEncoding => "value is not valid UTF-8"
  | value reason => reason

inductive ParseFault : Type
  | value : String → DataType → CastFault → ParseFault
  | segment : String → SegmentFault → ParseFault
  | inPath : ParseFault → String → ParseFault
  | custom : String → ParseFault
  deriving DecidableEq

def ParseFault.message : ParseFault → String
  | value s t e => "cannot parse '" ++ s ++ "' as " ++ t.text ++ ": " ++ e.message
  | segment s f => "malformed partition segment '" ++ s ++ "': " ++ f.message
  | inPath f path => f.message ++ " in path '" ++ path ++ "'"
  | custom s => s

inductive SchemaFault : Type
  | types : String → DataType → DataType → SchemaFault
  | partition : String → DataType → DataType → SchemaFault
  deriving DecidableEq

def SchemaFault.message : SchemaFault → String
  | types name a b =>
    "field '" ++ name ++ "' has type " ++ a.text ++ " in one schema and " ++ b.text ++ " in another"
  | partition name a b =>
    "partition field '" ++ name ++ "' of type " ++ a.text ++
      " conflicts with file column of type " ++
      b.text

inductive TypeFault : Type
  | noScalar : DataType → TypeFault
  | cast : Scalar → DataType → CastFault → TypeFault
  | compare : DataType → DataType → TypeFault
  | compareIn : DataType → DataType → String → TypeFault
  | setElement : Scalar → String → DataType → TypeFault
  | castIn : String → DataType → DataType → TypeFault
  | operand : String → DataType → TypeFault
  | truth : Scalar → TypeFault
  | mask : DataType → TypeFault
  | filter : String → DataType → TypeFault
  | custom : String → TypeFault
  deriving DecidableEq

def TypeFault.message : TypeFault → String
  | noScalar t => "scalar values of type " ++ t.text ++ " are not supported"
  | cast v t e => "cannot cast " ++ v.text ++ " to " ++ t.text ++ ": " ++ e.message
  | compare a b => "cannot compare " ++ a.text ++ " with " ++ b.text
  | compareIn a b e => "cannot compare " ++ a.text ++ " with " ++ b.text ++ " in '" ++ e ++ "'"
  | setElement v e t =>
    "set element " ++ v.text ++ " of type " ++ v.dataType.text ++ " does not match " ++ e ++
      " of type " ++ t.text
  | castIn e a b => "cannot cast " ++ e ++ " from " ++ a.text ++ " to " ++ b.text
  | operand e t => "expected a boolean operand, found " ++ e ++ " of type " ++ t.text
  | truth v => "expected a boolean value, found " ++ v.text ++ " of type " ++ v.dataType.text
  | mask t => "expected a boolean column, found " ++ t.text
  | filter e t => "filter '" ++ e ++ "' has type " ++ t.text ++ ", expected boolean"
  | custom s => s

inductive ArgumentFault : Type
  | batchSize | parallelism | threads
  | duplicateColumn : String → ArgumentFault
  deriving DecidableEq

def ArgumentFault.message : ArgumentFault → String
  | batchSize => "batch size must be positive"
  | parallelism => "parallelism must be at least one thread"
  | threads => "executor needs at least one thread"
  | duplicateColumn name => "column '" ++ name ++ "' projected more than once"

inductive ColumnFault : Type
  | cast : CastFault → ColumnFault
  | nullsIn : String → ColumnFault
  | types : DataType → DataType → Nat → ColumnFault
  | undecodable
  deriving DecidableEq

def ColumnFault.message : ColumnFault → String
  | cast e => e.message
  | nullsIn name =>
    FaultKind.argument.heading ++ "Column '" ++ name ++
      "' is declared as non-nullable but contains null values"
  | types expected found place =>
    FaultKind.argument.heading ++ "column types must match schema types, expected " ++
      expected.text ++ " but found " ++ found.text ++ s!" at column index {place}"
  | undecodable => "undecodable columns"

inductive Failure : Type
  | parse : ParseFault → Failure
  | schema : SchemaFault → Failure
  | type : TypeFault → Failure
  | unknownField : String → Failure
  | storage : StorageError → Failure
  | format : String → String → Failure
  | argument : ArgumentFault → Failure
  | column : ColumnFault → Failure
  | metadata
  | index : Nat → Nat → Failure
  | fragment : String → Failure → Failure
  deriving DecidableEq

def Failure.message : Failure → String
  | parse f => "Parse error: " ++ f.message
  | schema f => "Schema conflict: " ++ f.message
  | type f => "Type mismatch: " ++ f.message
  | unknownField name => "Unknown field: " ++ name
  | storage e => "IO failure: " ++ e.text
  | format path name => "Unsupported format: '" ++ path ++ "' is not a " ++ name ++ " file"
  | argument f => "Invalid argument: " ++ f.message
  | column f => "Arrow error: " ++ f.message
  | metadata => "Parquet error: unreadable metadata"
  | index i n => s!"Internal error: index {i} out of bounds for array of length {n}"
  | fragment path f => "fragment '" ++ path ++ "': " ++ f.message

instance : Coe ParseFault Failure := ⟨.parse⟩
instance : Coe SchemaFault Failure := ⟨.schema⟩
instance : Coe TypeFault Failure := ⟨.type⟩
instance : Coe StorageError Failure := ⟨.storage⟩
instance : Coe ArgumentFault Failure := ⟨.argument⟩
instance : Coe ColumnFault Failure := ⟨.column⟩

end TableScan
