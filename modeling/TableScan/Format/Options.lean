import TableScan.Batch
import TableScan.Json.Record

namespace TableScan

structure ParquetOptions : Type where
  batchSize : Option Nat
  dictionaryColumns : List String
  useRowGroupStatistics : Bool
  deriving DecidableEq

namespace ParquetOptions

def default_ : ParquetOptions := ⟨none, [], true⟩

def json (o : ParquetOptions) : Json :=
  .obj [("batchSize", match o.batchSize with
      | some n => .int n
      | none => .null),
    ("dictionaryColumns", .arr (o.dictionaryColumns.map .str)),
    ("useRowGroupStatistics", .bool o.useRowGroupStatistics)]

def reader : Json.Reader ParquetOptions :=
  .record "ParquetOptions" [
    ⟨"batchSize", fun o => do return { o with batchSize := ← .option .size }⟩,
    ⟨"dictionaryColumns", fun o => do return { o with dictionaryColumns := ← .list .str }⟩,
    ⟨"useRowGroupStatistics", fun o => do return { o with useRowGroupStatistics := ← .bool }⟩]
    default_

end ParquetOptions

namespace Series

def asDictionary (s : Series) : Series :=
  { s with column := ⟨.dictionary .int32 s.column.type, s.column.cells⟩ }

end Series

namespace ParquetOptions

def encodes (o : ParquetOptions) (name : String) (t : DataType) : Bool :=
  o.dictionaryColumns.contains name && (t = .utf8 || t = .largeUtf8 || t = .binary)

def field (o : ParquetOptions) (f : Field) : Field :=
  if o.encodes f.name f.type then { f with type := .dictionary .int32 f.type } else f

def schema (o : ParquetOptions) (s : Schema) : Schema := s.map o.field

def series (o : ParquetOptions) (s : Series) : Series :=
  if o.encodes s.name s.column.type then s.asDictionary else s

theorem length_series (o : ParquetOptions) (s : Series) :
    (o.series s).column.length = s.column.length := by
  unfold series
  split <;> rfl

def batch (o : ParquetOptions) (b : Batch) : Batch where
  rows := b.rows
  columns := b.columns.map o.series
  sized := by
    intro s hs
    obtain ⟨t, ht, rfl⟩ := List.mem_map.1 hs
    rw [o.length_series]; exact b.sized t ht

end ParquetOptions

end TableScan
