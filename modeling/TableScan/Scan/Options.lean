import TableScan.Failure
import TableScan.Json.Record

namespace TableScan

inductive Parallelism : Type
  | default_
  | threads : Nat → Parallelism
  deriving DecidableEq

namespace Parallelism

def json : Parallelism → Json
  | default_ => .str "default"
  | threads n => .obj [("threads", .int n)]

def reader : Json.Reader Parallelism :=
  .variant [.plain "default" default_, .holding "threads" (threads <$> .size)]

end Parallelism

inductive ScanOrder : Type
  | ordered
  /-- As batches come. -/
  | unordered
  deriving DecidableEq

namespace ScanOrder

def name : ScanOrder → String
  | ordered => "ordered"
  | unordered => "unordered"

def reader : Json.Reader ScanOrder :=
  .variant ([ordered, unordered].map fun o => .plain o.name o)

end ScanOrder

structure ScanOptions : Type where
  batchSize : Nat
  useThreads : Bool
  parallelism : Parallelism
  order : ScanOrder
  deriving DecidableEq

namespace ScanOptions

def default_ : ScanOptions := ⟨32768, true, .default_, .ordered⟩

def check (o : ScanOptions) : Except Failure Unit :=
  if o.batchSize = 0 then .error (.argument .batchSize)
  else if o.parallelism = .threads 0 then .error (.argument .parallelism)
  else .ok ()

def json (o : ScanOptions) : Json :=
  .obj [("batchSize", .int o.batchSize), ("useThreads", .bool o.useThreads),
    ("parallelism", o.parallelism.json), ("ordering", .str o.order.name)]

def reader : Json.Reader ScanOptions :=
  .record "ScanOptions" [
    ⟨"batchSize", fun o => do return { o with batchSize := ← .size }⟩,
    ⟨"useThreads", fun o => do return { o with useThreads := ← .bool }⟩,
    ⟨"parallelism", fun o => do return { o with parallelism := ← Parallelism.reader }⟩,
    ⟨"ordering", fun o => do return { o with order := ← ScanOrder.reader }⟩] default_

end ScanOptions

structure Workers : Type where
  count : Nat
  positive : 0 < count

namespace Workers

def ofCount (n : Nat) : Except Failure Workers :=
  if h : 0 < n then .ok ⟨n, h⟩ else .error (.argument .threads)

def ofParallelism (processors : Nat) : Parallelism → Except Failure Workers
  | .default_ => ofCount (max 1 processors)
  | .threads n => ofCount n

end Workers

end TableScan
