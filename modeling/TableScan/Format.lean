import TableScan.Format.Image
import TableScan.Format.Options
import TableScan.Storage.Access

namespace TableScan

inductive Format : Type
  | parquet : ParquetOptions → Format
  | ipc
  deriving DecidableEq

structure ReadRequest : Type where
  columns : Option (List String)
  batchSize : Nat
  /-- Rows that do not satisfy it are not missed, and may be there. -/
  predicate : Expr

abbrev Batches : Type := List (Except Failure Batch)

namespace OpenFile

def readable (f : OpenFile) : Except Failure Unit :=
  match f.readFault with
  | some e => .error e
  | none => .ok ()

def hasMarks (f : OpenFile) (mark : List UInt8) (least : Nat) : Except Failure Bool :=
  if f.image.size < least then .ok false
  else do
    f.readable
    return f.image.isFramed mark least

end OpenFile

namespace Batch

def requested (b : Batch) : Option (List String) → Batch
  | some names => b.restrict names
  | none => b

end Batch

namespace ParquetFile

/-- The metadata stand behind the columns, or in their place where there are none. -/
def metadataFault (f : ParquetFile) (file : OpenFile) : Option StorageError :=
  file.readFault <|> if f.groups = [] ∨ f.schema = [] then file.columnFault else none

def ofFile (file : OpenFile) : Except Failure ParquetFile :=
  match file.image with
  | .parquet f => if (f.metadataFault file).isSome then .error .metadata else .ok f
  | _ => .error .metadata

def selected (f : ParquetFile) (o : ParquetOptions) (predicate : Expr) : List (RowGroup × Nat) :=
  if o.useRowGroupStatistics && !predicate.isTrue then
    f.groups.zipIdx.filter fun (g, _) => g.mayMatch (o.schema f.schema) predicate
  else f.groups.zipIdx

def readsFirstColumn (f : ParquetFile) (request : ReadRequest) : Bool :=
  match f.schema, request.columns with
  | [], _ => false
  | _ :: _, none => true
  | first :: _, some names => names.contains first.name

def read (o : ParquetOptions) (file : OpenFile) (request : ReadRequest) :
    Except Failure Batches := do
  let f ← ofFile file
  let groups := f.selected o request.predicate
  let first := groups.any fun (_, position) => position = 0
  if file.columnFault.isSome && first && f.readsFirstColumn request then
    return [.error (.column .undecodable)]
  let rows := Batch.concat f.schema (groups.map fun (g, _) => g.rows)
  let batches := (o.batch (rows.requested request.columns)).chunks
    (some (o.batchSize.getD request.batchSize))
  return batches.map .ok

end ParquetFile

namespace IpcFile

def ofFile (file : OpenFile) : Except Failure IpcFile := do
  file.readable
  match file.image with
  | .ipc f => return f
  | _ => throw (.column .undecodable)

def read (file : OpenFile) (request : ReadRequest) : Except Failure Batches := do
  let f ← ofFile file
  let batches := f.batches.flatMap fun b =>
    (b.requested request.columns).pieces (max 1 request.batchSize)
  return batches.map .ok

end IpcFile

namespace Format

def typeName : Format → String
  | parquet _ => "parquet"
  | ipc => "ipc"

def isSupported (file : OpenFile) : Format → Except Failure Bool
  | parquet _ => file.hasMarks FileImage.parquetMagic 12
  | ipc => file.hasMarks FileImage.ipcMagic 12

def inspect (file : OpenFile) : Format → Except Failure Schema
  | parquet o => do return o.schema (← ParquetFile.ofFile file).schema
  | ipc => do return (← IpcFile.ofFile file).schema

def read (file : OpenFile) (request : ReadRequest) : Format → Except Failure Batches
  | parquet o => ParquetFile.read o file request
  | ipc => IpcFile.read file request

end Format

end TableScan
