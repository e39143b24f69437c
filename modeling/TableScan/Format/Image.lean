import TableScan.Format.RowGroup

namespace TableScan

structure ParquetFile : Type where
  schema : Schema
  groups : List RowGroup

structure IpcFile : Type where
  schema : Schema
  batches : List Batch

inductive FileImage : Type
  | parquet : ParquetFile → FileImage
  | ipc : IpcFile → FileImage
  | raw : List UInt8 → FileImage

namespace Batch

def chunks (b : Batch) (size : Option Nat) : List Batch :=
  if b.rows = 0 then []
  else
    match size with
    | some n => b.pieces (max 1 n)
    | none => [b]

end Batch

namespace ParquetFile

def ofTable (table : Batch) (groupRows : Option Nat) (record : Bool) (limit : Option Nat) :
    ParquetFile :=
  ⟨table.schema, (table.chunks groupRows).map (RowGroup.ofRows record limit)⟩

end ParquetFile

namespace IpcFile

def ofTable (table : Batch) (batchRows : Option Nat) : IpcFile :=
  ⟨table.schema, table.chunks batchRows⟩

end IpcFile

namespace FileImage

def parquetMagic : List UInt8 := Text.utf8 "PAR1"

def ipcMagic : List UInt8 := Text.utf8 "ARROW1"

/-- The bytes of a file. Of a table only the frame is kept: its marks, and four bytes at least. -/
def bytes : FileImage → List UInt8
  | parquet _ => parquetMagic ++ [0, 0, 0, 0] ++ parquetMagic
  | ipc _ => ipcMagic ++ [0, 0, 0, 0] ++ ipcMagic
  | raw bs => bs

def size (f : FileImage) : Nat := f.bytes.length

def isFramed (f : FileImage) (mark : List UInt8) (least : Nat) : Bool :=
  least ≤ f.size && mark.isPrefixOf f.bytes && mark.isSuffixOf f.bytes

end FileImage

end TableScan
