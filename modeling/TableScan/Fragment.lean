import TableScan.Format

namespace TableScan

inductive Origin : Type
  | stored : String → Origin
  | buffer : String → FileImage → Origin

namespace Origin

def path : Origin → String
  | stored path => path
  | buffer name _ => name

def openFile (files : FileAccess) : Origin → Accounted OpenFile
  | stored path => files.openFile path
  | buffer name image => pure (.ofImage name image)

end Origin

structure Fragment : Type where
  origin : Origin
  format : Format
  /-- True of every row. -/
  partition : Expr
  physical : Schema

namespace Fragment

def path (f : Fragment) : String := f.origin.path

def ofBuffer (format : Format) (name : String) (image : FileImage) (partition : Expr) :
    Except Failure Fragment := do
  let physical ← format.inspect (.ofImage name image)
  return ⟨.buffer name image, format, partition, physical⟩

end Fragment

end TableScan
