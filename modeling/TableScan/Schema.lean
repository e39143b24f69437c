import TableScan.Failure

/-!
Schemas: the named columns of a table, in order. The metadata that a whole schema may have are left
out: only the schema of a single file has some, and nothing looks at them.
-/

namespace TableScan

/-- What a field says of itself beyond its type: texts under distinct keys, in the order of these.
-/
structure Metadata : Type where
  entries : List (String × String)
  sorted : entries.Pairwise (·.1 < ·.1)
  deriving DecidableEq

def Metadata.empty : Metadata := ⟨[], .nil⟩

@[ext] structure Field : Type where
  name : String
  type : DataType
  nullable : Bool
  metadata : Metadata
  deriving DecidableEq

abbrev Schema : Type := List Field

namespace Schema

def field? (s : Schema) (name : String) : Option Field := s.find? (·.name = name)

def names (s : Schema) : List String := s.map (·.name)

def project (s : Schema) (names : List String) : Except Failure Schema :=
  names.mapM fun name =>
    match s.field? name with
    | some f => .ok f
    | none => .error (.unknownField name)

/--
Partition fields behind the fields of the files. A field that is in the files too keeps its place
there, and must have the same type.
-/
def appendPartition (s partition : Schema) : Except Failure Schema := do
  let new ← partition.filterMapM fun f : Field =>
    match s.field? f.name with
    | some old =>
      if old.type = f.type then pure none
      else throw (Failure.schema (.partition f.name f.type old.type))
    | none => pure (some f)
  return s ++ new

end Schema

end TableScan
