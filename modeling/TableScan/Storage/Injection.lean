import TableScan.Storage.Access

namespace TableScan

inductive FaultPoint : Type
  | listing | opening | reading | columns
  deriving DecidableEq

abbrev Injection : Type := List (FaultPoint × String)

namespace Injection

def fails (i : Injection) (point : FaultPoint) (path : String) : Bool := i.contains (point, path)

def error (activity path : String) : StorageError :=
  ⟨.io, "injected " ++ activity ++ " failure for '" ++ path ++ "'", none⟩

def readError? (i : Injection) (point : FaultPoint) (path : String) : Option StorageError :=
  if i.fails point path then some (error "read" path) else none

/-- Storage behind the failures: what fails in front of it is no traffic. -/
def wrap (i : Injection) (files : FileAccess) : FileAccess where
  list root :=
    if i.fails .listing root then .ofResult (.error (error "list" root)) else files.list root
  openFile path :=
    if i.fails .opening path then .ofResult (.error (error "open" path))
    else do
      let file ← files.openFile path
      return { file with
        readFault := i.readError? .reading path <|> file.readFault
        columnFault := i.readError? .columns path <|> file.columnFault }

end Injection

end TableScan
