import TableScan.Failure

namespace TableScan.CommandLine

structure Report : Type where
  message : String
  causes : List String
  deriving DecidableEq

namespace Report

def plain (message : String) : Report := ⟨message, []⟩

def storageCauses (e : StorageError) : List String := e.source.toList

def causesOf : Failure → List String
  | .storage e => e.text :: storageCauses e
  | .fragment _ f => f.message :: causesOf f
  | .column f => [f.message]
  | _ => []

def ofStorage (e : StorageError) : Report := ⟨e.text, storageCauses e⟩

def ofFailure (f : Failure) : Report := ⟨f.message, causesOf f⟩

def within (context : String) (r : Report) : Report := ⟨context, r.message :: r.causes⟩

end Report

end TableScan.CommandLine
