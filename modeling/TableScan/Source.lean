import TableScan.Fragment
import TableScan.Expr.Simplify
import TableScan.Schema.Unify

namespace TableScan

inductive SourceKind : Type
  | filesystem | memory
  deriving DecidableEq

namespace SourceKind

def typeName : SourceKind → String
  | filesystem => "filesystem"
  | memory => "in_memory"

end SourceKind

/-- The expression of a source is true of every row below it. -/
inductive Source : Type
  | leaf : SourceKind → Schema → Expr → List Fragment → Source
  | tree : Schema → Expr → List Source → Source

namespace Source

def typeName : Source → String
  | leaf kind _ _ _ => kind.typeName
  | tree _ _ _ => "tree"

def schema : Source → Schema
  | leaf _ s _ _ | tree s _ _ => s

def partition : Source → Expr
  | leaf _ _ p _ | tree _ p _ => p

def ownFragments : Source → List Fragment
  | leaf _ _ _ fragments => fragments
  | tree _ _ _ => []

def children : Source → List Source
  | leaf _ _ _ _ => []
  | tree _ _ sources => sources

def fragments : Source → List Fragment
  | leaf _ _ _ fragments => fragments
  | tree _ _ sources => fragmentsOf sources
where
  fragmentsOf : List Source → List Fragment
    | [] => []
    | s :: rest => s.fragments ++ fragmentsOf rest

def withPartition (p : Expr) : Source → Source
  | leaf kind s _ fragments => leaf kind s p fragments
  | tree s _ sources => tree s p sources

def ofChildren (sources : List Source) : Except Failure Source := do
  return tree (← Schema.unify (sources.map (·.schema))) .true_ sources

def ofBuffers (format : Format) (buffers : List (String × FileImage × Expr)) :
    Except Failure Source := do
  let fragments ← buffers.mapM fun (name, image, p) => Fragment.ofBuffer format name image p
  return leaf .memory (← Schema.unify (fragments.map (·.physical))) .true_ fragments

def candidate (filter : Expr) (f : Fragment) : Except Failure (Option (Fragment × Expr)) := do
  let residual ← filter.simplify f.partition
  return if residual.isSatisfiable then some (f, residual) else none

def candidates (filter : Expr) : Source → Except Failure (List (Fragment × Expr))
  | leaf _ _ p fragments => do
    let filter ← filter.simplify p
    if filter.isSatisfiable then fragments.filterMapM (candidate filter) else return []
  | tree _ p sources => do
    let filter ← filter.simplify p
    if filter.isSatisfiable then candidatesOf filter sources else return []
where
  candidatesOf (filter : Expr) : List Source → Except Failure (List (Fragment × Expr))
    | [] => .ok []
    | s :: rest => do
      let first ← candidates filter s
      return first ++ (← candidatesOf filter rest)

end Source

end TableScan
