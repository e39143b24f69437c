import TableScan.Source
import TableScan.Partition.Discovery

namespace TableScan

inductive Selector : Type
  | below : String → Selector
  | files : List String → Selector
  deriving DecidableEq

namespace Selector

def ofRoot (root : String) : Selector := below (Path.trim root)

def ofFiles (paths : List String) : Selector := files (paths.map Path.trim)

def root : Selector → String
  | below root => root
  | files _ => ""

def paths (access : FileAccess) : Selector → Accounted (List String)
  | below root => do return (← access.list root).map (·.path)
  | files paths => pure paths

end Selector

structure DiscoveryOptions : Type where
  baseDirectory : Option String
  partitioning : Partitioning
  ignorePrefixes : List String
  excludeInvalid : Bool
  schema : Option Schema

namespace DiscoveryOptions

def default_ : DiscoveryOptions := ⟨none, .scheme .none_, [".", "_"], false, none⟩

end DiscoveryOptions

structure Inspection : Type where
  fragments : List Fragment
  schema : Schema

structure Discovery : Type where
  selector : Selector
  format : Format
  options : DiscoveryOptions

namespace Discovery

variable (d : Discovery)

def relative (path : String) : String :=
  if d.selector.root = "" then path else (Path.below? d.selector.root path).getD path

def ignores (path : String) : Bool :=
  (Path.split '/' (d.relative path).toList).any fun name =>
    d.options.ignorePrefixes.any fun start => start ≠ "" && start.toList.isPrefixOf name

def base : String :=
  match d.options.baseDirectory with
  | some directory => Path.trim directory
  | none => d.selector.root

/-- The part of a path that has a meaning, if the file lies below the base directory. -/
def partitionPath? (path : String) : Option String :=
  if d.base = "" then some path else Path.below? d.base path

def accepts (access : FileAccess) (path : String) : Accounted Bool := do
  let file ← access.openFile path
  let supported ← d.format.isSupported file
  if !supported && !d.options.excludeInvalid then
    (throw (.format path d.format.typeName) : Except Failure Unit)
  return supported

def paths (access : FileAccess) : Accounted (List String) := do
  let found ← d.selector.paths access
  (found.filter fun path => !d.ignores path).filterM (d.accepts access)

def partition (scheme : Scheme) (path : String) : Except Failure Expr :=
  match d.partitionPath? path with
  | some path => scheme.parse path
  | none => .ok .true_

def fragment (access : FileAccess) (scheme : Scheme) (path : String) : Accounted Fragment := do
  let partition ← d.partition scheme path
  let file ← access.openFile path
  let physical ← d.format.inspect file
  return ⟨.stored path, d.format, partition, physical⟩

/-- The schema of the files with the fields of the scheme behind it, unless one was given. -/
def schemaOf (scheme : Scheme) (fragments : List Fragment) : Except Failure Schema :=
  match d.options.schema with
  | some schema => .ok schema
  | none => do
    (← Schema.unify (fragments.map (·.physical))).appendPartition scheme.schema

def inspect (access : FileAccess) : Accounted Inspection := do
  let paths ← d.paths access
  let scheme ← d.options.partitioning.resolve (paths.filterMap d.partitionPath?)
  let fragments ← paths.mapM (d.fragment access scheme)
  return ⟨fragments, ← d.schemaOf scheme fragments⟩

end Discovery

namespace Inspection

def source (i : Inspection) : Source := .leaf .filesystem i.schema .true_ i.fragments

end Inspection

/-- A discovery that keeps what it finds. -/
structure KeptDiscovery : Type where
  discovery : Discovery
  found? : Option Inspection

namespace KeptDiscovery

def start (d : Discovery) : KeptDiscovery := ⟨d, none⟩

def inspection (k : KeptDiscovery) (access : FileAccess) : Accounted Inspection × KeptDiscovery :=
  match k.found? with
  | some found => (pure found, k)
  | none =>
    let found := k.discovery.inspect access
    (found, { k with found? := found.result.toOption })

def inspect (k : KeptDiscovery) (access : FileAccess) : Accounted Schema × KeptDiscovery :=
  let (found, k) := k.inspection access
  ((·.schema) <$> found, k)

def finish (k : KeptDiscovery) (access : FileAccess) : Accounted Source × KeptDiscovery :=
  let (found, k) := k.inspection access
  ((·.source) <$> found, k)

end KeptDiscovery

end TableScan
