import TableScan.Dataset.Discovery

namespace TableScan

structure Dataset : Type where
  sources : List Source
  schema : Schema

namespace Dataset

def ofSources (sources : List Source) : Except Failure Dataset := do
  return ⟨sources, ← Schema.unify (sources.map (·.schema))⟩

def fragments (d : Dataset) : List Fragment := d.sources.flatMap (·.fragments)

def discover (access : FileAccess) (root : String) (format : Format) (options : DiscoveryOptions) :
    Accounted Dataset := do
  let found ← Discovery.inspect ⟨.ofRoot root, format, options⟩ access
  return ⟨[found.source], found.schema⟩

end Dataset

end TableScan
