import TableScan.CommandLine.Arguments
import TableScan.CommandLine.Config
import TableScan.CommandLine.Filter
import TableScan.CommandLine.Table
import TableScan.Scan.Results

namespace TableScan.CommandLine

inductive Outcome : Type
  | printed : List String → Outcome
  | misused
  | failed : Report → Outcome
  deriving DecidableEq

def version : String := "strata 0.1.0"

def doing {α : Type} (context : String) (result : Except Failure α) : Except Report α :=
  result.mapError fun e => (Report.ofFailure e).within context

def formatOf (c : Config) : FormatName → Format
  | .parquet => .parquet c.parquet
  | .ipc => .ipc

def openDataset (d : Disk) (c : Config) (a : DatasetArguments) :
    Except Report (FileAccess × Dataset) := do
  let files ← (c.storage.build d).mapError fun e =>
    (Report.ofStorage e).within "failed to create filesystem"
  let access := files.storage.access
  let partitioning ← parsePartitioning a.partitioning a.strict
  let options := { DiscoveryOptions.default_ with
    partitioning := partitioning
    excludeInvalid := a.excludeInvalid }
  let dataset ← doing ("failed to discover dataset at '" ++ a.root ++ "'")
    (Dataset.discover access a.root (formatOf c a.format) options).result
  return (access, dataset)

def fieldLine (f : Field) : String :=
  "  " ++ f.name ++ ": " ++ f.type.text ++ if f.nullable then "" else " not null"

def fragmentLine (f : Fragment) : String := "  " ++ f.path ++ "  [" ++ f.partition.text ++ "]"

def inspect (d : Disk) (c : Config) (a : DatasetArguments) : Except Report (List String) := do
  let (_, dataset) ← openDataset d c a
  return ["schema:"] ++ dataset.schema.map fieldLine ++ ["fragments:"] ++
    dataset.fragments.map fragmentLine

def scanOptions (c : Config) (a : ScanArguments) : ScanOptions where
  batchSize := a.batchSize.getD c.scan.batchSize
  useThreads := c.scan.useThreads && !a.serial
  parallelism := (a.threads.map .threads).getD c.scan.parallelism
  order := if a.unordered then .unordered else c.scan.order

/-- Batches up to a number of rows, of which some were taken. What comes behind them is not looked
at. -/
def upTo (limit : Option Nat) : Nat → Batches → Except Failure (List Batch)
  | _, [] => .ok []
  | taken, item :: rest =>
    match limit with
    | none => do
      let b ← item
      return b :: (← upTo none (taken + b.rows) rest)
    | some n =>
      if n ≤ taken then .ok []
      else do
        let b ← item
        let count := min b.rows (n - taken)
        return b.slice 0 count :: (← upTo (some n) (taken + count) rest)

def printed (batches : List Batch) : Except Report (List String) :=
  (Table.render batches).mapError fun e => .plain e.message

def scan (d : Disk) (c : Config) (a : ScanArguments) : Except Report (List String) := do
  let (access, dataset) ← openDataset d c a.dataset
  let filter ← parseFilters dataset.schema a.filters
  let s ← doing "invalid scan" (Scan.build dataset ⟨filter, a.columns, scanOptions c a⟩)
  if a.count then
    let n ← (s.countRows access).result.mapError Report.ofFailure
    return [toString n]
  let tasks ← s.plan.mapError Report.ofFailure
  let results := ScanResults.start access s.options.mode tasks
  let batches ← (upTo a.limit 0 results.rest).mapError Report.ofFailure
  printed batches

def execute (d : Disk) (i : Invocation) : Except Report (List String) := do
  let c ← (i.config.map (Config.load d)).getD (.ok .default_)
  let _ ← c.level i.verbose
  match i.command with
  | .inspect a => inspect d c a
  | .scan a => scan d c a

def run (d : Disk) (args : List String) : Outcome :=
  match Invocation.parse args with
  | .error .usage => .misused
  | .error .help => .printed []
  | .error .version => .printed [version]
  | .ok i =>
    match execute d i with
    | .ok lines => .printed lines
    | .error r => .failed r

end TableScan.CommandLine
