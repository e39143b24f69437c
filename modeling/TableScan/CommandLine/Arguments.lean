import TableScan.Arithmetic
import TableScan.Text.Integer
import TableScan.Path

/-! Arguments of a command line: options, which may stand anywhere, and what they are about. -/

open scoped TableScan.Arithmetic

namespace TableScan.CommandLine

inductive FormatName : Type
  | parquet | ipc
  deriving DecidableEq

def FormatName.ofText? : String → Option FormatName
  | "parquet" => some parquet
  | "ipc" => some ipc
  | _ => none

structure DatasetArguments : Type where
  root : String
  format : FormatName
  partitioning : String
  strict : Bool
  excludeInvalid : Bool
  deriving DecidableEq

structure ScanArguments : Type where
  dataset : DatasetArguments
  filters : List String
  columns : Option (List String)
  batchSize : Option Nat
  threads : Option Nat
  unordered : Bool
  serial : Bool
  count : Bool
  limit : Option Nat
  deriving DecidableEq

inductive Command : Type
  | inspect : DatasetArguments → Command
  | scan : ScanArguments → Command
  deriving DecidableEq

structure Invocation : Type where
  verbose : Nat
  config : Option String
  command : Command
  deriving DecidableEq

inductive Refusal : Type
  | usage | help | version
  deriving DecidableEq

inductive Arity : Type
  | flag | count | value | values
  deriving DecidableEq

structure OptionSpec : Type where
  long : String
  short : Option Char
  arity : Arity
  admits : String → Bool

namespace OptionSpec

def any : String → Bool := fun _ => true

def size? (s : String) : Option Nat :=
  (Text.unsigned? s.toList).bind fun n => if n < 2 ^ (64 : Nat) then some n else none

def common : List OptionSpec :=
  [⟨"verbose", some 'v', .count, any⟩, ⟨"config", none, .value, (· ≠ "")⟩]

def dataset : List OptionSpec :=
  common ++ [⟨"format", none, .value, fun s => (FormatName.ofText? s).isSome⟩,
    ⟨"partitioning", none, .value, any⟩, ⟨"strict", none, .flag, any⟩,
    ⟨"exclude-invalid", none, .flag, any⟩]

def scan : List OptionSpec :=
  let number : String → Bool := fun s => (size? s).isSome
  dataset ++ [⟨"filter", none, .values, any⟩, ⟨"columns", none, .values, any⟩,
    ⟨"batch-size", none, .value, number⟩, ⟨"threads", none, .value, number⟩,
    ⟨"unordered", none, .flag, any⟩, ⟨"serial", none, .flag, any⟩, ⟨"count", none, .flag, any⟩,
    ⟨"limit", none, .value, number⟩]

end OptionSpec

structure Parsed : Type where
  options : List (String × String)
  operands : List String
  deriving DecidableEq

namespace Parsed

def empty : Parsed := ⟨[], []⟩

def valuesOf (p : Parsed) (name : String) : List String :=
  p.options.filterMap fun (n, v) => if n = name then some v else none

def value? (p : Parsed) (name : String) : Option String := (p.valuesOf name).head?

def has (p : Parsed) (name : String) : Bool := p.valuesOf name ≠ []

def number? (p : Parsed) (name : String) : Option Nat := (p.value? name).bind OptionSpec.size?

def add (p : Parsed) (o : OptionSpec) (value : String) : Except Refusal Parsed :=
  let once := o.arity = .flag || o.arity = .value
  if (once && p.has o.long) || !o.admits value then .error .usage
  else .ok { p with options := p.options ++ [(o.long, value)] }

end Parsed

def looksLikeOption (s : String) : Bool := s.toList.head? = some '-' && s ≠ "-"

structure Inquiry : Type where
  long : String
  short : Char
  answer : Refusal

structure Grammar : Type where
  options : List OptionSpec
  inquiries : List Inquiry

namespace Grammar

def help : Inquiry := ⟨"help", 'h', .help⟩

def version : Inquiry := ⟨"version", 'V', .version⟩

def program : Grammar := ⟨OptionSpec.common, [help, version]⟩

def inspect : Grammar := ⟨OptionSpec.dataset, [help]⟩

def scan : Grammar := ⟨OptionSpec.scan, [help]⟩

def refuse (g : Grammar) (asks : Inquiry → Bool) : Refusal :=
  ((g.inquiries.find? asks).map (·.answer)).getD .usage

end Grammar

def shortFlags (g : Grammar) : Parsed → List Char → Except Refusal Parsed
  | p, [] => .ok p
  | p, c :: rest =>
    match g.options.find? fun o => o.short = some c with
    | some o => do shortFlags g (← p.add o "") rest
    | none => .error (g.refuse fun i => i.short = c)

def parseArguments (g : Grammar) (stop : Bool) :
    Parsed → List String → Except Refusal (Parsed × List String)
  | p, [] => .ok (p, [])
  | p, "--" :: rest => .ok ({ p with operands := p.operands ++ rest }, [])
  | p, arg :: rest =>
    match arg.toList with
    | '-' :: '-' :: name =>
      let (name, attached) := match Path.splitOnce? '=' name with
        | some (name, value) => (String.ofList name, some (String.ofList value))
        | none => (String.ofList name, none)
      match g.options.find? fun o => o.long = name with
      | none => .error (g.refuse fun i => i.long = name && attached.isNone)
      | some o =>
        if o.arity = .flag || o.arity = .count then
          match attached with
          | some _ => .error .usage
          | none => do parseArguments g stop (← p.add o "") rest
        else
          match attached, rest with
          | some value, rest => do parseArguments g stop (← p.add o value) rest
          | none, value :: rest =>
            if looksLikeOption value then .error .usage
            else do parseArguments g stop (← p.add o value) rest
          | none, [] => .error .usage
    | '-' :: c :: flags => do
      parseArguments g stop (← shortFlags g p (c :: flags)) rest
    | _ =>
      if stop then .ok (p, arg :: rest)
      else parseArguments g stop { p with operands := p.operands ++ [arg] } rest

def datasetArguments (p : Parsed) : Except Refusal DatasetArguments :=
  match p.operands with
  | [root] => .ok ⟨root, ((p.value? "format").bind FormatName.ofText?).getD .parquet,
      (p.value? "partitioning").getD "none", p.has "strict", p.has "exclude-invalid"⟩
  | _ => .error .usage

def columnNames (p : Parsed) : Option (List String) :=
  if p.has "columns" then
    some ((p.valuesOf "columns").flatMap fun v => (Path.split ',' v.toList).map String.ofList)
  else none

def scanArguments (p : Parsed) : Except Refusal ScanArguments := do
  return ⟨← datasetArguments p, p.valuesOf "filter", columnNames p, p.number? "batch-size",
    p.number? "threads", p.has "unordered", p.has "serial", p.has "count", p.number? "limit"⟩

def all (g : Grammar) (args : List String) : Except Refusal Parsed := do
  return (← parseArguments g false .empty args).1

/-- The options common to all commands may stand before the command or behind it, where they
prevail. -/
def invocation (before behind : Parsed) (command : Command) : Invocation where
  verbose := if behind.has "verbose" then (behind.valuesOf "verbose").length
    else (before.valuesOf "verbose").length
  config := behind.value? "config" <|> before.value? "config"
  command := command

def helpFor : List String → Refusal
  | [] | ["inspect"] | ["scan"] | ["help"] => .help
  | _ => .usage

def Invocation.parse (args : List String) : Except Refusal Invocation := do
  let (before, rest) ← parseArguments .program true .empty args
  match rest with
  | "inspect" :: rest =>
    let p ← all .inspect rest
    return invocation before p (.inspect (← datasetArguments p))
  | "scan" :: rest =>
    let p ← all .scan rest
    return invocation before p (.scan (← scanArguments p))
  | "help" :: rest => throw (helpFor rest)
  | _ => throw .usage

end TableScan.CommandLine
