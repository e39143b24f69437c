import TableScan.CommandLine.Report
import TableScan.Format.Options
import TableScan.Scan.Options
import TableScan.Storage.Disk

namespace TableScan.CommandLine

structure Config : Type where
  storage : StorageConfig
  scan : ScanOptions
  parquet : ParquetOptions
  logLevel : String
  deriving DecidableEq

inductive LogLevel : Type
  | error | warn | info | debug | trace
  deriving DecidableEq

namespace LogLevel

def all : List LogLevel := [error, warn, info, debug, trace]

def name : LogLevel → String
  | error => "ERROR"
  | warn => "WARN"
  | info => "INFO"
  | debug => "DEBUG"
  | trace => "TRACE"

def parse? (s : String) : Option LogLevel :=
  match Text.unsigned? s.toList with
  | some n => if n = 0 then none else all[n - 1]?
  | none => all.find? fun l => l.name = String.ofList (s.toList.map Char.toUpper)

end LogLevel

namespace Config

def default_ : Config := ⟨⟨.directory ".", 2⟩, .default_, .default_, "warn"⟩

def json (c : Config) : Json :=
  .obj [("filesystem", c.storage.json), ("scan", c.scan.json), ("parquet", c.parquet.json),
    ("logLevel", .str c.logLevel)]

def reader : Json.Reader Config :=
  .record "LauncherConfig" [
    ⟨"filesystem", fun c => do return { c with storage := ← StorageConfig.reader }⟩,
    ⟨"scan", fun c => do return { c with scan := ← ScanOptions.reader }⟩,
    ⟨"parquet", fun c => do return { c with parquet := ← ParquetOptions.reader }⟩,
    ⟨"logLevel", fun c => do return { c with logLevel := ← .str }⟩] default_

def load (d : Disk) (path : String) : Except Report Config :=
  match d.readText path with
  | .error fault =>
    .error ((Report.plain fault.message).within ("failed to read config file '" ++ path ++ "'"))
  | .ok text =>
    (reader.run text).mapError fun reason =>
      (Report.plain reason).within ("invalid config file '" ++ path ++ "'")

def level (c : Config) : Nat → Except Report LogLevel
  | 0 =>
    match LogLevel.parse? c.logLevel with
    | some l => .ok l
    | none => .error (.plain ("unknown log level '" ++ c.logLevel ++ "'"))
  | 1 => .ok .info
  | 2 => .ok .debug
  | _ => .ok .trace

end Config

end TableScan.CommandLine
