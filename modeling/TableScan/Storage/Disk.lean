import TableScan.Storage.FileSystem
import TableScan.Json.Record

namespace TableScan

inductive ReadFault : Type
  | absent | directory | notDirectory | encoding
  deriving DecidableEq

def ReadFault.message : ReadFault → String
  | absent => "No such file or directory (os error 2)"
  | directory => "Is a directory (os error 21)"
  | notDirectory => "Not a directory (os error 20)"
  | encoding => "stream did not contain valid UTF-8"

/-- Files of the working directory, under the names that they have there. -/
structure Disk : Type where
  storage : Storage

namespace Disk

def ofFiles (files : List (String × FileImage)) : Disk :=
  ⟨files.foldl (fun s (path, f) => s.insert path f) (.empty .directories)⟩

def ofDirectory (name : String) : Disk :=
  ⟨{ Storage.empty .directories with directories := [name] }⟩

def readText (d : Disk) (path : String) : Except ReadFault String :=
  match Path.resolve? path with
  | none => .error .absent
  | some location =>
    if d.storage.isDirectory location then .error .directory
    else if d.storage.isBlocked location then .error .notDirectory
    else
      match d.storage.find? location with
      | none => .error .absent
      | some f =>
        if path.toList.getLast? = some '/' then .error .notDirectory
        else (Text.decode f.bytes).mapError fun _ => .encoding

def below? (d : Disk) (root : String) : Option Storage := do
  let location ← Path.resolve? root
  if location = "" then return d.storage
  if !d.storage.isDirectory location then none
  return {
    backend := .directories
    files := d.storage.files.filterMap fun (path, f) =>
      (Path.below? location path).map fun path => (path, f)
    directories := d.storage.directories.filterMap (Path.below? location) }

end Disk

inductive BackendConfig : Type
  | memory
  | directory : String → BackendConfig
  deriving DecidableEq

namespace BackendConfig

def json : BackendConfig → Json
  | memory => .obj [("type", .str "memory")]
  | directory root => .obj [("type", .str "localFileSystem"), ("rootPath", .str root)]

open Json (Reader)

def kinds : List (Json.Variant Bool) := [.plain "memory" false, .plain "localFileSystem" true]

def kind : Reader Bool := do
  match ← Reader.variantName kinds with
  | .plain _ rooted => return rooted
  | .holding _ r => r

def tagged : Reader (Bool × Json) := do
  match ← Reader.peek with
  | some '\x7b' => .enclosed '\x7d' do
    .advance
    let (rooted, settings) ← members (← .fuel) true none
    match rooted with
    | some rooted => return (rooted, .obj settings)
    | none => .failAround (Json.missingField "type")
  | some '[' => .enclosed ']' do
    .advance
    if !(← Reader.hasElement true) then .failAround (Json.missingField "type")
    let rooted ← kind
    return (rooted, .arr (← Reader.listFrom .anyValue (← .fuel) false))
  | _ => .unexpected "internally tagged enum FileSystemBackend"
where
  members : Nat → Bool → Option Bool → Reader (Option Bool × List (String × Json))
    | 0, _, _ => .fail (Reader.endedIn "an object")
    | fuel + 1, first, rooted => do
      if !(← Reader.hasMember first) then
        .advance
        return (rooted, [])
      let name ← Reader.key
      if name = "type" then
        if rooted.isSome then .failAround (Json.duplicateField "type")
        .colon
        members fuel false (some (← kind))
      else
        .colon
        let j ← Reader.anyValue
        let (rooted, rest) ← members fuel false rooted
        return (rooted, (name, j) :: rest)

def root : Json → Reader String
  | .str s => return s
  | j => .failAround (Json.mismatch j.shown "a string")

def ofSettings (rooted : Bool) (settings : Json) : Reader BackendConfig :=
  match rooted, settings with
  | false, .arr (j :: js) => extra (j :: js).length 0
  | false, _ => return memory
  | true, .arr [] =>
    .failAround ("invalid length 0, expected struct variant " ++
      "FileSystemBackend::LocalFileSystem with 1 element")
  | true, .arr [j] => directory <$> root j
  | true, .arr (j :: js) => do
    let _ ← root j
    extra (j :: js).length 1
  | true, .obj ms =>
    match ms.filter (·.1 = "rootPath") with
    | [] => .failAround (Json.missingField "rootPath")
    | [(_, j)] => directory <$> root j
    | (_, j) :: _ => do
      let _ ← root j
      .failAround (Json.duplicateField "rootPath")
  | true, j =>
    .failAround (Json.mismatch j.shown "struct variant FileSystemBackend::LocalFileSystem")
where
  extra (found expected : Nat) : Reader BackendConfig :=
    .failAround ("invalid length " ++ toString found ++ ", expected " ++ toString expected ++
      (if expected = 1 then " element" else " elements") ++ " in sequence")

def reader : Reader BackendConfig := do
  let (rooted, settings) ← tagged
  ofSettings rooted settings

end BackendConfig

structure StorageConfig : Type where
  backend : BackendConfig
  ioThreads : Nat
  deriving DecidableEq

namespace StorageConfig

def default_ : StorageConfig := ⟨.memory, 2⟩

def json (c : StorageConfig) : Json :=
  .obj [("backend", c.backend.json), ("ioThreads", .int c.ioThreads)]

def reader : Json.Reader StorageConfig :=
  .record "FileSystemConfig" [
    ⟨"backend", fun c => do return { c with backend := ← BackendConfig.reader }⟩,
    ⟨"ioThreads", fun c => do return { c with ioThreads := ← .size }⟩] default_

def unopened (root : String) : StorageError :=
  ⟨.configuration, "Failed to open local filesystem at '" ++ root ++ "'", some "no such directory"⟩

def noThreads : StorageError := ⟨.configuration, "io_threads must be positive", none⟩

def storage (d : Disk) : BackendConfig → Except StorageError Storage
  | .memory => .ok (.empty .memory)
  | .directory root =>
    match d.below? root with
    | some s => .ok s
    | none => .error (unopened root)

def build (d : Disk) (c : StorageConfig) : Except StorageError FileSystem := do
  let s ← storage d c.backend
  if c.ioThreads = 0 then throw noThreads
  return .ofStorage s

end StorageConfig

end TableScan
