import TableScan.Format.Image
import TableScan.Path
import TableScan.Text.Percent

/-!
Storage of files under paths. Paths are stored with some characters percent-encoded, and listed as
they are stored; opening a path encodes it. Stores that are reached over a network are left out.
-/

namespace TableScan

structure FileInfo : Type where
  path : String
  size : Nat
  deriving DecidableEq

def FileInfo.baseName (f : FileInfo) : String := Path.baseName f.path

structure Traffic : Type where
  lists : Nat
  opens : Nat
  reads : Nat
  bytesRead : Nat
  errors : Nat
  deriving DecidableEq

namespace Traffic

def none_ : Traffic := ⟨0, 0, 0, 0, 0⟩

def listed : Traffic := { none_ with lists := 1 }

def opened : Traffic := { none_ with opens := 1 }

def read (bytes : Nat) : Traffic := { none_ with reads := 1, bytesRead := bytes }

def failed : Traffic := { none_ with errors := 1 }

def add (a b : Traffic) : Traffic :=
  ⟨a.lists + b.lists, a.opens + b.opens, a.reads + b.reads, a.bytesRead + b.bytesRead,
    a.errors + b.errors⟩

instance : Add Traffic := ⟨add⟩

end Traffic

/-- Where files are kept: in memory, or in directories that stay when their files go. -/
inductive Backend : Type
  | memory | directories
  deriving DecidableEq

structure Storage : Type where
  backend : Backend
  files : List (String × FileImage)
  directories : List String

/-- An open file: the path it was opened by, where it is kept, and how long it was then. -/
structure Handle : Type where
  display : String
  location : String
  size : Nat
  deriving DecidableEq

namespace Storage

def empty (backend : Backend) : Storage := ⟨backend, [], []⟩

def isStorable (c : Char) : Bool :=
  32 ≤ c.toNat && c.toNat < 127 && !("\\\x7b^\x7d%`]\">[~<#|*?".toList.contains c)

/-- A part of a path as it is stored; the parts that would lead elsewhere are encoded too. -/
def encodePart (part : String) : String :=
  if part = "." then "%2E"
  else if part = ".." then "%2E%2E"
  else Text.Percent.encode isStorable part

def locate (path : String) : String := "/".intercalate ((Path.parts path).map encodePart)

def find? (s : Storage) (location : String) : Option FileImage := s.files.lookup location

def missing (path : String) : StorageError :=
  ⟨.notFound, "'" ++ path ++ "' does not exist",
    some ("Object at location " ++ path ++ " not found")⟩

def refused (path : String) : StorageError :=
  ⟨.io, "object store operation on '" ++ path ++ "' failed", some "operation refused"⟩

def ancestors (location : String) : List String :=
  let parts := Path.parts location
  (List.range parts.length).map fun n => "/".intercalate (parts.take n)

def isBlocked (s : Storage) (location : String) : Bool :=
  -- a file stands where a directory would have to be
  s.backend = .directories && (ancestors location).any fun d => (s.find? d).isSome

def isDirectory (s : Storage) (location : String) : Bool :=
  s.backend = .directories && (location = "" || s.directories.contains location)

def insert (s : Storage) (location : String) (f : FileImage) : Storage :=
  { s with
    files := (location, f) :: s.files.filter (·.1 ≠ location)
    directories := (s.directories ++ ancestors location).eraseDups }

def put (s : Storage) (path : String) (f : FileImage) : Except StorageError Storage :=
  let location := locate path
  if s.isBlocked location || s.isDirectory location then .error (refused path)
  else .ok (s.insert location f)

def delete (s : Storage) (path : String) : Except StorageError Storage :=
  let location := locate path
  if s.isBlocked location || s.isDirectory location then .error (refused path)
  -- in memory, deleting what is not there succeeds
  else if s.backend = .directories ∧ (s.find? location).isNone then .error (missing path)
  else .ok { s with files := s.files.filter (·.1 ≠ location) }

def isBelow (directory location : String) : Bool :=
  if directory = "" then location ≠ "" else (Path.below? directory location).isSome

def list (s : Storage) (root : String) : Except StorageError (List FileInfo) :=
  let directory := locate root
  if s.isBlocked directory then .error (refused root)
  else
    let found := s.files.filter fun (location, _) => isBelow directory location
    .ok ((found.map fun (location, f) => ⟨location, f.size⟩).mergeSort
      fun a b => compare a.path b.path != .gt)

def openFile (s : Storage) (path : String) : Except StorageError Handle :=
  let location := locate path
  if s.isBlocked location then .error (refused path)
  else
    match s.find? location with
    | some f => .ok ⟨path, location, f.size⟩
    | none => .error (missing path)

end Storage

def outOfBounds (start stop : Nat) (file : String) (size : Nat) : StorageError :=
  ⟨.io, s!"range {start}..{stop} out of bounds for {file} of {size} bytes", none⟩

def readBuffer (name : String) (data : List UInt8) (start stop : Nat) :
    Except StorageError (List UInt8) :=
  if stop < start ∨ data.length < stop then
    .error (outOfBounds start stop ("buffer '" ++ name ++ "'") data.length)
  else .ok ((data.drop start).take (stop - start))

namespace Handle

def admits (h : Handle) (start stop : Nat) : Bool := start ≤ stop && stop ≤ h.size

def read (h : Handle) (s : Storage) (start stop : Nat) : Except StorageError (List UInt8) :=
  if !h.admits start stop then
    .error (outOfBounds start stop ("'" ++ h.display ++ "'") h.size)
  else if start = stop then .ok []
  else
    match s.find? h.location with
    | none => .error (Storage.missing h.display)
    | some f =>
      if f.size ≤ start then .error (Storage.refused h.display)
      else .ok ((f.bytes.drop start).take (stop - start))

end Handle

end TableScan
