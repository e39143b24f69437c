import TableScan.Storage.Accounted
import TableScan.Storage.FileSystem

namespace TableScan

structure OpenFile : Type where
  path : String
  image : FileImage
  readFault : Option StorageError
  /-- Fails the reads that begin where the columns do, right behind the opening mark. -/
  columnFault : Option StorageError

namespace OpenFile

def ofImage (path : String) (image : FileImage) : OpenFile := ⟨path, image, none, none⟩

end OpenFile

structure FileAccess : Type where
  list : String → Accounted (List FileInfo)
  openFile : String → Accounted OpenFile

namespace Storage

def listed (s : Storage) (root : String) : Accounted (List FileInfo) :=
  match s.list root with
  | .ok files => ⟨.listed, .ok files⟩
  | .error e => ⟨.failed, .error e⟩

def opened (s : Storage) (path : String) : Accounted OpenFile :=
  match s.openFile path with
  | .error e => ⟨.failed, .error e⟩
  | .ok h =>
    match s.find? h.location with
    | some image => ⟨.opened, .ok (.ofImage path image)⟩
    | none => ⟨.opened, .error (missing path)⟩

def access (s : Storage) : FileAccess := ⟨s.listed, s.opened⟩

end Storage

end TableScan
