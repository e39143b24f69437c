import TableScan.Storage

namespace TableScan

structure FileSystem : Type where
  storage : Storage
  traffic : Traffic

namespace FileSystem

def typeName : String := "object_store"

def ofStorage (s : Storage) : FileSystem := ⟨s, .none_⟩

def count (fs : FileSystem) (t : Traffic) : FileSystem := { fs with traffic := fs.traffic + t }

def answer {α : Type} (fs : FileSystem) (done : α → Traffic) :
    Except StorageError α → Except StorageError α × FileSystem
  | .ok a => (.ok a, fs.count (done a))
  | .error e => (.error e, fs.count .failed)

def put (fs : FileSystem) (path : String) (f : FileImage) : Except StorageError Unit × FileSystem :=
  match fs.storage.put path f with
  | .ok s => (.ok (), { fs with storage := s })
  | .error e => (.error e, fs.count .failed)

def delete (fs : FileSystem) (path : String) : Except StorageError Unit × FileSystem :=
  match fs.storage.delete path with
  | .ok s => (.ok (), { fs with storage := s })
  | .error e => (.error e, fs.count .failed)

def list (fs : FileSystem) (root : String) : Except StorageError (List FileInfo) × FileSystem :=
  fs.answer (fun _ => .listed) (fs.storage.list root)

def openFile (fs : FileSystem) (path : String) : Except StorageError Handle × FileSystem :=
  fs.answer (fun _ => .opened) (fs.storage.openFile path)

def read (fs : FileSystem) (h : Handle) (start stop : Nat) :
    Except StorageError (List UInt8) × FileSystem :=
  if !h.admits start stop || start = stop then (h.read fs.storage start stop, fs)
  else fs.answer (fun bytes => .read bytes.length) (h.read fs.storage start stop)

/-- Requests wait for their answer, which cannot be done where waiting would stop other work. -/
def notWaiting : StorageError :=
  ⟨.internal, "object store filesystem cannot be driven from within an async runtime", none⟩

end FileSystem

end TableScan
