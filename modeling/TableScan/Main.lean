import TableScan.CommandLine.Run

open TableScan

partial def filesAt (place : String) (entry : IO.FS.DirEntry) : IO (List (String × FileImage)) := do
  let path := place ++ entry.fileName
  if ← entry.path.isDir then
    let below ← (← entry.path.readDir).toList.mapM (filesAt (path ++ "/"))
    return below.flatten
  else return [(path, .raw (← IO.FS.readBinFile entry.path).toList)]

def workingDirectory : IO Disk := do
  let files ← (← (← IO.currentDir).readDir).toList.mapM (filesAt "")
  return .ofFiles files.flatten

def main (args : List String) : IO UInt32 := do
  match CommandLine.run (← workingDirectory) args with
  | .printed lines =>
    lines.forM IO.println
    return 0
  | .misused =>
    IO.eprintln "usage: strata inspect|scan <root> [options]"
    return 2
  | .failed r =>
    IO.eprintln ("Error: " ++ r.message)
    r.causes.forM fun cause => IO.eprintln ("  caused by: " ++ cause)
    return 1
