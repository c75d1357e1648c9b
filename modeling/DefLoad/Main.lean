import DefLoad.CommandLine

/-!
The program: reads the files that its arguments name, runs on them, and prints.
-/

namespace DefLoad

/-- What stands at a path, without the contents of files. -/
partial def outline (path : String) : IO FileTree := do
  if ← (System.mkFilePath [path]).isDir then
    let mut tree := FileTree.folder []
    for entry in ← (System.mkFilePath [path]).readDir do
      tree := (← outline (FileTree.join path entry.fileName)).put [entry.fileName] tree
    return tree
  else return .file ByteArray.empty

def readFile? (path : String) : IO (Option FileTree) := do
  try return some (.file (← IO.FS.readBinFile path))
  catch _ => return none

/-- Reads a file, or a folder and the definition files below it. -/
def readPath (path : String) : IO (List (String × FileTree)) := do
  match ← outline path with
  | .folder entries =>
    let files ← (FileTree.sourcesBelow path (.folder entries)).mapM fun p =>
      return (p, ← readFile? p)
    return (path, .folder entries) :: files.filterMap fun (p, t) => t.map (p, ·)
  | .file _ => return ((← readFile? path).map (path, ·)).toList

def readDisk (r : CommandLine.Request) : IO Disk := do
  let found ← (r.config.toList ++ r.paths ++ r.patches).mapM readPath
  return FileTree.diskOf fun path => found.flatten.lookup path

end DefLoad

open DefLoad CommandLine in
def main (args : List String) : IO UInt32 := do
  let disk ← match parse args with
    | some (.resolve r) => readDisk r
    | _ => pure (FileTree.disk default)
  match run Core.table disk args with
  | .error e =>
    IO.eprintln e.message
    return e.code
  | .ok p =>
    IO.print p.text
    p.summary?.forM IO.eprintln
    return p.code
