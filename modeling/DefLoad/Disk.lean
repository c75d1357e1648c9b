import DefLoad.Config

/-!
Files as a load sees them: texts by path, and the definition files below a folder in the order of
their paths.
-/

namespace DefLoad

/-- What can be asked of a file system. -/
structure Disk where
  /-- The text of a file; a folder, a missing file and a file that is not UTF-8 have none. -/
  readText : String → Option String
  isFolder : String → Bool
  /-- The definition files at or below a path, if something is there. -/
  sources : String → Option (List String)

/-- Reads settings from a file. -/
def Config.readFrom (disk : Disk) (path : String) : Except ConfigError Config :=
  match disk.readText path with
  | none => .error (.unreadable path)
  | some text => Config.parse text

inductive FileTree
  | file (content : ByteArray)
  | folder (entries : List (String × FileTree))

namespace FileTree

instance : Inhabited FileTree := ⟨folder []⟩

def insertByName (name : String) (t : FileTree) :
    List (String × FileTree) → List (String × FileTree)
  | [] => [(name, t)]
  | (n, u) :: es =>
    if name = n then (n, t) :: es
    else if name < n then (name, t) :: (n, u) :: es
    else (n, u) :: insertByName name t es

/-- Puts a tree at a path, making folders on the way. Entries are kept in the order of names. -/
def put (t : FileTree) : List String → FileTree → FileTree
  | [], _ => t
  | name :: path, folder entries =>
    folder (insertByName name (put t path ((entries.lookup name).getD (folder []))) entries)
  | _ :: _, file content => file content

def components (path : String) : List String := path.splitOn "/"

/-- Follows a path. The folders above the current place are kept for `..`; an empty component and a
dot stay in place, which only a folder allows. -/
def follow : List FileTree → FileTree → List String → Option FileTree
  | _, t, [] => some t
  | above, folder entries, c :: cs =>
    if c = "" ∨ c = "." then follow above (folder entries) cs
    else if c = ".." then
      match above with
      | [] => none
      | t :: above => follow above t cs
    else (entries.lookup c).bind fun t => follow (folder entries :: above) t cs
  | _, file _, _ :: _ => none

/-- The tree at a relative path. -/
def at? (root : FileTree) (path : String) : Option FileTree :=
  if path = "" ∨ path.startsWith "/" then none else follow [] root (components path)

/-- A name with the extension of definition files, and not only that extension. -/
def isSourceName (name : String) : Bool :=
  let cs := name.toList
  ".kdl".toList.isSuffixOf cs && 4 < cs.length

/-- A path inside a folder. -/
def join (path name : String) : String :=
  if path.endsWith "/" then path ++ name else path ++ "/" ++ name

mutual

/-- The definition files below a folder, folder by folder in the order of names. -/
def sourcesBelow (path : String) : FileTree → List String
  | file _ => []
  | folder entries => sourcesOf path entries

def sourcesOf (path : String) : List (String × FileTree) → List String
  | [] => []
  | (name, t) :: es =>
    let here := match t with
      | file _ => if isSourceName name then [join path name] else []
      | folder _ => []
    here ++ sourcesBelow (join path name) t ++ sourcesOf path es

end

def lastName (path : String) : String := (components path).getLastD ""

/-- The file system in which a path leads where `find` says. -/
def diskOf (find : String → Option FileTree) : Disk where
  readText path :=
    match find path with
    | some (file content) => String.fromUTF8? content
    | _ => none
  isFolder path :=
    match find path with
    | some (folder _) => true
    | _ => false
  sources path :=
    match find path with
    | some (folder entries) => some (sourcesBelow path (folder entries))
    | some (file _) => some (if isSourceName (lastName path) then [path] else [])
    | none => none

/-- The file system whose working folder is the given tree. -/
def disk (root : FileTree) : Disk := diskOf root.at?

end FileTree

end DefLoad
