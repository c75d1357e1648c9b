import DefLoad.Database
import DefLoad.Disk
import DefLoad.Kdl.Writer
import DefLoad.Master
import DefLoad.Parsers.Standard

/-!
A load in progress. Sources are added first; inheritance is resolved when the last one is in, or at
the first patch; then patches change the tree.
-/

namespace DefLoad

inductive LoadError
  | outOfOrder (reason : String)
  | unreadable (path : String)
  | badDocument (origin : String) (error : DocumentError)
deriving DecidableEq, Repr

def LoadError.message : LoadError → String
  | outOfOrder reason => s!"load stage out of order: {reason}"
  | unreadable path => s!"I/O error reading {path}"
  | badDocument origin error => s!"cannot read document '{origin}': {error.message}"

/-- Whether a load replaces all defs or fills those that it finds again. -/
inductive LoadMode
  | fresh
  | reload
deriving DecidableEq, Repr

structure Session where
  db : Database
  config : Config
  mode : LoadMode
  /-- No more sources are taken. -/
  closed : Bool
  master : Master
  parsers : List Parser
  diagnostics : Diagnostics

namespace Session

def start (db : Database) (config : Config) (mode : LoadMode) : Session where
  db := if mode = .fresh then db.clear else db
  config := config
  mode := mode
  closed := false
  master := Master.empty config.listItem
  parsers := Parsers.standard
  diagnostics := []

/-- The result of a call and the session after it; a failed call may have done part of its work. -/
abbrev Call (α : Type) := Except LoadError α × Session

def addParser (s : Session) (p : Parser) : Session := { s with parsers := s.parsers ++ [p] }

def found (s : Session) (ds : Diagnostics) : Session :=
  { s with diagnostics := s.diagnostics ++ ds }

/-- Adds the nodes of a document; gives their number. -/
def addDocument (s : Session) (d : Document) (source : String) : Call Nat :=
  if s.closed then (.error (.outOfOrder "documents must be appended before finish_adding_defs"), s)
  else
    (.ok (Master.contribution d source).length,
      { s with master := s.master.add d source }.found (Master.addDiagnostics d source))

/-- Reads the text first, so that a malformed one is reported as such at any time. -/
def addText (s : Session) (text source : String) : Call Nat :=
  match Document.parse text with
  | .error e => (.error (.badDocument source e), s)
  | .ok d => s.addDocument d source

def addFile (disk : Disk) (s : Session) (path : String) : Call Nat :=
  if s.closed then (.error (.outOfOrder "files must be appended before finish_adding_defs"), s)
  else
    match disk.readText path with
    | none => (.error (.unreadable path), s)
    | some text => s.addText text path

/-- Adds files up to the first one that fails. -/
def addFiles (disk : Disk) (s : Session) : List String → Call Unit
  | [] => (.ok (), s)
  | path :: paths =>
    match addFile disk s path with
    | (.error e, s) => (.error e, s)
    | (.ok _, s) => addFiles disk s paths

/-- Adds all definition files of a folder; gives their number. -/
def addFolder (disk : Disk) (s : Session) (path : String) : Call Nat :=
  if s.closed then
    (.error (.outOfOrder "directories must be appended before finish_adding_defs"), s)
  else
    match disk.sources path with
    | none => (.error (.unreadable path), s)
    | some files =>
      match addFiles disk s files with
      | (.error e, s) => (.error e, s)
      | (.ok (), s) => (.ok files.length, s)

/-- Closes the stage of sources and resolves inheritance, once. -/
def close (s : Session) : Session :=
  if s.closed then s
  else
    { s with master := s.master.resolve, closed := true }.found s.master.resolveDiagnostics

theorem close_closed (s : Session) : s.close.closed = true := by
  unfold close found; split <;> simp_all

theorem close_close (s : Session) : s.close.close = s.close := by
  rw [close, if_pos (close_closed s)]

end Session

end DefLoad
