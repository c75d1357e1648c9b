import DefLoad.Session.Patches

/-!
The command line: one command that merges sources, resolves inheritance, applies patches and prints
the master tree. It knows the standard types only and makes no defs. Instead of a command, the
version may be asked for.
-/

namespace DefLoad.CommandLine

/-- What is asked for: settings, sources and patch documents, in the order of their use. -/
structure Request where
  config : Option String := none
  paths : List String := []
  patches : List String := []
deriving DecidableEq, Repr

/-- What the arguments ask for. -/
inductive Command
  | showVersion
  | resolve (r : Request)
deriving DecidableEq, Repr

inductive Setting
  | config
  | patches
deriving DecidableEq, Repr

/-- What a single argument is by itself. -/
inductive Argument
  | plain
  /-- All arguments that follow are plain. -/
  | divider
  /-- A setting, with its value if that is part of the argument. -/
  | setting (s : Setting) (value : Option String)
  | version
  | unknown
deriving DecidableEq, Repr

def longSetting : String → Option Setting
  | "config" => some .config
  | "patches" => some .patches
  | _ => none

def shortSetting : Char → Option Setting
  | 'c' => some .config
  | 'p' => some .patches
  | _ => none

/-- The text after an equals sign. -/
def valueAfterEquals : List Char → Option String
  | [] => none
  | _ :: value => some (String.ofList value)

def longArgument (cs : List Char) : Argument :=
  match longSetting (String.ofList (cs.takeWhile (· != '='))) with
  | some s => .setting s (valueAfterEquals (cs.dropWhile (· != '=')))
  | none => if String.ofList cs = "version" then .version else .unknown

/-- The value of a setting of one letter follows at once, also after an equals sign. -/
def attachedValue : List Char → Option String
  | [] => none
  | '=' :: value => some (String.ofList value)
  | value => some (String.ofList value)

def shortArgument (c : Char) (cs : List Char) : Argument :=
  match shortSetting c with
  | some s => .setting s (attachedValue cs)
  | none => if c = 'V' then .version else .unknown

/-- A lone dash is plain. -/
def argument (s : String) : Argument :=
  match s.toList with
  | ['-', '-'] => .divider
  | '-' :: '-' :: cs => longArgument cs
  | '-' :: c :: cs => shortArgument c cs
  | _ => .plain

/-- Paths are never empty, and there is one file of settings. -/
def Request.add (r : Request) (s : Setting) (value : String) : Option Request :=
  if value.isEmpty then none
  else
    match s with
    | .config => if r.config.isSome then none else some { r with config := some value }
    | .patches => some { r with patches := r.patches ++ [value] }

def Request.addPath (r : Request) (path : String) : Option Request :=
  if path.isEmpty then none else some { r with paths := r.paths ++ [path] }

/-- Reads the arguments of the command. -/
def readArguments : List String → Request → Option Request
  | [], r => some r
  | a :: as, r =>
    match argument a with
    | .plain => (r.addPath a).bind (readArguments as)
    | .divider => as.foldlM Request.addPath r
    | .setting s (some value) => (r.add s value).bind (readArguments as)
    | .setting s none =>
      match as with
      | value :: as =>
        if argument value = .plain then (r.add s value).bind (readArguments as) else none
      | [] => none
    | .version => none
    | .unknown => none

/-- The request of a command whose settings were begun before its name. -/
def complete (before after : Request) : Option Request :=
  if after.paths.isEmpty then none else some { after with config := after.config.or before.config }

def commandName : String := "resolve"

/-- Reads what stands before the name of the command, which may be a file of settings, and then the
command. The version is shown as soon as it is asked for, whatever follows. -/
def readCommand : List String → Request → Option Command
  | [], _ => none
  | a :: as, r =>
    match argument a with
    | .plain =>
      if a = commandName then ((readArguments as {}).bind (complete r)).map .resolve else none
    | .setting .config (some value) => (r.add .config value).bind (readCommand as)
    | .setting .config none =>
      match as with
      | value :: as =>
        if argument value = .plain then (r.add .config value).bind (readCommand as) else none
      | [] => none
    | .version => some .showVersion
    | _ => none

def parse (args : List String) : Option Command := readCommand args {}

inductive Failure
  | usage
  | badConfig (path : String) (error : ConfigError)
  | badLoad (error : LoadError)
deriving DecidableEq, Repr

namespace Failure

def message : Failure → String
  | usage => "Usage: defloom [--config FILE] resolve PATH... [--patches PATH]..."
  | badConfig path error => s!"failed to read config {path}: {error.message}"
  | badLoad error => error.message

def code : Failure → UInt32
  | usage => 2
  | badConfig _ _ => 1
  | badLoad _ => 1

end Failure

/-- What is printed: the version, or the master tree and the findings on its way. -/
inductive Printed
  | version
  | master (text : String) (diagnostics : Diagnostics)
deriving DecidableEq, Repr

namespace Printed

def text : Printed → String
  | version => "defloom 0.1.0\n"
  | master text _ => text

/-- The last word about a master tree. -/
def summary? : Printed → Option String
  | version => none
  | master _ diagnostics =>
    let errors := diagnostics.errorCount
    let warnings := diagnostics.length - errors
    some s!"{errors} error(s), {warnings} warning(s)"

def code : Printed → UInt32
  | version => 0
  | master _ diagnostics => if diagnostics.hasErrors then 1 else 0

end Printed

def readConfig (disk : Disk) : Option String → Except Failure Config
  | none => .ok {}
  | some path => (Config.readFrom disk path).mapError (.badConfig path)

/-- Adds a folder or a file. -/
def appendPath (disk : Disk) (s : Session) (path : String) : Session.Call Nat :=
  if disk.isFolder path then s.addFolder disk path else s.addFile disk path

/-- Makes calls in turn, up to the first one that fails. -/
def runCalls {α : Type} (call : Session → String → Session.Call α) (s : Session) :
    List String → Except Failure Session
  | [] => .ok s
  | path :: paths =>
    match call s path with
    | (.error e, _) => .error (.badLoad e)
    | (.ok _, s) => runCalls call s paths

/-- The session whose master tree is printed. -/
def load (types : TypeTable) (disk : Disk) (r : Request) : Except Failure Session := do
  let config ← readConfig disk r.config
  let s ← runCalls (appendPath disk) (Session.start (Database.empty types) config .fresh) r.paths
  runCalls (fun s path => s.patchFile disk path) s.close r.patches

def resolve (types : TypeTable) (disk : Disk) (r : Request) : Except Failure Printed :=
  (load types disk r).map fun s => .master s.master.root.render s.diagnostics

/-- Runs the program on its arguments. -/
def run (types : TypeTable) (disk : Disk) (args : List String) : Except Failure Printed :=
  match parse args with
  | none => .error .usage
  | some .showVersion => .ok .version
  | some (.resolve r) => resolve types disk r

end DefLoad.CommandLine
