/-!
Findings of a load: problems that do not stop it, in the order in which they were found.
-/

namespace DefLoad

inductive Severity
  | warning
  | error
deriving DecidableEq, Repr

/-- The stage that found the problem. -/
inductive Stage
  /-- A source or patch document has no root node. -/
  | structural
  /-- A type, parent or ID could not be resolved, or collides. -/
  | resolution
  /-- A value could not be read or stored. -/
  | conversion
  /-- An instance could not be built. -/
  | construction
  /-- A callback of a def failed. -/
  | lifecycle
  /-- A def found fault with its own configuration. -/
  | config
  /-- A patch failed or changed nothing. -/
  | patch
deriving DecidableEq, Repr

structure Diagnostic where
  severity : Severity
  stage : Stage
  /-- A def ID, a node path or the label of a source. -/
  path : String
  message : String
deriving DecidableEq, Repr

namespace Diagnostic

def error (stage : Stage) (path message : String) : Diagnostic := ⟨.error, stage, path, message⟩

def warning (stage : Stage) (path message : String) : Diagnostic := ⟨.warning, stage, path, message⟩

def text (d : Diagnostic) : String :=
  if d.path.isEmpty then d.message else s!"[{d.path}] {d.message}"

def isError (d : Diagnostic) : Bool := d.severity = .error

end Diagnostic

abbrev Diagnostics := List Diagnostic

namespace Diagnostics

def errorCount (ds : Diagnostics) : Nat := (ds.filter Diagnostic.isError).length

def hasErrors (ds : Diagnostics) : Bool := ds.any Diagnostic.isError

def ofStage (ds : Diagnostics) (s : Stage) : Diagnostics := ds.filter (·.stage = s)

theorem hasErrors_iff (ds : Diagnostics) : ds.hasErrors = true ↔ 0 < ds.errorCount := by
  simp [hasErrors, errorCount, List.length_pos_iff_exists_mem]

end Diagnostics

end DefLoad
