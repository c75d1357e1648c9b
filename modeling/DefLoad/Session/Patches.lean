import DefLoad.Reading.Node
import DefLoad.Session

/-!
Applying patch documents: all patches of a document are resolved, then all are built, then all are
executed.
-/

namespace DefLoad.Session

/-- The type that a node names, or why it cannot be used. `role` says what it is wanted for. -/
def namedType (types : TypeTable) (role : String) (n : Node) : Except String Descriptor :=
  match n.attr "Type" with
  | none => .error s!"{role} node has no Type attribute"
  | some name =>
    match (types.resolve name).bind types.get? with
    | none => .error s!"cannot resolve {role} type '{name}'"
    | some t => .ok t

def namedPatchType (types : TypeTable) (n : Node) : Except String Descriptor := do
  let t ← namedType types "patch" n
  if t.isPatch then return t
  else
    let name := (n.attr "Type").getD ""
    .error s!"type '{name}' is not a patch type"

/-- A node of a patch document under its label. -/
structure PatchNode where
  label : String
  type : Descriptor
  node : Node

def patchLabel (source : String) (index : Nat) (n : Node) : String := s!"{source}:{n.name}[{index}]"

/-- The nodes whose type is a patch type, and complaints about the others. -/
def patchNodes (types : TypeTable) (source : String) : Nat → List Node → Reported (List PatchNode)
  | _, [] => return []
  | i, n :: ns => do
    let label := patchLabel source i n
    let here ← match namedPatchType types n with
      | .ok t => pure [⟨label, t, n⟩]
      | .error message => do
        .report (.error .resolution label message)
        pure []
    let rest ← patchNodes types source (i + 1) ns
    return here ++ rest

structure BuiltPatch where
  label : String
  type : Descriptor
  value : Value

def buildPatches (s : Reading.Setting) : List PatchNode → Reported (List BuiltPatch)
  | [] => return []
  | p :: ps => do
    let v ← Reading.buildClass s p.type p.label p.node
    let rest ← buildPatches s ps
    return (v.map fun v => ⟨p.label, p.type, v⟩).toList ++ rest

def patchFailure (p : BuiltPatch) (o : PatchResult) : Diagnostic :=
  let reason := o.message.getD "nothing matched"
  .warning .patch p.label
    s!"patch of type '{p.type.name}' failed: {reason}; {o.modifications} nodes were modified"

/-- What a built patch does to the tree, if its instance is one of the patch type. -/
def BuiltPatch.role? (p : BuiltPatch) : Option (Node → PatchResult × Node) :=
  if p.value.type = p.type.key then p.type.patchRole.map (· p.value) else none

/-- Executes patches in order; gives the number of successes and the tree. -/
def executePatches : List BuiltPatch → Nat → Node → Reported (Nat × Node)
  | [], n, root => return (n, root)
  | p :: ps, n, root => do
    match p.role? with
    | none =>
      .report (.error .construction p.label s!"cannot use {p.type.name} as a patch")
      executePatches ps n root
    | some execute =>
      let (o, root) := execute root
      if o.success then executePatches ps (n + 1) root
      else
        .report (patchFailure p o)
        executePatches ps n root

def setting (s : Session) (findDef : String → Option Handle) : Reading.Setting :=
  ⟨⟨s.db.types, s.config, findDef⟩, s.parsers⟩

def runPatches (s : Session) (nodes : List Node) (source : String) : Reported (Nat × Node) := do
  let typed ← patchNodes s.db.types source 0 nodes
  let built ← buildPatches (s.setting s.db.get?) typed
  executePatches built 0 s.master.root

/-- Applies a patch document; gives the number of patches that succeeded. -/
def patch (s : Session) (d : Document) (source : String) : Nat × Session :=
  let s := s.close
  match d.root? with
  | none => (0, s.found [.warning .structural source "patch document has no root node"])
  | some root =>
    let run := s.runPatches root.children source
    (run.value.1, { s with master := { s.master with root := run.value.2 } }.found run.found)

def patchText (s : Session) (text source : String) : Call Nat :=
  match Document.parse text with
  | .error e => (.error (.badDocument source e), s)
  | .ok d =>
    let (n, s) := s.patch d source
    (.ok n, s)

def patchFile (disk : Disk) (s : Session) (path : String) : Call Nat :=
  match disk.readText path with
  | none => (.error (.unreadable path), s)
  | some text => s.patchText text path

end DefLoad.Session
