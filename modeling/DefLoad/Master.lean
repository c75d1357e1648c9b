import DefLoad.Master.Lineage

/-!
The master tree: all sources under one root, before and after inheritance is resolved.
-/

namespace DefLoad

structure Master where
  root : Node
  /-- The name that marks the items of a list. -/
  item : String
  resolved : Bool

namespace Master

def rootName : String := "Defs"

def empty (item : String) : Master := ⟨Node.named rootName, item, false⟩

/-- Marks a node with the label of the source that it comes from. -/
def stamp (source : String) (n : Node) : Node :=
  if source.isEmpty then n else n.setAttr "Source" source

/-- The nodes that a document contributes. -/
def contribution (d : Document) (source : String) : List Node :=
  match d.root? with
  | none => []
  | some root => root.children.map (stamp source)

def missingRoot (source : String) : Diagnostic :=
  .warning .structural source "document has no root node, nothing to load"

def add (m : Master) (d : Document) (source : String) : Master :=
  { m with root := { m.root with children := m.root.children ++ contribution d source } }

def addDiagnostics (d : Document) (source : String) : Diagnostics :=
  if d.root?.isNone then [missingRoot source] else []

/-- Folds every chain of parents. A second time nothing happens. -/
def resolve (m : Master) : Master :=
  if m.resolved then m
  else
    { m with
      root := { m.root with children := resolveNodes m.item m.root.children }
      resolved := true }

def resolveDiagnostics (m : Master) : Diagnostics :=
  if m.resolved then [] else resolutionDiagnostics m.item m.root.children

theorem resolve_resolved (m : Master) : m.resolve.resolved = true := by
  unfold resolve; split <;> simp_all

theorem resolve_resolve (m : Master) : m.resolve.resolve = m.resolve := by
  rw [resolve, if_pos (resolve_resolved m)]

end Master

end DefLoad
