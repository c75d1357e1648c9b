import DefLoad.Selector.Reader
import DefLoad.Selector.Select

/-!
Changes to a tree that a patch document asks for, and what they report.
-/

namespace DefLoad

structure PatchResult where
  success : Bool
  modifications : Nat
  message : Option String
deriving DecidableEq, Repr

namespace PatchResult

/-- A patch that modifies nothing has not succeeded. -/
def ofCount (n : Nat) : PatchResult := ⟨0 < n, n, none⟩

def failed (message : String) : PatchResult := ⟨false, 0, some message⟩

end PatchResult

inductive Operation
  | add
  | modify
  | modifyOrAdd
  | remove
deriving DecidableEq, Repr

def Operation.name : Operation → String
  | add => "Add"
  | modify => "Modify"
  | modifyOrAdd => "ModifyOrAdd"
  | remove => "Remove"

def Operation.all : List Operation := [.add, .modify, .modifyOrAdd, .remove]

/-- Selects nodes and adds, replaces or removes children. The fragment to insert is the first child
of the value node. -/
structure TreeEdit where
  path : String
  operation : Operation
  value : Option Node

namespace TreeEdit

/-- Removes from the last match to the first, so that no removal moves a later one. -/
def removeAll : List (List Nat) → Node → Nat × Node
  | [], root => (0, root)
  | p :: ps, root =>
    let (n, root) := removeAll ps root
    if (root.removable? p).isSome then (n + 1, root.eraseAt p) else (n, root)

/-- What to do with one matched node: the changed node, and the index of a replaced child. -/
def edit (op : Operation) (fragment n : Node) : Option (Node × Option Nat) :=
  match op, n.children.findIdx? (·.name == fragment.name) with
  | .add, none | .modifyOrAdd, none => some (n.addChild fragment, none)
  | .modify, some i | .modifyOrAdd, some i =>
    some ({ n with children := n.children.set i fragment }, some i)
  | _, _ => none

/-- Edits matches in order. A match inside a child that was replaced is gone. -/
def editAll (op : Operation) (fragment : Node) :
    List (List Nat) → List (List Nat) → Node → Nat × Node
  | [], _, root => (0, root)
  | p :: ps, replaced, root =>
    if replaced.any (·.isPrefixOf p) then editAll op fragment ps replaced root
    else
      match (root.at? p).bind (edit op fragment) with
      | none => editAll op fragment ps replaced root
      | some (n, i) =>
        let (count, root) := editAll op fragment ps ((i.map fun i => p ++ [i]).toList ++ replaced)
          (root.modifyAt (fun _ => n) p)
        (count + 1, root)

def fragment? (patch : TreeEdit) : Option Node := patch.value.bind (·.children.head?)

def execute (patch : TreeEdit) (root : Node) : PatchResult × Node :=
  match Selector.parse patch.path with
  | .error e => (.failed s!"invalid Path '{patch.path}': {e.message}", root)
  | .ok selector =>
    let found := selector.select root
    if patch.operation = .remove then
      let (n, root) := removeAll found root
      (.ofCount n, root)
    else
      match patch.fragment? with
      | none =>
        (.failed s!"Value must contain a node when Operation is {patch.operation.name}", root)
      | some fragment =>
        let (n, root) := editAll patch.operation fragment found [] root
        (.ofCount n, root)

end TreeEdit

end DefLoad
