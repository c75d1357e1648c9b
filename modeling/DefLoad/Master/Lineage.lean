import DefLoad.Diagnostic
import DefLoad.Master.Merge

/-!
The chain of parents of a node and the node that it composes. A parent is named, and the name means
the first top-level node that bears it.
-/

namespace DefLoad.Master

def firstNamed (nodes : List Node) (name : String) : Option Nat := nodes.findIdx? (·.name == name)

/-- Where following the parents of a node leads. -/
inductive Lineage
  /-- From the node up to an ancestor without a parent. -/
  | chain (indices : List Nat)
  /-- The last index stands in the list before. -/
  | cycle (indices : List Nat)
  /-- An ancestor, or the node itself, names a parent that does not exist. -/
  | orphan (child : Nat) (parent : String)
deriving DecidableEq, Repr

def parentName (nodes : List Node) (i : Nat) : Option String := (nodes[i]?).bind (·.attr "Parent")

/-- Follows parents from `current`, having seen the indices of `seen`, the latest first. A chain has
no repetition, so as many steps as there are nodes suffice. -/
def climb (nodes : List Node) : Nat → List Nat → Nat → Lineage
  | 0, seen, current => .cycle (seen.reverse ++ [current])
  | n + 1, seen, current =>
    if current ∈ seen then .cycle (seen.reverse ++ [current])
    else
      match parentName nodes current with
      | none => .chain (seen.reverse ++ [current])
      | some parent =>
        match firstNamed nodes parent with
        | none => .orphan current parent
        | some next => climb nodes n (current :: seen) next

def lineage (nodes : List Node) (i : Nat) : Lineage := climb nodes (nodes.length + 1) [] i

/-- A node that is folded: it has a parent and is no template itself. -/
def isFolded (n : Node) : Bool := n.flag "Abstract" != some true && (n.attr "Parent").isSome

def nodeAt (nodes : List Node) (i : Nat) : Node := nodes[i]?.getD default

/-- Starts from the root ancestor and merges the chain down to the node itself. -/
def compose (item : String) (nodes : List Node) (name : String) (chain : List Nat) : Node :=
  match chain.reverse with
  | [] => Node.named name
  | ancestor :: parts =>
    (parts.map (nodeAt nodes)).foldl (merge item) ((nodeAt nodes ancestor).rename name)

/-- What happens to the top-level node at an index. -/
inductive Verdict
  | unchanged
  | composed (n : Node)
  | broken (l : Lineage)

def verdict (item : String) (nodes : List Node) (i : Nat) (n : Node) : Verdict :=
  if isFolded n then
    match lineage nodes i with
    | .chain indices => .composed (compose item nodes n.name indices)
    | l => .broken l
  else .unchanged

/-- The indices that a verdict on node `i` drops: with a cycle goes the whole chain. -/
def Verdict.dropped (i : Nat) : Verdict → List Nat
  | .broken (.cycle indices) => indices
  | .broken (.orphan _ _) => [i]
  | _ => []

def lineageMessage (nodes : List Node) : Lineage → Option String
  | .chain _ => none
  | .cycle indices =>
    let route := String.intercalate " -> " (indices.map fun i => (nodeAt nodes i).name)
    some s!"cyclic inheritance ({route}); def will not be loaded"
  | .orphan child parent =>
    let child := (nodeAt nodes child).name
    some s!"failed to find parent '{parent}' of '{child}'; def will not be loaded"

def Verdict.diagnostic? (nodes : List Node) (n : Node) : Verdict → Option Diagnostic
  | .broken l => (lineageMessage nodes l).map (Diagnostic.error .resolution n.name)
  | _ => none

def Verdict.node (n : Node) : Verdict → Node
  | .composed m => m
  | _ => n

/-- Every node with its index and its verdict, all taken on the nodes as they stand. -/
def verdicts (item : String) (nodes : List Node) : List (Nat × Node × Verdict) :=
  nodes.zipIdx.map fun (n, i) => (i, n, verdict item nodes i n)

def droppedIndices (item : String) (nodes : List Node) : List Nat :=
  (verdicts item nodes).flatMap fun (i, _, v) => v.dropped i

/-- The nodes that survive, each folded into one, in their order. -/
def resolveNodes (item : String) (nodes : List Node) : List Node :=
  let dropped := droppedIndices item nodes
  (verdicts item nodes).filterMap fun (i, n, v) => if i ∈ dropped then none else some (v.node n)

def resolutionDiagnostics (item : String) (nodes : List Node) : Diagnostics :=
  (verdicts item nodes).filterMap fun (_, n, v) => v.diagnostic? nodes n

end DefLoad.Master
