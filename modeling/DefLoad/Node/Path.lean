import DefLoad.Node

/-!
Paths of child indices: `[]` is the node itself, `i :: p` goes to child number `i` and on along `p`.
-/

namespace DefLoad.Node

def at? (n : Node) : List Nat → Option Node
  | [] => some n
  | i :: p => (n.children[i]?).bind (·.at? p)

/-- Applies `f` to the node at a path, and nothing when there is no node. -/
def modifyPath (f : Node → Node) : List Nat → Node → Node
  | [], n => f n
  | i :: p, n => { n with children := n.children.modify i (modifyPath f p) }

def modifyAt (n : Node) (f : Node → Node) (path : List Nat) : Node := modifyPath f path n

/-- Detaches the node at a path; the node itself cannot be detached from itself. -/
def erasePath : List Nat → Node → Node
  | [], n => n
  | [i], n => { n with children := n.children.eraseIdx i }
  | i :: j :: p, n => { n with children := n.children.modify i (erasePath (j :: p)) }

def eraseAt (n : Node) (path : List Nat) : Node := erasePath path n

/-- A path that `eraseAt` can detach. -/
def removable? (n : Node) : List Nat → Option Node
  | [] => none
  | p => n.at? p

@[simp] theorem at?_nil (n : Node) : n.at? [] = some n := by simp [at?]

theorem at?_append (n : Node) (p q : List Nat) : n.at? (p ++ q) = (n.at? p).bind (·.at? q) := by
  induction p generalizing n with
  | nil => simp [at?]
  | cons i p ih =>
    simp only [List.cons_append, at?]
    cases n.children[i]? with
    | none => rfl
    | some c => simpa using ih c

end DefLoad.Node
