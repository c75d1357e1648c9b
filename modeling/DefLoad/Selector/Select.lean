import DefLoad.Node.Path
import DefLoad.Selector

/-!
Evaluating a selector: paths of the matched nodes in document order, each once.
-/

namespace DefLoad.Selector

/-- A place in a tree. Above the root node there is the document. -/
inductive Context
  | document
  | node (path : List Nat)
deriving DecidableEq, Repr

/-- Lexicographic order. -/
def pathLe : List Nat → List Nat → Bool
  | [], _ => true
  | _, [] => false
  | i :: p, j :: q => i < j || i == j && pathLe p q

namespace Context

/-- Document order: a node comes before the nodes below it, these before its later siblings. -/
def le : Context → Context → Bool
  | document, _ => true
  | node _, document => false
  | node p, node q => pathLe p q

def node? (root : Node) : Context → Option Node
  | document => none
  | node p => root.at? p

def children (root : Node) : Context → List Context
  | document => [node []]
  | node p =>
    match root.at? p with
    | none => []
    | some n => (List.range n.children.length).map fun i => node (p ++ [i])

def parent? : Context → Option Context
  | document => none
  | node [] => some document
  | node p => some (node p.dropLast)

/-- The number of contexts that can be reached downwards. -/
def weight (root : Node) : Context → Nat
  | document => root.size + 1
  | node p =>
    match root.at? p with
    | none => 1
    | some n => n.size

theorem weight_node {root n : Node} {p : List Nat} (h : root.at? p = some n) :
    (node p).weight root = n.size := by
  simp [weight, h]

/-- The weight of contexts taken together. -/
def weightAll (root : Node) (cs : List Context) : Nat := (cs.map (weight root)).foldr (· + ·) 0

theorem weightAll_append (root : Node) (cs ds : List Context) :
    weightAll root (cs ++ ds) = weightAll root cs + weightAll root ds := by
  induction cs with
  | nil => exact (Nat.zero_add _).symm
  | cons c cs ih =>
    simp only [weightAll, List.cons_append, List.map_cons, List.foldr_cons] at ih ⊢
    omega

/-- The children of a context weigh less than the context. -/
theorem weight_children (root : Node) (c : Context) :
    weightAll root (c.children root) < c.weight root := by
  cases c with
  | document =>
    simp [children, weightAll, weight]
  | node p =>
    cases hp : root.at? p with
    | none => simp [children, weightAll, weight, hp]
    | some n =>
      have hchild (i : Nat) (hi : i < n.children.length) :
          (node (p ++ [i])).weight root = n.children[i].size := by
        apply weight_node
        simp [Node.at?_append, hp, Node.at?, hi]
      have hsizes : (List.range n.children.length).map (fun i => (node (p ++ [i])).weight root) =
          n.children.map Node.size := by
        apply List.ext_getElem
        · simp
        · intro i hi hi'
          simp only [List.getElem_map, List.getElem_range]
          exact hchild i (by simpa using hi)
      have hsum : weightAll root (children root (node p)) = Node.sizeAll n.children := by
        simp only [weightAll, children, hp, List.map_map, Function.comp_def, hsizes,
          Node.sizeAll_eq_foldr]
      rw [hsum, weight_node hp, Node.size_eq]
      exact Nat.lt_succ_self _

/-- Visits the contexts that wait. The children of each join the end of the queue. -/
def visit (root : Node) : List Context → List Context
  | [] => []
  | c :: waiting => c :: visit root (waiting ++ c.children root)
termination_by waiting => weightAll root waiting
decreasing_by
  have hlt := weight_children root c
  have hcons : weightAll root (c :: waiting) = c.weight root + weightAll root waiting := rfl
  rw [weightAll_append, hcons]
  omega

/-- A context and everything below it, in document order. -/
def descendants (root : Node) (c : Context) : List Context := (visit root [c]).mergeSort le

end Context

def Predicate.holds (position : Nat) (n : Node) : Predicate → Bool
  | .position k => position == k
  | .hasAttr key => (n.attr key).isSome
  | .attrEquals key value => n.attr key == some value
  | .hasChild name => (n.child? name).isSome
  | .childEquals name value => n.children.any fun c => c.name == name && c.text.getD "" == value
  | .textEquals value => n.text.getD "" == value

/-- The candidates that a predicate keeps, the first one standing at `place`. The document
satisfies no predicate. -/
def Predicate.keep (root : Node) (p : Predicate) : Nat → List Context → List Context
  | _, [] => []
  | place, c :: cs =>
    if (c.node? root).any (p.holds place) then c :: keep root p (place + 1) cs
    else keep root p (place + 1) cs

def NameTest.candidates (root : Node) (c : Context) : NameTest → List Context
  | .current => [c]
  | .parent => c.parent?.toList
  | .any => c.children root
  | .named name => (c.children root).filter fun d => (d.node? root).any (·.name == name)

/-- Where a step leads from one context. -/
def Step.from (root : Node) (s : Step) (c : Context) : List Context :=
  s.predicates.foldl (fun cs p => p.keep root 1 cs) (s.test.candidates root c)

def Step.starts (root : Node) (s : Step) (cs : List Context) : List Context :=
  if s.descend then cs.flatMap (Context.descendants root) else cs

/-- Drops an element that equals the one before it. -/
def dropRepeats : List Context → List Context
  | [] => []
  | [c] => [c]
  | c :: d :: cs => if c = d then dropRepeats (d :: cs) else c :: dropRepeats (d :: cs)

def inOrder (cs : List Context) : List Context := dropRepeats (cs.mergeSort Context.le)

def Step.apply (root : Node) (cs : List Context) (s : Step) : List Context :=
  inOrder ((s.starts root cs).flatMap (s.from root))

def Context.path? : Context → Option (List Nat)
  | document => none
  | node p => some p

/-- The paths of the selected nodes. -/
def select (s : Selector) (root : Node) : List (List Nat) :=
  let start := if s.absolute then Context.document else .node []
  (s.steps.foldl (Step.apply root) [start]).filterMap Context.path?

end DefLoad.Selector
