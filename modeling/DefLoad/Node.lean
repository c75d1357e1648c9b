import DefLoad.Attributes
import DefLoad.Text.Ascii
import DefLoad.Text.Blank

/-!
The attributed tree on which merging, patches and typed reading work. Attribute values are plain
text; whoever consumes a node decides what they mean.
-/

namespace DefLoad

/-- A named node with ordered attributes, optional inner text and ordered children. -/
structure Node where
  name : String
  attrs : Attributes
  text : Option String
  children : List Node

namespace Node

def named (name : String) : Node := ⟨name, .empty, none, []⟩

instance : Inhabited Node := ⟨named ""⟩

def attributes (n : Node) : Assoc String String := n.attrs.entries

def attr (n : Node) (key : String) : Option String := n.attrs.get? key

def setAttr (n : Node) (key value : String) : Node := { n with attrs := n.attrs.set key value }

def eraseAttr (n : Node) (key : String) : Node := { n with attrs := n.attrs.erase key }

/-- `true` and `false` in any case with blanks around them; other texts are no flag. -/
def readFlag (s : String) : Option Bool :=
  let word := Text.trim s
  if Text.sameIgnoringCase word "true" then some true
  else if Text.sameIgnoringCase word "false" then some false
  else none

def flag (n : Node) (key : String) : Option Bool := (n.attr key).bind readFlag

/-- A node that holds inner text and no children. An empty node is no value. -/
def isValue (n : Node) : Bool := n.children.isEmpty && n.text.isSome

def child? (n : Node) (name : String) : Option Node := n.children.find? (·.name == name)

def modifyFirst (name : String) (f : Node → Node) : List Node → List Node
  | [] => []
  | c :: cs => if c.name == name then f c :: cs else c :: modifyFirst name f cs

/-- Changes the first child of a name. -/
def modifyChild (n : Node) (name : String) (f : Node → Node) : Node :=
  { n with children := modifyFirst name f n.children }

def rename (n : Node) (name : String) : Node := { n with name := name }

def addChild (n : Node) (c : Node) : Node := { n with children := n.children ++ [c] }

mutual

/-- The number of nodes of a tree. -/
def size : Node → Nat
  | ⟨_, _, _, children⟩ => sizeAll children + 1

def sizeAll : List Node → Nat
  | [] => 0
  | n :: ns => n.size + sizeAll ns

end

/-! Two nodes are the same when they agree in name, text, children and in the value of every
attribute; the order of the attributes does not matter. -/

def sameAttributes (a b : Assoc String String) : Bool :=
  a.length == b.length && a.all fun e => b.get? e.1 == some e.2

mutual

def same : Node → Node → Bool
  | ⟨n, a, t, c⟩, ⟨n', a', t', c'⟩ =>
    n == n' && sameAttributes a.entries a'.entries && t == t' && sameAll c c'

def sameAll : List Node → List Node → Bool
  | [], [] => true
  | x :: xs, y :: ys => same x y && sameAll xs ys
  | _, _ => false

end

@[simp] theorem attr_setAttr (n : Node) (k j v : String) :
    (n.setAttr k v).attr j = if k == j then some v else n.attr j := by
  simp [attr, setAttr]

@[simp] theorem setAttr_name (n : Node) (k v : String) : (n.setAttr k v).name = n.name := rfl

@[simp] theorem setAttr_text (n : Node) (k v : String) : (n.setAttr k v).text = n.text := rfl

@[simp] theorem setAttr_children (n : Node) (k v : String) :
    (n.setAttr k v).children = n.children := rfl

theorem size_eq (n : Node) : n.size = sizeAll n.children + 1 := by
  cases n
  rfl

theorem sizeAll_eq_foldr (ns : List Node) : sizeAll ns = (ns.map size).foldr (· + ·) 0 := by
  induction ns with
  | nil => rfl
  | cons n ns ih => rw [sizeAll, List.map_cons, List.foldr_cons, ih]

end Node

/-- A parsed source: an ordered list of top-level nodes. -/
structure Document where
  nodes : List Node

/-- The document element is the first top-level node. -/
def Document.root? (d : Document) : Option Node := d.nodes.head?

end DefLoad
