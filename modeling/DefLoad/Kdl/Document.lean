import DefLoad.Kdl.Grammar
import DefLoad.Kdl.Token.Lexer
import DefLoad.Node

/-!
Reading a KDL document as a tree: a node's argument becomes its text, its properties become
attributes.
-/

namespace DefLoad

inductive DocumentError
  | malformed
  | tooManyValues (node : String) (count : Nat)
deriving DecidableEq, Repr

namespace DocumentError

/-- What is said of any text that is not KDL. -/
def malformedText : String := "Failed to parse KDL document"

def message : DocumentError → String
  | malformed => "invalid KDL: " ++ malformedText
  | tooManyValues node count => s!"node '{node}' has {count} values; at most one is supported"

end DocumentError

namespace Kdl

def isArgument : Entry → Bool
  | .argument _ => true
  | .property _ _ => false

/-- Adds an entry to a node. A property without content leaves an earlier value in place. -/
def addEntry (n : Node) : Entry → Node
  | .argument v => { n with text := v.content }
  | .property key v =>
    match v.content with
    | some s => n.setAttr key s
    | none => n

mutual

/-- The node for an element. The values of a node are counted before its children are looked at. -/
def toNode : Element → Except DocumentError Node
  | ⟨name, entries, children⟩ =>
    let count := (entries.filter isArgument).length
    if 1 < count then .error (.tooManyValues name count)
    else
      (nodesOf children).map fun cs =>
        { entries.foldl addEntry (Node.named name) with children := cs }

def nodesOf : List Element → Except DocumentError (List Node)
  | [] => .ok []
  | e :: es => do
    let n ← toNode e
    let ns ← nodesOf es
    return n :: ns

end

/-- A byte order mark may stand at the very start. -/
def dropMark : List Char → List Char
  | '\ufeff' :: cs => cs
  | cs => cs

/-- The elements of a KDL text. -/
def read? (cs : List Char) : Option (List Element) :=
  (Token.ofChars? (dropMark cs)).bind Element.ofTokens?

end Kdl

def Document.parse (s : String) : Except DocumentError Document :=
  match Kdl.read? s.toList with
  | none => .error .malformed
  | some elements => (Kdl.nodesOf elements).map Document.mk

end DefLoad
