/-!
Selectors address nodes of a tree: steps from the document or from the root node, each with a name
test and predicates.
-/

namespace DefLoad

namespace Selector

inductive NameTest
  | any
  | current
  | parent
  | named (name : String)
deriving DecidableEq, Repr

inductive Predicate
  /-- The place among the candidates that are left, counted from one. -/
  | position (n : Nat)
  | hasAttr (key : String)
  | attrEquals (key value : String)
  | hasChild (name : String)
  | childEquals (name value : String)
  | textEquals (value : String)
deriving DecidableEq, Repr

structure Step where
  /-- The step starts at the context node and at all nodes below it. -/
  descend : Bool
  test : NameTest
  predicates : List Predicate
deriving DecidableEq, Repr

end Selector

structure Selector where
  /-- The first step starts above the root node instead of at it. -/
  absolute : Bool
  steps : List Selector.Step
deriving DecidableEq, Repr

inductive SelectorError
  | empty
  | unexpectedEnd (selector : String)
  /-- The offset counts UTF-8 bytes. -/
  | unexpected (selector : String) (offset : Nat) (found : Char)
  | zeroPosition (selector : String)
deriving DecidableEq, Repr

def SelectorError.message : SelectorError → String
  | empty => "empty selector"
  | unexpectedEnd s => s!"unexpected end of selector '{s}'"
  | unexpected s offset found => s!"unexpected '{found}' at offset {offset} in selector '{s}'"
  | zeroPosition s => s!"position predicates are 1-based, got 0 in selector '{s}'"

end DefLoad
