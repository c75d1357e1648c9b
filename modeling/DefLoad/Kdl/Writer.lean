import DefLoad.Kdl.Chars
import DefLoad.Kdl.Quoted
import DefLoad.Node

/-!
Writing a tree as KDL: a node on a line of its own, four blanks for each level, quotes only where a
string needs them.
-/

namespace DefLoad.Kdl

/-- A string that may stand without quotes. -/
def isPlain (cs : List Char) : Bool :=
  !cs.isEmpty && cs.all isBare && !startsLikeNumber cs && !reserved.contains (String.ofList cs)

def escape (c : Char) : List Char :=
  match escape? c with
  | some e => ['\\', e]
  | none => [c]

def writeString (s : String) : List Char :=
  if isPlain s.toList then s.toList else '"' :: s.toList.flatMap escape ++ ['"']

def writeAttribute (e : String × String) : List Char :=
  ' ' :: writeString e.1 ++ '=' :: writeString e.2

def writeText : Option String → List Char
  | none => []
  | some s => ' ' :: writeString s

def indentation (depth : Nat) : List Char := List.replicate (4 * depth) ' '

mutual

def writeNode (depth : Nat) : Node → List Char
  | ⟨name, attrs, text, children⟩ =>
    indentation depth ++ writeString name ++ writeText text ++
      attrs.entries.flatMap writeAttribute ++
      (if children.isEmpty then []
        else
          " \x7b\n".toList ++ writeNodes (depth + 1) children ++ indentation depth ++ ['\x7d']) ++
      ['\n']

def writeNodes (depth : Nat) : List Node → List Char
  | [] => []
  | n :: ns => writeNode depth n ++ writeNodes depth ns

end

end DefLoad.Kdl

namespace DefLoad

/-- The document as KDL text; no nodes give the empty text. -/
def Document.render (d : Document) : String := String.ofList (Kdl.writeNodes 0 d.nodes)

def Node.render (n : Node) : String := String.ofList (Kdl.writeNode 0 n)

end DefLoad
