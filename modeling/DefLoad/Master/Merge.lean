import DefLoad.Node

/-!
Merging a node into another one. The source speaks last: its attributes replace those of the
destination, its children are appended or merged by name.
-/

namespace DefLoad.Master

/-- Attributes that a node never takes from the node that it is merged into. -/
def clearOwn (attrs : Attributes) : Attributes := (attrs.erase "Abstract").erase "Null"

/-- All children carry the name of list items. -/
def isItemList (item : String) (children : List Node) : Bool :=
  !children.isEmpty && children.all (·.name == item)

/-- A source that replaces its destination outright. -/
def replaces (source : Node) : Bool := source.flag "Inherit" == some false

def takeOver (source destination : Node) : Node :=
  { source with name := destination.name, attrs := source.attrs.erase "Inherit" }

/-- Children are appended when the destination says so, or when it is silent and the source holds
list items only. -/
def appends (item : String) (destination source : Node) : Bool :=
  (destination.flag "IsList").getD (isItemList item source.children)

mutual

/-- Merges a source into a destination. -/
def mergeFrom (item : String) : Node → Node → Node
  | ⟨name, attrs, text, children⟩, destination =>
    let source : Node := ⟨name, attrs, text, children⟩
    if replaces source then takeOver source destination
    else
      let d := { destination with attrs := (clearOwn destination.attrs).setAll attrs }
      if d.isValue then { d with text := text, children := children }
      else
        { d with
          text := text.or d.text
          children := mergeChildren item (appends item d source) children d.children }

def mergeChildren (item : String) (append : Bool) : List Node → List Node → List Node
  | [], ds => ds
  | c :: cs, ds =>
    let ds :=
      if !append && ds.any (·.name == c.name) then Node.modifyFirst c.name (mergeFrom item c) ds
      else ds ++ [c]
    mergeChildren item append cs ds

end

def merge (item : String) (destination source : Node) : Node := mergeFrom item source destination

theorem mergeChildren_append (item : String) (cs ds : List Node) :
    mergeChildren item true cs ds = ds ++ cs := by
  induction cs generalizing ds with
  | nil => simp [mergeChildren]
  | cons c cs ih => simp [mergeChildren, ih]

theorem merge_replaces (item : String) {d s : Node} (h : replaces s) :
    merge item d s = takeOver s d := by
  obtain ⟨n, a, t, c⟩ := s
  simp [merge, mergeFrom, h]

end DefLoad.Master
