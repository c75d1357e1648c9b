/-!
Identities of types. A container's identity is that of its parts, so two lists are of one type
exactly when their elements are.
-/

namespace DefLoad

/-- How a map orders its entries. -/
inductive MapKind
  /-- By key. -/
  | sorted
  /-- In the order of first insertion. -/
  | inserted
  /-- In no particular order. -/
  | hashed
deriving DecidableEq, Repr

def MapKind.name : MapKind → String
  | sorted => "BTreeMap"
  | inserted => "IndexMap"
  | hashed => "HashMap"

inductive TypeKey
  | named (name : String)
  | optional (inner : TypeKey)
  | list (element : TypeKey)
  | map (kind : MapKind) (key value : TypeKey)
  /-- A reference to a def of the type or of one of its subtypes. -/
  | ref (target : TypeKey)
deriving DecidableEq, Repr

instance : Inhabited TypeKey := ⟨.named ""⟩

namespace TypeKey

def bool : TypeKey := named "bool"
def i32 : TypeKey := named "i32"
def i64 : TypeKey := named "i64"
def u8 : TypeKey := named "u8"
def u32 : TypeKey := named "u32"
def u64 : TypeKey := named "u64"
def usize : TypeKey := named "usize"
def f32 : TypeKey := named "f32"
def f64 : TypeKey := named "f64"
def string : TypeKey := named "String"
def node : TypeKey := named "defloom.DocumentNode"
def typeKey : TypeKey := named "defloom.TypeKey"

/-- The number of type formers. -/
def size : TypeKey → Nat
  | named _ => 1
  | optional k => k.size + 1
  | list k => k.size + 1
  | map _ k v => k.size + v.size + 1
  | ref k => k.size + 1

/-- The type written out in full. -/
def title : TypeKey → String
  | named s => s
  | optional k => s!"Option<{k.title}>"
  | list k => s!"Vec<{k.title}>"
  | map kind k v => s!"{kind.name}<{k.title}, {v.title}>"
  | ref k => s!"DefRef<{k.title}>"

/-- What follows the last separator of a name. -/
def lastSegment (isSeparator : Char → Bool) (s : String) : String :=
  String.ofList (s.toList.reverse.takeWhile (!isSeparator ·)).reverse

/-- A name without its namespace. -/
def localName (s : String) : String := lastSegment (fun c => c == '.' || c == ':') s

/-- How the target of a reference is called. -/
def targetName : TypeKey → String
  | named s => lastSegment (fun c => c == '.' || c == ':' || c == ' ') s
  | _ => ""

end TypeKey

end DefLoad
