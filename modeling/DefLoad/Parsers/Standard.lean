import DefLoad.Decimal.Numeral
import DefLoad.Parsers
import DefLoad.Types.Core

/-!
The parsers that every load has: references, enumerations, raw nodes, names of types, and plain
values.
-/

namespace DefLoad.Parsers

def nameIn (e : Env) (k : TypeKey) : String := e.types.nameOf k

/-- Finds a def by its ID and checks its type. -/
def parseRef (e : Env) (c : Context) : Except String Value :=
  let target := nameIn e c.target
  match (e.types.get? c.target).map Descriptor.shape with
  | some (.ref expected) =>
    let id := Text.trim c.text
    match e.findDef id with
    | none => .error s!"failed to resolve def reference '{id}' as {target}"
    | some handle =>
      if e.types.isSubtype handle.type expected then .ok (.ref expected handle)
      else
        let found := nameIn e handle.type
        .error s!"def reference '{id}' is of type {found}, which cannot be assigned to {target}"
  | _ => .error s!"{target} is not a def reference"

def defRef : Parser where
  name := "def-ref"
  contextFree := true
  handles t :=
    match t.shape with
    | .ref _ => true
    | _ => false
  parse := parseRef

/-- Reads the exact name of a variant. -/
def parseVariant (e : Env) (c : Context) : Except String Value :=
  let target := nameIn e c.target
  match e.types.get? c.target with
  | none => .error s!"{target} is not an enum"
  | some t =>
    match t.shape with
    | .enumeration names =>
      let text := Text.trim c.text
      let expected := String.intercalate ", " names
      match t.variant? text with
      | some v => .ok v
      | none => .error s!"'{text}' is not a variant of {target} (expected one of: {expected})"
    | _ => .error s!"{target} is not an enum"

def enumeration : Parser where
  name := "enum"
  contextFree := true
  handles t :=
    match t.shape with
    | .enumeration _ => true
    | _ => false
  parse := parseVariant

/-- Hands the node through as it is. -/
def node : Parser where
  name := "node"
  contextFree := false
  handles t := t.key = .node
  parse _ c :=
    match c.node with
    | some n => .ok (.node n)
    | none => .error "a document node is required"

def typeName : Parser where
  name := "type-name"
  contextFree := true
  handles t := t.key = .typeKey
  parse e c :=
    let name := Text.trim c.text
    match e.types.resolve name with
    | some k => .ok (.typeKey k)
    | none => .error s!"failed to find any type called '{name}'"

/-- A parser for one type that looks at the text only. -/
def simple (name : String) (k : TypeKey) (read : String → Except String Value) : Parser where
  name := name
  contextFree := true
  handles t := t.key = k
  parse _ c := read c.text

def readBool (s : String) : Except String Value :=
  match Node.readFlag s with
  | some b => .ok (.bool b)
  | none =>
    let text := Text.trim s
    .error s!"expected true or false, found '{text}'"

def readInteger (k : TypeKey) (range : Decimal.Range) (s : String) : Except String Value :=
  match range.read (Text.trimChars s.toList) with
  | .ok n => .ok (.int k n)
  | .error e => .error e.message

def readFloat (k : TypeKey) (f : Decimal.Format) (s : String) : Except String Value :=
  match f.read (Text.trimChars s.toList) with
  | .ok bits => .ok (.scalar k (.bits bits))
  | .error e => .error e.message

def integer (k : TypeKey) (range : Decimal.Range) : Parser := simple k.title k (readInteger k range)

def float (k : TypeKey) (f : Decimal.Format) : Parser := simple k.title k (readFloat k f)

/-- In the order in which a load asks them. -/
def standard : List Parser :=
  [defRef, enumeration, node, typeName, simple "string" .string fun s => .ok (.string s),
    simple "bool" .bool readBool, integer .i32 (.signed 32), integer .i64 (.signed 64),
    integer .u32 (.unsigned 32), integer .u64 (.unsigned 64), float .f32 .single,
    float .f64 .double, integer .u8 (.unsigned 8), integer .usize (.unsigned 64)]

end DefLoad.Parsers
