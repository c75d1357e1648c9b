import DefLoad.Reading.Focus

/-!
Adding one child to a list or to a map.
-/

namespace DefLoad.Reading

/-- The focus on a container: its own type, the declared types of its parts, and the types as which
its children are read. -/
structure ListFocus where
  focus : Focus
  declared : TypeKey
  element : Descriptor

def storeItem (s : Setting) (l : ListFocus) (trail : List String) (xs item : Value) :
    Reported Value :=
  match s.types.convert item l.declared with
  | .error _ => do
    let wanted := s.types.nameOf l.declared
    problem .conversion trail s!"item is not assignable to {wanted}"
    return xs
  | .ok item =>
    match Value.push l.focus.target.key xs item with
    | some ys => return ys
    | none => do
      problem .conversion trail s!"cannot add item to {l.focus.target.name}"
      return xs

def addItem (s : Setting) (l : ListFocus) (xs : Value) (child : Node) (read : ReadChild) :
    Reported Value := do
  let index := Value.length l.focus.target.key xs
  let trail := l.focus.trail ++ [s!"{child.name}[{index}]"]
  match ← wantedType s child l.element trail with
  | none => return xs
  | some target =>
    let step ← read ⟨target, l.element, some xs, l.focus.member, .item index, trail⟩ none
    let wanted := s.types.nameOf l.declared
    match ← toWrite s step.outcome l.declared trail s!"item of type {wanted} cannot be null" with
    | none => return xs
    | some item => storeItem s l trail xs item

structure MapFocus where
  focus : Focus
  declaredKey : TypeKey
  declaredValue : TypeKey
  key : Descriptor
  value : Descriptor
  /-- The parser for keys, if any parser handles their type. -/
  keyParser : Option Parser

/-- Reads a key from the name of a child. -/
def readKey (s : Setting) (m : MapFocus) (xs : Value) (name : String) : Except String Value :=
  match m.keyParser with
  | none => .error s!"no parser handles key type {m.key.name}"
  | some p =>
    if !p.contextFree then
      .error s!"parser '{p.name}' for key type {m.key.name} cannot parse without a node"
    else
      let c : Context := ⟨none, name, m.key.key, m.key.key, none, some xs, m.focus.member, .root⟩
      match p.parse s.env c with
      | .error e => .error s!"cannot parse key '{name}' as {m.key.name}: {e}"
      | .ok k =>
        match s.types.convert k m.declaredKey with
        | .ok k => .ok k
        | .error _ =>
          let wanted := s.types.nameOf m.declaredKey
          .error s!"key is not assignable to {wanted}"

def storeEntry (s : Setting) (m : MapFocus) (trail : List String) (name : String)
    (xs key entry : Value) : Reported Value :=
  match s.types.convert entry m.declaredValue with
  | .error _ => do
    let wanted := s.types.nameOf m.declaredValue
    problem .conversion trail s!"value is not assignable to {wanted}"
    return xs
  | .ok entry =>
    match Value.insert m.focus.target.key xs key entry with
    | .inserted ys => return ys
    | .replaced ys => do
      notice .conversion trail s!"duplicate key '{name}' replaced an earlier entry"
      return ys
    | .mismatch => do
      problem .conversion trail s!"cannot insert into {m.focus.target.name}"
      return xs

def addEntry (s : Setting) (m : MapFocus) (xs : Value) (child : Node) (read : ReadChild) :
    Reported Value := do
  let trail := m.focus.trail ++ [child.name]
  match readKey s m xs child.name with
  | .error message =>
    problem .conversion trail s!"{message}; entry skipped"
    return xs
  | .ok key =>
    match ← wantedType s child m.value trail with
    | none => return xs
    | some target =>
      let step ← read ⟨target, m.value, some xs, m.focus.member, .entry key, trail⟩ none
      let wanted := s.types.nameOf m.declaredValue
      match ← toWrite s step.outcome m.declaredValue trail
          s!"value of type {wanted} cannot be null" with
      | none => return xs
      | some entry => storeEntry s m trail child.name xs key entry

/-- Reads a list: `fill` adds all children of the node. -/
def readList (s : Setting) (f : Focus) (n : Node) (current : Option Value) (declared : TypeKey)
    (fill : ListFocus → Value → Reported Value) : Reported Step := do
  match ← elementType s n "ElementType" declared f.trail with
  | none => return ⟨.noValue, current⟩
  | some element =>
    match s.types.get? element with
    | none => fail .resolution f.trail s!"element type of {f.target.name} is not registered" current
    | some element => resume f n current (fill ⟨f, declared, element⟩)

/-- Reads a map: `fill` adds all children of the node. -/
def readMap (s : Setting) (f : Focus) (n : Node) (current : Option Value)
    (declaredKey declaredValue : TypeKey) (fill : MapFocus → Value → Reported Value) :
    Reported Step := do
  match ← elementType s n "KeyType" declaredKey f.trail with
  | none => return ⟨.noValue, current⟩
  | some key =>
    match ← elementType s n "ElementType" declaredValue f.trail with
    | none => return ⟨.noValue, current⟩
    | some value =>
      match s.types.get? key, s.types.get? value with
      | some key, some value =>
        resume f n current
          (fill ⟨f, declaredKey, declaredValue, key, value, parserFor s.parsers key⟩)
      | _, _ =>
        fail .resolution f.trail s!"key or value type of {f.target.name} is not registered" current

end DefLoad.Reading
