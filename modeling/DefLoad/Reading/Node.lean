import DefLoad.Reading.Containers

/-!
Reading a node as a value of a type. Lists and maps are filled child by child, a type with a parser
is read from its text, everything else is a class that is filled member by member.
-/

namespace DefLoad.Reading

/-- Reads with a parser. -/
def readWith (s : Setting) (f : Focus) (n : Node) (current : Option Value) (p : Parser) :
    Reported Step :=
  match p.parse s.env (f.context n current) with
  | .ok v => return ⟨.value v, current⟩
  | .error e =>
    let text := n.text.getD ""
    fail .conversion f.trail s!"cannot parse '{text}' as {f.target.name}: {e}" current

/-- Reads a class: `fill` writes all children of the node into it. -/
def readClass (f : Focus) (n : Node) (current : Option Value) (fill : Value → Reported Value) :
    Reported Step :=
  match f.target.shape with
  | .class _ => resume f n current fill
  | .abstract _ =>
    fail .resolution f.trail
      s!"{f.target.name} is abstract; name a concrete type with Type=\"...\"" current
  | _ => fail .conversion f.trail s!"no parser handles {f.target.name}" current

/-- Puts the layers of an optional type back around what was read inside it. When nothing was read,
the stored value is restored. -/
def rewrap (f : Focus) (matched : Bool) (step : Step) (left : Option Value) : Reported Step :=
  match step.outcome with
  | .value v =>
    match Value.wrap f.target.key v with
    | some w => return ⟨.value w, left⟩
    | none => fail .conversion f.trail s!"value does not fit {f.target.name}" left
  | .null => return ⟨.null, left⟩
  | .noValue =>
    if matched then
      let nothing := Value.none? f.target.key
      return ⟨.noValue, (step.left.bind (Value.wrap f.target.key)).or nothing⟩
    else return ⟨.noValue, left⟩

/-- Strips optional types from the target and reads the type inside. -/
def throughOptional (s : Setting) (inside : Focus → Option Value → Reported Step) :
    Nat → Focus → Option Value → Reported Step
  | 0, _, current => return ⟨.noValue, current⟩
  | n + 1, f, current =>
    match f.target.shape with
    | .optional inner =>
      match s.types.get? inner with
      | none => fail .resolution f.trail s!"inner type of {f.target.name} is not registered" current
      | some t => do
        let matched := (reusable f.target current).isSome
        let within := (reusable f.target current).bind (Value.unwrap f.target.key)
        let step ← throughOptional s inside n { f with target := t, declared := t } within
        rewrap f matched step (if matched then none else current)
    | _ => inside f current

/-- Runs the closing hook on a value that was read. -/
def closing (s : Setting) (f : Focus) (n : Node) (step : Step) : Step :=
  match step.outcome with
  | .value v => { step with outcome := .value (afterReading s (f.context n none) v) }
  | _ => step

/-- A member that a child names, with its declared type and the type as which the child is read. -/
structure Place where
  member : Member
  declared : Descriptor
  target : Descriptor

/-- The place that a child of a class means, if it can be read at all. -/
def place (s : Setting) (trail : List String) (t : Descriptor) (child : Node) :
    Reported (Option Place) := do
  match s.env.config.member? t child.name with
  | none =>
    problem .resolution trail s!"{t.name} has no bindable member named '{child.name}'"
    return none
  | some m =>
    match s.types.get? m.type with
    | none =>
      problem .resolution trail s!"type of member '{m.name}' is not registered"
      return none
    | some declared =>
      let target ← wantedType s child declared trail
      return target.map fun target => ⟨m, declared, target⟩

/-- Takes the stored value of a member out of its owner. -/
def taken (m : Member) (owner : Value) : Option Value × Value :=
  match m.access.take owner with
  | some (v, owner) => (some v, owner)
  | none => (none, owner)

/-- What is stored in a member after a child was read: its value or null as the declared type, else
what was there before. -/
def toStore (s : Setting) (p : Place) (trail : List String) (step : Step) :
    Reported (Option Value) := do
  let place := s!"member '{p.member.name}' of type {p.declared.name}"
  let write ← toWrite s step.outcome p.declared.key trail s!"{place} cannot be null"
  let write ← match step.outcome, write with
    | .value _, some v =>
      match s.types.convert v p.declared.key with
      | .ok v => pure (some v)
      | .error _ => do
        problem .conversion trail s!"value of type {p.target.name} cannot be stored in {place}"
        pure none
    | _, write => pure write
  return write.or step.left

def store (m : Member) (trail : List String) (owner : Value) : Option Value → Reported Value
  | none => return owner
  | some v =>
    match m.access.assign owner v with
    | .ok owner => return owner
    | .error e => do
      problem .conversion trail s!"cannot assign member '{m.name}': {e.message}"
      return owner

/-- Writes one child into the member of its name. -/
def storeMember (s : Setting) (trail : List String) (t : Descriptor) (owner : Value) (child : Node)
    (read : ReadChild) : Reported Value := do
  let trail := trail ++ [child.name]
  match ← place s trail t child with
  | none => return owner
  | some p =>
    let (current, owner) := taken p.member owner
    let step ← read ⟨p.target, p.declared, some owner, some p.member, .member, trail⟩ current
    store p.member trail owner (← toStore s p trail step)

mutual

/-- Reads a node. A node marked as null asks for the null of its declared type. -/
def readNode (s : Setting) : Node → Focus → Option Value → Reported Step
  | ⟨name, attrs, text, children⟩, f, current =>
    let n : Node := ⟨name, attrs, text, children⟩
    if n.flag "Null" = some true then return ⟨.null, current⟩
    else throughOptional s
      (fun f current => do
        let step ← match f.target.shape with
          | .list element => readList s f n current element fun l xs => addItems s l children xs
          | .map key value => readMap s f n current key value fun m xs => addEntries s m children xs
          | _ =>
            match parserFor s.parsers f.target with
            | some p => readWith s f n current p
            | none => readClass f n current fun v => readMembers s f.trail f.target children v
        return closing s f n step)
      (s.types.size + 1) f current

def addItems (s : Setting) (l : ListFocus) : List Node → Value → Reported Value
  | [], xs => return xs
  | c :: cs, xs => do
    let xs ← addItem s l xs c (readNode s c)
    addItems s l cs xs

def addEntries (s : Setting) (m : MapFocus) : List Node → Value → Reported Value
  | [], xs => return xs
  | c :: cs, xs => do
    let xs ← addEntry s m xs c (readNode s c)
    addEntries s m cs xs

/-- Writes every child into the member of its name. -/
def readMembers (s : Setting) (trail : List String) (t : Descriptor) :
    List Node → Value → Reported Value
  | [], v => return v
  | c :: cs, v => do
    let v ← storeMember s trail t v c (readNode s c)
    readMembers s trail t cs v

end

/-- Fills an instance from the children of a node. -/
def populate (s : Setting) (trail : List String) (t : Descriptor) (n : Node) (v : Value) :
    Reported Value :=
  readMembers s trail t n.children v

/-- Fills a def from its node. The ID is set before and after, so no member can change it. -/
def readDef (s : Setting) (t : Descriptor) (id : String) (n : Node) (v : Value) :
    Reported Value := do
  let v ← populate s [id] t n (v.withId id)
  let v := v.withId id
  match t.postConstruct with
  | some hook => return hook ((Focus.root t [id]).context n none) v
  | none => return v

/-- Builds an instance of a class from a node of its own. -/
def buildClass (s : Setting) (t : Descriptor) (label : String) (n : Node) :
    Reported (Option Value) := do
  let f := Focus.root t [label]
  let step ← readClass f n none (readMembers s f.trail t n.children)
  match step.outcome with
  | .value v => return some (afterReading s { f.context n none with text := "" } v)
  | _ => return none

/-- Puts the members of a fresh instance into a def that is loaded again. -/
def resetMembers (id : String) (fresh : Value) : List Member → Value → Reported Value
  | [], v => return v
  | m :: ms, v =>
    if isIdName m.name then resetMembers id fresh ms v
    else
      match m.access.take fresh with
      | none => resetMembers id fresh ms v
      | some (x, fresh) =>
        match m.access.assign v x with
        | .ok v => resetMembers id fresh ms v
        | .error e => do
          .report (.error .conversion id s!"cannot reset member '{m.name}': {e.message}")
          resetMembers id fresh ms v

/-- Gives every member of a def the value that it has in a fresh instance. -/
def reset (t : Descriptor) (id : String) (v : Value) : Reported Value :=
  match t.build none with
  | .error e => do
    .report (.error .construction id s!"cannot reset reused def: {e.message}")
    return v
  | .ok fresh => do
    let v ← resetMembers id fresh t.members v
    return v.withId id

end DefLoad.Reading
