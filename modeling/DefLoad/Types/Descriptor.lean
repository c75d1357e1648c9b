import DefLoad.Diagnostic
import DefLoad.Patch
import DefLoad.Types.Member

/-!
Descriptors: all that a load knows about a type.
-/

namespace DefLoad

/-- Where a value that is being read will be stored. -/
inductive Slot
  /-- A def, a patch, or a value without an owner. -/
  | root
  | member
  | item (index : Nat)
  | entry (key : Value)

/-- What a reading step can see beyond the types. -/
structure Context where
  /-- Absent for map keys, which are read from their text alone. -/
  node : Option Node
  text : String
  /-- The type to produce; it may be a subtype of the declared one. -/
  target : TypeKey
  declared : TypeKey
  /-- The value that is stored in the slot now. -/
  current : Option Value
  owner : Option Value
  member : Option Member
  slot : Slot

def Context.attr (c : Context) (key : String) : Option String := c.node.bind (·.attr key)

/-- What a def says about its own configuration, in order. -/
abbrev ConfigReport := List (Severity × String)

namespace ConfigReport

def error (r : ConfigReport) (message : String) : ConfigReport := r ++ [(.error, message)]

def warn (r : ConfigReport) (message : String) : ConfigReport := r ++ [(.warning, message)]

/-- Complains unless the condition holds. -/
def require (r : ConfigReport) (condition : Bool) (message : String) : ConfigReport :=
  if condition then r else r.error s!"Assert failed: {message}"

def diagnostics (r : ConfigReport) (id : String) : Diagnostics :=
  r.map fun (severity, message) => ⟨severity, .config, id, message⟩

end ConfigReport

/-- The callbacks of a def. Each gives the def as it leaves it and the text of a failure. -/
structure DefRole where
  postLoad : Value → Value × Option String := fun v => (v, none)
  latePostLoad : Value → Value × Option String := fun v => (v, none)
  configErrors : Value → ConfigReport × Option String := fun _ => ([], none)

/-- A concrete type that can stand in for an abstract one. -/
structure StandIn where
  /-- The type under which it is known. -/
  key : TypeKey
  /-- The type of the values that it takes. -/
  concrete : TypeKey

/-- How nodes map onto a type. -/
inductive Shape
  | scalar
  | enumeration (names : List String)
  | optional (inner : TypeKey)
  | list (element : TypeKey)
  | map (key value : TypeKey)
  | class (members : List Member)
  | abstract (standIns : List StandIn)
  | ref (target : TypeKey)

structure Descriptor where
  key : TypeKey
  name : String
  fullName : String
  /-- The index of the schema that lists the type. -/
  schema : Nat
  shape : Shape
  bases : List TypeKey := []
  /-- A fresh value, or the reason why there is none. -/
  construct : Option (Except String Value) := none
  preConstruct : Option (Option Context → Value → Value) := none
  postConstruct : Option (Context → Value → Value) := none
  defRole : Option DefRole := none
  patchRole : Option (Value → Node → PatchResult × Node) := none

inductive InstanceError
  | abstract (type : String)
  | noConstructor (type : String)
  | failed (type reason : String)
deriving DecidableEq, Repr

def InstanceError.message : InstanceError → String
  | abstract type => s!"cannot create an instance of abstract type '{type}'"
  | noConstructor type => s!"type '{type}' has no constructor"
  | failed type reason => s!"failed to create an instance of '{type}': {reason}"

namespace Descriptor

def members (t : Descriptor) : List Member :=
  match t.shape with
  | .class ms => ms
  | _ => []

def isAbstract (t : Descriptor) : Bool :=
  match t.shape with
  | .abstract _ => true
  | _ => false

def isDef (t : Descriptor) : Bool := t.defRole.isSome

def isPatch (t : Descriptor) : Bool := t.patchRole.isSome

/-- Builds a fresh value and runs the hook that comes before its members are read. -/
def build (t : Descriptor) (c : Option Context) : Except InstanceError Value :=
  if t.isAbstract then .error (.abstract t.fullName)
  else
    match t.construct with
    | none => .error (.noConstructor t.fullName)
    | some (.error reason) => .error (.failed t.fullName reason)
    | some (.ok v) =>
      match t.preConstruct with
      | some hook => .ok (hook c v)
      | none => .ok v

/-- The value of an enumeration's variant. -/
def variant? (t : Descriptor) (text : String) : Option Value :=
  match t.shape with
  | .enumeration names => (names.findIdx? (· == text)).map fun i => .scalar t.key (.variant i)
  | _ => none

end Descriptor

end DefLoad
