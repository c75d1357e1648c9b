import DefLoad.Bindings
import DefLoad.Parsers
import DefLoad.Reading.Reported

/-!
The surroundings of a node that is being read, and what reading it can come to.
-/

namespace DefLoad.Reading

/-- What all nodes of a load share. -/
structure Setting where
  env : Env
  parsers : List Parser

def Setting.types (s : Setting) : TypeTable := s.env.types

structure Focus where
  /-- The type to produce; it may be a subtype of the declared one. -/
  target : Descriptor
  declared : Descriptor
  owner : Option Value
  member : Option Member
  slot : Slot
  /-- The names from the def down to the node. -/
  trail : List String

/-- A node without an owner, read as its own type. -/
def Focus.root (t : Descriptor) (trail : List String) : Focus := ⟨t, t, none, none, .root, trail⟩

def Focus.context (f : Focus) (n : Node) (current : Option Value) : Context :=
  ⟨some n, n.text.getD "", f.target.key, f.declared.key, current, f.owner, f.member, f.slot⟩

inductive Outcome
  /-- Nothing to write; what is stored stays. -/
  | noValue
  | value (v : Value)
  /-- Write the null of the declared type. -/
  | null

/-- A value that was stored and is still untouched, beside the outcome. -/
structure Step where
  outcome : Outcome
  left : Option Value

def pathOf (trail : List String) : String := String.intercalate "/" trail

def problem (stage : Stage) (trail : List String) (message : String) : Reported Unit :=
  .report (.error stage (pathOf trail) message)

def notice (stage : Stage) (trail : List String) (message : String) : Reported Unit :=
  .report (.warning stage (pathOf trail) message)

/-- Nothing to write, for a reason. -/
def fail (stage : Stage) (trail : List String) (message : String) (left : Option Value) :
    Reported Step := do
  problem stage trail message
  return ⟨.noValue, left⟩

/-- The stored value can be filled further when it is of the very type that is read. -/
def reusable (t : Descriptor) (current : Option Value) : Option Value :=
  current.filter (·.type = t.key)

theorem reusable_eq_some {t : Descriptor} {current : Option Value} {v : Value} :
    reusable t current = some v ↔ current = some v ∧ v.type = t.key := by
  simp [reusable, Option.filter_eq_some_iff]

/-- Goes on from the stored value, or from a fresh one. -/
def resume (f : Focus) (n : Node) (current : Option Value) (fill : Value → Reported Value) :
    Reported Step :=
  match reusable f.target current with
  | some v => do
    let v ← fill v
    return ⟨.value v, none⟩
  | none =>
    match f.target.build (some (f.context n current)) with
    | .ok v => do
      let v ← fill v
      return ⟨.value v, current⟩
    | .error e => fail .construction f.trail e.message current

/-- Runs the hook of the value's own type that comes after it was read. -/
def afterReading (s : Setting) (c : Context) (v : Value) : Value :=
  match (s.types.get? v.type).bind Descriptor.postConstruct with
  | some hook => hook c v
  | none => v

/-- The type named by an attribute of a container, or the declared one. -/
def elementType (s : Setting) (n : Node) (attr : String) (declared : TypeKey)
    (trail : List String) : Reported (Option TypeKey) :=
  match n.attr attr with
  | none => return some declared
  | some name => do
    let wanted := s.types.nameOf declared
    match s.types.resolve name with
    | none =>
      problem .resolution trail s!"cannot resolve {attr} '{name}', falling back to {wanted}"
      return some declared
    | some found =>
      let found := s.types.stripOptional found
      if s.types.fits found declared then return some found
      else
        problem .resolution trail s!"{attr} '{name}' is not assignable to {wanted}"
        return none

/-- The type that a child asks for, or the declared one. A child that asks for a type that does not
fit is skipped. -/
def wantedType (s : Setting) (child : Node) (declared : Descriptor) (trail : List String) :
    Reported (Option Descriptor) :=
  match child.attr "Type" with
  | none => return some declared
  | some name => do
    match s.types.resolve name with
    | none =>
      problem .resolution trail s!"cannot resolve type '{name}', falling back to {declared.name}"
      return some declared
    | some found =>
      let found := s.types.stripOptional found
      if s.types.fits found declared.key then return s.types.get? found
      else
        problem .resolution trail s!"type '{name}' is not assignable to {declared.name}"
        return none

/-- How a child is read once its focus is known. -/
abbrev ReadChild := Focus → Option Value → Reported Step

/-- The value that a child asks to be written: what was read, or the null of the declared type. -/
def toWrite (s : Setting) (o : Outcome) (declared : TypeKey) (trail : List String)
    (complaint : String) : Reported (Option Value) :=
  match o with
  | .value v => return some v
  | .noValue => return none
  | .null =>
    match s.types.null? declared with
    | some v => return some v
    | none => do
      problem .conversion trail complaint
      return none

end DefLoad.Reading
