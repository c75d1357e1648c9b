import DefLoad.Config
import DefLoad.Text.Ascii
import DefLoad.Types.TypeTable

/-!
Which members the children of a node may name. The ID belongs to the load itself and is never bound.
-/

namespace DefLoad

/-- `id` in any case. -/
def isIdName (name : String) : Bool := Text.sameIgnoringCase name "id"

namespace Config

/-- Whether the policy lets a member be bound. -/
def admits (c : Config) (m : Member) : Bool :=
  match m.inclusion with
  | .include => true
  | .exclude => false
  | .default =>
    (match m.kind with
      | .field => c.bindFields
      | .property => c.bindProperties) &&
    (if m.isPublic then c.bindPublic else c.bindNonPublic)

def isBound (c : Config) (m : Member) : Bool := c.admits m && !isIdName m.name

def matchesName (c : Config) (candidate name : String) : Bool :=
  if c.caseSensitive then candidate == name else Text.sameIgnoringCase candidate name

/-- The members of a class that can be bound. -/
def boundMembers (c : Config) (t : Descriptor) : List Member := t.members.filter c.isBound

/-- The place of the first member that is bound to a name. -/
def memberIndex? (c : Config) (t : Descriptor) (name : String) : Option Nat :=
  if isIdName name then none
  else t.members.findIdx? fun m => c.isBound m && m.names.any (c.matchesName · name)

def member? (c : Config) (t : Descriptor) (name : String) : Option Member :=
  (c.memberIndex? t name).bind fun i => t.members[i]?

/-- The form of a name under which its answer is remembered. -/
def normalized (c : Config) (name : String) : String :=
  if c.caseSensitive then name else Text.lower name

end Config

/-- A binding policy that remembers its answers by type and normalized name. -/
structure Bindings where
  config : Config
  answers : Assoc (TypeKey × String) (Option Nat)

namespace Bindings

def ofConfig (c : Config) : Bindings := ⟨c, []⟩

def find (b : Bindings) (t : Descriptor) (name : String) : Option Nat × Bindings :=
  match t.shape with
  | .class _ =>
    let key := (t.key, b.config.normalized name)
    match Assoc.get? b.answers key with
    | some answer => (answer, b)
    | none =>
      let answer := b.config.memberIndex? t name
      (answer, { b with answers := Assoc.set b.answers key answer })
  | _ => (none, b)

end Bindings

end DefLoad
