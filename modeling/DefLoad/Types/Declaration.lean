import DefLoad.Types.Descriptor

/-!
Declarations: how a program describes its own types, before they are put into a table.
-/

namespace DefLoad

/-- A member or a base of a class, in the order in which the class names them. -/
inductive Part
  /-- A member whose type is described first. -/
  | member (name : String) (type : TypeKey) (kind : MemberKind) (aliases : List String)
      (isPublic : Bool) (inclusion : Inclusion) (access : Access)
  /-- All members of another class, reached through the given access, and that class as a base. -/
  | embed (type : TypeKey) (within : Access → Access)
  | base (type : TypeKey)

/-- What a class can do besides holding members. -/
structure Roles where
  preConstruct : Option (Option Context → Value → Value) := none
  postConstruct : Option (Context → Value → Value) := none
  defRole : Option DefRole := none
  patchRole : Option (Value → Node → PatchResult × Node) := none

inductive Declaration
  /-- A plain value. -/
  | scalar (fullName : String) (default : Option Value)
  /-- The first variant is the default. -/
  | enumeration (fullName : String) (variants : List String)
  | class (fullName : String) (construct : Except String Value) (parts : List Part) (roles : Roles)
  /-- The concrete types that stand in for it. -/
  | abstract (fullName : String) (standIns : List TypeKey)
  /-- A type that passes itself off as another one. -/
  | sameAs (target : TypeKey)
  /-- A type that puts nothing into the table. -/
  | silent

/-- All named types that a program declares. -/
abbrev Catalog := Assoc TypeKey Declaration

namespace Part

/-- The types that a part describes. -/
def type? : Part → Option TypeKey
  | member _ type _ _ _ _ _ => some type
  | embed type _ => some type
  | base _ => none

end Part

namespace Declaration

/-- The types that a declaration describes along with its own. -/
def mentions : Declaration → List TypeKey
  | .class _ _ parts _ => parts.filterMap Part.type?
  | abstract _ standIns => standIns
  | sameAs target => [target]
  | _ => []

end Declaration

/-- The largest type that is mentioned anywhere. -/
def Catalog.breadth (c : Catalog) : Nat :=
  ((c.flatMap fun e => e.2.mentions).map TypeKey.size).foldl max 1

end DefLoad
