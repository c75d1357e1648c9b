import DefLoad.Types.Descriptor

/-!
The table of all types of a load: who is a subtype of whom, and which values fit where.
-/

namespace DefLoad

/-- A named group of types, in the order of their registration. -/
structure Schema where
  name : String
  types : List TypeKey
deriving Repr

structure TypeTable where
  types : Assoc TypeKey Descriptor
  schemas : List Schema

namespace TypeTable

def get? (r : TypeTable) (k : TypeKey) : Option Descriptor := r.types.get? k

def schema? (r : TypeTable) (name : String) : Option Schema := r.schemas.find? (·.name == name)

def size (r : TypeTable) : Nat := r.types.length

def unregistered : String := "<unregistered>"

/-- The name of a type in messages. -/
def nameOf (r : TypeTable) (k : TypeKey) : String :=
  match r.get? k with
  | some t => t.name
  | none => unregistered

def bases (r : TypeTable) (k : TypeKey) : List TypeKey :=
  match r.get? k with
  | some t => t.bases
  | none => []

/-! Bases are searched depth first, the last declared base first. Every key that is looked at is
either a repetition or new, and only registered types have bases to add, so as many steps as there
are declared bases suffice. -/

/-- The number of declared bases in all. -/
def baseCount (r : TypeTable) : Nat := r.types.foldl (fun n e => n + e.2.bases.length) 0

def reaches (r : TypeTable) (parent : TypeKey) : Nat → List TypeKey → List TypeKey → Bool
  | 0, _, _ => false
  | _, _, [] => false
  | n + 1, visited, k :: stack =>
    if k = parent then true
    else if k ∈ visited then reaches r parent n visited stack
    else reaches r parent n (k :: visited) ((r.bases k).reverse ++ stack)

/-- `child` is `parent` or declares it as a base, directly or through others. -/
def isSubtype (r : TypeTable) (child parent : TypeKey) : Bool :=
  r.reaches parent (r.baseCount + 1) [] [child]

def collect (r : TypeTable) (origin : TypeKey) : Nat → List TypeKey → List TypeKey → List TypeKey
  | 0, found, _ => found
  | _, found, [] => found
  | n + 1, found, k :: stack =>
    if k = origin ∨ k ∈ found then collect r origin n found stack
    else collect r origin n (found ++ [k]) ((r.bases k).reverse ++ stack)

/-- All bases of a type, direct or not, without the type itself. -/
def supertypes (r : TypeTable) (k : TypeKey) : List TypeKey :=
  r.collect k (r.baseCount + 1) [] (r.bases k).reverse

/-! A value fits an optional type when it fits the inner one. A chain of inner types that is longer
than the table has come back to where it was. -/

def fitsWithin (r : TypeTable) (source : TypeKey) : Nat → TypeKey → Bool
  | 0, target => source = target
  | n + 1, target =>
    if source = target then true
    else
      match (r.get? target).map Descriptor.shape with
      | some (.optional inner) => fitsWithin r source n inner
      | some (.abstract standIns) => standIns.any (·.key = source)
      | _ => false

/-- Whether a value of one type can be stored where another is declared. -/
def fits (r : TypeTable) (source target : TypeKey) : Bool :=
  r.fitsWithin source (r.size + 1) target

/-- Puts a value in for an abstract type; a value of another type is handed back. -/
def upcast (abstract : TypeKey) (i : StandIn) (v : Value) : Except Value Value :=
  if v.type = i.concrete then .ok (.boxed abstract v) else .error v

def wrapped (target : TypeKey) (v : Value) : Except Value Value :=
  match Value.wrap target v with
  | some w => .ok w
  | none => .error v

def convertWithin (r : TypeTable) (v : Value) : Nat → TypeKey → Except Value Value
  | 0, target => if v.type = target then .ok v else .error v
  | n + 1, target =>
    if v.type = target then .ok v
    else
      match (r.get? target).map Descriptor.shape with
      | some (.optional inner) => (convertWithin r v n inner).bind (wrapped target)
      | some (.abstract standIns) =>
        match standIns.find? (·.key = v.type) with
        | some i => upcast target i v
        | none => .error v
      | _ => .error v

/-- Converts a value to a declared type, wrapping it or putting it in for an abstract type. A value
that does not fit is handed back. -/
def convert (r : TypeTable) (v : Value) (target : TypeKey) : Except Value Value :=
  r.convertWithin v (r.size + 1) target

/-- The type inside an optional type; other types are their own. -/
def stripOptional (r : TypeTable) (k : TypeKey) : TypeKey :=
  match (r.get? k).map Descriptor.shape with
  | some (.optional inner) => inner
  | _ => k

/-- What an explicit null writes: nothing into an optional type, a fresh value into another. -/
def null? (r : TypeTable) (k : TypeKey) : Option Value :=
  (r.get? k).bind fun t =>
    match t.shape with
    | .optional _ => Value.none? k
    | _ => (t.build none).toOption

theorem convert_self (r : TypeTable) (v : Value) : r.convert v v.type = .ok v := by
  simp [convert, convertWithin]

theorem fits_self (r : TypeTable) (k : TypeKey) : r.fits k k = true := by
  simp [fits, fitsWithin]

end TypeTable

end DefLoad
