import DefLoad.Types.Declaration
import DefLoad.Types.TypeTable

/-!
Building the table of types. A type is entered once; describing it brings in all types that it
mentions.
-/

namespace DefLoad

structure Builder where
  catalog : Catalog
  types : Assoc TypeKey Descriptor
  schemas : List Schema
  /-- The index of the schema that new types enter. -/
  current : Nat

namespace Builder

/-- The schema of containers and of the types that every program has. -/
def core : String := "core"

def empty (catalog : Catalog) : Builder := ⟨catalog, [], [⟨core, []⟩], 0⟩

def contains (b : Builder) (k : TypeKey) : Bool := Assoc.contains b.types k

def table (b : Builder) : TypeTable := ⟨b.types, b.schemas⟩

def nameOf (b : Builder) (k : TypeKey) : String := b.table.nameOf k

/-- Selects the schema of a name, at its first use as the last one. -/
def schema (b : Builder) (name : String) : Builder :=
  match b.schemas.findIdx? (·.name == name) with
  | some i => { b with current := i }
  | none => { b with schemas := b.schemas ++ [⟨name, []⟩], current := b.schemas.length }

/-- Enters a descriptor. One that is there already is replaced and stays in its schema. -/
def insert (b : Builder) (t : Descriptor) : Builder :=
  match Assoc.get? b.types t.key with
  | some old => { b with types := Assoc.set b.types t.key { t with schema := old.schema } }
  | none =>
    { b with
      types := Assoc.set b.types t.key t
      schemas := b.schemas.modify t.schema fun s => { s with types := s.types ++ [t.key] } }

def modify (b : Builder) (k : TypeKey) (f : Descriptor → Descriptor) : Builder :=
  match Assoc.get? b.types k with
  | some t => { b with types := Assoc.set b.types k (f t) }
  | none => b

/-- The descriptor of a type with a name of its own. -/
def named (b : Builder) (k : TypeKey) (fullName : String) (shape : Shape) : Descriptor :=
  { key := k, name := TypeKey.localName fullName, fullName := fullName, schema := b.current,
    shape := shape }

/-- The descriptor of a container; it is called by one name only. -/
def container (k : TypeKey) (name : String) (shape : Shape) (default : Option Value) : Descriptor :=
  { key := k, name := name, fullName := name, schema := 0, shape := shape,
    construct := default.map .ok }

/-- What a class collects while its parts are described. -/
structure Draft where
  members : List Member
  bases : List TypeKey

/-- Describes a type: enters it and all that it mentions, and gives the key under which values of it
are declared. A class is entered before its members. -/
def describe : Nat → Builder → TypeKey → Builder × TypeKey
  | 0, b, k => (b, k)
  | n + 1, b, k =>
    match k with
    | .named _ =>
      if b.contains k then (b, k)
      else
        match Assoc.get? b.catalog k with
        | none | some .silent => (b, k)
        | some (.sameAs target) => describe n b target
        | some (.scalar fullName default) =>
          (b.insert { b.named k fullName .scalar with construct := default.map .ok }, k)
        | some (.enumeration fullName variants) =>
          let first := if variants.isEmpty then none else some (.ok (.scalar k (.variant 0)))
          (b.insert { b.named k fullName (.enumeration variants) with construct := first }, k)
        | some (.class fullName construct parts roles) =>
          let b := b.insert
            { b.named k fullName (.class []) with
              construct := some construct
              preConstruct := roles.preConstruct
              postConstruct := roles.postConstruct
              defRole := roles.defRole
              patchRole := roles.patchRole }
          let (b, draft) :=
            parts.foldl (fun (b, draft) part => describePart n b draft part) (b, ⟨[], []⟩)
          (b.modify k fun t => { t with shape := .class draft.members, bases := draft.bases }, k)
        | some (.abstract fullName concretes) =>
          let b := b.insert (b.named k fullName (.abstract []))
          let (b, standIns) := concretes.foldl (fun (b, is) concrete =>
            let (b, key) := describe n b concrete
            (b, is ++ [⟨key, concrete⟩])) (b, [])
          (b.modify k fun t => { t with shape := .abstract standIns }, k)
    | .optional inner =>
      if b.contains k then (b, k)
      else
        let (b, declared) := describe n b inner
        let name := s!"Option<{b.nameOf declared}>"
        (b.insert (container k name (.optional declared) (some (.absent inner))), k)
    | .list element =>
      if b.contains k then (b, k)
      else
        let (b, declared) := describe n b element
        let name := s!"Vec<{b.nameOf declared}>"
        (b.insert (container k name (.list declared) (some (.list element []))), k)
    | .map kind key value =>
      if b.contains k then (b, k)
      else
        let (b, declaredKey) := describe n b key
        let (b, declaredValue) := describe n b value
        let name := s!"{kind.name}<{b.nameOf declaredKey}, {b.nameOf declaredValue}>"
        let default := Value.map kind key value []
        (b.insert (container k name (.map declaredKey declaredValue) (some default)), k)
    | .ref target =>
      if b.contains k then (b, k)
      else (b.insert (container k s!"DefRef<{target.targetName}>" (.ref target) none), k)
where
  describePart (n : Nat) (b : Builder) (draft : Draft) : Part → Builder × Draft
    | .member name type kind aliases isPublic inclusion access =>
      let (b, declared) := describe n b type
      let m : Member := ⟨name, aliases, declared, kind, isPublic, inclusion, access⟩
      (b, { draft with members := draft.members ++ [m] })
    | .embed type within =>
      let (b, declared) := describe n b type
      let inherited := match Assoc.get? b.types declared with
        | some t => t.members.map fun m => { m with access := within m.access }
        | none => []
      (b, ⟨draft.members ++ inherited, draft.bases ++ [declared]⟩)
    | .base type => (b, { draft with bases := draft.bases ++ [type] })

/-- Steps that suffice to describe a type: going into a container makes the type smaller, going into
a declaration uses up one entry of the catalog. -/
def budget (c : Catalog) (k : TypeKey) : Nat := (c.length + 1) * (c.breadth + 1) + k.size

/-- Enters a type and all that it mentions. -/
def register (b : Builder) (k : TypeKey) : Builder := (describe (budget b.catalog k) b k).1

def registerAll (b : Builder) (ks : List TypeKey) : Builder := ks.foldl register b

end Builder

end DefLoad
