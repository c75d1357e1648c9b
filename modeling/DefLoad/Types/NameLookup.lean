import DefLoad.Text.Blank
import DefLoad.Types.TypeTable

/-!
Finding a type by the name that a document uses: `Full.Name, schema`, then full names, then short
names, each in the order of the schemas. A lookup remembers its answers.
-/

namespace DefLoad

namespace TypeTable

/-- All types in the order of the schemas. -/
def listed (r : TypeTable) : List TypeKey := r.schemas.flatMap Schema.types

def find? (r : TypeTable) (ks : List TypeKey) (p : Descriptor → Bool) : Option TypeKey :=
  ks.find? fun k => (r.get? k).any p

/-- The text before the first comma and the text after it. -/
def splitAtComma : List Char → Option (List Char × List Char)
  | [] => none
  | c :: cs =>
    if c = ',' then some ([], cs)
    else (splitAtComma cs).map fun (a, b) => (c :: a, b)

/-- Reads a name as a full name and a schema, divided by a comma. -/
def qualified? (r : TypeTable) (name : String) : Option TypeKey :=
  (splitAtComma name.toList).bind fun (full, schema) =>
    (r.schema? (String.ofList (Text.trimChars schema))).bind fun s =>
      r.find? s.types (·.fullName == String.ofList (Text.trimChars full))

/-- Searches for a trimmed name. -/
def search (r : TypeTable) (name : String) : Option TypeKey :=
  ((r.qualified? name).or (r.find? r.listed (·.fullName == name))).or
    (r.find? r.listed (·.name == name))

/-- The type that a name in a document means. -/
def resolve (r : TypeTable) (name : String) : Option TypeKey :=
  let name := Text.trim name
  if name.isEmpty then none else r.search name

end TypeTable

/-- The answers given so far, by trimmed name. -/
structure NameLookup where
  answers : Assoc String (Option TypeKey)

namespace NameLookup

def empty : NameLookup := ⟨[]⟩

/-- Answers from memory, or searches and remembers, also that nothing was found. -/
def resolve (s : NameLookup) (r : TypeTable) (name : String) : Option TypeKey × NameLookup :=
  let name := Text.trim name
  if name.isEmpty then (none, s)
  else
    match s.answers.get? name with
    | some answer => (answer, s)
    | none =>
      let answer := r.search name
      (answer, ⟨s.answers.set name answer⟩)

/-- Forgets all answers. -/
def forget (_ : NameLookup) : NameLookup := empty

/-- Everything remembered is what a search finds. -/
def Sound (s : NameLookup) (r : TypeTable) : Prop :=
  ∀ name answer, s.answers.get? name = some answer → answer = r.search name

theorem empty_sound (r : TypeTable) : empty.Sound r := by
  intro name answer h
  simp [empty, Assoc.get?] at h

end NameLookup

end DefLoad
