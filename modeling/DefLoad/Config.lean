import DefLoad.Kdl.Document

/-!
Settings of a load, and reading them from KDL. A setting that is given replaces its default, the
last one of a name counts.
-/

namespace DefLoad

/-- What happens when several nodes claim one ID. -/
inductive DuplicatePolicy
  | firstWins
  | lastWins
  | rejectAll
deriving DecidableEq, Repr

structure Config where
  /-- Which visibilities are bound unless a member asks otherwise. -/
  bindPublic : Bool := true
  bindNonPublic : Bool := false
  /-- Which kinds of member are bound unless a member asks otherwise. -/
  bindFields : Bool := true
  bindProperties : Bool := false
  caseSensitive : Bool := true
  /-- The name of list items; a node that holds only these is merged by appending. -/
  listItem : String := "li"
  duplicates : DuplicatePolicy := .firstWins
  /-- Whether defs that a reload finds again get their callbacks again. -/
  rerunCallbacks : Bool := true
deriving DecidableEq, Repr

instance : Inhabited Config := ⟨{}⟩

inductive ConfigError
  | malformed
  | unreadable (path : String)
  | unknownSetting (name : String)
  | invalidValue (setting expected : String)
deriving DecidableEq, Repr

def ConfigError.message : ConfigError → String
  | malformed => "KDL parse error: " ++ DocumentError.malformedText
  | unreadable path => s!"I/O error reading {path}"
  | unknownSetting name => s!"unknown setting: {name}"
  | invalidValue setting expected => s!"invalid value for '{setting}': expected {expected}"

namespace Config

open Kdl (Element Entry Value)

def arguments (e : Element) : List Value :=
  e.entries.filterMap fun
    | .argument v => some v
    | .property _ _ => none

def Value.word? : Value → Option String
  | .text s => some s
  | _ => none

/-- The meanings of all words, if every argument is a word with a meaning. -/
def choices {α : Type} (e : Element) (expected : String) (meaning : String → Option α) :
    Except ConfigError (List α) :=
  match (arguments e).mapM fun v => (Value.word? v).bind meaning with
  | some xs => .ok xs
  | none => .error (.invalidValue e.name expected)

/-- The meaning of the first argument. -/
def choice {α : Type} (e : Element) (expected : String) (meaning : Value → Option α) :
    Except ConfigError α :=
  match (arguments e).head?.bind meaning with
  | some x => .ok x
  | none => .error (.invalidValue e.name expected)

def switch (e : Element) : Except ConfigError Bool :=
  choice e "#true or #false" fun
    | .bool b => some b
    | _ => none

def visibilityWord : String → Option Bool
  | "public" => some true
  | "non-public" => some false
  | _ => none

def kindWord : String → Option Bool
  | "field" => some true
  | "property" => some false
  | _ => none

def duplicateWord : String → Option DuplicatePolicy
  | "first-wins" => some .firstWins
  | "last-wins" => some .lastWins
  | "reject-all" => some .rejectAll
  | _ => none

def readSetting (c : Config) (e : Element) : Except ConfigError Config :=
  match e.name with
  | "member-visibility" =>
    (choices e "\"public\" or \"non-public\"" visibilityWord).map fun ws =>
      { c with bindPublic := ws.contains true, bindNonPublic := ws.contains false }
  | "member-kinds" =>
    (choices e "\"field\" or \"property\"" kindWord).map fun ws =>
      { c with bindFields := ws.contains true, bindProperties := ws.contains false }
  | "case-sensitive-members" => (switch e).map fun b => { c with caseSensitive := b }
  | "list-item-name" =>
    (choice e "a non-empty string" fun v => (Value.word? v).filter (· != "")).map fun s =>
      { c with listItem := s }
  | "duplicate-ids" =>
    (choice e "\"first-wins\", \"last-wins\" or \"reject-all\""
      fun v => (Value.word? v).bind duplicateWord).map fun d => { c with duplicates := d }
  | "rerun-callbacks-on-reload" => (switch e).map fun b => { c with rerunCallbacks := b }
  | name => .error (.unknownSetting name)

def parse (s : String) : Except ConfigError Config :=
  match Kdl.read? s.toList with
  | none => .error .malformed
  | some elements => elements.foldlM readSetting {}

end Config

end DefLoad
