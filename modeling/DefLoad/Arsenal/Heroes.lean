import DefLoad.Arsenal.Effects

/-!
Heroes: classes that embed other classes, members under several names, and members that the binding
policy treats in every way it can.
-/

namespace DefLoad.Arsenal

open TypeKey

def unitParts : List Part :=
  [.field unit "Name" string (.string ""),
    .member "Level" u32 .field ["Lvl", "Rank"] true .default (.field unit u32 "Level" (u32Value 0)),
    .member "Hidden" i32 .field [] false .default (.field unit i32 "Hidden" (i32Value 0))]

def newUnit : Value := newDef unit [("Name", string), ("Level", u32), ("Hidden", i32)] []

def getField (name : String) (v : Value) : Value := (v.field? name).getD default

/-- Cuts the blanks off and counts the call. -/
def setTitle (v title : Value) : Value :=
  let text := match title with
    | .scalar _ (.text s) => Text.trim s
    | _ => ""
  (v.setField "Title" (.string text)).setField "titles_set" (u32Value (v.intField "titles_set" + 1))

def heroParts : List Part :=
  [.embed unit (.within heroDef "unit"),
    .member "Title" string .property [] true .default
      (.property heroDef string (getField "Title") setTitle),
    .member "iD" string .field ["Serial"] true .default (.field heroDef string "iD" (.string "")),
    .member "Secret" string .field [] false .default (.field heroDef string "Secret" (.string "")),
    .member "Forced" bool .field [] false .include (.field heroDef bool "Forced" (.bool false)),
    .member "Skipped" i32 .field [] true .exclude (.field heroDef i32 "Skipped" (i32Value 0)),
    .field heroDef "Mana" i32 (i32Value 0),
    .field heroDef "MANA" i32 (i32Value 0),
    .member "Motto" string .property ["id", "Saying"] false .default
      (.property heroDef string (getField "Motto") fun v x => v.setField "Motto" x),
    .base dynHero]

def newHero : Value :=
  .record heroDef
    [("id", .string ""), ("iD", .string ""), ("unit", newUnit), ("Title", .string ""),
      ("Secret", .string ""), ("Forced", .bool false), ("Skipped", i32Value 0),
      ("Mana", i32Value 0), ("MANA", i32Value 0), ("Motto", .string ""), ("titles_set", u32Value 0)]

def heroRole : DefRole where
  latePostLoad v :=
    (if (v.textField "iD").isEmpty then v.setField "iD" (.string s!"late:{v.id}") else v, none)

def eliteDef : TypeKey := game "EliteDef"

def eliteParts : List Part :=
  [.base dynItem, .embed heroDef (.within eliteDef "hero"),
    .field eliteDef "Level" u64 (.int .u64 0),
    .field eliteDef "Crown" (.optional string) (.absent string)]

def newElite : Value :=
  .record eliteDef
    [("id", .string ""), ("hero", newHero), ("Level", .int .u64 0), ("Crown", .absent string),
      ("note", .string "")]

def crown (c : Option Context) (v : Value) : Value :=
  v.setField "Crown" (.present (.string (if c.isSome then "gold" else "paper")))

/-- The text of the context and the note of its node. -/
def noteOf (c : Context) : String :=
  let note := (c.attr "Note").getD "-"
  s!"{c.text}:{note}"

def addNote (c : Context) (v : Value) : Value :=
  let old := v.textField "note"
  v.setField "note" (.string s!"{old}+{noteOf c}")

def heroCatalog : Catalog :=
  [(unit, .class unit.title (.ok newUnit) unitParts asDef),
    (heroDef, .class heroDef.title (.ok newHero) heroParts { defRole := some heroRole }),
    (eliteDef, .class eliteDef.title (.ok newElite) eliteParts
      { preConstruct := some crown, postConstruct := some addNote, defRole := some {} })]

end DefLoad.Arsenal
