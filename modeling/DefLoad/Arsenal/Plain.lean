import DefLoad.Types.Core

/-!
A sample set of declarations, about weapons and those who carry them: its plain types and the values
that its members start with.
-/

namespace DefLoad.Arsenal

open TypeKey

def game (name : String) : TypeKey := named s!"Game.{name}"

/-! Types that are bases only and never enter a table. -/

def dynItem : TypeKey := named "dyn Item"
def dynWeapon : TypeKey := named "dyn Weapon"
def dynHero : TypeKey := named "dyn Hero"

def rarity : TypeKey := game "Rarity"
def tag : TypeKey := game "Tag"
def point : TypeKey := game "Point"
def probe : TypeKey := game "Probe"
def sealedText : TypeKey := game "Opaque"
def stats : TypeKey := game "Stats"
def fragile : TypeKey := game "Fragile"
def treeNode : TypeKey := game "TreeNode"
def effect : TypeKey := game "Effect"
def heal : TypeKey := game "Heal"
def burn : TypeKey := game "Burn"
def combo : TypeKey := game "Combo"
def ammoDef : TypeKey := game "AmmoDef"
def unit : TypeKey := game "Unit"
def heroDef : TypeKey := game "HeroDef"

/-- A type that puts nothing into the table. -/
def phantom : TypeKey := named "Phantom"

/-- A type that passes itself off as a 32-bit integer. -/
def liar : TypeKey := named "oracle_driver::fixture::Liar"

def sorted (k v : TypeKey) : TypeKey := .map .sorted k v

def inserted (k v : TypeKey) : TypeKey := .map .inserted k v

def i32Value (n : Int) : Value := .int .i32 n

def u32Value (n : Int) : Value := .int .u32 n

def f32Value (bits : Nat) : Value := .scalar .f32 (.bits bits)

def tagValue (s : String) : Value := .scalar tag (.text s)

def pointValue (x y : Int) : Value := .scalar point (.pair x y)

def statsValue (weight : Nat) (bulk : Int) (count : Int) : Value :=
  .record stats [("Weight", f32Value weight), ("Bulk", i32Value bulk), ("sealed", u32Value count)]

def fragileValue (n : Int) : Value := .record fragile [("Value", i32Value n)]

def treeValue : Value :=
  .record treeNode
    [("Value", i32Value 0), ("Children", .list treeNode []),
      ("ByName", .map .sorted string treeNode [])]

/-- The values of named types that a member starts with and is left with when it is taken. -/
def namedDefaults : List (TypeKey × Value) :=
  [(bool, .bool false), (string, .string ""), (node, .node (Node.named "")), (f32, f32Value 0),
    (f64, .scalar .f64 (.bits 0)), (rarity, .scalar rarity (.variant 0)), (tag, tagValue ""),
    (point, pointValue 0 0), (probe, .scalar probe (.text "")),
    (sealedText, .scalar sealedText (.text "")), (stats, statsValue 0 0 0),
    (fragile, fragileValue 0), (treeNode, treeValue), (phantom, .scalar phantom .unit),
    (liar, .int liar 0)] ++
  Core.integers.map fun e => (e.1, .int e.1 0)

def initial : TypeKey → Value
  | .optional k => .absent k
  | .list k => .list k []
  | .map kind k v => .map kind k v []
  | k => (namedDefaults.lookup k).getD default

/-- A type that is called by its key, without a constructor and without hooks. -/
def plainType (k : TypeKey) (shape : Shape) : Descriptor :=
  { key := k, name := k.title, fullName := k.title, schema := 0, shape := shape }

/-- A public field that leaves the given value behind when it is taken. -/
def fieldMember (owner type : TypeKey) (name : String) (default : Value) : Member :=
  ⟨name, [], type, .field, true, .default, .field owner type name default⟩

abbrev Fields := List (String × TypeKey)

def fieldParts (owner : TypeKey) (fs : Fields) : List Part :=
  fs.map fun f => .field owner f.1 f.2 (initial f.2)

def initialFields (fs : Fields) : List (String × Value) := fs.map fun f => (f.1, initial f.2)

def setFields (v : Value) (fs : List (String × Value)) : Value :=
  fs.foldl (fun v f => v.setField f.1 f.2) v

/-- A fresh def of a class: its ID, its fields, and what it stores besides. -/
def newDef (k : TypeKey) (fs : Fields) (besides : List (String × Value)) : Value :=
  .record k (("id", .string "") :: initialFields fs ++ besides)

/-- A def whose members are plain fields. -/
def plainDef (k : TypeKey) (bases : List TypeKey) (fs : Fields) (besides : List (String × Value))
    (roles : Roles) : TypeKey × Declaration :=
  (k, .class k.title (.ok (newDef k fs besides)) (bases.map .base ++ fieldParts k fs) roles)

/-- A def without callbacks of its own. -/
def asDef : Roles := { defRole := some {} }

end DefLoad.Arsenal
