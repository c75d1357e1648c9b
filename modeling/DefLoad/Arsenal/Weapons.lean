import DefLoad.Arsenal.Effects

/-!
Weapons, ammunition and loot.
-/

namespace DefLoad.Arsenal

open TypeKey

def ammoFields : Fields := [("Caliber", f32), ("Count", u8), ("Pierce", .optional i32)]

def gunDef : TypeKey := game "GunDef"

def gunFields : Fields :=
  [("Damage", i32), ("Range", f32), ("Label", .optional string), ("Tags", .list string),
    ("Costs", sorted string u32), ("Ammo", .optional (.ref ammoDef)),
    ("Sight", .optional (.ref dynWeapon)), ("Linked", .list (.ref dynWeapon)), ("Stats", stats),
    ("Spare", .optional stats), ("Effects", .list effect), ("Primary", .optional effect),
    ("Rarity", rarity)]

def bitsOf : Option Value → Nat
  | some (.scalar _ (.bits b)) => b
  | _ => 0

/-- Twice the damage, as a floating-point number. -/
def gunPostLoad (v : Value) : Value :=
  let dps := f32Value (Decimal.Format.single.ofInt (2 * v.intField "Damage"))
  (v.setField "post_loads" (u32Value (v.intField "post_loads" + 1))).setField "dps" dps

def gunConfigErrors (v : Value) : ConfigReport :=
  let r := ConfigReport.require [] (0 ≤ v.intField "Damage") "damage must not be negative"
  let range := Decimal.Number.ofBits .single (bitsOf (v.field? "Range"))
  if range.exceeds 100 then r.warn "range is unusually long" else r

def gunRole : DefRole where
  postLoad v := (gunPostLoad v, none)
  configErrors v := (gunConfigErrors v, none)

def swordDef : TypeKey := game "SwordDef"

def swordFields : Fields :=
  [("Edge", u32), ("Runes", .list string), ("Gems", sorted string u32), ("Hilt", stats)]

/-- Two and a half. -/
def hiltWeight : Nat := 0x40200000

def newSword : Value :=
  setFields (newDef swordDef swordFields [])
    [("Edge", u32Value 1), ("Runes", .list string [.string "base"]),
      ("Gems", .map .sorted string u32 [(.string "ruby", u32Value 1)]),
      ("Hilt", statsValue hiltWeight 7 0)]

def swordRole : DefRole where
  latePostLoad v := (v, if v.intField "Edge" = 0 then some s!"sword {v.id} is blunt" else none)

def lootFields : Fields :=
  [("Weights", sorted tag u32), ("Chances", sorted string f32), ("Bonuses", sorted string effect),
    ("Grid", sorted i32 (.list string)), ("Order", inserted string (.optional i32)),
    ("ByRarity", sorted rarity i64), ("Flags", .map .hashed bool string),
    ("Nested", sorted string (sorted string i32)), ("Kinds", inserted typeKey i32),
    ("Refs", inserted (.ref ammoDef) u32), ("Points", sorted point i32),
    ("Nodes", sorted string node), ("Structs", sorted string stats)]

def scalarType (k : TypeKey) (default : Value) : TypeKey × Declaration :=
  (k, .scalar k.title (some default))

def weaponCatalog : Catalog :=
  [plainDef ammoDef [dynItem] ammoFields [] asDef,
    plainDef gunDef [dynWeapon, dynItem] gunFields [("dps", f32Value 0), ("post_loads", u32Value 0)]
      { defRole := some gunRole },
    (swordDef, .class swordDef.title (.ok newSword)
      (.base dynWeapon :: fieldParts swordDef swordFields)
      { defRole := some swordRole }),
    plainDef (game "LootDef") [] lootFields [] asDef,
    scalarType tag (tagValue ""), scalarType point (pointValue 0 0),
    scalarType probe (.scalar probe (.text "")),
    scalarType sealedText (.scalar sealedText (.text ""))]

end DefLoad.Arsenal
