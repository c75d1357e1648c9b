import DefLoad.Arsenal.Curios
import DefLoad.Arsenal.Weapons

/-!
The table of the sample's types, spread over two schemas of its own.
-/

namespace DefLoad.Arsenal

open TypeKey

def catalog : Catalog := weaponCatalog ++ effectCatalog ++ heroCatalog ++ curioCatalog

def gameTypes : List TypeKey :=
  ["AmmoDef", "GunDef", "SwordDef", "LootDef", "HeroDef", "EliteDef", "NodeDef", "ScalarDef",
    "TreeDef", "GlassDef", "BoxDef", "TrapDef", "StampPatch", "BrokenPatch"].map game

def modTypes : List TypeKey := [named "Mod.GunDef", named "Mod::Items::CoilDef", named "PlainDef"]

/-- Types that come after a second schema was used; the last one is there already. -/
def lateTypes : List TypeKey := ["LateDef", "OddDef", "AmmoDef"].map game

def builder : Builder :=
  ((((Core.builder catalog).schema "game").registerAll gameTypes).schema "mod").registerAll modTypes
    |>.schema "game" |>.registerAll lateTypes

def table : TypeTable := builder.table

/-- A def that no table knows. -/
def unlisted : TypeKey := named "Unlisted"

/-- Fresh defs made without their constructors and hooks. -/
def defaults : List (TypeKey × Value) :=
  [(ammoDef, newDef ammoDef ammoFields []),
    (gunDef, newDef gunDef gunFields [("dps", f32Value 0), ("post_loads", u32Value 0)]),
    (swordDef, newSword), (heroDef, newHero), (eliteDef, newElite), (glassDef, newGlass)]

/-- A fresh def of one of these types; any other name gives a def that is not listed. -/
def freshDef (name id : String) : Value :=
  let v := (defaults.lookup (named name)).getD (.record unlisted [("id", .string "")])
  v.withId id

end DefLoad.Arsenal
