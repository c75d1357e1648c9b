import DefLoad.Arsenal.Plain

/-!
Effects: one abstract type and the three types that stand in for it.
-/

namespace DefLoad.Arsenal

open TypeKey

/-- What a heal amounts to follows from the place where it is read. -/
def healAmount : Option Context → Int
  | none => -1
  | some c =>
    match c.slot with
    | .root => 0
    | .member => 100
    | .item i => i + 1
    | .entry (.scalar _ (.text s)) => 1000 + s.utf8ByteSize
    | .entry _ => 2000

def healFields : Fields := [("Amount", i32)]

def burnFields : Fields := [("Seconds", u32), ("Kind", rarity)]

def comboFields : Fields := [("Name", string), ("Parts", .list effect)]

def plainClass (k : TypeKey) (fs : Fields) (roles : Roles) : TypeKey × Declaration :=
  (k, .class k.title (.ok (.record k (initialFields fs))) (fieldParts k fs) roles)

/-- A burn that stands for an effect. -/
def burning (seconds : Int) (kind : Nat) : Value :=
  .boxed effect
    (.record burn [("Seconds", u32Value seconds), ("Kind", .scalar rarity (.variant kind))])

/-- Counts how often an instance has been completed. -/
def completeStats (_ : Context) (v : Value) : Value :=
  v.setField "sealed" (u32Value (v.intField "sealed" + 1))

def effectCatalog : Catalog :=
  [(rarity, .enumeration rarity.title ["Common", "Rare", "Legendary"]),
    (effect, .abstract effect.title [heal, burn, combo]),
    plainClass heal healFields
      { preConstruct := some fun c v => v.setField "Amount" (i32Value (healAmount c)) },
    plainClass burn burnFields {},
    plainClass combo comboFields {},
    (stats, .class stats.title (.ok (statsValue 0 0 0))
      (fieldParts stats [("Weight", f32), ("Bulk", i32)])
      { postConstruct := some completeStats })]

end DefLoad.Arsenal
