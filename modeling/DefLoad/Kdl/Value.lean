import DefLoad.Decimal.Shortest

/-!
What a KDL document says: elements with entries in source order. Type annotations carry no meaning
here and are not kept.
-/

namespace DefLoad.Kdl

inductive Value
  | text (s : String)
  | integer (n : Int)
  /-- The bits of a number in double format. -/
  | float (bits : Nat)
  | bool (b : Bool)
  | null
deriving DecidableEq, Repr

inductive Entry
  | argument (v : Value)
  | property (key : String) (v : Value)
deriving DecidableEq, Repr

structure Element where
  name : String
  entries : List Entry
  children : List Element

namespace Value

/-- The largest magnitude of an integer in a document. -/
def greatestInteger : Nat := Nat.pow 2 127 - 1

def renderInt (n : Int) : String :=
  String.ofList (if n < 0 then '-' :: Nat.toDigits 10 n.natAbs else Nat.toDigits 10 n.natAbs)

/-- The text that a value stands for in the tree. `#null` stands for none. -/
def content : Value → Option String
  | text s => some s
  | integer n => some (renderInt n)
  | float bits => some ((Decimal.Number.ofBits .double bits).text .double)
  | bool b => some (if b then "true" else "false")
  | null => none

end Value

end DefLoad.Kdl
