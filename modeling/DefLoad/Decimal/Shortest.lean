import DefLoad.Decimal.Binary

/-!
The shortest decimal that reads back as a given binary number, and its positional notation.
-/

namespace DefLoad.Decimal

/-- The decimals that round to a number, in units of a quarter of its last place: `4 · significand`
is the number itself. Below a power of two the neighbour is only half as far away. -/
structure Interval where
  low : Nat
  mid : Nat
  high : Nat
  /-- Both ends round to the number, which holds when its significand is even. -/
  closed : Bool
  exponent : Int

def Interval.around (f : Format) (significand : Nat) (exponent : Int) : Interval :=
  let near := significand = Nat.pow 2 f.fraction && f.lowest < exponent
  { low := 4 * significand - (if near then 1 else 2)
    mid := 4 * significand
    high := 4 * significand + 2
    closed := significand % 2 = 0
    exponent := exponent - 2 }

/-- `digits · 10 ^ t` lies in the interval. -/
def Interval.holds (i : Interval) (digits : Nat) (t : Int) : Bool :=
  let (p, a) := scaleBy 10 t digits 1
  let (b, q) := scaleBy 2 i.exponent 1 1
  let point := p * q
  let low := i.low * b * a
  let high := i.high * b * a
  if i.closed then low ≤ point && point ≤ high else low < point && point < high

/-- The multiple of `10 ^ t` in the interval that is nearest to the number, if there is one. Of two
equally near the larger is taken. -/
def Interval.onGrid (i : Interval) (t : Int) : Option Nat :=
  let (n, d) := scaleBy 2 i.exponent i.mid 1
  let (n, d) := scaleBy 10 (-t) n d
  let below := n / d
  match i.holds below t, i.holds (below + 1) t with
  | true, true => some (if 2 * (n % d) < d then below else below + 1)
  | true, false => some below
  | false, true => some (below + 1)
  | false, false => none

/-- Looks on finer and finer grids; the first hit has the fewest digits. -/
def Interval.search (i : Interval) : Nat → Int → Nat × Int
  | 0, t => ((i.onGrid t).getD 0, t)
  | n + 1, t =>
    match i.onGrid t with
    | some d => (d, t)
    | none => search i n (t - 1)

/-- A power of ten that exceeds `significand · 2 ^ exponent`. -/
def tenAbove (significand : Nat) (exponent : Int) : Int :=
  ((Nat.log2 significand : Int) + 1 + exponent) * 30103 / 100000 + 1

/-- Digits and decimal exponent. Twenty-two grids below the first suffice: a number has at most
seventeen significant digits. -/
def shortest (f : Format) (significand : Nat) (exponent : Int) : Nat × Int :=
  (Interval.around f significand exponent).search 22 (tenAbove significand exponent)

/-- `digits · 10 ^ exponent` without an exponent and without an empty fraction. -/
def positional (digits : Nat) (exponent : Int) : String :=
  let ds := Nat.toDigits 10 digits
  if 0 ≤ exponent then String.ofList (ds ++ List.replicate exponent.toNat '0')
  else
    let places := (-exponent).toNat
    if places < ds.length then
      String.ofList (ds.take (ds.length - places) ++ '.' :: ds.drop (ds.length - places))
    else
      String.ofList ('0' :: '.' :: List.replicate (places - ds.length) '0' ++ ds)

/-- The text of a number: the fewest digits that read back, never an exponent. -/
def Number.text (f : Format) : Number → String
  | .nan => "NaN"
  | .infinite negative => if negative then "-inf" else "inf"
  | .finite negative significand exponent =>
    let sign := if negative then "-" else ""
    if significand = 0 then sign ++ "0"
    else
      let (d, t) := shortest f significand exponent
      sign ++ positional d t

end DefLoad.Decimal
