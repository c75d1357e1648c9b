import DefLoad.Decimal.Numeral
import DefLoad.Kdl.Chars
import DefLoad.Kdl.Quoted
import DefLoad.Kdl.Value

/-!
Numbers of a KDL document: integers in four radixes, floating-point numbers in decimal. Digits after
the first may be separated by underscores.
-/

namespace DefLoad.Kdl

open Text (isDecimalDigit)

def digit? (radix : Nat) (c : Char) : Option Nat :=
  (hexValue? c).bind fun d => if d < radix then some d else none

def isDigitOrGap (radix : Nat) (c : Char) : Bool := c == '_' || (digit? radix c).isSome

/-- A digit, then digits and underscores: the digits without underscores, and the rest. -/
def readDigits (radix : Nat) : List Char → Option (List Char × List Char)
  | [] => none
  | c :: cs =>
    if (digit? radix c).isSome then
      some (c :: (cs.takeWhile (isDigitOrGap radix)).filter (· != '_'),
        cs.dropWhile (isDigitOrGap radix))
    else none

def valueOf (radix : Nat) (ds : List Char) : Nat :=
  ds.foldl (fun n c => n * radix + (digit? radix c).getD 0) 0

/-- A run of digits whose value a document can hold. Each part of a number is such a run. -/
def readPart (radix : Nat) (cs : List Char) : Option (List Char × List Char) :=
  (readDigits radix cs).filter fun (ds, _) => valueOf radix ds ≤ Value.greatestInteger

def signed (negative : Bool) (magnitude : Nat) : Int :=
  if negative then -(magnitude : Int) else magnitude

/-- The radix that a letter after a zero stands for, in either case. -/
def radixOf? : Char → Option Nat
  | 'x' | 'X' => some 16
  | 'o' | 'O' => some 8
  | 'b' | 'B' => some 2
  | _ => none

def radix? : List Char → Option (Nat × List Char)
  | '0' :: c :: cs => (radixOf? c).map (·, cs)
  | _ => none

/-- A point and digits, or nothing. -/
def readFraction (cs : List Char) : List Char × List Char :=
  match cs with
  | '.' :: rest => (readPart 10 rest).getD ([], cs)
  | _ => ([], cs)

def readSign : List Char → Bool × List Char
  | '-' :: cs => (true, cs)
  | '+' :: cs => (false, cs)
  | cs => (false, cs)

/-- `e` and an integer, or nothing. -/
def readPower (cs : List Char) : Option Int × List Char :=
  match cs with
  | c :: rest =>
    if c == 'e' || c == 'E' then
      let (negative, rest) := readSign rest
      match readPart 10 rest with
      | some (ds, rest) => (some (signed negative (valueOf 10 ds)), rest)
      | none => (none, cs)
    else (none, cs)
  | [] => (none, cs)

def readDecimal (negative : Bool) (cs : List Char) : Option (Value × List Char) :=
  (readPart 10 cs).map fun (whole, rest) =>
    let (part, rest) := readFraction rest
    let (power, rest) := readPower rest
    if part.isEmpty && power.isNone then
      (.integer (signed negative (valueOf 10 whole)), rest)
    else
      let bits :=
        Decimal.nearestDecimal .double (valueOf 10 (whole ++ part)) (power.getD 0 - part.length)
      (.float (Decimal.Format.double.signed negative bits), rest)

/-- A number with its sign, as far as it is well formed: of `0xg` the zero, of `1.x` the one. -/
def readNumber (cs : List Char) : Option (Value × List Char) :=
  let (negative, cs) := readSign cs
  match (radix? cs).bind fun (radix, rest) => (readPart radix rest).map (radix, ·) with
  | some (radix, ds, rest) => some (.integer (signed negative (valueOf radix ds)), rest)
  | none => readDecimal negative cs

end DefLoad.Kdl
