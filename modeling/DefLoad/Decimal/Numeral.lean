import DefLoad.Decimal.Binary
import DefLoad.Text.Ascii

/-!
Numbers written as text: decimal integers of a bounded range and floating-point numbers, with the
reason why a text is refused.
-/

namespace DefLoad.Decimal

open Text (isDecimalDigit digitValue)

inductive NumeralError
  | emptyInteger
  | invalidDigit
  | tooLarge
  | tooSmall
  | emptyFloat
  | invalidFloat
deriving DecidableEq, Repr

def NumeralError.message : NumeralError → String
  | .emptyInteger => "cannot parse integer from empty string"
  | .invalidDigit => "invalid digit found in string"
  | .tooLarge => "number too large to fit in target type"
  | .tooSmall => "number too small to fit in target type"
  | .emptyFloat => "cannot parse float from empty string"
  | .invalidFloat => "invalid float literal"

/-- An interval of integers; a range without negative numbers has no minus sign either. -/
structure Range where
  least : Int
  greatest : Int
deriving DecidableEq, Repr

def Range.signed (width : Nat) : Range := ⟨-Nat.pow 2 (width - 1), Nat.pow 2 (width - 1) - 1⟩

def Range.unsigned (width : Nat) : Range := ⟨0, Nat.pow 2 width - 1⟩

def Range.contains (r : Range) (n : Int) : Bool := r.least ≤ n && n ≤ r.greatest

/-- Reads digits upward from `acc`. The first character that is no digit, or the first digit that
leaves the range, decides the error. -/
def readUp (greatest : Int) : Int → List Char → Except NumeralError Int
  | acc, [] => .ok acc
  | acc, c :: cs =>
    if !isDecimalDigit c then .error .invalidDigit
    else
      let next := acc * 10 + digitValue c
      if greatest < next then .error .tooLarge else readUp greatest next cs

def readDown (least : Int) : Int → List Char → Except NumeralError Int
  | acc, [] => .ok acc
  | acc, c :: cs =>
    if !isDecimalDigit c then .error .invalidDigit
    else
      let next := acc * 10 - digitValue c
      if next < least then .error .tooSmall else readDown least next cs

/-- Reads an integer: an optional sign and at least one digit. -/
def Range.read (r : Range) : List Char → Except NumeralError Int
  | [] => .error .emptyInteger
  | [c] => readUp r.greatest 0 [c]
  | '+' :: cs => readUp r.greatest 0 cs
  | '-' :: cs => if r.least < 0 then readDown r.least 0 cs else .error .invalidDigit
  | cs => readUp r.greatest 0 cs

/-- The value of a run of digits. -/
def ofDigits (cs : List Char) : Nat := cs.foldl (fun n c => n * 10 + digitValue c) 0

/-- The exponent after the mantissa: nothing, or `e`, an optional sign and digits to the end. -/
def readExponent : List Char → Option Int
  | [] => some 0
  | c :: cs =>
    if c == 'e' || c == 'E' then
      let (negative, ds) := match cs with
        | '+' :: ds => (false, ds)
        | '-' :: ds => (true, ds)
        | ds => (false, ds)
      if ds.isEmpty || !ds.all isDecimalDigit then none
      else some (if negative then -(ofDigits ds : Int) else ofDigits ds)
    else none

/-- Digits with an optional point, at least one digit in all, then an optional exponent. -/
def readMantissa (f : Format) (cs : List Char) : Option Nat :=
  let whole := cs.takeWhile isDecimalDigit
  let rest := cs.dropWhile isDecimalDigit
  let (part, rest) := match rest with
    | '.' :: rest => (rest.takeWhile isDecimalDigit, rest.dropWhile isDecimalDigit)
    | rest => ([], rest)
  if whole.isEmpty && part.isEmpty then none
  else
    (readExponent rest).map fun e =>
      nearestDecimal f (ofDigits (whole ++ part)) (e - part.length)

def readMagnitude (f : Format) (cs : List Char) : Option Nat :=
  let word := cs.map Char.toLower
  if word == "inf".toList || word == "infinity".toList then some f.infinityBits
  else if word == "nan".toList then some f.nanBits
  else readMantissa f cs

/-- Reads the nearest number of a format: its bits. -/
def Format.read (f : Format) (cs : List Char) : Except NumeralError Nat :=
  let found := match cs with
    | '-' :: ds => (readMagnitude f ds).map (f.signed true)
    | '+' :: ds => readMagnitude f ds
    | ds => readMagnitude f ds
  match found with
  | some bits => .ok bits
  | none => .error (if cs.isEmpty then .emptyFloat else .invalidFloat)

end DefLoad.Decimal
