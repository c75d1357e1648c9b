/-!
Binary floating-point formats. A number is kept as its bit pattern; all arithmetic on it is exact
arithmetic on the significand and exponent that the pattern stands for.
-/

namespace DefLoad.Decimal

/-- The widths of the fraction field and of the exponent field. -/
structure Format where
  fraction : Nat
  exponent : Nat
deriving DecidableEq, Repr

namespace Format

def single : Format := ⟨23, 8⟩

def double : Format := ⟨52, 11⟩

def bias (f : Format) : Nat := Nat.pow 2 (f.exponent - 1) - 1

/-- The exponent of the last place of the smallest numbers. -/
def lowest (f : Format) : Int := 1 - f.bias - f.fraction

def infinityBits (f : Format) : Nat := (Nat.pow 2 f.exponent - 1) * Nat.pow 2 f.fraction

def signBit (f : Format) : Nat := Nat.pow 2 (f.fraction + f.exponent)

def nanBits (f : Format) : Nat := f.infinityBits + Nat.pow 2 (f.fraction - 1)

/-- Sets the sign of a magnitude. -/
def signed (f : Format) (negative : Bool) (magnitude : Nat) : Nat :=
  if negative then f.signBit + magnitude else magnitude

end Format

/-- What a bit pattern stands for: `significand · 2 ^ exponent` when it is finite. -/
inductive Number
  | nan
  | infinite (negative : Bool)
  | finite (negative : Bool) (significand : Nat) (exponent : Int)
deriving DecidableEq, Repr

def Number.ofBits (f : Format) (bits : Nat) : Number :=
  let negative := bits / f.signBit % 2 == 1
  let field := bits / Nat.pow 2 f.fraction % Nat.pow 2 f.exponent
  let fraction := bits % Nat.pow 2 f.fraction
  if field = Nat.pow 2 f.exponent - 1 then
    if fraction = 0 then .infinite negative else .nan
  else if field = 0 then .finite negative fraction f.lowest
  else .finite negative (fraction + Nat.pow 2 f.fraction) (f.lowest + (field - 1))

/-- The number is greater than a natural number. -/
def Number.exceeds (n : Nat) : Number → Bool
  | .nan => false
  | .infinite negative => !negative
  | .finite negative m e =>
    !negative && (if 0 ≤ e then n < m * Nat.pow 2 e.toNat else n * Nat.pow 2 (-e).toNat < m)

/-- Adds the sign of `e` as a power of `base` to the numerator or the denominator. -/
def scaleBy (base : Nat) (e : Int) (num den : Nat) : Nat × Nat :=
  if 0 ≤ e then (num * Nat.pow base e.toNat, den) else (num, den * Nat.pow base (-e).toNat)

/-- The nearest natural number to `num / den`; a half goes to the even neighbour. -/
def roundDiv (num den : Nat) : Nat :=
  let q := num / den
  let r := num % den
  if 2 * r < den then q
  else if den < 2 * r then q + 1
  else if q % 2 = 0 then q else q + 1

/-- Any `e` with `2 ^ e ≤ num / den < 2 ^ (e + 2)`. -/
def magnitude (num den : Nat) : Int := (Nat.log2 num : Int) - Nat.log2 den - 1

/-- The magnitude bits of the number nearest to the positive ratio `num / den`. A significand that
rounds up to the next power of two carries into the exponent field by itself. -/
def nearestBits (f : Format) (num den : Nat) : Nat :=
  if num = 0 then 0 else
  let e := magnitude num den
  let (n, d) := scaleBy 2 (-(e + 1)) num den
  let e := if d ≤ n then e + 1 else e
  let q := max (e - f.fraction) f.lowest
  let (n, d) := scaleBy 2 (-q) num den
  let bits := roundDiv n d + (q - f.lowest).toNat * Nat.pow 2 f.fraction
  min bits f.infinityBits

/-- The magnitude bits nearest to `digits · 10 ^ exponent`. Outside `10 ^ (± 2 ^ exponent width)`
the answer is infinity or zero without looking at the digits. -/
def nearestDecimal (f : Format) (digits : Nat) (exponent : Int) : Nat :=
  if digits = 0 then 0 else
  let places := (Nat.toDigits 10 digits).length + exponent
  if Nat.pow 2 f.exponent < places then f.infinityBits
  else if places < -Nat.pow 2 f.exponent then 0
  else
    let (n, d) := scaleBy 10 exponent digits 1
    nearestBits f n d

/-- The bits nearest to an integer. -/
def Format.ofInt (f : Format) (n : Int) : Nat := f.signed (n < 0) (nearestBits f n.natAbs 1)

end DefLoad.Decimal
