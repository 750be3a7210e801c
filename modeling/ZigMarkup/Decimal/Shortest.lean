/-!
The shortest decimal that reads back as a given binary64 value: of all decimals that round to
the value, those with the fewest digits, and of these the nearest; a tie goes to the even digit.
All arithmetic is exact.
-/
namespace ZigMarkup.Decimal

/-- The value `mantissa * 2 ^ exponent`, finite and not negative. -/
structure Binary where
  mantissa : Nat
  exponent : Int
  /-- Whether the next value below is half as far away as the next one above. -/
  narrowBelow : Bool
deriving DecidableEq, Repr

namespace Binary

/-- The magnitude of a finite value given by its bits. -/
def ofBits (bits : UInt64) : Binary :=
  let biased := ((bits >>> 52) &&& 0x7FF).toNat
  let fraction := (bits &&& 0xFFFFFFFFFFFFF).toNat
  if biased = 0 then ⟨fraction, -1074, false⟩
  else ⟨0x10000000000000 + fraction, (biased : Int) - 1075, fraction = 0 && 1 < biased⟩

/-- The value as a fraction. -/
def numerator (x : Binary) : Nat := x.mantissa <<< x.exponent.toNat

def denominator (x : Binary) : Nat := 1 <<< (-x.exponent).toNat

end Binary

/-- Decimal digits, most significant first, and the power of ten of the first one. -/
structure Digits where
  digits : List Char
  exponent : Int
deriving DecidableEq, Repr

/-- Compares `a * 10 ^ i` with `b * 2 ^ j`. -/
def compareScaled (a : Nat) (i : Int) (b : Nat) (j : Int) : Ordering :=
  compare (a * Nat.pow 10 i.toNat <<< (-j).toNat) (b * Nat.pow 10 (-i).toNat <<< j.toNat)

/-- Whether `d * 10 ^ i` is nearer to `x` than to any other value. The ends of the interval
belong to it when the mantissa is even. -/
def roundsTo (x : Binary) (d : Nat) (i : Int) : Bool :=
  let low := if x.narrowBelow then 4 * x.mantissa - 1 else 4 * x.mantissa - 2
  let high := 4 * x.mantissa + 2
  let even := x.mantissa % 2 = 0
  let above := compareScaled d i low (x.exponent - 2)
  let below := compareScaled d i high (x.exponent - 2)
  (above = .gt || (even && above = .eq)) && (below = .lt || (even && below = .eq))

def digitCount (n : Nat) : Nat := (Nat.toDigits 10 n).length

/-- The least power of ten above a positive value. -/
def magnitude (x : Binary) : Int :=
  let num := x.numerator
  let den := x.denominator
  if den ≤ num then digitCount (num / den) else 1 - (digitCount ((den - 1) / num) : Int)

/-- The better of the two neighbours of `x` among the multiples of `10 ^ i`, if one rounds
to `x`. -/
def onGrid? (x : Binary) (i : Int) : Option Nat :=
  let num := x.numerator * Nat.pow 10 (-i).toNat
  let den := x.denominator * Nat.pow 10 i.toNat
  let d := num / den
  match roundsTo x d i, roundsTo x (d + 1) i with
  | true, true =>
    match compare (2 * (num % den)) den with
    | .lt => some d
    | .gt => some (d + 1)
    | .eq => some (if d % 2 = 0 then d else d + 1)
  | true, false => some d
  | false, true => some (d + 1)
  | false, false => none

/-- Digits without the zeros at their end. -/
def ofScaled (d : Nat) (i : Int) : Digits :=
  let digits := Nat.toDigits 10 d
  ⟨(digits.reverse.dropWhile (· = '0')).reverse, i + digits.length - 1⟩

/-- All digits of `x`. -/
def exact (x : Binary) : Digits :=
  if 0 ≤ x.exponent then ofScaled x.numerator 0
  else ofScaled (x.mantissa * Nat.pow 5 (-x.exponent).toNat) x.exponent

/-- The digits of a positive value. Seventeen always suffice. -/
def shortest (x : Binary) : Digits :=
  let top := magnitude x
  ((List.range 17).findSome? fun n =>
    let i := top - (n + 1 : Nat)
    (onGrid? x i).map (ofScaled · i)).getD (exact x)

end ZigMarkup.Decimal
