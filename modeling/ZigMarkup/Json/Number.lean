import ZigMarkup.Decimal.Shortest

/-!
Numbers of JSON. One without fraction and exponent is an integer if it fits into 64 bits, with
or without sign; every other one is a double. A double is made from the leading digits that fit
into 64 bits: they are rounded to a double and then multiplied or divided by a power of ten.
-/
namespace ZigMarkup

inductive JsonNumber where
  | int (n : Int)
  | double (x : Float)

namespace JsonNumber

/-- A number as it is spelled. -/
structure Spelling where
  negative : Bool
  whole : List Nat
  fraction : Option (List Nat)
  exponent : Option Int

def largestSignificand : Nat := 0xFFFFFFFFFFFFFFFF

/-- Leading digits as a number, and the power of ten that belongs to it. -/
structure Parts where
  significand : Nat
  exponent : Int

/-- Takes in digits before the point; once one does not fit, it and the rest only count. -/
def addWhole (parts : Parts) : List Nat → Parts
  | [] => parts
  | d :: ds =>
    let next := parts.significand * 10 + d
    if largestSignificand < next then
      { parts with exponent := parts.exponent + (ds.length + 1 : Nat) }
    else addWhole { parts with significand := next } ds

/-- Takes in digits after the point, up to the first that does not fit. -/
def addFraction (parts : Parts) : List Nat → Parts
  | [] => parts
  | d :: ds =>
    let next := parts.significand * 10 + d
    if largestSignificand < next then parts
    else addFraction ⟨next, parts.exponent - 1⟩ ds

def powerOfTen (n : Nat) : Float := Float.ofScientific 1 false n

/-- Division by `10 ^ n`, in steps that powers of ten allow. -/
def divideByPower (x : Float) (n : Nat) : Float :=
  if n ≤ 308 then x / powerOfTen n
  else if x == 0 then x
  else divideByPower (x / powerOfTen 308) (n - 308)
termination_by n

/-- The magnitude of a double, unless it is too large for one. -/
def scaled? (parts : Parts) : Option Float :=
  let x := Float.ofNat parts.significand
  if parts.exponent < 0 then some (divideByPower x (-parts.exponent).toNat)
  else if parts.exponent ≤ 308 then
    let y := x * powerOfTen parts.exponent.toNat
    if y.isInf then none else some y
  else if parts.significand = 0 then some x
  else none

def withSign (negative : Bool) (x : Float) : Float := if negative then -x else x

def digitsValue (digits : List Nat) : Nat := digits.foldl (fun n d => n * 10 + d) 0

def ofSpelling? (s : Spelling) : Option JsonNumber :=
  let n := digitsValue s.whole
  match s.fraction, s.exponent with
  | none, none =>
    if !s.negative && n ≤ largestSignificand then some (.int n)
    else if s.negative && 0 < n && n ≤ 0x8000000000000000 then some (.int (-n))
    else double? s
  | _, _ => double? s
where
  double? (s : Spelling) : Option JsonNumber :=
    let parts := addFraction (addWhole ⟨0, 0⟩ s.whole) (s.fraction.getD [])
    let magnitude := scaled? ⟨parts.significand, parts.exponent + s.exponent.getD 0⟩
    magnitude.map fun x => .double (withSign s.negative x)

/-- Doubles are written positionally with a digit on each side of the point where the leading
digit stands for a power of ten from -5 to 15, and with a signed exponent otherwise. -/
def layoutDigits (d : Decimal.Digits) : List Char :=
  let e := d.exponent
  if -5 ≤ e && e < 0 then
    "0.".toList ++ List.replicate (-e - 1).toNat '0' ++ d.digits
  else if 0 ≤ e && e ≤ 15 then
    let width := e.toNat + 1
    let whole := d.digits.take width ++ List.replicate (width - d.digits.length) '0'
    let fraction := d.digits.drop width
    whole ++ ['.'] ++ (if fraction.isEmpty then ['0'] else fraction)
  else
    let fraction := d.digits.drop 1
    d.digits.take 1 ++ (if fraction.isEmpty then [] else '.' :: fraction) ++ ['e'] ++
      (if e < 0 then ['-'] else ['+']) ++ Nat.toDigits 10 e.natAbs

def doubleText (x : Float) : String :=
  let bits := x.toBits
  let binary := Decimal.Binary.ofBits bits
  let sign := if bits >>> 63 = 1 then "-" else ""
  if binary.mantissa = 0 then sign ++ "0.0"
  else sign ++ String.ofList (layoutDigits (Decimal.shortest binary))

def text : JsonNumber → String
  | int n => toString n
  | double x => doubleText x

end JsonNumber

end ZigMarkup
