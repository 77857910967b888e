import RichDoc.Decimal.Shortest

/-! Numbers of a JSON value. A number is an integer of at most 64 bits, or else a floating-point
number. -/

namespace RichDoc.Json

/-- A number: an integer from `-2^63` to `2^64 - 1`, or a finite floating-point number. -/
inductive Number where
  | integer (n : Int)
  | real (x : Float)

namespace Number

/-- Numbers are written plainly while their first digit has an exponent from -5 to 15. -/
def layout : Decimal.Layout := ⟨-5, 15⟩

def text : Number → List Char
  | integer n => (if n < 0 then ['-'] else []) ++ Nat.toDigits 10 n.natAbs
  | real x => layout.writeBits x.toBits

def natural? : Number → Option Nat
  | integer n => if 0 ≤ n then some n.toNat else none
  | real _ => none

def truncate : Number → Int
  | integer n => n
  | real x =>
    let magnitude : Int := (Decimal.Magnitude.ofBits x.toBits).whole
    if x.toBits.toNat < Nat.pow 2 63 then magnitude else -magnitude

def powerOfTen (n : Nat) : Float := Float.ofScientific 1 false n

/-- The number `x * 10 ^ e`, or nothing when it is too large. Small powers are divided out in
steps, so that none of them is too large itself. -/
def scale? (x : Float) (e : Int) : Option Float :=
  if e < -308 then
    if x == 0 then some x else scale? (x / powerOfTen 308) (e + 308)
  else if e < 0 then some (x / powerOfTen e.natAbs)
  else if e ≤ 308 then
    let y := x * powerOfTen e.natAbs
    if y.isInf then none else some y
  else if x == 0 then some x
  else none
termination_by e.natAbs
decreasing_by omega

/-- The number with a significand and a decimal exponent, or nothing when it is too large. -/
def ofDecimal? (negative : Bool) (significand : Nat) (e : Int) : Option Number :=
  (scale? (Float.ofNat significand) e).map fun x => real (if negative then -x else x)

/-- The number without fraction or exponent. Minus zero and numbers below `-2^63` are real. -/
def ofInteger (negative : Bool) (n : Nat) : Number :=
  if !negative then integer n
  else if n = 0 ∨ Nat.pow 2 63 < n then real (-(Float.ofNat n))
  else integer (-n)

end Number

end RichDoc.Json
