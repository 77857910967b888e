/-! The shortest decimal text of a binary fraction. Among the decimals that read back as the same
number it has the fewest digits, and among those it is the nearest. All arithmetic is exact. -/

namespace RichDoc.Decimal

/-- The magnitude `mantissa * 2 ^ exponent` of a finite floating-point number. `onEdge` says that
its lower neighbour is only half as far away as its upper one. -/
structure Magnitude where
  mantissa : Nat
  exponent : Int
  onEdge : Bool
  deriving DecidableEq

/-- The magnitude of a finite number of 64 bits. -/
def Magnitude.ofBits (bits : UInt64) : Magnitude :=
  let biased : Nat := (bits.toNat / Nat.pow 2 52) % Nat.pow 2 11
  let fraction : Nat := bits.toNat % Nat.pow 2 52
  if biased = 0 then ⟨fraction, -1074, false⟩
  else ⟨Nat.pow 2 52 + fraction, Int.ofNat biased - 1075, fraction = 0 && 1 < biased⟩

def Magnitude.whole (x : Magnitude) : Nat :=
  if 0 ≤ x.exponent then x.mantissa * Nat.pow 2 x.exponent.toNat
  else x.mantissa / Nat.pow 2 (-x.exponent).toNat

/-- The decimal `digits * 10 ^ scale`. -/
structure Numeral where
  digits : Nat
  scale : Int
  deriving DecidableEq

/-- A number as a quarter of a fraction, with the bounds of the numbers that round to it. -/
structure Interval where
  lower : Nat
  middle : Nat
  upper : Nat
  unit : Nat
  closed : Bool

/-- The numbers that round to a magnitude, in units of a fraction with the given denominator. -/
def Magnitude.interval (x : Magnitude) : Interval :=
  let factor := if 0 ≤ x.exponent then Nat.pow 2 x.exponent.toNat else 1
  let unit := if 0 ≤ x.exponent then 4 else 4 * Nat.pow 2 (-x.exponent).toNat
  { lower := (4 * x.mantissa - if x.onEdge then 1 else 2) * factor
    middle := 4 * x.mantissa * factor
    upper := (4 * x.mantissa + 2) * factor
    unit
    closed := x.mantissa % 2 = 0 }

/-- Whether `digits * 10 ^ scale` rounds to the number. -/
def Interval.holds (i : Interval) (n : Numeral) : Bool :=
  let value :=
    if 0 ≤ n.scale then n.digits * Nat.pow 10 n.scale.toNat * i.unit else n.digits * i.unit
  let grow := if 0 ≤ n.scale then 1 else Nat.pow 10 (-n.scale).toNat
  if i.closed then i.lower * grow ≤ value && value ≤ i.upper * grow
  else i.lower * grow < value && value < i.upper * grow

/-- The decimal of the given scale that is nearest to the number among those that round to it. A
tie goes to the even digit. -/
def Interval.nearest? (i : Interval) (scale : Int) : Option Numeral :=
  let top := if 0 ≤ scale then i.middle else i.middle * Nat.pow 10 (-scale).toNat
  let step := if 0 ≤ scale then i.unit * Nat.pow 10 scale.toNat else i.unit
  let below : Numeral := ⟨top / step, scale⟩
  let above : Numeral := ⟨top / step + 1, scale⟩
  match i.holds below, i.holds above with
  | false, false => none
  | true, false => some below
  | false, true => some above
  | true, true =>
    let rest := top % step
    if 2 * rest < step ∨ (2 * rest = step ∧ below.digits % 2 = 0) then some below else some above

/-- The decimal exponent of the first digit of `numerator / denominator`, searched upwards from
`-least` through `steps` places. -/
def leadingExponent (numerator denominator : Nat) : Nat → Int → Int
  | 0, e => e
  | steps + 1, e =>
    let reached :=
      if 0 ≤ e + 1 then denominator * Nat.pow 10 (e + 1).toNat ≤ numerator
      else denominator ≤ numerator * Nat.pow 10 (-(e + 1)).toNat
    if reached then leadingExponent numerator denominator steps (e + 1) else e

def Numeral.trim : Nat → Numeral → Numeral
  | 0, n => n
  | fuel + 1, n =>
    if n.digits ≠ 0 ∧ n.digits % 10 = 0 then trim fuel ⟨n.digits / 10, n.scale + 1⟩ else n

/-- The shortest decimal that rounds to a magnitude above zero; seventeen digits always do. -/
def Magnitude.shortest (x : Magnitude) : Numeral :=
  let i := x.interval
  let e := leadingExponent i.middle i.unit 640 (-330)
  let found := (List.range 17).findSome? fun (n : Nat) => i.nearest? (e - n)
  (found.getD ⟨0, 0⟩).trim 20

/-- Where a decimal text changes between its plain and its scientific form: the least and the
greatest exponent of the first digit that is written plainly. -/
structure Layout where
  least : Int
  greatest : Int
  deriving DecidableEq

def zeros (n : Nat) : List Char := List.replicate n '0'

/-- The text of a decimal. A whole number keeps a zero after its point, and the exponent of the
scientific form always has a sign. -/
def Layout.write (l : Layout) (n : Numeral) : List Char :=
  let digits := Nat.toDigits 10 n.digits
  let first := n.scale + digits.length - 1
  if first < l.least ∨ l.greatest < first then
    let mantissa := match digits with
      | head :: tail => if tail.isEmpty then [head] else head :: '.' :: tail
      | [] => []
    mantissa ++ ['e', if first < 0 then '-' else '+'] ++ Nat.toDigits 10 first.natAbs
  else if first < 0 then ['0', '.'] ++ zeros (-first - 1).toNat ++ digits
  else if 0 ≤ n.scale then digits ++ zeros n.scale.toNat ++ ['.', '0']
  else
    let places := (first + 1).toNat
    digits.take places ++ ['.'] ++ digits.drop places

/-- The text of a finite number of 64 bits; zero keeps its sign. -/
def Layout.writeBits (l : Layout) (bits : UInt64) : List Char :=
  let sign := if bits.toNat < Nat.pow 2 63 then [] else ['-']
  let x := Magnitude.ofBits bits
  sign ++ if x.mantissa = 0 then ['0', '.', '0'] else l.write x.shortest

end RichDoc.Decimal
