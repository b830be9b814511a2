import StackScript.Number.Double

/-!
# Decimal text of floating-point numbers

A finite number is written with the fewest decimal digits that read back as the same number; among
several texts of that length the one nearest to the number is taken, and of two equally near ones
the greater. `Decimal.shortest` looks, for one digit, two digits and so on, at the two neighbours of
the number on the grid of that many digits and stops at the first grid with a neighbour inside the
interval of reals that round to the number: if any point of a grid lies there then so does one of
these two.

`Double.text` then places the decimal point, by the rule recorded in `Decimal.Style`.
-/

namespace StackScript

namespace Decimal

/-- A positive decimal number: `digits * 10 ^ exponent`. -/
structure Positive where
  /-- The digits, as one number. -/
  digits : Nat
  /-- The power of ten of the last digit. -/
  exponent : Int
  deriving DecidableEq, Repr

/-- The reals that round to a number, as a fraction `[low, high] / denominator` around
`value / denominator`. -/
structure Interval where
  low : Nat
  value : Nat
  high : Nat
  denominator : Nat
  /-- Whether the ends themselves round to the number. -/
  closed : Bool

/-- The interval of a finite nonzero number. It reaches half way to each neighbour; below a power
of two the neighbour is twice as near. Halves round to an even significand, so that the ends belong
to the interval of an even one. -/
def Interval.ofDouble (x : Double) : Interval :=
  let value := 4 * x.units
  let step := 2 ^ x.scale
  let below := if x.significand = 2 ^ 52 ∧ x.scale ≠ 0 then step else 2 * step
  { low := value - below, value, high := value + 2 * step, denominator := 4 * 2 ^ 1074
    closed := x.significand % 2 = 0 }

/-- The same interval measured in units of `10 ^ p`. -/
def Interval.inUnitsOf (i : Interval) (p : Int) : Interval :=
  if 0 ≤ p then { i with denominator := i.denominator * 10 ^ p.toNat }
  else
    let t := 10 ^ (-p).toNat
    { i with low := i.low * t, value := i.value * t, high := i.high * t }

/-- Whether the whole number `n` lies in the interval. -/
def Interval.contains (i : Interval) (n : Nat) : Bool :=
  let point := n * i.denominator
  if i.closed then i.low ≤ point && point ≤ i.high else i.low < point && point < i.high

/-- The neighbour of the number among the whole numbers that lies in the interval: the nearer one
if both do, and the upper one of two equally near. -/
def Interval.neighbour? (i : Interval) : Option Nat :=
  let down := i.value / i.denominator
  let up := down + 1
  let upper := i.denominator ≤ 2 * (i.value % i.denominator)
  match i.contains down, i.contains up with
  | true, true => some (if upper then up else down)
  | true, false => some down
  | false, true => some up
  | false, false => none

/-- The number of decimal digits of the whole part, or minus the number of zeros that follow the
point where the whole part is zero. The search multiplies by ten at most `fuel` times. -/
def Interval.leading (i : Interval) : (fuel : Nat) → Int
  | 0 => 0
  | fuel + 1 =>
    if i.denominator ≤ i.value then (Nat.toDigits 10 (i.value / i.denominator)).length
    else leading { i with value := i.value * 10 } fuel - 1

/-- The first grid with a neighbour in the interval, trying `n` more grids from `digits` digits on.
A double is fixed by seventeen digits, so the search always ends by itself. -/
def Interval.search (i : Interval) (leading : Int) : (digits n : Nat) → Positive
  | digits, 0 => ⟨i.value / i.denominator, leading - digits⟩
  | digits, n + 1 =>
    let p := leading - digits
    match (i.inUnitsOf p).neighbour? with
    | some d => ⟨d, p⟩
    | none => search i leading (digits + 1) n

/-- The same number without trailing zeros among its digits. -/
def Positive.trim (d : Positive) : (fuel : Nat) → Positive
  | 0 => d
  | fuel + 1 =>
    if d.digits % 10 = 0 then trim ⟨d.digits / 10, d.exponent + 1⟩ fuel else d

/-- The shortest decimal that reads back as the finite nonzero number `x`. -/
def shortest (x : Double) : Positive :=
  let i := Interval.ofDouble x
  (i.search (i.leading 400) 1 17).trim 20

/-! ## Writing a decimal -/

/-- Which numbers are written positionally: those whose first digit has a power of ten within the
bounds. All others are written with one digit before the point and an exponent. -/
structure Style where
  least : Int
  greatest : Int

/-- Numbers from `0.0001` up to, and not including, `1e16` are written positionally. -/
def Style.plain : Style := ⟨-4, 15⟩

def zeros (n : Int) : String := String.ofList (List.replicate n.toNat '0')

/-- All digits around the point, with at least one digit on each side of it. -/
def Positive.positional (d : Positive) : String :=
  let text := Nat.toDigits 10 d.digits
  let whole := text.length + d.exponent
  if whole ≤ 0 then "0." ++ zeros (-whole) ++ String.ofList text
  else if 0 ≤ d.exponent then String.ofList text ++ zeros d.exponent ++ ".0"
  else String.ofList (text.take whole.toNat) ++ "." ++ String.ofList (text.drop whole.toNat)

/-- One digit before the point, the others, if any, behind it, and the power of ten. -/
def Positive.scientific (d : Positive) : String :=
  let text := Nat.toDigits 10 d.digits
  let power := d.exponent + text.length - 1
  let mantissa := match text with
    | first :: second :: rest => String.ofList (first :: '.' :: second :: rest)
    | _ => String.ofList text
  mantissa ++ "e" ++ toString power

def Positive.text (style : Style) (d : Positive) : String :=
  let power := d.exponent + (Nat.toDigits 10 d.digits).length - 1
  if style.least ≤ power ∧ power ≤ style.greatest then d.positional else d.scientific

end Decimal

def Double.text (x : Double) : String :=
  if x.isNaN then "NaN"
  else
    let sign := if x.isNegative then "-" else ""
    if x.isInfinite then sign ++ "inf"
    else if x.isZero then sign ++ "0.0"
    else sign ++ (Decimal.shortest x).text .plain

end StackScript
