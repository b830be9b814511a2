import StackScript.Number.Integer

/-!
# Floating-point numbers of 64 bits

A `Double` is a bit pattern in the binary format with 11 exponent and 52 fraction bits, so that the
two zeros and all the patterns that are not numbers stay apart in images.

A finite pattern stands for a whole number of *units* of `2 ^ -1074`, the smallest positive double,
so exact questions (remainder, conversion of integers, decimal digits) are questions about natural
numbers. The four operations that round are those of the machine.

Patterns that are not numbers follow one rule: an operand that is not a number is handed on, made
quiet, the left one first; an operation that has no answer yields `Double.invalid`.
-/

namespace StackScript

/-- A floating-point number, as its bit pattern. -/
structure Double where
  /-- Sign (1 bit), exponent (11 bits) and fraction (52 bits), from the highest bit down. -/
  bits : UInt64
  deriving DecidableEq, Repr

namespace Double

def isNegative (x : Double) : Bool := x.bits >>> 63 == 1

/-- The pattern without its sign, which orders the numbers of one sign by size. -/
def magnitude (x : Double) : UInt64 := x.bits &&& 0x7fffffffffffffff

def infinity : UInt64 := 0x7ff0000000000000

def isNaN (x : Double) : Bool := infinity < x.magnitude

def isInfinite (x : Double) : Bool := x.magnitude == infinity

/-- One of the two zeros. -/
def isZero (x : Double) : Bool := x.magnitude == 0

/-- The opposite number: only the sign bit changes, also where there is no number. -/
def negate (x : Double) : Double := ⟨x.bits ^^^ 0x8000000000000000⟩

/-- The answer of an operation that has none. -/
def invalid : Double := ⟨0xfff8000000000000⟩

def quiet (x : Double) : Double := ⟨x.bits ||| 0x0008000000000000⟩

/-! ## Units -/

/-- The scale of a finite number: its value is `significand * 2 ^ scale` units. -/
def scale (x : Double) : Nat := x.magnitude.toNat / 2 ^ 52 - 1

/-- The significand of a finite number; below `2 ^ 52` only where the scale is zero. -/
def significand (x : Double) : Nat := x.magnitude.toNat - x.scale * 2 ^ 52

/-- The magnitude of a finite number, counted in units of `2 ^ -1074`. -/
def units (x : Double) : Nat := x.significand * 2 ^ x.scale

/-- `n / 2 ^ k` rounded to the nearest whole number, a half going to the even neighbour. -/
def roundShift (n k : Nat) : Nat :=
  let q := n / 2 ^ k
  let r := 2 * (n % 2 ^ k)
  if 2 ^ k < r ∨ (2 ^ k = r ∧ q % 2 = 1) then q + 1 else q

/-- The double nearest to a number of units, a half going to the even significand. A significand
that rounds up to the next power of two carries into the exponent by itself. -/
def ofUnits (negative : Bool) (n : Nat) : Double :=
  let scale := n.log2 - 52
  let magnitude := min (scale * 2 ^ 52 + roundShift n scale) infinity.toNat
  let positive : Double := ⟨magnitude.toUInt64⟩
  if negative then positive.negate else positive

def ofInt (i : Int) : Double := ofUnits (i < 0) (i.natAbs * 2 ^ 1074)

/-! ## Operations -/

/-- What is left of `x` after taking away `y` as often as it goes in, with the sign of `x`. The
result is exact: it is a whole number of units below `y`. -/
def remainder (x y : Double) : Double :=
  if x.isInfinite || y.isZero then invalid
  else if y.isInfinite then x
  else ofUnits x.isNegative (x.units % y.units)

/-- The outcome of a rounding operation of the machine. -/
def ofFloat (x : Float) : Double := if x.isNaN then invalid else ⟨x.toBits⟩

def toFloat (x : Double) : Float := Float.ofBits x.bits

/-- An operator applied to two floating-point numbers. -/
def apply (op : Arithmetic) (x y : Double) : Double :=
  if x.isNaN then x.quiet
  else if y.isNaN then y.quiet
  else match op with
    | .add => ofFloat (x.toFloat + y.toFloat)
    | .sub => ofFloat (x.toFloat - y.toFloat)
    | .mul => ofFloat (x.toFloat * y.toFloat)
    | .div => ofFloat (x.toFloat / y.toFloat)
    | .mod => remainder x y

/-! ## Order -/

/-- A whole number that orders the numbers as their values do; the two zeros share it. -/
def rank (x : Double) : Int := if x.isNegative then -x.magnitude.toNat else x.magnitude.toNat

/-- The order of two numbers, if both are numbers. -/
def compare? (x y : Double) : Option Ordering :=
  if x.isNaN || y.isNaN then none else some (compare x.rank y.rank)

/-- Equal as numbers: a pattern that is not a number equals nothing, and the two zeros are equal. -/
def numericallyEqual (x y : Double) : Bool := x.compare? y == some .eq

end Double

end StackScript
