/-!
# Integers of 64 bits

The language's integers are the signed words of 64 bits, and its integer operators are exact: a
result that is not such a word is an error, never a wrapped word. Every operator is therefore
computed on `Int` and brought back by `Integer.fit?`, the one place where the range is tested.

Division truncates toward zero and the remainder has the sign of the dividend. The quotient of the
least integer by `-1` is out of range; the remainder of that pair is refused with it, because the
two are defined by one division.
-/

namespace StackScript

/-- The arithmetic operators on numbers. -/
inductive Arithmetic where
  | add
  | sub
  | mul
  | div
  | mod
  deriving DecidableEq, Repr

/-- The operator as it is written in a program. -/
def Arithmetic.symbol : Arithmetic → String
  | .add => "+"
  | .sub => "-"
  | .mul => "*"
  | .div => "/"
  | .mod => "%"

namespace Integer

/-- Why an integer operation has no result. -/
inductive Failure where
  | divisionByZero
  /-- The exact result of the operator is not a word of 64 bits. -/
  | overflow (op : Arithmetic)
  deriving DecidableEq, Repr

/-- The word with the given value, if there is one. -/
def fit? (i : Int) : Option Int64 :=
  if Int64.minValue.toInt ≤ i ∧ i ≤ Int64.maxValue.toInt then some (Int64.ofInt i) else none

/-- The exact value as a word, or the overflow of `op`. -/
def exact (op : Arithmetic) (i : Int) : Except Failure Int64 :=
  match fit? i with
  | some n => .ok n
  | none => .error (.overflow op)

/-- An operator applied to two integers. A zero divisor is noticed before an overflow. -/
def apply (op : Arithmetic) (a b : Int64) : Except Failure Int64 :=
  match op with
  | .add => exact .add (a.toInt + b.toInt)
  | .sub => exact .sub (a.toInt - b.toInt)
  | .mul => exact .mul (a.toInt * b.toInt)
  | .div => if b = 0 then .error .divisionByZero else exact .div (a.toInt.tdiv b.toInt)
  | .mod =>
    if b = 0 then .error .divisionByZero
    else do
      let _ ← exact .mod (a.toInt.tdiv b.toInt)
      exact .mod (a.toInt.tmod b.toInt)

/-- The opposite of an integer; its overflow is that of a difference from zero. -/
def negate (a : Int64) : Except Failure Int64 := exact .sub (-a.toInt)

end Integer

end StackScript
