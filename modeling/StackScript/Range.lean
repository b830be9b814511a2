import StackScript.Number.Integer

/-!
# Integer ranges

A range is an interval of integers that is its own cursor: `next` is the element that a loop will
see next, and advancing moves it by `step` toward `bound`. A range made from its two ends counts
down when the first is greater.

At the limits of 64 bits a cursor may have no further integer to move to. It then stays where it is
and is marked `exhausted`, so that advancing never overflows and never repeats an element.
-/

namespace StackScript

/-- An integer range and cursor. -/
structure Range where
  next : Int64
  bound : Int64
  step : Int64
  /-- Whether the far end is itself an element. -/
  inclusive : Bool
  /-- Set when the cursor could not be advanced. -/
  exhausted : Bool := false
  deriving DecidableEq, Repr

namespace Range

def between (first last : Int64) (inclusive : Bool) : Range where
  next := first
  bound := last
  step := if last < first then -1 else 1
  inclusive := inclusive

/-- Whether the cursor has not passed the far end. -/
def hasNext (r : Range) : Bool :=
  !r.exhausted &&
    if 0 ≤ r.step then
      if r.inclusive then r.next ≤ r.bound else r.next < r.bound
    else
      if r.inclusive then r.bound ≤ r.next else r.bound < r.next

def advance (r : Range) : Range :=
  match Integer.fit? (r.next.toInt + r.step.toInt) with
  | some n => { r with next := n }
  | none => { r with exhausted := true }

/-- The range as a program writes it, from the cursor on. -/
def text (r : Range) : String :=
  toString r.next.toInt ++ (if r.inclusive then "..=" else "..") ++ toString r.bound.toInt

end Range

end StackScript
