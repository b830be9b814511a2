import StackScript.Node

/-!
# Live values

While a program runs, functions, closures, records, host functions and instances have an identity,
so a live value carries, beside what it contains, the key of the object it is. What can change, the
variables captured by closures and the fields of instances, is in the store, and the value holds a
reference to it.

Two values are *equal* for the program (`Value.equals`) when they are equal numbers, whether integer
or floating-point, or the same string, character, boolean or range, or the same object; two bound
methods are equal when they bind the same method object to equal receivers.
-/

namespace StackScript

/-- Something with an identity: two objects are the same one exactly when their keys agree. -/
structure Object (β : Type) where
  key : Nat
  body : β

/-- A reference to a captured variable in the store. -/
structure CellRef where
  /-- Position among the cells of the store. -/
  index : Nat
  deriving DecidableEq, Repr

/-- A reference to an instance in the store. -/
structure InstanceRef where
  /-- Position among the instances of the store. -/
  index : Nat
  deriving DecidableEq, Repr

/-- A value of a running program. -/
inductive Value where
  | int (n : Int64)
  | float (x : Double)
  | string (s : String)
  | char (c : Char)
  | bool (b : Bool)
  | nil
  /-- The result of a function that returns nothing. -/
  | void
  | function (f : Object (Function Value))
  /-- A function with references to its captured variables. -/
  | closure (c : Object (Closure Value CellRef))
  | native (n : Native)
  | range (r : Range)
  | record (r : Object (Record (Object (Closure Value CellRef))))
  | instanceOf (ref : InstanceRef)
  | bound (receiver : Value) (method : Object (Closure Value CellRef))

namespace Value

/-- A closure as it runs: its captured variables are in the store. -/
abbrev Code := Closure Value CellRef

abbrev Method := Object Code

abbrev RecordType := Object (Record Method)

def kind : Value → Kind
  | .int _ => .int
  | .float _ => .float
  | .string _ => .string
  | .char _ => .char
  | .bool _ => .bool
  | .nil => .nil
  | .void => .void
  | .function _ => .function
  | .closure _ => .closure
  | .native _ => .native
  | .range _ => .range
  | .record _ => .record
  | .instanceOf _ => .instanceOf
  | .bound .. => .bound

def asBool? : Value → Option Bool
  | .bool b => some b
  | _ => none

/-- Whether a value is a function with its surroundings, a host function, a record type or a bound
method. -/
def isCallable : Value → Bool
  | .closure _ | .native _ | .record _ | .bound .. => true
  | _ => false

/-- The floating-point number that a numeric value stands for. -/
def toDouble? : Value → Option Double
  | .int n => some (.ofInt n.toInt)
  | .float x => some x
  | _ => none

/-! ## Equality and order, as a program sees them -/

def equals : Value → Value → Bool
  | .int a, .int b => a == b
  | .float a, .float b => a.numericallyEqual b
  | .int a, .float b => (Double.ofInt a.toInt).numericallyEqual b
  | .float a, .int b => (Double.ofInt b.toInt).numericallyEqual a
  | .string a, .string b => a == b
  | .char a, .char b => a == b
  | .bool a, .bool b => a == b
  | .nil, .nil => true
  | .void, .void => true
  | .range a, .range b => a == b
  | .function a, .function b => a.key == b.key
  | .closure a, .closure b => a.key == b.key
  | .native a, .native b => a.key == b.key
  | .record a, .record b => a.key == b.key
  | .instanceOf a, .instanceOf b => a == b
  | .bound a m, .bound b n => m.key == n.key && a.equals b
  | _, _ => false

/-- Identity: the same number, bit for bit, the same string, character, boolean or range, or the
same object; two bound methods are identical when they bind the same method object to identical
receivers. Identical values have the same contents, so there is no need to look inside. -/
def identical : Value → Value → Bool
  | .int a, .int b => a == b
  | .float a, .float b => a == b
  | .string a, .string b => a == b
  | .char a, .char b => a == b
  | .bool a, .bool b => a == b
  | .nil, .nil => true
  | .void, .void => true
  | .range a, .range b => a == b
  | .function a, .function b => a.key == b.key
  | .closure a, .closure b => a.key == b.key
  | .native a, .native b => a == b
  | .record a, .record b => a.key == b.key
  | .instanceOf a, .instanceOf b => a == b
  | .bound a m, .bound b n => m.key == n.key && a.identical b
  | _, _ => false

/-- Whether two values have an order: two numbers, two strings or two characters. -/
def comparable : Value → Value → Bool
  | .int _, .int _ | .int _, .float _ | .float _, .int _ | .float _, .float _ => true
  | .string _, .string _ => true
  | .char _, .char _ => true
  | _, _ => false

/-- The order of two values. Strings are ordered by their code points, character by character.
There is no order where one number is not a number. -/
def compare? : Value → Value → Option Ordering
  | .int a, .int b => some (compare a.toInt b.toInt)
  | .float a, .float b => a.compare? b
  | .int a, .float b => (Double.ofInt a.toInt).compare? b
  | .float a, .int b => a.compare? (Double.ofInt b.toInt)
  | .string a, .string b => some (compare a b)
  | .char a, .char b => some (compare a.toNat b.toNat)
  | _, _ => none

end Value

def Record.method? (r : Record Value.Method) (name : String) : Option Value.Method :=
  r.methods.find? (·.body.name == name)

end StackScript
