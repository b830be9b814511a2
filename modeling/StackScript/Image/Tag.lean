/-!
# The vocabulary of images

An image is the binary form of a chunk. Each value in it begins with a tag byte, and each list or
string with its length as a word of four bytes. `Tag` names the kinds of values that an image can
hold, `Part` the things that have a length.
-/

namespace StackScript.Image

/-- What kind of value follows a tag byte. -/
inductive Tag where
  /-- An integer: eight bytes. -/
  | int
  /-- A floating-point number: the eight bytes of its pattern. -/
  | float
  /-- A string: its length and its bytes in UTF-8. -/
  | string
  /-- A character: its code point. -/
  | char
  /-- A boolean: one flag byte. -/
  | bool
  /-- The absent value: nothing. -/
  | nil
  /-- The empty result: nothing. -/
  | void
  /-- A function: its arity and its chunk. -/
  | function
  /-- A closure: its function and its captured variables. -/
  | closure
  /-- A range: cursor, bound and step, and two flag bytes. -/
  | range
  /-- A record: its name, its field names and its methods. -/
  | record
  /-- An instance: its fields and its record. -/
  | instanceOf
  /-- A bound method: the receiver and the closure. -/
  | bound
  deriving DecidableEq, Repr

namespace Tag

def byte : Tag → UInt8
  | .int => 0
  | .float => 1
  | .string => 2
  | .char => 3
  | .bool => 4
  | .nil => 5
  | .void => 6
  | .function => 7
  | .closure => 8
  | .range => 9
  | .record => 10
  | .instanceOf => 11
  | .bound => 12

def name : Tag → String
  | .int => "Int"
  | .float => "Float"
  | .string => "String"
  | .char => "Char"
  | .bool => "Bool"
  | .nil => "Nil"
  | .void => "Void"
  | .function => "Function"
  | .closure => "Closure"
  | .range => "Range"
  | .record => "Record"
  | .instanceOf => "Instance"
  | .bound => "BoundMethod"

def all : List Tag :=
  [.int, .float, .string, .char, .bool, .nil, .void, .function, .closure, .range, .record,
    .instanceOf, .bound]

def ofByte? (b : UInt8) : Option Tag := all.find? (·.byte = b)

theorem ofByte?_byte (t : Tag) : ofByte? t.byte = some t := by
  cases t <;> rfl

theorem byte_of_ofByte? {b : UInt8} {t : Tag} (h : ofByte? b = some t) : t.byte = b := by
  simpa using List.find?_some h

end Tag

/-- What an image stores together with its length. -/
inductive Part where
  | string
  | code
  | constants
  | marks
  | fields
  | captures
  | fieldNames
  | methods
  deriving DecidableEq, Repr

namespace Part

def name : Part → String
  | .string => "string"
  | .code => "code"
  | .constants => "constant pool"
  | .marks => "metadata"
  | .fields => "instance fields"
  | .captures => "upvalue list"
  | .fieldNames => "record fields"
  | .methods => "method table"

/-- A number of bytes that every member of the part takes up at least, so that a length for which
the remaining bytes cannot suffice is refused before any member is read. -/
def least : Part → Nat
  | .string => 1
  | .code => 1
  | .constants => 1
  | .marks => 8
  | .fields => 1
  | .captures => 9
  | .fieldNames => 4
  | .methods => 4

end Part

end StackScript.Image
