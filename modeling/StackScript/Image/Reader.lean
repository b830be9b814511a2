import StackScript.Constant
import StackScript.Image.Error

/-!
# Reading images

A reader takes bytes from the front of what is left of an image and knows how many were taken
before, so that an error says where it arose. Values are read layer by layer, at most `maxDepth`
layers deep.

Before the members of a list are read, its length is held against the number of bytes that are left.
An image must hold exactly one chunk.
-/

namespace StackScript.Image

/-- The rest of an image. -/
structure Cursor where
  offset : Nat := 0
  rest : List UInt8

/-- Something that is read from the front of an image. -/
abbrev Reader := StateT Cursor (Except Error)

namespace Reader

variable {α : Type}

def position : Reader Nat := return (← get).offset

def bytes (n : Nat) : Reader (List UInt8) := fun cursor =>
  let taken := cursor.rest.take n
  if taken.length = n then .ok (taken, ⟨cursor.offset + n, cursor.rest.drop n⟩)
  else .error (.unexpectedEnd cursor.offset n)

def byte : Reader UInt8 := return (← bytes 1).headD 0

def word : Reader UInt32 := return (Word.ofBytes (← bytes 4)).toUInt32

def long : Reader UInt64 := return (Word.ofBytes (← bytes 8)).toUInt64

def integer : Reader Int64 := return (← long).toInt64

def flag : Reader Bool := do
  let offset ← position
  let b ← byte
  if b = 0 then return false
  else if b = 1 then return true
  else throw (.invalidFlag b offset)

/-- Reads the length of a part whose members must fit into the bytes that are left. -/
def length (part : Part) : Reader Nat := do
  let offset ← position
  let n := (← word).toNat
  if n * part.least > (← get).rest.length then
    throw (.unexpectedEnd offset (n * part.least))
  return n

def times (item : Reader α) : Nat → Reader (List α)
  | 0 => return []
  | n + 1 => do
    let a ← item
    let as ← times item n
    return a :: as

/-- Reads the length of a list and then its members. -/
def list (part : Part) (item : Reader α) : Reader (List α) := do
  times item (← length part)

def string : Reader String := do
  let n ← word
  let offset ← position
  let bs ← bytes n.toNat
  match String.fromUTF8? ⟨bs.toArray⟩ with
  | some s => return s
  | none => throw (.invalidText offset)

def char : Reader Char := do
  let n ← word
  if h : n.isValidChar then return ⟨n, h⟩ else throw (.invalidChar n)

def mark : Reader Span := return ⟨← word, ← word⟩

/-- Reads a chunk, given how its constants are read. An empty name is none. -/
def chunk (value : Reader α) : Reader (Chunk α) := do
  let name ← string
  let code ← bytes (← word).toNat
  let constants ← list .constants value
  let count ← length .marks
  if count ≠ code.length then
    throw (.marksMismatch code.length count)
  let marks ← times mark count
  return ⟨if name.isEmpty then none else some name, code.toArray, constants, marks.toArray⟩

def function (value : Reader α) : Reader (Function α) := return ⟨← word, ← chunk value⟩

def cell (value : Reader α) : Reader (Cell α) := do
  let slot ← word
  let position ← word
  let closed ← if ← flag then some <$> value else pure none
  return ⟨slot, position, closed⟩

def closure (value : Reader α) : Reader (Closure α (Cell α)) :=
  return ⟨← function value, ← list .captures (cell value)⟩

def record (value : Reader α) : Reader (Record (Closure α (Cell α))) :=
  return ⟨← string, ← list .fieldNames string, ← list .methods (closure value)⟩

def tag : Reader Tag := do
  let offset ← position
  let b ← byte
  match Tag.ofByte? b with
  | some t => return t
  | none => throw (.unknownTag b offset)

/-- Reads one layer of a value, given how the values inside it are read. -/
def node (value : Reader α) : Reader (Node α) := do
  match ← tag with
  | .int => return .int (← integer)
  | .float => return .float ⟨← long⟩
  | .string => return .string (← string)
  | .char => return .char (← char)
  | .bool => return .bool (← flag)
  | .nil => return .nil
  | .void => return .void
  | .function => return .function (← function value)
  | .closure => return .closure (← closure value)
  | .range => return .range ⟨← integer, ← integer, ← integer, ← flag, ← flag⟩
  | .record => return .record (← record value)
  | .instanceOf => return .instanceOf (← list .fields value) (← record value)
  | .bound => return .bound (← value) (← closure value)

def value : (depth : Nat) → Reader Constant
  | 0 => throw .tooDeep
  | depth + 1 => return ⟨← node (value depth)⟩

end Reader

def decode (image : List UInt8) : Except Error (Chunk Constant) := do
  let (c, cursor) ← Reader.chunk (Reader.value maxDepth) ⟨0, image⟩
  if cursor.rest.isEmpty then return c else throw (.trailing cursor.rest.length)

end StackScript.Image
