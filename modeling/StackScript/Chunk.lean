import StackScript.Code
import StackScript.Opcode
import StackScript.Span

/-!
# Chunks

A chunk is the compiled body of a function or of a whole program: its code, the constants that the
code refers to by index, and one source position for every byte of code. The type of the constants
is a parameter, because a chunk occurs in two surroundings: in images and in the compiler its
constants are finite trees, in a running machine they are live values.
-/

namespace StackScript

/-- A compiled body. -/
structure Chunk (α : Type) where
  /-- The name of the function; a program has none. -/
  name : Option String
  code : Code := #[]
  /-- The constants, in the order of their indices. -/
  constants : List α := []
  /-- The source position of each byte of code. -/
  marks : Array Span := #[]
  deriving DecidableEq

namespace Chunk

variable {α β : Type}

/-- The name under which a chunk appears in messages and listings. -/
def title (c : Chunk α) : String := c.name.getD "script"

def map (f : α → β) (c : Chunk α) : Chunk β := { c with constants := c.constants.map f }

/-- Appends bytes that stem from one region of the source. -/
def append (c : Chunk α) (bytes : List UInt8) (span : Span) : Chunk α :=
  { c with
    code := c.code ++ bytes.toArray
    marks := c.marks ++ Array.replicate bytes.length span }

def appendByte (c : Chunk α) (b : UInt8) (span : Span) : Chunk α := c.append [b] span

def appendOp (c : Chunk α) (op : Opcode) (span : Span) : Chunk α := c.appendByte op.byte span

def appendWord (c : Chunk α) (n : UInt32) (span : Span) : Chunk α := c.append (Word.bytes32 n) span

/-- The chunk with another word at an offset of its code, if a word is there. -/
def patch? (c : Chunk α) (offset : Nat) (n : UInt32) : Option (Chunk α) :=
  (c.code.patch? offset n).map fun code => { c with code }

/-- The index of a constant and the list of constants that has it. A constant that is already in
the list keeps its index and is not added again. -/
def intern [BEq α] (constants : List α) (a : α) : Nat × List α :=
  match constants.findIdx? (· == a) with
  | some i => (i, constants)
  | none => (constants.length, constants ++ [a])

def addConstant [BEq α] (c : Chunk α) (a : α) : Nat × Chunk α :=
  let (i, constants) := intern c.constants a
  (i, { c with constants })

def IsMarked (c : Chunk α) : Prop := c.marks.size = c.code.size

theorem IsMarked.append {c : Chunk α} (h : c.IsMarked) (bytes : List UInt8) (span : Span) :
    (c.append bytes span).IsMarked := by
  unfold IsMarked at h ⊢
  simp [Chunk.append, Array.size_append, h]

end Chunk

end StackScript
