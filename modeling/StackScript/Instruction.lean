import StackScript.Code
import StackScript.Opcode
import StackScript.Text.Quoted

/-!
# Instructions

An instruction is an opcode with the operands its format asks for. The type of the operands depends
on the opcode, so that an instruction with the wrong operands cannot be written down.

`Instruction.bytes` writes an instruction and `Instruction.read` reads the one that begins at an
offset; `Instruction.scan` reads code from its first byte to its end or to the first place where no
instruction can be read. The size of an instruction is computed from its operands alone.
-/

namespace StackScript

/-- How a closure gets hold of one variable of the function around it. -/
structure Capture where
  /-- The variable is a local of the enclosing function, not one that it captured itself. -/
  fromLocal : Bool
  /-- Its slot among the locals, or among the captured variables, of the enclosing function. -/
  index : UInt32
  deriving DecidableEq, Repr

/-- The operands of an instruction with the given format. -/
@[reducible] def Format.Args : Format → Type
  | .plain => Unit
  | .constant | .slot | .count | .jump => UInt32
  | .invoke => UInt32 × UInt32
  | .closure => UInt32 × List Capture

/-- One operand, with what it counts or points at. -/
inductive Operand where
  | constant (index : UInt32)
  | slot (index : UInt32)
  | count (n : UInt32)
  | jump (distance : UInt32)
  | capture (c : Capture)
  deriving DecidableEq, Repr

namespace Capture

def bytes (c : Capture) : List UInt8 := (if c.fromLocal then 1 else 0) :: Word.bytes32 c.index

/-- The capture that begins at an offset. Every flag byte but zero means a local. -/
def readAt? (code : Code) (offset : Nat) : Option Capture := do
  let flag ← code[offset]?
  let index ← code.wordAt? (offset + 1)
  return ⟨flag != 0, index⟩

/-- The given number of captures from an offset on. -/
def readMany? (code : Code) : (count offset : Nat) → Option (List Capture)
  | 0, _ => some []
  | count + 1, offset => do
    let c ← readAt? code offset
    let cs ← readMany? code count (offset + captureWidth)
    return c :: cs

end Capture

namespace Format

/-- The operands as a list, in the order in which they are written. -/
def operands : (f : Format) → f.Args → List Operand
  | .plain, () => []
  | .constant, n => [.constant n]
  | .slot, n => [.slot n]
  | .count, n => [.count n]
  | .jump, n => [.jump n]
  | .invoke, (name, argc) => [.constant name, .count argc]
  | .closure, (index, captures) =>
    .constant index :: .count captures.length.toUInt32 :: captures.map .capture

def bytes : (f : Format) → f.Args → List UInt8
  | .plain, () => []
  | .constant, n | .slot, n | .count, n | .jump, n => Word.bytes32 n
  | .invoke, (name, argc) => Word.bytes32 name ++ Word.bytes32 argc
  | .closure, (index, captures) =>
    Word.bytes32 index ++ Word.bytes32 captures.length.toUInt32 ++ captures.flatMap Capture.bytes

def readAt? (code : Code) (offset : Nat) : (f : Format) → Option f.Args
  | .plain => some ()
  | .constant | .slot | .count | .jump => code.wordAt? offset
  | .invoke => do
    let name ← code.wordAt? offset
    let argc ← code.wordAt? (offset + wordWidth)
    return (name, argc)
  | .closure => do
    let index ← code.wordAt? offset
    let count ← code.wordAt? (offset + wordWidth)
    let captures ← Capture.readMany? code count.toNat (offset + 2 * wordWidth)
    return (index, captures)

end Format

/-- An instruction: an opcode and its operands. -/
structure Instruction where
  op : Opcode
  /-- The operands, of the type that the operation's format asks for. -/
  args : op.format.Args

namespace Instruction

/-- Why no instruction can be read at an offset. -/
inductive Malformed where
  | unknownOpcode (offset : Nat) (byte : UInt8)
  | truncated (offset : Nat) (op : Opcode)
  deriving DecidableEq, Repr

/-- The message for a place where no instruction can be read. -/
def Malformed.message : Malformed → String
  | .unknownOpcode offset byte =>
    "unknown opcode 0x" ++ Text.hexByte byte.toNat ++ " at offset " ++ toString offset
  | .truncated offset op =>
    "truncated operands for " ++ op.name ++ " at offset " ++ toString offset

def operands (i : Instruction) : List Operand := i.op.format.operands i.args

def bytes (i : Instruction) : List UInt8 := i.op.byte :: i.op.format.bytes i.args

/-- The number of bytes of the instruction: the opcode, its operand words and its captures. -/
def size (i : Instruction) : Nat :=
  let captures := i.operands.countP fun
    | .capture _ => true
    | _ => false
  1 + i.op.width + captures * captureWidth

theorem size_pos (i : Instruction) : 0 < i.size := by
  simp only [size]
  omega

/-- The instruction that begins at an offset inside the code. -/
def read (code : Code) (offset : Nat) (byte : UInt8) : Except Malformed Instruction :=
  match Opcode.ofByte? byte with
  | none => .error (.unknownOpcode offset byte)
  | some op =>
    match op.format.readAt? code (offset + 1) with
    | none => .error (.truncated offset op)
    | some args => .ok ⟨op, args⟩

/-- An instruction and the offset at which it begins. -/
structure Located where
  offset : Nat
  instruction : Instruction

namespace Located

/-- The offset at which the next instruction begins. -/
def next (l : Located) : Nat := l.offset + l.instruction.size

/-- The offset at which a taken jump goes on. A backward jump may lead out of the code. -/
def target? (l : Located) : Option Nat :=
  match l.instruction.operands.head? with
  | some (.jump distance) =>
    if l.instruction.op = .loop then
      if distance.toNat ≤ l.next then some (l.next - distance.toNat) else none
    else some (l.next + distance.toNat)
  | _ => none

end Located

/-- The instructions from an offset on. A place where none can be read ends the list. -/
def scanFrom (code : Code) (offset : Nat) : List (Except Malformed Located) :=
  if h : offset < code.size then
    match read code offset code[offset] with
    | .ok i => .ok ⟨offset, i⟩ :: scanFrom code (offset + i.size)
    | .error e => [.error e]
  else []
termination_by code.size - offset
decreasing_by
  have := i.size_pos
  omega

def scan (code : Code) : List (Except Malformed Located) := scanFrom code 0

end Instruction

end StackScript
