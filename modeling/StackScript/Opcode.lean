/-!
# Operation codes

An instruction begins with one byte, its opcode, and the opcode alone fixes how the operands that
follow are laid out. `Opcode.entry` is the one table of all this: the byte, the two names of the
operation and its operand format. Compiler, machine, images and listings read no other.
-/

namespace StackScript

/-- The operand layouts of instructions. Every operand is a word of four bytes; the captures of a
new closure follow its two words, one byte and one word each. -/
inductive Format where
  | plain
  | constant
  | slot
  | count
  | jump
  /-- The index of a name and a number of arguments. -/
  | invoke
  /-- The index of a function and a number of captures, which follow. -/
  | closure
  deriving DecidableEq, Repr

def wordWidth : Nat := 4

/-- Width of one capture in bytes: a flag and a word. -/
def captureWidth : Nat := 1 + wordWidth

/-- Bytes taken by the operand words, captures not counted. -/
def Format.width : Format → Nat
  | .plain => 0
  | .constant | .slot | .count | .jump => wordWidth
  | .invoke | .closure => 2 * wordWidth

/-- The operations of the machine. -/
inductive Opcode where
  /-- Push the constant with the given index. -/
  | pushConst
  /-- Push a new closure over a function constant. -/
  | pushClosure
  | pushTrue
  | pushFalse
  | pushNil
  | pushVoid
  | pop
  /-- Move the top value into a new local. -/
  | defLocal
  | getLocal
  /-- Store the top value into a local and keep it. -/
  | setLocal
  | popLocal
  | popnLocal
  /-- Push the value of a captured variable. -/
  | getUpvalue
  /-- Store the top value into a captured variable and keep it. -/
  | setUpvalue
  /-- Close the cells of the topmost local and drop it. -/
  | closeUpvalue
  /-- Move the top value into the next global slot. -/
  | defGlobal
  | getGlobal
  /-- Store the top value into a global and keep it. -/
  | setGlobal
  /-- Replace an instance by one of its fields or bound methods. -/
  | getProperty
  /-- Store the top value into a field of the instance below it. -/
  | setProperty
  /-- Call the value below a number of arguments. -/
  | call
  /-- Call a field or method of the instance below a number of arguments. -/
  | callProperty
  /-- Extend the record below a number of closures by these methods. -/
  | appendMethods
  | jump
  /-- Jump forward if the top value is true, and keep it. -/
  | jumpTrue
  /-- Jump forward if the top value is false, and keep it. -/
  | jumpFalse
  /-- Jump forward if the range on top has no next element, and keep it. -/
  | jumpHasNoNext
  | loop
  | add
  | sub
  | mul
  | div
  | mod
  | neg
  | eq
  | ne
  | lt
  | le
  | gt
  | ge
  | not
  | and
  | or
  /-- Fail unless the top value is a boolean. -/
  | assertBool
  /-- Range between two integers, without the second. -/
  | makeRange
  /-- Range between two integers, with the second. -/
  | makeInclRange
  /-- Fail unless the top value is a range. -/
  | makeIterator
  /-- Push the next element of the range on top. -/
  | getNext
  /-- Advance the range on top. -/
  | advance
  | return
  | returnVoid
  | exitSuccess
  deriving DecidableEq, Repr

namespace Opcode

/-- A row of the opcode table. -/
structure Entry where
  byte : UInt8
  name : String
  mnemonic : String
  format : Format

@[reducible] def entry : Opcode → Entry
  | .pushConst => ⟨0, "PushConst", "PUSH_CONST", .constant⟩
  | .pushClosure => ⟨1, "PushClosure", "PUSH_CLOSURE", .closure⟩
  | .pushTrue => ⟨2, "PushTrue", "PUSH_TRUE", .plain⟩
  | .pushFalse => ⟨3, "PushFalse", "PUSH_FALSE", .plain⟩
  | .pushNil => ⟨4, "PushNil", "PUSH_NIL", .plain⟩
  | .pushVoid => ⟨5, "PushVoid", "PUSH_VOID", .plain⟩
  | .pop => ⟨6, "Pop", "POP", .plain⟩
  | .defLocal => ⟨7, "DefLocal", "DEF_LOCAL", .plain⟩
  | .getLocal => ⟨8, "GetLocal", "GET_LOCAL", .slot⟩
  | .setLocal => ⟨9, "SetLocal", "SET_LOCAL", .slot⟩
  | .popLocal => ⟨10, "PopLocal", "POP_LOCAL", .plain⟩
  | .popnLocal => ⟨11, "PopnLocal", "POPN_LOCAL", .count⟩
  | .getUpvalue => ⟨12, "GetUpvalue", "GET_UPVALUE", .slot⟩
  | .setUpvalue => ⟨13, "SetUpvalue", "SET_UPVALUE", .slot⟩
  | .closeUpvalue => ⟨14, "CloseUpvalue", "CLOSE_UPVALUE", .plain⟩
  | .defGlobal => ⟨15, "DefGlobal", "DEF_GLOBAL", .plain⟩
  | .getGlobal => ⟨16, "GetGlobal", "GET_GLOBAL", .slot⟩
  | .setGlobal => ⟨17, "SetGlobal", "SET_GLOBAL", .slot⟩
  | .getProperty => ⟨18, "GetProperty", "GET_PROPERTY", .constant⟩
  | .setProperty => ⟨19, "SetProperty", "SET_PROPERTY", .constant⟩
  | .call => ⟨20, "Call", "CALL", .count⟩
  | .callProperty => ⟨21, "CallProperty", "CALL_PROPERTY", .invoke⟩
  | .appendMethods => ⟨22, "AppendMethods", "APPEND_METHODS", .count⟩
  | .jump => ⟨23, "Jump", "JUMP", .jump⟩
  | .jumpTrue => ⟨24, "JumpTrue", "JUMP_TRUE", .jump⟩
  | .jumpFalse => ⟨25, "JumpFalse", "JUMP_FALSE", .jump⟩
  | .jumpHasNoNext => ⟨26, "JumpHasNoNext", "JUMP_HAS_NO_NEXT", .jump⟩
  | .loop => ⟨27, "Loop", "LOOP", .jump⟩
  | .add => ⟨28, "Add", "ADD", .plain⟩
  | .sub => ⟨29, "Sub", "SUB", .plain⟩
  | .mul => ⟨30, "Mul", "MUL", .plain⟩
  | .div => ⟨31, "Div", "DIV", .plain⟩
  | .mod => ⟨32, "Mod", "MOD", .plain⟩
  | .neg => ⟨33, "Neg", "NEG", .plain⟩
  | .eq => ⟨34, "Eq", "EQ", .plain⟩
  | .ne => ⟨35, "Ne", "NE", .plain⟩
  | .lt => ⟨36, "Lt", "LT", .plain⟩
  | .le => ⟨37, "Le", "LE", .plain⟩
  | .gt => ⟨38, "Gt", "GT", .plain⟩
  | .ge => ⟨39, "Ge", "GE", .plain⟩
  | .not => ⟨40, "Not", "NOT", .plain⟩
  | .and => ⟨41, "And", "AND", .plain⟩
  | .or => ⟨42, "Or", "OR", .plain⟩
  | .assertBool => ⟨43, "AssertBool", "ASSERT_BOOL", .plain⟩
  | .makeRange => ⟨44, "MakeRange", "MAKE_RANGE", .plain⟩
  | .makeInclRange => ⟨45, "MakeInclRange", "MAKE_INCL_RANGE", .plain⟩
  | .makeIterator => ⟨46, "MakeIterator", "MAKE_ITERATOR", .plain⟩
  | .getNext => ⟨47, "GetNext", "GET_NEXT", .plain⟩
  | .advance => ⟨48, "Advance", "ADVANCE", .plain⟩
  | .return => ⟨49, "Return", "RETURN", .plain⟩
  | .returnVoid => ⟨50, "ReturnVoid", "RETURN_VOID", .plain⟩
  | .exitSuccess => ⟨51, "ExitSuccess", "EXIT_SUCCESS", .plain⟩

def byte (op : Opcode) : UInt8 := op.entry.byte

def name (op : Opcode) : String := op.entry.name

/-- The name of the operation in listings and in messages of the machine. -/
def mnemonic (op : Opcode) : String := op.entry.mnemonic

@[reducible] def format (op : Opcode) : Format := op.entry.format

def width (op : Opcode) : Nat := op.format.width

def isJump (op : Opcode) : Bool := op.format = .jump

/-- All opcodes, each at the position of its byte. -/
def all : Array Opcode := #[
  .pushConst, .pushClosure, .pushTrue, .pushFalse, .pushNil, .pushVoid, .pop, .defLocal,
  .getLocal, .setLocal, .popLocal, .popnLocal, .getUpvalue, .setUpvalue, .closeUpvalue,
  .defGlobal, .getGlobal, .setGlobal, .getProperty, .setProperty, .call, .callProperty,
  .appendMethods, .jump, .jumpTrue, .jumpFalse, .jumpHasNoNext, .loop, .add, .sub, .mul,
  .div, .mod, .neg, .eq, .ne, .lt, .le, .gt, .ge, .not, .and, .or, .assertBool, .makeRange,
  .makeInclRange, .makeIterator, .getNext, .advance, .return, .returnVoid, .exitSuccess]

/-- The opcode with the given byte, if there is one. -/
def ofByte? (b : UInt8) : Option Opcode := all[b.toNat]?

@[simp] theorem ofByte?_byte (op : Opcode) : ofByte? op.byte = some op := by
  cases op <;> rfl

/-- Each opcode stands at the position of its byte. -/
theorem byte_all (i : Fin all.size) : (all[i]).byte.toNat = i.val := by
  revert i
  decide

/-- A byte is read as the opcode that writes it. -/
theorem byte_of_ofByte? {b : UInt8} {op : Opcode} (h : ofByte? b = some op) : op.byte = b := by
  obtain ⟨hb, rfl⟩ := Array.getElem?_eq_some_iff.1 h
  exact UInt8.toNat_inj.1 (byte_all ⟨b.toNat, hb⟩)

end Opcode

end StackScript
