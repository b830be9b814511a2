import StackScript.Node
import StackScript.Text.Quoted

/-!
# Faults

Why the run of a program fails. Some faults are mistakes of the program, such as adding a number to
a function; others can only arise from code that no program compiles to.
-/

namespace StackScript

/-- Why a run fails. -/
inductive Fault where
  | invalidOpcode (byte : UInt8) (offset : Nat)
  | truncated (offset : Nat)
  | invalidJump (offset : Nat)
  | unexpectedEnd (name : String)
  | stackUnderflow
  | stackOverflow
  | invalidConstant (index : UInt32)
  | invalidLocal (slot : Nat)
  | invalidUpvalue (index : UInt32)
  | undefinedGlobal (slot : UInt32)
  | typeMismatch (operation : String) (left right : Kind)
  | unexpectedType (operation expected : String) (found : Kind)
  | notCallable (kind : Kind)
  | arityMismatch (name : String) (expected found : UInt32)
  | noSuchProperty (property owner : String)
  | divisionByZero
  | integerOverflow (op : Arithmetic)
  | native (name message : String)
  deriving DecidableEq, Repr

namespace Fault

/-- The fault of an integer operation that has no result. -/
def ofInteger : Integer.Failure → Fault
  | .divisionByZero => .divisionByZero
  | .overflow op => .integerOverflow op

def message : Fault → String
  | .invalidOpcode byte offset =>
    "invalid opcode 0x" ++ Text.hexByte byte.toNat ++ " at offset " ++ toString offset
  | .truncated offset => "truncated instruction at offset " ++ toString offset
  | .invalidJump offset => "jump at offset " ++ toString offset ++ " leaves the chunk"
  | .unexpectedEnd name => "execution ran past the end of `" ++ name ++ "`"
  | .stackUnderflow => "value stack underflow"
  | .stackOverflow => "call stack overflow"
  | .invalidConstant index => "invalid constant " ++ toString index.toNat
  | .invalidLocal slot => "invalid local slot " ++ toString slot
  | .invalidUpvalue index => "invalid upvalue " ++ toString index.toNat
  | .undefinedGlobal slot => "global slot " ++ toString slot.toNat ++ " is not defined"
  | .typeMismatch operation left right =>
    "cannot apply `" ++ operation ++ "` to " ++ left.name ++ " and " ++ right.name
  | .unexpectedType operation expected found =>
    "`" ++ operation ++ "` expected " ++ expected ++ ", found " ++ found.name
  | .notCallable kind => kind.name ++ " is not callable"
  | .arityMismatch name expected found =>
    "`" ++ name ++ "` expects " ++ toString expected.toNat ++ " arguments, got " ++
      toString found.toNat
  | .noSuchProperty property owner => owner ++ " has no property `" ++ property ++ "`"
  | .divisionByZero => "division by zero"
  | .integerOverflow op => "integer overflow in `" ++ op.symbol ++ "`"
  | .native name message => "native function `" ++ name ++ "` failed: " ++ message

end Fault

end StackScript
