import StackScript.Constant
import StackScript.Instruction
import StackScript.Text.Column

/-!
# Listings

The listing of a chunk has a line for every instruction: its offset, the source position of its
first byte, its mnemonic and its operands. Operands that refer to something show what they refer to:
a constant its text, a jump the offset at which it goes on. The listings of the functions among the
constants follow, each after an empty line.
-/

namespace StackScript

namespace Listing

def offset (n : Nat) : String := Text.alignRight '0' 4 (toString n)

def constant : Option Constant → String
  | none => "?"
  | some ⟨.string s⟩ => Text.quoted s
  | some c => c.text

def operand (constants : List Constant) (l : Instruction.Located) : Operand → String
  | .constant index =>
    " " ++ toString index.toNat ++ " (" ++ constant constants[index.toNat]? ++ ")"
  | .slot index => " " ++ toString index.toNat
  | .count n => " " ++ toString n.toNat
  | .jump distance =>
    " " ++ toString distance.toNat ++ " -> " ++ (l.target?.map offset).getD "?"
  | .capture c =>
    " [" ++ (if c.fromLocal then "local " else "upvalue ") ++ toString c.index.toNat ++ "]"

/-- The line of an instruction, or of a place where none can be read. -/
def line (constants : List Constant) (marks : Array Span) :
    Except Instruction.Malformed Instruction.Located → String
  | .ok l =>
    let position := (marks[l.offset]?.getD {}).start.toNat
    offset l.offset ++ "  " ++ Text.alignRight ' ' 6 (toString position) ++ "  " ++
      Text.alignLeft 16 l.instruction.op.mnemonic ++
      String.join (l.instruction.operands.map (operand constants l)) ++ "\n"
  | .error e => "error: " ++ e.message ++ "\n"

/-- The title of a chunk and the lines of its instructions. -/
def body (c : Chunk Constant) : String :=
  "== " ++ c.title ++ " ==\n" ++
    String.join ((Instruction.scan c.code).map (line c.constants c.marks))

mutual

/-- The listings of the functions among some constants, each after an empty line. -/
def functions : List Constant → String
  | [] => ""
  | c :: cs => function c ++ functions cs

/-- The listing of a constant, if it is a function, after an empty line. -/
def function : Constant → String
  | ⟨.function ⟨_, ⟨name, code, constants, marks⟩⟩⟩ =>
    "\n" ++ body ⟨name, code, constants, marks⟩ ++ functions constants
  | _ => ""

end

end Listing

/-- The listing of a chunk and of all functions in it. -/
def Chunk.listing (c : Chunk Constant) : String := Listing.body c ++ Listing.functions c.constants

end StackScript
