import StackScript.Image.Reader
import StackScript.Image.Writer
import StackScript.Listing

/-!
# Inspecting image files

The command line looks at a file that holds an image: it lists the code, sums up what is in it, or
checks that the image is the one that would be written of its contents. What a command prints is
computed here from the bytes of the file.
-/

namespace StackScript.Inspection

/-- What is done with a file. -/
inductive Command where
  | list
  | summarize
  | verify
  deriving DecidableEq, Repr

def Command.ofName? : String → Option Command
  | "disasm" | "dis" => some .list
  | "inspect" => some .summarize
  | "verify" => some .verify
  | _ => none

/-- What a command prints, and the exit status. -/
structure Report where
  code : UInt8 := 0
  out : String := ""
  err : String := ""
  deriving DecidableEq, Repr

/-- Why a command fails. -/
inductive Error where
  | unreadable (reason : String)
  | invalid (e : Image.Error)
  | unwritable (e : Image.Error)
  | differs (size newSize offset : Nat)

/-- The wording of an error about the file at a path. -/
def Error.message (path : String) : Error → String
  | .unreadable reason => "cannot read " ++ path ++ ": " ++ reason
  | .invalid e => path ++ ": " ++ e.message
  | .unwritable e => "re-encoding failed: " ++ e.message
  | .differs size newSize offset =>
    path ++ ": re-encoded chunk differs (" ++ toString size ++ " bytes on disk, " ++
      toString newSize ++ " after round trip, first difference at byte " ++ toString offset ++ ")"

/-- Why a file that does not exist cannot be read. -/
def missing : String := "No such file or directory (os error 2)"

/-! ## Colours -/

def coloured (colour : Nat) (s : String) : String :=
  "\x1b[" ++ toString colour ++ "m" ++ s ++ "\x1b[39m"

def red : String → String := coloured 31

def green : String → String := coloured 32

def cyan : String → String := coloured 36

def bold (s : String) : String := "\x1b[1m" ++ s ++ "\x1b[0m"

/-! ## Summaries -/

/-- The kinds of values, in the order of their names. -/
def kinds : List Kind :=
  [.bool, .bound, .char, .closure, .float, .function, .instanceOf, .int, .native, .nil, .range,
    .record, .string, .void]

def census (constants : List Constant) : List (Nat × Kind) :=
  (kinds.map fun k => (constants.countP (·.kind = k), k)).filter (·.1 ≠ 0)

def censusText (constants : List Constant) : String :=
  match census constants with
  | [] => ""
  | entries =>
    let texts := entries.map fun (n, k) => toString n ++ " " ++ k.name
    " (" ++ String.intercalate ", " texts ++ ")"

/-- The line for a chunk. Functions are shown with the number of their parameters. -/
def summaryLine (depth : Nat) (arity : Option UInt32) (c : Chunk Constant) : String :=
  let label := match arity with
    | some n => c.title ++ "/" ++ toString n.toNat
    | none => c.title
  "".pushn ' ' (2 * depth) ++ cyan label ++ ": " ++ toString c.code.size ++ " bytes, " ++
    toString (Instruction.scan c.code).length ++ " instructions, " ++
    toString c.constants.length ++ " constants" ++ censusText c.constants ++ "\n"

mutual

/-- The lines for the functions among some constants and for all functions in them. -/
def functionLines (depth : Nat) : List Constant → String
  | [] => ""
  | c :: cs => functionLine depth c ++ functionLines depth cs

/-- The lines for a constant, if it is a function, and for all functions in it. -/
def functionLine (depth : Nat) : Constant → String
  | ⟨.function ⟨arity, ⟨name, code, constants, marks⟩⟩⟩ =>
    summaryLine depth (some arity) ⟨name, code, constants, marks⟩ ++
      functionLines (depth + 1) constants
  | _ => ""

end

/-- The summary of a chunk and of all functions in it. -/
def summary (c : Chunk Constant) : String :=
  summaryLine 1 none c ++ functionLines 2 c.constants

/-! ## Commands -/

/-- The first position at which two lists differ, or the length of the shorter. -/
def firstDifference : List UInt8 → List UInt8 → Nat
  | a :: as, b :: bs => if a = b then firstDifference as bs + 1 else 0
  | _, _ => 0

/-- The output of a command on a file that holds the given bytes. -/
def output (command : Command) (path : String) (bytes : List UInt8) : Except Error String := do
  let chunk ← (Image.decode bytes).mapError Error.invalid
  let size := " (" ++ toString bytes.length ++ " bytes)\n"
  match command with
  | .list => return chunk.listing
  | .summarize => return bold path ++ size ++ summary chunk
  | .verify =>
    let image ← (Image.encode chunk).mapError Error.unwritable
    if image.toList = bytes then return bold (green "ok") ++ " " ++ path ++ size
    else throw (.differs bytes.length image.size (firstDifference bytes image.toList))

/-- What a command prints about a file, given its bytes or the reason why it cannot be read. -/
def report (command : Command) (path : String) (file : Except String (List UInt8)) : Report :=
  match file.mapError Error.unreadable >>= output command path with
  | .ok out => { out }
  | .error e => { code := 1, err := bold (red "error") ++ ": " ++ e.message path ++ "\n" }

end StackScript.Inspection
