import StackScript.Lowering.Statement

/-!
# Compiling programs

The names that a program declares at its top level are globals, and all of them are known before the
first statement is compiled. The host functions come before them. Behind the statements the program
calls the function it starts with and ends.
-/

namespace StackScript

/-- How programs are compiled. -/
structure Options where
  entry : String := "main"
  natives : List String := []
  /-- Whether statements without effect, those that are a literal or a name, are left out. -/
  strip : Bool := true
  deriving DecidableEq, Repr

namespace Lowering

open Fragment (emit)

/-- The globals of a program: the host functions and what is declared at the top level. -/
def hoist (options : Options) (program : Program) : Globals :=
  (program.body.filterMap Stmt.declared?).foldl (fun g id => g.declare id.name false)
    (Globals.ofNatives options.natives)

def topLevel (strip : Bool) : List Stmt → Lower Fragment
  | [] => return []
  | s :: ss => do
    unmute
    let code ← statement strip none s
    let codes ← topLevel strip ss
    return code ++ codes

/-- Code that calls the function the program starts with, and ends the program. -/
def entryCall (entry : String) (program : Program) : Lower Fragment := do
  unmute
  let isDeclared := (program.body.filterMap Stmt.function?).any (·.name = entry)
  match (← get).globals.slot? entry, isDeclared with
  | some slot, true =>
    return emit ⟨.getGlobal, slot.toUInt32⟩ {} ++ emit ⟨.call, 0⟩ {} ++ emit ⟨.pop, ()⟩ {} ++
      emit ⟨.exitSuccess, ()⟩ {}
  | _, _ =>
    report (.missingEntry entry) {}
    return []

def script (options : Options) (program : Program) : Lower Fragment := do
  let body ← topLevel options.strip program.body
  let call ← entryCall options.entry program
  let code := body ++ call
  if let some (offset, span) := code.farJump? 0 then
    abort (.jumpTooFar offset) span
  return code

end Lowering

/-- The compiled program, or all that is wrong with it. -/
def Program.compile (program : Program) (options : Options) :
    Except (List Diagnostic) (Chunk Constant) :=
  let (code, context) :=
    (Lowering.script options program).run { globals := Lowering.hoist options program }
  match context.messages ++ context.fatal.toList with
  | [] => .ok (code.toChunk none context.frame.constants)
  | messages => .error messages

end StackScript
