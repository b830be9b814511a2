import StackScript.Constant
import StackScript.Diagnostic
import StackScript.Fragment
import StackScript.Scope

/-!
# Names and messages during compilation

Compilation goes through a program once, from its beginning to its end. At each point it knows the
function that is being compiled, the functions around it and the globals; this is its `Context`.

A name is looked for among the locals of the function, then among those of the functions around it,
from the inside to the outside, and at last among the globals. A local of a surrounding function is
captured: it is marked in its own scope, and each function in between passes it on.

Of the messages about one statement at the top level only the first is kept.
-/

namespace StackScript.Lowering

/-- A function that is being compiled. -/
structure Frame where
  scope : Scope := {}
  captures : List Capture := []
  constants : List Constant := []

/-- What is known at a point of the compilation. -/
structure Context where
  frame : Frame := {}
  /-- The functions around it, from the inside to the outside; the last is the program itself. -/
  enclosing : List Frame := []
  globals : Globals := {}
  messages : List Diagnostic := []
  /-- Whether the current statement at the top level has a message. -/
  muted : Bool := false
  /-- A message after which compilation cannot go on. -/
  fatal : Option Diagnostic := none

abbrev Lower := StateM Context

/-- Where a variable is found. -/
inductive Binding where
  | local (slot : UInt32)
  | captured (index : UInt32)
  | global (slot : UInt32)
  deriving DecidableEq, Repr

def Binding.get (b : Binding) (span : Span) : Fragment :=
  match b with
  | .local slot => .emit ⟨.getLocal, slot⟩ span
  | .captured index => .emit ⟨.getUpvalue, index⟩ span
  | .global slot => .emit ⟨.getGlobal, slot⟩ span

def Binding.set (b : Binding) (span : Span) : Fragment :=
  match b with
  | .local slot => .emit ⟨.setLocal, slot⟩ span
  | .captured index => .emit ⟨.setUpvalue, index⟩ span
  | .global slot => .emit ⟨.setGlobal, slot⟩ span

/-! ## Messages -/

/-- Adds a message, unless the current statement has one already. -/
def report (cause : Diagnostic.Cause) (span : Span) : Lower Unit :=
  modify fun c =>
    if c.muted || c.fatal.isSome then c
    else { c with messages := c.messages ++ [⟨cause, span⟩], muted := true }

/-- Lets the next statement at the top level have a message. -/
def unmute : Lower Unit := modify fun c => { c with muted := false }

/-- Ends the compilation with a message, unless it has ended before. -/
def abort (cause : Diagnostic.Cause) (span : Span) : Lower Unit :=
  modify fun c => if c.fatal.isSome then c else { c with fatal := some ⟨cause, span⟩ }

/-! ## The function that is being compiled -/

def modifyScope (f : Scope → Scope) : Lower Unit :=
  modify fun c => { c with frame := { c.frame with scope := f c.frame.scope } }

def getScope : Lower Scope := return (← get).frame.scope

def constant (k : Constant) : Lower UInt32 :=
  modifyGet fun c =>
    let (index, constants) := Chunk.intern c.frame.constants k
    (index.toUInt32, { c with frame := { c.frame with constants } })

/-- The index of a name among the constants of the function. -/
def nameConstant (name : String) : Lower UInt32 := constant ⟨.string name⟩

/-- Whether a declaration at this point declares a global. -/
def atTopLevel : Lower Bool :=
  return (← get).enclosing.isEmpty && (← getScope).depth == 0

/-! ## Resolution -/

/-- The index of a capture of a function, which is added if it is new. -/
def Frame.capture (f : Frame) (x : Capture) : Nat × Frame :=
  match f.captures.findIdx? (· = x) with
  | some i => (i, f)
  | none => (f.captures.length, { f with captures := f.captures ++ [x] })

/-- Looks for a name in the functions around a function, and passes it on to the function. -/
def captureFrom (name : String) (f : Frame) : List Frame → Option (Nat × Frame × List Frame)
  | [] => none
  | g :: gs =>
    match g.scope.slot? name with
    | some slot =>
      let (index, f) := f.capture ⟨true, slot.toUInt32⟩
      some (index, f, { g with scope := g.scope.capture slot } :: gs)
    | none =>
      match captureFrom name g gs with
      | some (index, g, gs) =>
        let (index, f) := f.capture ⟨false, index.toUInt32⟩
        some (index, f, g :: gs)
      | none => none

/-- Finds a variable, and reports a name that means none. At the top level a global must have been
declared before. -/
def resolve (id : Ident) : Lower (Option Binding) := do
  let c ← get
  if let some slot := c.frame.scope.slot? id.name then
    return some (.local slot.toUInt32)
  if let some (index, frame, enclosing) := captureFrom id.name c.frame c.enclosing then
    set { c with frame, enclosing }
    return some (.captured index.toUInt32)
  match c.globals.slot? id.name with
  | some slot =>
    if !c.globals.isInitialized slot && (← atTopLevel) then
      report (.uninitialized id.name) id.span
      return none
    return some (.global slot.toUInt32)
  | none =>
    report (.undeclared id.name) id.span
    return none

/-! ## Declarations -/

/-- Declares a global. Its slot exists already if the declaration stands at the top level of the
program. -/
def declareGlobal (id : Ident) : Lower (Option Binding) := do
  let c ← get
  match c.globals.slot? id.name with
  | some slot =>
    if c.globals.isInitialized slot then
      report (.redeclared id.name) id.span
      return none
    set { c with globals := c.globals.markInitialized slot }
    return some (.global slot.toUInt32)
  | none =>
    match c.globals.declare? id.name true with
    | some (slot, globals) =>
      set { c with globals }
      return some (.global slot.toUInt32)
    | none => return none

def addLocal (name : String) : Lower UInt32 :=
  modifyGet fun c =>
    let (slot, scope) := c.frame.scope.declare name
    (slot.toUInt32, { c with frame := { c.frame with scope } })

/-- Declares a local variable, unless its scope has one with that name. -/
def declareLocal (id : Ident) : Lower (Option Binding) := do
  if (← getScope).declares id.name then
    report (.redeclared id.name) id.span
    return none
  return some (.local (← addLocal id.name))

def declare (id : Ident) : Lower (Option Binding) := do
  if ← atTopLevel then declareGlobal id else declareLocal id

/-- Code that gives a declared variable its first value. A variable that could not be declared
drops it. -/
def define (declared : Option Binding) (span : Span) : Fragment :=
  match declared with
  | some (.global _) => .emit ⟨.defGlobal, ()⟩ span
  | some (.local _) => .emit ⟨.defLocal, ()⟩ span
  | some (.captured _) | none => .emit ⟨.pop, ()⟩ span

/-- Declares the parameters of a function. Also one whose name is taken gets a slot, so that every
argument has one. -/
def declareParams : List Ident → Lower Unit
  | [] => return ()
  | id :: ids => do
    if (← getScope).declares id.name then
      report (.redeclared id.name) id.span
    let _ ← addLocal id.name
    declareParams ids

/-- Reports the first name that occurs a second time. -/
def reportRepeated (seen : List String) : List Ident → Lower Unit
  | [] => return ()
  | id :: ids =>
    if seen.contains id.name then report (.redeclared id.name) id.span
    else reportRepeated (id.name :: seen) ids

/-! ## Releasing locals -/

/-- Code that drops a number of locals, none of them captured. -/
def dropLocals (n : Nat) (span : Span) : Fragment :=
  match n with
  | 0 => []
  | 1 => .emit ⟨.popLocal, ()⟩ span
  | n => .emit ⟨.popnLocal, n.toUInt32⟩ span

/-- Code that drops locals, the newest first, after `run` uncaptured ones: captured locals are
closed one by one, and those in between are dropped together. -/
def releaseAfter (run : Nat) (span : Span) : List Local → Fragment
  | [] => dropLocals run span
  | l :: ls =>
    if l.captured then
      dropLocals run span ++ .emit ⟨.closeUpvalue, ()⟩ span ++ releaseAfter 0 span ls
    else releaseAfter (run + 1) span ls

/-- Code that drops the locals that are declared deeper than the given depth. -/
def release (depth : Nat) (span : Span) : Lower Fragment :=
  return releaseAfter 0 span ((← getScope).above depth)

/-- Ends the innermost scope and drops its locals. -/
def leaveScope (span : Span) : Lower Fragment := do
  let code ← release ((← getScope).depth - 1) span
  modifyScope Scope.leave
  return code

/-! ## Functions -/

/-- Compiles the body of a function in a frame of its own, and gives the code that makes a closure
of it. The first local is the function itself or, under the name `self`, the receiver of a method. A
body that does not end with a return gets one. -/
def function (name self : String) (params : List Ident) (span : Span) (body : Lower Fragment) :
    Lower Fragment := do
  let outer ← get
  let scope := ((Scope.mk [] (outer.frame.scope.depth + 1)).declare self).2
  set { outer with frame := { scope }, enclosing := outer.frame :: outer.enclosing }
  declareParams params
  let code ← body
  let code := if code.endsInReturn then code else code ++ .emit ⟨.returnVoid, ()⟩ span
  if let some (offset, span) := code.farJump? 0 then
    abort (.jumpTooFar offset) span
  let inner ← get
  set { inner with frame := inner.enclosing.headD {}, enclosing := inner.enclosing.tail }
  let chunk := code.toChunk (some name) inner.frame.constants
  let index ← constant ⟨.function ⟨params.length.toUInt32, chunk⟩⟩
  return .emit ⟨.pushClosure, (index, inner.frame.captures)⟩ span

end StackScript.Lowering
