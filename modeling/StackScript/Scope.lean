/-!
# Scopes and globals

While a function is compiled, its scope is the list of the local variables that exist at the current
point, the newest first. The slot of a local is the number of locals below it, so that it never
changes while the local exists. A scope within a scope has a greater depth, and ending it removes
the locals that were declared at that depth.

Global variables are numbered in the order of their declaration and are never removed.
-/

namespace StackScript

/-- A local variable during compilation. -/
structure Local where
  name : String
  /-- The depth of the scope that declares it. -/
  depth : Nat
  captured : Bool := false
  deriving DecidableEq, Repr

/-- The local variables of a function at some point of its body. -/
structure Scope where
  /-- The variables, the newest first. -/
  locals : List Local := []
  depth : Nat := 0
  deriving DecidableEq, Repr

namespace Scope

def enter (s : Scope) : Scope := { s with depth := s.depth + 1 }

/-- The locals of the innermost scope, the newest first. -/
def innermost (s : Scope) : List Local := s.locals.takeWhile (s.depth ≤ ·.depth)

def leave (s : Scope) : Scope :=
  { locals := s.locals.dropWhile (s.depth ≤ ·.depth), depth := s.depth - 1 }

/-- The locals that are declared deeper than the given depth, the newest first. -/
def above (s : Scope) (depth : Nat) : List Local := s.locals.takeWhile (depth < ·.depth)

/-- Whether the innermost scope declares a name. -/
def declares (s : Scope) (name : String) : Bool := s.innermost.any (·.name = name)

def declare (s : Scope) (name : String) : Nat × Scope :=
  (s.locals.length, { s with locals := ⟨name, s.depth, false⟩ :: s.locals })

/-- The slot of the newest local with the given name in a list of locals. -/
def slotIn? (name : String) : List Local → Option Nat
  | [] => none
  | l :: ls => if l.name = name then some ls.length else slotIn? name ls

/-- The slot of the newest local with the given name. -/
def slot? (s : Scope) (name : String) : Option Nat := slotIn? name s.locals

/-- Marks the local in a slot of a list of locals as captured. -/
def captureIn (slot : Nat) : List Local → List Local
  | [] => []
  | l :: ls =>
    if ls.length = slot then { l with captured := true } :: ls else l :: captureIn slot ls

def capture (s : Scope) (slot : Nat) : Scope := { s with locals := captureIn slot s.locals }

end Scope

/-- A global variable during compilation. -/
structure Global where
  name : String
  /-- Whether its declaration has been compiled. -/
  initialized : Bool
  deriving DecidableEq, Repr

/-- The global variables, in the order of their slots. -/
structure Globals where
  entries : List Global := []
  deriving DecidableEq, Repr

namespace Globals

def slot? (g : Globals) (name : String) : Option Nat := g.entries.findIdx? (·.name = name)

def get? (g : Globals) (slot : Nat) : Option Global := g.entries[slot]?

/-- Adds a global and gives its slot, unless the name is taken. -/
def declare? (g : Globals) (name : String) (initialized : Bool) : Option (Nat × Globals) :=
  match g.slot? name with
  | some _ => none
  | none => some (g.entries.length, ⟨g.entries ++ [⟨name, initialized⟩]⟩)

def declare (g : Globals) (name : String) (initialized : Bool) : Globals :=
  ((g.declare? name initialized).map (·.2)).getD g

def markInitialized (g : Globals) (slot : Nat) : Globals :=
  ⟨g.entries.modify slot fun x => { x with initialized := true }⟩

/-- Whether the global in a slot is initialized. -/
def isInitialized (g : Globals) (slot : Nat) : Bool := (g.get? slot).any (·.initialized)

/-- The globals that exist before a program is looked at: one for each distinct name of a host
function. -/
def ofNatives (names : List String) : Globals :=
  names.foldl (fun g name => g.declare name true) {}

end Globals

end StackScript
