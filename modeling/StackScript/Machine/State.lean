import StackScript.Machine.Fault
import StackScript.Store

/-!
# The state of a running program

The machine computes on a stack of values. Variables are not on that stack: the locals of all active
calls are kept apart, those of a call from its base on, and so are the globals. A captured variable
stays among the locals as long as it exists there; until then its cell is open. When locals are
dropped, the cells of the captured ones are closed: they take over the value.

All instructions act through the operations of this module. An operation that fails leaves the
machine as it is at that moment.
-/

namespace StackScript

/-- An active call. -/
structure Frame where
  closure : Value.Code
  /-- The offset of the next instruction. -/
  ip : Nat := 0
  /-- The position of its first local among all locals. -/
  localsBase : Nat := 0
  /-- The height of the stack below the callee. -/
  stackBase : Nat := 0

/-- A call of a host function, as an observer sees it. -/
structure HostCall where
  native : Native
  /-- The arguments, as they were shown at the time of the call. -/
  arguments : List Shown
  deriving DecidableEq

/-- The state of a running program. -/
structure Machine where
  store : Store
  /-- The values, the top of the stack first. -/
  stack : List Value := []
  locals : Array Value := #[]
  globals : Array Value := #[]
  frame : Frame
  /-- The calls around it, from the inside to the outside. -/
  callers : List Frame := []
  /-- The open cells, the oldest first. -/
  openCells : List CellRef := []
  /-- The calls of the host functions that are watched, the newest first. -/
  calls : List HostCall := []

/-- The world outside a program, as the machine meets it. -/
structure Host where
  /-- What a host function answers, after the calls that have been recorded so far: a value, or the
  message of a failure. -/
  answer : List HostCall → Native → Store → List Value → Except String Value
  /-- Whether the calls of a host function are recorded. -/
  watches : Native → Bool

abbrev Exec := EStateM Fault Machine

namespace Machine

/-- The number of calls that may be active at once. -/
def maxFrames : Nat := 1024

/-- The machine before the first instruction of a program. The host functions are its first
globals. -/
def start (store : Store) (natives : List Native) (chunk : Chunk Value) : Machine where
  store := store
  globals := (natives.map Value.native).toArray
  frame := { closure := ⟨⟨0, chunk⟩, []⟩ }

/-! ## The stack -/

def push (v : Value) : Exec Unit := modify fun m => { m with stack := v :: m.stack }

def pop : Exec Value := fun m =>
  match m.stack with
  | v :: stack => .ok v { m with stack }
  | [] => .error .stackUnderflow m

def peek : Exec Value := fun m =>
  match m.stack with
  | v :: _ => .ok v m
  | [] => .error .stackUnderflow m

/-- Replaces the value `depth` places below the top. -/
def replace (depth : Nat) (v : Value) : Exec Unit :=
  modify fun m => { m with stack := m.stack.set depth v }

/-- Removes the `n` topmost values and gives them, the lowest first. -/
def popMany (n : Nat) : Exec (List Value) := fun m =>
  if n ≤ m.stack.length then
    .ok (m.stack.take n).reverse { m with stack := m.stack.drop n }
  else .error .stackUnderflow m

/-! ## Code -/

def jumpTo (ip : Nat) : Exec Unit := modify fun m => { m with frame := { m.frame with ip } }

def constant (index : UInt32) : Exec Value := fun m =>
  match m.frame.closure.function.chunk.constants[index.toNat]? with
  | some v => .ok v m
  | none => .error (.invalidConstant index) m

/-- The name with an index among the constants. -/
def nameConstant (index : UInt32) : Exec String := do
  match ← constant index with
  | .string name => return name
  | _ => throw (.invalidConstant index)

/-! ## Variables -/

/-- The position of a local of the innermost call among all locals. -/
def localSlot (slot : UInt32) : Exec Nat := fun m => .ok (m.frame.localsBase + slot.toNat) m

def getLocal (slot : Nat) : Exec Value := fun m =>
  match m.locals[slot]? with
  | some v => .ok v m
  | none => .error (.invalidLocal slot) m

def setLocal (slot : Nat) (v : Value) : Exec Unit := fun m =>
  if slot < m.locals.size then .ok () { m with locals := m.locals.setIfInBounds slot v }
  else .error (.invalidLocal slot) m

def addLocal (v : Value) : Exec Unit := modify fun m => { m with locals := m.locals.push v }

def getGlobal (slot : UInt32) : Exec Value := fun m =>
  match m.globals[slot.toNat]? with
  | some v => .ok v m
  | none => .error (.undefinedGlobal slot) m

def setGlobal (slot : UInt32) (v : Value) : Exec Unit := fun m =>
  if slot.toNat < m.globals.size then
    .ok () { m with globals := m.globals.setIfInBounds slot.toNat v }
  else .error (.undefinedGlobal slot) m

def addGlobal (v : Value) : Exec Unit := modify fun m => { m with globals := m.globals.push v }

/-! ## Captured variables -/

def inStore {α : Type} (f : StateM Store α) : Exec α := fun m =>
  let (a, store) := f.run m.store
  .ok a { m with store }

/-- The cell of the innermost closure with an index. -/
def capturedCell (index : UInt32) : Exec CellRef := fun m =>
  match m.frame.closure.captures[index.toNat]? with
  | some ref => .ok ref m
  | none => .error (.invalidUpvalue index) m

/-- The cell for the local at a position: the open one, or else a new one, which remembers its
position among the captures of its first closure. -/
def openCell (slot position : Nat) : Exec CellRef := do
  let m ← get
  match m.openCells.find? fun ref => (m.store.cell ref).slot.toNat = slot with
  | some ref => return ref
  | none =>
    let ref ← inStore (Store.newCell ⟨slot.toUInt32, position.toUInt32, none⟩)
    modify fun m => { m with openCells := m.openCells ++ [ref] }
    return ref

def readCell (ref : CellRef) : Exec Value := do
  let cell := (← get).store.cell ref
  match cell.closed with
  | some v => return v
  | none => getLocal cell.slot.toNat

def writeCell (ref : CellRef) (v : Value) : Exec Unit := do
  let cell := (← get).store.cell ref
  match cell.closed with
  | some _ =>
    modify fun m => { m with store := m.store.setCell ref { cell with closed := some v } }
  | none => setLocal cell.slot.toNat v

/-- The store with a cell closed over its variable. -/
def closeCell (locals : Array Value) (store : Store) (ref : CellRef) : Store :=
  let cell := store.cell ref
  store.setCell ref { cell with closed := some (locals[cell.slot.toNat]?.getD .nil) }

/-- Drops the locals from a position on, and closes their cells. -/
def truncateLocals (size : Nat) : Exec Unit :=
  modify fun m =>
    let (stay, close) := m.openCells.partition fun ref => (m.store.cell ref).slot.toNat < size
    { m with
      store := close.foldl (closeCell m.locals) m.store
      openCells := stay
      locals := m.locals.shrink size }

def dropLocals (n : Nat) : Exec Unit := do
  let size := (← get).locals.size
  if n ≤ size then truncateLocals (size - n) else throw .stackUnderflow

end Machine

end StackScript
