import StackScript.Constant
import StackScript.Value

/-!
# The store

The store holds what a running program can change: the captured variables and the instances. It also
hands out the keys by which objects are told apart.

`Store.node` shows a live value one layer at a time, with the current contents of its variables and
fields. Through it, text, snapshot and image are defined on live values. A chain of layers need not
end, since an instance may hold itself, so each of these takes a bound on the depth. Whether two
live values have the same contents (`Store.same`) is not a matter of their layers alone: the
comparison locks captured variables on its way, and may come to wait for itself.

In the other direction `Constant.load` brings a tree to life: every function, closure, record,
variable and instance in it becomes a new object.
-/

namespace StackScript

/-- An instance of a record type. -/
structure Instance where
  fields : List Value
  record : Value.RecordType

namespace Instance

/-- The value of the field with the given name. -/
def get? (i : Instance) (name : String) : Option Value := do
  let slot ← i.record.body.slot? name
  i.fields[slot]?

/-- The instance with another value in a field, if it has that field. -/
def set? (i : Instance) (name : String) (v : Value) : Option Instance := do
  let slot ← i.record.body.slot? name
  if slot < i.fields.length then return { i with fields := i.fields.set slot v } else none

end Instance

/-- Everything that can change while a program runs, and the next unused key. -/
structure Store where
  cells : Array (Cell Value) := #[]
  instances : Array Instance := #[]
  /-- The next key to be given to an object. -/
  fresh : Nat := 0

/-- A value as it is shown: its kind and its text. -/
structure Shown where
  kind : Kind
  text : String
  deriving DecidableEq, Repr

namespace Store

/-! ## Looking -/

def cell (s : Store) (ref : CellRef) : Cell Value := s.cells.getD ref.index ⟨0, 0, none⟩

def instance? (s : Store) (ref : InstanceRef) : Option Instance := s.instances[ref.index]?

/-- A closure with the current state of its variables. -/
def closureNode (s : Store) (c : Value.Code) : Closure Value (Cell Value) :=
  ⟨c.function, c.captures.map s.cell⟩

/-- A record with the current state of its methods' variables. -/
def recordNode (s : Store) (r : Record Value.Method) : Record (Closure Value (Cell Value)) :=
  r.map fun m => s.closureNode m.body

def node (s : Store) : Value → Node Value
  | .int n => .int n
  | .float x => .float x
  | .string t => .string t
  | .char c => .char c
  | .bool b => .bool b
  | .nil => .nil
  | .void => .void
  | .function f => .function f.body
  | .closure c => .closure (s.closureNode c.body)
  | .native n => .native n
  | .range r => .range r
  | .record r => .record (s.recordNode r.body)
  | .instanceOf ref =>
    match s.instance? ref with
    | some i => .instanceOf i.fields (s.recordNode i.record.body)
    | none => .nil
  | .bound receiver method => .bound receiver (s.closureNode method.body)

/-- The text of a value, down to the given depth of instances. -/
def text (s : Store) : (depth : Nat) → Value → String
  | 0, _ => ""
  | depth + 1, v =>
    let n := s.node v
    n.text (n.fields.map (s.text depth))

/-- Whether a value is an instance with instances nested more than `depth` levels below it. -/
def isDeep (s : Store) : (depth : Nat) → Value → Bool
  | 0, v => v.kind = .instanceOf
  | depth + 1, v => (s.node v).fields.any (s.isDeep depth)

/-- The whole text of a value. Instances that do not lead back to themselves nest at most as deeply
as there are instances; those that do have no text that ends. -/
def fullText (s : Store) (v : Value) : String :=
  if s.isDeep (s.instances.size + 1) v then "" else s.text (s.instances.size + 2) v

/-- The depth of nested instances down to which a value is shown. -/
def showDepth : Nat := 64

/-- A value as it is shown. Instances that nest too deeply, among them all that lead back to
themselves, are not spelled out. -/
def shown (s : Store) (v : Value) : Shown :=
  ⟨v.kind, if s.isDeep showDepth v then "<deep>" else s.text (showDepth + 1) v⟩

/-- A value as a tree, down to the given depth. It is the whole value if its layers end there. -/
def snapshot (s : Store) : (depth : Nat) → Value → Constant
  | 0, _ => ⟨.nil⟩
  | depth + 1, v => ⟨(s.node v).map (s.snapshot depth)⟩

/-- Something that has to agree if two values have the same contents. -/
inductive Check where
  /-- Known at once. -/
  | settled (agrees : Bool)
  /-- Two values inside. -/
  | values (v w : Value)
  /-- Two captured variables. -/
  | cells (a b : CellRef)

/-- What has to agree if two functions do, in the order in which it is looked at. -/
def functionChecks (f g : Function Value) : List Check :=
  .settled (f.arity == g.arity && f.chunk.name == g.chunk.name && f.chunk.code == g.chunk.code &&
      f.chunk.constants.length == g.chunk.constants.length) ::
    ((f.chunk.constants.zip g.chunk.constants).map fun p => .values p.1 p.2) ++
      [.settled (f.chunk.marks == g.chunk.marks)]

/-- What has to agree if two closures do: the functions, then the captured variables. -/
def closureChecks (c d : Value.Code) : List Check :=
  functionChecks c.function d.function ++ .settled (c.captures.length == d.captures.length) ::
    (c.captures.zip d.captures).map fun p => .cells p.1 p.2

/-- What has to agree if two record types do: names and fields, then the methods. -/
def recordChecks (r q : Record Value.Method) : List Check :=
  .settled (r.name == q.name && r.fields == q.fields && r.methods.length == q.methods.length) ::
    (r.methods.zip q.methods).flatMap fun p => closureChecks p.1.body p.2.body

/-- What has to agree if two values do that are not identical. -/
def checks (s : Store) : Value → Value → List Check
  | .function f, .function g => functionChecks f.body g.body
  | .closure c, .closure d => closureChecks c.body d.body
  | .record r, .record q => recordChecks r.body q.body
  | .instanceOf a, .instanceOf b =>
    match s.instance? a, s.instance? b with
    | some i, some j => recordChecks i.record.body j.record.body ++
        .settled (i.fields.length == j.fields.length) ::
          (i.fields.zip j.fields).map fun p => .values p.1 p.2
    | _, _ => [.settled false]
  | .bound a m, .bound b n => .values a b :: closureChecks m.body n.body
  | _, _ => [.settled false]

/-- The answer to a check, with the given comparison of values and the captured variables that are
locked. Variables that are the same one are not opened. Others are locked on both sides as long as their
contents are compared; one that is locked already is waited for without end, and there is no answer. -/
def Check.answer (s : Store) (compare : List CellRef → Value → Value → Option Bool)
    (locked : List CellRef) : Check → Option Bool
  | .settled agrees => some agrees
  | .values v w => compare locked v w
  | .cells a b =>
    if a = b then some true
    else if a ∈ locked ∨ b ∈ locked then none
    else if (s.cell a).slot = (s.cell b).slot ∧ (s.cell a).position = (s.cell b).position then
      match (s.cell a).closed, (s.cell b).closed with
      | none, none => some true
      | some v, some w => compare (a :: b :: locked) v w
      | _, _ => some false
    else some false

/-- Whether two values have the same contents, down to the given depth, if the comparison comes to an
end. Values that are identical are not opened. -/
def same (s : Store) : (depth : Nat) → (locked : List CellRef) → Value → Value → Option Bool
  | 0, _, _, _ => some true
  | depth + 1, locked, v, w =>
    if v.identical w then some true else (s.checks v w).allM (Check.answer s (s.same depth) locked)

/-! ## Changing -/

def newObject {β : Type} (body : β) : StateM Store (Object β) := fun s =>
  (⟨s.fresh, body⟩, { s with fresh := s.fresh + 1 })

def newCell (c : Cell Value) : StateM Store CellRef := fun s =>
  (⟨s.cells.size⟩, { s with cells := s.cells.push c })

def newInstance (i : Instance) : StateM Store InstanceRef := fun s =>
  (⟨s.instances.size⟩, { s with instances := s.instances.push i })

def newNative (name : String) (arity : UInt32) : StateM Store Native := fun s =>
  (⟨s.fresh, name, arity⟩, { s with fresh := s.fresh + 1 })

def setCell (s : Store) (ref : CellRef) (c : Cell Value) : Store :=
  { s with cells := s.cells.setIfInBounds ref.index c }

def setInstance (s : Store) (ref : InstanceRef) (i : Instance) : Store :=
  { s with instances := s.instances.setIfInBounds ref.index i }

end Store

/-! ## Bringing trees to life -/

mutual

/-- A live value with the contents of a constant; every object in it is new. -/
def Constant.load : Constant → StateM Store Value
  | ⟨.int n⟩ => pure (.int n)
  | ⟨.float x⟩ => pure (.float x)
  | ⟨.string s⟩ => pure (.string s)
  | ⟨.char c⟩ => pure (.char c)
  | ⟨.bool b⟩ => pure (.bool b)
  | ⟨.nil⟩ => pure .nil
  | ⟨.void⟩ => pure .void
  | ⟨.function f⟩ => do return .function (← Store.newObject (← loadFunction f))
  | ⟨.closure c⟩ => do return .closure (← Store.newObject (← loadClosure c))
  | ⟨.native n⟩ => pure (.native n)
  | ⟨.range r⟩ => pure (.range r)
  | ⟨.record r⟩ => do return .record (← Store.newObject (← loadRecord r))
  | ⟨.instanceOf fields r⟩ => do
    let fields ← loadAll fields
    let record ← Store.newObject (← loadRecord r)
    return .instanceOf (← Store.newInstance ⟨fields, record⟩)
  | ⟨.bound receiver method⟩ => do
    let receiver ← receiver.load
    return .bound receiver (← Store.newObject (← loadClosure method))

/-- The constants of a list, brought to life in order. -/
def loadAll : List Constant → StateM Store (List Value)
  | [] => pure []
  | c :: cs => do return (← c.load) :: (← loadAll cs)

/-- The value of a closed cell, brought to life. -/
def loadClosed : Option Constant → StateM Store (Option Value)
  | none => pure none
  | some c => do return some (← c.load)

/-- A function with its constants brought to life. -/
def loadFunction : Function Constant → StateM Store (Function Value)
  | ⟨arity, ⟨name, code, constants, marks⟩⟩ => do
    return ⟨arity, ⟨name, code, ← loadAll constants, marks⟩⟩

def loadCells : List (Cell Constant) → StateM Store (List CellRef)
  | [] => pure []
  | ⟨slot, position, closed⟩ :: cells => do
    let ref ← Store.newCell ⟨slot, position, ← loadClosed closed⟩
    return ref :: (← loadCells cells)

def loadClosure : Closure Constant (Cell Constant) → StateM Store Value.Code
  | ⟨function, captures⟩ => do return ⟨← loadFunction function, ← loadCells captures⟩

/-- The methods of a record, each a new object. -/
def loadMethods : List (Closure Constant (Cell Constant)) → StateM Store (List Value.Method)
  | [] => pure []
  | c :: cs => do
    let method ← Store.newObject (← loadClosure c)
    return method :: (← loadMethods cs)

def loadRecord : Record (Closure Constant (Cell Constant)) → StateM Store (Record Value.Method)
  | ⟨name, fields, methods⟩ => do return ⟨name, fields, ← loadMethods methods⟩

end

/-- A chunk with its constants brought to life. -/
def Chunk.load (c : Chunk Constant) : StateM Store (Chunk Value) := do
  return { c with constants := ← loadAll c.constants }

end StackScript
