import StackScript.Machine.State

/-!
# Calls and properties

The callee of a call lies on the stack below its arguments. A call of a closure moves all of them to
the locals of a new frame, the callee in the first slot; for a method that slot holds the receiver.
A call of a record makes an instance with the arguments as its fields. A call of a host function
takes place at once.
-/

namespace StackScript.Machine

/-- The callee of a call with `argc` arguments. -/
def callee (argc : Nat) : Exec Value := fun m =>
  match m.stack[argc]? with
  | some v => .ok v m
  | none => .error .stackUnderflow m

/-- Refuses a call with the wrong number of arguments. -/
def checkArity (name : String) (expected : UInt32) (argc : Nat) : Exec Unit := do
  if argc.toUInt32 ≠ expected then
    throw (.arityMismatch name expected argc.toUInt32)

/-- Begins the call of a closure with the callee and `argc` arguments on top of the stack. -/
def enter (closure : Value.Code) (argc : Nat) : Exec Unit := do
  checkArity closure.name closure.function.arity argc
  let m ← get
  if m.callers.length + 1 ≥ maxFrames then
    throw .stackOverflow
  let arguments ← popMany (argc + 1)
  modify fun m => { m with
    locals := m.locals ++ arguments.toArray
    frame := {
      closure
      localsBase := m.locals.size
      stackBase := m.stack.length }
    callers := m.frame :: m.callers }

/-- Makes an instance of a record with the `argc` topmost values as its fields. -/
def construct (record : Value.RecordType) (argc : Nat) : Exec Unit := do
  let expected := record.body.fields.length
  if argc ≠ expected then
    throw (.arityMismatch record.body.name expected.toUInt32 argc.toUInt32)
  let fields ← popMany argc
  let _ ← pop
  push (.instanceOf (← inStore (Store.newInstance ⟨fields, record⟩)))

/-- Calls a host function with the `argc` topmost values. -/
def callHost (host : Host) (native : Native) (argc : Nat) : Exec Unit := do
  checkArity native.name native.arity argc
  let arguments ← popMany argc
  let _ ← pop
  let m ← get
  if host.watches native then
    set { m with calls := ⟨native, arguments.map m.store.shown⟩ :: m.calls }
  match host.answer m.calls native m.store arguments with
  | .ok v => push v
  | .error message => throw (.native native.name message)

/-- Calls the value below the `argc` topmost values. -/
def call (host : Host) (argc : Nat) : Exec Unit := do
  match ← callee argc with
  | .closure c => enter c.body argc
  | .function f => enter ⟨f.body, []⟩ argc
  | .bound receiver method =>
    replace argc receiver
    enter method.body argc
  | .record r => construct r argc
  | .native n => callHost host n argc
  | v => throw (.notCallable v.kind)

/-! ## Properties -/

/-- What a property of an instance is. -/
inductive Property where
  | field (v : Value)
  | method (m : Value.Method)

/-- The property of a value with the given name. Only instances have properties, and a field wins
over a method. -/
def property? (store : Store) (receiver : Value) (name : String) : Option Property :=
  match receiver with
  | .instanceOf ref =>
    (store.instance? ref).bind fun i =>
      match i.get? name with
      | some v => some (.field v)
      | none => (i.record.body.method? name).map .method
  | _ => none

/-- How a value without some property is called: by the name of its record or by its kind. -/
def ownerName (store : Store) (receiver : Value) : String :=
  match receiver with
  | .instanceOf ref =>
    ((store.instance? ref).map (·.record.body.name)).getD receiver.kind.name
  | _ => receiver.kind.name

/-- The property of a value with the given name. -/
def property (receiver : Value) (name : String) : Exec Property := do
  let store := (← get).store
  match property? store receiver name with
  | some p => return p
  | none => throw (.noSuchProperty name (ownerName store receiver))

/-- The value of a property. A method is bound to the receiver. -/
def getProperty (receiver : Value) (name : String) : Exec Value := do
  match ← property receiver name with
  | .field v => return v
  | .method m => return .bound receiver m

def setProperty (receiver : Value) (name : String) (v : Value) : Exec Unit := do
  let store := (← get).store
  let changed := match receiver with
    | .instanceOf ref =>
      (store.instance? ref).bind fun i => (i.set? name v).map fun i => store.setInstance ref i
    | _ => none
  match changed with
  | some store => modify fun m => { m with store }
  | none => throw (.noSuchProperty name (ownerName store receiver))

/-- Calls a property of the value below the `argc` topmost values. -/
def callProperty (host : Host) (name : String) (argc : Nat) : Exec Unit := do
  let receiver ← callee argc
  match ← property receiver name with
  | .field v =>
    replace argc v
    call host argc
  | .method m => enter m.body argc

/-! ## Methods -/

def asMethods : List Value → Exec (List Value.Method)
  | [] => return []
  | .closure c :: vs => do
    let cs ← asMethods vs
    return c :: cs
  | v :: _ => throw (.unexpectedType Opcode.appendMethods.mnemonic "closure" v.kind)

/-- Replaces the record below the `n` topmost values by a new one that has them as further
methods. -/
def appendMethods (n : Nat) : Exec Unit := do
  let methods ← asMethods (← popMany n)
  match ← pop with
  | .record r =>
    let extended := { r.body with methods := r.body.methods ++ methods }
    push (.record (← inStore (Store.newObject extended)))
  | v => throw (.unexpectedType Opcode.appendMethods.mnemonic "record" v.kind)

end StackScript.Machine
