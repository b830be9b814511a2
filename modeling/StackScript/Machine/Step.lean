import StackScript.Instruction
import StackScript.Machine.Call

/-!
# Steps

A step of the machine fetches the instruction at the current offset of the innermost call and
executes it. A run is a sequence of steps up to the first that ends the program or fails.
-/

namespace StackScript.Machine

/-! ## Fetching -/

/-- The operand word with an index, of the instruction at an offset. -/
def operandAt? (code : Code) (ip index : Nat) : Option UInt32 :=
  code.wordAt? (ip + 1 + index * wordWidth)

/-- The capture with an index, of the instruction at an offset. -/
def captureAt? (code : Code) (ip index : Nat) : Option Capture := do
  let place := ip + 1 + 2 * wordWidth + index * captureWidth
  let fromLocal ← code[place]?
  let slot ← code.wordAt? (place + 1)
  return ⟨fromLocal != 0, slot⟩

/-- The operands of the instruction at an offset. Each is looked up at the place that its index
gives. -/
def operandsAt? (code : Code) (ip : Nat) : (f : Format) → Option f.Args
  | .plain => some ()
  | .constant | .slot | .count | .jump => operandAt? code ip 0
  | .invoke => do return (← operandAt? code ip 0, ← operandAt? code ip 1)
  | .closure => do
    let index ← operandAt? code ip 0
    let count ← operandAt? code ip 1
    return (index, ← (List.range count.toNat).mapM (captureAt? code ip))

/-- The instruction at an offset and the offset behind it. Whether the code goes far enough is known
from the width of the operands and the number of captures, before any operand is looked at. -/
def fetch (chunk : Chunk Value) (ip : Nat) : Except Fault (Instruction × Nat) :=
  match chunk.code[ip]? with
  | none => .error (.unexpectedEnd chunk.title)
  | some byte =>
    match Opcode.ofByte? byte with
    | none => .error (.invalidOpcode byte ip)
    | some op =>
      let captures := if op = .pushClosure then operandAt? chunk.code ip 1 else some 0
      match captures with
      | none => .error (.truncated ip)
      | some captures =>
        let next := ip + 1 + op.width + captures.toNat * captureWidth
        if next > chunk.code.size then .error (.truncated ip)
        else
          match operandsAt? chunk.code ip op.format with
          | none => .error (.truncated ip)
          | some args => .ok (⟨op, args⟩, next)

/-! ## Executing -/

/-- Whether a run goes on. -/
inductive Status where
  | running
  | finished
  deriving DecidableEq, Repr

def expectBool (op : Opcode) (v : Value) : Exec Bool :=
  match v with
  | .bool b => return b
  | v => throw (.unexpectedType op.mnemonic "bool" v.kind)

def expectRange (op : Opcode) (expected : String) (v : Value) : Exec Range :=
  match v with
  | .range r => return r
  | v => throw (.unexpectedType op.mnemonic expected v.kind)

/-- An arithmetic operator applied to two values. Two integers give an integer, and a floating-point
number turns the other one into one; strings can be added to each other and to characters. -/
def arithmetic (op : Arithmetic) (a b : Value) : Except Fault Value :=
  match op, a, b with
  | op, .int x, .int y => (Integer.apply op x y).map Value.int |>.mapError Fault.ofInteger
  | .add, .string x, .string y => .ok (.string (x ++ y))
  | .add, .string x, .char y => .ok (.string (x.push y))
  | op, a, b =>
    match a.toDouble?, b.toDouble? with
    | some x, some y => .ok (.float (Double.apply op x y))
    | _, _ => .error (.typeMismatch op.symbol a.kind b.kind)

def negated (v : Value) : Except Fault Value :=
  match v with
  | .int n => (Integer.negate n).map Value.int |>.mapError Fault.ofInteger
  | .float x => .ok (.float x.negate)
  | v => .error (.unexpectedType Arithmetic.sub.symbol "number" v.kind)

/-- Replaces the two topmost values by the result of an operation. -/
def binary (f : Value → Value → Except Fault Value) : Exec Unit := do
  let b ← pop
  let a ← pop
  match f a b with
  | .ok v => push v
  | .error e => throw e

/-- Replaces the top of the stack by the result of an operation. -/
def unary (f : Value → Except Fault Value) : Exec Unit := do
  let a ← pop
  match f a with
  | .ok v => push v
  | .error e => throw e

/-- The comparison of two values that have an order. Where one of two numbers is not a number, every
comparison is false. -/
def compared (op : Opcode) (accept : Ordering → Bool) (a b : Value) : Except Fault Value :=
  if a.comparable b then .ok (.bool ((a.compare? b).any accept))
  else .error (.typeMismatch op.mnemonic a.kind b.kind)

def ranged (op : Opcode) (inclusive : Bool) (a b : Value) : Except Fault Value :=
  match a, b with
  | .int first, .int last => .ok (.range (.between first last inclusive))
  | a, b => .error (.typeMismatch op.mnemonic a.kind b.kind)

/-- Replaces two booleans by the result of an operation on them. Both are taken from the stack
before either is looked at. -/
def connective (op : Opcode) (f : Bool → Bool → Bool) : Exec Unit := do
  let b ← pop
  let a ← pop
  let a ← expectBool op a
  let b ← expectBool op b
  push (.bool (f a b))

/-- The cells for the captures of a new closure, from the given position on. -/
def captureCells (position : Nat) : List Capture → Exec (List CellRef)
  | [] => return []
  | c :: cs => do
    let ref ← if c.fromLocal then openCell (← localSlot c.index) position else capturedCell c.index
    let refs ← captureCells (position + 1) cs
    return ref :: refs

def makeClosure (index : UInt32) (captures : List Capture) : Exec Unit := do
  match ← constant index with
  | .function f =>
    let cells ← captureCells 0 captures
    push (.closure (← inStore (Store.newObject ⟨f.body, cells⟩)))
  | _ => throw (.invalidConstant index)

/-- Jumps if the top of the stack is the given boolean. -/
def jumpIf (op : Opcode) (wanted : Bool) (target : Nat) : Exec Unit := do
  let b ← expectBool op (← peek)
  if b = wanted then
    jumpTo target

/-- Ends the innermost call with a result. The locals of the call and what it left on the stack are
dropped. -/
def leave (result : Value) : Exec Status := do
  let m ← get
  truncateLocals m.frame.localsBase
  modify fun m => { m with stack := m.stack.drop (m.stack.length - m.frame.stackBase) }
  match m.callers with
  | [] => return .finished
  | frame :: callers =>
    modify fun m => { m with frame, callers }
    push result
    return .running

/-- Executes an instruction that stands at offset `ip` and is followed by the one at `next`. -/
def execute (host : Host) (ip next : Nat) : (op : Opcode) → op.format.Args → Exec Status
  | .pushConst, index => do
    push (← constant index)
    return .running
  | .pushClosure, (index, captures) => do
    makeClosure index captures
    return .running
  | .pushTrue, () => do
    push (.bool true)
    return .running
  | .pushFalse, () => do
    push (.bool false)
    return .running
  | .pushNil, () => do
    push .nil
    return .running
  | .pushVoid, () => do
    push .void
    return .running
  | .pop, () => do
    let _ ← pop
    return .running
  | .defLocal, () => do
    addLocal (← pop)
    return .running
  | .getLocal, slot => do
    push (← getLocal (← localSlot slot))
    return .running
  | .setLocal, slot => do
    let v ← peek
    setLocal (← localSlot slot) v
    return .running
  | .popLocal, () => do
    dropLocals 1
    return .running
  | .popnLocal, n => do
    dropLocals n.toNat
    return .running
  | .getUpvalue, index => do
    push (← readCell (← capturedCell index))
    return .running
  | .setUpvalue, index => do
    let ref ← capturedCell index
    writeCell ref (← peek)
    return .running
  | .closeUpvalue, () => do
    dropLocals 1
    return .running
  | .defGlobal, () => do
    addGlobal (← pop)
    return .running
  | .getGlobal, slot => do
    push (← getGlobal slot)
    return .running
  | .setGlobal, slot => do
    setGlobal slot (← peek)
    return .running
  | .getProperty, index => do
    let name ← nameConstant index
    let receiver ← pop
    push (← getProperty receiver name)
    return .running
  | .setProperty, index => do
    let name ← nameConstant index
    let v ← pop
    let receiver ← pop
    setProperty receiver name v
    push v
    return .running
  | .call, argc => do
    call host argc.toNat
    return .running
  | .callProperty, (index, argc) => do
    let name ← nameConstant index
    callProperty host name argc.toNat
    return .running
  | .appendMethods, n => do
    appendMethods n.toNat
    return .running
  | .jump, distance => do
    jumpTo (next + distance.toNat)
    return .running
  | .jumpTrue, distance => do
    jumpIf .jumpTrue true (next + distance.toNat)
    return .running
  | .jumpFalse, distance => do
    jumpIf .jumpFalse false (next + distance.toNat)
    return .running
  | .jumpHasNoNext, distance => do
    let r ← expectRange .jumpHasNoNext "iterator" (← peek)
    if !r.hasNext then
      jumpTo (next + distance.toNat)
    return .running
  | .loop, distance => do
    if distance.toNat ≤ next then jumpTo (next - distance.toNat) else throw (.invalidJump ip)
    return .running
  | .add, () => do
    binary (arithmetic .add)
    return .running
  | .sub, () => do
    binary (arithmetic .sub)
    return .running
  | .mul, () => do
    binary (arithmetic .mul)
    return .running
  | .div, () => do
    binary (arithmetic .div)
    return .running
  | .mod, () => do
    binary (arithmetic .mod)
    return .running
  | .neg, () => do
    unary negated
    return .running
  | .eq, () => do
    binary fun a b => .ok (.bool (a.equals b))
    return .running
  | .ne, () => do
    binary fun a b => .ok (.bool (!a.equals b))
    return .running
  | .lt, () => do
    binary (compared .lt (· == .lt))
    return .running
  | .le, () => do
    binary (compared .le (· != .gt))
    return .running
  | .gt, () => do
    binary (compared .gt (· == .gt))
    return .running
  | .ge, () => do
    binary (compared .ge (· != .lt))
    return .running
  | .not, () => do
    let b ← expectBool .not (← pop)
    push (.bool !b)
    return .running
  | .and, () => do
    connective .and (· && ·)
    return .running
  | .or, () => do
    connective .or (· || ·)
    return .running
  | .assertBool, () => do
    let _ ← expectBool .assertBool (← peek)
    return .running
  | .makeRange, () => do
    binary (ranged .makeRange false)
    return .running
  | .makeInclRange, () => do
    binary (ranged .makeInclRange true)
    return .running
  | .makeIterator, () => do
    let _ ← expectRange .makeIterator "range" (← peek)
    return .running
  | .getNext, () => do
    let r ← expectRange .getNext "iterator" (← peek)
    push (.int r.next)
    return .running
  | .advance, () => do
    let r ← expectRange .advance "iterator" (← peek)
    replace 0 (.range r.advance)
    return .running
  | .return, () => do
    let result ← pop
    leave result
  | .returnVoid, () => leave .void
  | .exitSuccess, () => return .finished

def step (host : Host) : Exec Status := do
  let m ← get
  match fetch m.frame.closure.function.chunk m.frame.ip with
  | .error e => throw e
  | .ok (i, next) =>
    jumpTo next
    execute host m.frame.ip next i.op i.args

/-! ## Running -/

/-- How a run ends. -/
inductive Outcome where
  | finished
  | failed (fault : Fault)
  | unfinished
  deriving DecidableEq, Repr

/-- Runs the machine for at most the given number of steps. -/
def run (host : Host) : (steps : Nat) → Machine → Outcome × Machine
  | 0, m => (.unfinished, m)
  | steps + 1, m =>
    match step host m with
    | .ok .running m => run host steps m
    | .ok .finished m => (.finished, m)
    | .error e m => (.failed e, m)

end StackScript.Machine
