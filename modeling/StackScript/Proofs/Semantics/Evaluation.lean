import StackScript.Compile
import StackScript.Machine.Step

/-!
# The meaning of programs

Programs are evaluated by recursion on their syntax, without code, stack or slots. A variable is a
name that leads to a place, and a place holds a value; a function keeps the variables that were in
sight where it was written, so several functions can share a place. A statement ends normally or
leaves the body of a loop or the function, and what goes wrong stops everything.

Records and members are left out: they have no meaning here. Calls nest at most as deeply as the
machine allows, so only loops can go on for ever, and each gets a bound on its rounds.
-/

namespace StackScript

/-! ## The programs with a meaning -/

def Stmt.isDeclaration (s : Stmt) : Bool := s.declared?.isSome

mutual

/-- Whether an expression has neither members nor records inside. -/
def Expr.isPlain : Expr → Bool
  | .literal .. | .name .. => true
  | .binary _ left right _ | .logical _ left right _ | .assign left right _
  | .range left right _ _ => left.isPlain && right.isPlain
  | .unary _ operand _ => operand.isPlain
  | .call callee arguments _ => callee.isPlain && Expr.arePlain arguments
  | .member .. => false
  | .arrow _ body _ => body.isPlain
  | .lambda _ body _ => Stmt.arePlain body

def Expr.arePlain : List Expr → Bool
  | [] => true
  | e :: es => e.isPlain && Expr.arePlain es

/-- Whether a statement has neither members nor records inside, and no declaration alone as a branch
or as the body of a loop without a variable. -/
def Stmt.isPlain : Stmt → Bool
  | .variable _ init _ => init.isPlain
  | .function _ _ body _ => Stmt.arePlain body
  | .record .. => false
  | .expression e _ => e.isPlain
  | .block body _ => Stmt.arePlain body
  | .cond test consequent alternate _ =>
    test.isPlain && (consequent.isPlain && !consequent.isDeclaration) && Stmt.isPlainBranch alternate
  | .while test body _ => test.isPlain && (body.isPlain && !body.isDeclaration)
  | .loop body _ => body.isPlain && !body.isDeclaration
  | .forIn _ iterable body _ => iterable.isPlain && body.isPlain
  | .for _ init test update body _ =>
    init.isPlain && Expr.isPlainOption test && Expr.isPlainOption update && body.isPlain
  | .return value _ => Expr.isPlainOption value
  | .exit .. => true

def Stmt.arePlain : List Stmt → Bool
  | [] => true
  | s :: ss => s.isPlain && Stmt.arePlain ss

/-- Whether a branch is missing, or plain and no declaration. -/
def Stmt.isPlainBranch : Option Stmt → Bool
  | none => true
  | some s => s.isPlain && !s.isDeclaration

def Expr.isPlainOption : Option Expr → Bool
  | none => true
  | some e => e.isPlain

end

/-- Whether a program has neither members nor records inside, and no declaration alone as a branch or
as the body of a loop without a variable. -/
def Program.isPlain (program : Program) : Bool := Stmt.arePlain program.body

/-- Whether computing an expression has no effect that a program relies on. -/
def Expr.isIdle : Expr → Bool
  | .literal .. | .name .. => true
  | _ => false

namespace Semantics

/-! ## Values -/

/-- The variables in sight, the innermost first, with the places of their values. -/
abbrev Env := List (String × Nat)

/-- The body of a function. -/
inductive Body where
  /-- Statements. -/
  | block (body : List Stmt)
  /-- An expression, whose value is the result. -/
  | value (e : Expr)

/-- A function as it is written. -/
structure Lambda where
  /-- The name by which messages call it. -/
  name : String
  /-- The parameters. -/
  params : List Ident
  /-- The body. -/
  body : Body

/-- A value. -/
inductive Val where
  /-- A value without variables inside. -/
  | datum (v : Value)
  /-- A function with the variables in sight; the key tells it apart from other functions. -/
  | closure (key : Nat) (code : Lambda) (env : Env)

/-- A value as operators see it, which do not look into functions. -/
def Val.view : Val → Value
  | .datum v => v
  | .closure key code _ =>
    .closure ⟨key, ⟨code.params.length.toUInt32, { name := some code.name }⟩, []⟩

/-- A value as it is shown. -/
def Val.shown (v : Val) : Shown := Store.shown {} v.view

def valueOf : Literal → Value
  | .int n => .int n
  | .float x => .float x
  | .string s => .string s
  | .char c => .char c
  | .bool b => .bool b
  | .nil => .nil
  | .void => .void

/-! ## Operators -/

/-- The result of an operator on two booleans, the left of which is looked at first. -/
def connected (op : Opcode) (f : Bool → Bool → Bool) (a b : Value) : Except Fault Value :=
  match a.asBool?, b.asBool? with
  | none, _ => .error (.unexpectedType op.mnemonic "bool" a.kind)
  | some _, none => .error (.unexpectedType op.mnemonic "bool" b.kind)
  | some x, some y => .ok (.bool (f x y))

def binary : BinaryOp → Value → Value → Except Fault Value
  | .arithmetic op, a, b => Machine.arithmetic op a b
  | .equal, a, b => .ok (.bool (a.equals b))
  | .notEqual, a, b => .ok (.bool (!a.equals b))
  | .less, a, b => Machine.compared .lt (· == .lt) a b
  | .lessEqual, a, b => Machine.compared .le (· != .gt) a b
  | .greater, a, b => Machine.compared .gt (· == .gt) a b
  | .greaterEqual, a, b => Machine.compared .ge (· != .lt) a b
  | .and, a, b => connected .and (· && ·) a b
  | .or, a, b => connected .or (· || ·) a b

def unary : UnaryOp → Value → Except Fault Value
  | .negate, a => Machine.negated a
  | .not, a =>
    match a.asBool? with
    | some b => .ok (.bool !b)
    | none => .error (.unexpectedType Opcode.not.mnemonic "bool" a.kind)

def ranged (inclusive : Bool) (a b : Value) : Except Fault Value :=
  Machine.ranged (if inclusive then .makeInclRange else .makeRange) inclusive a b

/-- The instruction that complains about a left operand. -/
def shortcutTest : LogicalOp → Opcode
  | .and => .jumpFalse
  | .or => .jumpTrue

/-- Whether the left operand alone gives the result. -/
def isDecided : LogicalOp → Bool → Bool
  | .and, b => !b
  | .or, b => b

/-! ## The host -/

/-- What a host function replies. -/
inductive Reply where
  /-- A value of its own. -/
  | value (l : Literal)
  /-- One of its arguments, or the absent value if there is none at the position. -/
  | argument (position : Nat)
  /-- A failure with a message. -/
  | failure (message : String)

/-- The answer that a reply means for the arguments of a call. -/
def Reply.answer {α : Type} (datum : Value → α) (arguments : List α) : Reply → Except String α
  | .value l => .ok (datum (valueOf l))
  | .argument position => .ok (arguments.getD position (datum .nil))
  | .failure message => .error message

/-- The host as evaluation meets it. -/
structure HostView where
  /-- What host functions reply to arguments as they are shown, after the recorded calls. -/
  reply : List HostCall → Native → List Shown → Reply
  /-- Whether the calls of a host function are recorded. -/
  watches : Native → Bool

/-- The host functions of a machine reply as the view says, if their arguments are neither records
nor instances nor bound methods. -/
structure HostView.Describes (view : HostView) (host : Host) : Prop where
  answer : ∀ calls native store (arguments : List Value),
    (∀ v ∈ arguments, v.kind ≠ .record ∧ v.kind ≠ .instanceOf ∧ v.kind ≠ .bound) →
    host.answer calls native store arguments =
      (view.reply calls native (arguments.map store.shown)).answer id arguments
  watches : ∀ native, host.watches native = view.watches native

/-- What a program is evaluated in. -/
structure Setting where
  /-- The host. -/
  host : HostView
  /-- The names of the host functions and of the globals that the program declares. -/
  globals : List String
  /-- Whether statements that are a literal or a name are left out. -/
  strip : Bool
  /-- The number of rounds after which a loop counts as unfinished. -/
  rounds : Nat

/-! ## Evaluation -/

/-- What evaluation changes. -/
structure World where
  /-- The values of the places. -/
  places : List Val := []
  /-- The globals that have a value, in the order in which they got it. -/
  globals : List (String × Val) := []
  /-- The recorded calls of host functions, the newest first. -/
  calls : List HostCall := []
  /-- The next key to be given to a function. -/
  fresh : Nat := 0

/-- Why evaluation stops. -/
inductive Stop where
  /-- The program fails. -/
  | fault (f : Fault)
  /-- A loop has had all its rounds. -/
  | unfinished
  /-- The program has no meaning. -/
  | undefined

/-- A part of the evaluation. -/
abbrev Eval := EStateM Stop World

/-- How a statement ends. -/
inductive Completion where
  /-- The next statement follows. -/
  | normal
  /-- The body of the loop around it ends. -/
  | exit (how : LoopExit)
  /-- The function returns a value. -/
  | return (v : Val)

/-- Fails. -/
def fail {α : Type} (f : Fault) : Eval α := throw (.fault f)

/-- The result of an operator. -/
def compute (r : Except Fault Value) : Eval Val :=
  match r with
  | .ok v => return .datum v
  | .error f => fail f

/-- The boolean that a value must be. -/
def truth (op : Opcode) (v : Val) : Eval Bool :=
  match v.view.asBool? with
  | some b => return b
  | none => fail (.unexpectedType op.mnemonic "bool" v.view.kind)

/-- The range that a value must be. -/
def rangeOf (v : Val) : Eval Range :=
  match v.view with
  | .range r => return r
  | u => fail (.unexpectedType Opcode.makeIterator.mnemonic "range" u.kind)

/-- A new place with a value. -/
def allocate (v : Val) : Eval Nat :=
  modifyGet fun w => (w.places.length, { w with places := w.places ++ [v] })

def load (place : Nat) : Eval Val := fun w =>
  match w.places[place]? with
  | some v => .ok v w
  | none => .error .undefined w

def store (place : Nat) (v : Val) : Eval Unit :=
  modify fun w => { w with places := w.places.set place v }

/-- A function over the variables in sight. -/
def close (code : Lambda) (env : Env) : Eval Val :=
  modifyGet fun w => (.closure w.fresh code env, { w with fresh := w.fresh + 1 })

/-- Variables for values, each in sight of the following ones. -/
def bindAll (env : Env) : List (String × Val) → Eval Env
  | [] => return env
  | (name, v) :: rest => do
    let place ← allocate v
    bindAll ((name, place) :: env) rest

/-- The globals with another value for one of them. -/
def assignGlobal (name : String) (v : Val) (globals : List (String × Val)) : List (String × Val) :=
  globals.map fun g => if g.1 = name then (name, v) else g

/-- Gives a global its first value. -/
def defineGlobal (name : String) (v : Val) : Eval Unit :=
  modify fun w => { w with globals := w.globals ++ [(name, v)] }

/-- Refuses a call with the wrong number of arguments. -/
def checkArity (name : String) (expected : UInt32) (argc : Nat) : Eval Unit :=
  if argc.toUInt32 = expected then return ()
  else fail (.arityMismatch name expected argc.toUInt32)

/-! ## Loops -/

/-- Repeats rounds until one of them ends the loop. -/
def iterate {σ : Type} (round : σ → Eval (σ ⊕ Completion)) : (rounds : Nat) → σ → Eval Completion
  | 0, _ => throw .unfinished
  | rounds + 1, state => do
    match ← round state with
    | .inl state => iterate round rounds state
    | .inr completion => return completion

/-- What a loop does when its body has ended: it goes on with the next round, or ends itself. -/
def Completion.after {σ : Type} (next : σ) : Completion → σ ⊕ Completion
  | .normal | .exit .continue => .inl next
  | .exit .break => .inr .normal
  | .return v => .inr (.return v)

/-- How a statement ends, whatever it declares. -/
def ending (x : Eval (Env × Completion)) : Eval Completion := do
  let r ← x
  return r.2

/-- A round of a loop with a condition. -/
def whileRound (test : Eval Bool) (body : Eval Completion) (_ : Unit) :
    Eval (Unit ⊕ Completion) := do
  let b ← test
  if b then
    let completion ← body
    return completion.after ()
  else
    return .inr .normal

/-- A round of a loop over a range. Its variable is new in every round. -/
def forInRound (body : Nat → Eval Completion) (r : Range) : Eval (Range ⊕ Completion) := do
  if r.hasNext then
    let place ← allocate (.datum (.int r.next))
    let completion ← body place
    return completion.after r.advance
  else
    return .inr .normal

/-- Copies the variable of a round back, if the round leads to the next one. -/
def copyBack (inner outer : Nat) : Completion → Eval Unit
  | .normal | .exit .continue => do
    let v ← load inner
    store outer v
  | .exit .break | .return _ => return ()

/-- A round of a loop with a variable, which has a copy of its own in every round. All rounds but the
first begin with the update. -/
def forRound (outer : Nat) (update : Eval Unit) (test : Eval Bool) (body : Nat → Eval Completion)
    (first : Bool) : Eval (Bool ⊕ Completion) := do
  let _ ← bif first then return () else update
  let b ← test
  if b then
    let v ← load outer
    let inner ← allocate v
    let completion ← body inner
    let _ ← copyBack inner outer completion
    return completion.after false
  else
    return .inr .normal

/-! ## Expressions and statements -/

section

variable (s : Setting)

/-- Fails for a global that has no value yet. -/
def missing {α : Type} (name : String) : Eval α :=
  match s.globals.findIdx? (· = name) with
  | some slot => fail (.undefinedGlobal slot.toUInt32)
  | none => throw .undefined

def readGlobal (name : String) : Eval Val := fun w =>
  match w.globals.lookup name with
  | some v => .ok v w
  | none => missing s name w

def writeGlobal (name : String) (v : Val) : Eval Unit := fun w =>
  match w.globals.lookup name with
  | some _ => .ok () { w with globals := assignGlobal name v w.globals }
  | none => missing s name w

def read (env : Env) (name : String) : Eval Val :=
  match env.lookup name with
  | some place => load place
  | none => readGlobal s name

def write (env : Env) (name : String) (v : Val) : Eval Unit :=
  match env.lookup name with
  | some place => store place v
  | none => writeGlobal s name v

/-- Records the call of a host function, if it is watched. -/
def observe (native : Native) (arguments : List Val) : Eval Unit :=
  modify fun w =>
    if s.host.watches native then { w with calls := ⟨native, arguments.map Val.shown⟩ :: w.calls } else w

def callHost (native : Native) (arguments : List Val) : Eval Val := do
  checkArity native.name native.arity arguments.length
  let w ← get
  observe s native arguments
  match (s.host.reply w.calls native (arguments.map Val.shown)).answer Val.datum arguments with
  | .ok v => return v
  | .error message => fail (.native native.name message)

variable (call : Val → List Val → Eval Val)

mutual

def expression (env : Env) : Expr → Eval Val
  | .literal l _ => return .datum (valueOf l)
  | .name id _ => read s env id.name
  | .binary op left right _ => do
    let a ← expression env left
    let b ← expression env right
    compute (binary op a.view b.view)
  | .logical op left right _ => do
    let a ← expression env left
    let x ← truth (shortcutTest op) a
    if isDecided op x then
      return a
    else
      let b ← expression env right
      let _ ← truth .assertBool b
      return b
  | .unary op operand _ => do
    let a ← expression env operand
    compute (unary op a.view)
  | .assign (.name id _) value _ => do
    let v ← expression env value
    write s env id.name v
    return v
  | .assign .. => throw .undefined
  | .call callee arguments _ => do
    let f ← expression env callee
    let vs ← expressions env arguments
    call f vs
  | .member .. => throw .undefined
  | .range first last inclusive _ => do
    let a ← expression env first
    let b ← expression env last
    compute (ranged inclusive a.view b.view)
  | .arrow params body _ => close ⟨Lowering.lambdaName, params, .value body⟩ env
  | .lambda params body _ => close ⟨Lowering.lambdaName, params, .block body⟩ env

/-- The values of several expressions, the first one first. -/
def expressions (env : Env) : List Expr → Eval (List Val)
  | [] => return []
  | e :: es => do
    let v ← expression env e
    let vs ← expressions env es
    return v :: vs

/-- Evaluates a statement, and gives the variables in sight behind it and how it ends. -/
def statement (env : Env) : Stmt → Eval (Env × Completion)
  | .variable id init _ => do
    let v ← expression env init
    let place ← allocate v
    return ((id.name, place) :: env, .normal)
  | .function id params body _ => do
    -- The function is in its own sight, so its place comes first.
    let place ← allocate (.datum .nil)
    let f ← close ⟨id.name, params, .block body⟩ ((id.name, place) :: env)
    store place f
    return ((id.name, place) :: env, .normal)
  | .record .. => throw .undefined
  | .expression e _ =>
    if s.strip && e.isIdle then
      return (env, .normal)
    else do
      let _ ← expression env e
      return (env, .normal)
  | .block body _ => do
    let completion ← statements env body
    return (env, completion)
  | .cond test consequent alternate _ => do
    let v ← expression env test
    let b ← truth .jumpFalse v
    let completion ←
      bif b then ending (statement env consequent) else optionalStatement env alternate
    return (env, completion)
  | .while test body _ => do
    let completion ← iterate (whileRound (do
      let v ← expression env test
      truth .jumpFalse v) (ending (statement env body))) s.rounds ()
    return (env, completion)
  | .loop body _ => do
    let completion ← iterate (whileRound (return true) (ending (statement env body))) s.rounds ()
    return (env, completion)
  | .forIn id iterable body _ => do
    let v ← expression env iterable
    let r ← rangeOf v
    let completion ← iterate (forInRound fun place =>
      ending (statement ((id.name, place) :: env) body)) s.rounds r
    return (env, completion)
  | .for id init test update body _ => do
    let v ← expression env init
    let outer ← allocate v
    let env' : Env := (id.name, outer) :: env
    let completion ← iterate (forRound outer (discard (optionalExpression env' update))
      (holds env' test) fun inner => ending (statement ((id.name, inner) :: env') body)) s.rounds true
    return (env, completion)
  | .return value _ => do
    let v ← optionalExpression env value
    return (env, .return (v.getD (.datum .void)))
  | .exit how _ => return (env, .exit how)

def statements (env : Env) : List Stmt → Eval Completion
  | [] => return .normal
  | st :: ss => do
    let r ← statement env st
    match r.2 with
    | .normal => statements r.1 ss
    | completion => return completion

def optionalStatement (env : Env) : Option Stmt → Eval Completion
  | none => return .normal
  | some st => ending (statement env st)

def optionalExpression (env : Env) : Option Expr → Eval (Option Val)
  | none => return none
  | some e => do
    let v ← expression env e
    return some v

/-- Whether a condition holds; one that is missing does. -/
def holds (env : Env) : Option Expr → Eval Bool
  | none => return true
  | some e => do
    let v ← expression env e
    truth .jumpFalse v

end

/-! ## Calls and programs -/

/-- Calls a value: a host function at once, and a function by `enter` if it gets as many arguments as
it has parameters. -/
def apply (enter : Lambda → Env → Eval Val) (f : Val) (arguments : List Val) : Eval Val :=
  match f with
  | .closure _ code env => do
    checkArity code.name code.params.length.toUInt32 arguments.length
    enter code env
  | .datum (.native native) => callHost s native arguments
  | .datum v => fail (.notCallable v.kind)

/-- The value of the body of a function. A body that ends without a return has an empty result. -/
def Body.result (env : Env) : Body → Eval Val
  | .block body => do
    let completion ← statements s call env body
    match completion with
    | .return v => return v
    | _ => return .datum .void
  | .value e => expression s call env e

/-- Runs a function on arguments. It can see itself under an empty name, which no program can
write. -/
def run (self : Val) (code : Lambda) (env : Env) (arguments : List Val) : Eval Val := do
  let env ← bindAll env (("", self) :: (code.params.map Ident.name).zip arguments)
  code.body.result s call env

end

/-- Calls a value, where as many calls as given can be nested. -/
def invoke (s : Setting) : (frames : Nat) → Val → List Val → Eval Val
  | 0, f, arguments => apply s (fun _ _ => fail .stackOverflow) f arguments
  | frames + 1, f, arguments =>
    apply s (fun code env => run s (invoke s frames) f code env arguments) f arguments

/-- Evaluates the statements at the top level, where declarations define globals. -/
def topLevel (s : Setting) (call : Val → List Val → Eval Val) : List Stmt → Eval Unit
  | [] => return ()
  | .variable id init _ :: ss => do
    let v ← expression s call [] init
    defineGlobal id.name v
    topLevel s call ss
  | .function id params body _ :: ss => do
    let f ← close ⟨id.name, params, .block body⟩ []
    defineGlobal id.name f
    topLevel s call ss
  | st :: ss => do
    let _ ← statement s call [] st
    topLevel s call ss

/-- Evaluates a program and calls the function that it starts with. One call, that of the program
itself, is active all the time. -/
def script (s : Setting) (entry : String) (program : Program) : Eval Unit := do
  let call := invoke s (Machine.maxFrames - 1)
  topLevel s call program.body
  let f ← readGlobal s entry
  let _ ← call f []
  return ()

/-! ## Behavior -/

/-- What can be seen of a program that has ended. -/
structure Behavior where
  /-- How it has ended. -/
  outcome : Machine.Outcome
  /-- The recorded calls of host functions, the newest first. -/
  calls : List HostCall
  /-- The globals that have a value, as they are shown. -/
  globals : List Shown
  deriving DecidableEq

/-- How evaluation ends, if it ends. -/
def World.behavior (w : World) (outcome : Machine.Outcome) : Behavior :=
  ⟨outcome, w.calls, w.globals.map fun g => g.2.shown⟩

/-- The setting in which a program is evaluated. -/
def setting (host : HostView) (options : Options) (program : Program) (rounds : Nat) : Setting where
  host := host
  globals := options.natives ++ (program.body.filterMap Stmt.declared?).map Ident.name
  strip := options.strip
  rounds := rounds

/-- The behavior of a program by evaluation, if it ends within the rounds that each loop has. -/
def behavior? (host : HostView) (options : Options) (natives : List Native) (program : Program)
    (rounds : Nat) : Option Behavior :=
  match script (setting host options program rounds) options.entry program
      { globals := natives.map fun n => (n.name, .datum (.native n)) } with
  | .ok _ w => some (w.behavior .finished)
  | .error (.fault f) w => some (w.behavior (.failed f))
  | .error .unfinished _ | .error .undefined _ => none

end Semantics

/-- The behavior of a machine, if it ends within a number of steps. -/
def Machine.behavior? (host : Host) (steps : Nat) (m : Machine) : Option Semantics.Behavior :=
  match m.run host steps with
  | (.unfinished, _) => none
  | (outcome, m') => some ⟨outcome, m'.calls, m'.globals.toList.map m'.store.shown⟩

end StackScript
