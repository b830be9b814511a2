import StackScript.Lowering.Context

/-!
# Compiling expressions and statements

The code of an expression leaves one value on the stack, that of a statement none. Code is marked
with the span of the innermost expression or statement that it belongs to.

Every loop has a head, two instructions that leave the loop if the top of the stack is false and
drop it otherwise. The statements `break` and `continue` put a false or true value there and jump
back to the head, whichever loop it is.
-/

namespace StackScript.Lowering

open Fragment (emit skip again linked)

/-- What `break` and `continue` need to know of the loop around them. -/
structure Loop where
  /-- Locals that are declared deeper are dropped. -/
  depth : Nat
  /-- The slots of a loop variable and of its copy in the current round. Going on with the next
  round copies the variable back. -/
  carry : Option (UInt32 × UInt32) := none

/-- The instruction of an operator on two values. -/
def binaryInstruction : BinaryOp → Instruction
  | .arithmetic .add => ⟨.add, ()⟩
  | .arithmetic .sub => ⟨.sub, ()⟩
  | .arithmetic .mul => ⟨.mul, ()⟩
  | .arithmetic .div => ⟨.div, ()⟩
  | .arithmetic .mod => ⟨.mod, ()⟩
  | .equal => ⟨.eq, ()⟩
  | .notEqual => ⟨.ne, ()⟩
  | .less => ⟨.lt, ()⟩
  | .lessEqual => ⟨.le, ()⟩
  | .greater => ⟨.gt, ()⟩
  | .greaterEqual => ⟨.ge, ()⟩
  | .and => ⟨.and, ()⟩
  | .or => ⟨.or, ()⟩

/-- The instruction of an operator on one value. -/
def unaryInstruction : UnaryOp → Instruction
  | .negate => ⟨.neg, ()⟩
  | .not => ⟨.not, ()⟩

def shortcut : LogicalOp → Branch
  | .and => .ifFalse
  | .or => .ifTrue

def pushConstant (k : Constant) (span : Span) : Lower Fragment :=
  return emit ⟨.pushConst, ← constant k⟩ span

def literal (l : Literal) (span : Span) : Lower Fragment :=
  match l with
  | .int n => pushConstant ⟨.int n⟩ span
  | .float x => pushConstant ⟨.float x⟩ span
  | .string s => pushConstant ⟨.string s⟩ span
  | .char c => pushConstant ⟨.char c⟩ span
  | .bool true => return emit ⟨.pushTrue, ()⟩ span
  | .bool false => return emit ⟨.pushFalse, ()⟩ span
  | .nil => return emit ⟨.pushNil, ()⟩ span
  | .void => return emit ⟨.pushVoid, ()⟩ span

def pop (span : Span) : Fragment := emit ⟨.pop, ()⟩ span

/-- A loop: a jump over the head and `first` into the round, the head, `first`, the round that ends
with a jump back, and behind it the place to which the head leads out. -/
def loopCode (first round : Fragment) (span : Span) : Fragment :=
  let out := (pop span).size + first.size + round.size
  let head : Fragment := .jump .ifFalse out span :: pop span ++ first
  .jump .always head.size span :: linked (head ++ round) ++ pop span

def exitLoop (loop : Option Loop) (how : LoopExit) (span : Span) : Lower Fragment := do
  match loop with
  | none =>
    report (.outsideLoop how) span
    return []
  | some loop =>
    let released ← release loop.depth span
    let released := match how, loop.carry with
      | .continue, some (outer, inner) =>
        emit ⟨.getLocal, inner⟩ span ++ released ++ emit ⟨.setLocal, outer⟩ span ++ pop span
      | _, _ => released
    let again := match how with
      | .continue => emit ⟨.pushTrue, ()⟩ span
      | .break => emit ⟨.pushFalse, ()⟩ span
    return released ++ again ++ [.exit span]

def lambdaName : String := "<lambda>"

mutual

/-- Code that computes an expression. With `strip`, statements without effect are left out. -/
def expression (strip : Bool) : Expr → Lower Fragment
  | .literal l span => literal l span
  | .name id span => do
    match ← resolve id with
    | some b => return b.get span
    | none => return emit ⟨.pushNil, ()⟩ span
  | .binary op left right span => do
    let left ← expression strip left
    let right ← expression strip right
    return left ++ right ++ emit (binaryInstruction op) span
  | .logical op left right span => do
    let left ← expression strip left
    let right ← expression strip right
    return left ++ skip (shortcut op) (pop span ++ right) span ++ emit ⟨.assertBool, ()⟩ span
  | .unary op operand span => do
    let operand ← expression strip operand
    return operand ++ emit (unaryInstruction op) span
  | .assign (.name id _) value span => do
    let value ← expression strip value
    match ← resolve id with
    | some b => return value ++ b.set span
    | none => return value
  | .assign (.member object property _) value span => do
    let object ← expression strip object
    let value ← expression strip value
    let name ← nameConstant property.name
    return object ++ value ++ emit ⟨.setProperty, name⟩ span
  | .assign target value _ => do
    report .invalidTarget target.span
    expression strip value
  | .call (.member object property _) arguments span => do
    let object ← expression strip object
    let arguments' ← expressions strip arguments
    let name ← nameConstant property.name
    return object ++ arguments' ++
      emit ⟨.callProperty, (name, arguments.length.toUInt32)⟩ span
  | .call callee arguments span => do
    let callee ← expression strip callee
    let arguments' ← expressions strip arguments
    return callee ++ arguments' ++ emit ⟨.call, arguments.length.toUInt32⟩ span
  | .member object property span => do
    let object ← expression strip object
    let name ← nameConstant property.name
    return object ++ emit ⟨.getProperty, name⟩ span
  | .range first last inclusive span => do
    let first ← expression strip first
    let last ← expression strip last
    let make : Instruction := if inclusive then ⟨.makeInclRange, ()⟩ else ⟨.makeRange, ()⟩
    return first ++ last ++ emit make span
  | .arrow params body span =>
    function lambdaName "" params span do
      let body ← expression strip body
      return body ++ emit ⟨.return, ()⟩ span
  | .lambda params body span => function lambdaName "" params span (statements strip none body)

/-- Code that computes several expressions, the first one first. -/
def expressions (strip : Bool) : List Expr → Lower Fragment
  | [] => return []
  | e :: es => do
    let code ← expression strip e
    let codes ← expressions strip es
    return code ++ codes

/-- Code for a statement inside the given loop, if it is inside one. -/
def statement (strip : Bool) (loop : Option Loop) : Stmt → Lower Fragment
  | .variable id init span => do
    let init ← expression strip init
    let declared ← declare id
    return init ++ define declared span
  | .function id params body span => do
    if ← atTopLevel then
      -- A global has its value only once the closure exists.
      let closure ← function id.name "" params span (statements strip none body)
      let declared ← declare id
      return closure ++ define declared span
    else
      -- A local is declared before, so that the body can call it.
      let declared ← declare id
      let closure ← function id.name "" params span (statements strip none body)
      return closure ++ define declared span
  | .record id fields methods span => do
    let global ← atTopLevel
    let before ← if global then pure none else declare id
    reportRepeated [] fields
    reportRepeated [] (methods.map Method.id)
    let record ← pushConstant ⟨.record ⟨id.name, fields.map Ident.name, []⟩⟩ span
    let closures ← methodClosures strip span methods
    let append := if methods.isEmpty then []
      else emit ⟨.appendMethods, methods.length.toUInt32⟩ span
    let declared ← if global then declare id else pure before
    return record ++ closures ++ append ++ define declared span
  | .expression (.literal l literalSpan) span => do
    if strip then return []
    let code ← literal l literalSpan
    return code ++ pop span
  | .expression (.name id nameSpan) span => do
    -- A name is looked up also where its value is not needed, so that it is reported if it is
    -- unknown.
    match ← resolve id with
    | some b => return if strip then [] else b.get nameSpan ++ pop span
    | none => return if strip then [] else emit ⟨.pushNil, ()⟩ nameSpan ++ pop span
  | .expression e span => do
    let code ← expression strip e
    return code ++ pop span
  | .block body span => do
    modifyScope Scope.enter
    let code ← statements strip loop body
    let released ← leaveScope span
    return code ++ released
  | .cond test consequent alternate span => do
    let test ← expression strip test
    let consequent ← statement strip loop consequent
    let alternate ← optionalStatement strip loop alternate
    let alternate := pop span ++ alternate
    let consequent := pop span ++ consequent ++ [.jump .always alternate.size span]
    return test ++ skip .ifFalse consequent span ++ alternate ++ [.landing]
  | .while test body span => do
    let test ← expression strip test
    let body ← statement strip (some { depth := (← getScope).depth }) body
    let body := pop span ++ body
    let round := again (test ++ .jump .ifFalse (body.size + Piece.jumpSize) span :: body) span
    return loopCode [] round span
  | .loop body span => do
    let body ← statement strip (some { depth := (← getScope).depth }) body
    return loopCode [] (again body span) span
  | .forIn id iterable body span => do
    let iterable ← expression strip iterable
    let loop : Loop := { depth := (← getScope).depth }
    modifyScope Scope.enter
    let declared ← declare id
    let body ← statement strip (some loop) body
    let released ← leaveScope span
    let advance := emit ⟨.advance, ()⟩ span
    let body := emit ⟨.getNext, ()⟩ span ++ define declared span ++ body ++ released
    let done := body.size + Piece.jumpSize + (pop span).size
    let round : Fragment := .jump .ifDone done span :: body
    let back := advance.size + round.size + Piece.jumpSize
    return iterable ++ emit ⟨.makeIterator, ()⟩ span ++
      loopCode advance (round ++ [.jump .back back span]) span ++ pop span
  | .for id init test update body span => do
    modifyScope Scope.enter
    let depth := (← getScope).depth
    let init ← expression strip init
    let outer ← addLocal id.name
    let update ← optionalExpression strip update
    let test ← optionalExpression strip test
    modifyScope Scope.enter
    let inner ← addLocal id.name
    let body ← statement strip (some { depth, carry := some (outer, inner) }) body
    let releasedInner ← leaveScope span
    let releasedOuter ← leaveScope span
    let turn : Fragment := emit ⟨.getLocal, outer⟩ span ++ emit ⟨.defLocal, ()⟩ span ++ body ++
      emit ⟨.getLocal, inner⟩ span ++ releasedInner ++ emit ⟨.setLocal, outer⟩ span ++ pop span ++
      emit ⟨.pushTrue, ()⟩ span
    let turn : Fragment := match test with
      | none => turn
      | some test =>
        test ++ .jump .ifFalse ((pop span).size + turn.size + Piece.jumpSize) span ::
          pop span ++ turn
    let update : Fragment := match update with
      | none => []
      | some update => update ++ pop span
    let back := Piece.jumpSize + (pop span).size + update.size + turn.size + Piece.jumpSize
    return init ++ emit ⟨.defLocal, ()⟩ span ++
      loopCode update (turn ++ [.jump .back back span]) span ++ releasedOuter
  | .return value span => do
    if (← get).enclosing.isEmpty then
      report .returnOutsideFunction span
      return []
    else
      match ← optionalExpression strip value with
      | some value => return value ++ emit ⟨.return, ()⟩ span
      | none => return emit ⟨.returnVoid, ()⟩ span
  | .exit how span => exitLoop loop how span

def statements (strip : Bool) (loop : Option Loop) : List Stmt → Lower Fragment
  | [] => return []
  | s :: ss => do
    let code ← statement strip loop s
    let codes ← statements strip loop ss
    return code ++ codes

def optionalStatement (strip : Bool) (loop : Option Loop) : Option Stmt → Lower Fragment
  | none => return []
  | some s => statement strip loop s

/-- Code for an expression that may be missing. -/
def optionalExpression (strip : Bool) : Option Expr → Lower (Option Fragment)
  | none => return none
  | some e => do
    let code ← expression strip e
    return some code

def methodClosures (strip : Bool) (span : Span) : List Method → Lower Fragment
  | [] => return []
  | ⟨id, params, body⟩ :: ms => do
    let code ← function id.name "self" params span (statements strip none body)
    let codes ← methodClosures strip span ms
    return code ++ codes

end

end StackScript.Lowering
