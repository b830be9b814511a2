import StackScript.Number.Double
import StackScript.Span

/-!
# Programs

A program is a list of statements. Every expression and statement carries the region of source text
it was read from; so does every identifier, since a message about a name points at the name.
-/

namespace StackScript

/-- A name and where it stands. -/
structure Ident where
  name : String
  span : Span := {}
  deriving DecidableEq, Repr

/-- A value that is written out in a program. -/
inductive Literal where
  | int (n : Int64)
  | float (x : Double)
  | string (s : String)
  | char (c : Char)
  | bool (b : Bool)
  | nil
  | void

/-- An operator on two values that are both computed. -/
inductive BinaryOp where
  | arithmetic (op : Arithmetic)
  | equal
  | notEqual
  | less
  | lessEqual
  | greater
  | greaterEqual
  | and
  | or

/-- An operator whose second operand may be left out. -/
inductive LogicalOp where
  /-- Conjunction: a false left operand decides. -/
  | and
  /-- Disjunction: a true left operand decides. -/
  | or

/-- An operator on one value. -/
inductive UnaryOp where
  | negate
  | not

/-- The two ways of leaving the body of a loop. -/
inductive LoopExit where
  | break
  | continue
  deriving DecidableEq, Repr

def LoopExit.keyword : LoopExit → String
  | .break => "break"
  | .continue => "continue"

mutual

/-- An expression. -/
inductive Expr where
  | literal (value : Literal) (span : Span)
  | name (id : Ident) (span : Span)
  | binary (op : BinaryOp) (left right : Expr) (span : Span)
  | logical (op : LogicalOp) (left right : Expr) (span : Span)
  | unary (op : UnaryOp) (operand : Expr) (span : Span)
  /-- Assignment. Only names and members can be assigned to. -/
  | assign (target value : Expr) (span : Span)
  | call (callee : Expr) (arguments : List Expr) (span : Span)
  | member (object : Expr) (property : Ident) (span : Span)
  | range (first last : Expr) (inclusive : Bool) (span : Span)
  | arrow (params : List Ident) (body : Expr) (span : Span)
  | lambda (params : List Ident) (body : List Stmt) (span : Span)

/-- A statement. -/
inductive Stmt where
  | variable (id : Ident) (init : Expr) (span : Span)
  | function (id : Ident) (params : List Ident) (body : List Stmt) (span : Span)
  | record (id : Ident) (fields : List Ident) (methods : List Method) (span : Span)
  | expression (e : Expr) (span : Span)
  | block (body : List Stmt) (span : Span)
  | cond (test : Expr) (consequent : Stmt) (alternate : Option Stmt) (span : Span)
  | while (test : Expr) (body : Stmt) (span : Span)
  | loop (body : Stmt) (span : Span)
  | forIn (id : Ident) (iterable : Expr) (body : Stmt) (span : Span)
  /-- Repeats with a variable that every round has a copy of. -/
  | for (id : Ident) (init : Expr) (test update : Option Expr) (body : Stmt) (span : Span)
  | return (value : Option Expr) (span : Span)
  | exit (how : LoopExit) (span : Span)

/-- A method of a record type. -/
inductive Method where
  | mk (id : Ident) (params : List Ident) (body : List Stmt)

end

/-- A program. -/
structure Program where
  body : List Stmt

def Expr.span : Expr → Span
  | .literal _ span | .name _ span | .binary _ _ _ span | .logical _ _ _ span | .unary _ _ span
  | .assign _ _ span | .call _ _ span | .member _ _ span | .range _ _ _ span | .arrow _ _ span
  | .lambda _ _ span => span

def Method.id : Method → Ident
  | ⟨id, _, _⟩ => id

/-- The name that a statement declares at the top level. -/
def Stmt.declared? : Stmt → Option Ident
  | .variable id _ _ | .function id _ _ _ | .record id _ _ _ => some id
  | _ => none

def Stmt.function? : Stmt → Option Ident
  | .function id _ _ _ => some id
  | _ => none

end StackScript
