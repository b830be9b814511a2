import StackScript.Program

/-!
# Diagnostics

What is wrong with a program, and where.
-/

namespace StackScript

/-- What is wrong with a program. -/
inductive Diagnostic.Cause where
  | undeclared (name : String)
  | redeclared (name : String)
  | uninitialized (name : String)
  | outsideLoop (how : LoopExit)
  | missingEntry (name : String)
  | invalidTarget
  | returnOutsideFunction
  | jumpTooFar (offset : Nat)
  deriving DecidableEq, Repr

def Diagnostic.Cause.message : Diagnostic.Cause → String
  | .undeclared name => "undeclared variable `" ++ name ++ "`"
  | .redeclared name => "`" ++ name ++ "` is already declared in this scope"
  | .uninitialized name => "`" ++ name ++ "` is used before it is initialized"
  | .outsideLoop how => "`" ++ how.keyword ++ "` outside of a loop"
  | .missingEntry name => "missing entry function `" ++ name ++ "`"
  | .invalidTarget => "invalid assignment target"
  | .returnOutsideFunction => "`return` outside of a function"
  | .jumpTooFar offset => "jump at offset " ++ toString offset ++ " is out of range"

/-- What is wrong, and where. -/
structure Diagnostic where
  cause : Diagnostic.Cause
  span : Span
  deriving DecidableEq, Repr

/-- The wording of a diagnostic, with the first offset of the place and the one behind it. -/
def Diagnostic.message (d : Diagnostic) : String :=
  d.cause.message ++ " (at " ++ toString d.span.start.toNat ++ ".." ++
    toString (d.span.start.toNat + d.span.length.toNat) ++ ")"

/-- The wording of several diagnostics, one on a line. -/
def Diagnostic.report (ds : List Diagnostic) : String :=
  String.intercalate "\n" (ds.map message)

end StackScript
