import StackScript.Proofs.Semantics.Evaluation

/-!
# Tidy programs

A branch or the body of a loop without a variable has no scope of its own, so a declaration that
stands there alone comes into sight behind the statement, whether or not it has been made. In a tidy
program there is none. Plain programs are tidy ones without records.
-/

namespace StackScript

mutual

/-- Whether an expression has only tidy functions inside. -/
def Expr.isTidy : Expr → Bool
  | .literal .. | .name .. => true
  | .binary _ left right _ | .logical _ left right _ | .assign left right _
  | .range left right _ _ => left.isTidy && right.isTidy
  | .unary _ operand _ => operand.isTidy
  | .call callee arguments _ => callee.isTidy && Expr.areTidy arguments
  | .member object _ _ => object.isTidy
  | .arrow _ body _ => body.isTidy
  | .lambda _ body _ => Stmt.areTidy body

def Expr.areTidy : List Expr → Bool
  | [] => true
  | e :: es => e.isTidy && Expr.areTidy es

/-- Whether a statement has no declaration alone as a branch or as the body of a loop without a
variable. -/
def Stmt.isTidy : Stmt → Bool
  | .variable _ init _ => init.isTidy
  | .function _ _ body _ => Stmt.areTidy body
  | .record _ _ methods _ => Method.areTidy methods
  | .expression e _ => e.isTidy
  | .block body _ => Stmt.areTidy body
  | .cond test consequent alternate _ =>
    test.isTidy && (consequent.isTidy && !consequent.isDeclaration) && Stmt.isTidyBranch alternate
  | .while test body _ => test.isTidy && (body.isTidy && !body.isDeclaration)
  | .loop body _ => body.isTidy && !body.isDeclaration
  | .forIn _ iterable body _ => iterable.isTidy && body.isTidy
  | .for _ init test update body _ =>
    init.isTidy && Expr.isTidyOption test && Expr.isTidyOption update && body.isTidy
  | .return value _ => Expr.isTidyOption value
  | .exit .. => true

def Stmt.areTidy : List Stmt → Bool
  | [] => true
  | s :: ss => s.isTidy && Stmt.areTidy ss

/-- Whether a branch is missing, or tidy and no declaration. -/
def Stmt.isTidyBranch : Option Stmt → Bool
  | none => true
  | some s => s.isTidy && !s.isDeclaration

def Expr.isTidyOption : Option Expr → Bool
  | none => true
  | some e => e.isTidy

/-- Whether the bodies of all of some methods are tidy. -/
def Method.areTidy : List Method → Bool
  | [] => true
  | ⟨_, _, body⟩ :: ms => Stmt.areTidy body && Method.areTidy ms

end

/-- Whether no branch and no body of a loop without a variable is a declaration. -/
def Program.isTidy (program : Program) : Bool := Stmt.areTidy program.body

/-! ## Plain programs -/

theorem and_mono {a b c d : Bool} (h : (a && b) = true) (ha : a = true → c = true)
    (hb : b = true → d = true) : (c && d) = true := by
  obtain ⟨h₁, h₂⟩ := (Bool.and_eq_true ..).mp h
  rw [ha h₁, hb h₂]
  rfl

mutual

theorem Expr.isTidy_of_isPlain : (e : Expr) → e.isPlain = true → e.isTidy = true
  | .literal .., _ | .name .., _ => rfl
  | .binary _ left right _, h | .logical _ left right _, h | .assign left right _, h
  | .range left right _ _, h => and_mono h left.isTidy_of_isPlain right.isTidy_of_isPlain
  | .unary _ operand _, h => operand.isTidy_of_isPlain h
  | .call callee arguments _, h =>
    and_mono h callee.isTidy_of_isPlain (Expr.areTidy_of_arePlain arguments)
  | .member .., h => nomatch h
  | .arrow _ body _, h => body.isTidy_of_isPlain h
  | .lambda _ body _, h => Stmt.areTidy_of_arePlain body h

theorem Expr.areTidy_of_arePlain : (es : List Expr) → Expr.arePlain es = true → Expr.areTidy es = true
  | [], _ => rfl
  | e :: es, h => and_mono h e.isTidy_of_isPlain (Expr.areTidy_of_arePlain es)

theorem Stmt.isTidy_of_isPlain : (s : Stmt) → s.isPlain = true → s.isTidy = true
  | .variable _ init _, h => init.isTidy_of_isPlain h
  | .function _ _ body _, h => Stmt.areTidy_of_arePlain body h
  | .record .., h => nomatch h
  | .expression e _, h => e.isTidy_of_isPlain h
  | .block body _, h => Stmt.areTidy_of_arePlain body h
  | .cond test consequent alternate _, h =>
    and_mono h (and_mono · test.isTidy_of_isPlain (and_mono · consequent.isTidy_of_isPlain id))
      (Stmt.isTidyBranch_of_isPlainBranch alternate)
  | .while test body _, h => and_mono h test.isTidy_of_isPlain (and_mono · body.isTidy_of_isPlain id)
  | .loop body _, h => and_mono h body.isTidy_of_isPlain id
  | .forIn _ iterable body _, h => and_mono h iterable.isTidy_of_isPlain body.isTidy_of_isPlain
  | .for _ init test update body _, h =>
    and_mono h (and_mono · (and_mono · init.isTidy_of_isPlain (Expr.isTidyOption_of_isPlainOption test))
      (Expr.isTidyOption_of_isPlainOption update)) body.isTidy_of_isPlain
  | .return value _, h => Expr.isTidyOption_of_isPlainOption value h
  | .exit .., _ => rfl

theorem Stmt.areTidy_of_arePlain : (ss : List Stmt) → Stmt.arePlain ss = true → Stmt.areTidy ss = true
  | [], _ => rfl
  | s :: ss, h => and_mono h s.isTidy_of_isPlain (Stmt.areTidy_of_arePlain ss)

theorem Stmt.isTidyBranch_of_isPlainBranch :
    (s : Option Stmt) → Stmt.isPlainBranch s = true → Stmt.isTidyBranch s = true
  | none, _ => rfl
  | some s, h => and_mono h s.isTidy_of_isPlain id

theorem Expr.isTidyOption_of_isPlainOption :
    (e : Option Expr) → Expr.isPlainOption e = true → Expr.isTidyOption e = true
  | none, _ => rfl
  | some e, h => e.isTidy_of_isPlain h

end

end StackScript
