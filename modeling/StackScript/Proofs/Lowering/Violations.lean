import StackScript.Compile

/-!
# The static rules of programs

Whether a program keeps the rules depends only on which names are in sight at a place, which is its
`Outlook`: expressions do not change it, and a statement adds the names that it declares. Blocks and
loops have a scope of their own; the body of a condition or of a loop that is a declaration without
a block declares its name in the scope around it.

The violations are listed in the order of the text, with two exceptions: the value of an assignment
comes before the assigned name, and the update of a loop before its test, as in the compiled code.
-/

namespace StackScript

/-- What can be seen at a place of a program. -/
structure Outlook where
  /-- The names that the innermost scope has declared. -/
  scope : List String
  /-- The names of all locals in sight, of this function and of those around it. -/
  locals : List String
  /-- The names of the globals that are known. -/
  globals : List String
  /-- The names of the globals that have been declared up to here. -/
  ready : List String
  /-- Whether the place is outside of all functions, blocks and loops. -/
  isTop : Bool
  /-- Whether the place is in a function. -/
  inFunction : Bool

namespace Outlook

variable (o : Outlook)

/-- A name must mean something, and at the top level a global must have been declared before. -/
def misuse (id : Ident) : List Diagnostic :=
  if id.name ∈ o.locals then []
  else if id.name ∉ o.globals then [⟨.undeclared id.name, id.span⟩]
  else if o.isTop ∧ id.name ∉ o.ready then [⟨.uninitialized id.name, id.span⟩]
  else []

/-- No scope declares a name twice, and no global is declared twice. -/
def clash (id : Ident) : List Diagnostic :=
  if id.name ∈ (if o.isTop then o.ready else o.scope) then [⟨.redeclared id.name, id.span⟩] else []

/-- The outlook behind the declaration of a name. -/
def declare (id : Ident) : Outlook :=
  if o.isTop then { o with globals := id.name :: o.globals, ready := id.name :: o.ready }
  else { o with scope := id.name :: o.scope, locals := id.name :: o.locals }

variable {o} {id : Ident}

theorem clash_of_isTop (h : o.isTop = true) : o.clash id =
    if id.name ∈ o.ready then [⟨.redeclared id.name, id.span⟩] else [] := by
  unfold clash
  rw [if_pos h]

theorem clash_of_not_isTop (h : o.isTop = false) : o.clash id =
    if id.name ∈ o.scope then [⟨.redeclared id.name, id.span⟩] else [] := by
  unfold clash
  rw [h]
  rfl

theorem declare_of_isTop (h : o.isTop = true) : o.declare id =
    { o with globals := id.name :: o.globals, ready := id.name :: o.ready } := if_pos h

theorem declare_of_not_isTop (h : o.isTop = false) : o.declare id =
    { o with scope := id.name :: o.scope, locals := id.name :: o.locals } := if_neg (by simp [h])

theorem isTop_declare : (o.declare id).isTop = o.isTop := by
  unfold declare
  split <;> rfl

variable (o)

/-- The outlook at the beginning of a scope. -/
def enter : Outlook := { o with scope := [], isTop := false }

/-- The outlook at the beginning of a function, whose scope has the name of the function's own slot. -/
def inside (self : String) : Outlook :=
  { o with scope := [self], locals := self :: o.locals, isTop := false, inFunction := true }

/-- The outlook behind the declaration of several names. -/
def declareAll : List Ident → Outlook := List.foldl declare o

end Outlook

/-- The violations by declaring several names one after the other. -/
def Outlook.clashes (o : Outlook) : List Ident → List Diagnostic
  | [] => []
  | id :: ids => o.clash id ++ (o.declare id).clashes ids

mutual

/-- The outlook behind a statement. -/
def Stmt.after (o : Outlook) : Stmt → Outlook
  | .variable id _ _ | .function id _ _ _ | .record id _ _ _ => o.declare id
  | .cond _ consequent alternate _ => Stmt.afterOption (consequent.after o) alternate
  | .while _ body _ | .loop body _ => body.after o
  | .expression .. | .block .. | .forIn .. | .for .. | .return .. | .exit .. => o

/-- The outlook behind a statement that may be missing. -/
def Stmt.afterOption (o : Outlook) : Option Stmt → Outlook
  | none => o
  | some s => s.after o

end

theorem Outlook.globals_subset_declare (o : Outlook) (id : Ident) :
    o.globals ⊆ (o.declare id).globals := by
  unfold Outlook.declare
  split
  · exact List.subset_cons_self ..
  · exact List.Subset.refl _

mutual

/-- No global is forgotten. -/
theorem Stmt.globals_subset_after (o : Outlook) : (s : Stmt) → o.globals ⊆ (s.after o).globals
  | .variable id _ _ | .function id _ _ _ | .record id _ _ _ => o.globals_subset_declare id
  | .cond _ consequent alternate _ => List.Subset.trans (consequent.globals_subset_after o)
    (Stmt.globals_subset_afterOption (consequent.after o) alternate)
  | .while _ body _ | .loop body _ => body.globals_subset_after o
  | .expression .. | .block .. | .forIn .. | .for .. | .return .. | .exit .. => List.Subset.refl _

theorem Stmt.globals_subset_afterOption (o : Outlook) : (s : Option Stmt) →
    o.globals ⊆ (Stmt.afterOption o s).globals
  | none => List.Subset.refl _
  | some s => s.globals_subset_after o

end

mutual

/-- The violations in an expression. -/
def Expr.violations (o : Outlook) : Expr → List Diagnostic
  | .literal .. => []
  | .name id _ => o.misuse id
  | .binary _ left right _ | .logical _ left right _ | .range left right _ _ =>
    left.violations o ++ right.violations o
  | .unary _ operand _ => operand.violations o
  | .assign (.name id _) value _ => value.violations o ++ o.misuse id
  | .assign (.member object _ _) value _ => object.violations o ++ value.violations o
  | .assign target value _ => ⟨.invalidTarget, target.span⟩ :: value.violations o
  | .call callee arguments _ => callee.violations o ++ Expr.violationsAll o arguments
  | .member object _ _ => object.violations o
  | .arrow params body _ =>
    (o.inside "").clashes params ++ body.violations ((o.inside "").declareAll params)
  | .lambda params body _ =>
    (o.inside "").clashes params ++ Stmt.violationsAll ((o.inside "").declareAll params) false body

def Expr.violationsAll (o : Outlook) : List Expr → List Diagnostic
  | [] => []
  | e :: es => e.violations o ++ Expr.violationsAll o es

/-- The violations in a statement, which may be in a loop. -/
def Stmt.violations (o : Outlook) (inLoop : Bool) : Stmt → List Diagnostic
  | .variable id init _ => init.violations o ++ o.clash id
  | .function id params body _ =>
    -- a global function is declared behind its body, a local one before it
    let inner := if o.isTop then o else o.declare id
    let violations := (inner.inside "").clashes params ++
      Stmt.violationsAll ((inner.inside "").declareAll params) false body
    if o.isTop then violations ++ o.clash id else o.clash id ++ violations
  | .record id fields methods _ =>
    let inner := if o.isTop then o else o.declare id
    let violations := o.enter.clashes fields ++ o.enter.clashes (methods.map Method.id) ++
      Method.violationsAll inner methods
    if o.isTop then violations ++ o.clash id else o.clash id ++ violations
  | .expression e _ => e.violations o
  | .block body _ => Stmt.violationsAll o.enter inLoop body
  | .cond test consequent alternate _ => test.violations o ++ consequent.violations o inLoop ++
    Stmt.violationsOption (consequent.after o) inLoop alternate
  | .while test body _ => test.violations o ++ body.violations o true
  | .loop body _ => body.violations o true
  | .forIn id iterable body _ => iterable.violations o ++ body.violations (o.enter.declare id) true
  | .for id init test update body _ =>
    let outer := o.enter.declare id
    init.violations o.enter ++ Expr.violationsOption outer update ++
      Expr.violationsOption outer test ++ body.violations (outer.enter.declare id) true
  | .return value span =>
    if o.inFunction then Expr.violationsOption o value else [⟨.returnOutsideFunction, span⟩]
  | .exit how span => if inLoop then [] else [⟨.outsideLoop how, span⟩]

def Stmt.violationsAll (o : Outlook) (inLoop : Bool) : List Stmt → List Diagnostic
  | [] => []
  | s :: ss => s.violations o inLoop ++ Stmt.violationsAll (s.after o) inLoop ss

/-- The violations in a statement that may be missing. -/
def Stmt.violationsOption (o : Outlook) (inLoop : Bool) : Option Stmt → List Diagnostic
  | none => []
  | some s => s.violations o inLoop

/-- The violations in an expression that may be missing. -/
def Expr.violationsOption (o : Outlook) : Option Expr → List Diagnostic
  | none => []
  | some e => e.violations o

def Method.violationsAll (o : Outlook) : List Method → List Diagnostic
  | [] => []
  | ⟨_, params, body⟩ :: ms => (o.inside "self").clashes params ++
    Stmt.violationsAll ((o.inside "self").declareAll params) false body ++ Method.violationsAll o ms

end

/-- The first violation in each of several statements at the top level. -/
def Stmt.firstViolations (o : Outlook) : List Stmt → List Diagnostic
  | [] => []
  | s :: ss => (s.violations o false).head?.toList ++ Stmt.firstViolations (s.after o) ss

namespace Program

variable (program : Program) (options : Options)

/-- The outlook at the beginning of a program: the host functions have been declared, and the names
that the program declares at its top level are known. -/
def outlook : Outlook where
  scope := []
  locals := []
  globals := options.natives ++ (program.body.filterMap Stmt.declared?).map Ident.name
  ready := options.natives
  isTop := true
  inFunction := false

/-- What is wrong with a program: the first violation in each statement at the top level and, if the
function that the program starts with is not declared there, that it is missing. -/
def violations : List Diagnostic :=
  Stmt.firstViolations (program.outlook options) program.body ++
    if options.entry ∈ (program.body.filterMap Stmt.function?).map Ident.name then []
    else [⟨.missingEntry options.entry, {}⟩]

end Program

end StackScript
