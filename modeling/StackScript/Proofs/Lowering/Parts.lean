import StackScript.Proofs.Lowering.Emission

/-!
# The parts of compilation

Compiling an expression or a statement is put together from few parts. `Built` says of which, so that
what holds of each part, and of two parts behind each other, holds of the compilation of every program.
-/

namespace StackScript

/-- The functions with their levels, seen from outside of one more function. -/
def deeper (levels : List (Nat × String)) : List (Nat × String) :=
  levels.map fun level => (level.1 + 1, level.2)

mutual

/-- The functions in an expression: the level and the name of each of them. -/
def Expr.functionLevels : Expr → List (Nat × String)
  | .literal .. | .name .. => []
  | .binary _ left right _ | .logical _ left right _ | .assign left right _
  | .range left right _ _ => left.functionLevels ++ right.functionLevels
  | .unary _ operand _ => operand.functionLevels
  | .call callee arguments _ => callee.functionLevels ++ Expr.functionLevelsOf arguments
  | .member object _ _ => object.functionLevels
  | .arrow _ body _ => (1, Lowering.lambdaName) :: deeper body.functionLevels
  | .lambda _ body _ => (1, Lowering.lambdaName) :: deeper (Stmt.functionLevelsOf body)

def Expr.functionLevelsOf : List Expr → List (Nat × String)
  | [] => []
  | e :: es => e.functionLevels ++ Expr.functionLevelsOf es

def Stmt.functionLevels : Stmt → List (Nat × String)
  | .variable _ init _ => init.functionLevels
  | .function id _ body _ => (1, id.name) :: deeper (Stmt.functionLevelsOf body)
  | .record _ _ methods _ => Method.functionLevelsOf methods
  | .expression e _ => e.functionLevels
  | .block body _ => Stmt.functionLevelsOf body
  | .cond test consequent alternate _ =>
    test.functionLevels ++ (consequent.functionLevels ++ Stmt.functionLevelsOfOption alternate)
  | .while test body _ => test.functionLevels ++ body.functionLevels
  | .loop body _ => body.functionLevels
  | .forIn _ iterable body _ => iterable.functionLevels ++ body.functionLevels
  | .for _ init test update body _ =>
    init.functionLevels ++ (Expr.functionLevelsOfOption update ++
      (Expr.functionLevelsOfOption test ++ body.functionLevels))
  | .return value _ => Expr.functionLevelsOfOption value
  | .exit .. => []

def Stmt.functionLevelsOf : List Stmt → List (Nat × String)
  | [] => []
  | s :: ss => s.functionLevels ++ Stmt.functionLevelsOf ss

/-- The functions in a statement that may be missing. -/
def Stmt.functionLevelsOfOption : Option Stmt → List (Nat × String)
  | none => []
  | some s => s.functionLevels

/-- The functions in an expression that may be missing. -/
def Expr.functionLevelsOfOption : Option Expr → List (Nat × String)
  | none => []
  | some e => e.functionLevels

/-- The functions that some methods are, and those inside of them. -/
def Method.functionLevelsOf : List Method → List (Nat × String)
  | [] => []
  | ⟨id, _, body⟩ :: ms =>
    ((1, id.name) :: deeper (Stmt.functionLevelsOf body)) ++ Method.functionLevelsOf ms

end

/-- The functions of a program: the level and the name of each of them. -/
def Program.functionLevels (program : Program) : List (Nat × String) :=
  Stmt.functionLevelsOf program.body

/-- The constants that occur in compiled programs, with functions whose names satisfy `P`. No function
has two equal constants. -/
inductive Constant.Ordinary (P : String → Prop) : Constant → Prop
  | int (n : Int64) : Ordinary P ⟨.int n⟩
  | float (x : Double) : Ordinary P ⟨.float x⟩
  | string (s : String) : Ordinary P ⟨.string s⟩
  | char (c : Char) : Ordinary P ⟨.char c⟩
  | record (name : String) (fields : List String) : Ordinary P ⟨.record ⟨name, fields, []⟩⟩
  | function {f : Function Constant} {name : String} : f.chunk.name = some name → P name →
      f.chunk.constants.Nodup → (∀ k ∈ f.chunk.constants, Ordinary P k) → Ordinary P ⟨.function f⟩

namespace Lowering

variable {α β : Type} {n m : Nat} {L L' : List (Nat × String)}

/-- The parts of which compilation consists. `n` bounds what they add to any one function, and `L` has the
levels and the names of the functions inside. There are parts that make no code, such as names, scopes and
messages, parts that ask for a constant, functions, and what follows each other. What has a message may
have left out functions. -/
inductive Built : Nat → List (Nat × String) → {α : Type} → Lower α → Prop
  | silent {α : Type} {n : Nat} {x : Lower α} : Silent x → Evolves n x → Built n [] x
  | constant {k : Constant} : (∀ P, k.Ordinary P) → Built 1 [] (constant k)
  | function {n : Nat} {L : List (Nat × String)} {name self : String} {params : List Ident} {span : Span}
      {body : Lower Fragment} : Built n L body → Emitting body → Gives (Lands false) body →
      Built (params.length + n + 2) ((1, name) :: deeper L) (function name self params span body)
  | bind {α β : Type} {n m : Nat} {L L' : List (Nat × String)} {x : Lower α} {f : α → Lower β} :
      Built n L x → (∀ a, Built m L' (f a)) → Built (n + m) (L ++ L') (x >>= f)
  | message {α : Type} {n : Nat} {L L' : List (Nat × String)} {x : Lower α} : Built n L x → L ⊆ L' →
      (∀ c, ¬ (x c).2.Clean) → Built n L' x
  | mono {α : Type} {n m : Nat} {L : List (Nat × String)} {x : Lower α} : Built n L x → n ≤ m → Built m L x

/-- Every part changes the context by a step. -/
theorem Built.evolves {x : Lower α} (h : Built n L x) : Evolves n x := by
  induction h with
  | silent _ he => exact he
  | constant _ => exact evolves_constant _
  | function _ _ _ ih => exact evolves_function ih
  | bind _ _ ihx ihf => exact ihx.bind ihf
  | message _ _ _ ih => exact ih
  | mono _ hm ih => exact ih.mono hm

/-- What only looks at the context makes no code. -/
theorem Built.look {x : Lower α} (h : ∀ c, (x c).2 = c) : Built 0 [] x := by
  refine .silent (fun c => ?_) (.ofRead h)
  rw [h]
  exact .refl c

theorem Built.pure (a : α) : Built 0 [] (pure a : Lower α) := .look fun _ => rfl

/-- What comes behind has no functions. -/
theorem Built.andThen {x : Lower α} {f : α → Lower β} (hx : Built n L x)
    (hf : ∀ a, Built m [] (f a)) : Built (n + m) L (x >>= f) := by
  have h := hx.bind hf
  rwa [List.append_nil] at h

theorem Built.andReturn {x : Lower α} (hx : Built n L x) (f : α → β) :
    Built n L (x >>= fun a => Pure.pure (f a)) :=
  hx.andThen fun a => .pure (f a)

/-! ## Expressions and statements -/

theorem built_report {cause : Diagnostic.Cause} (h : ∀ n, cause ≠ .jumpTooFar n) (span : Span) :
    Built 0 [] (report cause span) :=
  .silent (silent_report h) (evolves_report cause span)

theorem built_resolve (id : Ident) : Built 1 [] (resolve id) :=
  .silent (emits_resolve id) (evolves_resolve id)

theorem built_declare (id : Ident) : Built 1 [] (declare id) :=
  .silent (silent_declare id) (evolves_declare id)

theorem built_enter : Built 0 [] (modifyScope Scope.enter) :=
  .silent (silent_modifyScope _) evolves_enter

theorem built_addLocal (name : String) : Built 1 [] (addLocal name) :=
  .silent (silent_addLocal name) (evolves_addLocal name)

theorem built_atTopLevel : Built 0 [] atTopLevel := .look fun _ => rfl

theorem built_getScope : Built 0 [] getScope := .look fun _ => rfl

theorem built_leaveScope (span : Span) : Built 0 [] (leaveScope span) :=
  .silent (silent_modifyScope Scope.leave) (evolves_leaveScope span)

theorem built_reportRepeated (ids : List Ident) : Built 0 [] (reportRepeated [] ids) :=
  .silent (silent_reportRepeated [] ids) (evolves_reportRepeated [] ids)

theorem built_nameConstant (name : String) : Built 1 [] (nameConstant name) :=
  .constant fun _ => .string name

theorem built_pushConstant {k : Constant} (hk : ∀ P, k.Ordinary P) (span : Span) :
    Built 1 [] (pushConstant k span) :=
  (Built.constant hk).andReturn _

theorem built_literal (l : Literal) (span : Span) : Built 1 [] (literal l span) := by
  cases l with
  | int n => exact built_pushConstant (fun _ => .int n) span
  | float x => exact built_pushConstant (fun _ => .float x) span
  | string s => exact built_pushConstant (fun _ => .string s) span
  | char c => exact built_pushConstant (fun _ => .char c) span
  | bool b => cases b <;> exact (Built.pure _).mono (Nat.zero_le _)
  | nil | void => exact (Built.pure _).mono (Nat.zero_le _)

theorem built_exitLoop (loop : Option Loop) (how : LoopExit) (span : Span) :
    Built 0 [] (exitLoop loop how span) := by
  cases loop with
  | none => exact (built_report (by simp) span).andReturn _
  | some loop => exact .look fun _ => rfl

mutual

theorem built_expression (strip : Bool) :
    (e : Expr) → Built e.size e.functionLevels (expression strip e)
  | .literal l span => built_literal l span
  | .name id span => by
    refine (built_resolve id).bind (m := 0) fun b => ?_
    cases b <;> exact .pure _
  | .binary op left right span =>
    (built_expression strip left).bind (m := right.size + 1) fun _ =>
      ((built_expression strip right).andReturn _).mono (Nat.le_succ _)
  | .logical op left right span =>
    (built_expression strip left).bind (m := right.size + 1) fun _ =>
      ((built_expression strip right).andReturn _).mono (Nat.le_succ _)
  | .unary op operand span => ((built_expression strip operand).andReturn _).mono (Nat.le_succ _)
  | .member object property span =>
    (built_expression strip object).andThen fun _ => (built_nameConstant property.name).andReturn _
  | .range first last inclusive span =>
    (built_expression strip first).bind (m := last.size + 1) fun _ =>
      ((built_expression strip last).andReturn _).mono (Nat.le_succ _)
  | .arrow params body span =>
    .function ((built_expression strip body).andReturn _)
      (fun c => (emitting_expression strip body c).trans (.emit rfl))
      ((gives_lands_expression strip body).bind fun _ h => .pure (h.append (lands_emit _ _)))
  | .lambda params body span =>
    .function (built_statements strip none body) (emitting_statements strip none body)
      (gives_lands_statements strip none body)
  | .assign target value span => by
    have hv := built_expression strip value
    cases target with
    | name id place =>
      refine (hv.andThen (m := 1) fun _ => (built_resolve id).bind (m := 0) fun b => ?_).mono (by
        simp only [Expr.size]
        omega)
      cases b <;> exact .pure _
    | member object property place =>
      exact ((built_expression strip object).bind fun _ => hv.andThen fun _ =>
        (built_nameConstant property.name).andReturn _).mono (by
          simp only [Expr.size]
          omega)
    | _ =>
      exact .mono (.message ((built_report (by simp) _).bind fun _ => hv)
        (List.subset_append_right _ _) fun c hc => not_clean_report _ _ c (hv.evolves.clean _ hc)) (by
          simp only [Expr.size]
          omega)
  | .call callee arguments span => by
    have ha := built_expressions strip arguments
    have hc := built_expression strip callee
    cases callee with
    | member object property place =>
      exact ((built_expression strip object).bind fun _ => ha.andThen fun _ =>
        (built_nameConstant property.name).andReturn _).mono (by
          simp only [Expr.size]
          omega)
    | _ => exact hc.bind (m := Expr.sizes arguments + 1) fun _ =>
        (ha.andReturn _).mono (Nat.le_succ _)

theorem built_expressions (strip : Bool) :
    (es : List Expr) → Built (Expr.sizes es) (Expr.functionLevelsOf es) (expressions strip es)
  | [] => .pure _
  | e :: es => (built_expression strip e).bind fun _ => (built_expressions strip es).andReturn _

theorem built_statement (strip : Bool) : (loop : Option Loop) → (s : Stmt) →
    Built s.size s.functionLevels (statement strip loop s)
  | _, .variable id init span =>
    (built_expression strip init).andThen fun _ => (built_declare id).andReturn _
  | _, .function id params body span => by
    have hf : Built (params.length + Stmt.sizes body + 2)
        ((1, id.name) :: deeper (Stmt.functionLevelsOf body))
        (function id.name "" params span (statements strip none body)) :=
      .function (built_statements strip none body) (emitting_statements strip none body)
        (gives_lands_statements strip none body)
    refine (built_atTopLevel.bind (m := params.length + Stmt.sizes body + 3) fun top => ?_).mono
      (by rw [Nat.zero_add]; exact Nat.le_refl _)
    cases top with
    | true => exact hf.andThen fun _ => (built_declare id).andReturn _
    | false => exact ((built_declare id).bind fun _ => hf.andReturn _).mono (by omega)
  | _, .record id fields methods span => by
    have hm := built_methodClosures strip span methods
    have hk : Built 1 [] (pushConstant ⟨.record ⟨id.name, fields.map Ident.name, []⟩⟩ span) :=
      built_pushConstant (fun _ => .record ..) span
    refine (built_atTopLevel.bind (m := Method.sizes methods + 2) fun global => ?_).mono (by
      simp only [Stmt.size]
      omega)
    cases global with
    | true =>
      exact ((Built.pure none).bind fun _ => (built_reportRepeated fields).bind fun _ =>
        (built_reportRepeated (methods.map Method.id)).bind fun _ => hk.bind fun _ =>
          hm.andThen fun _ => (built_declare id).andReturn _).mono (by omega)
    | false =>
      exact ((built_declare id).bind fun before => (built_reportRepeated fields).bind fun _ =>
        (built_reportRepeated (methods.map Method.id)).bind fun _ => hk.bind fun _ =>
          hm.andThen fun _ => (Built.pure before).andReturn _).mono (by omega)
  | _, .expression e span => by
    have he := built_expression strip e
    cases e with
    | literal l literalSpan =>
      unfold statement
      split
      · exact (Built.pure _).mono (Nat.zero_le _)
      · exact ((built_literal l literalSpan).andReturn _).mono (Nat.le_succ _)
    | name id nameSpan =>
      unfold statement
      refine ((built_resolve id).bind (m := 0) fun b => ?_).mono (Nat.le_succ _)
      cases b <;> exact .pure _
    | _ => exact (he.andReturn _).mono (Nat.le_succ _)
  | loop, .block body span =>
    (built_enter.bind fun _ => (built_statements strip loop body).andThen fun _ =>
      (built_leaveScope span).andReturn _).mono (by
        simp only [Stmt.size]
        omega)
  | loop, .cond test consequent alternate span =>
    ((built_expression strip test).bind fun _ => (built_statement strip loop consequent).bind fun _ =>
      (built_optionalStatement strip loop alternate).andReturn _).mono (by
        simp only [Stmt.size]
        omega)
  | _, .while test body span =>
    ((built_expression strip test).bind fun _ => built_getScope.bind fun _ =>
      (built_statement strip (some _) body).andReturn _).mono (by
        simp only [Stmt.size]
        omega)
  | _, .loop body span =>
    (built_getScope.bind fun _ => (built_statement strip (some _) body).andReturn _).mono (by
      simp only [Stmt.size]
      omega)
  | _, .forIn id iterable body span =>
    ((built_expression strip iterable).bind fun _ => built_getScope.bind fun _ =>
      built_enter.bind fun _ => (built_declare id).bind fun _ =>
        (built_statement strip (some _) body).andThen fun _ =>
          (built_leaveScope span).andReturn _).mono (by
            simp only [Stmt.size]
            omega)
  | _, .for id init test update body span =>
    (built_enter.bind fun _ => built_getScope.bind fun _ => (built_expression strip init).bind fun _ =>
      (built_addLocal id.name).bind fun _ => (built_optionalExpression strip update).bind fun _ =>
        (built_optionalExpression strip test).bind fun _ => built_enter.bind fun _ =>
          (built_addLocal id.name).bind fun _ => (built_statement strip (some _) body).andThen fun _ =>
            (built_leaveScope span).bind fun _ => (built_leaveScope span).andReturn _).mono (by
              simp only [Stmt.size]
              omega)
  | _, .return value span => by
    unfold statement
    refine (Built.bind (L := []) (.look fun _ => rfl) (m := Expr.sizeOption value) fun c => ?_).mono (by
      simp only [Stmt.size]
      omega)
    split
    · exact (Built.message ((built_report (by simp) _).andReturn _) (List.nil_subset _) fun c =>
        not_clean_report _ _ c).mono (Nat.zero_le _)
    · refine (built_optionalExpression strip value).andThen (m := 0) fun code => ?_
      cases code <;> exact .pure _
  | loop, .exit how span => (built_exitLoop loop how span).mono (Nat.zero_le _)

theorem built_statements (strip : Bool) : (loop : Option Loop) → (ss : List Stmt) →
    Built (Stmt.sizes ss) (Stmt.functionLevelsOf ss) (statements strip loop ss)
  | _, [] => .pure _
  | loop, s :: ss =>
    (built_statement strip loop s).bind fun _ => (built_statements strip loop ss).andReturn _

theorem built_optionalStatement (strip : Bool) : (loop : Option Loop) → (s : Option Stmt) →
    Built (Stmt.sizeOption s) (Stmt.functionLevelsOfOption s) (optionalStatement strip loop s)
  | _, none => .pure _
  | loop, some s => built_statement strip loop s

theorem built_optionalExpression (strip : Bool) : (e : Option Expr) →
    Built (Expr.sizeOption e) (Expr.functionLevelsOfOption e) (optionalExpression strip e)
  | none => .pure _
  | some e => (built_expression strip e).andReturn _

theorem built_methodClosures (strip : Bool) (span : Span) : (ms : List Method) →
    Built (Method.sizes ms) (Method.functionLevelsOf ms) (methodClosures strip span ms)
  | [] => .pure _
  | ⟨_, _, body⟩ :: ms =>
    (Built.function (built_statements strip none body) (emitting_statements strip none body)
      (gives_lands_statements strip none body)).bind fun _ =>
        (built_methodClosures strip span ms).andReturn _

end

/-! ## Steps -/

section

variable (strip : Bool) (loop : Option Loop)

theorem evolves_expression (e : Expr) : Evolves e.size (expression strip e) :=
  (built_expression strip e).evolves

theorem evolves_expressions (es : List Expr) : Evolves (Expr.sizes es) (expressions strip es) :=
  (built_expressions strip es).evolves

theorem evolves_statement (s : Stmt) : Evolves s.size (statement strip loop s) :=
  (built_statement strip loop s).evolves

theorem evolves_statements (ss : List Stmt) : Evolves (Stmt.sizes ss) (statements strip loop ss) :=
  (built_statements strip loop ss).evolves

theorem evolves_optionalStatement (s : Option Stmt) :
    Evolves (Stmt.sizeOption s) (optionalStatement strip loop s) :=
  (built_optionalStatement strip loop s).evolves

theorem evolves_optionalExpression (e : Option Expr) :
    Evolves (Expr.sizeOption e) (optionalExpression strip e) :=
  (built_optionalExpression strip e).evolves

theorem evolves_methodClosures (span : Span) (ms : List Method) :
    Evolves (Method.sizes ms) (methodClosures strip span ms) :=
  (built_methodClosures strip span ms).evolves

end

end Lowering

end StackScript
