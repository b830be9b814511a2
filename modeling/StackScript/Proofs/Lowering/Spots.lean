import StackScript.Proofs.Lowering.Layout
import StackScript.Proofs.Lowering.Scoping

/-!
# Where the parts of a program stand in its code

A `Spot` holds the point of the compilation at which an expression or statement is compiled and the
offset of its code in the function it is in. The `spots` of an expression or a statement are those
of itself and of all its parts, of the places where closures are made, and of the turns of loops
with a variable. The body of a function has spots of its own.
-/

namespace StackScript

open Lowering

/-- The body of a function. -/
inductive Body where
  /-- An expression, whose value is returned. -/
  | value (e : Expr)
  /-- Statements. -/
  | block (ss : List Stmt)

/-- A function as it stands in the text of a program. -/
structure Routine where
  /-- Its name. -/
  name : String
  /-- The name of its first local. -/
  self : String := ""
  /-- Its parameters. -/
  params : List Ident
  /-- Its body. -/
  body : Body
  /-- Where it stands. -/
  span : Span

/-- A turn of a loop with a variable, which is new in each turn. -/
structure Turn where
  /-- The variable. -/
  id : Ident
  /-- What the body knows of the loop. -/
  loop : Loop
  /-- The body of the loop. -/
  body : Stmt
  /-- Where the loop stands. -/
  span : Span

namespace Turn

variable (strip : Bool) (t : Turn) (c : Context)

/-- The point of the compilation where the body begins, which has the variable in sight. -/
def inside : Context := (addLocal t.id.name (modifyScope Scope.enter c).2).2

def inner : Fragment × Context := statement strip (some t.loop) t.body (t.inside c)

/-- The instruction that gets the first value of the variable: the next one of a range, or a copy. -/
def opening : Instruction :=
  match t.loop.carry with
  | none => ⟨.getNext, ()⟩
  | some (outer, _) => ⟨.getLocal, outer⟩

/-- Code that drops the variable. If it has been a copy, its value is written back. -/
def rest : Fragment :=
  let released := (leaveScope t.span (t.inner strip c).2).1
  match t.loop.carry with
  | none => released
  | some (outer, inner) => .emit ⟨.getLocal, inner⟩ t.span ++ released ++ .emit ⟨.setLocal, outer⟩ t.span ++
      pop t.span ++ .emit ⟨.pushTrue, ()⟩ t.span

/-- The code of a turn. -/
def code : Fragment :=
  .emit t.opening t.span ++ .emit ⟨.defLocal, ()⟩ t.span ++ ((t.inner strip c).1 ++ t.rest strip c)

def lower : Lower Fragment :=
  fun c => (t.code strip c, (leaveScope t.span (t.inner strip c).2).2)

/-- Where the variable of a turn at an offset is defined. -/
def definer (o : Nat) : Nat := o + t.opening.size

/-- Where the body of a turn begins, which finds the variable. -/
def start (o : Nat) : Nat := t.definer o + 1

def stop (o : Nat) : Nat := o + (t.code strip c).size

variable {t} {c}

/-- A turn of a loop over a range. -/
theorem code_of_carry_none (hcarry : t.loop.carry = none)
    (h : (declare t.id (modifyScope Scope.enter c).2).2.Clean) :
    t.inside c = (declare t.id (modifyScope Scope.enter c).2).2 ∧
      t.code strip c = .emit ⟨.getNext, ()⟩ t.span ++
        define (declare t.id (modifyScope Scope.enter c).2).1 t.span ++ (t.inner strip c).1 ++
        (leaveScope t.span (t.inner strip c).2).1 := by
  have hdeclare := declare_of_clean (isTop_enter c) h
  refine ⟨(congrArg Prod.snd hdeclare).symm, ?_⟩
  rw [hdeclare, code, rest, opening, hcarry, ← List.append_assoc]
  rfl

/-- A turn of a loop that carries its variable over. -/
theorem code_of_carry_some {outer inner : UInt32} (hcarry : t.loop.carry = some (outer, inner)) :
    t.code strip c =
      forTurn outer inner (t.inner strip c).1 (leaveScope t.span (t.inner strip c).2).1 t.span := by
  simp only [code, rest, opening, hcarry, forTurn, List.append_assoc]

end Turn

/-- A part of a program that code is made for. -/
inductive Phrase where
  /-- An expression. -/
  | expression (e : Expr)
  /-- A statement. The head of the loop around it stands at an offset. -/
  | statement (loop : Option (Loop × Nat)) (s : Stmt)
  /-- A function, of which a closure is made. The newest local in sight may be the one that the closure
  is for. While it is not yet there, closures may have captured it `before`, and may have `after`. -/
  | closure (r : Routine) (before after : Bool)
  /-- A turn of a loop, whose head stands at an offset. -/
  | round (turn : Turn) (head : Nat)

/-- The body of a function that is an expression. -/
def Lowering.arrowBody (strip : Bool) (body : Expr) (span : Span) : Lower Fragment := do
  let body ← expression strip body
  return body ++ .emit ⟨.return, ()⟩ span

def Body.lower (strip : Bool) (span : Span) : Body → Lower Fragment
  | .value e => arrowBody strip e span
  | .block ss => statements strip none ss

def Routine.lower (strip : Bool) (r : Routine) : Lower Fragment :=
  Lowering.function r.name r.self r.params r.span (r.body.lower strip r.span)

def Phrase.lower (strip : Bool) : Phrase → Lower Fragment
  | .expression e => Lowering.expression strip e
  | .statement loop s => Lowering.statement strip (loop.map Prod.fst) s
  | .closure r _ _ => r.lower strip
  | .round t _ => t.lower strip

/-- Where the head of the loop around a phrase stands. -/
def Phrase.head? : Phrase → Option Nat
  | .statement loop _ => loop.map Prod.snd
  | .round _ head => some head
  | _ => none

/-- A fragment as it stands at an offset: its open ends lead to the head of the loop around it. -/
def Fragment.settle (head : Option Nat) (o : Nat) (f : Fragment) : Fragment :=
  match head with
  | none => f
  | some h => f.linkFrom (o - h)

/-- A phrase in its place. -/
structure Spot where
  /-- The offset of its code. -/
  offset : Nat
  /-- The point of the compilation where it is compiled. -/
  context : Context
  /-- The phrase itself. -/
  phrase : Phrase

namespace Spot

/-- The code of a spot as it stands in its function. -/
def code (strip : Bool) (spot : Spot) : Fragment :=
  (spot.phrase.lower strip spot.context).1.settle spot.phrase.head? spot.offset

def locals (spot : Spot) : Nat := spot.context.frame.scope.locals.length

end Spot

/-- The point of the compilation where the body of a function begins. -/
def Lowering.Context.behind (c : Context) (self : String) (params : List Ident) : Context :=
  (declareParams params (c.inside self)).2

/-- The function that is made of a compiled body. -/
def Lowering.compiled (name : String) (params : List Ident) (span : Span) (r : Fragment × Context) :
    Function Constant :=
  ⟨params.length.toUInt32, (returning r.1 span).toChunk (some name) r.2.frame.constants⟩

/-- The point of the compilation where the body of a function begins that is compiled at a point. -/
def Routine.start (r : Routine) (c : Context) : Context := c.behind r.self r.params

/-- The function that is made at a point of the compilation. -/
def Routine.compiled (strip : Bool) (r : Routine) (c : Context) : Function Constant :=
  Lowering.compiled r.name r.params r.span (r.body.lower strip r.span (r.start c))

/-- Whether an expression has no effect as a statement. -/
def Expr.isBare : Expr → Bool
  | .literal .. | .name .. => true
  | _ => false

/-- The spots of methods. Whether the local that their record is for is in sight and yet to be defined
is told. -/
def Method.spots (strip : Bool) (span : Span) (waits : Bool) (o : Nat) (c : Context) :
    List Method → List Spot
  | [] => []
  | ⟨id, params, body⟩ :: ms =>
    let f := function id.name "self" params span (statements strip none body) c
    ⟨o, c, .closure ⟨id.name, "self", params, .block body, span⟩ waits waits⟩ ::
      Method.spots strip span waits (o + f.1.size) f.2 ms

mutual

/-- The spots of an expression at an offset. -/
def Expr.spots (strip : Bool) (o : Nat) (c : Context) : Expr → List Spot
  | e@(.literal ..) | e@(.name ..) => [⟨o, c, .expression e⟩]
  | e@(.binary _ left right _) | e@(.range left right _ _) =>
    let l := expression strip left c
    ⟨o, c, .expression e⟩ :: (left.spots strip o c ++ right.spots strip (o + l.1.size) l.2)
  | e@(.logical _ left right _) =>
    let l := expression strip left c
    ⟨o, c, .expression e⟩ ::
      (left.spots strip o c ++ right.spots strip (o + l.1.size + 6) l.2)
  | e@(.unary _ operand _) => ⟨o, c, .expression e⟩ :: operand.spots strip o c
  | e@(.assign (.member object _ _) value _) =>
    let b := expression strip object c
    ⟨o, c, .expression e⟩ :: (object.spots strip o c ++ value.spots strip (o + b.1.size) b.2)
  | e@(.assign _ value _) => ⟨o, c, .expression e⟩ :: value.spots strip o c
  | e@(.call (.member object _ _) arguments _) =>
    let b := expression strip object c
    ⟨o, c, .expression e⟩ ::
      (object.spots strip o c ++ Expr.allSpots strip (o + b.1.size) b.2 arguments)
  | e@(.call callee arguments _) =>
    let f := expression strip callee c
    ⟨o, c, .expression e⟩ ::
      (callee.spots strip o c ++ Expr.allSpots strip (o + f.1.size) f.2 arguments)
  | e@(.member object _ _) => ⟨o, c, .expression e⟩ :: object.spots strip o c
  | e@(.arrow params body span) =>
    [⟨o, c, .expression e⟩, ⟨o, c, .closure ⟨lambdaName, "", params, .value body, span⟩ false false⟩]
  | e@(.lambda params body span) =>
    [⟨o, c, .expression e⟩, ⟨o, c, .closure ⟨lambdaName, "", params, .block body, span⟩ false false⟩]

def Expr.allSpots (strip : Bool) (o : Nat) (c : Context) : List Expr → List Spot
  | [] => []
  | e :: es =>
    let r := expression strip e c
    e.spots strip o c ++ Expr.allSpots strip (o + r.1.size) r.2 es

/-- The spots of a statement at an offset, inside the given loop if it is inside one. -/
def Stmt.spots (strip : Bool) (loop : Option (Loop × Nat)) (o : Nat) (c : Context) : Stmt → List Spot
  | s@(.variable _ init _) => ⟨o, c, .statement loop s⟩ :: init.spots strip o c
  | s@(.function id params body span) =>
    let c' := if c.isTop then c else (declare id c).2
    [⟨o, c, .statement loop s⟩,
      ⟨o, c', .closure ⟨id.name, "", params, .block body, span⟩ false (!c.isTop)⟩]
  | s@(.record id fields methods span) =>
    let c₁ := if c.isTop then c else (declare id c).2
    let c₂ := (reportRepeated [] (methods.map Method.id) (reportRepeated [] fields c₁).2).2
    ⟨o, c, .statement loop s⟩ :: Method.spots strip span (!c.isTop) (o + 5)
      (constant ⟨.record ⟨id.name, fields.map Ident.name, []⟩⟩ c₂).2 methods
  | s@(.expression e _) => ⟨o, c, .statement loop s⟩ ::
      (if strip && e.isBare then [] else e.spots strip o c)
  | s@(.block body _) => ⟨o, c, .statement loop s⟩ ::
      Stmt.allSpots strip loop o (modifyScope Scope.enter c).2 body
  | s@(.cond test consequent alternate _) =>
    let t := expression strip test c
    let k := statement strip (loop.map Prod.fst) consequent t.2
    ⟨o, c, .statement loop s⟩ :: (test.spots strip o c ++
      consequent.spots strip loop (o + t.1.size + 6) t.2 ++
      Stmt.optionSpots strip loop (o + t.1.size + k.1.size + 12) k.2 alternate)
  | s@(.while test body _) =>
    let t := expression strip test c
    ⟨o, c, .statement loop s⟩ :: (test.spots strip (o + 11) c ++
      body.spots strip (some ({ depth := t.2.frame.scope.depth }, o + 5)) (o + t.1.size + 17) t.2)
  | s@(.loop body _) => ⟨o, c, .statement loop s⟩ ::
      body.spots strip (some ({ depth := c.frame.scope.depth }, o + 5)) (o + 11) c
  | s@(.forIn id iterable body span) =>
    let i := expression strip iterable c
    let c' := (declare id (modifyScope Scope.enter i.2).2).2
    let inside : Loop := { depth := i.2.frame.scope.depth }
    let head := o + i.1.size + 6
    ⟨o, c, .statement loop s⟩ :: (iterable.spots strip o c ++
      ⟨o + i.1.size + 18, i.2, .round ⟨id, inside, body, span⟩ head⟩ ::
        body.spots strip (some (inside, head)) (o + i.1.size + 20) c')
  | s@(.for id init test update body span) =>
    let c₁ := (modifyScope Scope.enter c).2
    let i := expression strip init c₁
    let outer := addLocal id.name i.2
    let u := optionalExpression strip update outer.2
    let t := optionalExpression strip test u.2
    let inner := addLocal id.name (modifyScope Scope.enter t.2).2
    -- the loop stands behind the definition of its variable
    let o' := o + i.1.size + 1
    let test' := o' + 11 + (forUpdate u.1 span).size
    let inside : Loop := ⟨c₁.frame.scope.depth, some (outer.1, inner.1)⟩
    ⟨o, c, .statement loop s⟩ :: (init.spots strip o c₁ ++
      Expr.optionSpots strip (o' + 11) outer.2 update ++ Expr.optionSpots strip test' u.2 test ++
      ⟨test' + testSize t.1, t.2, .round ⟨id, inside, body, span⟩ (o' + 5)⟩ ::
        body.spots strip (some (inside, o' + 5)) (test' + testSize t.1 + 6) inner.2)
  | s@(.return value _) => ⟨o, c, .statement loop s⟩ :: Expr.optionSpots strip o c value
  | s@(.exit ..) => [⟨o, c, .statement loop s⟩]

def Stmt.allSpots (strip : Bool) (loop : Option (Loop × Nat)) (o : Nat) (c : Context) :
    List Stmt → List Spot
  | [] => []
  | s :: ss =>
    let r := statement strip (loop.map Prod.fst) s c
    s.spots strip loop o c ++ Stmt.allSpots strip loop (o + r.1.size) r.2 ss

def Stmt.optionSpots (strip : Bool) (loop : Option (Loop × Nat)) (o : Nat) (c : Context) :
    Option Stmt → List Spot
  | none => []
  | some s => s.spots strip loop o c

def Expr.optionSpots (strip : Bool) (o : Nat) (c : Context) : Option Expr → List Spot
  | none => []
  | some e => e.spots strip o c

end

-- the equations of the functions above are made here, once for all their uses
attribute [grind =] Expr.spots Expr.allSpots Expr.optionSpots Stmt.spots Stmt.allSpots Stmt.optionSpots

/-- A loop that carries its variable over: where its parts stand, and the points of the compilation
where they are compiled. -/
structure Lowering.Carrying where
  /-- The slot of the variable between two turns. -/
  slot : UInt32
  /-- Where the head of the loop stands. -/
  head : Nat
  /-- Where the update is compiled. It stands behind the head. -/
  update : Context
  /-- The offset of the test. -/
  testOffset : Nat
  /-- Where the test is compiled. -/
  test : Context
  /-- The offset of a turn. -/
  turnOffset : Nat
  /-- Where a turn is compiled. -/
  turn : Context
  /-- What the body knows of the loop. -/
  loop : Loop

/-- The parts of a loop that stands at an offset. -/
def Lowering.carrying (strip : Bool) (o : Nat) (c : Context) (id : Ident) (init : Expr)
    (test update : Option Expr) (span : Span) : Carrying :=
  let c₁ := (modifyScope Scope.enter c).2
  let i := expression strip init c₁
  let outer := addLocal id.name i.2
  let u := optionalExpression strip update outer.2
  let t := optionalExpression strip test u.2
  let inner := addLocal id.name (modifyScope Scope.enter t.2).2
  let head := o + i.1.size + 6
  let test' := head + 6 + (forUpdate u.1 span).size
  ⟨outer.1, head, outer.2, test', u.2, test' + testSize t.1, t.2,
    ⟨c₁.frame.scope.depth, some (outer.1, inner.1)⟩⟩

theorem Stmt.mem_spots_for {strip : Bool} (loop : Option (Loop × Nat)) {o : Nat} {c : Context} {id : Ident}
    {init : Expr} {test update : Option Expr} (body : Stmt) {span : Span} {p : Carrying}
    (hp : carrying strip o c id init test update span = p) :
    Expr.optionSpots strip (p.head + 6) p.update update ⊆
        (Stmt.for id init test update body span).spots strip loop o c ∧
      Expr.optionSpots strip p.testOffset p.test test ⊆
        (Stmt.for id init test update body span).spots strip loop o c ∧
      ⟨p.turnOffset, p.turn, .round ⟨id, p.loop, body, span⟩ p.head⟩ ∈
        (Stmt.for id init test update body span).spots strip loop o c := by
  subst hp
  simp only [Stmt.spots, carrying]
  refine ⟨fun x hx => ?_, fun x hx => ?_, ?_⟩
  · exact List.mem_cons_of_mem _ (List.mem_append_left _ (List.mem_append_left _ (List.mem_append_right _ hx)))
  · exact List.mem_cons_of_mem _ (List.mem_append_left _ (List.mem_append_right _ hx))
  · exact List.mem_cons_of_mem _ (List.mem_append_right _ (List.mem_cons_self ..))

/-- The spots of the body of a turn that stands at an offset. -/
def Turn.spots (strip : Bool) (t : Turn) (head o : Nat) (c : Context) : List Spot :=
  t.body.spots strip (some (t.loop, head)) (t.start o) (t.inside c)

/-- The spots of the statements inside of a phrase. -/
def Spot.parts (strip : Bool) (spot : Spot) : List Spot :=
  match spot.phrase with
  | .statement loop s => s.spots strip loop spot.offset spot.context
  | .round t head => t.spots strip head spot.offset spot.context
  | _ => []

/-- The spots of the body of a function at an offset. -/
def Body.spots (strip : Bool) (o : Nat) (c : Context) : Body → List Spot
  | .value e => e.spots strip o c
  | .block ss => Stmt.allSpots strip none o c ss

theorem Expr.spots_call {strip : Bool} {o : Nat} {c : Context} {callee : Expr} {arguments : List Expr}
    {span : Span} (h : ∀ object property place, callee ≠ .member object property place) :
    (Expr.call callee arguments span).spots strip o c =
      ⟨o, c, .expression (.call callee arguments span)⟩ :: (callee.spots strip o c ++
        Expr.allSpots strip (o + (expression strip callee c).1.size) (expression strip callee c).2
          arguments) := by
  rw [Expr.spots]
  exact h

/-- The spots of a program, in the code of the program itself. -/
def Program.spots (program : Program) (options : Options) : List Spot :=
  Stmt.allSpots options.strip none 0 { globals := hoist options program } program.body

end StackScript
