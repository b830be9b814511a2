import StackScript.Proofs.Semantics.Evaluation

/-!
# Evaluation defines no globals

Only declarations at the top level define globals. And it makes no difference whether statements
that are a literal or a name are left out, unless such a name stands for a global that has no value.
-/

namespace StackScript.Semantics

section Keeping

variable {α β σ : Type}

/-- Whether evaluation stops because a variable has no value. -/
def Stop.isMissing : Stop → Bool
  | .fault (.undefinedGlobal _) | .undefined => true
  | _ => false

/-- Evaluation stops because a variable has no value. -/
def Misses (r : EStateM.Result Stop World α) : Prop := ∃ stop w, r = .error stop w ∧ stop.isMissing = true

/-- The one evaluation comes to the same as the other, unless the other misses a value. -/
def Agrees (x y : Eval α) : Prop := ∀ w, y w = x w ∨ Misses (x w)

theorem Agrees.bind {x y : Eval α} {f g : α → Eval β} (hx : Agrees x y)
    (hf : ∀ a, Agrees (f a) (g a)) : Agrees (x >>= f) (y >>= g) := by
  intro w
  show EStateM.bind y g w = EStateM.bind x f w ∨ Misses (EStateM.bind x f w)
  unfold EStateM.bind
  rcases hx w with he | ⟨stop, w', he, hstop⟩
  · rw [he]
    cases x w with
    | ok a w₁ => exact hf a w₁
    | error stop w₁ => exact .inl rfl
  · rw [he]
    exact .inr ⟨stop, w', rfl, hstop⟩

/-- The evaluations agree, and where they come to a result, the same globals have values as before. -/
structure Follows (x y : Eval α) : Prop where
  keeps : ∀ w a w', x w = .ok a w' → w'.globals.map Prod.fst = w.globals.map Prod.fst
  agrees : Agrees x y

/-- Where a part of the evaluation comes to a result, the same globals have values as before. -/
abbrev Keeps (x : Eval α) : Prop := Follows x x

theorem keeps_iff {x : Eval α} : Keeps x ↔
    ∀ w a w', x w = .ok a w' → w'.globals.map Prod.fst = w.globals.map Prod.fst :=
  ⟨Follows.keeps, fun h => ⟨h, fun _ => .inl rfl⟩⟩

namespace Follows

theorem pure (a : α) : Keeps (pure a) := by
  refine keeps_iff.2 ?_
  rintro w _ _ ⟨⟩
  rfl

theorem throw (e : Stop) : Keeps (throw e : Eval α) := keeps_iff.2 (by rintro _ _ _ ⟨⟩)

theorem bind {x y : Eval α} {f g : α → Eval β} (hx : Follows x y) (hf : ∀ a, Follows (f a) (g a)) :
    Follows (x >>= f) (y >>= g) := by
  refine ⟨fun w b w' h => ?_, hx.agrees.bind fun a => (hf a).agrees⟩
  have he : EStateM.bind x f w = .ok b w' := h
  unfold EStateM.bind at he
  split at he
  · rename_i a w₁ hx₁
    exact ((hf a).keeps w₁ b w' he).trans (hx.keeps w a w₁ hx₁)
  · cases he

theorem modifyGet {f : World → α × World} (h : ∀ w, (f w).2.globals = w.globals) :
    Keeps (modifyGet f : Eval α) := by
  refine keeps_iff.2 ?_
  rintro w _ _ ⟨⟩
  rw [h]

theorem ite {p : Prop} [Decidable p] {x x' y y' : Eval α} (hx : Follows x x') (hy : Follows y y') :
    Follows (if p then x else y) (if p then x' else y') := by
  split
  · exact hx
  · exact hy

theorem iterate {round round' : σ → Eval (σ ⊕ Completion)} (h : ∀ s, Follows (round s) (round' s))
    (n : Nat) (s : σ) : Follows (iterate round n s) (iterate round' n s) := by
  induction n generalizing s with
  | zero => exact throw _
  | succ n ih =>
    refine (h s).bind fun r => ?_
    cases r with
    | inl s' => exact ih s'
    | inr completion => exact pure _

end Follows

theorem keeps_compute (r : Except Fault Value) : Keeps (compute r) := by
  cases r with
  | ok v => exact .pure _
  | error f => exact .throw _

theorem keeps_truth (op : Opcode) (v : Val) : Keeps (truth op v) := by
  unfold truth
  split
  · exact .pure _
  · exact .throw _

theorem keeps_rangeOf (v : Val) : Keeps (rangeOf v) := by
  unfold rangeOf
  split
  · exact .pure _
  · exact .throw _

theorem keeps_allocate (v : Val) : Keeps (allocate v) := .modifyGet fun _ => rfl

theorem keeps_load (place : Nat) : Keeps (load place) := by
  refine keeps_iff.2 fun w a w' h => ?_
  unfold load at h
  split at h <;> cases h
  rfl

theorem keeps_store (place : Nat) (v : Val) : Keeps (store place v) := .modifyGet fun _ => rfl

theorem keeps_close (code : Lambda) (env : Env) : Keeps (close code env) := .modifyGet fun _ => rfl

theorem keeps_bindAll (env : Env) (bs : List (String × Val)) : Keeps (bindAll env bs) := by
  induction bs generalizing env with
  | nil => exact .pure _
  | cons b bs ih => exact (keeps_allocate _).bind fun _ => ih _

theorem keeps_checkArity (name : String) (expected : UInt32) (argc : Nat) :
    Keeps (checkArity name expected argc) := .ite (.pure _) (.throw _)

theorem keeps_copyBack (inner outer : Nat) (completion : Completion) :
    Keeps (copyBack inner outer completion) := by
  rcases completion with _ | (_ | _) | _ <;>
    first | exact (keeps_load _).bind fun _ => keeps_store _ _ | exact .pure _

namespace Follows

theorem ending {x y : Eval (Env × Completion)} (h : Follows x y) : Follows (ending x) (ending y) :=
  h.bind fun _ => .pure _

theorem whileRound {test test' : Eval Bool} {body body' : Eval Completion} (ht : Follows test test')
    (hb : Follows body body') (u : Unit) :
    Follows (whileRound test body u) (whileRound test' body' u) :=
  ht.bind fun _ => .ite (hb.bind fun _ => .pure _) (.pure _)

theorem forInRound {body body' : Nat → Eval Completion} (hb : ∀ p, Follows (body p) (body' p))
    (r : Range) : Follows (forInRound body r) (forInRound body' r) :=
  .ite ((keeps_allocate _).bind fun p => (hb p).bind fun _ => .pure _) (.pure _)

theorem forRound {outer : Nat} {update update' : Eval Unit} {test test' : Eval Bool}
    {body body' : Nat → Eval Completion} (hu : Follows update update') (ht : Follows test test')
    (hb : ∀ p, Follows (body p) (body' p)) (first : Bool) :
    Follows (forRound outer update test body first) (forRound outer update' test' body' first) := by
  refine Follows.bind (x := bif first then Pure.pure () else update)
    (y := bif first then Pure.pure () else update') ?_ fun _ => ht.bind fun _ => .ite
    ((keeps_load _).bind fun _ => (keeps_allocate _).bind fun p => (hb p).bind fun _ =>
      (keeps_copyBack _ _ _).bind fun _ => .pure _) (.pure _)
  cases first with
  | true => exact .pure _
  | false => exact hu

/-- What changes nothing can be left out. -/
theorem stripped {x y : Eval β} {r : α} {a b idle : Bool} (h : Follows x y) (hab : a = true → b = true)
    (hidle : idle = true → ∀ w, (∃ v, x w = .ok v w) ∨ Misses (x w)) :
    Follows (if a && idle then Pure.pure r else do let _ ← x; Pure.pure r)
      (if b && idle then Pure.pure r else do let _ ← y; Pure.pure r) := by
  have hall := h.bind fun _ => Follows.pure r
  cases idle with
  | false =>
    rw [Bool.and_false, Bool.and_false]
    exact hall
  | true =>
    rw [Bool.and_true, Bool.and_true]
    cases a with
    | true =>
      rw [hab rfl]
      exact .pure r
    | false =>
      cases b with
      | false => exact hall
      | true =>
        refine ⟨hall.keeps, fun w => ?_⟩
        show EStateM.pure r w = EStateM.bind x _ w ∨ Misses (EStateM.bind x _ w)
        unfold EStateM.bind
        rcases hidle rfl w with ⟨v, hv⟩ | ⟨stop, w', he, hstop⟩
        · rw [hv]
          exact .inl rfl
        · rw [he]
          exact .inr ⟨stop, w', rfl, hstop⟩

end Follows

/-! ## Programs -/

section Programs

variable (s : Setting)

theorem keeps_missing (name : String) : Keeps (missing s name : Eval α) := by
  unfold missing
  split <;> exact .throw _

theorem names_assignGlobal (name : String) (v : Val) (globals : List (String × Val)) :
    (assignGlobal name v globals).map Prod.fst = globals.map Prod.fst := by
  unfold assignGlobal
  rw [List.map_map]
  refine List.map_congr_left fun g _ => ?_
  show (if g.1 = name then (name, v) else g).1 = g.1
  split
  · exact Eq.symm ‹_›
  · rfl

theorem keeps_readGlobal (name : String) : Keeps (readGlobal s name) := by
  refine keeps_iff.2 fun w a w' h => ?_
  unfold readGlobal at h
  split at h
  · cases h
    rfl
  · exact (keeps_missing s name).keeps w a w' h

theorem keeps_writeGlobal (name : String) (v : Val) : Keeps (writeGlobal s name v) := by
  refine keeps_iff.2 fun w a w' h => ?_
  unfold writeGlobal at h
  split at h
  · cases h
    exact names_assignGlobal name v w.globals
  · exact (keeps_missing s name).keeps w a w' h

theorem keeps_read (env : Env) (name : String) : Keeps (read s env name) := by
  unfold read
  split
  · exact keeps_load _
  · exact keeps_readGlobal s name

theorem keeps_write (env : Env) (name : String) (v : Val) : Keeps (write s env name v) := by
  unfold write
  split
  · exact keeps_store _ _
  · exact keeps_writeGlobal s name v

theorem keeps_callHost (native : Native) (arguments : List Val) :
    Keeps (callHost s native arguments) := by
  have hget : Keeps (get : Eval World) := keeps_iff.2 (by rintro w _ _ ⟨⟩; rfl)
  refine (keeps_checkArity _ _ _).bind fun _ => hget.bind fun _ => ?_
  refine Follows.bind (.modifyGet fun w => ?_) fun _ => ?_
  · show (if s.host.watches native then _ else w : World).globals = w.globals
    split <;> rfl
  · split
    · exact .pure _
    · exact .throw _

end Programs

section

variable {s : Setting} {b : Bool}

theorem missing_misses (name : String) (w : World) : Misses (missing s name w : EStateM.Result _ _ α) := by
  unfold missing
  cases s.globals.findIdx? (· = name) with
  | some slot => exact ⟨_, _, rfl, rfl⟩
  | none => exact ⟨_, _, rfl, rfl⟩

theorem expression_of_isIdle {e : Expr} (h : e.isIdle = true) (call : Val → List Val → Eval Val)
    (env : Env) (w : World) : (∃ v, expression s call env e w = .ok v w) ∨
      Misses (expression s call env e w) := by
  cases e with
  | literal l span => exact .inl ⟨_, rfl⟩
  | name id span =>
    show (∃ v, read s env id.name w = .ok v w) ∨ Misses (read s env id.name w)
    unfold read
    cases env.lookup id.name with
    | some place =>
      simp only [load]
      split
      · exact .inl ⟨_, rfl⟩
      · exact .inr ⟨_, _, rfl, rfl⟩
    | none =>
      simp only [readGlobal]
      split
      · exact .inl ⟨_, rfl⟩
      · exact .inr (missing_misses id.name w)
  | _ => cases h

theorem follows_apply {enter enter' : Lambda → Env → Eval Val}
    (h : ∀ code env, Follows (enter code env) (enter' code env)) (f : Val) (arguments : List Val) :
    Follows (apply s enter f arguments) (apply { s with strip := b } enter' f arguments) := by
  unfold apply
  split
  · exact (keeps_checkArity _ _ _).bind fun _ => h _ _
  · exact keeps_callHost s _ _
  · exact .throw _

variable {call call' : Val → List Val → Eval Val}

/-- Nothing is left out that is not left out with `b`, and the same holds in calls. -/
structure Omits (s : Setting) (b : Bool) (call call' : Val → List Val → Eval Val) : Prop where
  strip : s.strip = true → b = true
  call : ∀ f xs, Follows (call f xs) (call' f xs)

mutual

theorem follows_expression (h : Omits s b call call') (env : Env) : (e : Expr) →
    Follows (expression s call env e) (expression { s with strip := b } call' env e)
  | .literal .. => .pure _
  | .name id _ => keeps_read s env id.name
  | .binary _ left right _ => (follows_expression h env left).bind fun _ =>
    (follows_expression h env right).bind fun _ => keeps_compute _
  | .logical _ left right _ => (follows_expression h env left).bind fun _ =>
    (keeps_truth _ _).bind fun _ => .ite (.pure _)
      ((follows_expression h env right).bind fun _ => (keeps_truth _ _).bind fun _ => .pure _)
  | .unary _ operand _ => (follows_expression h env operand).bind fun _ => keeps_compute _
  | .assign target value _ => by
    cases target with
    | name id place =>
      exact (follows_expression h env value).bind fun _ =>
        (keeps_write s env id.name _).bind fun _ => .pure _
    | _ => exact .throw _
  | .call callee arguments _ => (follows_expression h env callee).bind fun _ =>
    (follows_expressions h env arguments).bind fun _ => h.call _ _
  | .member .. => .throw _
  | .range first last _ _ => (follows_expression h env first).bind fun _ =>
    (follows_expression h env last).bind fun _ => keeps_compute _
  | .arrow .. => keeps_close _ _
  | .lambda .. => keeps_close _ _

theorem follows_expressions (h : Omits s b call call') (env : Env) : (es : List Expr) →
    Follows (expressions s call env es) (expressions { s with strip := b } call' env es)
  | [] => .pure _
  | e :: es => (follows_expression h env e).bind fun _ =>
    (follows_expressions h env es).bind fun _ => .pure _

theorem follows_statement (h : Omits s b call call') (env : Env) : (st : Stmt) →
    Follows (statement s call env st) (statement { s with strip := b } call' env st)
  | .variable _ init _ => (follows_expression h env init).bind fun _ =>
    (keeps_allocate _).bind fun _ => .pure _
  | .function .. => ((keeps_allocate _).bind fun _ => (keeps_close _ _).bind fun _ =>
    (keeps_store _ _).bind fun _ => .pure _)
  | .record .. => .throw _
  | .expression e _ => (follows_expression h env e).stripped h.strip (expression_of_isIdle · call env)
  | .block body _ => (follows_statements h env body).bind fun _ => .pure _
  | .cond test consequent alternate _ => (follows_expression h env test).bind fun _ =>
    (keeps_truth _ _).bind fun b => Follows.bind (by
      cases b with
      | true => exact (follows_statement h env consequent).ending
      | false => exact follows_optionalStatement h env alternate) fun _ => .pure _
  | .while test body _ => (Follows.iterate (.whileRound
      ((follows_expression h env test).bind fun _ => (keeps_truth _ _))
      (follows_statement h env body).ending) _ _).bind fun _ => .pure _
  | .loop body _ => (Follows.iterate (.whileRound (.pure _) (follows_statement h env body).ending)
      _ _).bind fun _ => .pure _
  | .forIn id iterable body _ => (follows_expression h env iterable).bind fun _ =>
    (keeps_rangeOf _).bind fun _ => (Follows.iterate (.forInRound fun p =>
      (follows_statement h ((id.name, p) :: env) body).ending) _ _).bind fun _ => .pure _
  | .for id init test update body _ => (follows_expression h env init).bind fun _ =>
    (keeps_allocate _).bind fun p => (Follows.iterate (.forRound
      ((follows_optionalExpression h _ update).bind fun _ => .pure _) (follows_holds h _ test)
      fun q => (follows_statement h ((id.name, q) :: (id.name, p) :: env) body).ending)
        _ _).bind fun _ => .pure _
  | .return value _ => (follows_optionalExpression h env value).bind fun _ => .pure _
  | .exit .. => .pure _

theorem follows_statements (h : Omits s b call call') (env : Env) : (ss : List Stmt) →
    Follows (statements s call env ss) (statements { s with strip := b } call' env ss)
  | [] => .pure _
  | st :: ss => (follows_statement h env st).bind fun r => by
    split
    · exact follows_statements h r.1 ss
    · exact .pure _

theorem follows_optionalStatement (h : Omits s b call call') (env : Env) : (st : Option Stmt) →
    Follows (optionalStatement s call env st) (optionalStatement { s with strip := b } call' env st)
  | none => .pure _
  | some st => (follows_statement h env st).ending

theorem follows_optionalExpression (h : Omits s b call call') (env : Env) : (e : Option Expr) →
    Follows (optionalExpression s call env e) (optionalExpression { s with strip := b } call' env e)
  | none => .pure _
  | some e => (follows_expression h env e).bind fun _ => .pure _

theorem follows_holds (h : Omits s b call call') (env : Env) : (e : Option Expr) →
    Follows (holds s call env e) (holds { s with strip := b } call' env e)
  | none => .pure _
  | some e => (follows_expression h env e).bind fun _ => keeps_truth _ _

end

theorem follows_invoke (hb : s.strip = true → b = true) (frames : Nat) (f : Val) (arguments : List Val) :
    Follows (invoke s frames f arguments) (invoke { s with strip := b } frames f arguments) := by
  induction frames generalizing f arguments with
  | zero => exact follows_apply (fun _ _ => .throw _) f arguments
  | succ frames ih =>
    refine follows_apply (fun code env => (keeps_bindAll _ _).bind fun env' => ?_) f arguments
    cases code.body with
    | block body =>
      refine (follows_statements ⟨hb, ih⟩ env' body).bind fun completion => ?_
      split <;> exact .pure _
    | value e => exact follows_expression ⟨hb, ih⟩ env' e

end

section

variable (s : Setting) {call : Val → List Val → Eval Val}

theorem keeps_expression (hcall : ∀ f xs, Keeps (call f xs)) (env : Env) (e : Expr) :
    Keeps (expression s call env e) :=
  follows_expression (b := s.strip) ⟨id, hcall⟩ env e

theorem keeps_statement (hcall : ∀ f xs, Keeps (call f xs)) (env : Env) (st : Stmt) :
    Keeps (statement s call env st) :=
  follows_statement (b := s.strip) ⟨id, hcall⟩ env st

theorem keeps_invoke (frames : Nat) (f : Val) (arguments : List Val) :
    Keeps (invoke s frames f arguments) := follows_invoke (b := s.strip) id frames f arguments

end

end Keeping

end StackScript.Semantics
