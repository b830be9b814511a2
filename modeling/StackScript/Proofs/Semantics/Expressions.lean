import StackScript.Proofs.Lowering.Linking
import StackScript.Proofs.Semantics.Calls

/-!
# Expressions beside the evaluation

The code for an expression leaves the value of the expression on the stack, and everything else as
the evaluation does. This is shown by induction on the expression, within a scene whose calls are
simulated.
-/

namespace StackScript.Semantics.Pairing

open Lowering
open Fragment (emit Placed size_append)

variable {A : Pairing} {span : Span}

section

variable (S : A.Scene) (call : Val → List Val → Eval Val)

/-- The machine simulates the evaluation of the expression. -/
def ExpressionSim (e : Expr) : Prop :=
  ∀ γ L o st m w c env, Fit S e.size c (Lowering.expression A.strip e c).2 →
    Placed S.code o (Lowering.expression A.strip e c).1 → Scoped S L c env →
    State S γ L o st m w → A.Sim A.setting.rounds m
      (Yields S γ L (o + (Lowering.expression A.strip e c).1.size) st)
      (expression A.setting call env e w)

/-- The machine simulates the evaluation of the expressions. -/
def ExpressionsSim (es : List Expr) : Prop :=
  ∀ γ L o st m w c env, Fit S (Expr.sizes es) c (Lowering.expressions A.strip es c).2 →
    Placed S.code o (Lowering.expressions A.strip es c).1 → Scoped S L c env →
    State S γ L o st m w → A.Sim A.setting.rounds m
      (fun xs w' m' => ∃ γ' vs, γ <+: γ' ∧ vs.length = es.length ∧
        List.Forall₂ (A.Matches γ') vs xs ∧
        State S γ' L (o + (Lowering.expressions A.strip es c).1.size) (vs.reverse ++ st) m' w')
      (expressions A.setting call env es w)

end

variable {S : A.Scene} {call : Val → List Val → Eval Val}

theorem expressionSim_literal (l : Literal) : ExpressionSim S call (.literal l span) := by
  intro γ L o st m w c env hf hp _ h
  exact Sim.of_goes (h.literal hf hp) fun m' h' =>
    Sim.pure (h'.yields (matches_scalar (isScalar_valueOf l)))

theorem expressionSim_name (id : Ident) : ExpressionSim S call (.name id span) := by
  intro γ L o st m w c env hf hp hs h
  obtain ⟨b, hb, he⟩ := expression_name hf.clean
  rw [he] at hf hp ⊢
  exact h.gets (finds_resolve hs h.captured hf hb) hp

theorem expressionSim_operands {e left right : Expr} {i : Instruction}
    {f : Value → Value → Except Fault Value} (hl : ExpressionSim S call left)
    (hr : ExpressionSim S call right) (hpl : left.isPlain = true)
    (hsize : left.size + right.size ≤ e.size)
    (hcode : Lowering.expression A.strip e = Lowering.expression A.strip left >>= fun l =>
      Lowering.expression A.strip right >>= fun r => pure (l ++ r ++ emit i span))
    (heval : ∀ env, expression A.setting call env e = expression A.setting call env left >>= fun x =>
      expression A.setting call env right >>= fun y => compute (f x.view y.view))
    (hi : ∀ {γ L o st m w v u x y}, State S γ L o (u :: v :: st) m w → Placed S.code o (emit i span) →
      A.Matches γ v x → A.Matches γ u y → A.Sim A.setting.rounds m
        (Yields S γ L (o + (emit i span).size) st) (compute (f x.view y.view) w)) :
    ExpressionSim S call e := by
  intro γ L o st m w c env hf hp hs h
  rw [hcode] at hf hp ⊢
  rw [heval]
  obtain ⟨hf₁, hf₂, hadds⟩ := Fit.split (evolves_expression A.strip left)
    (stays_expression A.strip left hpl)
    (fun _ => (evolves_expression A.strip right).andReturn _) (hf.mono hsize)
  set a := Lowering.expression A.strip left c
  set b := Lowering.expression A.strip right a.2
  change Placed S.code o (a.1 ++ b.1 ++ emit i span) at hp
  show A.Sim _ m (Yields S γ L (o + (a.1 ++ b.1 ++ emit i span).size) st) _
  simp only [size_append, ← Nat.add_assoc]
  refine Sim.bind (hl γ L o st m w c env hf₁ hp.left.left hs h) ?_
  rintro x w₁ m₁ ⟨γ₁, v, hγ₁, hx, h₁⟩
  refine Sim.bind (hr γ₁ L _ _ m₁ w₁ a.2 env hf₂ hp.left.right (hs.congr hadds) h₁) ?_
  rintro y w₂ m₂ ⟨γ₂, u, hγ₂, hy, h₂⟩
  have hp₃ := hp.right
  rw [size_append, ← Nat.add_assoc] at hp₃
  exact (hi h₂ hp₃ (hx.mono hγ₂) hy).mono fun _ _ _ hq => hq.mono (hγ₁.trans hγ₂)

theorem expressionSim_binary {left right : Expr} (op : BinaryOp) (hl : ExpressionSim S call left)
    (hr : ExpressionSim S call right) (hpl : left.isPlain = true) :
    ExpressionSim S call (.binary op left right span) :=
  expressionSim_operands hl hr hpl (Nat.le_succ _) rfl (fun _ => rfl) State.binary

theorem expressionSim_range {first last : Expr} (inclusive : Bool) (hl : ExpressionSim S call first)
    (hr : ExpressionSim S call last) (hpl : first.isPlain = true) :
    ExpressionSim S call (.range first last inclusive span) :=
  expressionSim_operands hl hr hpl (Nat.le_succ _) rfl (fun _ => rfl) State.range

theorem expressionSim_unary {operand : Expr} (op : UnaryOp) (ho : ExpressionSim S call operand) :
    ExpressionSim S call (.unary op operand span) := by
  intro γ L o st m w c env hf hp hs h
  have hcode : (Lowering.expression A.strip (.unary op operand span) c).1 =
      (Lowering.expression A.strip operand c).1 ++ emit (unaryInstruction op) span :=
    rfl
  rw [hcode] at hp ⊢
  simp only [size_append, ← Nat.add_assoc]
  refine Sim.bind (ho γ L o st m w c env (hf.mono (Nat.le_succ _)) hp.left hs h) ?_
  rintro x w₁ m₁ ⟨γ₁, v, hγ₁, hx, h₁⟩
  exact (h₁.unary hp.right hx).mono fun _ _ _ hq => hq.mono hγ₁

theorem expressionSim_logical {left right : Expr} (op : LogicalOp) (hl : ExpressionSim S call left)
    (hr : ExpressionSim S call right) (hpl : left.isPlain = true) :
    ExpressionSim S call (.logical op left right span) := by
  intro γ L o st m w c env hf hp hs h
  obtain ⟨hf₁, hf₂, hadds⟩ := Fit.split (evolves_expression A.strip left)
    (stays_expression A.strip left hpl)
    (fun _ => (evolves_expression A.strip right).andReturn _) (hf.mono (Nat.le_succ _))
  set a := Lowering.expression A.strip left c
  set b := Lowering.expression A.strip right a.2
  have hcode : (Lowering.expression A.strip (.logical op left right span) c).1 =
      a.1 ++ (.jump (shortcut op) (pop span ++ b.1).size span ::
        (pop span ++ b.1)) ++ emit ⟨.assertBool, ()⟩ span := rfl
  rw [hcode] at hp ⊢
  have hassert := hp.right
  have hrest := hp.left.right.tail
  have hsize : (pop span ++ b.1).size = 1 + b.1.size := by
    rw [size_append, size_pop]
  simp only [size_append, Fragment.size_cons, size_jump, size_pop] at hassert
  simp only [size_jump] at hrest
  have hend : o + (a.1 ++ (.jump (shortcut op) (pop span ++ b.1).size span ::
      (pop span ++ b.1)) ++ emit ⟨.assertBool, ()⟩ span).size =
      o + (a.1.size + (5 + (1 + b.1.size))) + 1 := by
    simp only [size_append, Fragment.size_cons, size_jump, size_pop]
    rfl
  rw [hend]
  refine Sim.bind (hl γ L o st m w c env hf₁ hp.left.left hs h) ?_
  rintro x w₁ m₁ ⟨γ₁, v, hγ₁, hx, h₁⟩
  refine Sim.bind (h₁.branches op hp.left.right hx) ?_
  rintro t w₂ m₂ ⟨rfl, h₂⟩
  by_cases ht : isDecided op t
  · rw [if_pos ht, hsize] at h₂
    simp only [if_pos ht]
    have h₃ := (show State S γ₁ L (o + (a.1.size + (5 + (1 + b.1.size)))) (.bool t :: st) m₂ w₂ by
      rwa [← Nat.add_assoc, ← Nat.add_assoc] ).asserts_bool hassert
    exact Sim.of_goes h₃ fun m₃ h₃ => Sim.pure ⟨γ₁, _, hγ₁, hx, h₃⟩
  · rw [if_neg ht] at h₂
    simp only [if_neg ht]
    refine Sim.of_goes (h₂.pops hrest.left) fun m₃ h₃ => ?_
    refine Sim.bind (hr γ₁ L _ _ m₃ w₂ a.2 env hf₂ hrest.right (hs.congr hadds) h₃) ?_
    rintro y w₄ m₄ ⟨γ₄, u, hγ₄, hy, h₄⟩
    have h₅ := (show State S γ₄ L (o + (a.1.size + (5 + (1 + b.1.size)))) (u :: st) m₄ w₄ by
      rwa [← Nat.add_assoc, ← Nat.add_assoc, ← Nat.add_assoc])
    refine Sim.bind (h₅.asserts hassert hy) fun _ w₆ m₆ h₆ => ?_
    exact Sim.pure ⟨γ₄, u, hγ₁.trans hγ₄, hy, h₆⟩

theorem expressionSim_assign {value : Expr} {place : Span} (id : Ident)
    (hv : ExpressionSim S call value) (hpv : value.isPlain = true) :
    ExpressionSim S call (.assign (.name id place) value span) := by
  intro γ L o st m w c env hf hp hs h
  obtain ⟨b, hb, he⟩ := expression_assign_name hf.clean
  have hfit : Fit S (value.size + 1) c
      ((Lowering.expression A.strip value >>= fun _ => resolve id) c).2 := by
    have hm := hf.mono (l := value.size + 1) (by simp only [Expr.size]; omega)
    rwa [he] at hm
  obtain ⟨hf₁, hf₂, hadds⟩ := hfit.split (evolves_expression A.strip value)
    (stays_expression A.strip value hpv) fun _ => evolves_resolve id
  rw [he] at hp ⊢
  simp only [size_append, ← Nat.add_assoc]
  refine Sim.bind (hv γ L o st m w c env hf₁ hp.left hs h) ?_
  rintro x w₁ m₁ ⟨γ₁, v, hγ₁, hx, h₁⟩
  have hfinds := finds_resolve (hs.congr hadds) h₁.captured hf₂ hb
  refine Sim.bind (h₁.sets hx hfinds hp.right) fun _ w₂ m₂ h₂ => ?_
  exact Sim.pure ⟨γ₁, v, hγ₁, hx, h₂⟩

theorem expressionSim_call {callee : Expr} {arguments : List Expr} (hcall : CallSim S call)
    (hn : ∀ object property place, callee ≠ .member object property place)
    (hc : ExpressionSim S call callee) (ha : ExpressionsSim S call arguments)
    (hpc : callee.isPlain = true) :
    ExpressionSim S call (.call callee arguments span) := by
  intro γ L o st m w c env hf hp hs h
  have he : Lowering.expression A.strip (.call callee arguments span) = do
      let code ← Lowering.expression A.strip callee
      let codes ← Lowering.expressions A.strip arguments
      return code ++ codes ++ emit ⟨.call, arguments.length.toUInt32⟩ span := by
    cases callee with
    | member object property place => exact absurd rfl (hn object property place)
    | _ => rfl
  rw [he] at hf hp ⊢
  have hL := hs.lt hf
  have hcount : arguments.length < 2 ^ 32 := by
    have := hf.room32.frame.constants
    have := Expr.length_le_sizes arguments
    simp only [Expr.size] at *
    omega
  obtain ⟨hf₁, hf₂, hadds⟩ := Fit.split (evolves_expression A.strip callee)
    (stays_expression A.strip callee hpc)
    (fun _ => (evolves_expressions A.strip arguments).andReturn _) (hf.mono (Nat.le_succ _))
  set a := Lowering.expression A.strip callee c
  set b := Lowering.expressions A.strip arguments a.2
  have hp' : Placed S.code o (a.1 ++ b.1 ++ emit ⟨.call, arguments.length.toUInt32⟩ span) := hp
  show A.Sim _ m (Yields S γ L
    (o + (a.1 ++ b.1 ++ emit ⟨.call, arguments.length.toUInt32⟩ span).size) st) _
  simp only [size_append, ← Nat.add_assoc]
  refine Sim.bind (hc γ L o st m w c env hf₁ hp'.left.left hs h) ?_
  rintro f w₁ m₁ ⟨γ₁, v, hγ₁, hv, h₁⟩
  refine Sim.bind (ha γ₁ L _ _ m₁ w₁ a.2 env hf₂ hp'.left.right (hs.congr hadds) h₁) ?_
  rintro xs w₂ m₂ ⟨γ₂, vs, hγ₂, hlen, hvs, h₂⟩
  have hp₃ := hp'.right
  rw [size_append, ← Nat.add_assoc, ← hlen] at hp₃
  have hq := hcall γ₂ L _ st span m₂ w₂ v f vs xs h₂ (hv.mono hγ₂) hvs (by omega) (hlen ▸ hcount) hp₃
  exact hq.mono fun _ _ _ hy => hy.mono (hγ₁.trans hγ₂)

theorem expressionsSim_nil : ExpressionsSim S call [] :=
  fun γ _ _ _ _ _ _ _ _ _ _ h => Sim.pure ⟨γ, [], List.prefix_refl _, rfl, .nil, h⟩

theorem expressionsSim_cons {e : Expr} {es : List Expr} (he : ExpressionSim S call e)
    (hes : ExpressionsSim S call es) (hpe : e.isPlain = true) : ExpressionsSim S call (e :: es) := by
  intro γ L o st m w c env hf hp hs h
  obtain ⟨hf₁, hf₂, hadds⟩ := Fit.split (evolves_expression A.strip e)
    (stays_expression A.strip e hpe)
    (fun _ => (evolves_expressions A.strip es).andReturn _) hf
  set a := Lowering.expression A.strip e c
  set b := Lowering.expressions A.strip es a.2
  have hcode : (Lowering.expressions A.strip (e :: es) c).1 = a.1 ++ b.1 := rfl
  rw [hcode] at hp ⊢
  simp only [size_append, ← Nat.add_assoc]
  refine Sim.bind (he γ L o st m w c env hf₁ hp.left hs h) ?_
  rintro x w₁ m₁ ⟨γ₁, v, hγ₁, hx, h₁⟩
  refine Sim.bind (hes γ₁ L _ _ m₁ w₁ a.2 env hf₂ hp.right (hs.congr hadds) h₁) ?_
  rintro xs w₂ m₂ ⟨γ₂, vs, hγ₂, hlen, hvs, h₂⟩
  refine Sim.pure ⟨γ₂, v :: vs, hγ₁.trans hγ₂, congrArg (· + 1) hlen, .cons (hx.mono hγ₂) hvs, ?_⟩
  rw [List.reverse_cons, List.append_assoc]
  exact h₂

mutual

theorem expressionSim (hcall : CallSim S call) :
    (e : Expr) → e.isPlain = true → ExpressionSim S call e
  | .literal l span, _ => expressionSim_literal l
  | .name id span, _ => expressionSim_name id
  | .binary op left right span, h => by
    obtain ⟨hl, hr⟩ := (Bool.and_eq_true ..).mp h
    exact expressionSim_binary op (expressionSim hcall left hl) (expressionSim hcall right hr) hl
  | .logical op left right span, h => by
    obtain ⟨hl, hr⟩ := (Bool.and_eq_true ..).mp h
    exact expressionSim_logical op (expressionSim hcall left hl) (expressionSim hcall right hr) hl
  | .unary op operand span, h => expressionSim_unary op (expressionSim hcall operand h)
  | .assign target value span, h => by
    obtain ⟨ht, hv⟩ := (Bool.and_eq_true ..).mp h
    have hvalue := expressionSim hcall value hv
    cases target with
    | name id place => exact expressionSim_assign id hvalue hv
    | member object property place => cases ht
    | _ =>
      intro γ L o st m w c env hf
      exact absurd ((evolves_expression A.strip value).clean _ hf.clean)
        (not_clean_report _ _ c)
  | .call callee arguments span, h => by
    obtain ⟨hc, ha⟩ := (Bool.and_eq_true ..).mp h
    refine expressionSim_call hcall ?_ (expressionSim hcall callee hc)
      (expressionsSim hcall arguments ha) hc
    rintro object property place rfl
    cases hc
  | .member object property span, h => nomatch h
  | .range first last inclusive span, h => by
    obtain ⟨hf, hl⟩ := (Bool.and_eq_true ..).mp h
    exact expressionSim_range inclusive (expressionSim hcall first hf) (expressionSim hcall last hl) hf
  | .arrow params body span, h => fun _ _ _ _ _ _ _ _ hf hp hs hstate =>
    hstate.closes ⟨lambdaName, params, .value body⟩ hf hp hs h
  | .lambda params body span, h => fun _ _ _ _ _ _ _ _ hf hp hs hstate =>
    hstate.closes ⟨lambdaName, params, .block body⟩ hf hp hs h

theorem expressionsSim (hcall : CallSim S call) :
    (es : List Expr) → Expr.arePlain es = true → ExpressionsSim S call es
  | [], _ => expressionsSim_nil
  | e :: es, h => by
    obtain ⟨he, hes⟩ := (Bool.and_eq_true ..).mp h
    exact expressionsSim_cons (expressionSim hcall e he) (expressionsSim hcall es hes) he

end

end StackScript.Semantics.Pairing
