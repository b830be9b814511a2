import StackScript.Proofs.Semantics.Loops

/-!
# All functions beside the evaluation

The code of a plain statement simulates its evaluation if the calls inside it do (`statementSim`),
and a call comes back with the result of the body. By induction on the number of calls that can
still be nested, all calls are simulated (`callSim_invoke`).
-/

namespace StackScript.Semantics.Pairing

open Lowering
open Fragment (Placed)

variable {A : Pairing} {S : A.Scene} {call : Val → List Val → Eval Val} {γ L : List Nat} {o : Nat}
  {st : List Value} {m : Machine} {w : World} {c : Context} {env : Env} {span : Span}

/-! ## Statements -/

theorem optionalSim (hcall : CallSim S call) (e : Option Expr) (h : Expr.isPlainOption e = true) :
    ∀ x ∈ e, ExpressionSim S call x := by
  rintro x rfl
  exact expressionSim hcall x h

mutual

theorem statementSim (hcall : CallSim S call) :
    (s : Stmt) → s.isPlain = true → StatementSim S call s
  | .variable id init span, h => statementSim_variable id (expressionSim hcall init h) h
  | .function id params body span, h => statementSim_function id params h
  | .record .., h => nomatch h
  | .expression e span, h => statementSim_expression (expressionSim hcall e h) h
  | .block body span, h => statementSim_block (statementsSim hcall body h) h
  | .cond test consequent alternate span, h => by
    obtain ⟨h₁, ha⟩ := (Bool.and_eq_true ..).mp h
    obtain ⟨ht, h₂⟩ := (Bool.and_eq_true ..).mp h₁
    obtain ⟨hc, -⟩ := (Bool.and_eq_true ..).mp h₂
    exact statementSim_cond (expressionSim hcall test ht) (statementSim hcall consequent hc)
      (branchSim hcall alternate ha) h
  | .while test body span, h => by
    obtain ⟨ht, h₁⟩ := (Bool.and_eq_true ..).mp h
    obtain ⟨hb, -⟩ := (Bool.and_eq_true ..).mp h₁
    exact statementSim_while (expressionSim hcall test ht) (statementSim hcall body hb) h
  | .loop body span, h => by
    obtain ⟨hb, -⟩ := (Bool.and_eq_true ..).mp h
    exact statementSim_loop (statementSim hcall body hb) h
  | .forIn id iterable body span, h => by
    obtain ⟨hi, hb⟩ := (Bool.and_eq_true ..).mp h
    exact statementSim_forIn id (expressionSim hcall iterable hi) (statementSim hcall body hb) h
  | .for id init test update body span, h => by
    obtain ⟨h₁, hb⟩ := (Bool.and_eq_true ..).mp h
    obtain ⟨h₂, hu⟩ := (Bool.and_eq_true ..).mp h₁
    obtain ⟨hi, ht⟩ := (Bool.and_eq_true ..).mp h₂
    exact statementSim_for id (expressionSim hcall init hi) (optionalSim hcall test ht)
      (optionalSim hcall update hu) (statementSim hcall body hb) h
  | .return value span, h => statementSim_return (optionalSim hcall value h)
  | .exit how span, _ => statementSim_exit how

theorem statementsSim (hcall : CallSim S call) :
    (ss : List Stmt) → Stmt.arePlain ss = true → StatementsSim S call ss
  | [], _ => statementsSim_nil
  | s :: ss, h => by
    obtain ⟨hs, hss⟩ := (Bool.and_eq_true ..).mp h
    exact statementsSim_cons (statementSim hcall s hs) (statementsSim hcall ss hss) hs

theorem branchSim (hcall : CallSim S call) : (s : Option Stmt) → Stmt.isPlainBranch s = true →
    ∀ x ∈ s, StatementSim S call x
  | none, _ => nofun
  | some s, h => by
    obtain ⟨hs, -⟩ := (Bool.and_eq_true ..).mp h
    rintro x ⟨⟩
    exact statementSim hcall s hs

end

/-! ## Bodies -/

section Bodies

variable {code : Lambda} {g : Function Value} {refs : List CellRef}
  {hL : L.length ≤ (S.callers.length + 1) * A.limit} {hd : S.callers.length + 1 < Machine.maxFrames}

/-- The beginning of the body of a function, behind the parameters. -/
def Lambda.start (code : Lambda) (c : Context) : Context :=
  (declareParams code.params (c.inside "")).2

theorem fit_callee (h : A.Compiled code g c span) :
    Fit (S.callee ⟨g, refs⟩ (code.compiled A.strip span c).2 env L o st hL hd) code.body.size
      (Lambda.start code c) (code.compiled A.strip span c).2 := by
  have hbegin : Fit (S.callee ⟨g, refs⟩ (code.compiled A.strip span c).2 env L o st hL hd)
      (code.params.length + code.body.size) (c.inside "") (code.compiled A.strip span c).2 := by
    refine ⟨h.clean, h.room, ⟨by simp [Context.inside], h.linked⟩, ⟨_, List.prefix_refl _, ?_⟩,
      List.prefix_refl _, (Context.Step.refl _).enclosing, h.names, bounded_inside c ""⟩
    have := h.loads.constants
    rwa [Lambda.constant, Fragment.constants_toChunk] at this
  refine (hbegin.parts (evolves_declareParams code.params)
    (fun _ => code.body.evolves_lower A.strip span) fun hclean => ⟨?_, ?_⟩).2
  · exact congrArg Globals.names (adds_declareParams hclean).globals
  · exact (bounded_declareParams hclean).1

theorem placed_callee (h : A.Compiled code g c span) : Placed g.chunk.code 0
    (returning (code.compiled A.strip span c).1 span) := by
  rw [h.loads.code]
  exact Fragment.placed_toChunk h.near _ _

/-- The body of a function ends with a return. -/
theorem sim_result {S : A.Scene} (hcall : CallSim S call) (hc : A.Compiled code g c span)
    (hf : Fit S code.body.size (Lambda.start code c) (code.compiled A.strip span c).2)
    (hp : Placed S.code 0 (returning (code.compiled A.strip span c).1 span))
    (hs : Scoped S L (Lambda.start code c) env) (h : State S γ L 0 st m w) :
    A.Sim A.setting.rounds m (Leaving S γ L st) (code.body.result A.setting call env w) := by
  have hclean : (Lambda.start code c).Clean :=
    (code.body.evolves_lower A.strip span).clean _ hf.clean
  have hinside : S.enclosing ≠ [] := by
    refine hf.enclosing_ne_nil ((code.body.evolves_lower A.strip span).step _ hf.clean) ?_
    have := ((evolves_declareParams code.params).step (c.inside "") hclean).enclosing.length_eq
    exact List.ne_nil_of_length_eq_add_one this.symm
  obtain ⟨name, params, body⟩ := code
  cases body with
  | value e =>
    have hends : (Lambda.compiled ⟨name, params, .value e⟩ A.strip span c).1.endsInReturn :=
      endsInReturn_append (List.cons_ne_nil _ _)
    rw [returning, if_pos hends] at hp
    refine (expressionSim hcall e hc.plain γ L 0 st m w _ env hf hp.left hs h).mono ?_
    rintro x w₁ m₁ ⟨γ₁, v, hγ₁, hx, h₁⟩
    exact (h₁.returns hx hp.right hinside).mono hγ₁ (List.prefix_refl _) (List.suffix_refl _)
  | block body =>
    set start := Lambda.start ⟨name, params, .block body⟩ c
    set r := Lowering.statements A.strip none body start with hr
    replace hp : Placed S.code 0 (returning r.1 span) := hp
    have hplaced : Placed S.code 0 r.1 := by
      unfold returning at hp
      split at hp
      · exact hp
      · exact hp.left
    have hmay : MayDeclare none start :=
      ⟨(bounded_declareParams hclean).2, (by rintro _ ⟨⟩)⟩
    have hlinked : Placed S.code 0 (Fragment.linkFrom 0 r.1) := by
      rwa [hr, gives_closed_statements A.strip body start 0]
    have hbody := statementsSim hcall body hc.plain none γ L 0 0 st m w start env hf hlinked hs (by rintro _ ⟨⟩)
      hmay h
    refine Sim.bind hbody fun completion w₁ m₁ h₁ => ?_
    cases completion with
    | normal =>
      obtain ⟨env', L', hL', hends, -, γ', hγ', h'⟩ := h₁
      replace hends : r.1.endsInReturn = false := hends
      rw [returning, hends, if_neg Bool.false_ne_true] at hp
      exact Sim.pure ((h'.returns_void hp.right hinside).mono hγ' hL' (List.suffix_refl _))
    | exit how =>
      obtain ⟨t, -, ht, -⟩ := h₁
      cases ht
    | «return» x => exact Sim.pure h₁

end Bodies

/-! ## Calls -/

theorem callSim_invoke (frames : Nat) (S : A.Scene)
    (hframes : S.callers.length + 1 + frames = Machine.maxFrames) :
    CallSim S (invoke A.setting frames) := by
  induction frames generalizing S with
  | zero =>
    intro γ L o st span m w v f vs xs h hm hv _ hn hp
    refine h.applies hm hv hn hp ?_
    rintro key code env g refs c place rfl hc - hlen
    exact h.overflows hc hlen hn hp (by omega)
  | succ frames ih =>
    intro γ L o st span m w v f vs xs h hm hv hL hn hp
    refine h.applies hm hv hn hp ?_
    rintro key code env g refs c place rfl hc hr hlen
    have hd : S.callers.length + 1 < Machine.maxFrames := by omega
    set S' := S.callee ⟨g, refs⟩ (code.compiled A.strip place c).2 env L (o + 5) st hL hd
    obtain ⟨L', env', w', hbind, hL', hs', hgoes⟩ := h.enters hm hc hr hv hlen hn hp hL hd
    refine Sim.bind_of_ok hbind (Sim.of_goes hgoes fun m₁ h₁ => ?_)
    have hcall : CallSim S' (invoke A.setting frames) := ih S' (by
      show S.callers.length + 1 + 1 + frames = _
      omega)
    have hresult := sim_result hcall hc (fit_callee hc) (placed_callee hc) hs' h₁
    refine hresult.forward ?_
    rintro x w₂ m₂ ⟨-, γ', L₂, o', st', u, m₃, hγ', hL₂, hst', hx, hstep, h₃⟩
    obtain ⟨m₄, hleave, h₄⟩ := h₃.leaves (h.captured.mono hγ') (hL'.trans hL₂) hst'
    exact Moves.goes ⟨m₄, hstep.trans hleave, .refl ⟨γ', u, hγ', hx, h₄⟩⟩

end StackScript.Semantics.Pairing
