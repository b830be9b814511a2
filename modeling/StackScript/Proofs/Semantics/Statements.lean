import StackScript.Proofs.Lowering.Landing
import StackScript.Proofs.Semantics.Completion

/-!
# Statements beside the evaluation

The code of a statement ends where the evaluation of the statement ends: behind itself, at the head of
the loop around it, or with a return. Here are all statements but loops.
-/

namespace StackScript.Lowering

section

variable {strip : Bool} {e : Expr} (loop : Option Loop) (span : Span) (c : Context)

/-- Statements without effect are left out. -/
theorem statement_expression_of_idle (h : (strip && e.isIdle) = true) :
    (statement strip loop (.expression e span) c).1 = [] := by
  obtain ⟨rfl, he⟩ := (Bool.and_eq_true ..).mp h
  cases e with
  | literal l place => rfl
  | name id place =>
    rw [statement, bind_apply]
    cases (resolve id c).1 <;> rfl
  | _ => cases he

theorem statement_expression_of_not_idle (h : (strip && e.isIdle) = false) :
    statement strip loop (.expression e span) c =
      ((expression strip e c).1 ++ pop span, (expression strip e c).2) := by
  cases e with
  | literal l place =>
    obtain rfl : strip = false := by simpa [Expr.isIdle] using h
    rfl
  | name id place =>
    obtain rfl : strip = false := by simpa [Expr.isIdle] using h
    rw [statement, expression, bind_apply, bind_apply]
    cases (resolve id c).1 <;> rfl
  | _ => rfl

end

end StackScript.Lowering

namespace StackScript.Semantics.Pairing

open Lowering
open Fragment (emit Placed linkFrom closed_emit size_append)

variable {A : Pairing} {span : Span}

section

variable (S : A.Scene) (call : Val → List Val → Eval Val)

/-- The machine simulates the statement. -/
def StatementSim (s : Stmt) : Prop :=
  ∀ (T : Option Target) γ L o off st m w c env,
    Fit S s.size c (Lowering.statement A.strip (T.map Target.loop) s c).2 →
    Placed S.code o (linkFrom off (Lowering.statement A.strip (T.map Target.loop) s c).1) →
    Scoped S L c env → (∀ t ∈ T, t.Aims S L c o off) → (s.isDeclaration = true → MayDeclare T c) →
    State S γ L o st m w → A.Sim A.setting.rounds m
      (fun a => Completes S γ L st T
        (Behind S γ L o st (Lowering.statement A.strip (T.map Target.loop) s c).1
          (Lowering.statement A.strip (T.map Target.loop) s c).2 a.1) a.2)
      (statement A.setting call env s w)

/-- The machine simulates the statements. -/
def StatementsSim (ss : List Stmt) : Prop :=
  ∀ (T : Option Target) γ L o off st m w c env,
    Fit S (Stmt.sizes ss) c (Lowering.statements A.strip (T.map Target.loop) ss c).2 →
    Placed S.code o (linkFrom off (Lowering.statements A.strip (T.map Target.loop) ss c).1) →
    Scoped S L c env → (∀ t ∈ T, t.Aims S L c o off) → MayDeclare T c →
    State S γ L o st m w → A.Sim A.setting.rounds m
      (Completes S γ L st T fun w' m' => ∃ env',
        Behind S γ L o st (Lowering.statements A.strip (T.map Target.loop) ss c).1
          (Lowering.statements A.strip (T.map Target.loop) ss c).2 env' w' m')
      (statements A.setting call env ss w)

end

variable {S : A.Scene} {call : Val → List Val → Eval Val} {γ γ' L L' : List Nat} {o off : Nat}
  {st : List Value} {m : Machine} {w : World} {c c' : Context} {env : Env}

theorem Completes.goes {T : Option Target} {N N' : World → Machine → Prop} {completion : Completion}
    (h : Completes S γ' L' st T N completion w m) (hγ : γ <+: γ') (hL : L <+: L')
    (hkeep : ∀ t ∈ T, t.keep ≤ L.length) (hN : ∀ m, N w m → A.Goes m (N' w)) :
    A.Goes m (Completes S γ L st T N' completion w) := by
  cases completion with
  | normal => exact hN m h
  | exit how => exact .refl (h.mono (N := fun _ _ => False) hγ hL hkeep nofun)
  | «return» x => exact .refl (h.mono (N := fun _ _ => False) hγ hL hkeep nofun)

/-! ## Declarations -/

theorem statementSim_variable {init : Expr} (id : Ident) (hi : ExpressionSim S call init)
    (hpi : init.isPlain = true) : StatementSim S call (.variable id init span) := by
  intro T γ L o off st m w c env hf hp hs _ hd h
  obtain ⟨hf₁, hf₂, hadds⟩ := Fit.split (evolves_expression A.strip init)
    (stays_expression A.strip init hpi)
    (fun _ => (evolves_declare id).andReturn _) hf
  set a := Lowering.expression A.strip init c
  have htop : a.2.isTop = false := by
    rw [hadds.isTop ((evolves_expression A.strip init).step c hf₁.clean)]
    exact (hd rfl).1
  have hdeclare := declare_of_clean htop hf₂.clean
  have hcode : Lowering.statement A.strip (T.map Target.loop) (.variable id init span) c =
      (a.1 ++ emit ⟨.defLocal, ()⟩ span, (addLocal id.name a.2).2) := by
    show (a.1 ++ define (declare id a.2).1 span, (declare id a.2).2) = _
    rw [hdeclare]
    rfl
  have hclosed : a.1.Closed := gives_closed_expression A.strip init c
  rw [hcode] at hp ⊢
  have hpl := (hclosed.append (closed_emit _ _)).placed hp
  refine Sim.bind (hi γ L o st m w c env hf₁ hpl.left hs h) ?_
  rintro x w₁ m₁ ⟨γ₁, v, hγ₁, hx, h₁⟩
  refine Sim.of_goes (h₁.defines_local hx hpl.right) fun m₂ h₂ => ?_
  refine Sim.bind_of_ok (rfl : allocate x w₁ = .ok w₁.places.length _) (Sim.pure ?_)
  refine ⟨L ++ [w₁.places.length], List.prefix_append _ _,
    endsInReturn_append (List.cons_ne_nil _ _), (hs.congr hadds).declare _ _, γ₁, hγ₁, ?_⟩
  rw [size_append, ← Nat.add_assoc]
  exact h₂

theorem Poised.stores_reserved {p : Nat} {v : Value} {x : Val} (h : Poised S γ (L ++ [p]) o st m w)
    (hsize : m.locals.size = L.length) (hv : A.Matches γ v x) :
    Poised S γ (L ++ [p]) o st m { w with places := w.places.set p x } := by
  have hlast : (L ++ [p])[m.locals.size]? = some p := by simp [hsize]
  have hrel := h.rel.assign hlast hv
  rw [Array.setIfInBounds_eq_of_size_le (Nat.le_refl _)] at hrel
  exact { h with rel := hrel }

theorem statementSim_function {body : List Stmt} (id : Ident) (params : List Ident)
    (hpb : Stmt.arePlain body = true) : StatementSim S call (.function id params body span) := by
  intro T γ L o off st m w c env hf hp hs _ hd h
  have htop := (hd rfl).1
  have he : Lowering.statement A.strip (T.map Target.loop) (.function id params body span) c =
    _ := statement_function_of_not_top htop
  set code : Lambda := ⟨id.name, params, .block body⟩
  have hev : Evolves (params.length + Stmt.sizes body + 2) (code.lower A.strip span) :=
    evolves_function (evolves_statements A.strip none body)
  have hfit : Fit S (1 + (params.length + Stmt.sizes body + 2)) c
      ((declare id >>= fun _ => code.lower A.strip span) c).2 := by
    have hm := hf.mono (l := 1 + (params.length + Stmt.sizes body + 2))
      (by simp only [Stmt.size]; omega)
    rwa [he] at hm
  have hdeclare := declare_of_clean htop (hev.clean _ hfit.clean)
  have hadds := adds_addLocal id.name c
  obtain ⟨-, hf₂⟩ := hfit.parts (evolves_declare id) (fun _ => hev) fun _ => by
    rw [hdeclare]
    exact ⟨rfl, hadds.bounded hf.bounded (by simp)⟩
  rw [hdeclare] at hf₂
  set c₁ := (addLocal id.name c).2
  have hresult : Lowering.statement A.strip (T.map Target.loop)
      (.function id params body span) c =
      ((code.lower A.strip span c₁).1 ++ emit ⟨.defLocal, ()⟩ span,
        (code.lower A.strip span c₁).2) := by
    rw [he]
    show ((code.lower A.strip span (declare id c).2).1 ++
      define (declare id c).1 span,
      (code.lower A.strip span (declare id c).2).2) = _
    rw [hdeclare]
    rfl
  rw [hresult] at hp ⊢
  have hclosed : (code.lower A.strip span c₁).1.Closed :=
    gives_closed_function _ _ _ _ _ c₁
  have hpl := (hclosed.append (closed_emit _ _)).placed hp
  have hlt := hs.lt_word hf
  -- The place comes first: the function can see itself before the machine has its local.
  set p := w.places.length with hplace
  have hscoped : Scoped S (L ++ [p]) c₁ ((id.name, p) :: env) := hs.declare _ _
  have hpoised : Poised S γ (L ++ [p]) o st m { w with places := w.places ++ [.datum .nil] } :=
    { h with rel := h.rel.reserve h.size _ }
  have hstays : Stays (code.lower A.strip span) :=
    (statementsAdd A.strip body hpb).function
  refine Sim.bind_of_ok (rfl : allocate (.datum .nil) w = .ok p _) ?_
  have hgoes := hpoised.closes hf₂ hpl.left hscoped
    (by rw [List.length_append, List.length_singleton]; omega) hpb
  refine Sim.of_goes hgoes ?_
  rintro m₁ ⟨γ₁, v, hγ₁, hv, h₁, hsize⟩
  refine Sim.bind_of_ok (rfl : close code _ _ = .ok _ _) ?_
  refine Sim.bind_of_ok (rfl : store p _ _ = .ok () _) ?_
  refine Sim.of_goes ((h₁.stores_reserved (hsize.trans h.size) hv).defines_local
    (hsize.trans h.size) ?_ hv hpl.right) fun m₂ h₂ => Sim.pure ?_
  · simp [hplace]
  · refine ⟨L ++ [p], List.prefix_append _ _,
      endsInReturn_append (List.cons_ne_nil _ _), hscoped.congr (hstays c₁ hf₂.clean),
      γ₁, hγ₁, ?_⟩
    rw [size_append, ← Nat.add_assoc]
    exact h₂

/-! ## Expressions -/

theorem behind_of_state {code : Fragment} (hs : Scoped S L c env) (hγ : γ <+: γ')
    (hc : c.Adds [] c') (hr : code.endsInReturn = false)
    (h : State S γ' L (o + code.size) st m w) : Behind S γ L o st code c' env w m :=
  ⟨L, List.prefix_refl _, hr, hs.congr hc, γ', hγ, h⟩

/-- Code for an expression and a pop behind it. -/
theorem sim_dropped {x : Lower Fragment} {e : Expr} {T : Option Target}
    (hx : A.Sim A.setting.rounds m (Yields S γ L (o + (x c).1.size) st)
      (expression A.setting call env e w))
    (hp : Placed S.code (o + (x c).1.size) (Lowering.pop span)) (hs : Scoped S L c env)
    (hc : c.Adds [] c') :
    A.Sim A.setting.rounds m
      (fun a => Completes S γ L st T (Behind S γ L o st ((x c).1 ++ Lowering.pop span) c' a.1) a.2)
      ((expression A.setting call env e >>= fun _ => pure (env, .normal) : Eval _) w) := by
  refine Sim.bind hx ?_
  rintro y w₁ m₁ ⟨γ₁, v, hγ₁, -, h₁⟩
  refine Sim.of_goes (h₁.pops hp) fun m₂ h₂ => Sim.pure ?_
  refine behind_of_state hs hγ₁ hc (endsInReturn_append_pop _ span) ?_
  rw [size_append, ← Nat.add_assoc]
  exact h₂

theorem statementSim_expression {e : Expr} (he : ExpressionSim S call e) (hpe : e.isPlain = true) :
    StatementSim S call (.expression e span) := by
  intro T γ L o off st m w c env hf hp hs _ _ h
  have hadds := statementAdds A.strip (.expression e span) hpe _ c hf.clean
    hf.bounded nofun
  have heval : statement A.setting call env (.expression e span) =
      if A.strip && e.isIdle then pure (env, .normal)
      else expression A.setting call env e >>= fun _ => pure (env, .normal) := rfl
  rw [heval]
  by_cases hidle : (A.strip && e.isIdle) = true
  · rw [if_pos hidle]
    have hnone := Lowering.statement_expression_of_idle (T.map Target.loop) span c hidle
    refine Sim.pure (behind_of_state hs (List.prefix_refl _) hadds ?_ ?_)
    · rw [hnone]
      rfl
    · rw [hnone]
      exact h
  · rw [if_neg hidle]
    have hcode := Lowering.statement_expression_of_not_idle (T.map Target.loop) span c
      (Bool.not_eq_true _ ▸ hidle)
    rw [hcode] at hf hp hadds ⊢
    have hpl := ((gives_closed_expression A.strip e c).append
      (closed_emit _ _)).placed hp
    exact sim_dropped (he γ L o st m w c env (hf.mono (Nat.le_succ _)) hpl.left hs h) hpl.right hs hadds

theorem statementsSim_nil : StatementsSim S call [] := by
  intro T γ L o off st m w c env hf hp hs _ _ h
  exact Sim.pure ⟨env, behind_of_state hs (List.prefix_refl _) (.refl c) rfl h⟩

theorem statementsSim_cons {s : Stmt} {ss : List Stmt} (hs : StatementSim S call s)
    (hss : StatementsSim S call ss) (hps : s.isPlain = true) : StatementsSim S call (s :: ss) := by
  intro T γ L o off st m w c env hf hp hscoped ha hd h
  set loop := T.map Target.loop
  set a := Lowering.statement A.strip loop s c
  set b := Lowering.statements A.strip loop ss a.2
  have hcode : Lowering.statements A.strip loop (s :: ss) c = (a.1 ++ b.1, b.2) := rfl
  have hclean : a.2.Clean := (evolves_statements A.strip loop ss).clean _ hf.clean
  have hstep := (evolves_statement A.strip loop s).step c hclean
  have hadds := statementAdds A.strip s hps loop c hclean hf.bounded fun _ => hd.1
  obtain ⟨hf₁, hf₂⟩ := Fit.parts (evolves_statement A.strip loop s)
    (fun _ => (evolves_statements A.strip loop ss).andReturn _) hf fun _ =>
      ⟨congrArg Globals.names hadds.globals,
        hadds.bounded hf.bounded fun l hl => Nat.le_of_eq (Stmt.depth_of_mem_adds hl)⟩
  rw [hcode] at hp ⊢
  have hkeep : ∀ t ∈ T, t.keep ≤ L.length := fun t ht => (ha t ht).keep_le hscoped
  refine Sim.bind (hs T γ L o off st m w c env hf₁ hp.linkLeft hscoped ha (fun _ => hd) h) ?_
  rintro ⟨env₁, completion⟩ w₁ m₁ h₁
  cases completion with
  | normal =>
    obtain ⟨L₁, hL₁, hr₁, hs₁, γ₁, hγ₁, hm₁⟩ := h₁
    have haims : ∀ t ∈ T, t.Aims S L₁ a.2 (o + a.1.size) (off + a.1.size) := fun t ht =>
      (ha t ht).move _ hadds.labels (fun l hl => by
        rw [Stmt.depth_of_mem_adds hl]
        exact hd.2 t ht) (Nat.le_of_eq hadds.depth.symm) hL₁ (by omega)
    have hmay : MayDeclare T a.2 := by
      refine ⟨(hadds.isTop hstep).trans hd.1, ?_⟩
      rw [hadds.depth]
      exact hd.2
    refine (hss T γ₁ L₁ _ _ st m₁ w₁ a.2 env₁ hf₂ hp.linkRight hs₁ haims hmay hm₁).mono ?_
    intro completion w₂ m₂ h₂
    refine h₂.mono hγ₁ hL₁ hkeep ?_
    rintro w₃ m₃ ⟨env₃, L₃, hL₃, hr₃, hs₃, h₃⟩
    refine ⟨env₃, L₃, hL₁.trans hL₃, endsInReturn_append_of hr₁ hr₃, hs₃, ?_⟩
    rw [size_append, ← Nat.add_assoc]
    exact h₃.mono hγ₁
  | exit how => exact Sim.pure h₁
  | «return» x => exact Sim.pure h₁

/-! ## Blocks and conditional statements -/

theorem statementSim_block {body : List Stmt} (hb : StatementsSim S call body)
    (hpb : Stmt.arePlain body = true) : StatementSim S call (.block body span) := by
  intro T γ L o off st m w c env hf hp hs ha _ h
  set loop := T.map Target.loop
  set c₁ := (modifyScope Scope.enter c).2
  set b := Lowering.statements A.strip loop body c₁
  set r := leaveScope span b.2
  have hcode : Lowering.statement A.strip loop (.block body span) c = (b.1 ++ r.1, r.2) := rfl
  rw [hcode] at hf hp ⊢
  have hclean : b.2.Clean := (evolves_leaveScope span).clean _ hf.clean
  have hf₁ : Fit S (Stmt.sizes body) c₁ b.2 :=
    hf.part (evolves_enter.step c
        ((evolves_statements A.strip loop body).clean c₁ hclean))
      ((evolves_leaveScope span).step b.2 hf.clean) hclean
      (by simp only [Stmt.size]; omega) rfl (bounded_enter hf.bounded)
  have hadds := statementsAdd A.strip body hpb loop c₁ hclean
    (bounded_enter hf.bounded) (isTop_enter c)
  have hdepth : ∀ l ∈ Stmt.addAll c₁.frame.scope.depth body, l.2 = c.frame.scope.depth + 1 :=
    fun l hl => Stmt.depth_of_mem_addAll hl
  have hs₁ : Scoped S L c₁ env := ⟨hs.env_eq, hs.length⟩
  have haims : ∀ t ∈ T, t.Aims S L c₁ o off := fun t ht =>
    (ha t ht).move [] rfl nofun (Nat.le_succ _) (List.prefix_refl _) (by omega)
  have hmay : MayDeclare T c₁ :=
    ⟨isTop_enter c, fun t ht => Nat.lt_succ_of_le (ha t ht).depth⟩
  refine Sim.bind (hb T γ L o off st m w c₁ env hf₁ hp.linkLeft hs₁ haims hmay h) ?_
  intro completion w₁ m₁ h₁
  refine Sim.of_goes (h₁.goes (List.prefix_refl _) (List.prefix_refl _)
    (fun t ht => (ha t ht).keep_le hs) ?_) fun m₂ h₂ => Sim.pure h₂
  rintro m₂ ⟨env', L', hL', hr', hs', γ', hγ', h'⟩
  have hlt := hs'.lt_word (hf₁.part ((evolves_statements A.strip loop body).step c₁ hclean)
    (Context.Step.refl _) hclean (l := 0) (Nat.le_refl _) (congrArg Globals.names hadds.globals)
    (hadds.bounded (bounded_enter hf.bounded) fun l hl =>
      Nat.le_of_eq (Stmt.depth_of_mem_addAll hl)))
  have hpr : Placed S.code (o + b.1.size) r.1 :=
    (gives_closed_leaveScope span b.2).placed hp.linkRight
  refine (h'.leaves_scope hs hs' hL' hf.bounded hadds hdepth hlt hpr).mono fun m₃ h₃ => ?_
  refine behind_of_state hs hγ' (adds_leaveScope span hf.bounded hadds hdepth)
    (endsInReturn_append_release hr') ?_
  rw [size_append, ← Nat.add_assoc]
  exact h₃

theorem statementSim_cond {test : Expr} {consequent : Stmt} {alternate : Option Stmt}
    (ht : ExpressionSim S call test) (hc : StatementSim S call consequent)
    (ha : ∀ s ∈ alternate, StatementSim S call s)
    (hplain : (Stmt.cond test consequent alternate span).isPlain = true) :
    StatementSim S call (.cond test consequent alternate span) := by
  intro T γ L o off st m w c env hf hp hs haims _ h
  obtain ⟨h₁, hpa⟩ := (Bool.and_eq_true ..).mp hplain
  obtain ⟨hpt, h₂⟩ := (Bool.and_eq_true ..).mp h₁
  obtain ⟨hpc, hcd⟩ := (Bool.and_eq_true ..).mp h₂
  have hcd : consequent.isDeclaration = false := by simpa using hcd
  set loop := T.map Target.loop
  set a := Lowering.expression A.strip test c
  set b := Lowering.statement A.strip loop consequent a.2
  set d := Lowering.optionalStatement A.strip loop alternate b.2
  have hcode : Lowering.statement A.strip loop (.cond test consequent alternate span) c =
      (condCode a.1 b.1 d.1 span, d.2) := rfl
  have heva := evolves_optionalStatement A.strip loop alternate
  have hevc := evolves_statement A.strip loop consequent
  have hcleanb : b.2.Clean := heva.clean _ hf.clean
  have hcleana : a.2.Clean := hevc.clean _ hcleanb
  obtain ⟨hf₁, hf₂, hadds₁⟩ := Fit.split (evolves_expression A.strip test)
    (stays_expression A.strip test hpt) (fun _ => hevc.bind fun _ => heva.andReturn _)
    (hf.mono (by simp only [Stmt.size]; omega))
  have hbounded₁ := hadds₁.bounded hf.bounded (by rintro _ ⟨⟩)
  have hadds₂ : a.2.Adds [] b.2 := (statementAdds A.strip consequent hpc).quiet hcd hcleanb hbounded₁
  have hbounded₂ := hadds₂.bounded hbounded₁ (by rintro _ ⟨⟩)
  obtain ⟨hf₂, hf₃⟩ := Fit.parts hevc (fun _ => heva.andReturn _) hf₂ fun _ =>
    ⟨congrArg Globals.names hadds₂.globals, hbounded₂⟩
  have hadds : c.Adds [] d.2 := statementAdds A.strip _ hplain loop c hf.clean
    hf.bounded (by rintro ⟨⟩)
  rw [hcode] at hp ⊢
  have hl : CondPlaced S.code o off a.1 b.1 d.1 span :=
    condPlaced (gives_closed_expression A.strip test c) hp
  have hkeep : ∀ t ∈ T, t.keep ≤ L.length := fun t ht => (haims t ht).keep_le hs
  have hend : o + (condCode a.1 b.1 d.1 span).size =
      o + a.1.size + b.1.size + 12 + d.1.size := by
    rw [size_condCode]
    omega
  have hreturn : (condCode a.1 b.1 d.1 span).endsInReturn = false :=
    endsInReturn_append (List.cons_ne_nil _ _)
  refine Sim.bind (ht γ L o st m w c env hf₁ hl.test hs h) ?_
  rintro x w₁ m₁ ⟨γ₁, v, hγ₁, hx, h₁⟩
  refine Sim.bind (h₁.branches .and hl.jump hx) ?_
  rintro t w₂ m₂ ⟨rfl, h₂⟩
  refine Sim.bind (P := Completes S γ L st T
    (Behind S γ L o st (condCode a.1 b.1 d.1 span) d.2 env)) ?_ fun completion w₃ m₃ h₃ =>
      Sim.pure h₃
  cases t with
  | true =>
    refine Sim.of_goes (h₂.pops hl.dropThen) fun m₃ h₃ => ?_
    refine Sim.bind (hc T γ₁ L _ _ st m₃ w₂ a.2 env hf₂ hl.consequent (hs.congr hadds₁)
      (fun t ht => (haims t ht).stay hadds₁ (d := a.1.size + 6)) (by simp [hcd]) h₃) ?_
    rintro ⟨env₄, completion⟩ w₄ m₄ h₄
    refine Sim.of_goes (h₄.goes hγ₁ (List.prefix_refl _) hkeep ?_) fun m₅ h₅ => Sim.pure h₅
    rintro m₅ ⟨L₅, hL₅, -, hs₅, γ₅, hγ₅, h₅⟩
    obtain rfl := (hs.congr hadds₁).eq_of_isPrefix hadds₂ hs₅ hL₅
    refine (h₅.jumps hl.jumpOver).mono fun m₆ h₆ => ?_
    refine behind_of_state hs (hγ₁.trans hγ₅) hadds hreturn ?_
    rw [hend, show o + a.1.size + b.1.size + 12 + d.1.size =
      o + a.1.size + 6 + b.1.size + 5 + (d.1.size + 1) by omega]
    exact h₆
  | false =>
    have h₃ : State S γ₁ L (o + a.1.size + 5 + (b.1.size + 6)) (.bool false :: st) m₂ w₂ := h₂
    rw [show o + a.1.size + 5 + (b.1.size + 6) = o + a.1.size + b.1.size + 11 by omega] at h₃
    refine Sim.of_goes (h₃.pops hl.dropElse) fun m₄ h₄ => ?_
    cases alternate with
    | none =>
      refine Sim.pure (behind_of_state hs hγ₁ hadds hreturn ?_)
      rw [hend]
      exact h₄
    | some s =>
      obtain ⟨hps, hsd⟩ := (Bool.and_eq_true ..).mp hpa
      have hsd : s.isDeclaration = false := by simpa using hsd
      have hadds₃ : b.2.Adds [] d.2 := (statementAdds A.strip s hps).quiet hsd hf₃.clean hbounded₂
      have hs₂ := (hs.congr hadds₁).congr hadds₂
      have hplaced : Placed S.code (o + (a.1.size + b.1.size + 12))
          (linkFrom (off + (a.1.size + b.1.size + 12)) d.1) :=
        linkFrom_cast hl.alternate (by omega) rfl
      refine Sim.bind (ha s rfl T γ₁ L (o + (a.1.size + b.1.size + 12)) _ st m₄ w₂ b.2 env hf₃
        hplaced hs₂ (fun t ht => (haims t ht).stay (hadds₁.trans hadds₂)) (by simp [hsd])
        (by rwa [show o + (a.1.size + b.1.size + 12) = o + a.1.size + b.1.size + 11 + 1 by omega])) ?_
      rintro ⟨env₅, completion⟩ w₅ m₅ h₅
      refine Sim.pure (h₅.mono hγ₁ (List.prefix_refl _) hkeep ?_)
      rintro w₆ m₆ ⟨L₆, hL₆, -, hs₆, γ₆, hγ₆, h₆⟩
      obtain rfl := hs₂.eq_of_isPrefix hadds₃ hs₆ hL₆
      refine behind_of_state hs (hγ₁.trans hγ₆) hadds hreturn ?_
      rw [hend, show o + a.1.size + b.1.size + 12 + d.1.size =
        o + (a.1.size + b.1.size + 12) + d.1.size by omega]
      exact h₆

/-! ## Leaving -/

theorem statementSim_return {value : Option Expr} (hv : ∀ e ∈ value, ExpressionSim S call e) :
    StatementSim S call (.return value span) := by
  intro T γ L o off st m w c env hf hp hs _ _ h
  obtain ⟨hen, hcode⟩ := return_of_clean hf.clean
  have hinside := hf.enclosing_ne_nil ((evolves_statement A.strip _ _).step c hf.clean)
    (by simpa using hen)
  rw [hcode] at hf hp ⊢
  cases value with
  | none => exact Sim.pure (h.returns_void hp hinside)
  | some e =>
    have hpl : Placed S.code o ((Lowering.expression A.strip e c).1 ++
        emit ⟨.return, ()⟩ span) :=
      ((gives_closed_expression A.strip e c).append
        (closed_emit _ _)).placed hp
    have hvalue := hv e rfl γ L o st m w c env (hf.mono (Nat.le_succ _)) hpl.left hs h
    refine Sim.bind (P := fun y w₁ m₁ => ∃ x, y = some x ∧ Yields S γ L
      (o + (Lowering.expression A.strip e c).1.size) st x w₁ m₁)
      (hvalue.bind fun x w₁ m₁ h₁ => Sim.pure ⟨x, rfl, h₁⟩) ?_
    rintro _ w₁ m₁ ⟨x, rfl, γ₁, v, hγ₁, hx, h₁⟩
    exact Sim.pure ((h₁.returns hx hpl.right hinside).mono hγ₁ (List.prefix_refl _) (List.suffix_refl _))

theorem statementSim_exit (how : LoopExit) : StatementSim S call (.exit how span) := by
  intro T γ L o off st m w c env hf hp hs ha _ h
  cases T with
  | none => exact absurd hf.clean (not_clean_report _ _ c)
  | some t =>
    have haims := ha t rfl
    have hlt := hs.lt_word hf
    have habove := haims.length_above hs
    set r := releaseAfter 0 span (c.frame.scope.above t.loop.depth)
    have hrc : r.Closed := closed_releaseAfter _ _ _
    have hreleases {γ' : List Nat} {o' : Nat} {st' : List Value} {m' : Machine}
        (h' : State S γ' L o' st' m' w) (hp' : Placed S.code o' r) :
        A.Goes m' fun m'' => State S γ' (L.take t.keep) (o' + r.size) st' m'' w := by
      have := h'.releases 0 (by omega) (by omega) hp'
      rwa [Nat.zero_add, show L.length - (c.frame.scope.above t.loop.depth).length = t.keep by omega]
        at this
    -- The jump goes back to the head, whatever stands before it.
    have hjump {f : Fragment} {γ' : List Nat} {v : Value} {m' : Machine} {w' : World}
        (hpl : Placed S.code o (linkFrom off (f ++ [.exit span])))
        (h' : State S γ' (L.take t.keep) (o + f.size) (v :: st) m' w') :
        A.Goes m' fun m'' => State S γ' (L.take t.keep) t.head (v :: st) m'' w' := by
      have hback : Placed S.code (o + f.size) [.jump .back (off + f.size + 5) span] := hpl.linkRight
      have hhead := haims.head
      exact (h'.jumps_back hback (by omega)).goes
    have hplain {op : Opcode} {args : op.format.Args} {b : Bool}
        (hpl : Placed S.code o (linkFrom off (r ++ emit ⟨op, args⟩ span ++ [.exit span])))
        (hc : op.format.Countable args)
        (he : ∀ o m₁, Machine.execute A.host o (o + Instruction.size ⟨op, args⟩) op args m₁ =
          .ok .running { m₁ with stack := .bool b :: m₁.stack }) :
        A.Goes m (Arrives S γ (L.take t.keep) t.head (.bool b :: st) w) := by
      have hpe := (closed_emit _ _).placed hpl.linkLeft.linkRight
      refine (hreleases h (hrc.placed hpl.linkLeft.linkLeft)).bind fun m₁ h₁ => ?_
      refine (h₁.pushes hpe hc (he _ _)).bind fun m₂ h₂ => ?_
      rw [Nat.add_assoc, ← size_append] at h₂
      exact (hjump hpl h₂).mono fun m₃ h₃ => h₃.arrives
    cases how with
    | «break» =>
      exact (hplain (b := false) hp trivial fun _ _ => rfl).mono fun m₁ h₁ => ⟨t, w, rfl, rfl, h₁⟩
    | «continue» =>
      have hcarries := haims.carries
      obtain ⟨⟨depth, carry⟩, head, keep, settle⟩ := t
      cases carry with
      | none =>
        refine (hplain (b := true) hp trivial fun _ _ => rfl).mono fun m₁ h₁ => ⟨_, w, rfl, ?_, h₁⟩
        show settle w = _
        rw [show settle = pure () from hcarries]
        rfl
      | some slots =>
        obtain ⟨outer, inner⟩ := slots
        obtain ⟨p, q, hp', hq', hlt', hsettle⟩ := hcarries
        set copy : Fragment := emit ⟨.getLocal, inner⟩ span ++ r ++ emit ⟨.setLocal, outer⟩ span ++
          Lowering.pop span ++ emit ⟨.pushTrue, ()⟩ span with hcopy'
        have hcode : Placed S.code o (linkFrom off (copy ++ [.exit span])) := hp
        have hcopy : copy.Closed :=
          ((((closed_emit _ _).append hrc).append (closed_emit _ _)).append
            (closed_emit _ _)).append (closed_emit _ _)
        have hpl := hcopy.placed hcode.linkLeft
        have hget : (emit ⟨.getLocal, inner⟩ span).size = 5 := rfl
        have hset : (emit ⟨.setLocal, outer⟩ span).size = 5 := rfl
        have hsize : copy.size = 12 + r.size := by
          simp only [hcopy', size_append, hget, hset, size_pop]
          show 5 + r.size + 5 + 1 + 1 = _
          omega
        have houter : (L.take keep)[S.frame.localsBase + outer.toNat]? = some p := by
          rw [List.getElem?_take_of_lt hlt']
          exact hp'
        obtain ⟨w', hw', hgoes⟩ := h.copies_back (r := r) hq' houter hpl.left.left.left.left
          (fun γ' v m' h' => hreleases h' hpl.left.left.left.right)
          (placed_cast hpl.left.left.right (by simp only [size_append, hget]; omega))
          (placed_cast hpl.left.right
            (by simp only [size_append, hget, hset]; omega))
          (placed_cast hpl.right
            (by simp only [size_append, hget, hset, size_pop]; omega))
        refine hgoes.bind ?_
        rintro m₁ ⟨γ₁, hγ₁, h₁⟩
        rw [Nat.add_assoc, ← hsize] at h₁
        refine (hjump hcode h₁).mono fun m₂ h₂ => ⟨_, w', rfl, ?_, γ₁, hγ₁, h₂⟩
        show settle w = _
        rw [show settle = copyBack q p (.exit .continue) from hsettle]
        exact hw'

end StackScript.Semantics.Pairing
