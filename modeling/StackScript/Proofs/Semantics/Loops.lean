import StackScript.Proofs.Semantics.Statements

/-!
# Loops beside the evaluation

At the beginning of a round the machine is behind the head of the loop, with the stack and the
locals from before the loop. A round begins with a jump, so the machine makes at least as many steps
as there are rounds.
-/

namespace StackScript.Semantics.Pairing

open Lowering Fragment


variable {A : Pairing} {span : Span} {S : A.Scene} {call : Val → List Val → Eval Val}
  {γ γ' L L' : List Nat} {o off : Nat} {st : List Value} {m : Machine} {w : World} {c c' : Context}
  {env : Env} {T : Option Target} {f r : Fragment}
variable {body : Stmt} {test : Expr} {d o off : Nat} {name : String} {update : Option Expr}

/-! ## Loops without a variable -/

theorem behind_of_loop {completion : Completion} (hs : Scoped S L c env) (hc : c.Adds [] c')
    (hr : f.endsInReturn = false)
    (h : Completes S γ L st T (Arrives S γ L (o + f.size) st) completion w m)
    (hkeep : ∀ t ∈ T, t.keep ≤ L.length) :
    Completes S γ L st T (Behind S γ L o st f c' env) completion w m := by
  refine h.mono (List.prefix_refl _) (List.prefix_refl _) hkeep ?_
  rintro w' m' ⟨γ', hγ', h'⟩
  exact behind_of_state hs hγ' hc hr h'

theorem sim_test {test : Expr} {d : Nat} {rest : Fragment} (ht : ExpressionSim S call test)
    (hf : Fit S test.size c (Lowering.expression A.strip test c).2)
    (hp : Placed S.code o (Lowering.expression A.strip test c).1)
    (hj : Placed S.code (o + (Lowering.expression A.strip test c).1.size)
      (.jump .ifFalse d span :: rest))
    (hs : Scoped S L c env) (h : State S γ L o st m w) :
    A.Sim A.setting.rounds m
      (fun b w' m' => ∃ γ', γ <+: γ' ∧ State S γ' L
        (o + (Lowering.expression A.strip test c).1.size + 5 + if b then 0 else d)
        (.bool b :: st) m' w')
      ((do
        let v ← expression A.setting call env test
        truth .jumpFalse v : Eval Bool) w) := by
  refine Sim.bind (ht γ L o st m w c env hf hp hs h) ?_
  rintro x w₁ m₁ ⟨γ₁, v, hγ₁, hx, h₁⟩
  refine (h₁.branches .and hj hx).mono ?_
  rintro b w₂ m₂ ⟨rfl, h₂⟩
  refine ⟨γ₁, hγ₁, ?_⟩
  cases b <;> exact h₂

/-- The rounds of a loop without a variable begin behind its head, and the loop ends behind itself. -/
def PlainRound (S : A.Scene) (γ L : List Nat) (o : Nat) (st : List Value) (T : Option Target)
    (r : Fragment) (span : Span) : Unit ⊕ Completion → World → Machine → Prop :=
  A.Round (fun _ => Arrives S γ L (o + 11) st)
    (Completes S γ L st T (Arrives S γ L (o + (loopCode [] r span).size) st))

theorem sim_body {body : Stmt} {o' off' d : Nat} (hb : StatementSim S call body)
    (hpb : body.isPlain = true) (hbd : body.isDeclaration = false)
    (hloop : LoopPlaced S.code o [] r span)
    (hf : Fit S body.size c
      (Lowering.statement A.strip (some { depth := c.frame.scope.depth }) body c).2)
    (hp : Placed S.code o' (linkFrom off'
      (Lowering.statement A.strip (some { depth := c.frame.scope.depth }) body c).1))
    (hback : Placed S.code (o' + (Lowering.statement A.strip
      (some { depth := c.frame.scope.depth }) body c).1.size) [.jump .back d span])
    (ho' : o + 5 + off' = o') (hd : o + 11 + d = o' + (Lowering.statement A.strip
      (some { depth := c.frame.scope.depth }) body c).1.size + 5)
    (hs : Scoped S L c env) (hkeep : ∀ t ∈ T, t.keep ≤ L.length) (hγ : γ <+: γ')
    (h : State S γ' L o' st m w) :
    A.Sim A.setting.rounds m (PlainRound S γ L o st T r span)
      ((ending (statement A.setting call env body) >>= fun completion =>
        pure (completion.after ()) : Eval _) w) := by
  set inner : Target := ⟨{ depth := c.frame.scope.depth }, o + 5, L.length, pure ()⟩
  set b := Lowering.statement A.strip (some inner.loop) body c
  have hadds : c.Adds [] b.2 := (statementAdds A.strip body hpb).quiet hbd hf.clean hf.bounded
  have haim : inner.Aims S L c o' off' :=
    aims_of_scoped [] hs hf.bounded rfl rfl rfl nofun (Nat.le_refl _) ho' rfl
  have hbody := hb (some inner) γ' L o' off' st m w c env hf hp hs
    (by rintro _ ⟨⟩; exact haim) (by simp [hbd]) h
  refine Sim.bind (P := Completes S γ L st (some inner) (Arrives S γ L (o' + b.1.size) st))
    (Sim.bind hbody fun x w₁ m₁ h₁ => Sim.pure ?_) fun completion w₁ m₁ h₁ => ?_
  · refine h₁.mono hγ (List.prefix_refl _) (by rintro _ ⟨⟩; exact Nat.le_refl _) ?_
    rintro w₂ m₂ ⟨L₂, hL₂, -, hs₂, h₂⟩
    obtain rfl := hs.eq_of_isPrefix hadds hs₂ hL₂
    exact h₂.mono hγ
  · have hfinish := Target.finish_of_settle (t := inner) rfl completion
    have hend : A.Sim A.setting.rounds m₁ (PlainRound S γ L o st T r span)
        ((inner.finish completion >>= fun _ => pure (completion.after ()) : Eval _) w₁) := by
      refine h₁.ends_round hloop rfl (List.take_length ..) ?_ (fun _ _ h₂ => .refl h₂)
        (fun _ _ h₂ => h₂) (fun _ _ _ h₂ => h₂)
      rintro w₂ m₂ ⟨γ₂, hγ₂, h₂⟩
      exact Sim.pure ((h₂.jumps_back hback hd).bind fun m₃ h₃ => .refl ⟨γ₂, hγ₂, h₃⟩)
    rw [hfinish] at hend
    exact hend

theorem statementSim_while (ht : ExpressionSim S call test) (hb : StatementSim S call body)
    (hplain : (Stmt.while test body span).isPlain = true) :
    StatementSim S call (.while test body span) := by
  intro T γ L o off st m w c env hf hp hs haims _ h
  obtain ⟨hpt, h₁⟩ := (Bool.and_eq_true ..).mp hplain
  obtain ⟨hpb, hbd⟩ := (Bool.and_eq_true ..).mp h₁
  have hadds := statementAdds A.strip _ hplain (T.map Target.loop) c hf.clean
    hf.bounded nofun
  set a := Lowering.expression A.strip test c
  set inner : Loop := { depth := a.2.frame.scope.depth }
  set b := Lowering.statement A.strip (some inner) body a.2
  have hcode : Lowering.statement A.strip (T.map Target.loop) (.while test body span) c =
      (loopCode [] (Lowering.whileRound a.1 b.1 span) span, b.2) := rfl
  have hfit : Fit S (test.size + body.size) c ((Lowering.expression A.strip test >>= fun _ =>
      Lowering.statement A.strip (some inner) body) c).2 :=
    hf.mono (by simp only [Stmt.size]; omega)
  obtain ⟨hf₁, hf₂, hadds₁⟩ := hfit.split (evolves_expression A.strip test)
    (stays_expression A.strip test hpt)
    fun _ => evolves_statement A.strip (some inner) body
  rw [hcode] at hp hadds ⊢
  have hloop := loopPlaced ((closed_loopCode _ _ _).placed hp)
  have hl : WhilePlaced S.code (o + 11) 6 a.1 b.1 span :=
    whilePlaced (gives_closed_expression A.strip test c) hloop.round
  have hkeep : ∀ t ∈ T, t.keep ≤ L.length := fun t ht => (haims t ht).keep_le hs
  have hround : ∀ (u : Unit) w m, Arrives S γ L (o + 11) st w m → A.Sim A.setting.rounds m
      (PlainRound S γ L o st T (Lowering.whileRound a.1 b.1 span) span)
      (whileRound (do
        let v ← expression A.setting call env test
        truth .jumpFalse v) (ending (statement A.setting call env body)) u w) := by
    rintro - w m ⟨γ₁, hγ₁, h₁⟩
    refine Sim.bind (sim_test ht hf₁ hl.test hl.jump hs h₁) ?_
    rintro t w₂ m₂ ⟨γ₂, hγ₂, h₂⟩
    cases t with
    | false =>
      rw [if_neg Bool.false_ne_true, show o + 11 + a.1.size + 5 + (b.1.size + 6) =
        o + 11 + size [] + (Lowering.whileRound a.1 b.1 span).size by
          rw [size_whileRound, size_nil]; omega] at h₂
      exact Sim.of_goes (h₂.drops_flag hloop) fun m₃ h₃ => Sim.pure ⟨γ₂, hγ₁.trans hγ₂, h₃⟩
    | true =>
      refine Sim.of_goes (h₂.pops hl.drop) fun m₃ h₃ => ?_
      exact sim_body hb hpb (by simpa using hbd) hloop hf₂ hl.body hl.back (by omega)
        (by show _ = o + 11 + a.1.size + 6 + b.1.size + 5; omega) (hs.congr hadds₁) hkeep
        (hγ₁.trans hγ₂) h₃
  refine Sim.of_goes (h.jumps hloop.start) fun m₁ h₁ => ?_
  refine Sim.bind (Sim.iterate hround (Nat.le_refl _) h₁.arrives) fun completion w₂ m₂ h₂ => ?_
  exact Sim.pure (behind_of_loop hs hadds (endsInReturn_append_pop _ span) h₂ hkeep)

theorem statementSim_loop (hb : StatementSim S call body)
    (hplain : (Stmt.loop body span).isPlain = true) : StatementSim S call (.loop body span) := by
  intro T γ L o off st m w c env hf hp hs haims _ h
  obtain ⟨hpb, hbd⟩ := (Bool.and_eq_true ..).mp hplain
  have hadds := statementAdds A.strip _ hplain (T.map Target.loop) c hf.clean
    hf.bounded nofun
  set inner : Loop := { depth := c.frame.scope.depth }
  set b := Lowering.statement A.strip (some inner) body c
  have hcode : Lowering.statement A.strip (T.map Target.loop) (.loop body span) c =
      (loopCode [] (again b.1 span) span, b.2) := rfl
  rw [hcode] at hf hp hadds ⊢
  have hloop := loopPlaced ((closed_loopCode _ _ _).placed hp)
  obtain ⟨hbody, hback⟩ := againPlaced hloop.round
  have hkeep : ∀ t ∈ T, t.keep ≤ L.length := fun t ht => (haims t ht).keep_le hs
  have hround : ∀ (u : Unit) w m, Arrives S γ L (o + 11) st w m → A.Sim A.setting.rounds m
      (PlainRound S γ L o st T (again b.1 span) span)
      (whileRound (pure true) (ending (statement A.setting call env body)) u w) := by
    rintro - w m ⟨γ₁, hγ₁, h₁⟩
    exact sim_body hb hpb (by simpa using hbd) hloop (hf.mono (Nat.le_succ _)) hbody hback rfl
      (by show _ = o + 11 + b.1.size + 5; omega) hs hkeep hγ₁ h₁
  refine Sim.of_goes (h.jumps hloop.start) fun m₁ h₁ => ?_
  refine Sim.bind (Sim.iterate hround (Nat.le_refl _) h₁.arrives) fun completion w₂ m₂ h₂ => ?_
  exact Sim.pure (behind_of_loop hs hadds (endsInReturn_append_pop _ span) h₂ hkeep)

/-! ## Loops with a variable -/

variable (S L) in
/-- The code at the end of a scope with the locals `L'` leads back to `L`. -/
def Restores (L' : List Nat) (c' : Context) (span : Span) : Prop :=
  ∀ γ o st m w, State S γ L' o st m w → Placed S.code o (leaveScope span c').1 →
    A.Goes m fun m' => State S γ L (o + (leaveScope span c').1.size) st m' w

theorem sim_roundBody {t : Target} (place : Nat) (span : Span) (hb : StatementSim S call body)
    (hpb : body.isPlain = true) (hc' : c' = (addLocal name (modifyScope Scope.enter c).2).2)
    (hf : Fit S body.size c' (Lowering.statement A.strip (some t.loop) body c').2)
    (hp : Placed S.code o (linkFrom off (Lowering.statement A.strip (some t.loop) body c').1))
    (hs : Scoped S L c env) (hbounded : c.frame.scope.Bounded)
    (hdepth : t.loop.depth = c.frame.scope.depth) (hkeep : t.keep = L.length)
    (hhead : t.head + off = o) (hcarries : Carries S (L ++ [place]) t.keep t.settle t.loop.carry)
    (h : State S γ (L ++ [place]) o st m w) :
    A.Sim A.setting.rounds m (Completes S γ (L ++ [place]) st (some t) fun w' m' =>
        ∃ L', L ++ [place] <+: L' ∧ Restores S L L'
          (Lowering.statement A.strip (some t.loop) body c').2 span ∧
          Arrives S γ L' (o + (Lowering.statement A.strip (some t.loop) body c').1.size) st
            w' m')
      (ending (statement A.setting call ((name, place) :: env) body) w) := by
  set c₂ := (modifyScope Scope.enter c).2
  set b := Lowering.statement A.strip (some t.loop) body c'
  have hadds : c₂.Adds [(name, c₂.frame.scope.depth)] c' := hc' ▸ adds_addLocal name c₂
  have htop : c'.isTop = false := hc' ▸ isTop_enter c
  have hlt : c.frame.scope.depth < c'.frame.scope.depth := by
    rw [hadds.depth]
    exact Nat.lt_succ_self _
  have hadds' := hadds.trans (statementAdds A.strip body hpb (some t.loop) c'
    hf.clean hf.bounded fun _ => htop)
  have hall : ∀ l ∈ body.adds c'.frame.scope.depth ++ [(name, c₂.frame.scope.depth)],
      l.2 = c.frame.scope.depth + 1 := by
    intro l hl
    rcases List.mem_append.1 hl with hl | hl
    · exact (Stmt.depth_of_mem_adds hl).trans hadds.depth
    · rw [List.mem_singleton.1 hl]
      rfl
  have hs' : Scoped S (L ++ [place]) c' ((name, place) :: env) :=
    hc' ▸ Scoped.declare (c := c₂) ⟨hs.env_eq, hs.length⟩ _ _
  have haim : t.Aims S (L ++ [place]) c' o off :=
    aims_of_scoped [(name, c₂.frame.scope.depth)] hs hbounded hdepth hkeep hadds.labels
      (fun l hl => by rw [List.mem_singleton.1 hl]; exact Nat.lt_succ_self _) (Nat.le_of_lt hlt)
      hhead hcarries
  have hbody := hb (some t) γ (L ++ [place]) o off st m w c' _ hf hp hs'
    (by rintro _ ⟨⟩; exact haim) (fun _ => ⟨htop, by rintro _ ⟨⟩; rwa [hdepth]⟩) h
  refine Sim.bind hbody fun x w₁ m₁ h₁ => Sim.pure ?_
  refine h₁.mono (List.prefix_refl _) (List.prefix_refl _) (by rintro _ ⟨⟩; simp [hkeep]) ?_
  rintro w₂ m₂ ⟨L₂, hL₂, -, hs₂, h₂⟩
  have hlt₂ := hs₂.lt_word (hf.part ((evolves_statement A.strip (some t.loop) body).step c'
    hf.clean) (Context.Step.refl _) hf.clean (l := 0) (Nat.le_refl _)
    (congrArg Globals.names (hadds'.globals.trans hadds.globals.symm))
    (hadds'.bounded (bounded_enter hbounded) fun l hl => Nat.le_of_eq (hall l hl)))
  refine ⟨L₂, hL₂, fun γ₃ o₃ st₃ m₃ w₃ h₃ hp₃ => ?_, h₂⟩
  exact h₃.leaves_scope hs hs₂ ((List.prefix_append _ _).trans hL₂) hbounded hadds' hall hlt₂ hp₃

/-- The rounds of a loop over a range begin behind its head, with the range on the stack. -/
def RangeRound (S : A.Scene) (γ L : List Nat) (o : Nat) (st : List Value) (T : Option Target)
    (r : Fragment) (span : Span) : Range ⊕ Completion → World → Machine → Prop :=
  A.Round (fun rg => Arrives S γ L (o + 12) (.range rg :: st))
    (Completes S γ L st T fun w m => ∃ rg,
      Arrives S γ L (o + (loopCode (emit ⟨.advance, ()⟩ span) r span).size) (.range rg :: st) w m)

theorem statementSim_forIn {iterable : Expr} (id : Ident) (hi : ExpressionSim S call iterable)
    (hb : StatementSim S call body) (hplain : (Stmt.forIn id iterable body span).isPlain = true) :
    StatementSim S call (.forIn id iterable body span) := by
  intro T γ L o off st m w c env hf hp hs haims _ h
  obtain ⟨hpi, hpb⟩ := (Bool.and_eq_true ..).mp hplain
  have hadds := statementAdds A.strip _ hplain (T.map Target.loop) c hf.clean
    hf.bounded nofun
  set a := Lowering.expression A.strip iterable c
  set c₂ := (modifyScope Scope.enter a.2).2
  set inner : Loop := { depth := a.2.frame.scope.depth }
  have hclean₃ : (declare id c₂).2.Clean :=
    (evolves_statement A.strip (some inner) body).clean _
      ((evolves_leaveScope span).clean _ hf.clean)
  have hdeclare := declare_of_clean (isTop_enter a.2) hclean₃
  set c₃ := (addLocal id.name c₂).2 with hc₃
  set b := Lowering.statement A.strip (some inner) body c₃
  set r := leaveScope span b.2
  set slot := c₂.frame.scope.locals.length.toUInt32
  set round := Lowering.forInRound (some (.local slot)) b.1 r.1 span
  have hcode : Lowering.statement A.strip (T.map Target.loop)
      (.forIn id iterable body span) c = (a.1 ++ emit ⟨.makeIterator, ()⟩ span ++
        loopCode (emit ⟨.advance, ()⟩ span) round span ++ pop span, r.2) := by
    have he : Lowering.statement A.strip (T.map Target.loop) (.forIn id iterable body span) c =
        (fun (d : Option Binding × Context) =>
          let k := Lowering.statement A.strip (some inner) body d.2
          (a.1 ++ emit ⟨.makeIterator, ()⟩ span ++ loopCode (emit ⟨.advance, ()⟩ span)
            (Lowering.forInRound d.1 k.1 (leaveScope span k.2).1 span) span ++
            pop span, (leaveScope span k.2).2)) (declare id c₂) := rfl
    rw [he, hdeclare]
  rw [hcode] at hf hp hadds ⊢
  have e₃ := (evolves_statement A.strip (some inner) body).bind fun _ => evolves_leaveScope span
  have e₂ := (evolves_addLocal id.name).bind fun _ => e₃
  have e₁ := evolves_enter.bind fun _ => e₂
  obtain ⟨hf₁, g, hadds₁⟩ := Fit.split (evolves_expression A.strip iterable)
    (stays_expression A.strip iterable hpi) (fun _ => e₁) (hf.mono (by simp only [Stmt.size]; omega))
  have hb₁ := g.bounded
  obtain ⟨-, g⟩ := Fit.parts evolves_enter (fun _ => e₂) g fun _ => ⟨rfl, bounded_enter hb₁⟩
  obtain ⟨-, g⟩ := Fit.parts (evolves_addLocal id.name) (fun _ => e₃) g fun _ =>
    ⟨rfl, (adds_addLocal id.name c₂).bounded g.bounded (by simp)⟩
  have hf₃ := (Fit.first (fun _ => evolves_leaveScope span) g).mono (Nat.le_add_right body.size _)
  have hclosedr : r.1.Closed := gives_closed_leaveScope span b.2
  have hpl := (((((gives_closed_expression A.strip iterable c).append
    (closed_emit _ _)).append (closed_loopCode _ _ _)).append
    (closed_emit _ _))).placed hp
  set p := o + (a.1 ++ emit ⟨.makeIterator, ()⟩ span).size with hp'
  have hloop := loopPlaced hpl.left.right
  have hl : ForInPlaced S.code (p + 12) 7 (some (.local slot)) b.1 r.1 span :=
    forInPlaced hclosedr (linkFrom_cast hloop.round rfl rfl)
  have hsize : (loopCode (emit ⟨.advance, ()⟩ span) round span).size =
      b.1.size + r.1.size + 25 := by
    rw [size_loopCode, size_forInRound]
    show 1 + _ + 12 = _
    omega
  have hkeep : ∀ t ∈ T, t.keep ≤ L.length := fun t ht => (haims t ht).keep_le hs
  have hs₁ := hs.congr hadds₁
  have hgo (rg : Range) w m (h₁ : Arrives S γ L (p + 11) (.range rg :: st) w m) :
      A.Goes m (Arrives S γ L (p + 12) (.range rg.advance :: st) w) := by
    obtain ⟨γ₁, hγ₁, h₁⟩ := h₁
    exact (h₁.advances (placed_cast ((closed_emit _ _).placed hloop.first) rfl)).mono
      fun m₂ h₂ => ⟨γ₁, hγ₁, h₂⟩
  have hround : ∀ (rg : Range) w m, Arrives S γ L (p + 12) (.range rg :: st) w m →
      A.Sim A.setting.rounds m (RangeRound S γ L p st T round span) (forInRound (fun place =>
        ending (statement A.setting call ((id.name, place) :: env) body)) rg w) := by
    rintro rg w m ⟨γ₁, hγ₁, h₁⟩
    refine Sim.of_goes (h₁.has_no_next hl.jump) fun m₂ h₂ => ?_
    unfold forInRound
    by_cases hnext : rg.hasNext = true
    · rw [if_pos hnext] at h₂ ⊢
      refine Sim.of_goes (h₂.gets_next hl.next) fun m₃ h₃ => ?_
      refine Sim.of_goes (h₃.defines_local (x := .datum (.int rg.next)) (matches_scalar rfl) hl.define)
        fun m₄ h₄ => ?_
      refine Sim.bind_of_ok (rfl : allocate _ w = .ok w.places.length _) ?_
      set place := w.places.length
      set t : Target := ⟨inner, p + 5, L.length, pure ()⟩ with ht
      have hbody := sim_roundBody (t := t) place span hb hpb hc₃ hf₃ hl.body hs₁ hb₁
        rfl rfl (by show p + 5 + 14 = _; omega) rfl h₄
      refine Sim.bind (P := Completes S γ₁ (L ++ [place]) (.range rg :: st) (some t)
        (Arrives S γ₁ L (p + 12 + 7 + b.1.size + r.1.size) (.range rg :: st)))
        (hbody.forward fun completion w₅ m₅ h₅ => h₅.goes (List.prefix_refl _) (List.prefix_refl _)
          (by rintro _ ⟨⟩; simp [ht]) ?_) fun completion w₅ m₅ h₅ => ?_
      · rintro m₆ ⟨L₆, hL₆, hrestores, γ₆, hγ₆, h₆⟩
        exact (hrestores _ _ _ _ _ h₆ hl.released).mono fun m₇ h₇ => ⟨γ₆, hγ₆, h₇⟩
      · have hfinish := Target.finish_of_settle (t := t) rfl completion
        have hend : A.Sim A.setting.rounds m₅ (RangeRound S γ L p st T round span)
            ((t.finish completion >>= fun _ => pure (completion.after rg.advance) : Eval _) w₅) := by
          refine h₅.ends_round (L := L) hloop rfl (List.take_left ..) ?_
            (fun w₆ m₆ h₆ => hgo rg w₆ m₆ (h₆.mono hγ₁)) (fun w₆ m₆ h₆ => ⟨rg, h₆.mono hγ₁⟩)
            (fun x w₆ m₆ h₆ => h₆.mono hγ₁ (List.prefix_append _ _) (List.suffix_cons _ _))
          rintro w₆ m₆ ⟨γ₆, hγ₆, h₆⟩
          refine Sim.pure ((h₆.jumps_back (t := p + 11) hl.back (by omega)).bind fun m₇ h₇ => ?_)
          exact hgo rg w₆ m₇ ⟨γ₆, hγ₁.trans hγ₆, h₇⟩
        rw [hfinish] at hend
        exact hend
    · rw [if_neg hnext] at h₂ ⊢
      refine Sim.pure ⟨rg, γ₁, hγ₁, ?_⟩
      rwa [hsize, show p + (b.1.size + r.1.size + 25) = p + 12 + 5 + (b.1.size + r.1.size + 8) by
        omega]
  refine Sim.bind (hi γ L o st m w c env hf₁ hpl.left.left.left hs h) ?_
  rintro x w₁ m₁ ⟨γ₁, v, hγ₁, hx, h₁⟩
  refine Sim.bind (h₁.makes_iterator hpl.left.left.right hx) ?_
  rintro rg w₂ m₂ ⟨rfl, h₂⟩
  have h₃ : State S γ₁ L p (.range rg :: st) m₂ w₂ := by
    rw [hp', size_append, ← Nat.add_assoc]
    exact h₂
  refine Sim.of_goes (h₃.jumps hloop.start) fun m₄ h₄ => ?_
  have hstart : Arrives S γ L (p + 12) (.range rg :: st) w₂ m₄ := ⟨γ₁, hγ₁, h₄⟩
  refine Sim.bind (Sim.iterate hround (Nat.le_refl _) hstart) fun completion w₅ m₅ h₅ => ?_
  refine Sim.of_goes (h₅.goes (List.prefix_refl _) (List.prefix_refl _) hkeep ?_) fun m₆ h₆ =>
    Sim.pure h₆
  rintro m₆ ⟨rg', γ₆, hγ₆, h₆⟩
  refine (h₆.pops (placed_cast hpl.right (by rw [size_append, ← Nat.add_assoc]))).mono
    fun m₇ h₇ => behind_of_state hs hγ₆ hadds (endsInReturn_append_pop _ span) ?_
  rw [size_append, size_append, ← Nat.add_assoc, ← Nat.add_assoc]
  exact h₇

theorem sim_update (hu : ∀ e ∈ update, ExpressionSim S call e)
    (hf : Fit S (Expr.sizeOption update) c (Lowering.optionalExpression A.strip update c).2)
    (hp : Placed S.code o (forUpdate (Lowering.optionalExpression A.strip update c).1 span))
    (hs : Scoped S L c env) (h : State S γ L o st m w) :
    A.Sim A.setting.rounds m (fun _ => Arrives S γ L (o +
        (forUpdate (Lowering.optionalExpression A.strip update c).1 span).size) st)
      (discard (optionalExpression A.setting call env update) w) := by
  cases update with
  | none => exact Sim.pure (Q := fun (_ : PUnit) => Arrives S γ L (o + 0) st) h.arrives
  | some e =>
    have hp' : Placed S.code o
        ((Lowering.expression A.strip e c).1 ++ pop span) := hp
    refine Sim.bind (P := fun _ => Arrives S γ L (o +
        ((Lowering.expression A.strip e c).1 ++ pop span).size) st)
      (Sim.bind (hu e rfl γ L o st m w c env hf hp'.left hs h) ?_) fun _ w₁ m₁ h₁ => Sim.pure h₁
    rintro x w₁ m₁ ⟨γ₁, v, hγ₁, -, h₁⟩
    refine Sim.of_goes (h₁.pops hp'.right) fun m₂ h₂ => Sim.pure ⟨γ₁, hγ₁, ?_⟩
    rwa [size_append, ← Nat.add_assoc]

theorem sim_holds {test : Option Expr} {turn : Fragment} (ht : ∀ e ∈ test, ExpressionSim S call e)
    (hf : Fit S (Expr.sizeOption test) c (Lowering.optionalExpression A.strip test c).2)
    (hp : Placed S.code o (linkFrom off
      (forTest (Lowering.optionalExpression A.strip test c).1 turn span)))
    (hs : Scoped S L c env) (h : State S γ L o st m w) :
    Placed S.code (o + testSize (Lowering.optionalExpression A.strip test c).1)
      (linkFrom (off + testSize (Lowering.optionalExpression A.strip test c).1) turn) ∧
    A.Sim A.setting.rounds m (fun b w' m' => ∃ γ', γ <+: γ' ∧ if b then
        State S γ' L (o + testSize (Lowering.optionalExpression A.strip test c).1) st m' w'
        else State S γ' L (o + (forTest (Lowering.optionalExpression A.strip test c).1
          turn span).size + 5) (.bool false :: st) m' w')
      (holds A.setting call env test w) := by
  cases test with
  | none => exact ⟨hp, Sim.pure ⟨γ, List.prefix_refl _, h⟩⟩
  | some e =>
    set t := (Lowering.expression A.strip e c).1
    have hl : TestPlaced S.code o off t turn span :=
      testPlaced (gives_closed_expression A.strip e c) hp
    have hroom : testSize (Lowering.optionalExpression A.strip (some e) c).1 = t.size + 6 := rfl
    rw [hroom]
    refine ⟨linkFrom_cast hl.turn (by omega) rfl, ?_⟩
    have htest := sim_test (ht e rfl) hf hl.test hl.jump hs h
    refine htest.forward ?_
    rintro b w₁ m₁ ⟨γ₁, hγ₁, h₁⟩
    cases b with
    | false =>
      refine .refl ⟨γ₁, hγ₁, ?_⟩
      have hout : (forTest (some t) turn span).size + 5 = t.size + 5 + (turn.size + 6) := by
        rw [size_forTest_some]
        omega
      show State S γ₁ L (o + (forTest (some t) turn span).size + 5) (.bool false :: st) m₁ w₁
      rw [Nat.add_assoc, hout, ← Nat.add_assoc, ← Nat.add_assoc]
      exact h₁
    | true => exact (h₁.pops hl.drop).mono fun m₂ h₂ => ⟨γ₁, hγ₁, h₂⟩

/-- The rounds of a loop with a variable begin behind its head, the first one behind the update. -/
def VariableRound (S : A.Scene) (γ L : List Nat) (o : Nat) (st : List Value) (T : Option Target)
    (u r : Fragment) (span : Span) : Bool ⊕ Completion → World → Machine → Prop :=
  A.Round (fun first => Arrives S γ L (o + 11 + bif first then u.size else 0) st)
    (Completes S γ L st T (Arrives S γ L (o + (loopCode u r span).size) st))

theorem sim_turn {outer inner : UInt32} {p o' : Nat} {u r k : Fragment} {loop : Loop}
    {b : Fragment × Context} (hb : StatementSim S call body) (hpb : body.isPlain = true)
    (hc' : c' = (addLocal name (modifyScope Scope.enter c).2).2)
    (hl : loop = ⟨c.frame.scope.depth, some (outer, inner)⟩)
    (hb' : b = Lowering.statement A.strip (some loop) body c') (hk : k = (leaveScope span b.2).1)
    (hf : Fit S body.size c' b.2) (hloop : LoopPlaced S.code o u r span)
    (hp : TurnPlaced S.code o' off outer inner b.1 k span)
    (hback : Placed S.code (o' + 18 + b.1.size + k.size) [.jump .back d span])
    (ho' : o + 5 + off = o') (hd : o + 5 + d = o' + 23 + b.1.size + k.size) (hs : Scoped S L c env)
    (hbounded : c.frame.scope.Bounded) (houter : L[S.frame.localsBase + outer.toNat]? = some p)
    (hinner : S.frame.localsBase + inner.toNat = L.length) (hγ : γ <+: γ')
    (h : State S γ' L o' st m w) :
    A.Sim A.setting.rounds m (VariableRound S γ L o st T u r span) ((do
      let v ← load p
      let q ← allocate v
      let completion ← ending (statement A.setting call ((name, q) :: env) body)
      let _ ← copyBack q p completion
      return completion.after false : Eval (Bool ⊕ Completion)) w) := by
  refine Sim.bind (h.gets_local houter hp.copy) ?_
  rintro x w₁ m₁ ⟨γ₁, v, hγ₁, hx, h₁⟩
  refine Sim.of_goes (h₁.defines_local hx hp.define) fun m₂ h₂ => ?_
  refine Sim.bind_of_ok (rfl : allocate _ w₁ = .ok w₁.places.length _) ?_
  set q := w₁.places.length
  set t : Target := ⟨loop, o + 5, L.length, copyBack q p (.exit .continue)⟩
  have hq' : (L ++ [q])[S.frame.localsBase + inner.toNat]? = some q := by
    rw [hinner, List.getElem?_append_right (Nat.le_refl _), Nat.sub_self]
    rfl
  have hcarries : Carries S (L ++ [q]) t.keep t.settle t.loop.carry := by
    show Carries S (L ++ [q]) L.length (copyBack q p (.exit .continue)) loop.carry
    rw [hl]
    exact ⟨p, q, getElem?_of_isPrefix (List.prefix_append _ _) houter, hq',
      (List.getElem?_eq_some_iff.1 houter).1, rfl⟩
  have hbody := sim_roundBody (t := t) q span hb hpb hc' (hb' ▸ hf) (hb' ▸ hp.body) hs hbounded (congrArg Loop.depth hl) rfl
    (by show o + 5 + (off + 6) = _; omega) hcarries h₂
  refine Sim.bind hbody fun completion w₃ m₃ h₃ => ?_
  have hfinish : t.finish completion = copyBack q p completion := by
    rcases completion with _ | (_ | _) | _ <;> rfl
  rw [← hfinish]
  refine h₃.ends_round (L := L) hloop rfl (List.take_left ..) ?_
    (fun w₄ m₄ h₄ => .refl (h₄.mono (hγ.trans hγ₁))) (fun w₄ m₄ h₄ => h₄.mono (hγ.trans hγ₁))
    (fun y w₄ m₄ h₄ => h₄.mono (hγ.trans hγ₁) (List.prefix_append _ _) (List.suffix_refl _))
  rintro w₄ m₄ ⟨L₄, hL₄, hrestores, γ₄, hγ₄, h₄⟩
  rw [← hb'] at h₄ hrestores
  obtain ⟨w₅, hw₅, hgoes⟩ := h₄.copies_back (r := k) (getElem?_of_isPrefix hL₄ hq') houter hp.read
    (fun γ₅ v m₅ h₅ => by
      rw [hk]
      exact hrestores _ _ _ _ _ h₅ (hk ▸ placed_cast hp.released (by omega)))
    (placed_cast hp.write (by omega)) (placed_cast hp.drop (by omega))
    (placed_cast hp.again (by omega))
  have hsettle : t.settle w₄ = .ok () w₅ := hw₅
  rw [hsettle]
  refine hgoes.mono ?_
  rintro m₅ ⟨γ₅, hγ₅, h₅⟩
  have hhead := h₅.jumps_back (t := o + 5) (placed_cast hback (by omega)) (by omega)
  exact hhead.bind fun m₆ h₆ => (h₆.goes_on hloop).goes.mono fun m₇ h₇ =>
    ⟨γ₅, (hγ.trans hγ₁).trans (hγ₄.trans hγ₅), h₇⟩

theorem statementSim_for {init : Expr} {test : Option Expr} (id : Ident)
    (hi : ExpressionSim S call init) (ht : ∀ e ∈ test, ExpressionSim S call e)
    (hu : ∀ e ∈ update, ExpressionSim S call e) (hb : StatementSim S call body)
    (hplain : (Stmt.for id init test update body span).isPlain = true) :
    StatementSim S call (.for id init test update body span) := by
  intro T γ L o off st m w c env hf hp hs haims _ h
  have hadds := statementAdds A.strip _ hplain (T.map Target.loop) c hf.clean
    hf.bounded nofun
  obtain ⟨h₁, hpb⟩ := (Bool.and_eq_true ..).mp hplain
  obtain ⟨h₂, hpu⟩ := (Bool.and_eq_true ..).mp h₁
  obtain ⟨hpi, hpt⟩ := (Bool.and_eq_true ..).mp h₂
  set c₁ := (modifyScope Scope.enter c).2
  set a := Lowering.expression A.strip init c₁
  set c₃ := (addLocal id.name a.2).2
  set outer := (addLocal id.name a.2).1
  set eu := Lowering.optionalExpression A.strip update c₃
  set et := Lowering.optionalExpression A.strip test eu.2
  set c₆ := (modifyScope Scope.enter et.2).2
  set c₇ := (addLocal id.name c₆).2 with hc₇
  set inner := (addLocal id.name c₆).1
  set l : Loop := { depth := c₁.frame.scope.depth, carry := some (outer, inner) } with hl
  -- What follows each step, for taking the compilation apart.
  have e₈ := (evolves_leaveScope span).bind fun _ => evolves_leaveScope span
  have e₇ := (evolves_statement A.strip (some l) body).bind fun _ => e₈
  have e₆ := (evolves_addLocal id.name).bind fun _ => e₇
  have e₅ := evolves_enter.bind fun _ => e₆
  have e₄ := (evolves_optionalExpression A.strip test).bind fun _ => e₅
  have e₃ := (evolves_optionalExpression A.strip update).bind fun _ => e₄
  have e₂ := (evolves_addLocal id.name).bind fun _ => e₃
  have e₁ := (evolves_expression A.strip init).bind fun _ => e₂
  obtain ⟨-, g⟩ := Fit.parts evolves_enter (fun _ => e₁)
    (hf.mono (by simp only [Stmt.size]; omega)) fun _ => ⟨rfl, bounded_enter hf.bounded⟩
  obtain ⟨g₁, g, hadds₁⟩ := Fit.split (evolves_expression A.strip init)
    (stays_expression A.strip init hpi) (fun _ => e₂) g
  have hadds₃ := adds_addLocal id.name a.2
  obtain ⟨-, g⟩ := Fit.parts (evolves_addLocal id.name) (fun _ => e₃) g fun _ =>
    ⟨rfl, hadds₃.bounded g.bounded (by simp)⟩
  obtain ⟨g₃, g, hadds₄⟩ := Fit.split (evolves_optionalExpression A.strip update)
    (stays_option A.strip update hpu) (fun _ => e₄) g
  obtain ⟨g₄, g, hadds₅⟩ := Fit.split (evolves_optionalExpression A.strip test)
    (stays_option A.strip test hpt) (fun _ => e₅) g
  have hb₅ := g.bounded
  have hadds' : a.2.Adds [(id.name, a.2.frame.scope.depth)] et.2 := (hadds₃.trans hadds₄).trans hadds₅
  have hdepth : c₁.frame.scope.depth = et.2.frame.scope.depth := (hadds'.depth.trans hadds₁.depth).symm
  have hs₂ : Scoped S L a.2 env := Scoped.congr (c := c₁) ⟨hs.env_eq, hs.length⟩ hadds₁
  have hs₃ (p : Nat) : Scoped S (L ++ [p]) c₃ ((id.name, p) :: env) := hs₂.declare _ _
  have hs₄ (p : Nat) := (hs₃ p).congr hadds₄
  have hs₅ (p : Nat) := (hs₄ p).congr hadds₅
  have hlt := (hs₅ 0).lt_word g
  obtain ⟨-, g⟩ := Fit.parts evolves_enter (fun _ => e₆) g fun _ =>
    ⟨rfl, bounded_enter hb₅⟩
  obtain ⟨-, g⟩ := Fit.parts (evolves_addLocal id.name) (fun _ => e₇) g fun _ =>
    ⟨rfl, (adds_addLocal id.name c₆).bounded g.bounded (by simp)⟩
  have g₇ := (Fit.first (fun _ => e₈) g).mono (Nat.le_add_right body.size _)
  set b := Lowering.statement A.strip (some l) body c₇ with hb'
  set r := leaveScope span b.2
  set q := leaveScope span r.2
  set u := forUpdate eu.1 span
  set turn := forTurn outer inner b.1 r.1 span with hturn
  set round := forTest et.1 turn span with hround'
  set rounds := round ++ [.jump .back (Piece.jumpSize + (pop span).size + u.size + round.size +
    Piece.jumpSize) span]
  have hcode : Lowering.statement A.strip (T.map Target.loop)
      (.for id init test update body span) c =
        (a.1 ++ emit ⟨.defLocal, ()⟩ span ++ loopCode u rounds span ++ q.1, q.2) := rfl
  rw [hcode] at hf hp hadds ⊢
  have hclosed := gives_closed_leaveScope span
  have hpl := ((((gives_closed_expression A.strip init c₁).append
    (closed_emit _ _)).append (closed_loopCode _ _ _)).append (hclosed r.2)).placed hp
  set p := o + (a.1 ++ emit ⟨.defLocal, ()⟩ span).size with hp'
  have hloop := loopPlaced hpl.left.right
  have hback : Placed S.code (p + 11 + u.size + round.size) _ :=
    placed_jump hloop.round.linkRight rfl rfl
  have hkeep : ∀ t ∈ T, t.keep ≤ L.length := fun t ht => (haims t ht).keep_le hs
  refine Sim.bind (hi γ L o st m w c₁ env g₁ hpl.left.left.left ⟨hs.env_eq, hs.length⟩ h) ?_
  rintro x w₁ m₁ ⟨γ₁, v, hγ₁, hx, h₁⟩
  refine Sim.of_goes (h₁.defines_local hx hpl.left.left.right) fun m₂ h₂ => ?_
  refine Sim.bind_of_ok (rfl : allocate _ w₁ = .ok w₁.places.length _) ?_
  set place := w₁.places.length with hplace
  have hplace : (L ++ [place])[S.frame.localsBase + outer.toNat]? = some place := by
    have hslot : outer.toNat = a.2.frame.scope.locals.length :=
      Word.toNat_toUInt32 (by have := hs₂.length; rw [List.length_append] at hlt; omega)
    rw [hslot, hs₂.length, List.getElem?_append_right (Nat.le_refl _), Nat.sub_self]
    rfl
  have hcopy : S.frame.localsBase + inner.toNat = (L ++ [place]).length := by
    have hslot : inner.toNat = et.2.frame.scope.locals.length :=
      Word.toNat_toUInt32 (Nat.lt_of_le_of_lt (Nat.le_add_left _ S.frame.localsBase)
        ((hs₅ 0).length ▸ (by omega)))
    rw [hslot, (hs₅ place).length]
  have hsize : round.size = testSize et.1 + (b.1.size + r.1.size + 18) := by
    rw [hround', size_forTest, hturn, size_forTurn]
  have hrounds' : rounds.size = round.size + 5 := size_append ..
  have hround : ∀ (first : Bool) w m,
      Arrives S γ (L ++ [place]) (p + 11 + bif first then u.size else 0) st w m →
      A.Sim A.setting.rounds m (VariableRound S γ (L ++ [place]) p st T u rounds span)
        (forRound place (discard (optionalExpression A.setting call ((id.name, place) :: env) update))
          (holds A.setting call ((id.name, place) :: env) test) (fun copy => ending
            (statement A.setting call ((id.name, copy) :: (id.name, place) :: env) body)) first w) := by
    rintro first w m ⟨γ₂, hγ₂, h₂⟩
    refine Sim.bind (P := fun _ => Arrives S γ₂ (L ++ [place]) (p + 11 + u.size) st) ?_ ?_
    · cases first with
      | true => exact Sim.pure h₂.arrives
      | false =>
        exact sim_update hu g₃ ((closed_forUpdate A.strip update c₃).placed hloop.first) (hs₃ place) h₂
    · rintro - w₃ m₃ ⟨γ₃, hγ₃, h₃⟩
      obtain ⟨hturnp, hholds⟩ := sim_holds ht g₄ hloop.round.linkLeft (hs₄ place) h₃
      refine Sim.bind hholds ?_
      rintro flag w₄ m₄ ⟨γ₄, hγ₄, h₄⟩
      have hγ' := hγ₂.trans (hγ₃.trans hγ₄)
      cases flag with
      | false =>
        rw [if_neg Bool.false_ne_true, ← hround', show p + 11 + u.size + round.size + 5 =
          p + 11 + u.size + rounds.size by omega] at h₄
        exact Sim.of_goes (h₄.drops_flag hloop) fun m₅ h₅ => Sim.pure ⟨γ₄, hγ', h₅⟩
      | true =>
        have hturnp : TurnPlaced S.code (p + 11 + u.size + testSize et.1)
            (6 + u.size + testSize et.1) outer inner b.1 r.1 span :=
          turnPlaced (hclosed b.2) hturnp
        refine sim_turn (k := r.1) hb hpb hc₇ (hdepth ▸ rfl) hb' rfl g₇ hloop hturnp
          (placed_cast hback ?_) ?_ ?_ (hs₅ place) hb₅ hplace hcopy hγ' h₄
        · omega
        · omega
        · simp only [size_pop, Piece.jumpSize, wordWidth]
          omega
  have h₃ : State S γ₁ (L ++ [place]) p st m₂ { w₁ with places := w₁.places ++ [x] } := by
    rw [hp', size_append, ← Nat.add_assoc]
    exact h₂
  refine Sim.of_goes (h₃.jumps hloop.start) fun m₄ h₄ => ?_
  rw [show p + 5 + (6 + u.size) = p + 11 + u.size by omega] at h₄
  refine Sim.bind (Sim.iterate (s := true) hround (Nat.le_refl _) ⟨γ₁, hγ₁, h₄⟩)
    fun completion w₅ m₅ h₅ => ?_
  refine Sim.of_goes (h₅.goes (List.prefix_refl _) (List.prefix_append _ _) hkeep ?_) fun m₆ h₆ =>
    Sim.pure h₆
  rintro m₆ ⟨γ₆, hγ₆, h₆⟩
  have hadds₉ : et.2.Adds [] r.2 := adds_round span
    (statementAdds A.strip body hpb) hc₇ hb₅ g₇.clean
  have hreleased : Placed S.code (p + (loopCode u rounds span).size) q.1 :=
    placed_cast hpl.right (by rw [size_append, ← Nat.add_assoc])
  refine (h₆.leaves_scope hs ((hs₅ place).congr hadds₉) (List.prefix_append _ _) hf.bounded
    (hadds₁.trans (hadds'.trans hadds₉)) ?_ ?_ hreleased).mono fun m₇ h₇ =>
      behind_of_state hs hγ₆ hadds ?_ ?_
  · intro l hl
    rw [List.append_nil, List.nil_append, List.mem_singleton] at hl
    rw [hl]
    exact hadds₁.depth
  · rw [List.length_append] at hlt ⊢
    exact Nat.lt_of_le_of_lt (Nat.le_add_right _ _) hlt
  · exact endsInReturn_append_release (endsInReturn_append_loopCode _ _ _ span)
  · rw [size_append, size_append, ← Nat.add_assoc, ← Nat.add_assoc]
    exact h₇

end StackScript.Semantics.Pairing
