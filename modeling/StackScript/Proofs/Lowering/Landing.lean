import StackScript.Proofs.Code.Charts

/-!
# Jumps arrive at instructions

Whatever the program, and whatever is wrong with it, the jumps in the code of a statement lead to
instructions of that code or to its end, and its open ends to the head of the loop around it.
-/

namespace StackScript.Lowering

open Fragment


/-- Control goes on behind every instruction but a return. -/
def goesOn : Moves Unit where
  act i _ u := u = if i.op == .return || i.op == .returnVoid then none else some ()
  jumps _ := True

theorem idles_goesOn : goesOn.Idles () := by
  refine ⟨?_, trivial⟩
  rintro ⟨op, args⟩ h
  cases op <;> first | rfl | cases h

/-- The jumps of the fragment arrive at its instructions or at its end; inside a loop, open ends are
allowed. -/
def Lands (inLoop : Bool) (f : Fragment) : Prop :=
  ∀ o h (E : Nat → Unit → Prop), (inLoop = true → E h ()) →
    f.Charted goesOn (if inLoop then some h else none) E o () ()

section

variable {b : Bool} {f g t k a r : Fragment} {span : Span}

theorem lands_nil : Lands b [] := fun _ _ _ _ => .nil

theorem lands_emit (i : Instruction) (span : Span) : Lands b (emit i span) := by
  intro o h E _
  cases hr : (emit i span).endsInReturn with
  | true => exact .emit_end (if_pos hr).symm
  | false => exact .emit (if_neg (ne_true_of_eq_false hr)).symm hr

theorem Lands.append (hf : Lands b f) (hg : Lands b g) : Lands b (f ++ g) :=
  fun o h E hE => (hf o h E hE).append (hg _ h E hE)

/-- What has no open ends can also stand in a loop. -/
theorem Lands.inLoop (h : Lands false f) : Lands b f :=
  fun o x E _ => (h o x E nofun).weaken nofun fun _ _ h => h

theorem lands_get (x : Binding) (span : Span) : Lands b (x.get span) := by
  cases x <;> exact lands_emit _ _

theorem lands_set (x : Binding) (span : Span) : Lands b (x.set span) := by
  cases x <;> exact lands_emit _ _

theorem lands_define (x : Option Binding) (span : Span) : Lands b (define x span) := by
  rcases x with _ | _ | _ | _ <;> exact lands_emit _ _

theorem lands_releaseAfter (n : Nat) (span : Span) (ls : List Local) :
    Lands b (releaseAfter n span ls) :=
  releaseAfter_induction lands_nil .append (lands_emit _ _) (fun _ => lands_emit _ _) (lands_emit _ _) n ls

theorem lands_forTurn {outer inner : UInt32} (hk : Lands b k) (hr : Lands b r) :
    Lands b (forTurn outer inner k r span) :=
  (((((((lands_emit _ _).append (lands_emit _ _)).append hk).append (lands_emit _ _)).append hr).append
    (lands_emit _ _)).append (lands_emit _ _)).append (lands_emit _ _)

theorem lands_forUpdate {update : Option Fragment} (h : ∀ f ∈ update, Lands false f) :
    Lands false (forUpdate update span) := by
  cases update with
  | none => exact lands_nil
  | some f => exact (h f rfl).append (lands_emit _ _)

end

/-! ## Statements and expressions -/

theorem gives_lands_literal (l : Literal) (span : Span) : Gives (Lands false) (literal l span) := by
  cases l with
  | bool b => cases b <;> exact .pure (lands_emit _ _)
  | nil | void => exact .pure (lands_emit _ _)
  | _ => exact .andThen fun _ => .pure (lands_emit _ _)

theorem gives_lands_function (name self : String) (params : List Ident) (span : Span)
    (body : Lower Fragment) : Gives (Lands false) (function name self params span body) := by
  intro c
  rw [function_eq]
  exact lands_emit _ _

theorem gives_lands_methodClosures (strip : Bool) (span : Span) (ms : List Method) :
    Gives (Lands false) (methodClosures strip span ms) := by
  induction ms with
  | nil => exact .pure lands_nil
  | cons m ms ih =>
    obtain ⟨id, params, body⟩ := m
    exact (gives_lands_function _ _ _ _ _).bind fun _ hf => ih.bind fun _ hms => .pure (hf.append hms)

theorem gives_lands_leaveScope {b : Bool} (span : Span) : Gives (Lands b) (leaveScope span) :=
  .andThen fun _ => .bind (P := Lands b) (fun _ => lands_releaseAfter _ _ _) fun _ h =>
    .andThen fun _ => .pure h

mutual

theorem gives_lands_expression (strip : Bool) : (e : Expr) → Gives (Lands false) (expression strip e)
  | .literal l span => gives_lands_literal l span
  | .name id span => .andThen fun b => by
    cases b with
    | none => exact .pure (lands_emit _ _)
    | some b => exact .pure (lands_get b span)
  | .binary op left right span =>
    (gives_lands_expression strip left).bind fun _ hl =>
      (gives_lands_expression strip right).bind fun _ hr =>
        .pure ((hl.append hr).append (lands_emit _ _))
  | .logical op left right span =>
    (gives_lands_expression strip left).bind fun _ hl =>
      (gives_lands_expression strip right).bind fun _ hr => .pure fun o h E hE =>
        charted_logical idles_goesOn (by cases op <;> simp [shortcut]) (hl o h E hE) (hr _ h E hE)
  | .unary op operand span =>
    (gives_lands_expression strip operand).bind fun _ h => .pure (h.append (lands_emit _ _))
  | .assign target value span => by
    have hv := gives_lands_expression strip value
    cases target with
    | name id _ =>
      refine hv.bind fun _ h => .andThen fun b => ?_
      cases b with
      | none => exact .pure h
      | some b => exact .pure (h.append (lands_set b span))
    | member object property _ =>
      exact (gives_lands_expression strip object).bind fun _ ho => hv.bind fun _ h =>
        .andThen fun _ => .pure ((ho.append h).append (lands_emit _ _))
    | _ => exact .andThen fun _ => hv
  | .call callee arguments span => by
    have ha := gives_lands_expressions strip arguments
    have hc := gives_lands_expression strip callee
    cases callee with
    | member object property _ =>
      exact (gives_lands_expression strip object).bind fun _ ho => ha.bind fun _ h =>
        .andThen fun _ => .pure ((ho.append h).append (lands_emit _ _))
    | _ => exact hc.bind fun _ hf => ha.bind fun _ h => .pure ((hf.append h).append (lands_emit _ _))
  | .member object property span =>
    (gives_lands_expression strip object).bind fun _ h => .andThen fun _ =>
      .pure (h.append (lands_emit _ _))
  | .range first last inclusive span =>
    (gives_lands_expression strip first).bind fun _ hf =>
      (gives_lands_expression strip last).bind fun _ hl =>
        .pure ((hf.append hl).append (lands_emit _ _))
  | .arrow params body span => gives_lands_function _ _ _ _ _
  | .lambda params body span => gives_lands_function _ _ _ _ _

theorem gives_lands_expressions (strip : Bool) :
    (es : List Expr) → Gives (Lands false) (expressions strip es)
  | [] => .pure lands_nil
  | e :: es => (gives_lands_expression strip e).bind fun _ h =>
      (gives_lands_expressions strip es).bind fun _ hs => .pure (h.append hs)

end

theorem gives_lands_optionalExpression (strip : Bool) (e : Option Expr) :
    Gives (fun x => ∀ f ∈ x, Lands false f) (optionalExpression strip e) := by
  cases e with
  | none => exact .pure nofun
  | some e => exact (gives_lands_expression strip e).bind fun f hf => .pure (by
      rintro _ ⟨⟩
      exact hf)

theorem gives_lands_exitLoop (loop : Option Loop) (how : LoopExit) (span : Span) :
    Gives (Lands loop.isSome) (exitLoop loop how span) := by
  cases loop with
  | none => exact .andThen fun _ => .pure lands_nil
  | some loop =>
    refine .bind (P := Lands true) (fun _ => lands_releaseAfter _ _ _) fun released hr => ?_
    have hexit : Lands true [.exit span] := fun o h E hE => .piece ⟨trivial, h, rfl, .inr (hE rfl)⟩
    obtain ⟨depth, carry⟩ := loop
    cases how with
    | «break» => exact .pure ((hr.append (lands_emit _ _)).append hexit)
    | «continue» =>
      refine .pure ((Lands.append ?_ (lands_emit _ _)).append hexit)
      cases carry with
      | none => exact hr
      | some _ =>
        exact (((lands_emit _ _).append hr).append (lands_emit _ _)).append (lands_emit _ _)

mutual

theorem gives_lands_statement (strip : Bool) :
    (loop : Option Loop) → (s : Stmt) → Gives (Lands loop.isSome) (statement strip loop s)
  | _, .variable id init span =>
    (gives_lands_expression strip init).bind fun _ h => .andThen fun b =>
      .pure (h.inLoop.append (lands_define b span))
  | _, .function id params body span => by
    refine .andThen fun top => ?_
    cases top with
    | true =>
      exact (gives_lands_function _ _ _ _ _).bind fun _ h => .andThen fun b =>
        .pure (h.inLoop.append (lands_define b span))
    | false =>
      exact .andThen fun b => (gives_lands_function _ _ _ _ _).bind fun _ h =>
        .pure (h.inLoop.append (lands_define b span))
  | loop, .record id fields methods span => by
    have hk (k : Constant) : Gives (Lands loop.isSome) (pushConstant k span) :=
      fun _ => lands_emit _ _
    have ha : Lands loop.isSome (if methods.isEmpty then []
        else emit ⟨.appendMethods, methods.length.toUInt32⟩ span) := by
      split
      · exact lands_nil
      · exact lands_emit _ _
    have hm := gives_lands_methodClosures strip span methods
    refine .andThen fun global => ?_
    cases global <;>
      exact .andThen fun _ => .andThen fun _ => .andThen fun _ => (hk _).bind fun _ hr =>
        hm.bind fun _ h => .andThen fun b => .pure (((hr.append h.inLoop).append ha).append
          (lands_define b span))
  | _, .expression e span => by
    have he := gives_lands_expression strip e
    cases e with
    | literal l literalSpan =>
      unfold statement
      split
      · exact .pure lands_nil
      · exact (gives_lands_literal l literalSpan).bind fun _ h =>
          .pure (h.inLoop.append (lands_emit _ _))
    | name id nameSpan =>
      refine .andThen fun b => ?_
      cases strip <;> cases b <;>
        first
        | exact .pure lands_nil
        | exact .pure ((lands_emit _ _).append (lands_emit _ _))
        | exact .pure ((lands_get _ _).append (lands_emit _ _))
    | _ => exact he.bind fun _ h => .pure (h.inLoop.append (lands_emit _ _))
  | loop, .block body span => .andThen fun _ =>
      (gives_lands_statements strip loop body).bind fun _ h =>
        (gives_lands_leaveScope span).bind fun _ hl => .pure (h.append hl)
  | loop, .cond test consequent alternate span =>
    (gives_lands_expression strip test).bind fun _ ht =>
      (gives_lands_statement strip loop consequent).bind fun _ hc =>
        (gives_lands_optionalStatement strip loop alternate).bind fun _ ha =>
          .pure fun o h E hE =>
            charted_condCode idles_goesOn (ht.inLoop o h E hE) (hc _ h E hE) (ha _ h E hE)
  | _, .while test body span =>
    (gives_lands_expression strip test).bind fun _ ht => .andThen fun _ =>
      (gives_lands_statement strip (some _) body).bind fun _ hb =>
        .pure (Lands.inLoop fun o h _ _ => charted_while idles_goesOn (fun E => ht _ h E (absurd · Bool.false_ne_true)) fun E hE =>
          hb _ (o + 5) E fun _ => hE)
  | _, .loop body span => .andThen fun _ =>
      (gives_lands_statement strip (some _) body).bind fun _ hb =>
        .pure (Lands.inLoop fun o h _ _ => charted_loop idles_goesOn fun E hE => hb _ (o + 5) E fun _ => hE)
  | _, .forIn id iterable body span =>
    (gives_lands_expression strip iterable).bind fun _ hi => .andThen fun _ => .andThen fun _ =>
      .andThen fun b => (gives_lands_statement strip (some _) body).bind fun _ hb =>
        (gives_lands_leaveScope span).bind fun _ hl =>
          have hbody := (((lands_emit ⟨.getNext, ()⟩ span).append (lands_define b span)).append
            hb).append hl
          .pure (((hi.inLoop.append (lands_emit _ _)).append (Lands.inLoop fun o h _ _ =>
            charted_forIn idles_goesOn fun E hE => hbody _ (o + 5) E fun _ => hE)).append (lands_emit _ _))
  | _, .for id init test update body span => .andThen fun _ => .andThen fun _ =>
      (gives_lands_expression strip init).bind fun _ hi => .andThen fun outer =>
        (gives_lands_optionalExpression strip update).bind fun u hu =>
          (gives_lands_optionalExpression strip test).bind fun t ht => .andThen fun _ =>
            .andThen fun inner => (gives_lands_statement strip (some _) body).bind fun _ hb =>
              (gives_lands_leaveScope span).bind fun _ hr => (gives_lands_leaveScope span).bind
                fun _ hq =>
                  have hturn : Lands true (forTurn outer inner _ _ span) := lands_forTurn hb hr
                  .pure (((hi.inLoop.append (lands_emit _ _)).append (Lands.inLoop fun o h _ _ =>
                    charted_for idles_goesOn (fun E => lands_forUpdate hu _ h E (absurd · Bool.false_ne_true))
                      (fun t' h' E => ht t' h' _ h E (absurd · Bool.false_ne_true)) (fun _ => rfl)
                      fun o' E _ hE => hturn o' (o + 5) E fun _ => hE)).append hq)
  | _, .return value span => by
    refine .andThen fun c => ?_
    split
    · exact .andThen fun _ => .pure lands_nil
    · refine (gives_lands_optionalExpression strip value).bind fun x hx => ?_
      cases x with
      | none => exact .pure (lands_emit _ _)
      | some f => exact .pure ((hx f rfl).inLoop.append (lands_emit _ _))
  | loop, .exit how span => gives_lands_exitLoop loop how span

theorem gives_lands_statements (strip : Bool) :
    (loop : Option Loop) → (ss : List Stmt) → Gives (Lands loop.isSome) (statements strip loop ss)
  | _, [] => .pure lands_nil
  | loop, s :: ss => (gives_lands_statement strip loop s).bind fun _ h =>
      (gives_lands_statements strip loop ss).bind fun _ hs => .pure (h.append hs)

theorem gives_lands_optionalStatement (strip : Bool) :
    (loop : Option Loop) → (s : Option Stmt) →
      Gives (Lands loop.isSome) (optionalStatement strip loop s)
  | _, none => .pure lands_nil
  | loop, some s => gives_lands_statement strip loop s

end

/-! ## Open ends -/

/-- Outside of loops there are no open ends. -/
theorem Lands.closed {f : Fragment} (h : Lands false f) : f.Closed := by
  obtain ⟨T, hT, -⟩ := h 0 0 (fun _ _ => False) nofun
  refine closed_of_forall ?_
  rintro _ hp span rfl
  obtain ⟨f₁, f₂, rfl⟩ := List.append_of_mem hp
  obtain ⟨s, -, x, hx, -⟩ := hT.covers f₁ _ f₂ rfl nofun
  cases hx


theorem gives_closed_expression (strip : Bool) (e : Expr) : Gives Closed (expression strip e) :=
  fun c => (gives_lands_expression strip e c).closed

theorem gives_closed_statement (strip : Bool) (s : Stmt) : Gives Closed (statement strip none s) :=
  fun c => (gives_lands_statement strip none s c).closed

theorem gives_closed_statements (strip : Bool) (ss : List Stmt) :
    Gives Closed (statements strip none ss) :=
  fun c => (gives_lands_statements strip none ss c).closed

theorem closed_forUpdate {span : Span} (strip : Bool) (update : Option Expr) (c : Context) :
    (forUpdate (optionalExpression strip update c).1 span).Closed := by
  cases update with
  | none => exact closed_nil
  | some e => exact (gives_closed_expression strip e c).append (closed_emit _ _)

end StackScript.Lowering
