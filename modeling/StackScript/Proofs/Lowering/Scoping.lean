import StackScript.Proofs.Lowering.Parts
import StackScript.Proofs.Lowering.Tidy

/-!
# The names in sight

While a tidy program is compiled, the locals in sight are those of its text: an expression declares
none, a declaration one, and behind a block or a loop they are what they were before. Globals are
declared at the top level only.

The list of all names in sight, from the inside to the outside, has a position for each variable,
and a captured variable stands for such a position, its `target`, through all functions that pass it
on.
-/

namespace StackScript

namespace Scope

theorem labels_above (s : Scope) (depth : Nat) :
    (s.above depth).map Local.label = s.labels.takeWhile (depth < ·.2) := by
  unfold above labels
  rw [List.takeWhile_map]
  rfl

theorem labels_leave (s : Scope) : s.leave.labels = s.labels.dropWhile (s.depth ≤ ·.2) := by
  unfold leave labels
  rw [List.dropWhile_map]
  rfl

/-- No local is declared deeper than the innermost scope. -/
def Bounded (s : Scope) : Prop := ∀ l ∈ s.labels, l.2 ≤ s.depth

section

variable {s : Scope} {added rest : List (String × Nat)}

theorem length_above {depth : Nat} (h : s.labels = added ++ rest) (ha : ∀ l ∈ added, depth < l.2)
    (hr : ∀ l ∈ rest, l.2 ≤ depth) : (s.above depth).length = added.length := by
  have hstop : rest.takeWhile (depth < ·.2) = [] := by
    cases rest with
    | nil => rfl
    | cons l ls =>
      have := hr l (List.mem_cons_self ..)
      rw [List.takeWhile_cons_of_neg (by simpa using this)]
  have := congrArg List.length (labels_above s depth)
  rw [h, List.takeWhile_append_of_pos (by simpa using ha), hstop] at this
  simpa using this

theorem labels_leave_of_append (h : s.labels = added ++ rest) (ha : ∀ l ∈ added, s.depth ≤ l.2)
    (hr : ∀ l ∈ rest, l.2 < s.depth) : s.leave.labels = rest := by
  rw [labels_leave, h, List.dropWhile_append_of_pos (by simpa using ha)]
  cases rest with
  | nil => rfl
  | cons l ls =>
    have := hr l (List.mem_cons_self ..)
    rw [List.dropWhile_cons_of_neg (by simpa using this)]

end

end Scope

/-! ## What is declared -/

/-- The local that a statement declares in a scope of the given depth. -/
def Stmt.adds (s : Stmt) (depth : Nat) : List (String × Nat) :=
  (s.declared?.map fun id => (id.name, depth)).toList

/-- The locals that statements declare, the newest first. -/
def Stmt.addAll (depth : Nat) : List Stmt → List (String × Nat)
  | [] => []
  | s :: ss => Stmt.addAll depth ss ++ s.adds depth

theorem Stmt.adds_of_not_declaration {s : Stmt} (h : s.isDeclaration = false) (depth : Nat) :
    s.adds depth = [] := by
  unfold isDeclaration at h
  unfold adds
  cases hd : s.declared? with
  | none => rfl
  | some id =>
    rw [hd] at h
    cases h

theorem Stmt.depth_of_mem_adds {s : Stmt} {depth : Nat} {l : String × Nat} (h : l ∈ s.adds depth) :
    l.2 = depth := by
  unfold adds at h
  cases hd : s.declared? with
  | none =>
    rw [hd] at h
    cases h
  | some id =>
    rw [hd] at h
    rw [List.mem_singleton.1 h]

theorem Stmt.depth_of_mem_addAll {depth : Nat} {ss : List Stmt} {l : String × Nat}
    (h : l ∈ Stmt.addAll depth ss) : l.2 = depth := by
  induction ss with
  | nil => cases h
  | cons s ss ih =>
    rcases List.mem_append.1 h with h | h
    · exact ih h
    · exact depth_of_mem_adds h

namespace Lowering

variable {id : Ident} {c : Context} {fields params : List Ident} {body : Stmt} {gs gs' : List Frame}
  {name : String} {loop : Option Loop} {methods : List Method} {f : Frame}

/-- Whether a declaration at this point declares a global. -/
def Context.isTop (c : Context) : Bool := c.enclosing.isEmpty && c.frame.scope.depth == 0

/-- From one point of the compilation to a later one, some locals come into sight and none vanishes,
and the globals stay what they are. -/
structure Context.Adds (added : List (String × Nat)) (c c' : Context) : Prop where
  depth : c'.frame.scope.depth = c.frame.scope.depth
  labels : c'.frame.scope.labels = added ++ c.frame.scope.labels
  globals : c'.globals = c.globals

namespace Context

variable {c c' : Context}

theorem Adds.refl (c : Context) : Adds [] c c := ⟨rfl, rfl, rfl⟩

theorem Adds.trans {a b : List (String × Nat)} {c'' : Context} (h : Adds a c c')
    (h' : Adds b c' c'') : Adds (b ++ a) c c'' := by
  refine ⟨h'.depth.trans h.depth, ?_, h'.globals.trans h.globals⟩
  rw [h'.labels, h.labels, List.append_assoc]

theorem Adds.bounded {added : List (String × Nat)} (h : Adds added c c')
    (hb : c.frame.scope.Bounded) (ha : ∀ l ∈ added, l.2 ≤ c.frame.scope.depth) :
    c'.frame.scope.Bounded := by
  intro l hl
  rw [h.labels] at hl
  rw [h.depth]
  rcases List.mem_append.1 hl with hl | hl
  · exact ha l hl
  · exact hb l hl

theorem Adds.isTop {added : List (String × Nat)} {n : Nat} {c c' : Context} (h : Adds added c c')
    (hs : c.Step n c') : c'.isTop = c.isTop := by
  have he : c'.enclosing.isEmpty = c.enclosing.isEmpty := by
    have := hs.enclosing.length_eq
    cases h₁ : c.enclosing <;> cases h₂ : c'.enclosing <;> rw [h₁, h₂] at this <;>
      first | rfl | cases this
  unfold Context.isTop
  rw [he, h.depth]

end Context

/-- A part of the compilation that declares nothing. -/
def Stays {α : Type} (x : Lower α) : Prop := ∀ c, (x c).2.Clean → c.Adds [] (x c).2

namespace Stays

variable {α β : Type} {m : Nat}

theorem pure (a : α) : Stays (pure a : Lower α) := fun c _ => .refl c

theorem bind {x : Lower α} {f : α → Lower β} (hx : Stays x) (hf : ∀ a, Stays (f a))
    (he : ∀ a, Evolves m (f a)) : Stays (x >>= f) := fun c h =>
  (hx c ((he _).clean _ h)).trans (hf _ _ h)

theorem andReturn {x : Lower α} (hx : Stays x) (f : α → β) :
    Stays (x >>= fun a => Pure.pure (f a)) :=
  hx.bind (fun _ => pure _) fun _ => .pure _

theorem ofMessage {x : Lower α} (h : ∀ c, ¬ (x c).2.Clean) : Stays x :=
  fun c hc => absurd hc (h c)

end Stays

theorem stays_constant (k : Constant) : Stays (constant k) := fun _ _ => ⟨rfl, rfl, rfl⟩

theorem stays_literal (l : Literal) (span : Span) : Stays (literal l span) := by
  cases l with
  | bool b => cases b <;> exact .pure _
  | nil | void => exact .pure _
  | _ => exact (stays_constant _).andReturn _

theorem stays_resolve (id : Ident) : Stays (resolve id) := by
  intro c h
  rcases resolve_cases id c with ⟨_, -, he⟩ | ⟨-, _, f, _, hf, he⟩ | ⟨-, -, _, -, -, he⟩ | ⟨cause, -, he⟩
  · rw [he]
    exact .refl c
  · rw [he]
    have hs : f.scope = c.frame.scope := (captureFrom_spec hf).1.scope
    exact ⟨congrArg Scope.depth hs, congrArg Scope.labels hs, rfl⟩
  · rw [he]
    exact .refl c
  · rw [he] at h
    exact absurd h (not_clean_report cause id.span c)

/-! ## Declarations -/

theorem adds_addLocal (name : String) (c : Context) :
    c.Adds [(name, c.frame.scope.depth)] (addLocal name c).2 := ⟨rfl, rfl, rfl⟩

theorem declareLocal_eq (id : Ident) (c : Context) :
    declareLocal id c = (if c.frame.scope.declares id.name then do
      report (.redeclared id.name) id.span
      return none
    else do
      let slot ← addLocal id.name
      return some (.local slot) : Lower (Option Binding)) c := rfl

theorem declareLocal_of_clean (h : (declareLocal id c).2.Clean) :
    declareLocal id c =
      (some (.local c.frame.scope.locals.length.toUInt32), (addLocal id.name c).2) := by
  rw [declareLocal_eq] at h ⊢
  split at h
  · exact absurd h (not_clean_report _ _ c)
  · rw [if_neg ‹_›]
    rfl

theorem declare_of_clean (ht : c.isTop = false) (h : (declare id c).2.Clean) :
    declare id c = (some (.local c.frame.scope.locals.length.toUInt32), (addLocal id.name c).2) := by
  have he : declare id c = declareLocal id c := by
    have : declare id c = (if c.isTop then declareGlobal id else declareLocal id) c := rfl
    rw [this, ht]
    rfl
  rw [he] at h ⊢
  exact declareLocal_of_clean h

theorem declareParams_cons_of_clean {ids : List Ident} (h : (declareParams (id :: ids) c).2.Clean) :
    declareParams (id :: ids) c = declareParams ids (addLocal id.name c).2 := by
  rw [declareParams_cons] at h ⊢
  split at h
  · have hr := ((evolves_addLocal id.name).bind fun _ => evolves_declareParams ids).clean _ h
    exact absurd hr (not_clean_report _ _ c)
  · rw [if_neg ‹_›]
    rfl

theorem adds_declareParams {ids : List Ident} (h : (declareParams ids c).2.Clean) :
    c.Adds (ids.map fun id => (id.name, c.frame.scope.depth)).reverse (declareParams ids c).2 := by
  induction ids generalizing c with
  | nil => exact .refl c
  | cons id ids ih =>
    have he := declareParams_cons_of_clean h
    rw [he] at h ⊢
    have := (adds_addLocal id.name c).trans (ih h)
    rwa [List.map_cons, List.reverse_cons]

theorem adds_leaveScope {c₁ : Context} (span : Span) {added : List (String × Nat)}
    (hb : c.frame.scope.Bounded) (h : Context.Adds added (modifyScope Scope.enter c).2 c₁)
    (ha : ∀ l ∈ added, l.2 = c.frame.scope.depth + 1) : c.Adds [] (leaveScope span c₁).2 := by
  have hd : c₁.frame.scope.depth = c.frame.scope.depth + 1 := h.depth
  refine ⟨?_, ?_, h.globals⟩
  · show c₁.frame.scope.depth - 1 = _
    rw [hd]
    rfl
  · refine Scope.labels_leave_of_append (s := c₁.frame.scope) h.labels ?_ ?_
    · intro l hl
      exact Nat.le_of_eq (hd.trans (ha l hl).symm)
    · intro l hl
      rw [hd]
      exact Nat.lt_succ_of_le (hb l hl)

theorem bounded_enter (h : c.frame.scope.Bounded) :
    (modifyScope Scope.enter c).2.frame.scope.Bounded :=
  fun l hl => Nat.le_succ_of_le (h l hl)

theorem isTop_enter (c : Context) : (modifyScope Scope.enter c).2.isTop = false := by
  show (c.enclosing.isEmpty && c.frame.scope.depth + 1 == 0) = false
  simp

/-! ## Functions -/

theorem bounded_inside (c : Context) (self : String) : (c.inside self).frame.scope.Bounded := by
  intro l hl
  have : l = (self, c.frame.scope.depth + 1) := List.mem_singleton.1 hl
  rw [this]
  exact Nat.le_refl _

theorem bounded_declareParams {self : String} (h : (declareParams params (c.inside self)).2.Clean) :
    (declareParams params (c.inside self)).2.frame.scope.Bounded ∧
      (declareParams params (c.inside self)).2.isTop = false := by
  have hadds := adds_declareParams h
  refine ⟨hadds.bounded (bounded_inside c self) ?_, ?_⟩
  · intro l hl
    obtain ⟨id, -, rfl⟩ := List.mem_map.1 (List.mem_reverse.1 hl)
    exact Nat.le_refl _
  · rw [hadds.isTop ((evolves_declareParams params).step _ h)]
    rfl

theorem stays_function {n : Nat} {self : String} {span : Span} {body : Lower Fragment}
    (he : Evolves n body) (hb : ∀ c, (body c).2.Clean → c.frame.scope.Bounded → c.isTop = false →
    (body c).2.globals = c.globals) : Stays (function name self params span body) := by
  intro c h
  obtain ⟨-, hclean, heq⟩ := function_of_clean h
  have hpasses := ((evolves_withParams params he).step _ hclean).outside.2
  have hparams : (declareParams params (c.inside self)).2.Clean := he.clean _ hclean
  obtain ⟨hbounded, htop⟩ := bounded_declareParams hparams
  have hglobals := hb _ hclean hbounded htop
  rw [(adds_declareParams hparams).globals] at hglobals
  rw [heq]
  exact ⟨hpasses.scope.depth, hpasses.scope.labels, hglobals⟩

/-! ## Expressions and statements -/

/-- The statement declares what its text says. -/
def StatementAdds (strip : Bool) (s : Stmt) : Prop :=
  ∀ loop c, (statement strip loop s c).2.Clean → c.frame.scope.Bounded →
    (s.isDeclaration = true → c.isTop = false) →
    c.Adds (s.adds c.frame.scope.depth) (statement strip loop s c).2

theorem StatementAdds.quiet {s : Stmt} (h : StatementAdds strip s) (hd : s.isDeclaration = false)
    (hc : (statement strip loop s c).2.Clean) (hb : c.frame.scope.Bounded) :
    c.Adds [] (statement strip loop s c).2 := by
  have := h loop c hc hb (by simp [hd])
  rwa [Stmt.adds_of_not_declaration hd] at this

/-- The statements declare what their text says. -/
def StatementsAdd (strip : Bool) (ss : List Stmt) : Prop :=
  ∀ loop c, (statements strip loop ss c).2.Clean → c.frame.scope.Bounded → c.isTop = false →
    c.Adds (Stmt.addAll c.frame.scope.depth ss) (statements strip loop ss c).2

theorem StatementsAdd.function {strip : Bool} {self : String} {span : Span} {ss : List Stmt}
    (h : StatementsAdd strip ss) : Stays (function name self params span (statements strip none ss)) :=
  stays_function (evolves_statements strip none ss) fun c hc hb ht => (h none c hc hb ht).globals

section Statements

variable {strip : Bool} {span : Span}

theorem statementAdds_variable {init : Expr} (hi : Stays (expression strip init)) :
    StatementAdds strip (.variable id init span) := by
  intro loop c h _ ht
  have hclean : (declare id (expression strip init c).2).2.Clean := h
  have hinit := hi c ((evolves_declare id).clean _ hclean)
  have htop : (expression strip init c).2.isTop = false := by
    rw [hinit.isTop ((evolves_expression strip init).step c ((evolves_declare id).clean _ hclean))]
    exact ht rfl
  have hdeclare : (declare id (expression strip init c).2).2 =
      (addLocal id.name (expression strip init c).2).2 := by
    rw [declare_of_clean htop hclean]
  show c.Adds _ (declare id (expression strip init c).2).2
  rw [hdeclare]
  have := hinit.trans (adds_addLocal id.name _)
  rw [hinit.depth] at this
  exact this

theorem statement_function_eq {body : List Stmt} :
    statement strip loop (.function id params body span) c = (if c.isTop then do
      let closure ← function id.name "" params span (statements strip none body)
      let declared ← declare id
      return closure ++ define declared span
    else do
      let declared ← declare id
      let closure ← function id.name "" params span (statements strip none body)
      return closure ++ define declared span : Lower Fragment) c := by
  rw [statement]
  rfl

theorem statement_function_of_not_top {body : List Stmt} (ht : c.isTop = false) :
    statement strip loop (.function id params body span) c = (do
      let declared ← declare id
      let closure ← function id.name "" params span (statements strip none body)
      return closure ++ define declared span) c := by
  rw [statement_function_eq, ht]
  rfl

theorem statementAdds_function {body : List Stmt}
    (hf : Stays (function id.name "" params span (statements strip none body))) :
    StatementAdds strip (.function id params body span) := by
  intro loop c h _ ht
  have htop := ht rfl
  rw [statement_function_of_not_top htop] at h ⊢
  have hev : Evolves _ (function id.name "" params span (statements strip none body)) :=
    evolves_function (evolves_statements strip none body)
  have hclean : (function id.name "" params span (statements strip none body)
    (declare id c).2).2.Clean := h
  have hdeclare := declare_of_clean htop (hev.clean _ hclean)
  show c.Adds _ (function id.name "" params span (statements strip none body) (declare id c).2).2
  have hfun := hf _ hclean
  rw [hdeclare] at hfun ⊢
  exact (adds_addLocal id.name c).trans hfun

theorem statementAdds_expression {e : Expr} (he : Stays (expression strip e)) :
    StatementAdds strip (.expression e span) := by
  intro loop c h _ _
  show c.Adds [] _
  revert h
  cases e with
  | literal l literalSpan =>
    unfold statement
    split
    · exact fun _ => .refl c
    · exact (stays_literal l literalSpan).andReturn _ c
  | name id nameSpan =>
    intro h
    obtain ⟨b, -, heq⟩ := statement_name h
    rw [heq] at h ⊢
    exact stays_resolve id c h
  | _ => exact he.andReturn _ c

theorem statementAdds_block {body : List Stmt} (hb : StatementsAdd strip body) :
    StatementAdds strip (.block body span) := by
  intro loop c h hbounded _
  have hclean : (statements strip loop body (modifyScope Scope.enter c).2).2.Clean :=
    (evolves_leaveScope span).clean _ h
  have hadds := hb loop _ hclean (bounded_enter hbounded) (isTop_enter c)
  exact adds_leaveScope span hbounded hadds fun l hl => Stmt.depth_of_mem_addAll hl

theorem statementAdds_cond {test : Expr} {consequent : Stmt} {alternate : Option Stmt}
    (ht : Stays (expression strip test)) (hc : StatementAdds strip consequent)
    (hcd : consequent.isDeclaration = false)
    (ha : ∀ s ∈ alternate, StatementAdds strip s ∧ s.isDeclaration = false) :
    StatementAdds strip (.cond test consequent alternate span) := by
  intro loop c h hbounded _
  set c₁ := (expression strip test c).2
  set c₂ := (statement strip loop consequent c₁).2
  have hclean : (optionalStatement strip loop alternate c₂).2.Clean := h
  have hclean₂ := (evolves_optionalStatement strip loop alternate).clean _ hclean
  have hclean₁ := (evolves_statement strip loop consequent).clean _ hclean₂
  have h₁ : c.Adds [] c₁ := ht c hclean₁
  have hb₁ := h₁.bounded hbounded nofun
  have h₂ : c₁.Adds [] c₂ := hc.quiet hcd hclean₂ hb₁
  have hb₂ := h₂.bounded hb₁ nofun
  have h₃ : c₂.Adds [] (optionalStatement strip loop alternate c₂).2 := by
    cases alternate with
    | none => exact .refl c₂
    | some s =>
      obtain ⟨hs, hsd⟩ := ha s rfl
      exact hs.quiet hsd hclean hb₂
  exact (h₁.trans h₂).trans h₃

theorem statementAdds_while {test : Expr} (ht : Stays (expression strip test))
    (hb : StatementAdds strip body) (hbd : body.isDeclaration = false) :
    StatementAdds strip (.while test body span) := by
  intro loop c h hbounded _
  set c₁ := (expression strip test c).2
  have hclean : (statement strip (some { depth := c₁.frame.scope.depth }) body c₁).2.Clean := h
  have h₁ : c.Adds [] c₁ := ht c ((evolves_statement strip _ body).clean _ hclean)
  exact h₁.trans (hb.quiet hbd hclean (h₁.bounded hbounded nofun))

theorem statementAdds_loop (hb : StatementAdds strip body) (hbd : body.isDeclaration = false) :
    StatementAdds strip (.loop body span) := by
  intro loop c h hbounded _
  exact hb.quiet hbd h hbounded

theorem adds_round {c' : Context} (span : Span) (hb : StatementAdds strip body)
    (hc' : c' = (addLocal name (modifyScope Scope.enter c).2).2) (hbounded : c.frame.scope.Bounded)
    (hclean : (statement strip loop body c').2.Clean) :
    c.Adds [] (leaveScope span (statement strip loop body c').2).2 := by
  set c₁ := (modifyScope Scope.enter c).2
  have h₁ : c₁.Adds [(name, c₁.frame.scope.depth)] c' := hc' ▸ adds_addLocal name c₁
  have hb₁ := h₁.bounded (bounded_enter hbounded) (by simp)
  have htop : c'.isTop = false := hc' ▸ isTop_enter c
  have h₂ := h₁.trans (hb loop c' hclean hb₁ fun _ => htop)
  refine adds_leaveScope span hbounded h₂ fun l hl => ?_
  rcases List.mem_append.1 hl with hl | hl
  · exact (Stmt.depth_of_mem_adds hl).trans h₁.depth
  · rw [List.mem_singleton.1 hl]
    rfl

theorem statementAdds_forIn {iterable : Expr} (hi : Stays (expression strip iterable))
    (hb : StatementAdds strip body) : StatementAdds strip (.forIn id iterable body span) := by
  intro loop c h hbounded _
  set c₁ := (expression strip iterable c).2
  set c₂ := (modifyScope Scope.enter c₁).2
  set c₃ := (declare id c₂).2
  set inner : Option Loop := some { depth := c₁.frame.scope.depth }
  have hclean₄ : (statement strip inner body c₃).2.Clean := (evolves_leaveScope span).clean _ h
  have hclean₃ := (evolves_statement strip inner body).clean _ hclean₄
  have hclean₂ := (evolves_declare id).clean _ hclean₃
  have h₁ : c.Adds [] c₁ := hi c (evolves_enter.clean _ hclean₂)
  have hb₁ := h₁.bounded hbounded nofun
  have hdeclare : c₃ = (addLocal id.name c₂).2 :=
    congrArg Prod.snd (declare_of_clean (isTop_enter c₁) hclean₃)
  exact h₁.trans (adds_round span hb hdeclare hb₁ hclean₄)

theorem clean_parts_of_for {init : Expr} {test update : Option Expr}
    (h : (statement strip loop (.for id init test update body span) c).2.Clean) :
    let c₁ := (modifyScope Scope.enter c).2
    let c₂ := (expression strip init c₁).2
    let c₃ := (addLocal id.name c₂).2
    let c₄ := (optionalExpression strip update c₃).2
    let c₅ := (optionalExpression strip test c₄).2
    let c₆ := (modifyScope Scope.enter c₅).2
    let round : Loop := ⟨c₁.frame.scope.depth, some ((addLocal id.name c₂).1, (addLocal id.name c₆).1)⟩
    let c₈ := (statement strip (some round) body (addLocal id.name c₆).2).2
    c₂.Clean ∧ c₃.Clean ∧ c₄.Clean ∧ c₅.Clean ∧ c₈.Clean ∧ (leaveScope span c₈).2.Clean := by
  intro c₁ c₂ c₃ c₄ c₅ c₆ round c₈
  have hclean₉ : (leaveScope span c₈).2.Clean := (evolves_leaveScope span).clean _ h
  have hclean₈ : c₈.Clean := (evolves_leaveScope span).clean _ hclean₉
  have hclean₇ := (evolves_statement strip (some round) body).clean _ hclean₈
  have hclean₅ : c₅.Clean := evolves_enter.clean _ ((evolves_addLocal id.name).clean _ hclean₇)
  have hclean₄ : c₄.Clean := (evolves_optionalExpression strip test).clean _ hclean₅
  have hclean₃ : c₃.Clean := (evolves_optionalExpression strip update).clean _ hclean₄
  exact ⟨(evolves_addLocal id.name).clean _ hclean₃, hclean₃, hclean₄, hclean₅, hclean₈, hclean₉⟩

theorem statementAdds_for {init : Expr} {test update : Option Expr}
    (hi : Stays (expression strip init)) (ht : Stays (optionalExpression strip test))
    (hu : Stays (optionalExpression strip update)) (hb : StatementAdds strip body) :
    StatementAdds strip (.for id init test update body span) := by
  intro loop c h hbounded _
  obtain ⟨hclean₂, -, hclean₄, hclean₅, hclean₈, -⟩ := clean_parts_of_for h
  set c₁ := (modifyScope Scope.enter c).2
  set c₂ := (expression strip init c₁).2
  set c₃ := (addLocal id.name c₂).2
  set c₄ := (optionalExpression strip update c₃).2
  set c₅ := (optionalExpression strip test c₄).2
  set c₆ := (modifyScope Scope.enter c₅).2
  set c₇ := (addLocal id.name c₆).2 with hc₇
  set inner : Option Loop := some
    ⟨c₁.frame.scope.depth, some ((addLocal id.name c₂).1, (addLocal id.name c₆).1)⟩
  set c₈ := (statement strip inner body c₇).2
  have h₂ : c₁.Adds [] c₂ := hi c₁ hclean₂
  have h₃ : c₁.Adds [(id.name, c₁.frame.scope.depth)] c₃ := by
    have := h₂.trans (adds_addLocal id.name c₂)
    rwa [h₂.depth] at this
  have h₅ : c₁.Adds [(id.name, c₁.frame.scope.depth)] c₅ :=
    (h₃.trans (hu c₃ hclean₄)).trans (ht c₄ hclean₅)
  have hb₅ := h₅.bounded (bounded_enter hbounded) (by simp)
  have h₉ : c₅.Adds [] (leaveScope span c₈).2 := adds_round span hb hc₇ hb₅ hclean₈
  refine adds_leaveScope span hbounded (h₅.trans h₉) fun l hl => ?_
  rw [List.mem_singleton.1 hl]
  rfl

theorem statementAdds_return {value : Option Expr} (hv : Stays (optionalExpression strip value)) :
    StatementAdds strip (.return value span) := by
  intro loop c h _ _
  show c.Adds [] _
  have hcode := (return_of_clean h).2
  rw [hcode] at h ⊢
  cases value with
  | none => exact .refl c
  | some e => exact hv c h

theorem statementAdds_exit (how : LoopExit) : StatementAdds strip (.exit how span) := by
  intro loop c h _ _
  show c.Adds [] (exitLoop loop how span c).2
  cases loop with
  | none => exact absurd h (not_clean_report _ _ c)
  | some loop => exact .refl c

theorem stays_reportRepeated (seen : List String) (ids : List Ident) :
    Stays (reportRepeated seen ids) := by
  induction ids generalizing seen with
  | nil => exact .pure _
  | cons id ids ih =>
    unfold reportRepeated
    split
    · exact .ofMessage (not_clean_report _ _)
    · exact ih _

/-- What a declaration of a record type does but for declaring its name. -/
def recordParts (strip : Bool) (id : Ident) (fields : List Ident) (methods : List Method)
    (span : Span) : Lower Fragment := do
  reportRepeated [] fields
  reportRepeated [] (methods.map Method.id)
  let record ← pushConstant ⟨.record ⟨id.name, fields.map Ident.name, []⟩⟩ span
  let closures ← methodClosures strip span methods
  let append := if methods.isEmpty then []
    else Fragment.emit ⟨.appendMethods, methods.length.toUInt32⟩ span
  return record ++ closures ++ append

theorem evolves_recordParts (id : Ident) (fields : List Ident) (methods : List Method) :
    Evolves (1 + Method.sizes methods) (recordParts strip id fields methods span) :=
  ((evolves_reportRepeated _ _).bind fun _ => (evolves_reportRepeated _ _).bind fun _ =>
    (evolves_pushConstant _ span).bind fun _ =>
      (evolves_methodClosures strip span methods).andReturn _).mono (by omega)

theorem stays_recordParts (hm : Stays (methodClosures strip span methods)) :
    Stays (recordParts strip id fields methods span) :=
  (stays_reportRepeated _ _).bind (m := 1 + Method.sizes methods)
    (fun _ => (stays_reportRepeated _ _).bind (m := 1 + Method.sizes methods)
      (fun _ => ((stays_constant _).andReturn _).bind (fun _ => hm.andReturn _)
        fun _ => (evolves_methodClosures strip span methods).andReturn _)
      fun _ => (evolves_pushConstant _ span).bind fun _ =>
        (evolves_methodClosures strip span methods).andReturn _)
    fun _ => ((evolves_reportRepeated _ _).bind fun _ => (evolves_pushConstant _ span).bind fun _ =>
      (evolves_methodClosures strip span methods).andReturn _).mono (by omega)

theorem statement_record_eq :
    statement strip loop (.record id fields methods span) c = (if c.isTop then do
      let code ← recordParts strip id fields methods span
      let declared ← declare id
      return code ++ define declared span
    else do
      let declared ← declare id
      let code ← recordParts strip id fields methods span
      return code ++ define declared span : Lower Fragment) c := by
  have htop : atTopLevel c = (c.isTop, c) := rfl
  rw [statement, bind_apply, htop]
  cases c.isTop <;> rfl

theorem statementAdds_record (hm : Stays (methodClosures strip span methods)) :
    StatementAdds strip (.record id fields methods span) := by
  intro loop c h _ ht
  have htop := ht rfl
  rw [statement_record_eq, htop] at h ⊢
  have hclean : (recordParts strip id fields methods span (declare id c).2).2.Clean := h
  have hdeclare := declare_of_clean htop ((evolves_recordParts id fields methods).clean _ hclean)
  show c.Adds _ (recordParts strip id fields methods span (declare id c).2).2
  have hadds := stays_recordParts hm _ hclean
  rw [hdeclare] at hadds ⊢
  exact (adds_addLocal id.name c).trans hadds

end Statements

mutual

/-- A tidy expression declares nothing. -/
theorem stays_of_isTidy (strip : Bool) : (e : Expr) → e.isTidy = true → Stays (expression strip e)
  | .literal l span, _ => stays_literal l span
  | .name id span, _ => by
    refine (stays_resolve id).bind (m := 0) (fun b => ?_) (fun b => ?_)
    · cases b <;> exact .pure _
    · cases b <;> exact .pure _
  | .binary op left right span, h => by
    obtain ⟨hl, hr⟩ := (Bool.and_eq_true ..).mp h
    exact (stays_of_isTidy strip left hl).bind (fun _ => (stays_of_isTidy strip right hr).andReturn _)
      fun _ => (evolves_expression strip right).andReturn _
  | .logical op left right span, h => by
    obtain ⟨hl, hr⟩ := (Bool.and_eq_true ..).mp h
    exact (stays_of_isTidy strip left hl).bind (fun _ => (stays_of_isTidy strip right hr).andReturn _)
      fun _ => (evolves_expression strip right).andReturn _
  | .unary op operand span, h => (stays_of_isTidy strip operand h).andReturn _
  | .assign target value span, h => by
    obtain ⟨ht, hv⟩ := (Bool.and_eq_true ..).mp h
    have hvalue := stays_of_isTidy strip value hv
    cases target with
    | name id _ =>
      refine hvalue.bind (m := 1) (fun code => ?_) (fun code => ?_)
      · refine (stays_resolve id).bind (m := 0) (fun b => ?_) (fun b => ?_)
        · cases b <;> exact .pure _
        · cases b <;> exact .pure _
      · refine (evolves_resolve id).bind (m := 0) fun b => ?_
        cases b <;> exact .pure _
    | member object property _ =>
      exact (stays_of_isTidy strip object ht).bind
        (fun _ => hvalue.bind (fun _ => (stays_constant _).andReturn _)
          fun _ => (evolves_constant _).andReturn _)
        fun _ => (evolves_expression strip value).bind fun _ => (evolves_constant _).andReturn _
    | _ =>
      refine .ofMessage fun c hc => ?_
      exact not_clean_report _ _ c ((evolves_expression strip value).clean _ hc)
  | .call callee arguments span, h => by
    obtain ⟨hc, ha⟩ := (Bool.and_eq_true ..).mp h
    have harguments := stays_of_areTidy strip arguments ha
    cases callee with
    | member object property _ =>
      exact (stays_of_isTidy strip object hc).bind
        (fun _ => harguments.bind (fun _ => (stays_constant _).andReturn _)
          fun _ => (evolves_constant _).andReturn _)
        fun _ => (evolves_expressions strip arguments).bind fun _ => (evolves_constant _).andReturn _
    | _ =>
      exact (stays_of_isTidy strip _ hc).bind (fun _ => harguments.andReturn _)
        fun _ => (evolves_expressions strip arguments).andReturn _
  | .member object property span, h =>
    (stays_of_isTidy strip object h).bind (fun _ => (stays_constant _).andReturn _)
      fun _ => (evolves_constant _).andReturn _
  | .range first last inclusive span, h => by
    obtain ⟨hf, hl⟩ := (Bool.and_eq_true ..).mp h
    exact (stays_of_isTidy strip first hf).bind (fun _ => (stays_of_isTidy strip last hl).andReturn _)
      fun _ => (evolves_expression strip last).andReturn _
  | .arrow params body span, h =>
    stays_function ((evolves_expression strip body).andReturn _) fun c hc _ _ =>
      ((stays_of_isTidy strip body h).andReturn _ c hc).globals
  | .lambda params body span, h => (statementsAdd_of_areTidy strip body h).function

theorem stays_of_areTidy (strip : Bool) :
    (es : List Expr) → Expr.areTidy es = true → Stays (expressions strip es)
  | [], _ => .pure _
  | e :: es, h => by
    obtain ⟨he, hes⟩ := (Bool.and_eq_true ..).mp h
    exact (stays_of_isTidy strip e he).bind (fun _ => (stays_of_areTidy strip es hes).andReturn _)
      fun _ => (evolves_expressions strip es).andReturn _

/-- A tidy statement declares what its text says. -/
theorem statementAdds_of_isTidy (strip : Bool) : (s : Stmt) → s.isTidy = true → StatementAdds strip s
  | .variable _ init _, h => statementAdds_variable (stays_of_isTidy strip init h)
  | .function _ _ body _, h =>
    statementAdds_function (statementsAdd_of_areTidy strip body h).function
  | .record _ _ methods _, h => statementAdds_record (stays_methodClosures strip methods h)
  | .expression e _, h => statementAdds_expression (stays_of_isTidy strip e h)
  | .block body _, h => statementAdds_block (statementsAdd_of_areTidy strip body h)
  | .cond test consequent alternate _, h => by
    obtain ⟨h₁, ha⟩ := (Bool.and_eq_true ..).mp h
    obtain ⟨ht, h₂⟩ := (Bool.and_eq_true ..).mp h₁
    obtain ⟨hc, hcd⟩ := (Bool.and_eq_true ..).mp h₂
    exact statementAdds_cond (stays_of_isTidy strip test ht)
      (statementAdds_of_isTidy strip consequent hc) (by simpa using hcd) (branchAdds strip alternate ha)
  | .while test body _, h => by
    obtain ⟨ht, h₁⟩ := (Bool.and_eq_true ..).mp h
    obtain ⟨hb, hbd⟩ := (Bool.and_eq_true ..).mp h₁
    exact statementAdds_while (stays_of_isTidy strip test ht) (statementAdds_of_isTidy strip body hb)
      (by simpa using hbd)
  | .loop body _, h => by
    obtain ⟨hb, hbd⟩ := (Bool.and_eq_true ..).mp h
    exact statementAdds_loop (statementAdds_of_isTidy strip body hb) (by simpa using hbd)
  | .forIn _ iterable body _, h => by
    obtain ⟨hi, hb⟩ := (Bool.and_eq_true ..).mp h
    exact statementAdds_forIn (stays_of_isTidy strip iterable hi) (statementAdds_of_isTidy strip body hb)
  | .for _ init test update body _, h => by
    obtain ⟨h₁, hb⟩ := (Bool.and_eq_true ..).mp h
    obtain ⟨h₂, hu⟩ := (Bool.and_eq_true ..).mp h₁
    obtain ⟨hi, ht⟩ := (Bool.and_eq_true ..).mp h₂
    exact statementAdds_for (stays_of_isTidy strip init hi) (stays_of_isTidyOption strip test ht)
      (stays_of_isTidyOption strip update hu) (statementAdds_of_isTidy strip body hb)
  | .return value _, h => statementAdds_return (stays_of_isTidyOption strip value h)
  | .exit how _, _ => statementAdds_exit how

theorem statementsAdd_of_areTidy (strip : Bool) :
    (ss : List Stmt) → Stmt.areTidy ss = true → StatementsAdd strip ss
  | [], _ => fun _ c _ _ _ => .refl c
  | s :: ss, h => by
    obtain ⟨hs, hss⟩ := (Bool.and_eq_true ..).mp h
    intro loop c hclean hb ht
    have hclean₂ : (statements strip loop ss (statement strip loop s c).2).2.Clean := hclean
    have hclean₁ := (evolves_statements strip loop ss).clean _ hclean₂
    have h₁ := statementAdds_of_isTidy strip s hs loop c hclean₁ hb fun _ => ht
    have hb₁ := h₁.bounded hb fun l hl => Nat.le_of_eq (Stmt.depth_of_mem_adds hl)
    have ht₁ := h₁.isTop ((evolves_statement strip loop s).step c hclean₁)
    have h₂ := statementsAdd_of_areTidy strip ss hss loop _ hclean₂ hb₁ (ht₁.trans ht)
    rw [h₁.depth] at h₂
    exact h₁.trans h₂

theorem branchAdds (strip : Bool) : (s : Option Stmt) → Stmt.isTidyBranch s = true →
    ∀ x ∈ s, StatementAdds strip x ∧ x.isDeclaration = false
  | none, _ => nofun
  | some s, h => by
    obtain ⟨hs, hd⟩ := (Bool.and_eq_true ..).mp h
    intro x hx
    obtain rfl := Option.some.inj hx
    exact ⟨statementAdds_of_isTidy strip s hs, by simpa using hd⟩

theorem stays_of_isTidyOption (strip : Bool) : (e : Option Expr) → Expr.isTidyOption e = true →
    Stays (optionalExpression strip e)
  | none, _ => .pure _
  | some e, h => (stays_of_isTidy strip e h).andReturn _

theorem stays_methodClosures (strip : Bool) {span : Span} :
    (ms : List Method) → Method.areTidy ms = true → Stays (methodClosures strip span ms)
  | [], _ => .pure _
  | ⟨id, params, body⟩ :: ms, h => by
    obtain ⟨hb, hms⟩ := (Bool.and_eq_true ..).mp h
    exact (statementsAdd_of_areTidy strip body hb).function.bind
      (fun _ => (stays_methodClosures strip ms hms).andReturn _)
      fun _ => (evolves_methodClosures strip span ms).andReturn _

end

section Plain

variable (strip : Bool)

theorem stays_expression (e : Expr) (h : e.isPlain = true) : Stays (expression strip e) :=
  stays_of_isTidy strip e (e.isTidy_of_isPlain h)

theorem stays_option (e : Option Expr) (h : Expr.isPlainOption e = true) :
    Stays (optionalExpression strip e) :=
  stays_of_isTidyOption strip e (Expr.isTidyOption_of_isPlainOption e h)

theorem statementAdds (s : Stmt) (h : s.isPlain = true) : StatementAdds strip s :=
  statementAdds_of_isTidy strip s (s.isTidy_of_isPlain h)

theorem statementsAdd (ss : List Stmt) (h : Stmt.arePlain ss = true) : StatementsAdd strip ss :=
  statementsAdd_of_areTidy strip ss (Stmt.areTidy_of_arePlain ss h)

end Plain

/-! ## Captured variables -/

/-- The names of the locals of functions, from the inside to the outside and the newest first. -/
def namesOf (fs : List Frame) : List String := fs.flatMap fun f => f.scope.labels.map Prod.fst

/-- The position of a captured variable among the names of the functions around. -/
def target : List Frame → Capture → Option Nat
  | [], _ => none
  | g :: gs, x =>
    if x.fromLocal then some (g.scope.locals.length - 1 - x.index.toNat)
    else (g.captures[x.index.toNat]?).bind fun y =>
      (target gs y).map (g.scope.locals.length + ·)

theorem length_names (f : Frame) : (f.scope.labels.map Prod.fst).length = f.scope.locals.length := by
  simp [Scope.labels]

theorem namesOf_cons (f : Frame) (fs : List Frame) :
    namesOf (f :: fs) = f.scope.labels.map Prod.fst ++ namesOf fs := rfl

theorem namesOf_passes (h : List.Forall₂ Frame.Passes gs gs') : namesOf gs' = namesOf gs := by
  induction h with
  | nil => rfl
  | cons hg _ ih => rw [namesOf_cons, namesOf_cons, hg.scope.labels, ih]

theorem target_passes {x : Capture} {p : Nat} (h : List.Forall₂ Frame.Passes gs gs')
    (ht : target gs x = some p) : target gs' x = some p := by
  induction h generalizing x p with
  | nil => exact ht
  | @cons g g' gs gs' hg _ ih =>
    unfold target at ht ⊢
    rw [hg.scope.length]
    by_cases hl : x.fromLocal
    · rwa [if_pos hl] at ht ⊢
    · rw [if_neg hl] at ht ⊢
      obtain ⟨y, hy, ht⟩ := Option.bind_eq_some_iff.1 ht
      obtain ⟨q, hq, rfl⟩ := Option.map_eq_some_iff.1 ht
      obtain ⟨rest, hrest⟩ := hg.captures
      rw [← hrest, List.getElem?_append_left (List.getElem?_eq_some_iff.1 hy).1, hy,
        Option.bind_some, ih hq, Option.map_some]

/-- Every captured variable leads to one. -/
theorem exists_target {x : Capture} (h : Linked f gs) (hx : x ∈ f.captures) :
    ∃ p, target gs x = some p := by
  induction gs generalizing f x with
  | nil =>
    rw [show f.captures = [] from h] at hx
    cases hx
  | cons g gs ih =>
    have hi := h.1 x hx
    unfold target
    by_cases hl : x.fromLocal
    · exact ⟨_, if_pos hl⟩
    · rw [if_neg hl] at hi ⊢
      obtain ⟨p, hp⟩ := ih h.2 (List.getElem_mem hi)
      exact ⟨_, by rw [List.getElem?_eq_getElem hi, Option.bind_some, hp, Option.map_some]⟩

/-- The slot of a name says where it occurs first. -/
theorem findIdx?_of_slotIn? (name : String) (ls : List Local) :
    ((ls.map Local.label).map Prod.fst).findIdx? (· = name) =
      (Scope.slotIn? name ls).map (ls.length - 1 - ·) := by
  induction ls with
  | nil => rfl
  | cons l ls ih =>
    rw [List.map_cons, List.map_cons, List.findIdx?_cons, ih, Scope.slotIn?]
    by_cases h : l.name = name
    · rw [if_pos h, if_pos (decide_eq_true (show l.label.1 = name from h))]
      simp
    · have hl : ¬ decide (l.label.1 = name) = true := fun hd => h (of_decide_eq_true hd)
      rw [if_neg h, if_neg hl]
      cases hs : Scope.slotIn? name ls with
      | none => rfl
      | some slot =>
        have := slotIn?_lt hs
        simp only [Option.map_some, List.length_cons]
        congr 1
        omega

theorem findIdx?_of_slot? (name : String) (f : Frame) :
    (f.scope.labels.map Prod.fst).findIdx? (· = name) =
      (f.scope.slot? name).map (f.scope.locals.length - 1 - ·) :=
  findIdx?_of_slotIn? name f.scope.locals

theorem findIdx?_namesOf_cons (name : String) (f : Frame) (fs : List Frame) :
    (namesOf (f :: fs)).findIdx? (· = name) =
      match f.scope.slot? name with
      | some slot => some (f.scope.locals.length - 1 - slot)
      | none => ((namesOf fs).findIdx? (· = name)).map (f.scope.locals.length + ·) := by
  rw [namesOf_cons, List.findIdx?_append, findIdx?_of_slot?, length_names]
  cases f.scope.slot? name with
  | some slot => rfl
  | none =>
    simp only [Option.map_none, Option.none_or]
    congr 1
    funext i
    exact Nat.add_comm i _

theorem captureFrom_target {f' : Frame} {i : Nat} (h : captureFrom name f gs = some (i, f', gs'))
    (hr : ∀ g ∈ gs, g.Room (2 ^ 32) 1) :
    ∃ x p, f'.captures[i]? = some x ∧ target gs' x = some p ∧
      (namesOf gs').findIdx? (· = name) = some p := by
  have hnames := namesOf_passes (captureFrom_spec h).2.1
  rw [hnames]
  induction gs generalizing f f' gs' i with
  | nil => simp [captureFrom] at h
  | cons g gs ih =>
    have hroom := hr g (List.mem_cons_self ..)
    rw [findIdx?_namesOf_cons]
    rcases captureFrom_cons h with
      ⟨slot, hslot, rfl, rfl, rfl⟩ | ⟨hslot, j, g₁, gs₁, hrec, rfl, rfl, rfl⟩ <;> rw [hslot]
    · have hlt : slot < g.scope.locals.length := slotIn?_lt hslot
      have hfit : slot.toUInt32.toNat = slot := by
        have := hroom.locals
        exact Word.toNat_toUInt32 (by omega)
      refine ⟨_, _, (f.captured_capture _).2, ?_, rfl⟩
      unfold target
      rw [if_pos rfl]
      show some ((g.scope.capture slot).locals.length - 1 - slot.toUInt32.toNat) = _
      rw [hfit, (g.scope.alike_capture slot).length]
    · obtain ⟨hg, hgs, -⟩ := captureFrom_spec hrec
      obtain ⟨y, p, hy, hp, hfirst⟩ := ih hrec (fun g' hg' => hr g' (List.mem_cons_of_mem g hg'))
        (namesOf_passes hgs)
      have hfit : j.toUInt32.toNat = j := by
        have h₁ := hg.index
        have h₂ := hg.count
        have h₃ := hroom.captures
        exact Word.toNat_toUInt32 (by omega)
      refine ⟨_, _, (f.captured_capture _).2, ?_, by rw [hfirst]; rfl⟩
      unfold target
      rw [if_neg (by simp)]
      show (g₁.captures[j.toUInt32.toNat]?).bind _ = _
      rw [hfit, hy, Option.bind_some, hp, Option.map_some, hg.scope]

theorem findIdx?_of_captureFrom_none (h : captureFrom name f gs = none) :
    (namesOf gs).findIdx? (· = name) = none := by
  induction gs generalizing f with
  | nil => rfl
  | cons g gs ih =>
    unfold captureFrom at h
    rw [findIdx?_namesOf_cons]
    cases hslot : g.scope.slot? name with
    | some slot =>
      rw [hslot] at h
      cases h
    | none =>
      rw [hslot] at h
      simp only at h
      split at h
      · cases h
      · rename_i hrec
        rw [ih hrec]
        rfl

end Lowering

end StackScript
