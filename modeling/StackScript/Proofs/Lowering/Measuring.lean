import StackScript.Proofs.Lowering.Heights

/-!
# Every spot of a tidy program has its number of locals

By induction over expressions and statements: a tidy expression leaves the locals as they are, a
tidy statement adds those that its text declares, and each spot inside has the tally that
compilation knows there.
-/

namespace StackScript.Lowering

open Fragment (emit)

variable {limits : Limits} {strip : Bool}

/-! ## Expressions -/

/-- A part of the compilation whose code leaves the locals as they are. -/
structure Level (limits : Limits) (strip : Bool) (n : Nat) (x : Lower Fragment)
    (spots : Nat → Context → List Spot) : Prop where
  evolves : Evolves n x
  stays : Stays x
  measures : ∀ k c, (x c).2.Clean → c.Ready limits k n →
    Measures limits strip none c (x c).1 (x c).2 ⟨c.locals, false, k⟩ ⟨c.locals, false, k⟩
      fun o _ => spots o c

/-- The code of the expression leaves the locals as they are. -/
abbrev ExpressionLevel (limits : Limits) (strip : Bool) (e : Expr) : Prop :=
  Level limits strip e.size (expression strip e) fun o c => e.spots strip o c

section

variable {n m : Nat} {x y : Lower Fragment} {sp sp' : Nat → Context → List Spot} {k : Option Nat}
  {c : Context}

/-- What stays leaves the number of locals as it is. -/
theorem Stays.locals {α : Type} {x : Lower α} (h : Stays x) (hc : (x c).2.Clean) :
    (x c).2.locals = c.locals := by
  rw [(h c hc).locals]
  rfl

/-- What is left of the room behind a part that stays. -/
theorem Stays.ready {α : Type} {x : Lower α} (h : Stays x) (he : Evolves n x) (hc : (x c).2.Clean)
    (hr : c.Ready limits k (n + m)) : (x c).2.Ready limits k m :=
  hr.step (he.step c hc) (h c hc).globals

theorem Level.both (hx : Level limits strip n x sp) (hy : Level limits strip m y sp')
    (h : (y (x c).2).2.Clean) (hr : c.Ready limits k (n + m)) :
    Measures limits strip none c (x c).1 (x c).2 ⟨c.locals, false, k⟩ ⟨c.locals, false, k⟩
        (fun o _ => sp o c) ∧
      Measures limits strip none (x c).2 (y (x c).2).1 (y (x c).2).2 ⟨c.locals, false, k⟩
        ⟨c.locals, false, k⟩ fun o _ => sp' o (x c).2 := by
  have hclean := hy.evolves.clean _ h
  have hy' := hy.measures k _ h (hx.stays.ready hx.evolves hclean hr)
  rw [hx.stays.locals hclean] at hy'
  exact ⟨hx.measures k c hclean (hr.mono (Nat.le_add_right n m)), hy'⟩

theorem Level.seq (hx : Level limits strip n x sp) (hy : Level limits strip m y sp')
    (h : (y (x c).2).2.Clean) (hr : c.Ready limits k (n + m)) :
    Measures limits strip none c ((x c).1 ++ (y (x c).2).1) (y (x c).2).2 ⟨c.locals, false, k⟩
      ⟨c.locals, false, k⟩ fun o _ => sp o c ++ sp' (o + (x c).1.size) (x c).2 :=
  (hx.both hy h hr).1.append (hx.both hy h hr).2 rfl (Nat.le_refl _)

end

theorem below_of_resolve {id : Ident} {b : Binding} {k : Option Nat} {n : Nat} {c : Context}
    (h : (resolve id c).1 = some b) (hr : c.Ready limits k n) : b.Below limits c.locals := by
  rcases resolve_cases id c with ⟨slot, hs, he⟩ | ⟨-, i, f, gs, -, he⟩ | ⟨-, -, slot, hs, -, he⟩ |
    ⟨cause, -, he⟩
  · obtain rfl : Binding.local slot.toUInt32 = b := Option.some.inj ((congrArg Prod.fst he).symm.trans h)
    exact Nat.lt_of_le_of_lt (toNat_toUInt32_le slot) (slotIn?_lt hs)
  · obtain rfl : Binding.captured i.toUInt32 = b := Option.some.inj ((congrArg Prod.fst he).symm.trans h)
    trivial
  · obtain rfl : Binding.global slot.toUInt32 = b := Option.some.inj ((congrArg Prod.fst he).symm.trans h)
    refine Nat.lt_of_le_of_lt (toNat_toUInt32_le slot) ?_
    rw [← hr.globals]
    exact (List.findIdx?_eq_some_iff_getElem.1 hs).1
  · rw [he] at h
    cases h

theorem constants_resolve (id : Ident) (c : Context) :
    (resolve id c).2.frame.constants = c.frame.constants := by
  rcases resolve_cases id c with ⟨slot, -, he⟩ | ⟨-, i, f, gs, hf, he⟩ | ⟨-, -, slot, -, -, he⟩ |
    ⟨cause, -, he⟩
  · rw [he]
  · rw [he]
    exact (captureFrom_spec hf).1.passes.constants
  · rw [he]
  · rw [he]
    rw [report_eq]
    split <;> rfl

theorem measures_literal {k : Option Nat} (l : Literal) (span : Span) (c : Context) :
    Measures limits strip none c (literal l span c).1 (literal l span c).2 ⟨c.locals, false, k⟩
      ⟨c.locals, false, k⟩ fun _ _ => [] := by
  cases l with
  | bool b => cases b <;> exact measures_code (counted_idle rfl rfl) rfl
  | nil | void => exact measures_code (counted_idle rfl rfl) rfl
  | int | float | string | char =>
    refine (measures_code (d := c) ?_ rfl).constant ⟨rfl, nofun⟩
    exact counted_idle rfl rfl

/-! ## Statements -/

/-- Where a statement stands in a loop: the locals that an exit drops are those declared deeper than
the loop, and `m` are left. -/
structure Loop.Fits (L : Loop) (m : Nat) (c : Context) : Prop where
  labels : ∃ added kept, c.frame.scope.labels = added ++ kept ∧ kept.length = m ∧
    (∀ l ∈ added, L.depth < l.2) ∧ ∀ l ∈ kept, l.2 ≤ L.depth
  carry : ∀ p ∈ L.carry, p.1.toNat < m ∧ p.2.toNat < c.locals

/-- A point of the compilation where a statement begins, inside the given loop, if it is in one. -/
structure Context.Begins (limits : Limits) (k : Option Nat) (n : Nat) (loop : Option Loop) (m : Nat)
    (c : Context) : Prop where
  ready : c.Ready limits k n
  bounded : c.frame.scope.Bounded
  fits : ∀ L ∈ loop, L.Fits m c ∧ L.depth ≤ c.frame.scope.depth

section

variable {k : Option Nat} {n n' m : Nat} {loop : Option Loop} {L : Loop} {c c' : Context}
  {added : List (String × Nat)}

theorem Loop.Fits.adds (h : L.Fits m c) (ha : c.Adds added c') (hd : ∀ l ∈ added, L.depth < l.2) :
    L.Fits m c' := by
  obtain ⟨before, kept, hl, hm, hb, hk⟩ := h.labels
  refine ⟨⟨added ++ before, kept, ?_, hm, ?_, hk⟩, fun p hp => ?_⟩
  · rw [ha.labels, hl, List.append_assoc]
  · intro l hl
    rcases List.mem_append.1 hl with hl | hl
    · exact hd l hl
    · exact hb l hl
  · rw [ha.locals]
    exact ⟨(h.carry p hp).1, Nat.lt_add_right _ (h.carry p hp).2⟩

/-- The locals that an exit drops. -/
theorem Loop.Fits.length_above (h : L.Fits m c) :
    c.locals = m + (c.frame.scope.above L.depth).length := by
  obtain ⟨added, kept, hl, rfl, ha, hk⟩ := h.labels
  rw [Scope.length_above hl ha hk]
  have := congrArg List.length hl
  simpa [Scope.labels, Context.locals, Nat.add_comm] using this

theorem Loop.fits_of_bounded (hb : c.frame.scope.Bounded) :
    Loop.Fits ⟨c.frame.scope.depth, none⟩ c.locals c :=
  ⟨⟨[], c.frame.scope.labels, rfl, List.length_map _, nofun, hb⟩, nofun⟩

/-- Where a body of a loop begins that has no variable. -/
theorem Context.Begins.round (hr : c.Ready limits k n) (hb : c.frame.scope.Bounded) :
    c.Begins limits k n (some { depth := c.frame.scope.depth }) c.locals := by
  refine ⟨hr, hb, ?_⟩
  rintro _ ⟨⟩
  exact ⟨Loop.fits_of_bounded hb, Nat.le_refl _⟩

theorem Context.Begins.mono (h : c.Begins limits k n loop m) (hn : n' ≤ n) :
    c.Begins limits k n' loop m := { h with ready := h.ready.mono hn }

theorem Context.Begins.after (h : c.Begins limits k (n + n') loop m) (hs : c.Step n c')
    (ha : c.Adds added c') (hd : ∀ l ∈ added, l.2 = c.frame.scope.depth)
    (hdeep : added = [] ∨ ∀ L ∈ loop, L.depth < c.frame.scope.depth) :
    c'.Begins limits k n' loop m where
  ready := h.ready.step hs ha.globals
  bounded := ha.bounded h.bounded fun l hl => Nat.le_of_eq (hd l hl)
  fits L hL := by
    obtain ⟨hf, hle⟩ := h.fits L hL
    refine ⟨hf.adds ha fun l hl => ?_, ha.depth ▸ hle⟩
    rcases hdeep with rfl | hdeep
    · cases hl
    · exact hd l hl ▸ hdeep L hL

theorem Context.Begins.behind {x : Lower Fragment} {sp : Nat → Context → List Spot}
    (h : c.Begins limits k (n + n') loop m) (hx : Level limits strip n x sp) (hc : (x c).2.Clean) :
    (x c).2.Begins limits k n' loop m :=
  h.after (hx.evolves.step c hc) (hx.stays c hc) nofun (.inl rfl)

theorem Context.Begins.enter (h : c.Begins limits k n loop m) :
    (modifyScope Scope.enter c).2.Begins limits k n loop m ∧
      ∀ L ∈ loop, L.depth < (modifyScope Scope.enter c).2.frame.scope.depth := by
  obtain ⟨⟨h₁, h₂, h₃⟩, hroom⟩ := h.ready.room
  refine ⟨⟨⟨⟨⟨h₁, h₂, h₃⟩, hroom⟩, h.ready.linked.congr rfl, h.ready.globals, h.ready.outside,
      h.ready.floor⟩,
    bounded_enter h.bounded, fun L hL => ?_⟩, fun L hL => ?_⟩
  · obtain ⟨⟨hl, hcarry⟩, hle⟩ := h.fits L hL
    exact ⟨⟨hl, hcarry⟩, Nat.le_succ_of_le hle⟩
  · exact Nat.lt_succ_of_le (h.fits L hL).2

end

/-- The code of the statement leads to as many locals as are in sight behind it. -/
def StatementLevel (limits : Limits) (strip : Bool) (s : Stmt) : Prop :=
  ∀ loop m k c, (statement strip loop s c).2.Clean → c.Begins limits k s.size loop m →
    (s.isDeclaration = true → c.isTop = false ∧ ∀ L ∈ loop, L.depth < c.frame.scope.depth) →
    Measures limits strip (loop.map fun _ => ⟨m, false, k⟩) c (statement strip loop s c).1
      (statement strip loop s c).2 ⟨c.locals, false, k⟩
      ⟨(statement strip loop s c).2.locals, false, k⟩
      fun o h => s.spots strip (loop.map (·, h)) o c

/-- The code of the statement leaves the locals as they are. -/
def QuietLevel (limits : Limits) (strip : Bool) (s : Stmt) : Prop :=
  ∀ loop m k c, (statement strip loop s c).2.Clean → c.Begins limits k s.size loop m →
    Measures limits strip (loop.map fun _ => ⟨m, false, k⟩) c (statement strip loop s c).1
      (statement strip loop s c).2 ⟨c.locals, false, k⟩ ⟨c.locals, false, k⟩
      fun o h => s.spots strip (loop.map (·, h)) o c

/-- A statement that declares nothing. -/
structure Quiet (limits : Limits) (strip : Bool) (s : Stmt) : Prop where
  stays : ∀ loop c, (statement strip loop s c).2.Clean → c.frame.scope.Bounded →
    c.Adds [] (statement strip loop s c).2
  level : QuietLevel limits strip s

section

variable {s : Stmt}

theorem QuietLevel.statement (h : QuietLevel limits strip s) (ht : s.isTidy = true)
    (hd : s.isDeclaration = false) : StatementLevel limits strip s := by
  intro loop m k c hc hb _
  rw [((statementAdds_of_isTidy strip s ht).quiet hd hc hb.bounded).locals]
  exact h loop m k c hc hb

theorem StatementLevel.quiet (h : StatementLevel limits strip s) (ht : s.isTidy = true)
    (hd : (!s.isDeclaration) = true) : Quiet limits strip s := by
  have hd : s.isDeclaration = false := by simpa using hd
  have hstays (loop c) (hc : (statement strip loop s c).2.Clean) (hb : c.frame.scope.Bounded) :=
    (statementAdds_of_isTidy strip s ht).quiet hd hc hb
  refine ⟨hstays, fun loop m k c hc hb => ?_⟩
  have := h loop m k c hc hb (by simp [hd])
  rwa [(hstays loop c hc hb.bounded).locals] at this

end

/-- The code of the statements leads to as many locals as are in sight behind them. -/
def StatementsLevel (limits : Limits) (strip : Bool) (ss : List Stmt) : Prop :=
  ∀ loop m k c, (statements strip loop ss c).2.Clean → c.Begins limits k (Stmt.sizes ss) loop m →
    c.isTop = false → (∀ L ∈ loop, L.depth < c.frame.scope.depth) →
    Measures limits strip (loop.map fun _ => ⟨m, false, k⟩) c (statements strip loop ss c).1
      (statements strip loop ss c).2 ⟨c.locals, false, k⟩
      ⟨(statements strip loop ss c).2.locals, false, k⟩
      fun o h => Stmt.allSpots strip (loop.map (·, h)) o c ss

section

variable {span : Span} {k : Option Nat} {m n : Nat} {loop : Option Loop} {c c₁ : Context}

theorem map_fst_map (loop : Option Loop) (h : Nat) :
    (loop.map fun L => (L, h)).map Prod.fst = loop := by cases loop <;> rfl

theorem Context.Ready.locals_lt (h : c.Ready limits k (n + 1)) : c.locals < limits.locals := by
  have := h.room.frame.locals
  show c.frame.scope.locals.length < _
  omega

theorem counted_leaveScope (head : Option Tally) (span : Span) {added : List (String × Nat)}
    (hb : c.frame.scope.Bounded) (h : Context.Adds added (modifyScope Scope.enter c).2 c₁)
    (ha : ∀ l ∈ added, l.2 = c.frame.scope.depth + 1) (hr : c₁.Ready limits k n) (floor : Nat) :
    Counted (limits.above floor) head (leaveScope span c₁).1 ⟨c₁.locals, false, k⟩ ⟨c.locals, false, k⟩ := by
  have hdepth : c₁.frame.scope.depth - 1 = c.frame.scope.depth := by
    rw [h.depth]
    rfl
  have hlen : (c₁.frame.scope.above c.frame.scope.depth).length = added.length :=
    Scope.length_above h.labels (fun l hl => by rw [ha l hl]; exact Nat.lt_succ_self _) hb
  have hlocals : c₁.locals = c.locals + (c₁.frame.scope.above c.frame.scope.depth).length := by
    rw [hlen, h.locals]
    rfl
  show Counted _ head (releaseAfter 0 span (c₁.frame.scope.above (c₁.frame.scope.depth - 1))) _ _
  rw [hdepth, hlocals]
  refine counted_releaseAfter 0 ?_
  have := hr.room.frame.locals
  have := limits.locals_lt
  have : c₁.locals < limits.locals + 1 := by
    show c₁.frame.scope.locals.length < _
    omega
  omega

theorem statementLevel_variable {id : Ident} {init : Expr}
    (hi : ExpressionLevel limits strip init) :
    StatementLevel limits strip (.variable id init span) := by
  intro loop m k c h hb hd
  obtain ⟨htop, -⟩ := hd rfl
  have hclean : (declare id (expression strip init c).2).2.Clean := h
  have hclean₁ := (evolves_declare id).clean _ hclean
  have hb₁ : (expression strip init c).2.Begins limits k 1 loop m := hb.behind hi hclean₁
  have htop₁ : (expression strip init c).2.isTop = false := by
    rw [(hi.stays c hclean₁).isTop (hi.evolves.step c hclean₁), htop]
  have hinit := hi.measures k c hclean₁ (hb.ready.mono (Nat.le_add_right ..))
  have heq : statement strip loop (.variable id init span) c =
      ((expression strip init c).1 ++ emit ⟨.defLocal, ()⟩ span,
        (addLocal id.name (expression strip init c).2).2) := by
    show ((expression strip init c).1 ++ define (declare id (expression strip init c).2).1 span,
      (declare id (expression strip init c).2).2) = _
    rw [declare_of_clean htop₁ hclean]
    rfl
  have hlocals : (addLocal id.name (expression strip init c).2).2.locals = c.locals + 1 := by
    rw [(adds_addLocal id.name _).locals, hi.stays.locals hclean₁]
    rfl
  have hlt := hb₁.ready.locals_lt
  rw [hi.stays.locals hclean₁] at hlt
  rw [heq]
  simp only [Stmt.spots]
  rw [hlocals]
  refine Measures.statement ?_ _ _ fun _ => trivial
  exact hinit.inLoop.appendCode (counted_define (Nat.le_refl _) hlt) rfl

theorem measures_declared {id : Ident} {x : Lower Fragment} {size : Nat} {head : Option Tally}
    {sp : Nat → Nat → List Spot} (htop : c.isTop = false) (hev : Evolves size x) (hx : Stays x)
    (h : (x (declare id c).2).2.Clean) (hr : c.Ready limits k (1 + n))
    (hm : (declare id c).2.Ready limits k n → (declare id c).2.locals = c.locals + true.toNat →
      Measures limits strip head (declare id c).2 (x (declare id c).2).1 (x (declare id c).2).2
        ⟨c.locals, false, k⟩ ⟨c.locals, true, k⟩ sp) :
    Measures limits strip head c ((x (declare id c).2).1 ++ define (declare id c).1 span)
      (x (declare id c).2).2 ⟨c.locals, false, k⟩ ⟨(x (declare id c).2).2.locals, false, k⟩ sp := by
  have hclean := hev.clean _ h
  have hdeclare := declare_of_clean htop hclean
  have hready : (declare id c).2.Ready limits k n := by
    refine hr.step ((evolves_declare id).step c hclean) ?_
    rw [hdeclare]
    exact (adds_addLocal id.name c).globals
  have hlocals : (declare id c).2.locals = c.locals + true.toNat := by
    rw [hdeclare]
    exact (adds_addLocal id.name c).locals
  have hkeeps : (declare id c).2.frame.constants = c.frame.constants := by
    rw [hdeclare]
    rfl
  have hdefine : define (declare id c).1 span = emit ⟨.defLocal, ()⟩ span := by
    rw [hdeclare]
    rfl
  rw [hdefine, hx.locals h, hlocals]
  have hlt : c.locals < limits.locals := (hr.mono (Nat.le_add_right 1 n)).locals_lt (n := 0)
  have hdeclared : Measures limits strip head c [] (declare id c).2 ⟨c.locals, false, k⟩
      ⟨c.locals, false, k⟩ fun _ _ => [] := measures_code counted_nil hkeeps
  have hall := hdeclared.append (hm hready hlocals) rfl (Nat.le_refl _)
  exact hall.appendCode (counted_define (Nat.le_refl _) hlt) rfl

theorem statementLevel_function {id : Ident} {params : List Ident} {body : List Stmt}
    (hbody : BodyMeasures limits strip (Stmt.sizes body) span (.block body))
    (hf : Stays (function id.name "" params span (statements strip none body))) :
    StatementLevel limits strip (.function id params body span) := by
  intro loop m k c h hb hd
  obtain ⟨htop, -⟩ := hd rfl
  simp only [Stmt.spots, htop]
  rw [statement_function_of_not_top htop] at h ⊢
  refine Measures.statement ?_ _ _ fun _ => trivial
  refine measures_declared htop (evolves_function (evolves_statements strip none body)) hf h
    (n := params.length + Stmt.sizes body + 2) (hb.ready.mono (by simp only [Stmt.size]; omega))
    fun hready hlocals => ?_
  exact measures_function (r := ⟨id.name, "", params, .block body, span⟩) (p := false)
    (loop.map fun _ => ⟨m, false, k⟩) (evolves_statements strip none body) hbody h hready hlocals (by rintro ⟨⟩)

theorem quietLevel_expression {e : Expr}
    (he : ExpressionLevel limits strip e) :
    QuietLevel limits strip (.expression e span) := by
  intro loop m k c h hb
  simp only [Stmt.spots]
  refine Measures.statement ?_ _ _ fun _ => trivial
  have hpop : Counted (limits.above c.locals) (loop.map fun _ => ⟨m, false, k⟩) (pop span)
      ⟨c.locals, false, k⟩ ⟨c.locals, false, k⟩ := counted_idle rfl rfl
  have hready : c.Ready limits k e.size := hb.ready.mono (Nat.le_succ _)
  revert h
  cases e with
  | literal l place =>
    unfold statement
    cases strip with
    | true => exact fun _ => measures_code counted_nil rfl
    | false =>
      intro h
      exact (he.measures k c h hready).inLoop.appendCode hpop rfl
  | name id place =>
    intro h
    obtain ⟨b, hb', heq⟩ := statement_name h
    rw [heq] at h ⊢
    cases strip with
    | true => exact measures_code counted_nil (constants_resolve id c)
    | false =>
      have hget : Measures limits false none c (b.get place) (resolve id c).2 ⟨c.locals, false, k⟩
          ⟨c.locals, false, k⟩ fun _ _ => [] := by
        have hbelow := below_of_resolve hb' hready
        exact measures_code (counted_get hbelow) (constants_resolve id c)
      exact (hget.expression (.name id place)).inLoop.appendCode hpop rfl
  | _ =>
    intro h
    simp only [Expr.isBare, Bool.and_false, Bool.false_eq_true, ↓reduceIte]
    exact (he.measures k c h hready).inLoop.appendCode hpop rfl

theorem quietLevel_block {body : List Stmt} (hbody : StatementsLevel limits strip body)
    (ha : StatementsAdd strip body) : QuietLevel limits strip (.block body span) := by
  intro loop m k c h hb
  obtain ⟨henter, hdeep⟩ := hb.enter
  have hclean : (statements strip loop body (modifyScope Scope.enter c).2).2.Clean :=
    (evolves_leaveScope span).clean _ h
  have hbody := hbody loop m k _ hclean (henter.mono (Nat.le_succ _)) (isTop_enter c) hdeep
  have hadds := ha loop _ hclean (bounded_enter hb.bounded) (isTop_enter c)
  have hdepth : ∀ l ∈ Stmt.addAll (modifyScope Scope.enter c).2.frame.scope.depth body,
      l.2 = c.frame.scope.depth + 1 := fun l hl => Stmt.depth_of_mem_addAll hl
  have hready := henter.ready.step (m := 1) ((evolves_statements strip loop body).step _ hclean)
    hadds.globals
  simp only [Stmt.spots]
  refine Measures.statement ?_ _ _ fun _ => trivial
  have henter : Measures limits strip (loop.map fun _ => (⟨m, false, k⟩ : Tally)) c []
      (modifyScope Scope.enter c).2 ⟨c.locals, false, k⟩ ⟨c.locals, false, k⟩ fun _ _ => [] :=
    measures_code counted_nil rfl
  exact (henter.append hbody rfl (Nat.le_refl _)).appendCode
    (counted_leaveScope _ span hb.bounded hadds hdepth hready c.locals) rfl

/-- The closures of methods may capture one more local than there are, which is defined behind. -/
def MethodsLevel (limits : Limits) (strip : Bool) (ms : List Method) : Prop :=
  ∀ span head k m (q : Bool) c, (methodClosures strip span ms c).2.Clean →
    c.Ready limits k (Method.sizes ms) → c.locals = m + q.toNat →
    Measures limits strip head c (methodClosures strip span ms c).1 (methodClosures strip span ms c).2
      ⟨m, q, k⟩ ⟨m, q, k⟩ fun o _ => Method.spots strip span q o c ms

theorem methodsLevel_cons {id : Ident} {params : List Ident} {body : List Stmt} {ms : List Method}
    (hbody : ∀ span, BodyMeasures limits strip (Stmt.sizes body) span (.block body))
    (hf : ∀ span, Stays (function id.name "self" params span (statements strip none body)))
    (hms : MethodsLevel limits strip ms) : MethodsLevel limits strip (⟨id, params, body⟩ :: ms) := by
  intro span head k m q c h hr hm
  have hev : Evolves _ (function id.name "self" params span (statements strip none body)) :=
    evolves_function (evolves_statements strip none body)
  have hclean : (methodClosures strip span ms (function id.name "self" params span
    (statements strip none body) c).2).2.Clean := h
  have hclean₁ := (evolves_methodClosures strip span ms).clean _ hclean
  have hfirst := measures_function (r := ⟨id.name, "self", params, .block body, span⟩) (p := q) head
    (evolves_statements strip none body) (hbody span) hclean₁ (hr.mono (Nat.le_add_right ..)) hm fun h => h
  have hrest := hms span head k m q _ hclean ((hf span).ready hev hclean₁ hr)
    (((hf span).locals hclean₁).trans hm)
  simp only [Method.spots]
  exact hfirst.append hrest rfl (Nat.le_refl _)

theorem reportRepeated_of_clean {seen : List String} {ids : List Ident} {c : Context}
    (h : (reportRepeated seen ids c).2.Clean) : (reportRepeated seen ids c).2 = c := by
  induction ids generalizing seen with
  | nil => rfl
  | cons id ids ih =>
    unfold reportRepeated at h ⊢
    split at h
    · exact absurd h (not_clean_report _ _ c)
    · rw [if_neg ‹_›]
      exact ih h

theorem measures_recordParts (head : Option Tally) {id : Ident} {fields : List Ident}
    {methods : List Method} {q : Bool} (hms : MethodsLevel limits strip methods)
    (h : (recordParts strip id fields methods span c).2.Clean)
    (hr : c.Ready limits k (1 + Method.sizes methods)) (hm : c.locals = m + q.toNat) :
    Measures limits strip head c (recordParts strip id fields methods span c).1
      (recordParts strip id fields methods span c).2 ⟨m, false, k⟩ ⟨m, q, k⟩ fun o _ =>
        Method.spots strip span q (o + 5) (constant ⟨.record ⟨id.name, fields.map Ident.name, []⟩⟩
          (reportRepeated [] (methods.map Method.id) (reportRepeated [] fields c).2).2).2 methods := by
  set record : Constant := ⟨.record ⟨id.name, fields.map Ident.name, []⟩⟩ with hrecord
  set c₁ := (reportRepeated [] fields c).2
  set c₂ := (reportRepeated [] (methods.map Method.id) c₁).2
  have hclean : (methodClosures strip span methods (constant record c₂).2).2.Clean := h
  have hclean₃ := (evolves_methodClosures strip span methods).clean _ hclean
  have hclean₂ : c₂.Clean := (evolves_constant record).clean _ hclean₃
  have h₂ : c₂ = c₁ := reportRepeated_of_clean hclean₂
  rw [h₂] at hclean₂
  have h₁ : c₁ = c := reportRepeated_of_clean hclean₂
  have hsame : c₂ = c := h₂.trans h₁
  have hpush : Measures limits strip head c (emit ⟨.pushConst, (constant record c₂).1⟩ span)
      (constant record c₂).2 ⟨m, false, k⟩ ⟨m, q, k⟩ fun _ _ => [] := by
    refine (measures_code (d := c₂) ?_ (by rw [hsame])).constant ⟨rfl, fun _ h => ?_⟩
    swap
    · rw [hrecord] at h
      cases h
    exact counted_emit ⟨rfl, q, rfl⟩ ⟨nofun, nofun⟩
  have hready : (constant record c₂).2.Ready limits k (Method.sizes methods) := by
    rw [hsame] at hclean₃ ⊢
    exact (stays_constant record).ready (evolves_constant record) hclean₃ hr
  have hlocals : (constant record c₂).2.locals = m + q.toNat := by
    rw [(stays_constant record).locals hclean₃, hsame, hm]
  have hclosures := hms span head k m q _ hclean hready hlocals
  have happend : Counted (limits.above m) head (if methods.isEmpty then []
      else emit ⟨.appendMethods, methods.length.toUInt32⟩ span) ⟨m, q, k⟩ ⟨m, q, k⟩ := by
    split
    · exact counted_nil
    · exact counted_emit rfl ⟨nofun, nofun⟩
  exact (hpush.append hclosures rfl (Nat.le_refl _)).appendCode happend rfl

theorem statementLevel_record {id : Ident} {fields : List Ident} {methods : List Method}
    (hms : MethodsLevel limits strip methods) (hs : Stays (methodClosures strip span methods)) :
    StatementLevel limits strip (.record id fields methods span) := by
  intro loop m k c h hb hd
  obtain ⟨htop, -⟩ := hd rfl
  simp only [Stmt.spots, htop]
  rw [statement_record_eq, htop] at h ⊢
  refine Measures.statement ?_ _ _ fun _ => trivial
  exact measures_declared htop (evolves_recordParts id fields methods) (stays_recordParts hs) h
    (n := 1 + Method.sizes methods) (hb.ready.mono (by simp only [Stmt.size]; omega))
    fun hready hlocals => measures_recordParts _ hms h hready hlocals

theorem quietLevel_cond {test : Expr} {consequent : Stmt} {alternate : Option Stmt}
    (ht : ExpressionLevel limits strip test)
    (hk : Quiet limits strip consequent) (ha : ∀ s ∈ alternate, Quiet limits strip s) :
    QuietLevel limits strip (.cond test consequent alternate span) := by
  intro loop m k c h hb
  set c₁ := (expression strip test c).2
  set c₂ := (statement strip loop consequent c₁).2
  have hclean : (optionalStatement strip loop alternate c₂).2.Clean := h
  have hclean₂ := (evolves_optionalStatement strip loop alternate).clean _ hclean
  have hclean₁ := (evolves_statement strip loop consequent).clean _ hclean₂
  have hb : c.Begins limits k (test.size + (consequent.size + Stmt.sizeOption alternate)) loop m :=
    hb.mono (by simp only [Stmt.size]; omega)
  have htest := ht.measures k c hclean₁ (hb.ready.mono (Nat.le_add_right ..))
  have hb₁ : c₁.Begins limits k (consequent.size + Stmt.sizeOption alternate) loop m :=
    hb.behind ht hclean₁
  have hl₁ : c₁.locals = c.locals := ht.stays.locals hclean₁
  have hadds : c₁.Adds [] c₂ := hk.stays loop c₁ hclean₂ hb₁.bounded
  have hl₂ : c₂.locals = c.locals := hadds.locals.trans hl₁
  have hthen := hk.level loop m k c₁ hclean₂ (hb₁.mono (Nat.le_add_right ..))
  rw [hl₁] at hthen
  have hb₂ : c₂.Begins limits k (Stmt.sizeOption alternate) loop m :=
    hb₁.after ((evolves_statement strip loop consequent).step _ hclean₂) hadds (by rintro _ ⟨⟩) (.inl rfl)
  have helse : Measures limits strip (loop.map fun _ => ⟨m, false, k⟩) c₂
      (optionalStatement strip loop alternate c₂).1 (optionalStatement strip loop alternate c₂).2
      ⟨c.locals, false, k⟩ ⟨c.locals, false, k⟩
      fun o h => Stmt.optionSpots strip (loop.map (·, h)) o c₂ alternate := by
    cases alternate with
    | none => exact measures_code counted_nil rfl
    | some s =>
      have := (ha s rfl).level loop m k c₂ hclean hb₂
      rwa [hl₂] at this
  simp only [Stmt.spots, map_fst_map]
  refine Measures.statement ⟨?_, fun o h => ((htest.keeps o h).trans (hthen.keeps _ h)).trans
    (helse.keeps _ h)⟩ _ _ fun _ => trivial
  simp only [List.flatMap_append]
  exact counted_cond rfl htest.counted.inLoop hthen.counted helse.counted

theorem quietLevel_while {test : Expr} {body : Stmt}
    (ht : ExpressionLevel limits strip test)
    (hk : Quiet limits strip body) : QuietLevel limits strip (.while test body span) := by
  intro loop m k c h hb
  set c₁ := (expression strip test c).2
  set inner : Loop := { depth := c₁.frame.scope.depth }
  have hclean : (statement strip (some inner) body c₁).2.Clean := h
  have hclean₁ := (evolves_statement strip (some inner) body).clean _ hclean
  have hb : c.Begins limits k (test.size + body.size) loop m := hb.mono (Nat.le_succ _)
  have htest := ht.measures k c hclean₁ (hb.ready.mono (Nat.le_add_right ..))
  have hb₁ : c₁.Begins limits k body.size loop m := hb.behind ht hclean₁
  have hl₁ : c₁.locals = c.locals := ht.stays.locals hclean₁
  have hbody := hk.level _ _ k _ hclean (.round hb₁.ready hb₁.bounded)
  rw [hl₁] at hbody
  simp only [Stmt.spots]
  refine Measures.statement ⟨?_, fun o h => (htest.keeps _ h).trans (hbody.keeps _ _)⟩ _ _ fun _ => trivial
  simp only [List.flatMap_append]
  exact counted_while rfl htest.counted hbody.counted

theorem quietLevel_loop {body : Stmt} (hk : Quiet limits strip body) :
    QuietLevel limits strip (.loop body span) := by
  intro loop m k c h hb
  have hbody := hk.level _ _ k c h (.round (hb.ready.mono (Nat.le_succ _)) hb.bounded)
  simp only [Stmt.spots]
  exact Measures.statement ⟨counted_loop rfl hbody.counted, fun o h => hbody.keeps _ _⟩ _ _ fun _ => trivial

theorem measures_turn {x : Turn} (hk : StatementLevel limits strip x.body)
    (hka : StatementAdds strip x.body) (hclean : (x.inner strip c).2.Clean)
    (hr : c.Ready limits k (x.body.size + n + 1)) (hb : c.frame.scope.Bounded)
    (hdepth : x.loop.depth = c.frame.scope.depth)
    (hcarry : ∀ p ∈ x.loop.carry, p.1.toNat < c.locals ∧ p.2.toNat ≤ c.locals) :
    (x.inner strip c).2.Ready limits k n ∧
      Measures limits strip (some (Turn.tally k c)) c (x.code strip c)
        (leaveScope x.span (x.inner strip c).2).2 (Turn.tally k c) (Turn.tally k c)
        fun o h => ⟨o, c, .round x h⟩ ::
          x.body.spots strip (some (x.loop, h)) (x.start o) (x.inside c) := by
  set c₁ := (modifyScope Scope.enter c).2 with hc₁
  set c₂ := x.inside c
  set c₃ := (x.inner strip c).2
  obtain ⟨henter, hdeep⟩ := (Context.Begins.round hr hb).enter
  have hadd : c₁.Adds [(x.id.name, c₁.frame.scope.depth)] c₂ := adds_addLocal x.id.name c₁
  have hstep : c₁.Step 1 c₂ :=
    (evolves_addLocal x.id.name).step _ ((evolves_statement strip (some x.loop) x.body).clean _ hclean)
  have hbegins : c₂.Begins limits k (x.body.size + n) (some { depth := c.frame.scope.depth }) c.locals :=
    (henter.mono (by omega)).after hstep hadd (by simp [hc₁]) (.inr hdeep)
  have hl₂ : c₂.locals = c.locals + 1 := hadd.locals
  have htop : c₂.isTop = false := isTop_enter c
  have hdeep₂ : x.loop.depth < c₂.frame.scope.depth := by
    rw [hdepth, hadd.depth]
    exact Nat.lt_succ_self _
  have hinner : c₂.Begins limits k (x.body.size + n) (some x.loop) c.locals := by
    refine ⟨hbegins.ready, hbegins.bounded, ?_⟩
    rintro _ ⟨⟩
    obtain ⟨⟨hlabels, -⟩, -⟩ := hbegins.fits _ rfl
    refine ⟨⟨hdepth ▸ hlabels, fun p hp => ⟨(hcarry p hp).1, ?_⟩⟩, Nat.le_of_lt hdeep₂⟩
    rw [hl₂]
    exact Nat.lt_succ_of_le (hcarry p hp).2
  have hbody := hk (some x.loop) c.locals k c₂ hclean (hinner.mono (Nat.le_add_right ..)) fun _ => by
    refine ⟨htop, ?_⟩
    rintro _ ⟨⟩
    exact hdeep₂
  rw [hl₂] at hbody
  have hadds : c₂.Adds _ c₃ := hka (some x.loop) c₂ hclean hinner.bounded fun _ => htop
  have hready : c₃.Ready limits k n :=
    hinner.ready.step ((evolves_statement strip (some x.loop) x.body).step c₂ hclean) hadds.globals
  have hleave := counted_leaveScope (some (Turn.tally k c)) x.span hb (hadd.trans hadds) (fun l hl => by
    rcases List.mem_append.1 hl with hl | hl
    · exact (Stmt.depth_of_mem_adds hl).trans hadd.depth
    · rw [List.mem_singleton.1 hl]
      rfl) hready (c.locals + 1)
  have hlt₃ : c.locals < c₃.locals := by
    rw [hadds.locals, hl₂]
    omega
  refine ⟨hready, .turn hr.locals_lt ?_ hbody ?_ rfl⟩
  · unfold Turn.opening
    split
    · exact counted_idle rfl rfl
    · rename_i outer inner hp
      exact counted_get (b := .local outer) (hcarry _ hp).1
  · unfold Turn.rest
    split
    · exact hleave
    · rename_i outer inner hp
      obtain ⟨houter, hinner⟩ := hcarry _ hp
      have hread : Counted (limits.above (c.locals + 1)) (some (Turn.tally k c))
        ((Binding.local inner).get x.span) ⟨_, false, k⟩ ⟨_, false, k⟩ :=
        counted_get (b := .local inner) (Nat.lt_of_le_of_lt hinner hlt₃)
      have hstore : Counted (limits.above (c.locals + 1)) (some (Turn.tally k c))
        ((Binding.local outer).set x.span) ⟨_, false, k⟩ ⟨_, false, k⟩ :=
        counted_set (b := .local outer) houter
      exact (((hread.append hleave).append hstore).append (counted_idle (i := ⟨.pop, ()⟩) rfl rfl)).append
        (counted_idle (i := ⟨.pushTrue, ()⟩) rfl rfl)

theorem quietLevel_forIn {id : Ident} {iterable : Expr} {body : Stmt}
    (hi : ExpressionLevel limits strip iterable)
    (hk : StatementLevel limits strip body) (hka : StatementAdds strip body) :
    QuietLevel limits strip (.forIn id iterable body span) := by
  intro loop m k c h hb
  set c₁ := (expression strip iterable c).2
  set c₂ := (modifyScope Scope.enter c₁).2
  set c₃ := (declare id c₂).2
  set inner : Loop := { depth := c₁.frame.scope.depth }
  have hclean₄ : (statement strip (some inner) body c₃).2.Clean := (evolves_leaveScope span).clean _ h
  have hclean₃ := (evolves_statement strip (some inner) body).clean _ hclean₄
  have hclean₁ : c₁.Clean := evolves_enter.clean _ ((evolves_declare id).clean _ hclean₃)
  have hb₁ : c₁.Begins limits k (body.size + 0 + 1) loop m :=
    Context.Begins.behind (hb.mono (Nat.le_of_eq (Nat.add_assoc ..).symm)) hi hclean₁
  have hl₁ : c₁.locals = c.locals := hi.stays.locals hclean₁
  have hiterable := hi.measures k c hclean₁ (hb.ready.mono (by simp only [Stmt.size]; omega))
  set x : Turn := ⟨id, inner, body, span⟩
  obtain ⟨hinside, hcode⟩ := Turn.code_of_carry_none (t := x) strip rfl hclean₃
  have hturn := (measures_turn (x := x) (n := 0) hk hka (by rwa [Turn.inner, hinside]) hb₁.ready
    hb₁.bounded rfl nofun).2
  rw [hcode, Turn.inner, hinside, Turn.tally, hl₁] at hturn
  have hloop : Measures limits strip (loop.map fun _ => ⟨m, false, k⟩) c₁ _ _ ⟨c.locals, false, k⟩
      ⟨c.locals, false, k⟩ _ := ⟨counted_forIn rfl hturn.counted, fun o h => hturn.keeps _ _⟩
  have hidle (i : Instruction) (hi : i.op.isIdle = true) : Counted (limits.above c.locals)
      (loop.map fun _ => ⟨m, false, k⟩) (emit i span) ⟨c.locals, false, k⟩ ⟨c.locals, false, k⟩ :=
    counted_idle hi rfl
  have hall := ((hiterable.inLoop.appendCode (d := c₁) (hidle ⟨.makeIterator, ()⟩ rfl) rfl).append
    hloop rfl (Nat.le_refl _)).appendCode
    (d := (leaveScope span (statement strip (some inner) body c₃).2).2) (hidle ⟨.pop, ()⟩ rfl) rfl
  refine Measures.spots_eq (hall.statement (fun h => loop.map (·, h)) (.forIn id iterable body span) fun _ => trivial)
    fun o h => ?_
  simp only [Stmt.spots, Fragment.size_append, Fragment.size_emit]
  rfl

/-- A part of the compilation that may be missing. -/
def OptionLevel (limits : Limits) (strip : Bool) (e : Option Expr) : Prop :=
  ∀ x ∈ e, ExpressionLevel limits strip x

theorem OptionLevel.stays {e : Option Expr} (h : OptionLevel limits strip e) :
    Stays (optionalExpression strip e) := by
  cases e with
  | none => exact .pure _
  | some e => exact (h e rfl).stays.andReturn _

theorem OptionLevel.counted {e : Option Expr}
    (h : OptionLevel limits strip e) (hc : (optionalExpression strip e c).2.Clean)
    (hr : c.Ready limits k (Expr.sizeOption e)) :
    ∀ t ∈ (optionalExpression strip e c).1, Counted (limits.above c.locals) none t ⟨c.locals, false, k⟩
      ⟨c.locals, false, k⟩ fun o _ => (Expr.optionSpots strip o c e).flatMap (Spot.marks limits strip k) := by
  cases e with
  | none => nofun
  | some e =>
    rintro _ ⟨⟩
    exact ((h e rfl).measures k c hc hr).counted

theorem OptionLevel.counted_forUpdate (span : Span) {e : Option Expr} (h : OptionLevel limits strip e)
    (hc : (optionalExpression strip e c).2.Clean) (hr : c.Ready limits k (Expr.sizeOption e)) :
    Counted (limits.above c.locals) none (forUpdate (optionalExpression strip e c).1 span)
      ⟨c.locals, false, k⟩ ⟨c.locals, false, k⟩
      fun o _ => (Expr.optionSpots strip o c e).flatMap (Spot.marks limits strip k) := by
  cases e with
  | none => exact counted_nil
  | some e =>
    have hpop : Counted (limits.above c.locals) none (pop span) ⟨c.locals, false, k⟩
        ⟨c.locals, false, k⟩ := counted_idle rfl rfl
    exact (((h e rfl).measures k c hc hr).appendCode (d := (expression strip e c).2) hpop rfl).counted

theorem OptionLevel.keeps {e : Option Expr} (h : OptionLevel limits strip e)
    (hc : (optionalExpression strip e c).2.Clean) (hr : c.Ready limits k (Expr.sizeOption e)) (o : Nat) :
    Keeps limits strip c (optionalExpression strip e c).2 (Expr.optionSpots strip o c e) := by
  cases e with
  | none => exact .ofFrame rfl
  | some e => exact ((h e rfl).measures k c hc hr).keeps o 0

theorem quietLevel_for {id : Ident} {init : Expr} {test update : Option Expr} {body : Stmt}
    (hi : ExpressionLevel limits strip init)
    (ht : OptionLevel limits strip test) (hu : OptionLevel limits strip update)
    (hk : StatementLevel limits strip body) (hka : StatementAdds strip body) :
    QuietLevel limits strip (.for id init test update body span) := by
  intro loop m k c h hb
  obtain ⟨hclean₂, hclean₃, hclean₄, hclean₅, hclean₈, hclean₉⟩ := clean_parts_of_for h
  set c₁ := (modifyScope Scope.enter c).2 with hc₁
  set c₂ := (expression strip init c₁).2
  set outer := (addLocal id.name c₂).1 with houter
  set c₃ := (addLocal id.name c₂).2
  set c₄ := (optionalExpression strip update c₃).2
  set c₅ := (optionalExpression strip test c₄).2
  set c₆ := (modifyScope Scope.enter c₅).2
  set inner := (addLocal id.name c₆).1
  set c₇ := (addLocal id.name c₆).2 with hc₇
  set round : Loop := ⟨c₁.frame.scope.depth, some (outer, inner)⟩
  set c₈ := (statement strip (some round) body c₇).2
  -- what is in sight at each point
  have hr₁ : c₁.Ready limits k (init.size + (1 + (Expr.sizeOption update + (Expr.sizeOption test +
      (body.size + 0 + 1))))) := (hb.enter.1.mono (by simp only [Stmt.size]; omega)).ready
  have hl₁ : c₁.locals = c.locals := rfl
  have hl₂ : c₂.locals = c.locals := hi.stays.locals hclean₂
  have hr₂ := hi.stays.ready hi.evolves hclean₂ hr₁
  have hadd : c₂.Adds [(id.name, c₂.frame.scope.depth)] c₃ := adds_addLocal id.name c₂
  have hr₃ := hr₂.step ((evolves_addLocal id.name).step c₂ hclean₃) hadd.globals
  have hl₃ : c₃.locals = c.locals + 1 := by
    rw [hadd.locals, hl₂]
    rfl
  have hr₄ := hu.stays.ready (evolves_optionalExpression strip update) hclean₄ hr₃
  have hl₄ : c₄.locals = c.locals + 1 := (hu.stays.locals hclean₄).trans hl₃
  have hr₅ := ht.stays.ready (evolves_optionalExpression strip test) hclean₅ hr₄
  have hl₅ : c₅.locals = c.locals + 1 := (ht.stays.locals hclean₅).trans hl₄
  have hadds₅ : c₁.Adds [(id.name, c₁.frame.scope.depth)] c₅ := by
    have := (hi.stays c₁ hclean₂).trans hadd
    rw [(hi.stays c₁ hclean₂).depth] at this
    exact (this.trans (hu.stays c₃ hclean₄)).trans (ht.stays c₄ hclean₅)
  have hb₅ := hadds₅.bounded (bounded_enter hb.bounded) (by simp)
  have hlt : c.locals + 1 < limits.locals := hl₅ ▸ hr₅.locals_lt
  have houter_eq : outer.toNat = c.locals := by
    have hlen : c₂.frame.scope.locals.length = c.locals := hl₂
    rw [houter, ← hlen]
    exact Word.toNat_toUInt32 (by
      have := limits.locals_lt
      omega)
  have houter_lt : outer.toNat < c.locals + 1 := houter_eq ▸ Nat.lt_succ_self _
  have hinner_le : inner.toNat ≤ c₅.locals := toNat_toUInt32_le _
  set x : Turn := ⟨id, round, body, span⟩ with hx
  obtain ⟨hr₈, hturn⟩ := measures_turn (x := x) (n := 0) hk hka hclean₈ hr₅ hb₅ hadds₅.depth.symm
    fun p hp => by
      obtain rfl := Option.some.inj hp
      exact ⟨hl₅ ▸ houter_lt, hinner_le⟩
  set s : Tally := ⟨c.locals + 1, false, k⟩
  have hupdate := hu.counted_forUpdate span hclean₄ (hr₃.mono (Nat.le_add_right ..))
  rw [hl₃] at hupdate
  have htest := ht.counted hclean₅ (hr₄.mono (Nat.le_add_right ..))
  rw [hl₄] at htest
  set u := (optionalExpression strip update c₃).1
  set t := (optionalExpression strip test c₄).1
  set turn := forTurn outer inner (statement strip (some round) body c₇).1 (leaveScope span c₈).1 span
  have hcode : x.code strip c₅ = turn := Turn.code_of_carry_some strip rfl
  rw [hcode, Turn.tally, hl₅] at hturn
  have hnone : t = none →
      (fun o (_ : Nat) => (Expr.optionSpots strip o c₄ test).flatMap (Spot.marks limits strip k)) =
        fun _ _ => [] := by
    cases test with
    | none => exact fun _ => rfl
    | some e => nofun
  have hloop : Measures limits strip (loop.map fun _ => ⟨m, false, k⟩) c₃
      (loopCode (forUpdate u span) (forTest t turn span ++ [.jump .back (Piece.jumpSize +
        (pop span).size + (forUpdate u span).size + (forTest t turn span).size + Piece.jumpSize) span])
        span) (leaveScope span c₈).2 s s fun o _ => Expr.optionSpots strip (o + 11) c₃ update ++
      (Expr.optionSpots strip (o + 11 + (forUpdate u span).size) c₄ test ++
        ⟨o + 11 + (forUpdate u span).size + testSize t, c₅, .round x (o + 5)⟩ ::
          body.spots strip (some (round, o + 5))
            (o + 11 + (forUpdate u span).size + testSize t + 6) c₇) := by
    have hoffset (o : Nat) : o + 11 + (forUpdate u span).size + (forTest t turn span).size - turn.size =
        o + 11 + (forUpdate u span).size + testSize t := by
      rw [size_forTest]
      omega
    refine ⟨?_, fun o h => (hu.keeps hclean₄ (hr₃.mono (Nat.le_add_right ..)) _).trans
      ((ht.keeps hclean₅ (hr₄.mono (Nat.le_add_right ..)) _).trans (hturn.keeps _ (o + 5)))⟩
    simp only [List.flatMap_append, ← hoffset]
    exact counted_for rfl span hupdate htest hnone hturn.counted
  have henter : Measures limits strip (loop.map fun _ => (⟨m, false, k⟩ : Tally)) c [] c₁
      ⟨c.locals, false, k⟩ ⟨c.locals, false, k⟩ fun _ _ => [] := measures_code counted_nil rfl
  have hinit := hi.measures k c₁ hclean₂ (hr₁.mono (Nat.le_add_right ..))
  have hadds₉ : c₁.Adds [(id.name, c₁.frame.scope.depth)] (leaveScope span c₈).2 :=
    hadds₅.trans (adds_round span hka hc₇ hb₅ hclean₈)
  have hr₉ : (leaveScope span c₈).2.Ready limits k 0 :=
    hr₈.step (n := 0) ((evolves_leaveScope span).step c₈ hclean₉) rfl
  have hlast : Counted (limits.above c.locals) (loop.map fun _ => ⟨m, false, k⟩)
      (leaveScope span (leaveScope span c₈).2).1 s ⟨c.locals, false, k⟩ := by
    have := counted_leaveScope (loop.map fun _ => (⟨m, false, k⟩ : Tally)) span hb.bounded hadds₉
      (by simp [hc₁]; rfl) hr₉ c.locals
    rwa [hadds₉.locals] at this
  have hdefine : Counted (limits.above c.locals) (loop.map fun _ => ⟨m, false, k⟩)
      (emit ⟨.defLocal, ()⟩ span) ⟨c.locals, false, k⟩ s :=
    counted_define (Nat.le_refl _) (Nat.lt_of_succ_lt hlt)
  have hall := (((henter.append hinit.inLoop rfl (Nat.le_refl _)).appendCode (d := c₃) hdefine rfl).append
    hloop rfl (Nat.le_succ _)).appendCode (d := (leaveScope span (leaveScope span c₈).2).2) hlast rfl
  have hfits (o : Nat) : (Stmt.for id init test update body span).Fits strip o c := by
    refine ⟨fun x hx => ?_, ?_, inner, rfl, Word.toNat_toUInt32 ?_⟩
    · have hadds : c₁.Adds [(id.name, c₂.frame.scope.depth)] x := by
        have hadd₃ := (hi.stays c₁ hclean₂).trans hadd
        have hadd₄ := hadd₃.trans (hu.stays c₃ hclean₄)
        rcases List.mem_cons.1 hx with rfl | hx
        · exact hadd₃
        rcases List.mem_cons.1 hx with rfl | hx
        · exact hadd₄
        rw [List.mem_singleton.1 hx]
        exact hadd₄.trans (ht.stays c₄ hclean₅)
      exact hadds.slot?_head.trans (congrArg some houter_eq.symm)
    · show c₅.locals = outer.toNat + 1
      rw [hl₅, houter_eq]
    · show c₅.locals < 2 ^ 32
      rw [hl₅]
      exact Nat.lt_trans hlt limits.locals_lt
  refine Measures.spots_eq (hall.statement (fun h => loop.map (·, h))
    (.for id init test update body span) hfits) fun o h => ?_
  simp only [Stmt.spots, Fragment.size_append, List.nil_append, Fragment.size_emit, List.append_assoc]
  rfl

theorem quietLevel_return {value : Option Expr} (hv : OptionLevel limits strip value) :
    QuietLevel limits strip (.return value span) := by
  intro loop m k c h hb
  obtain ⟨hne, he⟩ := return_of_clean h
  rw [he] at h ⊢
  simp only [Stmt.spots]
  obtain rfl : k = none := hb.ready.outside (by simpa using hne)
  refine Measures.statement ?_ _ _ fun _ => trivial
  cases value with
  | none => exact measures_code (counted_return (.inr rfl)) rfl
  | some e =>
    have := (hv e rfl).measures none c h (hb.ready.mono (Nat.le_succ _))
    exact this.inLoop.appendCode (counted_return (.inl rfl)) rfl

theorem quietLevel_exit (how : LoopExit) : QuietLevel limits strip (.exit how span) := by
  intro loop m k c h hb
  cases loop with
  | none => exact absurd h (not_clean_report _ _ c)
  | some loop =>
    obtain ⟨hfits, -⟩ := hb.fits loop rfl
    have hlen : (c.frame.scope.above loop.depth).length < 2 ^ 32 := by
      have := hb.ready.room.frame.locals
      have := limits.locals_lt
      have : c.locals < limits.locals + 1 := by
        show c.frame.scope.locals.length < _
        omega
      have := hfits.length_above
      omega
    have hrelease : Counted (limits.above c.locals) (some ⟨m, false, k⟩)
        (releaseAfter 0 span (c.frame.scope.above loop.depth)) ⟨c.locals, false, k⟩ ⟨m, false, k⟩ := by
      rw [hfits.length_above]
      exact counted_releaseAfter 0 (by omega)
    have hpush {i : Instruction} (hi : i.op.isIdle = true) : Counted (limits.above c.locals)
        (some ⟨m, false, k⟩) (emit i span) ⟨m, false, k⟩ ⟨m, false, k⟩ := counted_idle hi rfl
    have hexit : Counted (limits.above c.locals) (some ⟨m, false, k⟩) [.exit span] ⟨m, false, k⟩
        ⟨c.locals, false, k⟩ := fun o h E hE => .piece ⟨rfl, h, rfl, .inr (hE _ rfl)⟩
    simp only [Stmt.spots]
    refine Measures.statement ?_ _ _ fun _ => trivial
    obtain ⟨depth, carry⟩ := loop
    cases how with
    | «break» =>
      rcases carry with _ | ⟨outer, inner⟩ <;>
        exact measures_code ((hrelease.append (hpush (i := ⟨.pushFalse, ()⟩) rfl)).append hexit) rfl
    | «continue» =>
      rcases carry with _ | ⟨outer, inner⟩
      · exact measures_code ((hrelease.append (hpush (i := ⟨.pushTrue, ()⟩) rfl)).append hexit) rfl
      · obtain ⟨houter, hinner⟩ := hfits.carry (outer, inner) rfl
        have hget : Counted (limits.above c.locals) (some ⟨m, false, k⟩) (emit ⟨.getLocal, inner⟩ span)
            ⟨c.locals, false, k⟩ ⟨c.locals, false, k⟩ := counted_get (b := .local inner) hinner
        have hset : Counted (limits.above c.locals) (some ⟨m, false, k⟩) (emit ⟨.setLocal, outer⟩ span)
            ⟨m, false, k⟩ ⟨m, false, k⟩ := counted_set (b := .local outer) houter
        have hcarry := ((hget.append hrelease).append hset).append (hpush (i := ⟨.pop, ()⟩) rfl)
        exact measures_code ((hcarry.append (hpush (i := ⟨.pushTrue, ()⟩) rfl)).append hexit) rfl

theorem Level.ofTidy {e : Expr} (h : e.isTidy = true)
    (hm : ∀ k c, (expression strip e c).2.Clean → c.Ready limits k e.size →
      Measures limits strip none c (expression strip e c).1 (expression strip e c).2
        ⟨c.locals, false, k⟩ ⟨c.locals, false, k⟩ fun o _ => e.spots strip o c) :
    ExpressionLevel limits strip e :=
  ⟨evolves_expression strip e, stays_of_isTidy strip e h, hm⟩

/-- Statements as the body of a function. -/
theorem StatementsLevel.body {ss : List Stmt} (h : StatementsLevel limits strip ss) :
    BodyMeasures limits strip (Stmt.sizes ss) span (.block ss) :=
  fun c hc hr hb ht => ⟨_, h none 0 none c hc ⟨hr, hb, nofun⟩ ht nofun⟩

end

mutual

theorem level_expression : (e : Expr) → e.isTidy = true →
    ExpressionLevel limits strip e
  | .literal l span, h => by
    refine .ofTidy h fun k c _ _ => ?_
    rw [expression]
    simp only [Expr.spots]
    exact (measures_literal l span c).expression _
  | .name id span, h => by
    refine .ofTidy h fun k c hc hr => ?_
    obtain ⟨b, hb, he⟩ := expression_name hc
    rw [he]
    simp only [Expr.spots]
    have hbelow := below_of_resolve hb hr
    exact (measures_code (counted_get hbelow) (constants_resolve id c)).expression _
  | .binary op left right span, h => by
    refine .ofTidy h fun k c hc hr => ?_
    obtain ⟨hl, hr'⟩ := (Bool.and_eq_true ..).mp h
    have hparts := (level_expression left hl).seq (level_expression right hr')
      hc (hr.mono (Nat.le_succ _))
    have hop : (binaryInstruction op).op.isIdle = true := by
      cases op with
      | arithmetic op => cases op <;> rfl
      | _ => rfl
    simp only [Expr.spots]
    exact (hparts.appendCode (counted_idle hop rfl) rfl).expression _
  | .logical op left right span, h => by
    refine .ofTidy h fun k c hc hr => ?_
    obtain ⟨hl, hr'⟩ := (Bool.and_eq_true ..).mp h
    obtain ⟨h₁, h₂⟩ := (level_expression left hl).both
      (level_expression right hr') hc (hr.mono (Nat.le_succ _))
    simp only [Expr.spots]
    refine Measures.expression ⟨?_, fun o h' => (h₁.keeps o h').trans (h₂.keeps _ h')⟩ _
    simp only [List.flatMap_append]
    exact counted_logical rfl h₁.counted h₂.counted
  | .unary op operand span, h => by
    refine .ofTidy h fun k c hc hr => ?_
    have hoperand := (level_expression operand h).measures k c hc (hr.mono (Nat.le_succ _))
    have hop : (unaryInstruction op).op.isIdle = true := by cases op <;> rfl
    simp only [Expr.spots]
    exact (hoperand.appendCode (counted_idle hop rfl) rfl).expression _
  | .assign target value span, h => by
    refine .ofTidy h fun k c hc hr => ?_
    obtain ⟨ht, hv⟩ := (Bool.and_eq_true ..).mp h
    have hvalue := level_expression value hv
    cases target with
    | name id place =>
      obtain ⟨b, hb, he⟩ := expression_assign_name hc
      have hclean : (resolve id (expression strip value c).2).2.Clean := by rwa [he] at hc
      have hclean := (evolves_resolve id).clean _ hclean
      have hr : c.Ready limits k (value.size + 2) := hr.mono (by simp only [Expr.size]; omega)
      have hbelow := below_of_resolve hb (hvalue.stays.ready hvalue.evolves hclean hr)
      rw [hvalue.stays.locals hclean] at hbelow
      rw [he]
      simp only [Expr.spots]
      exact ((hvalue.measures k c hclean (hr.mono (Nat.le_add_right ..))).appendCode
        (counted_set hbelow) (constants_resolve ..)).expression _
    | member object property place =>
      have hparts := (level_expression object ht).seq hvalue
        ((evolves_constant _).clean _ hc) (hr.mono (by simp only [Expr.size]; omega))
      simp only [Expr.spots]
      exact ((hparts.nameConstant _).appendCode (counted_idle rfl rfl) rfl).expression _
    | _ => exact absurd (hvalue.evolves.clean _ hc) (not_clean_report _ _ c)
  | .call callee arguments span, h => by
    refine .ofTidy h fun k c hc hr => ?_
    obtain ⟨hcallee, ha⟩ := (Bool.and_eq_true ..).mp h
    have harguments := level_expressions arguments ha
    have hfun := level_expression callee hcallee
    cases callee with
    | member object property place =>
      have hparts := (level_expression object hcallee).seq harguments
        ((evolves_constant _).clean _ hc) (hr.mono (by simp only [Expr.size]; omega))
      simp only [Expr.spots]
      exact ((hparts.nameConstant _).appendCode (counted_idle rfl rfl) rfl).expression _
    | _ =>
      have hparts := hfun.seq harguments hc (hr.mono (Nat.le_succ _))
      simp only [Expr.spots_call, ne_eq, reduceCtorEq, not_false_eq_true, implies_true]
      have hcall : (Opcode.call).isIdle = true := rfl
      exact (hparts.appendCode (counted_idle (i := ⟨.call, _⟩) hcall rfl) rfl).expression _
  | .member object property span, h => by
    refine .ofTidy h fun k c hc hr => ?_
    have hobject := (level_expression object h).measures k c
      ((evolves_constant _).clean _ hc) (hr.mono (Nat.le_succ _))
    simp only [Expr.spots]
    exact ((hobject.nameConstant _).appendCode (counted_idle rfl rfl) rfl).expression _
  | .range first last inclusive span, h => by
    refine .ofTidy h fun k c hc hr => ?_
    obtain ⟨hf, hl⟩ := (Bool.and_eq_true ..).mp h
    have hparts := (level_expression first hf).seq (level_expression last hl)
      hc (hr.mono (Nat.le_succ _))
    simp only [Expr.spots]
    refine (hparts.appendCode (counted_idle ?_ rfl) rfl).expression _
    cases inclusive <;> rfl
  | .arrow params body span, h => by
    refine .ofTidy h fun k c hc hr => ?_
    have hbody : BodyMeasures limits strip body.size span (.value body) := by
      intro c hc hr _ _
      have := (level_expression body h).measures none c hc hr
      exact ⟨c.locals, this.appendCode (counted_return (.inl rfl)) rfl⟩
    simp only [Expr.spots]
    refine Measures.expression ?_ _
    exact measures_function (r := ⟨lambdaName, "", params, .value body, span⟩) (q := false) none
      ((evolves_expression strip body).andReturn _) hbody hc hr rfl (absurd · Bool.false_ne_true)
  | .lambda params body span, h => by
    refine .ofTidy h fun k c hc hr => ?_
    simp only [Expr.spots]
    refine Measures.expression ?_ _
    exact measures_function (r := ⟨lambdaName, "", params, .block body, span⟩) (q := false) none
      (evolves_statements strip none body) (StatementsLevel.body (statementsLevel body h)) hc
      hr rfl (absurd · Bool.false_ne_true)

theorem level_expressions : (es : List Expr) → Expr.areTidy es = true →
    Level limits strip (Expr.sizes es) (expressions strip es) fun o c => Expr.allSpots strip o c es
  | [], h => by
    refine ⟨evolves_expressions strip _, stays_of_areTidy strip _ h, fun k c _ _ => ?_⟩
    exact measures_code counted_nil rfl
  | e :: es, h => by
    refine ⟨evolves_expressions strip _, stays_of_areTidy strip _ h, fun k c hc hr => ?_⟩
    obtain ⟨he, hes⟩ := (Bool.and_eq_true ..).mp h
    simp only [Expr.allSpots]
    exact (level_expression e he).seq (level_expressions es hes) hc hr

theorem statementLevel : (s : Stmt) → s.isTidy = true →
    StatementLevel limits strip s
  | .variable _ init _, h => statementLevel_variable (level_expression init h)
  | .function _ _ body _, h =>
    statementLevel_function (StatementsLevel.body (statementsLevel body h))
      (statementsAdd_of_areTidy strip body h).function
  | .record _ _ methods _, h =>
    statementLevel_record (methodsLevel methods h) (stays_methodClosures strip methods h)
  | .expression e _, h => (quietLevel_expression (level_expression e h)).statement h rfl
  | .block body _, h =>
    (quietLevel_block (statementsLevel body h) (statementsAdd_of_areTidy strip body h)).statement h rfl
  | .cond test consequent alternate _, h => by
    obtain ⟨h₁, ha⟩ := (Bool.and_eq_true ..).mp h
    obtain ⟨ht, h₂⟩ := (Bool.and_eq_true ..).mp h₁
    obtain ⟨hc, hcd⟩ := (Bool.and_eq_true ..).mp h₂
    exact (quietLevel_cond (level_expression test ht) ((statementLevel consequent hc).quiet hc hcd)
      (branchLevel alternate ha)).statement h rfl
  | .while test body _, h => by
    obtain ⟨ht, h₁⟩ := (Bool.and_eq_true ..).mp h
    obtain ⟨hb, hbd⟩ := (Bool.and_eq_true ..).mp h₁
    exact (quietLevel_while (level_expression test ht) ((statementLevel body hb).quiet hb hbd)).statement
      h rfl
  | .loop body _, h => by
    obtain ⟨hb, hbd⟩ := (Bool.and_eq_true ..).mp h
    exact (quietLevel_loop ((statementLevel body hb).quiet hb hbd)).statement h rfl
  | .forIn _ iterable body _, h => by
    obtain ⟨hi, hb⟩ := (Bool.and_eq_true ..).mp h
    exact (quietLevel_forIn (level_expression iterable hi) (statementLevel body hb)
      (statementAdds_of_isTidy strip body hb)).statement h rfl
  | .for _ init test update body _, h => by
    obtain ⟨h₁, hb⟩ := (Bool.and_eq_true ..).mp h
    obtain ⟨h₂, hu⟩ := (Bool.and_eq_true ..).mp h₁
    obtain ⟨hi, ht⟩ := (Bool.and_eq_true ..).mp h₂
    exact (quietLevel_for (level_expression init hi) (optionLevel test ht) (optionLevel update hu)
      (statementLevel body hb) (statementAdds_of_isTidy strip body hb)).statement h rfl
  | .return value _, h => (quietLevel_return (optionLevel value h)).statement h rfl
  | .exit how _, h => (quietLevel_exit how).statement h rfl

theorem statementsLevel : (ss : List Stmt) →
    Stmt.areTidy ss = true → StatementsLevel limits strip ss
  | [], _ => fun _ _ _ _ _ _ _ _ => measures_code counted_nil rfl
  | s :: ss, h => by
    obtain ⟨hs, hss⟩ := (Bool.and_eq_true ..).mp h
    intro loop m k c hclean hb ht hdeep
    have hclean₂ : (statements strip loop ss (statement strip loop s c).2).2.Clean := hclean
    have hclean₁ := (evolves_statements strip loop ss).clean _ hclean₂
    have hadds := statementAdds_of_isTidy strip s hs loop c hclean₁ hb.bounded fun _ => ht
    have hstep := (evolves_statement strip loop s).step c hclean₁
    have hfirst := statementLevel s hs loop m k c hclean₁
      (hb.mono (Nat.le_add_right ..)) fun _ => ⟨ht, hdeep⟩
    have hrest := statementsLevel ss hss loop m k _ hclean₂
      (hb.after hstep hadds (fun l hl => Stmt.depth_of_mem_adds hl) (.inr hdeep))
      ((hadds.isTop hstep).trans ht) (by rwa [hadds.depth])
    simp only [Stmt.allSpots, map_fst_map]
    exact hfirst.append hrest rfl (by rw [hadds.locals]; exact Nat.le_add_right ..)

theorem branchLevel : (s : Option Stmt) →
    Stmt.isTidyBranch s = true → ∀ x ∈ s, Quiet limits strip x
  | none, _ => nofun
  | some s, h => by
    obtain ⟨hs, hd⟩ := (Bool.and_eq_true ..).mp h
    rintro _ ⟨⟩
    exact (statementLevel s hs).quiet hs hd

theorem optionLevel : (e : Option Expr) →
    Expr.isTidyOption e = true → OptionLevel limits strip e
  | none, _ => nofun
  | some e, h => by
    rintro _ ⟨⟩
    exact level_expression e h

theorem methodsLevel : (ms : List Method) →
    Method.areTidy ms = true → MethodsLevel limits strip ms
  | [], _ => fun _ _ _ _ _ _ _ _ _ => measures_code counted_nil rfl
  | ⟨_, _, body⟩ :: ms, h => by
    obtain ⟨hb, hms⟩ := (Bool.and_eq_true ..).mp h
    exact methodsLevel_cons (fun _ => StatementsLevel.body (statementsLevel body hb))
      (fun _ => (statementsAdd_of_areTidy strip body hb).function)
      (methodsLevel ms hms)

end

end StackScript.Lowering
