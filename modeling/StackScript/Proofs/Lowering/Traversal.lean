import StackScript.Proofs.Lowering.Landing
import StackScript.Proofs.Lowering.Spots

/-!
# Compilation goes through all spots

The spots of an expression or a statement lie between the points where its compilation begins and
ends, their code stands at their offsets, and closures are made at the spots of functions only. By
induction this (`Traversed`) holds of all code that is compiled without a message.
-/

namespace StackScript

open Lowering Fragment

/-! ## Where closures are made -/

/-- The operands of a piece that makes a closure. -/
def Piece.closure? : Piece → Option (UInt32 × List Capture)
  | .instruction ⟨.pushClosure, args⟩ _ => some args
  | _ => none

namespace Fragment

variable {f : Fragment}

/-- The offsets where a fragment makes closures, with the operands. -/
def closures (o : Nat) : Fragment → List (Nat × UInt32 × List Capture)
  | [] => []
  | p :: f => (p.closure?.map (o, ·)).toList ++ closures (o + p.size) f

theorem closures_append (o : Nat) (f g : Fragment) :
    closures o (f ++ g) = closures o f ++ closures (o + f.size) g := by
  induction f generalizing o with
  | nil => rfl
  | cons p f ih => simp only [List.cons_append, closures, ih, size_cons, List.append_assoc, Nat.add_assoc]

theorem closures_linkFrom (n o : Nat) (f : Fragment) : closures o (linkFrom n f) = closures o f := by
  induction f generalizing n o with
  | nil => rfl
  | cons p f ih =>
    cases p with
    | exit span =>
      simp only [linkFrom, closures, ih]
      rfl
    | _ => simp only [linkFrom, closures, ih]

theorem mem_closures_of_fetch {chunk : Chunk Value} {o next : Nat} {args : UInt32 × List Capture}
    (hp : Placed chunk.code o f) (hsize : 0 < f.size)
    (hcount : ∀ x ∈ f.closures o, x.2.2.length < 2 ^ 32)
    (hf : Machine.fetch chunk o = .ok (⟨.pushClosure, args⟩, next)) : (o, args) ∈ f.closures o := by
  induction f generalizing o with
  | nil => cases hsize
  | cons p f ih =>
    cases p with
    | instruction i span =>
      obtain ⟨op, args'⟩ := i
      have hother (hc : op.format.Countable args') (hop : op ≠ .pushClosure) :
          (o, args) ∈ closures o (.instruction ⟨op, args'⟩ span :: f) := by
        have hfetch := (hp.fetch hc).symm.trans hf
        simp only [Except.ok.injEq, Prod.mk.injEq, Instruction.mk.injEq] at hfetch
        exact absurd hfetch.1.1 hop
      cases op with
      | pushClosure =>
        have hmem : (o, args') ∈ closures o (.instruction ⟨.pushClosure, args'⟩ span :: f) :=
          List.mem_append_left _ (List.mem_singleton.2 rfl)
        have hfetch := (hp.fetch (i := ⟨.pushClosure, args'⟩) (hcount _ hmem)).symm.trans hf
        simp only [Except.ok.injEq, Prod.mk.injEq, Instruction.mk.injEq, heq_eq_eq, true_and] at hfetch
        rwa [← hfetch.1]
      | _ => exact hother trivial nofun
    | jump b d span =>
      have hfetch := hp.fetch_jump.1.symm.trans hf
      cases b <;> simp [Branch.instruction] at hfetch
    | exit span =>
      have hbytes := hp.bytes
      rw [bytes_cons] at hbytes
      have hfetch := (Machine.fetch_of_holds (i := Branch.back.instruction 0) trivial
        hbytes.left).symm.trans hf
      simp [Branch.instruction] at hfetch
    | landing => exact ih hp.tail (by simpa [Piece.size] using hsize) hcount hf

/-- The fragment makes no closure. -/
def Inert (f : Fragment) : Prop := ∀ p ∈ f, p.closure? = none

theorem Inert.closures (h : f.Inert) (o : Nat) : f.closures o = [] := by
  induction f generalizing o with
  | nil => rfl
  | cons p f ih =>
    rw [Fragment.closures, h p (List.mem_cons_self ..), ih (fun q hq => h q (List.mem_cons_of_mem p hq))]
    rfl

theorem inert_nil : Inert [] := List.forall_mem_nil _

theorem Inert.append {g : Fragment} (hf : f.Inert) (hg : g.Inert) : (f ++ g).Inert :=
  List.forall_mem_append.2 ⟨hf, hg⟩

theorem Inert.cons {p : Piece} (hp : p.closure? = none) (hf : f.Inert) :
    Inert (p :: f) := List.forall_mem_cons.2 ⟨hp, hf⟩

theorem inert_emit {i : Instruction} (hi : (i.op == .pushClosure) = false) (span : Span) :
    (emit i span).Inert := by
  obtain ⟨op, args⟩ := i
  refine Inert.cons ?_ inert_nil
  cases op with
  | pushClosure => cases hi
  | _ => rfl

end Fragment

/-- Where closures are made at a spot. -/
def Spot.closures (strip : Bool) (spot : Spot) : List (Nat × UInt32 × List Capture) :=
  match spot.phrase with
  | .closure r _ _ => (r.lower strip spot.context).1.closures spot.offset
  | _ => []

/-- How many entries the code of a body may need. -/
def Body.size : Body → Nat
  | .value e => e.size
  | .block ss => Stmt.sizes ss

/-- How many entries the code of a phrase may need. -/
def Phrase.size : Phrase → Nat
  | .expression e => e.size
  | .statement _ s => s.size
  | .closure r _ _ => r.params.length + r.body.size + 2
  | .round t _ => t.body.size + 1

/-- The head of a loop stands at the offset: the loop goes on, or is left, as the value on the stack says. -/
def Code.LoopHead (code : Code) (h : Nat) : Prop :=
  ∃ out span, Placed code h (.jump .ifFalse out span :: pop span)

/-- The spot has its place in the code, in which there is also the head of the loop around it. -/
structure Spot.Stands (strip : Bool) (code : Code) (spot : Spot) : Prop where
  placed : Placed code spot.offset (spot.code strip)
  head : ∀ h ∈ spot.phrase.head?, code.LoopHead h

/-- The spot is in the code from one offset to another one. -/
structure Spot.Between (strip : Bool) (a b : Nat) (spot : Spot) : Prop where
  start : a ≤ spot.offset
  stop : spot.offset + (spot.code strip).size ≤ b

namespace Lowering

variable {id : Ident} {body : Stmt} {c : Context} {n : Nat} {e : Expr} {methods : List Method}

theorem inert_pop (span : Span) : (pop span).Inert := inert_emit rfl span

theorem inert_get (b : Binding) (span : Span) : (b.get span).Inert := by
  cases b <;> exact inert_emit rfl span

theorem inert_set (b : Binding) (span : Span) : (b.set span).Inert := by
  cases b <;> exact inert_emit rfl span

theorem inert_define (b : Option Binding) (span : Span) : (define b span).Inert := by
  rcases b with _ | (_ | _ | _) <;> exact inert_emit rfl span

theorem inert_literal (l : Literal) (span : Span) (c : Context) : (literal l span c).1.Inert := by
  cases l with
  | bool b => cases b <;> exact inert_emit rfl span
  | _ => exact inert_emit rfl span

theorem inert_releaseAfter (run : Nat) (span : Span) (ls : List Local) :
    (releaseAfter run span ls).Inert :=
  releaseAfter_induction inert_nil .append (inert_emit rfl span) (fun _ => inert_emit rfl span)
    (inert_emit rfl span) run ls

theorem inert_leaveScope (span : Span) (c : Context) : (leaveScope span c).1.Inert :=
  inert_releaseAfter 0 span _

/-! ## Parts of the compilation -/

/-- One point of the compilation comes before another one, with at most a number of new entries in
between. -/
structure Context.Before (n : Nat) (c c' : Context) : Prop where
  step : c.Step n c'
  clean : c'.Clean → c.Clean

theorem Context.Before.refl (c : Context) : c.Before 0 c := ⟨.refl c, id⟩

theorem Context.Before.trans {n m : Nat} {c c' c'' : Context} (h : c.Before n c')
    (h' : c'.Before m c'') : c.Before (n + m) c'' :=
  ⟨h.step.trans h'.step, fun hc => h.clean (h'.clean hc)⟩

theorem Context.Before.mono {m : Nat} {c' : Context} (h : c.Before n c') (hm : n ≤ m) :
    c.Before m c' :=
  ⟨h.step.mono hm, h.clean⟩

theorem Evolves.before {α : Type} {x : Lower α} (h : Evolves n x) (hc : (x c).2.Clean) :
    c.Before n (x c).2 :=
  ⟨h.step c hc, h.clean c⟩

theorem evolves_body (strip : Bool) (b : Body) (span : Span) : Evolves b.size (b.lower strip span) := by
  cases b with
  | value e => exact (evolves_expression strip e).andReturn _
  | block ss => exact evolves_statements strip none ss

theorem evolves_routine (strip : Bool) (r : Routine) :
    Evolves (r.params.length + r.body.size + 2) (r.lower strip) :=
  evolves_function (evolves_body strip r.body r.span)

/-- From one point of the compilation to a later one, code has been made for spots that lie in between.
The head of the loop around stands at an offset, if there is one. -/
structure Traversed (strip : Bool) (n : Nat) (head : Option Nat) (o : Nat) (c : Context)
    (f : Fragment) (c' : Context) (spots : List Spot) : Prop where
  before : c.Before n c'
  head_le : ∀ h ∈ head, h ≤ o
  closures : f.closures o = spots.flatMap (Spot.closures strip)
  within : ∀ spot ∈ spots, ∃ a b, a + spot.phrase.size + b ≤ n ∧ c.Before a spot.context ∧
    (spot.phrase.lower strip spot.context).2.Before b c'
  stands : ∀ code, (∀ h ∈ head, code.LoopHead h) → Placed code o (f.settle head o) →
    ∀ spot ∈ spots, spot.Stands strip code
  between : ∀ spot ∈ spots, spot.Between strip o (o + f.size)
  heads : ∀ spot ∈ spots, ∀ h ∈ spot.phrase.head?, h ≤ spot.offset
  parts : ∀ spot ∈ spots, spot.parts strip ⊆ spots
  turns : ∀ spot ∈ spots, ∀ t h, spot.phrase = .round t h → ∀ s ∈ spot.parts strip,
    s.Between strip (t.start spot.offset) (t.start spot.offset + (t.inner strip spot.context).1.size)

section

variable {strip : Bool} {n m : Nat} {head : Option Nat} {o o' : Nat} {c c₁ c₂ : Context} {f g : Fragment}
  {sp sp' : List Spot} {span : Span}

theorem settle_append (h : ∀ x ∈ head, x ≤ o) :
    (f ++ g).settle head o = f.settle head o ++ g.settle head (o + f.size) := by
  cases head with
  | none => rfl
  | some x =>
    have hx := h x rfl
    show linkFrom (o - x) (f ++ g) = linkFrom (o - x) f ++ linkFrom (o + f.size - x) g
    rw [linkFrom_append, Nat.sub_add_comm hx]

theorem settle_closed (h : f.Closed) : f.settle head o = f := by
  cases head with
  | none => rfl
  | some x => exact h _

theorem size_settle : (f.settle head o).size = f.size := by
  cases head with
  | none => rfl
  | some x => exact size_linkFrom _ f

/-- Code without spots. -/
theorem traversed_code (hb : c.Before n c₁) (hh : ∀ x ∈ head, x ≤ o) (hf : f.Inert) :
    Traversed strip n head o c f c₁ [] :=
  ⟨hb, hh, hf.closures o, List.forall_mem_nil _, fun _ _ _ => List.forall_mem_nil _,
    List.forall_mem_nil _, List.forall_mem_nil _, List.forall_mem_nil _, List.forall_mem_nil _⟩

theorem Traversed.append (hf : Traversed strip n head o c f c₁ sp)
    (hg : Traversed strip m head o' c₁ g c₂ sp') (ho : o' = o + f.size) :
    Traversed strip (n + m) head o c (f ++ g) c₂ (sp ++ sp') := by
  subst ho
  refine ⟨hf.before.trans hg.before, hf.head_le, ?_, fun spot hs => ?_, fun code hhead hcode spot hs => ?_,
    fun spot hs => ?_, fun spot hs => ?_, fun spot hs => ?_, fun spot hs => ?_⟩
  · rw [closures_append, hf.closures, hg.closures, List.flatMap_append]
  · rcases List.mem_append.1 hs with hs | hs
    · obtain ⟨a, b, hle, ha, hb⟩ := hf.within spot hs
      exact ⟨a, b + m, by omega, ha, hb.trans hg.before⟩
    · obtain ⟨a, b, hle, ha, hb⟩ := hg.within spot hs
      exact ⟨n + a, b, by omega, hf.before.trans ha, hb⟩
  · rw [settle_append hf.head_le] at hcode
    rcases List.mem_append.1 hs with hs | hs
    · exact hf.stands code hhead hcode.left spot hs
    · have := hcode.right
      rw [size_settle] at this
      exact hg.stands code hhead this spot hs
  · rw [size_append]
    rcases List.mem_append.1 hs with hs | hs
    · exact ⟨(hf.between spot hs).start, Nat.le_trans (hf.between spot hs).stop (by omega)⟩
    · exact ⟨Nat.le_trans (Nat.le_add_right ..) (hg.between spot hs).start,
        Nat.le_trans (hg.between spot hs).stop (by omega)⟩
  · exact (List.mem_append.1 hs).elim (hf.heads spot) (hg.heads spot)
  · rcases List.mem_append.1 hs with hs | hs
    · exact List.subset_append_of_subset_left _ (hf.parts spot hs)
    · exact List.subset_append_of_subset_right _ (hg.parts spot hs)
  · exact (List.mem_append.1 hs).elim (hf.turns spot) (hg.turns spot)

/-- Code without spots may follow. -/
theorem Traversed.then (hf : Traversed strip n head o c f c₁ sp) (hg : g.Inert) :
    Traversed strip n head o c (f ++ g) c₁ sp := by
  have hle : ∀ x ∈ head, x ≤ o + f.size := fun x hx => Nat.le_add_right_of_le (hf.head_le x hx)
  have hcode : Traversed strip 0 head (o + f.size) c₁ g c₁ [] := traversed_code (.refl c₁) hle hg
  simpa only [List.append_nil, Nat.add_zero] using hf.append hcode rfl

theorem Traversed.appendCode (hf : Traversed strip n head o c f c₁ sp) (hg : g.Inert)
    (hb : c₁.Before m c₂) : Traversed strip (n + m) head o c (f ++ g) c₂ sp := by
  have hle : ∀ x ∈ head, x ≤ o + f.size := fun x hx => Nat.le_add_right_of_le (hf.head_le x hx)
  simpa only [List.append_nil] using hf.append (traversed_code hb hle hg) rfl

/-- Code without spots may come first. -/
theorem Traversed.prepend (hg : Traversed strip n head o' c g c₁ sp) (hf : f.Inert)
    (hh : ∀ x ∈ head, x ≤ o) (ho : o' = o + f.size) :
    Traversed strip n head o c (f ++ g) c₁ sp := by
  simpa only [Nat.zero_add, List.nil_append] using (traversed_code (.refl c) hh hf).append hg ho

theorem Traversed.mono (h : Traversed strip n head o c f c₁ sp) (hm : n ≤ m) :
    Traversed strip m head o c f c₁ sp :=
  { h with
    before := h.before.mono hm
    within := fun spot hs => by
      obtain ⟨a, b, hle, hab⟩ := h.within spot hs
      exact ⟨a, b, Nat.le_trans hle hm, hab⟩ }

/-- The compilation may have gone on before. -/
theorem Traversed.from (h : Traversed strip n head o c₁ f c₂ sp) (hb : c.Before m c₁) :
    Traversed strip (n + m) head o c f c₂ sp :=
  { h with
    before := by
      rw [Nat.add_comm]
      exact hb.trans h.before
    within := fun spot hs => by
      obtain ⟨a, b, hle, ha, hb'⟩ := h.within spot hs
      exact ⟨m + a, b, by omega, hb.trans ha, hb'⟩ }

/-- Code without open ends can stand in any loop. -/
theorem Traversed.inLoop (h : Traversed strip n none o c f c₁ sp) (hf : f.Closed)
    (hh : ∀ x ∈ head, x ≤ o) : Traversed strip n head o c f c₁ sp :=
  { h with
    head_le := hh
    stands := fun code _ hcode => h.stands code nofun (by rwa [settle_closed hf] at hcode) }

/-- The spot of the code itself. -/
theorem Traversed.own (phrase : Phrase) (h : Traversed strip phrase.size phrase.head? o c f c₁ sp)
    (hp : phrase.lower strip c = (f, c₁)) (hn : ∀ r p q, phrase ≠ .closure r p q)
    (hparts : (Spot.mk o c phrase).parts strip ⊆ ⟨o, c, phrase⟩ :: sp)
    (hturn : ∀ t x, phrase = .round t x → ∀ s ∈ (Spot.mk o c phrase).parts strip,
      s.Between strip (t.start o) (t.start o + (t.inner strip c).1.size)) :
    Traversed strip phrase.size phrase.head? o c f c₁ (⟨o, c, phrase⟩ :: sp) := by
  refine ⟨h.before, h.head_le, ?_, List.forall_mem_cons.2 ⟨?_, h.within⟩, fun code hhead hcode =>
    List.forall_mem_cons.2 ⟨?_, h.stands code hhead hcode⟩, List.forall_mem_cons.2 ⟨?_, h.between⟩,
    List.forall_mem_cons.2 ⟨h.head_le, h.heads⟩, List.forall_mem_cons.2 ⟨hparts, fun spot hs => ?_⟩,
    List.forall_mem_cons.2 ⟨hturn, h.turns⟩⟩
  · have : Spot.closures strip ⟨o, c, phrase⟩ = [] := by
      unfold Spot.closures
      split
      · exact absurd ‹_› (hn _ _ _)
      · rfl
    rw [List.flatMap_cons, this, h.closures, List.nil_append]
  · refine ⟨0, 0, Nat.le_of_eq (Nat.zero_add _), .refl c, ?_⟩
    rw [hp]
    exact .refl c₁
  · refine ⟨?_, hhead⟩
    show Placed code o ((phrase.lower strip c).1.settle phrase.head? o)
    rwa [hp]
  · refine ⟨Nat.le_refl _, Nat.le_of_eq ?_⟩
    show o + ((phrase.lower strip c).1.settle phrase.head? o).size = _
    rw [size_settle, hp]
  · exact List.subset_cons_of_subset _ (h.parts spot hs)

theorem Traversed.loop {first round : Fragment} {out : Nat} (hh : ∀ x ∈ head, x ≤ o)
    (h : Traversed strip n (some (o + 5)) (o + 5) c
      (.jump .ifFalse out span :: (pop span ++ first) ++ round) c₁ sp)
    (hout : out = (pop span).size + first.size + round.size) :
    Traversed strip n head o c (loopCode first round span) c₁ sp := by
  subst hout
  set g : Fragment := .jump .ifFalse ((pop span).size + first.size + round.size) span ::
    (pop span ++ first) ++ round
  have hsettle : g.settle (some (o + 5)) (o + 5) = linkFrom 0 g := by
    show linkFrom (o + 5 - (o + 5)) g = _
    rw [Nat.sub_self]
  have hlinked : Traversed strip n none (o + 5) c (linkFrom 0 g) c₁ sp := by
    refine ⟨h.before, nofun, ?_, h.within, fun code _ hcode => h.stands code ?_ ?_, fun spot hs => ?_,
      h.heads, h.parts, h.turns⟩
    · rw [closures_linkFrom, h.closures]
    · rintro _ ⟨⟩
      have hparts : linkFrom 0 g = (.jump .ifFalse ((pop span).size + first.size + round.size) span ::
        pop span) ++ linkFrom 6 (first ++ round) := rfl
      have hcode : Placed code (o + 5) (linkFrom 0 g) := hcode
      rw [hparts] at hcode
      exact ⟨_, span, hcode.left⟩
    · rwa [hsettle]
    · rw [size_linkFrom]
      exact h.between spot hs
  have hjump : Inert [.jump .always (size (.jump .ifFalse
      ((pop span).size + first.size + round.size) span :: (pop span ++ first))) span] :=
    .cons rfl inert_nil
  exact ((hlinked.inLoop (closed_linkFrom 0 g) fun x hx => Nat.le_add_right_of_le (hh x hx)).prepend
    hjump hh rfl).then (inert_pop span)

theorem traversed_closure {r : Routine} (h : (r.lower strip c).2.Clean) (hh : ∀ x ∈ head, x ≤ o)
    (p q : Bool) : Traversed strip (r.params.length + r.body.size + 2) head o c (r.lower strip c).1
      (r.lower strip c).2 [⟨o, c, .closure r p q⟩] := by
  have hclosed : (r.lower strip c).1.Closed := gives_closed_function _ _ _ _ _ c
  refine ⟨(evolves_routine strip r).before h, hh, ?_, List.forall_mem_singleton.2 ?_,
    fun code _ hcode => List.forall_mem_singleton.2 ⟨?_, nofun⟩, List.forall_mem_singleton.2 ?_,
    List.forall_mem_singleton.2 nofun, List.forall_mem_singleton.2 (List.nil_subset _),
    List.forall_mem_singleton.2 nofun⟩
  · rw [List.flatMap_singleton]
    rfl
  · exact ⟨0, 0, Nat.le_of_eq (Nat.zero_add _), .refl c, .refl _⟩
  · rwa [settle_closed hclosed] at hcode
  · exact ⟨Nat.le_refl _, Nat.le_refl _⟩

theorem traversed_turn {t : Turn} {h : Nat} (hh : h ≤ o)
    (hclean : (leaveScope t.span (t.inner strip c).2).2.Clean)
    (hk : Traversed strip t.body.size (some h) (t.start o) (t.inside c) (t.inner strip c).1
      (t.inner strip c).2 (t.spots strip h o c)) :
    Traversed strip (t.body.size + 1) (some h) o c (t.code strip c)
      (leaveScope t.span (t.inner strip c).2).2 (⟨o, c, .round t h⟩ :: t.spots strip h o c) := by
  have hinside := hk.before.clean ((evolves_leaveScope t.span).clean _ hclean)
  have hbefore : c.Before 1 (t.inside c) :=
    (evolves_enter.before ((evolves_addLocal t.id.name).clean _ hinside)).trans
      ((evolves_addLocal t.id.name).before hinside)
  have hopening : (emit t.opening t.span).Inert := by
    unfold Turn.opening
    split <;> exact inert_emit rfl t.span
  have hrest : (t.rest strip c).Inert := by
    unfold Turn.rest
    split
    · exact inert_leaveScope t.span _
    · exact ((((inert_emit rfl t.span).append (inert_leaveScope t.span _)).append
        (inert_emit rfl t.span)).append (inert_pop t.span)).append (inert_emit rfl t.span)
  have hfirst : Traversed strip 1 (some h) o c (emit t.opening t.span ++ emit ⟨.defLocal, ()⟩ t.span)
      (t.inside c) [] :=
    traversed_code hbefore (by rintro _ ⟨⟩; exact hh) (hopening.append (inert_emit rfl t.span))
  have hlast := hk.appendCode hrest ((evolves_leaveScope t.span).before hclean)
  have hall := hfirst.append hlast (by rw [size_append, ← Nat.add_assoc]; rfl)
  rw [Nat.add_comm 1] at hall
  refine Traversed.own (.round t h) hall rfl nofun (List.subset_cons_self _ _) ?_
  rintro _ _ ⟨⟩
  exact hk.between

/-- All code of the expression is for spots. -/
def ExpressionTraversed (strip : Bool) (e : Expr) : Prop :=
  ∀ o c, (expression strip e c).2.Clean →
    Traversed strip e.size none o c (expression strip e c).1 (expression strip e c).2 (e.spots strip o c)

theorem Traversed.expression (h : Traversed strip n none o c f c₁ sp)
    (he : Lowering.expression strip e c = (f, c₁)) (hn : n ≤ e.size) :
    Traversed strip e.size none o c f c₁ (⟨o, c, .expression e⟩ :: sp) :=
  (h.mono hn).own (.expression e) he nofun (List.nil_subset _) nofun

theorem ExpressionTraversed.inLoop (h : ExpressionTraversed strip e)
    (hc : (expression strip e c).2.Clean) (hh : ∀ x ∈ head, x ≤ o) :
    Traversed strip e.size head o c (expression strip e c).1 (expression strip e c).2
      (e.spots strip o c) :=
  (h o c hc).inLoop (gives_closed_expression strip e c) hh

/-! ### Branches and loops -/

section

variable {l : Nat} {c₃ : Context} {t k a r : Fragment} {sp₁ sp₂ sp₃ : List Spot}

theorem inert_jump (b : Branch) (d : Nat) (span : Span) : Inert [.jump b d span] := .cons rfl inert_nil

theorem Traversed.head_le_add (h : Traversed strip n head o c f c₁ sp) (d : Nat) :
    ∀ x ∈ head, x ≤ o + d := fun x hx => Nat.le_add_right_of_le (h.head_le x hx)

theorem traversed_condCode (ht : Traversed strip n head o c t c₁ sp₁)
    (hk : Traversed strip m head (o + t.size + 6) c₁ k c₂ sp₂)
    (ha : Traversed strip l head (o + t.size + k.size + 12) c₂ a c₃ sp₃) :
    Traversed strip (n + m + l) head o c (condCode t k a span) c₃ (sp₁ ++ sp₂ ++ sp₃) := by
  have hthen := ((hk.then (inert_jump .always (pop span ++ a).size span)).prepend
    (inert_pop span) (o := o + t.size + 5) (by rw [Nat.add_assoc]; exact ht.head_le_add _) rfl).prepend
    (inert_jump .ifFalse (pop span ++ k ++ [Piece.jump .always (pop span ++ a).size span]).size span)
    (ht.head_le_add _) rfl
  have helse := ha.prepend (inert_pop span) (o := o + t.size + k.size + 11)
    (by rw [Nat.add_assoc, Nat.add_assoc]; exact ht.head_le_add _) rfl
  refine ((ht.append hthen rfl).append helse ?_).then (g := [.landing]) (.cons rfl inert_nil)
  simp only [size_append, size_cons, size_nil, size_pop, size_jump]
  omega

/-- The parts of a loop behind its head. -/
theorem traversed_loopCode {first round : Fragment} (hh : ∀ x ∈ head, x ≤ o)
    (hf : Traversed strip n (some (o + 5)) (o + 11) c first c₁ sp₁)
    (hr : Traversed strip m (some (o + 5)) (o + 11 + first.size) c₁ round c₂ sp₂) :
    Traversed strip (n + m) head o c (loopCode first round span) c₂ (sp₁ ++ sp₂) := by
  have hhead : ∀ x ∈ some (o + 5), x ≤ o + 5 := by
    rintro _ ⟨⟩
    exact Nat.le_refl _
  refine Traversed.loop hh ?_ rfl
  refine ((hf.prepend (inert_pop span) (o := o + 10) ?_ rfl).prepend (inert_jump .ifFalse _ span) hhead
    rfl).append hr ?_
  · rintro _ ⟨⟩
    omega
  · simp only [size_append, size_cons, size_nil, size_pop, size_jump]
    omega

theorem traversed_while (hh : ∀ x ∈ head, x ≤ o)
    (ht : Traversed strip n (some (o + 5)) (o + 11) c t c₁ sp₁)
    (hk : Traversed strip m (some (o + 5)) (o + t.size + 17) c₁ k c₂ sp₂) :
    Traversed strip (n + m) head o c (loopCode [] (whileRound t k span) span) c₂ (sp₁ ++ sp₂) := by
  have hle (d : Nat) : ∀ x ∈ some (o + 5), x ≤ o + 5 + d := by
    rintro _ ⟨⟩
    exact Nat.le_add_right ..
  rw [← Nat.zero_add (n + m), ← List.nil_append (sp₁ ++ sp₂)]
  refine traversed_loopCode hh (traversed_code (.refl c) (hle 6) inert_nil) ?_
  refine (ht.append ((hk.prepend (inert_pop span) (o := o + t.size + 16) ?_ rfl).prepend
    (inert_jump .ifFalse _ span) (o := o + t.size + 11) ?_ rfl) ?_).then
    (inert_jump .back _ span)
  · rintro _ ⟨⟩
    omega
  · rintro _ ⟨⟩
    omega
  · omega

theorem traversed_again (hh : ∀ x ∈ head, x ≤ o)
    (hk : Traversed strip n (some (o + 5)) (o + 11) c k c₁ sp) :
    Traversed strip n head o c (loopCode [] (again k span) span) c₁ sp := by
  rw [← Nat.zero_add n, ← List.nil_append sp]
  refine traversed_loopCode hh (traversed_code (.refl c) ?_ inert_nil)
    (hk.then (inert_jump .back _ span))
  rintro _ ⟨⟩
  omega

theorem traversed_forIn {b : Option Binding} (hh : ∀ x ∈ head, x ≤ o)
    (hk : Traversed strip n (some (o + 5)) (o + 17) c
      (emit ⟨.getNext, ()⟩ span ++ define b span ++ k ++ r) c₁ sp) :
    Traversed strip n head o c (loopCode (emit ⟨.advance, ()⟩ span) (forInRound b k r span) span) c₁
      sp := by
  have hle (d : Nat) : ∀ x ∈ some (o + 5), x ≤ o + 5 + d := by
    rintro _ ⟨⟩
    exact Nat.le_add_right ..
  have hround : Traversed strip n (some (o + 5)) (o + 12) c (forInRound b k r span) c₁ sp :=
    (hk.prepend (inert_jump .ifDone _ span) (hle 7) rfl).then (inert_jump .back _ span)
  have hfirst : Traversed strip 0 (some (o + 5)) (o + 11) c (emit ⟨.advance, ()⟩ span) c [] :=
    traversed_code (.refl c) (hle 6) (inert_emit rfl span)
  exact (traversed_loopCode hh hfirst hround).mono (Nat.le_of_eq (Nat.zero_add n))

/-- A turn behind its condition, if it has one. -/
theorem traversed_forTest {test : Option Expr} {turn : Fragment}
    (ht : ∀ e ∈ test, ExpressionTraversed strip e)
    (hc : (optionalExpression strip test c).2.Clean)
    (hturn : Traversed strip n head (o + testSize (optionalExpression strip test c).1)
      (optionalExpression strip test c).2 turn c₁ sp) (hh : ∀ x ∈ head, x ≤ o) :
    Traversed strip (Expr.sizeOption test + n) head o c
      (forTest (optionalExpression strip test c).1 turn span) c₁ (Expr.optionSpots strip o c test ++ sp) := by
  cases test with
  | none =>
    rw [Expr.sizeOption, Nat.zero_add]
    exact hturn
  | some e =>
    have htest := (ht e rfl).inLoop hc hh
    have hjump := (hturn.prepend (inert_pop span)
      (o := o + ((expression strip e c).1.size + 5)) (htest.head_le_add _) rfl).prepend
      (inert_jump .ifFalse ((pop span).size + turn.size + Piece.jumpSize) span) (htest.head_le_add _) rfl
    have hcode : forTest (some (expression strip e c).1) turn span = (expression strip e c).1 ++
      ([.jump .ifFalse ((pop span).size + turn.size + Piece.jumpSize) span] ++ (pop span ++ turn)) :=
        List.append_assoc ..
    show Traversed strip _ head o c (forTest (some (expression strip e c).1) turn span) c₁ _
    rw [hcode]
    exact htest.append hjump rfl

theorem traversed_forUpdate {update : Option Expr}
    (hu : ∀ e ∈ update, ExpressionTraversed strip e)
    (hc : (optionalExpression strip update c).2.Clean) (hh : ∀ x ∈ head, x ≤ o) :
    Traversed strip (Expr.sizeOption update) head o c (forUpdate (optionalExpression strip update c).1 span)
      (optionalExpression strip update c).2 (Expr.optionSpots strip o c update) := by
  cases update with
  | none => exact traversed_code (.refl c) hh inert_nil
  | some e =>
    exact ((hu e rfl).inLoop hc hh).then (inert_pop span)

end

/-! ## Statements -/

/-- All code of the statement is for spots. -/
def StatementTraversed (strip : Bool) (s : Stmt) : Prop :=
  ∀ (loop : Option (Loop × Nat)) o c, (statement strip (loop.map Prod.fst) s c).2.Clean →
    (∀ x ∈ loop.map Prod.snd, x ≤ o) →
    Traversed strip s.size (loop.map Prod.snd) o c (statement strip (loop.map Prod.fst) s c).1
      (statement strip (loop.map Prod.fst) s c).2 (s.spots strip loop o c)

theorem Traversed.statement {loop : Option (Loop × Nat)} {s : Stmt}
    (h : Traversed strip n (loop.map Prod.snd) o c (statement strip (loop.map Prod.fst) s c).1
      (statement strip (loop.map Prod.fst) s c).2 sp) (hn : n ≤ s.size)
    (hsp : s.spots strip loop o c = ⟨o, c, .statement loop s⟩ :: sp) :
    Traversed strip s.size (loop.map Prod.snd) o c (Lowering.statement strip (loop.map Prod.fst) s c).1
      (Lowering.statement strip (loop.map Prod.fst) s c).2 (s.spots strip loop o c) := by
  rw [hsp]
  exact (h.mono hn).own (.statement loop s) rfl nofun (fun _ hx => hsp ▸ hx) nofun

theorem statementTraversed_variable {init : Expr} (hi : ExpressionTraversed strip init) :
    StatementTraversed strip (.variable id init span) := by
  intro loop o c h hh
  have hclean : (declare id (expression strip init c).2).2.Clean := h
  refine Traversed.statement (n := init.size + 1) ?_ (Nat.le_refl _) (by rw [Stmt.spots])
  exact (hi.inLoop ((evolves_declare id).clean _ hclean) hh).appendCode (inert_define _ span)
    ((evolves_declare id).before hclean)

theorem statementTraversed_function {params : List Ident} {body : List Stmt} :
    StatementTraversed strip (.function id params body span) := by
  intro loop o c h hh
  have hev : Evolves _ (function id.name "" params span (statements strip none body)) :=
    evolves_function (evolves_statements strip none body)
  refine Traversed.statement (n := params.length + Stmt.sizes body + 3) ?_ (Nat.le_refl _) (by rw [Stmt.spots])
  rw [statement_function_eq] at h ⊢
  cases htop : c.isTop with
  | true =>
    rw [htop] at h
    have hclean : (declare id (function id.name "" params span (statements strip none body) c).2).2.Clean :=
      h
    exact (traversed_closure (r := ⟨id.name, "", params, .block body, span⟩)
      ((evolves_declare id).clean _ hclean) hh false _).appendCode (inert_define _ span)
      ((evolves_declare id).before hclean)
  | false =>
    rw [htop] at h
    have hclean : (function id.name "" params span (statements strip none body) (declare id c).2).2.Clean :=
      h
    exact ((traversed_closure (r := ⟨id.name, "", params, .block body, span⟩)
      hclean hh false _).from
      ((evolves_declare id).before (hev.clean _ hclean))).then (inert_define _ span)

theorem traversed_methodClosures (waits : Bool) (h : (methodClosures strip span methods c).2.Clean)
    (hh : ∀ x ∈ head, x ≤ o) :
    Traversed strip (Method.sizes methods) head o c (methodClosures strip span methods c).1
      (methodClosures strip span methods c).2 (Method.spots strip span waits o c methods) := by
  induction methods generalizing o c with
  | nil => exact traversed_code (.refl c) hh inert_nil
  | cons method methods ih =>
    obtain ⟨id, params, body⟩ := method
    have hclean : (methodClosures strip span methods (function id.name "self" params span
      (statements strip none body) c).2).2.Clean := h
    have hfirst := traversed_closure (r := ⟨id.name, "self", params, .block body, span⟩)
      ((evolves_methodClosures strip span methods).clean _ hclean) hh waits waits
    exact hfirst.append (ih hclean fun x hx => Nat.le_add_right_of_le (hh x hx)) rfl

theorem traversed_recordParts {fields : List Ident} (waits : Bool)
    (h : (recordParts strip id fields methods span c).2.Clean) (hh : ∀ x ∈ head, x ≤ o) :
    Traversed strip (Method.sizes methods + 1) head o c (recordParts strip id fields methods span c).1
      (recordParts strip id fields methods span c).2
      (Method.spots strip span waits (o + 5) (constant ⟨.record ⟨id.name, fields.map Ident.name, []⟩⟩
        (reportRepeated [] (methods.map Method.id) (reportRepeated [] fields c).2).2).2 methods) := by
  set record : Constant := ⟨.record ⟨id.name, fields.map Ident.name, []⟩⟩
  set c₁ := (reportRepeated [] fields c).2
  set c₂ := (reportRepeated [] (methods.map Method.id) c₁).2
  have hclean : (methodClosures strip span methods (constant record c₂).2).2.Clean := h
  have hclean₃ := (evolves_methodClosures strip span methods).clean _ hclean
  have hclean₂ : c₂.Clean := (evolves_constant record).clean _ hclean₃
  have hclean₁ : c₁.Clean := (evolves_reportRepeated ..).clean _ hclean₂
  have hbefore : c.Before _ (constant record c₂).2 :=
    (((evolves_reportRepeated [] fields).before hclean₁).trans
      ((evolves_reportRepeated [] (methods.map Method.id)).before hclean₂)).trans
      ((evolves_constant record).before hclean₃)
  have happend : Inert (if methods.isEmpty then []
      else emit ⟨.appendMethods, methods.length.toUInt32⟩ span) := by
    split
    · exact inert_nil
    · exact inert_emit rfl span
  exact (((traversed_methodClosures waits hclean fun x hx => Nat.le_add_right_of_le (hh x hx)).prepend
    (inert_emit rfl span) hh rfl).from hbefore).then happend

theorem statementTraversed_record {fields : List Ident} :
    StatementTraversed strip (.record id fields methods span) := by
  intro loop o c h hh
  refine Traversed.statement (n := Method.sizes methods + 2) ?_ (Nat.le_refl _) (by rw [Stmt.spots])
  rw [statement_record_eq] at h ⊢
  cases htop : c.isTop with
  | true =>
    rw [htop] at h
    have hclean : (declare id (recordParts strip id fields methods span c).2).2.Clean := h
    exact (traversed_recordParts _ ((evolves_declare id).clean _ hclean) hh).appendCode
      (inert_define _ span) ((evolves_declare id).before hclean)
  | false =>
    rw [htop] at h
    have hclean : (recordParts strip id fields methods span (declare id c).2).2.Clean := h
    exact ((traversed_recordParts _ hclean hh).from ((evolves_declare id).before
      ((evolves_recordParts id fields methods).clean _ hclean))).then (inert_define _ span)

theorem snd_expression_name : (expression strip (.name id span) c).2 = (resolve id c).2 := by
  rw [expression, bind_apply]
  cases (resolve id c).1 <;> rfl

theorem statementTraversed_expression (he : ExpressionTraversed strip e) :
    StatementTraversed strip (.expression e span) := by
  intro loop o c h hh
  refine Traversed.statement (n := e.size) ?_ (Nat.le_succ _) (by rw [Stmt.spots])
  revert h
  cases e with
  | literal l place =>
    unfold statement
    cases strip with
    | true => exact fun _ => traversed_code ((Context.Before.refl c).mono (Nat.zero_le _)) hh inert_nil
    | false => exact fun h => (he.inLoop h hh).then (inert_pop span)
  | name id place =>
    intro h
    obtain ⟨b, hb, heq⟩ := statement_name h
    rw [heq] at h ⊢
    cases strip with
    | true => exact traversed_code ((evolves_resolve id).before h) hh inert_nil
    | false =>
      have hname : (expression false (.name id place) c).2.Clean := by
        rw [snd_expression_name]
        exact h
      obtain ⟨b', hb', he'⟩ := expression_name hname
      obtain rfl : b = b' := Option.some.inj (hb.symm.trans hb')
      have := (he.inLoop hname hh).then (inert_pop span)
      rwa [he'] at this
  | _ =>
    intro h
    simp only [Expr.isBare, Bool.and_false, Bool.false_eq_true, ↓reduceIte]
    exact (he.inLoop h hh).then (inert_pop span)

theorem statementTraversed_block {body : List Stmt}
    (hb : ∀ (loop : Option (Loop × Nat)) o c, (statements strip (loop.map Prod.fst) body c).2.Clean →
      (∀ x ∈ loop.map Prod.snd, x ≤ o) →
      Traversed strip (Stmt.sizes body) (loop.map Prod.snd) o c
        (statements strip (loop.map Prod.fst) body c).1 (statements strip (loop.map Prod.fst) body c).2
        (Stmt.allSpots strip loop o c body)) :
    StatementTraversed strip (.block body span) := by
  intro loop o c h hh
  have hclean := (evolves_leaveScope span).clean _ h
  refine Traversed.statement (n := Stmt.sizes body) ?_ (Nat.le_succ _) (by rw [Stmt.spots])
  exact ((hb loop o _ hclean hh).from (evolves_enter.before
    ((evolves_statements strip (loop.map Prod.fst) body).clean _ hclean))).appendCode
    (inert_leaveScope span _) ((evolves_leaveScope span).before h)

theorem statementTraversed_cond {test : Expr} {consequent : Stmt} {alternate : Option Stmt}
    (ht : ExpressionTraversed strip test) (hk : StatementTraversed strip consequent)
    (ha : ∀ s ∈ alternate, StatementTraversed strip s) :
    StatementTraversed strip (.cond test consequent alternate span) := by
  intro loop o c h hh
  set c₁ := (expression strip test c).2
  set c₂ := (statement strip (loop.map Prod.fst) consequent c₁).2
  have hclean : (optionalStatement strip (loop.map Prod.fst) alternate c₂).2.Clean := h
  have hclean₂ := (evolves_optionalStatement strip (loop.map Prod.fst) alternate).clean _ hclean
  have hclean₁ := (evolves_statement strip (loop.map Prod.fst) consequent).clean _ hclean₂
  have hle (n : Nat) : ∀ x ∈ loop.map Prod.snd, x ≤ o + n := fun x hx =>
    Nat.le_add_right_of_le (hh x hx)
  have htest := ht.inLoop hclean₁ hh
  have hthen := hk loop (o + (expression strip test c).1.size + 6) c₁ hclean₂ (by
    rw [Nat.add_assoc]
    exact hle _)
  have helse : Traversed strip (Stmt.sizeOption alternate) (loop.map Prod.snd)
      (o + (expression strip test c).1.size + (statement strip (loop.map Prod.fst) consequent c₁).1.size + 12) c₂
      (optionalStatement strip (loop.map Prod.fst) alternate c₂).1
      (optionalStatement strip (loop.map Prod.fst) alternate c₂).2
      (Stmt.optionSpots strip loop (o + (expression strip test c).1.size +
        (statement strip (loop.map Prod.fst) consequent c₁).1.size + 12) c₂ alternate) := by
    have hle : ∀ x ∈ loop.map Prod.snd, x ≤ o + (expression strip test c).1.size +
      (statement strip (loop.map Prod.fst) consequent c₁).1.size + 12 := by
        rw [Nat.add_assoc, Nat.add_assoc]
        exact hle _
    cases alternate with
    | none => exact traversed_code (.refl c₂) hle inert_nil
    | some s => exact ha s rfl loop _ c₂ hclean hle
  exact Traversed.statement (traversed_condCode htest hthen helse) (Nat.le_succ _) (by rw [Stmt.spots])

theorem StatementTraversed.round {L : Loop} {h : Nat} (hk : StatementTraversed strip body)
    (hc : (statement strip (some L) body c).2.Clean) (hle : h ≤ o) :
    Traversed strip body.size (some h) o c (statement strip (some L) body c).1
      (statement strip (some L) body c).2 (body.spots strip (some (L, h)) o c) := by
  refine hk (some (L, h)) o c hc ?_
  rintro _ ⟨⟩
  exact hle

theorem statementTraversed_while {test : Expr} (ht : ExpressionTraversed strip test)
    (hk : StatementTraversed strip body) : StatementTraversed strip (.while test body span) := by
  intro loop o c h hh
  set c₁ := (expression strip test c).2
  set inner : Loop := { depth := c₁.frame.scope.depth }
  have hclean : (statement strip (some inner) body c₁).2.Clean := h
  have hclean₁ := (evolves_statement strip (some inner) body).clean _ hclean
  have hhead (n : Nat) : ∀ x ∈ some (o + 5), x ≤ o + 5 + n := by
    rintro _ ⟨⟩
    exact Nat.le_add_right ..
  have htest : Traversed strip _ (some (o + 5)) (o + 11) c _ _ _ := ht.inLoop hclean₁ (hhead 6)
  have hbody : Traversed strip _ (some (o + 5)) (o + (expression strip test c).1.size + 17) c₁ _ _ _ :=
    hk.round hclean (by omega)
  exact Traversed.statement (traversed_while hh htest hbody) (Nat.le_succ _) (by rw [Stmt.spots])

theorem statementTraversed_loop (hk : StatementTraversed strip body) :
    StatementTraversed strip (.loop body span) := by
  intro loop o c h hh
  exact Traversed.statement (traversed_again hh (hk.round h (by omega))) (Nat.le_succ _) (by rw [Stmt.spots])

theorem statementTraversed_forIn {iterable : Expr} (hi : ExpressionTraversed strip iterable)
    (hk : StatementTraversed strip body) :
    StatementTraversed strip (.forIn id iterable body span) := by
  intro loop o c h hh
  set c₁ := (expression strip iterable c).2
  set c₂ := (modifyScope Scope.enter c₁).2
  set c₃ := (declare id c₂).2
  set inner : Loop := { depth := c₁.frame.scope.depth }
  have hclean₄ : (statement strip (some inner) body c₃).2.Clean := (evolves_leaveScope span).clean _ h
  have hclean₃ := (evolves_statement strip (some inner) body).clean _ hclean₄
  have hclean₂ : c₂.Clean := (evolves_declare id).clean _ hclean₃
  have hclean₁ : c₁.Clean := evolves_enter.clean _ hclean₂
  have hiterable := (hi.inLoop hclean₁ hh).then (inert_emit (i := ⟨.makeIterator, ()⟩) rfl span)
  set o₁ := o + (expression strip iterable c).1.size + 1 with ho₁
  set x : Turn := ⟨id, inner, body, span⟩
  obtain ⟨hinside, hcode⟩ := Turn.code_of_carry_none (t := x) strip rfl hclean₃
  have hbody := hk.round (o := o₁ + 19) (h := o₁ + 5) hclean₄ (by omega)
  have hturn : Traversed strip (body.size + 1) (some (o₁ + 5)) (o₁ + 17) c₁ (x.code strip c₁)
      (leaveScope span (x.inner strip c₁).2).2 _ :=
    traversed_turn (t := x) (show o₁ + 5 ≤ o₁ + 17 by omega) (by rwa [Turn.inner, hinside]) (by
      rw [Turn.spots, Turn.inner, hinside]
      exact hbody)
  rw [hcode, Turn.spots, Turn.inner, hinside] at hturn
  have hloop : Traversed strip _ (loop.map Prod.snd) o₁ c₁ _ _ _ :=
    traversed_forIn (by rw [ho₁, Nat.add_assoc]; exact hiterable.head_le_add _) hturn
  refine Traversed.statement ((hiterable.append hloop ?_).then (inert_pop span)) ?_ (by rw [Stmt.spots]; rfl)
  · rw [size_append, ← Nat.add_assoc]
    rfl
  · simp only [Stmt.size]
    omega

theorem statementTraversed_for {init : Expr} {test update : Option Expr}
    (hi : ExpressionTraversed strip init) (ht : ∀ e ∈ test, ExpressionTraversed strip e)
    (hu : ∀ e ∈ update, ExpressionTraversed strip e) (hk : StatementTraversed strip body) :
    StatementTraversed strip (.for id init test update body span) := by
  intro loop o c h hh
  obtain ⟨hclean₂, hclean₃, hclean₄, hclean₅, hclean₈, hclean₉⟩ := clean_parts_of_for h
  set c₁ := (modifyScope Scope.enter c).2
  set c₂ := (expression strip init c₁).2
  set outer := (addLocal id.name c₂).1
  set c₃ := (addLocal id.name c₂).2
  set c₄ := (optionalExpression strip update c₃).2
  set c₅ := (optionalExpression strip test c₄).2
  set c₆ := (modifyScope Scope.enter c₅).2
  set inner := (addLocal id.name c₆).1
  set c₇ := (addLocal id.name c₆).2
  set round : Loop := ⟨c₁.frame.scope.depth, some (outer, inner)⟩
  set c₈ := (statement strip (some round) body c₇).2
  have hclean₁ : c₁.Clean := (evolves_expression strip init).clean _ hclean₂
  -- the loop stands behind the definition of its variable
  set o₁ := o + (expression strip init c₁).1.size + 1 with ho₁
  have hle (n : Nat) : ∀ x ∈ some (o₁ + 5), x ≤ o₁ + 5 + n := by
    rintro _ ⟨⟩
    exact Nat.le_add_right ..
  set u := forUpdate (optionalExpression strip update c₃).1 span
  have hinit := ((hi.inLoop hclean₂ hh).from (evolves_enter.before hclean₁)).appendCode
    (inert_emit (i := ⟨.defLocal, ()⟩) rfl span) ((evolves_addLocal id.name).before hclean₃)
  have hupdate : Traversed strip _ (some (o₁ + 5)) (o₁ + 11) c₃ u c₄ _ :=
    traversed_forUpdate hu hclean₄ (hle 6)
  set t := (optionalExpression strip test c₄).1
  set o₂ := o₁ + 11 + u.size + testSize t
  have hle₂ : ∀ x ∈ some (o₁ + 5), x ≤ o₂ := by
    rintro _ ⟨⟩
    omega
  have hbody := hk.round (o := o₂ + 6) (h := o₁ + 5) hclean₈ (by omega)
  set turn := forTurn outer inner (statement strip (some round) body c₇).1 (leaveScope span c₈).1 span
  set x : Turn := ⟨id, round, body, span⟩
  have hturn : Traversed strip (body.size + 1) (some (o₁ + 5)) o₂ c₅ turn (leaveScope span c₈).2
      (⟨o₂, c₅, .round x (o₁ + 5)⟩ :: body.spots strip (some (round, o₁ + 5)) (o₂ + 6) c₇) := by
    have := traversed_turn (t := x) (c := c₅) (hle₂ _ rfl) hclean₉ hbody
    rwa [Turn.code_of_carry_some strip rfl] at this
  have htest : Traversed strip _ (some (o₁ + 5)) (o₁ + 11 + u.size) c₄ (forTest t turn span)
      (leaveScope span c₈).2 (Expr.optionSpots strip (o₁ + 11 + u.size) c₄ test ++
        ⟨o₂, c₅, .round x (o₁ + 5)⟩ :: body.spots strip (some (round, o₁ + 5)) (o₂ + 6) c₇) :=
    traversed_forTest ht hclean₅ hturn (by
      rintro _ ⟨⟩
      omega)
  have hloop : Traversed strip _ (loop.map Prod.snd) o₁ c₃ (loopCode u (forTest t turn span ++
      [.jump .back (Piece.jumpSize + (pop span).size + u.size + (forTest t turn span).size +
        Piece.jumpSize) span]) span) (leaveScope span c₈).2 _ :=
    traversed_loopCode (by rw [ho₁, Nat.add_assoc]; exact hinit.head_le_add _) hupdate
      (htest.then (inert_jump .back _ span))
  have hall := (hinit.append hloop (by rw [size_append, ← Nat.add_assoc]; rfl)).appendCode
    (inert_leaveScope span (leaveScope span c₈).2) ((evolves_leaveScope span).before h)
  refine Traversed.statement hall ?_ (by rw [Stmt.spots, List.append_assoc, List.append_assoc])
  simp only [Stmt.size]
  omega

theorem statementTraversed_return {value : Option Expr} (hv : ∀ e ∈ value, ExpressionTraversed strip e) :
    StatementTraversed strip (.return value span) := by
  intro loop o c h hh
  refine Traversed.statement (n := Expr.sizeOption value) ?_ (Nat.le_succ _) (by rw [Stmt.spots])
  have hcode := (return_of_clean h).2
  rw [hcode] at h ⊢
  cases value with
  | none => exact traversed_code (.refl c) hh (inert_emit rfl span)
  | some e => exact ((hv e rfl).inLoop h hh).then (inert_emit rfl span)

theorem statementTraversed_exit (how : LoopExit) : StatementTraversed strip (.exit how span) := by
  intro loop o c h hh
  refine Traversed.statement (n := 0) ?_ (Nat.zero_le _) (by rw [Stmt.spots])
  cases loop with
  | none => exact absurd h (not_clean_report _ _ c)
  | some p =>
    obtain ⟨⟨depth, carry⟩, head⟩ := p
    have hexit : Inert [.exit span] := .cons rfl inert_nil
    have hrelease : (releaseAfter 0 span (c.frame.scope.above depth)).Inert := inert_releaseAfter 0 span _
    refine traversed_code (.refl c) hh ?_
    cases how with
    | «break» =>
      rcases carry with _ | ⟨outer, inner⟩ <;>
        exact (hrelease.append (inert_emit (i := ⟨.pushFalse, ()⟩) rfl span)).append hexit
    | «continue» =>
      have hagain : (emit ⟨.pushTrue, ()⟩ span).Inert := inert_emit rfl span
      rcases carry with _ | ⟨outer, inner⟩
      · exact (hrelease.append hagain).append hexit
      · exact (((((inert_emit (i := ⟨.getLocal, inner⟩) rfl span).append hrelease).append
          (inert_emit (i := ⟨.setLocal, outer⟩) rfl span)).append (inert_pop span)).append hagain).append
          hexit

end

mutual

theorem traversed_expression : (e : Expr) → ExpressionTraversed strip e
  | .literal l span => fun o c h => by
    have hcode : Traversed strip 1 none o c (literal l span c).1 (literal l span c).2 [] :=
      traversed_code ((evolves_literal l span).before h) (by rintro _ ⟨⟩) (inert_literal l span c)
    exact hcode.expression rfl (Nat.le_refl 1)
  | .name id span => fun o c h => by
    obtain ⟨b, -, he⟩ := expression_name h
    simp only [Expr.spots]
    refine Traversed.expression (n := 1) ?_ rfl (Nat.le_refl 1)
    rw [he] at h ⊢
    exact traversed_code ((evolves_resolve id).before h) (by rintro _ ⟨⟩) (inert_get b span)
  | .binary op left right span => fun o c h => by
    have hleft := traversed_expression left o c ((evolves_expression strip right).clean _ h)
    have hright := traversed_expression right (o + (expression strip left c).1.size) _ h
    have hop : (emit (binaryInstruction op) span).Inert := by
      refine inert_emit ?_ span
      cases op with
      | arithmetic op => cases op <;> rfl
      | _ => rfl
    simp only [Expr.spots]
    exact ((hleft.append hright rfl).then hop).expression rfl (Nat.le_succ _)
  | .logical op left right span => fun o c h => by
    have hleft := traversed_expression left o c ((evolves_expression strip right).clean _ h)
    have hright := traversed_expression right (o + (expression strip left c).1.size + 6) _ h
    have hskip := (hright.prepend (inert_pop span) (o := o + (expression strip left c).1.size + 5)
      (by rintro _ ⟨⟩) rfl).prepend (inert_jump (shortcut op)
        (pop span ++ (expression strip right (expression strip left c).2).1).size span) (by rintro _ ⟨⟩) rfl
    simp only [Expr.spots]
    exact ((hleft.append hskip rfl).then (inert_emit rfl span)).expression rfl (Nat.le_succ _)
  | .unary op operand span => fun o c h => by
    have hop : (emit (unaryInstruction op) span).Inert := by
      refine inert_emit ?_ span
      cases op <;> rfl
    simp only [Expr.spots]
    exact ((traversed_expression operand o c h).then hop).expression rfl (Nat.le_succ _)
  | .assign target value span => fun o c h => by
    have hvalue : ExpressionTraversed strip value := traversed_expression value
    cases target with
    | name id place =>
      obtain ⟨b, -, he⟩ := expression_assign_name h
      simp only [Expr.spots]
      refine Traversed.expression (n := value.size + 1) ?_ rfl (by simp only [Expr.size]; omega)
      rw [he] at h ⊢
      exact (hvalue o c ((evolves_resolve id).clean _ h)).appendCode (inert_set b span)
        ((evolves_resolve id).before h)
    | member object property place =>
      have hclean := (evolves_constant _).clean _ h
      have hobject := traversed_expression object o c ((evolves_expression strip value).clean _ hclean)
      simp only [Expr.spots]
      exact ((hobject.append (hvalue _ _ hclean) rfl).appendCode (inert_emit rfl span)
        ((evolves_constant _).before h)).expression rfl (by simp only [Expr.size]; omega)
    | _ => exact absurd ((evolves_expression strip value).clean _ h) (not_clean_report _ _ c)
  | .call callee arguments span => fun o c h => by
    have hfun : ExpressionTraversed strip callee := traversed_expression callee
    cases callee with
    | member object property place =>
      have hclean := (evolves_constant _).clean _ h
      have hobject := traversed_expression object o c
        ((evolves_expressions strip arguments).clean _ hclean)
      simp only [Expr.spots]
      exact ((hobject.append (traversed_expressions arguments _ _ hclean) rfl).appendCode (inert_emit rfl span)
        ((evolves_constant _).before h)).expression rfl (by simp only [Expr.size]; omega)
    | _ =>
      have hparts := (hfun o c ((evolves_expressions strip arguments).clean _ h)).append
        (traversed_expressions arguments _ _ h) rfl
      simp only [Expr.spots_call, ne_eq, reduceCtorEq, not_false_eq_true, implies_true]
      exact (hparts.then (inert_emit (i := ⟨.call, _⟩) rfl span)).expression rfl (Nat.le_succ _)
  | .member object property span => fun o c h => by
    simp only [Expr.spots]
    exact ((traversed_expression object o c ((evolves_constant _).clean _ h)).appendCode
      (inert_emit rfl span) ((evolves_constant _).before h)).expression rfl (Nat.le_refl _)
  | .range first last inclusive span => fun o c h => by
    have hfirst := traversed_expression first o c ((evolves_expression strip last).clean _ h)
    have hlast := traversed_expression last (o + (expression strip first c).1.size) _ h
    simp only [Expr.spots]
    refine ((hfirst.append hlast rfl).then (inert_emit ?_ span)).expression rfl (Nat.le_succ _)
    cases inclusive <;> rfl
  | .arrow params body span => fun o c h => by
    have hmake : Traversed strip _ none o c (expression strip (.arrow params body span) c).1
        (expression strip (.arrow params body span) c).2
        [⟨o, c, .closure ⟨lambdaName, "", params, .value body, span⟩ false false⟩] :=
      traversed_closure (r := ⟨lambdaName, "", params, .value body, span⟩)
        h (by rintro _ ⟨⟩) false false
    simp only [Expr.spots]
    exact hmake.expression rfl (Nat.le_refl _)
  | .lambda params body span => fun o c h => by
    have hmake : Traversed strip _ none o c (expression strip (.lambda params body span) c).1
        (expression strip (.lambda params body span) c).2
        [⟨o, c, .closure ⟨lambdaName, "", params, .block body, span⟩ false false⟩] :=
      traversed_closure (r := ⟨lambdaName, "", params, .block body, span⟩)
        h (by rintro _ ⟨⟩) false false
    simp only [Expr.spots]
    exact hmake.expression rfl (Nat.le_refl _)

theorem traversed_expressions : (es : List Expr) → ∀ o c,
    (expressions strip es c).2.Clean → Traversed strip (Expr.sizes es) none o c (expressions strip es c).1
      (expressions strip es c).2 (Expr.allSpots strip o c es)
  | [], _, c, _ => traversed_code (.refl c) (by rintro _ ⟨⟩) inert_nil
  | e :: es, o, c, h => by
    simp only [Expr.allSpots]
    exact (traversed_expression e o c ((evolves_expressions strip es).clean _ h)).append
      (traversed_expressions es _ _ h) rfl

theorem traversed_statement : (s : Stmt) → StatementTraversed strip s
  | .variable _ init _ => statementTraversed_variable (traversed_expression init)
  | .function .. => statementTraversed_function
  | .record .. => statementTraversed_record
  | .expression e _ => statementTraversed_expression (traversed_expression e)
  | .block body _ => statementTraversed_block (traversed_statements body)
  | .cond test consequent alternate _ =>
    statementTraversed_cond (traversed_expression test) (traversed_statement consequent)
      (traversed_branch alternate)
  | .while test body _ =>
    statementTraversed_while (traversed_expression test) (traversed_statement body)
  | .loop body _ => statementTraversed_loop (traversed_statement body)
  | .forIn _ iterable body _ =>
    statementTraversed_forIn (traversed_expression iterable) (traversed_statement body)
  | .for _ init test update body _ =>
    statementTraversed_for (traversed_expression init) (traversed_option test)
      (traversed_option update) (traversed_statement body)
  | .return value _ => statementTraversed_return (traversed_option value)
  | .exit how _ => statementTraversed_exit how

theorem traversed_statements : (ss : List Stmt) → ∀ (loop : Option (Loop × Nat)) o c,
    (statements strip (loop.map Prod.fst) ss c).2.Clean → (∀ x ∈ loop.map Prod.snd, x ≤ o) →
    Traversed strip (Stmt.sizes ss) (loop.map Prod.snd) o c
      (statements strip (loop.map Prod.fst) ss c).1 (statements strip (loop.map Prod.fst) ss c).2
      (Stmt.allSpots strip loop o c ss)
  | [], _, _, c, _, hh => traversed_code (.refl c) hh inert_nil
  | s :: ss, loop, o, c, h, hh => by
    have hfirst := traversed_statement s loop o c ((evolves_statements strip _ ss).clean _ h) hh
    simp only [Stmt.allSpots]
    exact hfirst.append (traversed_statements ss loop _ _ h (hfirst.head_le_add _)) rfl

theorem traversed_branch : (s : Option Stmt) → ∀ x ∈ s, StatementTraversed strip x
  | none => nofun
  | some s => by
    rintro _ ⟨⟩
    exact traversed_statement s

theorem traversed_option : (e : Option Expr) → ∀ x ∈ e, ExpressionTraversed strip x
  | none => nofun
  | some e => by
    rintro _ ⟨⟩
    exact traversed_expression e

end

theorem traversed_body (strip : Bool) (b : Body) (span : Span) {o : Nat}
    (h : (b.lower strip span c).2.Clean) :
    Traversed strip b.size none o c (b.lower strip span c).1 (b.lower strip span c).2 (b.spots strip o c) := by
  cases b with
  | value e => exact (traversed_expression e o c h).then (inert_emit rfl span)
  | block ss => exact traversed_statements ss none o c h nofun

end Lowering

end StackScript
