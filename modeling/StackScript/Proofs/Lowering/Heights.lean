import StackScript.Proofs.Code.Tallies
import StackScript.Proofs.Lowering.Emission
import StackScript.Proofs.Lowering.Spots

/-!
# The number of locals at each spot

Compilation goes through a program in one line, while a run branches and loops. In a tidy program
the code of every function nevertheless has a table in which each spot has the tally that
compilation knows. A turn of a loop with a variable begins with the definition of the variable, and
no other local takes its place before the turn is over.
-/

namespace StackScript

open Lowering Fragment

/-- The tally at a spot. A local in sight that a closure is for is not yet there. -/
def Spot.tally (k : Option Nat) (spot : Spot) : Tally :=
  match spot.phrase with
  | .closure _ before after => ⟨spot.locals - after.toNat, before, k⟩
  | _ => ⟨spot.locals, false, k⟩

/-- The number of locals in sight. -/
def Lowering.Context.locals (c : Context) : Nat := c.frame.scope.locals.length

namespace Turn

variable (limits : Limits) (strip : Bool) (k : Option Nat) (t : Turn) (head o : Nat) (c : Context)

/-- The tally at the beginning and at the end of a turn. -/
def tally : Tally := ⟨c.locals, false, k⟩

/-- Behind the definition of the variable, control stays in the turn as long as it has more locals than
those outside, and locals are defined above the variable. -/
def Inside : Nat → Tally → Prop :=
  Fragment.Steps (Tally.moves (limits.above (c.locals + 1))) (some head)
    (fun x y => x = head ∧ y = Turn.tally k c) (t.start o) ((t.inner strip c).1 ++ t.rest strip c)
    (Turn.tally k c)

/-- What a chart shows of a turn. Control gets there only at the beginning, and the variable is defined
next. -/
def marks : List (Mark Tally) :=
  [.gate o (t.stop strip c o), .place (t.stop strip c o) (Turn.tally k c),
    .range o (t.start o) fun x _ => x = o ∨ x = t.definer o,
    .range (t.start o) (t.stop strip c o) (t.Inside limits strip k head o c)]

end Turn

/-- What a chart shows of a spot. -/
def Spot.marks (limits : Limits) (strip : Bool) (k : Option Nat) (spot : Spot) : List (Mark Tally) :=
  .place spot.offset (spot.tally k) :: match spot.phrase with
    | .round t head => t.marks limits strip k head spot.offset spot.context
    | _ => []

/-- What is known of a spot in code that has a table. -/
def Spot.Holds (limits : Limits) (strip : Bool) (k : Option Nat) (code : Code) (T : Nat → Tally → Prop)
    (spot : Spot) : Prop :=
  ∀ mark ∈ spot.marks limits strip k, mark.Holds (Tally.moves limits) code T

theorem Spot.Holds.tally_eq {limits : Limits} {strip : Bool} {k : Option Nat} {code : Code}
    {T : Nat → Tally → Prop} {spot : Spot} (h : spot.Holds limits strip k code T) {s : Tally}
    (hs : T spot.offset s) : s = spot.tally k :=
  h _ (List.mem_cons_self ..) s hs

/-- An offset of a fragment where one of its pieces begins. -/
def Fragment.Begins (f : Fragment) (o : Nat) : Prop :=
  ∃ (f₁ : Fragment) (p : Piece) (f₂ : Fragment), f = f₁ ++ p :: f₂ ∧ o = f₁.size

/-- The code of a function, with a return at its end. -/
def Routine.code (strip : Bool) (r : Routine) (c : Context) : Fragment :=
  returning (r.body.lower strip r.span (r.start c)).1 r.span

/-- Between the turns of a loop that carries its variable over, the name means the variable outside. The
one of a turn is in the next slot. -/
structure Lowering.Carrying.Fits (p : Carrying) (id : Ident) : Prop where
  sight : ∀ c ∈ [p.update, p.test, p.turn], c.frame.scope.slot? id.name = some p.slot.toNat
  locals : p.turn.locals = p.slot.toNat + 1
  carry : ∃ inner, p.loop.carry = some (p.slot, inner) ∧ inner.toNat = p.turn.locals

/-- What is known of a statement without its code. -/
def Stmt.Fits (strip : Bool) (o : Nat) (c : Context) : Stmt → Prop
  | .for id init test update _ span => (carrying strip o c id init test update span).Fits id
  | _ => True

/-- Whenever control is at a spot of the function, there are as many locals as are in sight. Control is
only at beginnings of pieces. The same holds of the functions inside. -/
inductive Routine.Measured (limits : Limits) (strip : Bool) : Routine → Context → Prop
  | mk {r : Routine} {c : Context} {T : Nat → Tally → Prop} :
      (r.compiled strip c).chunk.code.Table (Tally.moves limits) T →
      T 0 (r.compiled strip c).firstTally →
      (∀ spot ∈ r.body.spots strip 0 (r.start c),
        spot.Holds limits strip none (r.compiled strip c).chunk.code T) →
      (∀ o s, T o s → (r.code strip c).Begins o) →
      (∀ spot ∈ r.body.spots strip 0 (r.start c), ∀ r' p q, spot.phrase = .closure r' p q →
        r'.Measured limits strip spot.context) →
      (∀ spot ∈ r.body.spots strip 0 (r.start c), ∀ loop s, spot.phrase = .statement loop s →
        s.Fits strip spot.offset spot.context) → r.Measured limits strip c

/-- Closures are made of functions that count their locals. -/
structure Spot.Sound (limits : Limits) (strip : Bool) (spot : Spot) : Prop where
  closure : ∀ r p q, spot.phrase = .closure r p q → r.Measured limits strip spot.context
  statement : ∀ loop s, spot.phrase = .statement loop s → s.Fits strip spot.offset spot.context

namespace Lowering

variable {limits : Limits} {strip : Bool}
variable {c c' d : Context} {k : Option Nat} {m : Nat}

/-- The functions among the constants count their locals. -/
def Context.Tallied (limits : Limits) (c : Context) : Prop :=
  ∀ k ∈ c.frame.constants, k.isForeign = false ∧ ∀ f, k = ⟨.function f⟩ → f.Tallied limits

/-- There is room at a point of the compilation, where `k` globals are defined if it is in no
function. -/
structure Context.Ready (limits : Limits) (k : Option Nat) (n : Nat) (c : Context) : Prop where
  room : c.Room (limits.locals + 1) n
  linked : Linked c.frame c.enclosing
  globals : c.globals.entries.length = limits.globals
  outside : c.enclosing ≠ [] → k = none
  floor : limits.floor = 0

theorem Context.Ready.mono {n : Nat} (h : c.Ready limits k n) (hm : m ≤ n) :
    c.Ready limits k m := { h with room := h.room.mono hm }

theorem Context.Ready.step {n : Nat} (h : c.Ready limits k (n + m)) (hs : c.Step n c')
    (hg : c'.globals = c.globals) :
    c'.Ready limits k m where
  room := hs.room _ _ h.room
  linked := hs.linked h.linked
  globals := by rw [hg, h.globals]
  outside hne := h.outside fun he => hne (List.forall₂_nil_left_iff.1 (he ▸ hs.enclosing))
  floor := h.floor

theorem Context.Adds.locals {added : List (String × Nat)} (h : c.Adds added c') :
    c'.locals = c.locals + added.length := by
  have := congrArg List.length h.labels
  simpa [Scope.labels, Context.locals, Nat.add_comm] using this

/-- The name that has come into sight last. -/
theorem Context.Adds.slot?_head {name : String} {depth : Nat} (h : c.Adds [(name, depth)] c') :
    c'.frame.scope.slot? name = some c.locals := by
  have hlabels : c'.frame.scope.locals.map _ = (name, depth) :: c.frame.scope.locals.map _ := h.labels
  obtain ⟨l, ls, hl, hhead, htail⟩ := List.map_eq_cons_iff.1 hlabels
  have hname : l.name = name := congrArg Prod.fst hhead
  have hlength : ls.length = c.locals := by simpa [Context.locals] using congrArg List.length htail
  rw [Scope.slot?, hl, Scope.slotIn?, if_pos hname, hlength]

/-- From one point of the compilation to a later one, all functions count their locals. -/
structure Keeps (limits : Limits) (strip : Bool) (c c' : Context) (spots : List Spot) : Prop where
  constants : c.Tallied limits → c'.Tallied limits
  inner : ∀ spot ∈ spots, spot.Sound limits strip

theorem Keeps.ofFrame (h : c'.frame.constants = c.frame.constants) :
    Keeps limits strip c c' [] := by
  refine ⟨fun hc k hk => hc k ?_, List.forall_mem_nil _⟩
  rwa [← h]

theorem Keeps.trans {c'' : Context} {spots spots' : List Spot} (h : Keeps limits strip c c' spots)
    (h' : Keeps limits strip c' c'' spots') : Keeps limits strip c c'' (spots ++ spots') := by
  refine ⟨fun hc => h'.constants (h.constants hc), fun spot hs => ?_⟩
  rcases List.mem_append.1 hs with hs | hs
  · exact h.inner spot hs
  · exact h'.inner spot hs

/-- From one point of the compilation to a later one, the code has been made, which leads from one
tally to another and at each spot has the tally that is known there. The locals that are there at the
beginning stay in their places. -/
structure Measures (limits : Limits) (strip : Bool) (head : Option Tally) (c : Context) (f : Fragment) (c' : Context)
    (s t : Tally) (spots : Nat → Nat → List Spot) : Prop where
  counted : Counted (limits.above s.locals) head f s t fun o h =>
    (spots o h).flatMap (Spot.marks limits strip s.defined)
  keeps : ∀ o h, Keeps limits strip c c' (spots o h)

section

variable {head : Option Tally} {c c₁ c₂ c₃ : Context} {f g r : Fragment} {s t u : Tally} {span : Span}
  {k : Option Nat} {sp sp' sp'' : Nat → Nat → List Spot}

/-- Code without spots. -/
theorem measures_code (hf : Counted (limits.above s.locals) head f s t)
    (hk : d.frame.constants = c.frame.constants) :
    Measures limits strip head c f d s t fun _ _ => [] :=
  ⟨hf, fun _ _ => .ofFrame hk⟩

theorem Measures.append (hf : Measures limits strip head c f c₁ s u sp)
    (hg : Measures limits strip head c₁ g c₂ u t sp') (hd : u.defined = s.defined)
    (hl : s.locals ≤ u.locals) :
    Measures limits strip head c (f ++ g) c₂ s t fun o h => sp o h ++ sp' (o + f.size) h := by
  refine ⟨?_, fun o h => (hf.keeps o h).trans (hg.keeps _ h)⟩
  have := hf.counted.append (hg.counted.relax rfl rfl hl)
  simpa only [List.flatMap_append, hd] using this

theorem Measures.spots_eq (h : Measures limits strip head c f c₁ s t sp) (he : ∀ o h, sp o h = sp' o h) :
    Measures limits strip head c f c₁ s t sp' := by
  obtain rfl : sp = sp' := funext fun o => funext fun h => he o h
  exact h

/-- Code without spots may follow. -/
theorem Measures.appendCode {d : Context} (hf : Measures limits strip head c f c₁ s u sp)
    (hg : Counted (limits.above s.locals) head g u t)
    (hk : d.frame.constants = c₁.frame.constants) : Measures limits strip head c (f ++ g) d s t sp := by
  refine ⟨?_, fun o h => ?_⟩
  · simpa only [List.append_nil] using hf.counted.append hg
  · simpa only [List.append_nil] using (hf.keeps o h).trans (.ofFrame hk)

/-- A constant that is no function may be added. -/
theorem Measures.constant (hf : Measures limits strip head c f c₁ s t sp) {k : Constant}
    (hk : k.isForeign = false ∧ ∀ g, k = ⟨.function g⟩ → g.Tallied limits) :
    Measures limits strip head c f (constant k c₁).2 s t sp := by
  refine ⟨hf.counted, fun o h => ⟨fun hc x hx => ?_, (hf.keeps o h).inner⟩⟩
  have hx' : x ∈ (Chunk.intern c₁.frame.constants k).2 := hx
  rcases mem_intern hx' with hx' | rfl
  · exact (hf.keeps o h).constants hc x hx'
  · exact hk

theorem Measures.nameConstant (hf : Measures limits strip head c f c₁ s t sp) (name : String) :
    Measures limits strip head c f (nameConstant name c₁).2 s t sp :=
  hf.constant ⟨rfl, fun _ h => by cases h⟩

/-- What has no open ends can also stand in a loop. -/
theorem Measures.inLoop (h : Measures limits strip none c f c₁ s t sp) :
    Measures limits strip head c f c₁ s t sp := ⟨h.counted.inLoop, h.keeps⟩

theorem Keeps.own {spot : Spot} {spots : List Spot} (h : Keeps limits strip c c' spots)
    (hsound : spot.Sound limits strip) : Keeps limits strip c c' (spot :: spots) :=
  ⟨h.constants, List.forall_mem_cons.2 ⟨hsound, h.inner⟩⟩

theorem Measures.own (h : Measures limits strip head c f c₁ s t sp) (phrase : Nat → Phrase)
    (hs : ∀ o h', (Spot.mk o c (phrase h')).marks limits strip s.defined = [.place o s])
    (hsound : ∀ o h', (Spot.mk o c (phrase h')).Sound limits strip) :
    Measures limits strip head c f c₁ s t fun o h => ⟨o, c, phrase h⟩ :: sp o h := by
  refine ⟨fun o h' E hE => ?_, fun o h' => (h.keeps o h').own (hsound o h')⟩
  have := (h.counted o h' E hE).start
  simpa only [List.flatMap_cons, hs, List.singleton_append] using this

theorem Measures.expression (h : Measures limits strip head c f c₁ ⟨c.locals, false, k⟩ t sp) (e : Expr) :
    Measures limits strip head c f c₁ ⟨c.locals, false, k⟩ t
      fun o h => ⟨o, c, .expression e⟩ :: sp o h :=
  h.own (fun _ => .expression e) (fun _ _ => rfl) fun _ _ => ⟨nofun, nofun⟩

theorem Measures.statement (h : Measures limits strip head c f c₁ ⟨c.locals, false, k⟩ t sp)
    (loop : Nat → Option (Loop × Nat)) (x : Stmt) (hx : ∀ o, x.Fits strip o c) :
    Measures limits strip head c f c₁ ⟨c.locals, false, k⟩ t
      fun o h => ⟨o, c, .statement (loop h) x⟩ :: sp o h := by
  refine h.own (fun h => .statement (loop h) x) (fun _ _ => rfl) fun o _ => ⟨nofun, ?_⟩
  rintro _ _ ⟨⟩
  exact hx o

theorem Measures.turn {x : Turn} (hlt : c.locals < limits.locals) (hinitial : Counted (limits.above
    c.locals) (some (Turn.tally k c)) (emit x.opening x.span) (Turn.tally k c) (Turn.tally k c))
    (hbody : Measures limits strip (some (Turn.tally k c)) (x.inside c) (x.inner strip c).1 (x.inner
    strip c).2 ⟨c.locals + 1, false, k⟩ u sp) (hrest : Counted (limits.above (c.locals + 1)) (some
    (Turn.tally k c)) (x.rest strip c) u (Turn.tally k c))
    (hk : d.frame.constants = (x.inner strip c).2.frame.constants) :
    Measures limits strip (some (Turn.tally k c)) c (x.code strip c) d (Turn.tally k c) (Turn.tally k c)
      fun o h => ⟨o, c, .round x h⟩ :: sp (x.start o) h := by
  refine ⟨fun o h E hE => ?_, fun o h => Keeps.own ?_ ⟨nofun, nofun⟩⟩
  swap
  · have hinside : Keeps limits strip c (x.inside c) [] := .ofFrame rfl
    simpa only [List.nil_append, List.append_nil] using
      (hinside.trans (hbody.keeps (x.start o) h)).trans (.ofFrame hk)
  set s := Turn.tally k c
  have hdefine : Counted (limits.above c.locals) (some s) (emit ⟨.defLocal, ()⟩ x.span) s
      ⟨c.locals + 1, false, k⟩ := counted_define (Nat.le_refl _) hlt
  have hstart : o + (emit x.opening x.span ++ emit ⟨.defLocal, ()⟩ x.span).size = x.start o := by
    rw [size_append, ← Nat.add_assoc]
    rfl
  have hfirst := ((hinitial.append hdefine) o h E hE).range (P := fun y _ => y = o ∨ y = x.definer o) (by
    rintro y _ ⟨f₁, p, f₂, hf, rfl, -⟩
    rcases f₁ with _ | ⟨p₁, _ | ⟨p₂, f₁⟩⟩
    · exact .inl rfl
    · cases hf
      exact .inr rfl
    · simp [emit] at hf)
  have hlast := ((hbody.counted.append hrest) (x.start o) h (fun y s' => y = h ∧ s' = s)
    fun s' hs' => ⟨rfl, (Option.some.inj hs').symm⟩).range fun _ _ h => h
  have hout : ∀ y s', y = h ∧ s' = s → E y s' := by
    rintro _ _ ⟨rfl, rfl⟩
    exact hE _ rfl
  have hact (i : Instruction) (u : Tally) (v : Option Tally)
      (hact : (Tally.moves (limits.above (c.locals + 1))).act i u v) :
      (Tally.moves (limits.above c.locals)).act i u v :=
    Tally.Step.relax hact rfl rfl (Nat.le_succ _)
  have hlast := (hlast.relax hact fun _ hj => hj).weaken (fun _ h => h) hout
  have hstop : x.start o + ((x.inner strip c).1 ++ x.rest strip c).size = x.stop strip c o := by
    rw [← hstart, Turn.stop, Turn.code, size_append (_ ++ _), Nat.add_assoc]
  have hall := ((hfirst.append (hlast.cast hstart.symm)).stop.gate).start
  simp only [hstart, hstop, List.append_nil, List.cons_append] at hall
  exact hall

end

/-! ## Functions -/

theorem Counted.table {f : Fragment} {s t : Tally} {marks : Nat → Nat → List (Mark Tally)}
    {span : Span} (hc : Counted limits none f s t marks) (hp : t.pending = false)
    (hd : t.defined = none) (hfar : (returning f span).farJump? 0 = none) (name : Option String)
    (constants : List Constant) :
    ∃ T, ((returning f span).toChunk name constants).code.Table (Tally.moves limits) T ∧ T 0 s ∧
      (∀ mark ∈ marks 0 0, mark.Holds (Tally.moves limits)
        ((returning f span).toChunk name constants).code T) ∧
      ∀ o y, T o y → (returning f span).Begins o := by
  obtain ⟨T, hT, hm⟩ := hc 0 0 (fun _ _ => False) (by rintro _ ⟨⟩)
  have hplaced := placed_toChunk hfar name constants
  suffices h : ((returning f span).toChunk name constants).code.Table (Tally.moves limits) T ∧
      ∀ mark ∈ marks 0 0, mark.Holds (Tally.moves limits)
        ((returning f span).toChunk name constants).code T by
    refine ⟨T, h.1, hT.start, h.2, fun o y hy => ?_⟩
    rcases hT.within o y hy with ⟨ho, -, hr⟩ | ⟨f₁, p, f₂, rfl, ho, -⟩
    · rw [returning, if_neg (by rw [hr]; rintro ⟨⟩)]
      exact ⟨f, _, [], rfl, by rw [ho, Nat.zero_add]⟩
    · rw [Nat.zero_add] at ho
      unfold returning
      split
      · exact ⟨f₁, p, f₂, rfl, ho⟩
      · exact ⟨f₁, p, f₂ ++ emit ⟨.returnVoid, ()⟩ span, by simp, ho⟩
  unfold returning at hplaced ⊢
  split at hplaced
  · rename_i hr
    rw [if_pos hr]
    exact ⟨hT.table hr hplaced Tally.countable_of_act, fun mark hmem => hT.holds (hm mark hmem) hplaced
      Tally.countable_of_act Tally.ends_of_act fun hn => absurd (hr.symm.trans hn) (by rintro ⟨⟩)⟩
  · rename_i hr
    rw [if_neg hr]
    have hend : (Tally.moves limits).act ⟨.returnVoid, ()⟩ t none := ⟨hp, hd, rfl⟩
    refine ⟨hT.table_append hend hplaced Tally.countable_of_act, fun mark hmem =>
      hT.holds (hm mark hmem) hplaced.left Tally.countable_of_act Tally.ends_of_act fun _ L => ?_⟩
    have hlast := Piece.Goes.leads (p := .instruction _ span) (T := L) ⟨none, hend, (by rintro _ ⟨⟩)⟩ hplaced.right
      Tally.countable_of_act
    rwa [Nat.zero_add] at hlast

theorem constants_declareParams {params : List Ident} (h : (declareParams params c).2.Clean) :
    (declareParams params c).2.frame.constants = c.frame.constants := by
  induction params generalizing c with
  | nil => rfl
  | cons id params ih =>
    have he := declareParams_cons_of_clean h
    rw [he] at h ⊢
    exact ih h

theorem index_lt_of_fromLocal {inner : Context} (h : Linked inner.frame inner.enclosing)
    (hp : c.frame.Passes inner.outside.frame) {x : Capture} (hx : x ∈ inner.frame.captures)
    (hl : x.fromLocal = true) : x.index.toNat < c.locals := by
  cases he : inner.enclosing with
  | nil =>
    rw [he] at h
    rw [show inner.frame.captures = [] from h] at hx
    cases hx
  | cons g gs =>
    have hg : inner.outside.frame = g := by simp [Context.outside, he]
    rw [he] at h
    rw [hg] at hp
    have hbound := h.1 x hx
    rw [if_pos hl] at hbound
    rwa [Context.locals, ← hp.scope.length]

/-- A body of a function counts its locals. -/
def BodyMeasures (limits : Limits) (strip : Bool) (n : Nat) (span : Span) (b : Body) : Prop :=
  ∀ c, (b.lower strip span c).2.Clean → c.Ready limits none n → c.frame.scope.Bounded →
    c.isTop = false → ∃ m, Measures limits strip none c (b.lower strip span c).1 (b.lower strip span c).2
      ⟨c.locals, false, none⟩ ⟨m, false, none⟩ fun o _ => b.spots strip o c

section

variable {n : Nat} {r : Routine} {c : Context}

theorem Context.Ready.behind (h : c.Ready limits k (r.params.length + n + 2))
    (hclean : (r.start c).Clean) :
    (r.start c).Ready limits none (n + 1) ∧ (r.start c).locals = r.params.length + 1 := by
  have hinside : (c.inside r.self).Ready limits none (r.params.length + (n + 1)) :=
    ⟨Context.Room.inside (by rw [← Nat.add_assoc]; exact h.room) r.self,
      ⟨nofun, h.linked⟩, h.globals, fun _ => rfl, h.floor⟩
  have hadds := adds_declareParams hclean
  refine ⟨hinside.step ((evolves_declareParams r.params).step _ hclean) hadds.globals, ?_⟩
  rw [Routine.start, Context.behind, hadds.locals, List.length_reverse, List.length_map]
  exact Nat.add_comm 1 _

theorem measured_compiled (he : Evolves n (r.body.lower strip r.span))
    (hb : BodyMeasures limits strip n r.span r.body) (h : (r.lower strip c).2.Clean)
    (hr : c.Ready limits k (r.params.length + n + 2)) :
    (r.compiled strip c).Tallied limits ∧ r.Measured limits strip c := by
  obtain ⟨hfar, hclean, -⟩ := function_of_clean h
  have hclean : (r.body.lower strip r.span (r.start c)).2.Clean := hclean
  have hparams : (r.start c).Clean := he.clean _ hclean
  obtain ⟨hbounded, htop⟩ := bounded_declareParams hparams
  obtain ⟨hready, hlen⟩ := hr.behind hparams
  obtain ⟨m, hm⟩ := hb _ hclean (hready.mono (Nat.le_succ n)) hbounded htop
  set b := r.body.lower strip r.span (r.start c)
  set f := r.compiled strip c
  have hcounted : Counted limits none b.1 _ _ _ :=
    hm.counted.relax rfl rfl (hr.floor ▸ Nat.zero_le _)
  obtain ⟨T, hT, hstart, hmarks, hbegins⟩ :=
    hcounted.table rfl rfl hfar (some r.name) b.2.frame.constants
  have harity : f.firstTally = ⟨(r.start c).locals, false, none⟩ := by
    have hroom := hready.room.frame.locals
    have hlt := limits.locals_lt
    have : r.params.length.toUInt32.toNat = r.params.length := by
      refine Word.toNat_toUInt32 ?_
      have : (r.start c).frame.scope.locals.length = r.params.length + 1 := hlen
      omega
    rw [hlen]
    show (⟨r.params.length.toUInt32.toNat + 1, false, none⟩ : Tally) = _
    rw [this]
  have hconstants : b.2.Tallied limits := by
    refine (hm.keeps 0 0).constants fun x hx => ?_
    have hnone : (r.start c).frame.constants = [] := constants_declareParams hparams
    rw [hnone] at hx
    cases hx
  have hsame : f.chunk.constants = b.2.frame.constants := constants_toChunk _ _ _
  refine ⟨.mk hT (by rw [harity]; exact hstart) ?_ ?_ ?_,
    .mk hT (by rw [harity]; exact hstart) ?_ hbegins (fun spot hs => ((hm.keeps 0 0).inner spot hs).closure)
      fun spot hs => ((hm.keeps 0 0).inner spot hs).statement⟩
  · rw [harity]
    have := hready.room.frame.locals
    show (r.start c).frame.scope.locals.length ≤ _
    omega
  · rw [hsame]
    exact fun x hx => (hconstants x hx).1
  · rw [hsame]
    exact fun g hg => (hconstants _ hg).2 g rfl
  · exact fun spot hs mark hmark => hmarks mark (List.mem_flatMap.2 ⟨spot, hs, hmark⟩)

theorem measures_function (head : Option Tally) (he : Evolves n (r.body.lower strip r.span))
    (hb : BodyMeasures limits strip n r.span r.body) {p q : Bool} (h : (r.lower strip c).2.Clean)
    (hr : c.Ready limits k (r.params.length + n + 2)) (hm : c.locals = m + q.toNat)
    (hpq : p = true → q = true) :
    Measures limits strip head c (r.lower strip c).1 (r.lower strip c).2 ⟨m, p, k⟩ ⟨m, q, k⟩
      fun o _ => [⟨o, c, .closure r p q⟩] := by
  obtain ⟨htallied, hmeasured⟩ := measured_compiled he hb h hr
  obtain ⟨-, hclean, heq⟩ := function_of_clean h
  have heq : r.lower strip c = _ := heq
  set b := withParams r.params (r.body.lower strip r.span) (c.inside r.self)
  have hstep : (c.inside r.self).Step (r.params.length + n) b.2 :=
    (evolves_withParams r.params he).step _ hclean
  have hroom := hstep.room _ 1 (Context.Room.inside hr.room r.self)
  have hlinked := hstep.linked ⟨nofun, hr.linked⟩
  obtain ⟨-, hpasses⟩ := hstep.outside
  have hlen : c.locals ≤ limits.locals := by
    have := hr.room.frame.locals
    show c.frame.scope.locals.length ≤ _
    omega
  have hmarks (o : Nat) : (Spot.mk o c (.closure r p q)).marks limits strip k = [.place o ⟨m, p, k⟩] := by
    show [Mark.place o (⟨c.locals - q.toNat, p, k⟩ : Tally)] = _
    rw [hm, Nat.add_sub_cancel]
  have hcode : Measures limits strip head c (close r.name r.params r.span (returning b.1 r.span) b.2).1
      (close r.name r.params r.span (returning b.1 r.span) b.2).2 ⟨m, p, k⟩ ⟨m, q, k⟩ fun _ _ => [] := by
    refine ⟨counted_emit ?_ ⟨nofun, nofun⟩, fun _ _ => ⟨fun hc x hx => ?_, List.forall_mem_nil _⟩⟩
    · refine ⟨?_, Nat.le_refl _, q, hpq, ?_, rfl, fun x hx hl => ?_⟩
      · have := hroom.frame.captures
        have := limits.locals_lt
        omega
      · rwa [← hm]
      · rw [← hm]
        exact index_lt_of_fromLocal hlinked hpasses hx hl
    · have hx' : x ∈ (Chunk.intern b.2.outside.frame.constants _).2 := hx
      rcases mem_intern hx' with hx' | rfl
      · rw [hpasses.constants] at hx'
        exact hc x hx'
      · refine ⟨rfl, fun g hg => ?_⟩
        cases hg
        exact htallied
  rw [heq]
  refine hcode.own (fun _ => .closure r p q) (fun o _ => hmarks o) fun _ _ => ⟨?_, nofun⟩
  rintro _ _ _ ⟨⟩
  exact hmeasured

end

end Lowering

end StackScript
