import StackScript.Proofs.Lowering.Census
import StackScript.Proofs.Lowering.Resolution
import StackScript.Proofs.Lowering.Traversal

/-!
# Functions inside of functions

A `Part` is what is compiled as one, a program or the body of a function, and a path names the
functions around it: for each of them, from the inside to the outside, the place in the next part
where its closures are made. What compilation knows at a name of the functions around it holds of
the functions on the path.
-/

namespace StackScript

open Lowering Fragment

/-- What is compiled as one: a program, or the body of a function. -/
structure Part where
  body : Body
  /-- Where the source stands. -/
  span : Span
  /-- The point where its compilation begins. -/
  start : Context

namespace Part

variable (strip : Bool) (p : Part)

/-- The code of the part, and the point where its compilation ends. -/
def lower : Fragment × Context := p.body.lower strip p.span p.start

def spots : List Spot := p.body.spots strip 0 p.start

/-- The variables that the part has captured in the end. -/
def captures : List Capture := (p.lower strip).2.frame.captures

/-- The part is compiled without a message, from a point with room for it. -/
structure Good : Prop where
  clean : (p.lower strip).2.Clean
  room : p.start.Room (2 ^ 32) (p.body.size + 1)
  linked : Linked p.start.frame p.start.enclosing
  distinct : Distinct p.start.frame p.start.enclosing

/-- The compilation of the part goes from one point to another one, with room for `k` entries. -/
def Spans (k : Nat) (c c' : Context) : Prop :=
  ∃ a b, a + k + b ≤ p.body.size ∧ p.start.Before a c ∧ c'.Before b (p.lower strip).2

end Part

/-- A place where closures of a function are made. -/
structure Making where
  offset : Nat
  /-- The point of the compilation. -/
  context : Context
  routine : Routine
  /-- Whether the newest local in sight is yet to be defined, and captured before. -/
  before : Bool
  /-- Whether the newest local in sight is yet to be defined. -/
  after : Bool

namespace Making

def spot (s : Making) : Spot := ⟨s.offset, s.context, .closure s.routine s.before s.after⟩

/-- The body of the function. -/
def part (s : Making) : Part := ⟨s.routine.body, s.routine.span, s.routine.start s.context⟩

end Making

/-! ## Parts -/

section

variable {strip : Bool} {p : Part} {k : Nat} {c c' : Context} {s : Making}

theorem Part.Good.traversed (h : p.Good strip) :
    Traversed strip p.body.size none 0 p.start (p.lower strip).1 (p.lower strip).2 (p.spots strip) :=
  traversed_body strip p.body p.span h.clean

theorem Part.Good.length_captures (h : p.Good strip) : (p.captures strip).length < 2 ^ 32 := by
  have hstep := (evolves_body strip p.body p.span).step _ h.clean
  exact Nat.lt_of_succ_lt (hstep.room _ 1 h.room).frame.captures

theorem Part.Good.spans (h : p.Good strip) {spot : Spot} (hs : spot ∈ p.spots strip) :
    p.Spans strip spot.phrase.size spot.context (spot.phrase.lower strip spot.context).2 :=
  h.traversed.within spot hs

namespace Part.Spans

variable (hs : p.Spans strip k c c') (h : p.Good strip)

include hs h

theorem clean : c'.Clean := by
  obtain ⟨a, b, -, -, hb⟩ := hs
  exact hb.clean h.clean

theorem room : c.Room (2 ^ 32) (k + 1) := by
  obtain ⟨a, b, hle, ha, -⟩ := hs
  exact ha.step.room _ _ (h.room.mono (by omega))

theorem linked : Linked c.frame c.enclosing := by
  obtain ⟨a, b, -, ha, -⟩ := hs
  exact ha.step.linked h.linked

theorem distinct : Distinct c.frame c.enclosing := by
  obtain ⟨a, b, -, ha, -⟩ := hs
  exact ha.step.distinct h.distinct

omit h in
theorem passes : List.Forall₂ Frame.Passes p.start.enclosing c.enclosing := by
  obtain ⟨a, b, -, ha, -⟩ := hs
  exact ha.step.enclosing

omit h in
theorem captures : c'.frame.captures <+: p.captures strip := by
  obtain ⟨a, b, -, -, hb⟩ := hs
  exact hb.step.captures

omit h in
theorem enclosing : List.Forall₂ Frame.Passes c'.enclosing (p.lower strip).2.enclosing := by
  obtain ⟨a, b, -, -, hb⟩ := hs
  exact hb.step.enclosing

omit h in
theorem constants : c'.frame.constants <+: (p.lower strip).2.frame.constants := by
  obtain ⟨a, b, -, -, hb⟩ := hs
  exact hb.step.constants

end Part.Spans

/-! ## Functions -/

/-- How the body of a function begins. -/
theorem Making.step_start (hc : s.part.start.Clean) :
    (s.context.inside s.routine.self).Step s.routine.params.length s.part.start :=
  (evolves_declareParams s.routine.params).step _ hc

theorem Making.lower_eq (h : (s.routine.lower strip s.context).2.Clean) :
    (returning (s.part.lower strip).1 s.routine.span).farJump? 0 = none ∧ (s.part.lower strip).2.Clean ∧
      ∃ index c', s.routine.lower strip s.context =
          (emit ⟨.pushClosure, (index, s.part.captures strip)⟩ s.routine.span, c') ∧
        constant ⟨.function (s.routine.compiled strip s.context)⟩ (s.part.lower strip).2.outside =
          (index, c') := by
  obtain ⟨hfar, hclean, heq⟩ := function_of_clean h
  exact ⟨hfar, hclean, _, _, heq, rfl⟩

theorem Part.Good.making (h : p.Good strip) (hs : s.spot ∈ p.spots strip) : s.part.Good strip := by
  have hspans := h.spans hs
  obtain ⟨-, hclean, -⟩ := Making.lower_eq (hspans.clean h)
  have hstart : s.part.start.Clean := (evolves_body strip s.routine.body s.routine.span).clean _ hclean
  have hstep := Making.step_start hstart
  refine ⟨hclean, ?_, ?_, ?_⟩
  · have hroom : s.context.Room (2 ^ 32) (s.routine.params.length + (s.routine.body.size + 1) + 1) :=
      (hspans.room h).mono (by
        show _ ≤ s.routine.params.length + s.routine.body.size + 2 + 1
        omega)
    exact hstep.room _ _ (hroom.inside s.routine.self)
  · exact hstep.linked ⟨nofun, hspans.linked h⟩
  · exact hstep.distinct (List.forall_mem_cons.2 ⟨List.nodup_nil, hspans.distinct h⟩)

theorem Part.Good.enclosing_making (h : p.Good strip) (hs : s.spot ∈ p.spots strip) :
    List.Forall₂ Frame.Passes (s.context.frame :: s.context.enclosing) s.part.start.enclosing := by
  have hgood := h.making hs
  exact (Making.step_start ((evolves_body strip s.routine.body s.routine.span).clean _
    hgood.clean)).enclosing

theorem Part.Good.captures_making (h : p.Good strip) (hs : s.spot ∈ p.spots strip) :
    List.Forall₂ (· <+: ·) ((s.part.lower strip).2.enclosing.map Frame.captures)
      (p.captures strip :: (p.lower strip).2.enclosing.map Frame.captures) := by
  have hspans := h.spans hs
  obtain ⟨-, hclean, index, c', heq, hconstant⟩ := Making.lower_eq (hspans.clean h)
  have hpasses : List.Forall₂ Frame.Passes (s.context.frame :: s.context.enclosing)
      (s.part.lower strip).2.enclosing :=
    Context.forall₂_passes_trans (h.enclosing_making hs)
      ((evolves_body strip s.routine.body s.routine.span).step _ hclean).enclosing
  have hc' : (s.spot.phrase.lower strip s.spot.context).2 = c' := congrArg Prod.snd heq
  rw [hc'] at hspans
  cases he : (s.part.lower strip).2.enclosing with
  | nil =>
    rw [he] at hpasses
    cases hpasses
  | cons g gs =>
    -- the constant is the only thing that is new in the function around
    have hcontext : c'.frame.captures = g.captures ∧ c'.enclosing = gs := by
      have hout : (s.part.lower strip).2.outside = { (s.part.lower strip).2 with
          frame := g, enclosing := gs } := by
        simp [Context.outside, he]
      rw [hout] at hconstant
      cases hconstant
      exact ⟨rfl, rfl⟩
    have hcaptures := hspans.captures
    have henclosing := hspans.enclosing
    rw [hcontext.1] at hcaptures
    rw [hcontext.2] at henclosing
    refine .cons hcaptures ?_
    rw [List.forall₂_map_left_iff, List.forall₂_map_right_iff]
    exact henclosing.imp fun _ _ hp => hp.captures

theorem Part.Good.instruction (h : p.Good strip) (hs : s.spot ∈ p.spots strip) :
    ∃ index : UInt32, (s.routine.lower strip s.context).1 =
        emit ⟨.pushClosure, (index, s.part.captures strip)⟩ s.routine.span ∧
      (p.lower strip).2.frame.constants[index.toNat]? =
        some ⟨.function (s.routine.compiled strip s.context)⟩ := by
  have hspans := h.spans hs
  obtain ⟨-, hclean, index, c', heq, hconstant⟩ := Making.lower_eq (hspans.clean h)
  refine ⟨index, congrArg Prod.fst heq, ?_⟩
  have hstep : (s.context.inside s.routine.self).Step (s.routine.params.length + s.routine.body.size)
      (s.part.lower strip).2 :=
    (evolves_withParams s.routine.params (evolves_body strip s.routine.body s.routine.span)).step _ hclean
  have hroom : (s.part.lower strip).2.outside.Room (2 ^ 32) 1 :=
    hstep.outside.1.room _ 1 ((hspans.room h).mono (by
      show _ ≤ s.routine.params.length + s.routine.body.size + 2 + 1
      omega))
  have hindex := constant_index (k := ⟨.function (s.routine.compiled strip s.context)⟩) hroom
  rw [hconstant] at hindex
  have hc' : (s.spot.phrase.lower strip s.spot.context).2 = c' := congrArg Prod.snd heq
  rw [hc'] at hspans
  obtain ⟨rest, hrest⟩ := hspans.constants
  rw [← hrest, List.getElem?_append_left (List.getElem?_eq_some_iff.1 hindex).1]
  exact hindex

/-- Closures are made where makings are. -/
theorem Part.Good.exists_making (h : p.Good strip) {o : Nat} {args : UInt32 × List Capture}
    (ho : (o, args) ∈ (p.lower strip).1.closures 0) :
    ∃ s : Making, s.spot ∈ p.spots strip ∧ s.offset = o ∧ args.2 = s.part.captures strip := by
  rw [h.traversed.closures] at ho
  obtain ⟨⟨offset, context, phrase⟩, hmem, ho⟩ := List.mem_flatMap.1 ho
  cases phrase with
  | closure r before after =>
    obtain ⟨index, hcode, -⟩ := h.instruction (s := ⟨offset, context, r, before, after⟩) hmem
    have ho : (o, args) ∈ (r.lower strip context).1.closures offset := ho
    rw [hcode] at ho
    obtain ⟨rfl, rfl⟩ : o = offset ∧ args = (index, _) := by simpa [emit, closures, Piece.closure?] using ho
    exact ⟨⟨o, context, r, before, after⟩, hmem, rfl, rfl⟩
  | _ => cases ho

end

/-! ## Names -/

/-- The names that are used at a spot itself, each with the point of the compilation where it is
resolved. -/
def Spot.uses (strip : Bool) (spot : Spot) : List (Ident × Context) :=
  match spot.phrase with
  | .expression (.name id _) | .statement _ (.expression (.name id _) _) => [(id, spot.context)]
  | .expression (.assign (.name id _) value _) => [(id, (expression strip value spot.context).2)]
  | _ => []

theorem Part.Good.spans_use {strip : Bool} {p : Part} {spot : Spot} {id : Ident} {c : Context}
    (h : p.Good strip) (hs : spot ∈ p.spots strip) (hu : (id, c) ∈ spot.uses strip) :
    p.Spans strip 1 c (resolve id c).2 := by
  have hspans := h.spans hs
  have hclean := hspans.clean h
  obtain ⟨o, context, phrase⟩ := spot
  unfold Spot.uses at hu
  split at hu
  · rename_i id' place he
    obtain rfl : phrase = .expression (.name id' place) := he
    obtain ⟨rfl, rfl⟩ : id = id' ∧ c = context := by simpa using hu
    have hlower : (expression strip (.name id place) c).2 = (resolve id c).2 := snd_expression_name
    rw [← hlower]
    exact hspans
  · rename_i loop id' place span he
    obtain rfl : phrase = .statement loop (.expression (.name id' place) span) := he
    obtain ⟨rfl, rfl⟩ : id = id' ∧ c = context := by simpa using hu
    have hclean : (statement strip (loop.map Prod.fst) (.expression (.name id place) span) c).2.Clean :=
      hclean
    obtain ⟨b, -, heq⟩ := statement_name hclean
    have hlower : (Phrase.lower strip (.statement loop (.expression (.name id place) span)) c).2 =
        (resolve id c).2 := congrArg Prod.snd heq
    rw [hlower] at hspans
    obtain ⟨a, b, hle, hspans⟩ := hspans
    exact ⟨a, b, by simp only [Phrase.size, Stmt.size, Expr.size] at hle; omega, hspans⟩
  · rename_i id' place value span he
    obtain rfl : phrase = .expression (.assign (.name id' place) value span) := he
    obtain ⟨rfl, rfl⟩ : id = id' ∧ c = (expression strip value context).2 := by simpa using hu
    have hclean : (expression strip (.assign (.name id place) value span) context).2.Clean := hclean
    obtain ⟨b, -, heq⟩ := expression_assign_name hclean
    have hlower : (Phrase.lower strip (.expression (.assign (.name id place) value span)) context).2 =
        (resolve id (expression strip value context).2).2 := congrArg Prod.snd heq
    rw [hlower] at hspans
    rw [heq] at hclean
    -- the value is compiled before
    obtain ⟨a, b, hle, ha, hb⟩ := hspans
    have hvalue := (evolves_expression strip value).before ((evolves_resolve id).clean _ hclean)
    exact ⟨a + value.size, b, by simp only [Phrase.size, Expr.size] at hle; omega, ha.trans hvalue, hb⟩
  · cases hu

/-- A name means a local of a function around: the newest one of this name in the nearest function that
has one. -/
structure Nearest (path : List Making) (c : Context) (name : String) (k slot : Nat) : Prop where
  own : c.frame.scope.Lacks name
  nearer : ∀ j s, j < k → path[j]? = some s → s.context.frame.scope.Lacks name
  nearest : ∃ s, path[k]? = some s ∧ s.context.frame.scope.Newest name slot

/-! ## Paths -/

section

variable (program : Program) (options : Options)

/-- A program as a part. -/
def Program.part : Part := ⟨.block program.body, {}, { globals := hoist options program }⟩

/-- The innermost part, given the functions around from the inside to the outside. -/
def Program.innermost : List Making → Part
  | [] => program.part options
  | s :: _ => s.part

/-- The functions stand one in another, and the last one in the program. -/
inductive Program.Path : List Making → Prop
  | nil : Path []
  | cons {s : Making} {path : List Making} : Path path →
      s.spot ∈ (program.innermost options path).spots options.strip → Path (s :: path)

/-- What the parts around have captured in the end, from the inside to the outside. -/
def Program.chain : List Making → List (List Capture)
  | [] => []
  | _ :: path => (program.innermost options path).captures options.strip :: chain path

end

section

variable {program : Program} {options : Options} {path : List Making} {chunk : Chunk Constant}

/-- The program itself is compiled without a message. -/
theorem Program.good_part (h : program.compile options = .ok chunk) (hsize : program.size + 1 < 2 ^ 32) :
    (program.part options).Good options.strip := by
  obtain ⟨slot, hclean, -⟩ := compile_eq_ok h
  have hroom : 0 + (program.size + 1) < 2 ^ 32 := by rwa [Nat.zero_add]
  refine ⟨hclean, ⟨⟨hroom, hroom, hroom⟩, nofun⟩, rfl, fun g hg => ?_⟩
  obtain rfl := List.mem_singleton.1 hg
  exact List.nodup_nil

namespace Program.Path

theorem mem_spots (hp : program.Path options path) {k : Nat} {s : Making} (hk : path[k]? = some s) :
    s.spot ∈ (program.innermost options (path.drop (k + 1))).spots options.strip := by
  induction hp generalizing k with
  | nil => cases hk
  | cons hp hs ih =>
    cases k with
    | zero =>
      cases hk
      exact hs
    | succ k => exact ih hk

theorem good (hp : program.Path options path) (h : (program.part options).Good options.strip) :
    (program.innermost options path).Good options.strip := by
  induction hp with
  | nil => exact h
  | cons _ hs ih => exact ih.making hs

theorem enclosing (hp : program.Path options path) (h : (program.part options).Good options.strip) :
    List.Forall₂ Frame.Passes (path.map fun s => s.context.frame)
      (program.innermost options path).start.enclosing := by
  induction hp with
  | nil => exact .nil
  | cons hp hs ih =>
    refine Context.forall₂_passes_trans (.cons (.refl _) ?_) ((hp.good h).enclosing_making hs)
    exact Context.forall₂_passes_trans ih ((hp.good h).spans hs).passes

theorem captures (hp : program.Path options path) (h : (program.part options).Good options.strip) :
    List.Forall₂ (· <+: ·)
      (((program.innermost options path).lower options.strip).2.enclosing.map Frame.captures)
      (program.chain options path) := by
  induction hp with
  | nil =>
    have hstep : (program.part options).start.Step _ ((program.part options).lower options.strip).2 :=
      (evolves_body options.strip (.block program.body) {}).step _ h.clean
    show List.Forall₂ _ (((program.part options).lower options.strip).2.enclosing.map Frame.captures) []
    rw [List.forall₂_nil_left_iff.1 hstep.enclosing]
    exact .nil
  | @cons s path hp hs ih =>
    exact Context.forall₂_trans (fun _ _ _ => .trans) ((hp.good h).captures_making hs)
      (.cons (List.prefix_refl _) ih)

theorem exists_origin (hp : program.Path options path) (h : (program.part options).Good options.strip)
    {spot : Spot} {id : Ident} {c : Context} {i : UInt32}
    (hs : spot ∈ (program.innermost options path).spots options.strip)
    (hu : (id, c) ∈ spot.uses options.strip) (hi : (resolve id c).1 = some (.captured i)) :
    ∃ x k slot, ((program.innermost options path).captures options.strip)[i.toNat]? = some x ∧
      x.origin? (program.chain options path) = some (k, slot) ∧ Nearest path c id.name k slot := by
  have hgood := hp.good h
  have hspans := hgood.spans_use hs hu
  have hfinds := finds_of_resolve ((hspans.room hgood).mono (Nat.le_succ 1)) hi
  cases hfinds with
  | @captured i x k slot hown hx hreach =>
    have hscopes := Context.forall₂_passes_trans (hp.enclosing h) hspans.passes
    -- what is found in a frame holds of the function on the path
    have hframe (j : Nat) (s : Making) (hj : path[j]? = some s) :
        ∃ g, c.enclosing[j]? = some g ∧ s.context.frame.scope.Alike g.scope := by
      have hlt : j < (path.map fun s => s.context.frame).length := by
        rw [List.length_map]
        exact (List.getElem?_eq_some_iff.1 hj).1
      refine ⟨_, List.getElem?_eq_getElem (hscopes.length_eq ▸ hlt), ?_⟩
      have hpass := (hscopes.get hlt (hscopes.length_eq ▸ hlt)).scope
      simpa [(List.getElem?_eq_some_iff.1 hj).2] using hpass
    refine ⟨x, k, slot, ?_, ?_, hown, fun j s hjk hj => ?_, ?_⟩
    · obtain ⟨rest, hrest⟩ := hspans.captures
      rw [← hrest, List.getElem?_append_left (List.getElem?_eq_some_iff.1 hx).1]
      exact hx
    · refine Capture.origin?_prefix ?_ hreach.origin
      refine Context.forall₂_trans (fun _ _ _ => .trans) ?_ (hp.captures h)
      rw [List.forall₂_map_left_iff, List.forall₂_map_right_iff]
      exact hspans.enclosing.imp fun _ _ hg => hg.captures
    · obtain ⟨g, hg, halike⟩ := hframe j s hj
      exact (hreach.nearer j g hjk hg).of_alike halike
    · obtain ⟨g, hg, hnewest⟩ := hreach.nearest
      have hlt : k < path.length := by
        have := (List.getElem?_eq_some_iff.1 hg).1
        rwa [← hscopes.length_eq, List.length_map] at this
      obtain ⟨g', hg', halike⟩ := hframe k path[k] (List.getElem?_eq_getElem hlt)
      obtain rfl : g = g' := Option.some.inj (hg.symm.trans hg')
      exact ⟨path[k], List.getElem?_eq_getElem hlt, hnewest.of_alike halike⟩

end Program.Path

end

end StackScript
