import StackScript.Proofs.Safety.Visits

/-!
# The turns of loops

Control gets into the body of a loop with a variable only through the definition of the variable,
and it leaves the body only when the variable has been dropped. So the code of the body always finds
the variable of the turn that it is in, and what closures capture in two turns are two variables.
-/

namespace StackScript

open Lowering Fragment

variable {s : Tally}

/-! ## The code of a turn -/

/-- A loop with a variable in a function of a program: how a turn of it is compiled, and where it stands. -/
structure Round where
  /-- The function. -/
  path : List Making
  offset : Nat
  /-- The point of the compilation. -/
  context : Context
  turn : Turn
  /-- Where the head of the loop stands. -/
  head : Nat

namespace Round

variable (strip : Bool) (r : Round)

def spot : Spot := ⟨r.offset, r.context, .round r.turn r.head⟩

/-- Where the variable is defined. -/
def definer : Nat := r.turn.definer r.offset

def start : Nat := r.turn.start r.offset

def stop : Nat := r.turn.stop strip r.context r.offset

/-- Where the body is at its end. -/
def bodyEnd : Nat := r.start + (r.turn.inner strip r.context).1.size

def slot : Nat := r.context.locals

/-- The loop stands in the program. -/
def In (program : Program) (options : Options) : Prop :=
  r.spot ∈ (program.innermost options r.path).spots options.strip

/-- A turn stands in code: it begins with the definition of its variable. -/
structure Opens (chunk : Chunk Value) : Prop where
  head_le : r.head ≤ r.offset
  opening : Machine.fetch chunk r.offset = .ok (r.turn.opening, r.definer)
  define : Machine.fetch chunk r.definer = .ok (⟨.defLocal, ()⟩, r.start)

/-- How control goes on from a place, with a number of locals. -/
structure Confines (limits : Limits) (chunk : Chunk Value) (x : Nat) (s : Tally) : Prop where
  /-- It does not get into a turn but at the beginning. -/
  gate : x < r.offset ∨ r.stop strip ≤ x → ∃ i next, Machine.fetch chunk x = .ok (i, next) ∧
    i.Leads (Tally.moves limits) (fun y _ => y ≤ r.offset ∨ r.stop strip ≤ y) next s
  enter : r.offset ≤ x → x < r.start → x = r.offset ∨ x = r.definer
  /-- It does not leave a turn as long as there is the variable. -/
  inside : r.start ≤ x → x < r.stop strip → ∃ i next, Machine.fetch chunk x = .ok (i, next) ∧
    i.Leads (Tally.moves (limits.above (r.slot + 1)))
      (fun y w => r.start ≤ y ∧ y < r.stop strip ∨ (y = r.stop strip ∨ y = r.head) ∧ w.locals = r.slot)
      next s
  leave : x = r.stop strip → s.locals = r.slot
  /-- In the body there is the same instruction wherever the body stands in this place. -/
  body : r.start ≤ x → x < r.bodyEnd strip → ∀ chunk', Placed chunk'.code r.start
    (linkFrom (r.start - r.head) (r.turn.inner strip r.context).1) →
    Machine.fetch chunk' x = Machine.fetch chunk x

theorem opening_op : r.turn.opening.op = .getNext ∨ r.turn.opening.op = .getLocal := by
  unfold Turn.opening
  split
  · exact .inl rfl
  · exact .inr rfl

theorem start_eq : r.start = r.definer + 1 := rfl

theorem offset_lt_definer : r.offset < r.definer :=
  Nat.lt_add_of_pos_right r.turn.opening.size_pos

theorem start_add_size : r.start + ((r.turn.inner strip r.context).1 ++ r.turn.rest strip r.context).size =
    r.stop strip := by
  show r.offset + r.turn.opening.size + 1 + _ = r.offset + (r.turn.code strip r.context).size
  rw [Turn.code, size_append (_ ++ _), size_append (emit _ _)]
  simp only [Nat.add_assoc]
  rfl

theorem bodyEnd_le_stop : r.bodyEnd strip ≤ r.stop strip := by
  rw [← r.start_add_size strip, size_append, ← Nat.add_assoc]
  exact Nat.le_add_right ..

end Round

section

variable {limits : Limits} {strip : Bool} {p : Part} {first : Tally} {g : Function Value}
  {more : Fragment} {T : Nat → Tally → Prop} {r : Round}

/-- The code of a turn in its place. -/
theorem Part.Loaded.placed_round (h : p.Loaded limits strip first g more T) (hp : p.Good strip)
    (hr : r.spot ∈ p.spots strip) : r.head ≤ r.offset ∧ Placed g.chunk.code r.offset
      (.instruction r.turn.opening r.turn.span :: .instruction ⟨.defLocal, ()⟩ r.turn.span ::
        linkFrom (r.start - r.head)
          ((r.turn.inner strip r.context).1 ++ r.turn.rest strip r.context)) := by
  have hle : r.head ≤ r.offset := hp.traversed.heads r.spot hr r.head rfl
  refine ⟨hle, ?_⟩
  have hplaced : Placed g.chunk.code r.offset ((r.turn.code strip r.context).settle (some r.head) r.offset) :=
    (hp.traversed.stands g.chunk.code nofun h.placed.left r.spot hr).placed
  have hfirst : (emit r.turn.opening r.turn.span ++ emit ⟨.defLocal, ()⟩ r.turn.span).Closed :=
    (closed_emit _ _).append (closed_emit _ _)
  rwa [Turn.code, settle_append (by rintro _ ⟨⟩; exact hle), settle_closed hfirst, size_append,
    ← Nat.add_assoc] at hplaced

theorem Part.Loaded.opens (h : p.Loaded limits strip first g more T) (hp : p.Good strip)
    (hr : r.spot ∈ p.spots strip) : r.Opens g.chunk := by
  obtain ⟨hle, hplaced⟩ := h.placed_round hp hr
  refine ⟨hle, hplaced.fetch ?_, hplaced.tail.fetch trivial⟩
  unfold Turn.opening
  split <;> trivial

/-- Wherever there is a mark, a turn confines control. -/
theorem Part.Loaded.confines (h : p.Loaded limits strip first g more T) (hp : p.Good strip)
    (hr : r.spot ∈ p.spots strip) {x : Nat} (hx : T x s) : r.Confines strip limits g.chunk x s := by
  obtain ⟨k, hholds⟩ := h.spots r.spot hr
  have hmarks : ∀ mark ∈ r.turn.marks limits strip k r.head r.offset r.context,
      mark.Holds (Tally.moves limits) g.chunk.code T :=
    fun mark hmark => hholds mark (List.mem_cons_of_mem _ hmark)
  simp only [Turn.marks, List.forall_mem_cons] at hmarks
  obtain ⟨hgate, hstop, hfirst, hinside, -⟩ := hmarks
  obtain ⟨hle, hplaced⟩ := h.placed_round hp hr
  refine ⟨fun ho => ?_, fun ha hb => hfirst x s hx ha hb, fun ha hb => ?_, ?_, fun ha hb chunk' hp' => ?_⟩
  · obtain ⟨i, next, hf, hleads⟩ := hgate x s hx ho
    exact ⟨i, next, hf g.chunk rfl, hleads⟩
  · obtain ⟨f₁, q, f₂, hcode, rfl, hgoes⟩ := hinside x s hx ha hb
    obtain ⟨g₁, q', g₂, hlinked, hsize, hq⟩ := linkFrom_append_cons (r.start - r.head) f₁ q f₂
    have hright := hplaced.tail.tail
    rw [hcode, hlinked] at hright
    have hright := hright.right
    rw [hsize] at hright
    have hlink := hgoes.link (n := r.start - r.head + f₁.size) (by
      have := r.offset_lt_definer
      have := r.start_eq
      show r.head + (r.start - r.head + f₁.size) = r.start + f₁.size
      omega) hq
    obtain ⟨i, next, hf, u, hdoes, hto⟩ := hlink.leads hright Tally.countable_of_act
    refine ⟨i, next, hf g.chunk rfl, u, hdoes, fun w hw ip hip => ?_⟩
    have hend := r.start_add_size strip
    rcases hto w hw ip hip with (hin | ⟨hstop, hw⟩) | ⟨hhead, hw⟩
    · rw [← hend]
      exact .inl hin
    · refine .inr ⟨.inl (hstop.trans hend), ?_⟩
      rw [hw]
      rfl
    · refine .inr ⟨.inr hhead, ?_⟩
      rw [hw]
      rfl
  · rintro rfl
    rw [hstop s hx]
    rfl
  · obtain ⟨f₁, q, f₂, hcode, rfl, hgoes⟩ :=
      hinside x s hx ha (Nat.lt_of_lt_of_le hb (r.bodyEnd_le_stop strip))
    have hb : f₁.size < (r.turn.inner strip r.context).1.size := Nat.lt_of_add_lt_add_left hb
    -- the piece is one of the body
    obtain ⟨f₃, hbody⟩ : ∃ f₃, (r.turn.inner strip r.context).1 = f₁ ++ q :: f₃ := by
      rcases List.append_eq_append_iff.1 hcode with ⟨f₃, hf₃, -⟩ | ⟨f₃, hf₃, hq⟩
      · rw [hf₃, size_append] at hb
        omega
      · cases f₃ with
        | nil =>
          rw [hf₃, List.append_nil] at hb
          omega
        | cons q' f₃ => exact ⟨f₃, by rw [hf₃, (List.cons.inj hq).1]⟩
    obtain ⟨g₁, q', g₂, hlinked, hsize, hq⟩ := linkFrom_append_cons (r.start - r.head) f₁ q f₃
    have hright := hplaced.tail.tail.linkLeft
    rw [hbody, hlinked] at hright hp'
    have hlink := hgoes.link (n := r.start - r.head + f₁.size) (by
      have := r.offset_lt_definer
      have := r.start_eq
      show r.head + (r.start - r.head + f₁.size) = r.start + f₁.size
      omega) hq
    rw [← hsize] at hlink ⊢
    exact hlink.fetch_eq hright.right hp'.right Tally.countable_of_act

end

/-- Locals are defined above the floor only. -/
theorem Tally.floor_le {limits : Limits} {i : Instruction} {t : Tally}
    (h : (moves limits).Does i s (some t)) (hlt : s.locals < t.locals) :
    limits.floor ≤ s.locals := by
  obtain ⟨op, args⟩ := i
  have hkeeps (hop : op.keepsLocals = true) : limits.floor ≤ s.locals := by
    obtain ⟨_, ⟨⟩, heq⟩ := Instruction.shifts_of_keepsLocals (i := ⟨op, args⟩) hop s.locals limits s _ h rfl
    exact absurd heq (Nat.ne_of_gt hlt)
  cases op with
  | defLocal => exact h.1
  | popLocal | closeUpvalue | popnLocal =>
    obtain ⟨-, -, ⟨⟩⟩ := h
    exact absurd hlt (Nat.not_lt.2 (Nat.sub_le ..))
  | «return» | returnVoid => cases h.2.2
  | exitSuccess => cases h.2
  | _ => exact hkeeps rfl

namespace Machine

variable {next next' top u : Nat} {i j : Instruction} {path : List Making} {f : Frame}
  {callers : List Frame} {stack : List Value} {c₁ c₂ : CellRef}

/-! ## Turns of a run -/

section

variable (program : Program) (options : Options) (host : Host) (m₀ : Machine)

/-- At a step of the run a closure is executed that is made along the path, at whatever step. -/
structure Visits (n : Nat) (m : Machine) (path : List Making) : Prop where
  run : run host n m₀ = (.unfinished, m)
  made : ∃ k steps, Made program options host m₀ k m.frame.closure path steps
  outermost : m.callers = [] ↔ path = []

/-- At a step of the run a turn of a loop begins. -/
structure Begins (r : Round) (n : Nat) (m : Machine) : Prop where
  visits : Visits program options host m₀ n m r.path
  stands : r.In program options
  ip : m.frame.ip = r.offset

/-- The local at a position, which a turn that began at the step `n` has defined, is still there at the
step `t`. -/
def Persists (q n t : Nat) : Prop :=
  n + 2 ≤ t ∧ ∀ w, n + 2 ≤ w → w < t → ¬DropsLocal host m₀ w q

end

variable {program : Program} {options : Options} {host : Host} {m₀ m m' m₁ m₂ : Machine}
  {n n₁ n₂ t t₁ t₂ q : Nat} {S : Script} {base : Store} {natives : Nat} {r r₁ r₂ : Round}

theorem Executes.visits {steps : List Nat} (h : Executes program options host m₀ n m path steps) :
    Visits program options host m₀ n m path := ⟨h.run, ⟨n, steps, h.made⟩, h.outermost⟩

theorem Visits.sameCall (h : Visits program options host m₀ t m path)
    (hr : Machine.run host n m₀ = (.unfinished, m')) (hs : SameCall m' m) :
    Visits program options host m₀ n m' path :=
  ⟨hr, hs.closure ▸ h.made, hs.callers ▸ h.outermost⟩

theorem Precedes.sameCall (h : Precedes host m₀ u m i next t m'.frame m'.callers top stack) :
    SameCall m m' :=
  ⟨h.closure, h.localsBase, h.outside⟩

theorem Precedes.eq_of_fetch (h : Precedes host m₀ u m i next t f callers top stack)
    (hf : fetch m.frame.closure.function.chunk m.frame.ip = .ok (j, next')) :
    i = j ∧ next = next' := by
  simpa using h.fetched.symm.trans hf

theorem Precedes.leads {limits : Limits} {s : Tally} {L : Nat → Tally → Prop}
    (h : Precedes host m₀ u m i next t f callers top stack)
    (hf : fetch m.frame.closure.function.chunk m.frame.ip = .ok (j, next'))
    (hl : j.Leads (Tally.moves limits) L next' s)
    (hs : m.frame.localsBase + s.locals = m.locals.size) (htop : f.localsBase ≤ top) :
    ∃ w, (Tally.moves limits).Does j s (some w) ∧ L f.ip w ∧
      f.localsBase + w.locals = top := by
  obtain ⟨rfl, rfl⟩ := h.eq_of_fetch hf
  obtain ⟨b, rfl⟩ := Nat.exists_eq_add_of_le htop
  obtain ⟨u, hdoes, hto⟩ := hl
  obtain ⟨w, rfl, rfl⟩ := h.shifts s.locals b hs (by rw [h.localsBase]) limits s u hdoes rfl
  exact ⟨w, hdoes, hto w rfl f.ip h.targets, rfl⟩

theorem Live.rests_opening (h : Live S base natives m) (hh : host.Harmless)
    (hf : fetch m.frame.closure.function.chunk m.frame.ip = .ok (i, next))
    (hi : i.op = .getNext ∨ i.op = .getLocal) (hs : step host m = .ok .running m') :
    Rests (S.Owns base m'.store.cells.size) base (m.movedTo next) next m' := by
  have he := h.effect hh hf hs
  obtain ⟨op, args⟩ := i
  rcases hi with rfl | rfl <;> obtain ⟨-, _, rfl, hr⟩ := he <;> exact hr

variable (hb : Begun program options S base natives host m₀)

include hb

theorem Visits.opens (h : Visits program options host m₀ n m r.path) (hr : r.In program options) :
    r.Opens m.frame.closure.function.chunk := by
  obtain ⟨k, _, hmade⟩ := h.made
  obtain ⟨more, T, hloaded⟩ := hmade.loaded hb
  exact hloaded.opens (hmade.isPath.good hb.good) hr

theorem Visits.confines (h : Visits program options host m₀ n m r.path) (hr : r.In program options) :
    ∃ s : Tally, m.frame.localsBase + s.locals = m.locals.size ∧
      r.Confines options.strip S.limits m.frame.closure.function.chunk m.frame.ip s := by
  obtain ⟨k, _, hmade⟩ := h.made
  obtain ⟨more, T, hloaded⟩ := hmade.loaded hb
  obtain ⟨size, k', hsize, hlevel⟩ := hb.level h.run h.outermost
  obtain ⟨p, -, hmark⟩ := hlevel.marked T hloaded.table hloaded.start
  exact ⟨_, hsize, hloaded.confines (hmade.isPath.good hb.good) hr hmark⟩

theorem Begins.size (h : Begins program options host m₀ r n m) :
    m.locals.size = m.frame.localsBase + r.slot ∧ m.Below false := by
  obtain ⟨k, _, hmade⟩ := h.visits.made
  exact hmade.align hb h.visits.run h.visits.outermost h.stands h.ip

theorem Begins.defined (h : Begins program options host m₀ r n m)
    (hr : run host (n + 2) m₀ = (.unfinished, m₂)) : SameCall m m₂ ∧ m₂.frame.ip = r.start ∧
      ∃ m₁ v, run host (n + 1) m₀ = (.unfinished, m₁) ∧ SameCall m m₁ ∧ m₁.frame.ip = r.definer ∧
        m₁.stack.head? = some v ∧ m₂.locals = m.locals.push v ∧
        ∀ ref ∈ m₂.openCells, (m₂.store.cell ref).slot.toNat < m.locals.size := by
  obtain ⟨m₁, hm₁, hs₂⟩ := run_succ_iff.1 hr
  obtain ⟨m', hm, hs₁⟩ := run_succ_iff.1 hm₁
  obtain rfl : m = m' := (Prod.mk.inj (h.visits.run.symm.trans hm)).2
  have hopens := h.visits.opens hb h.stands
  have hlive := hb.live.afterRun hb.harmless hm
  have hfirst := hlive.rests_opening hb.harmless (h.ip ▸ hopens.opening) r.opening_op hs₁
  have hframe : m₁.frame = { m.frame with ip := r.definer } := hfirst.frame
  have hdefine : fetch m₁.frame.closure.function.chunk m₁.frame.ip = .ok (⟨.defLocal, ()⟩, r.start) := by
    rw [hframe]
    exact hopens.define
  obtain ⟨-, v, hv, hrests⟩ := (hlive.afterStep hb.harmless hs₁).effect hb.harmless hdefine hs₂
  refine ⟨⟨?_, ?_, ?_⟩, ?_, m₁, v, hm₁, ⟨?_, ?_, hfirst.callers.symm⟩, ?_, hv, ?_,
    fun ref href => ?_⟩
  · rw [hrests.frame]
    show _ = m₁.frame.closure
    rw [hframe]
  · rw [hrests.frame]
    show _ = m₁.frame.localsBase
    rw [hframe]
  · exact hfirst.callers.symm.trans hrests.callers.symm
  · rw [hrests.frame]
  · rw [hframe]
  · rw [hframe]
  · rw [hframe]
  · rw [hrests.locals]
    show m₁.locals.push v = _
    rw [hfirst.locals]
  · rw [hrests.openCells] at href
    rw [hrests.sameVariables.cell]
    have href : ref ∈ m₁.openCells := href
    rw [hfirst.openCells] at href
    show (m₁.store.cell ref).slot.toNat < _
    rw [hfirst.sameVariables.cell]
    exact (h.size hb).2 ref href

/-- A variable that has not been dropped is there. -/
theorem Begins.lt_size (h : Begins program options host m₀ r n m)
    (hp : Persists host m₀ m.locals.size n t) (hr : run host t m₀ = (.unfinished, m')) :
    m.locals.size < m'.locals.size := by
  obtain ⟨hle, hkept⟩ := hp
  induction hle generalizing m' with
  | refl =>
    obtain ⟨-, -, _, v, -, -, -, -, hlocals, -⟩ := h.defined hb hr
    rw [hlocals, Array.size_push]
    exact Nat.lt_succ_self _
  | @step t hle ih =>
    obtain ⟨m₁, hm₁, hs⟩ := run_succ_iff.1 hr
    have hlt := ih hm₁ fun w hw hlt => hkept w hw (Nat.lt_succ_of_lt hlt)
    refine Nat.lt_of_not_le fun hdropped => hkept t hle (Nat.lt_succ_self t) ?_
    exact ⟨m₁, m', hm₁, hs, hlt, hdropped⟩

/-- How control has come to a place inside of a turn: from the beginning to the definition of the
variable, from there to the body, or from another place of the body, where the variable has been there if
it is there now. -/
inductive Comes (strip : Bool) (r : Round) (u t : Nat) (m₁ m : Machine) : Prop
  | opening : m₁.frame.ip = r.offset → m.frame.ip = r.definer → u + 1 = t → Comes strip r u t m₁ m
  | define : m₁.frame.ip = r.definer → m.frame.ip = r.start → u + 1 = t → Comes strip r u t m₁ m
  | body : r.start ≤ m₁.frame.ip → m₁.frame.ip < r.stop strip → r.start ≤ m.frame.ip →
      (m.frame.localsBase + r.slot < m.locals.size → m₁.frame.localsBase + r.slot < m₁.locals.size) →
      Comes strip r u t m₁ m

theorem Visits.comes (h : Visits program options host m₀ t m r.path) (hr : r.In program options)
    (hstart : r.definer ≤ m.frame.ip) (hstop : m.frame.ip < r.stop options.strip) :
    ∃ u m₁ i next, Precedes host m₀ u m₁ i next t m.frame m.callers m.locals.size m.stack ∧
      Visits program options host m₀ u m₁ r.path ∧ Comes options.strip r u t m₁ m := by
  have hbase := (hb.live.afterRun hb.harmless h.run).localsBase_le
  have hdefiner := r.offset_lt_definer
  have hsucc := r.start_eq
  rcases (hb.live.visited hb.harmless hb.callers hb.ip h.run).now with
    ⟨-, hzero⟩ | ⟨u, m₁, i, next, hp⟩
  · omega
  have hv := h.sameCall hp.runs hp.sameCall
  have hopens := hv.opens hb hr
  obtain ⟨s, hs, hconfines⟩ := hv.confines hb hr
  refine ⟨u, m₁, i, next, hp, hv, ?_⟩
  by_cases hout : m₁.frame.ip < r.offset ∨ r.stop options.strip ≤ m₁.frame.ip
  · obtain ⟨j, next', hf, hleads⟩ := hconfines.gate hout
    obtain ⟨w, -, hto, -⟩ := hp.leads hf hleads hs hbase
    omega
  by_cases hin : r.start ≤ m₁.frame.ip
  · obtain ⟨j, next', hf, hleads⟩ := hconfines.inside hin (by omega)
    obtain ⟨w, hdoes, hto, hw⟩ := hp.leads hf hleads hs hbase
    have hhead := hopens.head_le
    refine .body hin (by omega) (by omega) fun hq => ?_
    -- The variable itself is not defined in the body.
    have hsame := hp.localsBase
    by_cases hlt : s.locals < w.locals
    · have hfloor : r.slot + 1 ≤ s.locals := Tally.floor_le hdoes hlt
      omega
    · omega
  rcases hconfines.enter (by omega) (by omega) with hx | hx
  · obtain ⟨rfl, rfl⟩ := hp.eq_of_fetch (hx ▸ hopens.opening)
    rcases r.opening_op with hop | hop
    all_goals
      refine .opening hx ?_ (hp.last.resolve_right (by rw [hop]; nofun))
      exact targets_of_not_jump (by rw [hop]; nofun) hp.targets
  · obtain ⟨rfl, rfl⟩ := hp.eq_of_fetch (hx ▸ hopens.define)
    exact .define hx hp.targets (hp.last.resolve_right nofun)

theorem Visits.begins (h : Visits program options host m₀ t m r.path) (hr : r.In program options)
    (hip : m.frame.ip = r.definer) (hstop : r.definer < r.stop options.strip) :
    ∃ n m₁, n + 1 = t ∧ Begins program options host m₀ r n m₁ ∧ SameCall m₁ m := by
  have hsucc := r.start_eq
  obtain ⟨u, m₁, i, next, hp, hv, hcomes⟩ := h.comes hb hr (Nat.le_of_eq hip.symm) (hip ▸ hstop)
  cases hcomes with
  | opening hx _ hlast => exact ⟨u, m₁, hlast, ⟨hv, hr, hx⟩, hp.sameCall⟩
  | define _ hto | body _ _ hto => omega

theorem Visits.belongs (h : Visits program options host m₀ t m r.path) (hr : r.In program options)
    (hstart : r.start ≤ m.frame.ip) (hstop : m.frame.ip < r.stop options.strip)
    (hq : m.frame.localsBase + r.slot < m.locals.size) :
    ∃ n m₁, Begins program options host m₀ r n m₁ ∧ SameCall m₁ m ∧
      Persists host m₀ m₁.locals.size n t := by
  have hsucc := r.start_eq
  -- the step before is earlier
  induction t using Nat.strongRecOn generalizing m with
  | ind t ih =>
    obtain ⟨u, m₁, i, next, hp, hv, hcomes⟩ := h.comes hb hr (by omega) hstop
    cases hcomes with
    | opening _ hto => omega
    | define hx _ hlast =>
      obtain ⟨n, m₂, rfl, hbegins, hsame⟩ := hv.begins hb hr hx (by omega)
      exact ⟨n, m₂, hbegins, hsame.trans hp.sameCall, Nat.le_of_eq hlast, fun w hle hlt => by omega⟩
    | body hin hbefore _ hthere =>
      have hq₁ := hthere hq
      obtain ⟨n, m₂, hbegins, hsame, hle, hkept⟩ := ih u hp.lt hv hin hbefore hq₁
      refine ⟨n, m₂, hbegins, hsame.trans hp.sameCall, Nat.le_trans hle (Nat.le_of_lt hp.lt),
        fun w hw hlt => ?_⟩
      rcases Nat.lt_or_ge w u with hu | hu
      · exact hkept w hw hu
      · rw [(hbegins.size hb).1, hsame.localsBase]
        exact hp.kept _ hq₁ (hp.localsBase ▸ hq) w hu hlt

/-- The call of `m` is executed, or it waits for calls that have their locals above a position. -/
def Within (q : Nat) (m m' : Machine) : Prop :=
  m'.frame.localsBase = m.frame.localsBase ∧ m'.callers = m.callers ∨
    ∃ inner f, m'.callers = inner ++ f :: m.callers ∧ f.localsBase = m.frame.localsBase ∧
      ∀ g ∈ m'.frame :: inner, q < g.localsBase

omit hb in
theorem Within.step {Q : Value.Code → Prop} (h : Within q m m₁)
    (hframes : Stays i next m₁ m' ∨ Calling Q i next m₁ m' ∨ Returning m₁ m')
    (hq : m.frame.localsBase ≤ q) (hlt : q < m₁.locals.size) (hkept : q < m'.locals.size) :
    Within q m m' := by
  rcases hframes with hstays | hcalling | hreturning
  · obtain ⟨ip, -, hframe⟩ := hstays.frame
    rcases h with ⟨hbase, hcallers⟩ | ⟨inner, f, hcallers, hf, habove⟩
    · exact .inl ⟨by rw [hframe, hbase], hstays.callers.trans hcallers⟩
    · refine .inr ⟨inner, f, hstays.callers.trans hcallers, hf, List.forall_mem_cons.2 ?_⟩
      rw [hframe]
      exact List.forall_mem_cons.1 habove
  · have hnew : q < m'.frame.localsBase := hcalling.localsBase ▸ hlt
    rcases h with ⟨hbase, hcallers⟩ | ⟨inner, f, hcallers, hf, habove⟩
    · refine .inr ⟨[], { m₁.frame with ip := next }, by rw [hcalling.callers, hcallers]; rfl, hbase, ?_⟩
      exact List.forall_mem_cons.2 ⟨hnew, nofun⟩
    · refine .inr ⟨_ :: inner, f, by rw [hcalling.callers, hcallers]; rfl, hf, ?_⟩
      exact List.forall_mem_cons.2 ⟨hnew, List.forall_mem_cons.2 (List.forall_mem_cons.1 habove)⟩
  · have hcallers' := hreturning.callers
    rcases h with ⟨hbase, -⟩ | ⟨inner, f, hcallers, hf, habove⟩
    · have := hreturning.locals
      omega
    · rw [hcallers] at hcallers'
      cases inner with
      | nil =>
        obtain ⟨rfl, hrest⟩ := List.cons.inj hcallers'
        exact .inl ⟨hf, hrest.symm⟩
      | cons g inner =>
        obtain ⟨rfl, hrest⟩ := List.cons.inj hcallers'
        exact .inr ⟨inner, f, hrest.symm, hf, (List.forall_mem_cons.1 habove).2⟩

theorem Begins.within (h : Begins program options host m₀ r n m)
    (hp : Persists host m₀ m.locals.size n t) (hr : run host t m₀ = (.unfinished, m')) :
    Within m.locals.size m m' := by
  obtain ⟨hle, hkept⟩ := hp
  induction hle generalizing m' with
  | refl =>
    obtain ⟨hsame, -⟩ := h.defined hb hr
    exact .inl ⟨hsame.localsBase.symm, hsame.callers.symm⟩
  | @step t hle ih =>
    obtain ⟨m₁, hm₁, hs⟩ := run_succ_iff.1 hr
    have hkept₁ : ∀ w, n + 2 ≤ w → w < t → ¬DropsLocal host m₀ w m.locals.size :=
      fun w hw hlt => hkept w hw (Nat.lt_succ_of_lt hlt)
    have hlive := hb.live.afterRun hb.harmless hm₁
    obtain ⟨i, next, hf⟩ := hlive.exists_fetch
    exact (ih hm₁ hkept₁).step (hlive.frames_step hf (hlive.effect hb.harmless hf hs)).2
      ((h.size hb).1 ▸ Nat.le_add_right ..) (h.lt_size hb ⟨hle, hkept₁⟩ hm₁)
      (h.lt_size hb ⟨Nat.le_succ_of_le hle, hkept⟩ hr)

theorem Begins.precedes (h : Begins program options host m₀ r n m)
    (hp : Persists host m₀ m.locals.size n t) (hr : run host t m₀ = (.unfinished, m'))
    (hbelow : m'.frame.localsBase ≤ m.locals.size) (hlt : n + 2 < t) :
    ∃ u m₁ i next, Precedes host m₀ u m₁ i next t m'.frame m'.callers m'.locals.size m'.stack ∧
      Persists host m₀ m.locals.size n u ∧ m₁.frame.localsBase ≤ m.locals.size := by
  obtain ⟨hle, hkept⟩ := hp
  have hcallers : m'.callers = m.callers := by
    rcases h.within hb ⟨hle, hkept⟩ hr with ⟨-, hcallers⟩ | ⟨inner, f, -, -, habove⟩
    · exact hcallers
    · exact absurd (habove m'.frame (List.mem_cons_self ..)) (Nat.not_lt.2 hbelow)
  rcases (hb.live.visited hb.harmless hb.callers hb.ip hr).now with
    ⟨hzero | ⟨u, m₁, rfl, hm₁, hfresh⟩, -⟩ | ⟨u, m₁, i, next, hp⟩
  · omega
  · -- A call that has just begun has its locals above the variable.
    have := h.lt_size hb ⟨Nat.le_of_lt_succ hlt, fun w hw hlt => hkept w hw (Nat.lt_succ_of_lt hlt)⟩ hm₁
    omega
  have hu : n + 2 ≤ u := by
    -- The call has been executed when the variable was defined.
    obtain ⟨m₂, hm₂⟩ := exists_run_of_le hr hle
    refine Nat.le_of_not_lt fun hu => ?_
    have hdeep := hp.deeper (n + 2) m₂ hu hlt hm₂
    rw [← (h.defined hb hm₂).1.callers, ← hcallers] at hdeep
    exact Nat.lt_irrefl _ hdeep
  exact ⟨u, m₁, i, next, hp, ⟨hu, fun w hw hlt => hkept w hw (Nat.lt_trans hlt hp.lt)⟩,
    hp.localsBase ▸ hbelow⟩

theorem Begins.inside (h : Begins program options host m₀ r n m)
    (hp : Persists host m₀ m.locals.size n t) (hr : run host t m₀ = (.unfinished, m'))
    (hbelow : m'.frame.localsBase ≤ m.locals.size) :
    SameCall m m' ∧ r.start ≤ m'.frame.ip ∧ m'.frame.ip < r.stop options.strip := by
  have hsize := (h.size hb).1
  induction t using Nat.strongRecOn generalizing m' with
  | ind t ih =>
  rcases Nat.eq_or_lt_of_le hp.1 with rfl | hlt
  · obtain ⟨hsame, hip, -⟩ := h.defined hb hr
    obtain ⟨s, hs, hconfines⟩ := (h.visits.sameCall hr hsame.symm).confines hb h.stands
    refine ⟨hsame, Nat.le_of_eq hip.symm, Nat.lt_of_not_le fun hstop => ?_⟩
    have hend := r.start_add_size options.strip
    have hnone := hconfines.leave (by omega)
    have hbase := hsame.localsBase
    have := h.lt_size hb hp hr
    omega
  obtain ⟨u, m₁, i, next, hprecedes, hpersists, hbelow₁⟩ := h.precedes hb hp hr hbelow hlt
  obtain ⟨hsame, hstart, hstop⟩ := ih u hprecedes.lt hpersists hprecedes.runs hbelow₁
  obtain ⟨s, hs, hconfines⟩ := (h.visits.sameCall hprecedes.runs hsame.symm).confines hb h.stands
  obtain ⟨j, next', hf, hleads⟩ := hconfines.inside hstart hstop
  obtain ⟨w, -, hto, hw⟩ := hprecedes.leads hf hleads hs (hb.live.afterRun hb.harmless hr).localsBase_le
  have hsame := hsame.trans hprecedes.sameCall
  have hbase := hsame.localsBase
  have := h.lt_size hb hp hr
  refine ⟨hsame, ?_⟩
  omega

/-! ## Fresh variables -/

theorem Begins.not_lt (h₁ : Begins program options host m₀ r₁ n₁ m₁)
    (h₂ : Begins program options host m₀ r₂ n₂ m₂) (hq : m₁.locals.size = m₂.locals.size)
    (hp : Persists host m₀ m₁.locals.size n₁ t) (hr : run host t m₀ = (.unfinished, m))
    (ht : n₂ + 2 ≤ t) : ¬n₁ < n₂ := by
  intro hlt
  rcases Nat.eq_or_lt_of_le (Nat.succ_le_of_lt hlt) with rfl | hlt
  · -- the next step is the definition of the variable
    obtain ⟨m', hm'⟩ := exists_run_of_le hr hp.1
    obtain ⟨-, -, m₃, v, hm₃, hsame, hip, -⟩ := h₁.defined hb hm'
    obtain rfl : m₂ = m₃ := (Prod.mk.inj (h₂.visits.run.symm.trans hm₃)).2
    have hdefine := ((h₁.visits.sameCall hm₃ hsame.symm).opens hb h₁.stands).define
    have hopening := (h₂.visits.opens hb h₂.stands).opening
    rw [← h₂.ip, hip, hdefine] at hopening
    have hop : Opcode.defLocal = r₂.turn.opening.op := congrArg (·.1.op) (Except.ok.inj hopening)
    rcases r₂.opening_op with h | h <;> rw [h] at hop <;> cases hop
  · have hsize := h₁.lt_size hb ⟨hlt, fun w hw hlt => hp.2 w hw (by omega)⟩ h₂.visits.run
    omega

theorem Begins.cell_eq_iff_of_le (h₁ : Begins program options host m₀ r₁ n₁ m₁)
    (h₂ : Begins program options host m₀ r₂ n₂ m₂) (hp₁ : Persists host m₀ m₁.locals.size n₁ t₁)
    (hp₂ : Persists host m₀ m₂.locals.size n₂ t₂) (ht₁ : TakesLocal host m₀ t₁ m₁.locals.size c₁)
    (ht₂ : TakesLocal host m₀ t₂ m₂.locals.size c₂) (ht : t₁ ≤ t₂) : c₁ = c₂ ↔ n₁ = n₂ := by
  rw [hb.live.takesLocal_eq_iff hb.harmless ht ht₁ ht₂]
  constructor
  · rintro ⟨hq, hkept⟩
    obtain ⟨m, _, _, _, hr, -⟩ := ht₂
    have hp : Persists host m₀ m₁.locals.size n₁ t₂ := by
      refine ⟨Nat.le_trans hp₁.1 ht, fun w hw hlt => ?_⟩
      rcases Nat.lt_or_ge w t₁ with hw' | hw'
      · exact hp₁.2 w hw hw'
      · exact hkept w hw' hlt
    exact Nat.le_antisymm (Nat.le_of_not_lt (h₂.not_lt hb h₁ hq.symm hp₂ hr (Nat.le_trans hp₁.1 ht)))
      (Nat.le_of_not_lt (h₁.not_lt hb h₂ hq hp hr hp₂.1))
  · rintro rfl
    obtain rfl : m₁ = m₂ := (Prod.mk.inj (h₁.visits.run.symm.trans h₂.visits.run)).2
    exact ⟨rfl, fun w hw hlt => hp₂.2 w (Nat.le_trans hp₁.1 hw) hlt⟩

theorem Begins.cell_eq_iff (h₁ : Begins program options host m₀ r₁ n₁ m₁)
    (h₂ : Begins program options host m₀ r₂ n₂ m₂) (hp₁ : Persists host m₀ m₁.locals.size n₁ t₁)
    (hp₂ : Persists host m₀ m₂.locals.size n₂ t₂) (ht₁ : TakesLocal host m₀ t₁ m₁.locals.size c₁)
    (ht₂ : TakesLocal host m₀ t₂ m₂.locals.size c₂) : c₁ = c₂ ↔ n₁ = n₂ := by
  rcases Nat.le_total t₁ t₂ with ht | ht
  · exact h₁.cell_eq_iff_of_le hb h₂ hp₁ hp₂ ht₁ ht₂ ht
  · rw [eq_comm, h₂.cell_eq_iff_of_le hb h₁ hp₂ hp₁ ht₂ ht₁ ht, eq_comm]

theorem Visits.takes {captures : List Capture} {refs : List CellRef}
    (h : Visits program options host m₀ t m r.path) (hr : r.In program options)
    (hstart : r.start ≤ m.frame.ip) (hstop : m.frame.ip < r.stop options.strip)
    (hm : m.MakesClosure host captures refs) :
    ∃ n m₁, Begins program options host m₀ r n m₁ ∧ SameCall m₁ m ∧
      Persists host m₀ m₁.locals.size n t := by
  refine h.belongs hb hr hstart hstop ?_
  obtain ⟨s, hs, hconfines⟩ := h.confines hb hr
  obtain ⟨j, next, hf, u, hdoes, -⟩ := hconfines.inside hstart hstop
  obtain ⟨index, next', m', key, f, hf', -⟩ := hm
  obtain ⟨rfl, rfl⟩ : j = ⟨.pushClosure, (index, captures)⟩ ∧ next = next' := by
    simpa using hf.symm.trans hf'
  have hfloor : r.slot + 1 ≤ s.locals := hdoes.2.1
  omega

end Machine

end StackScript
