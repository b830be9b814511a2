import StackScript.Proofs.Safety.Stores

/-!
# How a loop carries its variable over

A loop with an update has a variable of its own between two turns. A turn copies it when it begins,
and copies its own variable back when its body goes on with the next turn. Before that the locals of
the turn are dropped, while the value waits on the stack.
-/

namespace StackScript

open Lowering Fragment

namespace Machine

variable {host : Host} {m m' m'' : Machine} {next o : Nat} {v : Value} {st : List Value} {S : Script}
  {base : Store} {natives : Nat} {span : Span}

/-! ## Steps -/

section

variable {slot : UInt32}

theorem step_getLocal (host : Host)
    (hf : fetch m.frame.closure.function.chunk m.frame.ip = .ok (⟨.getLocal, slot⟩, next))
    (hv : m.locals[m.frame.localsBase + slot.toNat]? = some v) :
    step host m = .ok .running { m.movedTo next with stack := v :: m.stack } := by
  have hget : getLocal (m.frame.localsBase + slot.toNat) (m.movedTo next) = .ok v (m.movedTo next) := by
    unfold getLocal
    rw [show (m.movedTo next).locals[m.frame.localsBase + slot.toNat]? = some v from hv]
  rw [step_of_fetch hf]
  show (localSlot slot >>= fun j => getLocal j >>= fun v => push v >>= fun _ => pure Status.running :
    Exec _) (m.movedTo next) = _
  rw [bind_ok (show localSlot slot (m.movedTo next) = .ok (m.frame.localsBase + slot.toNat) _ from rfl),
    bind_ok hget]
  rfl

theorem step_setLocal (host : Host)
    (hf : fetch m.frame.closure.function.chunk m.frame.ip = .ok (⟨.setLocal, slot⟩, next))
    (hst : m.stack = v :: st) (hlt : m.frame.localsBase + slot.toNat < m.locals.size) :
    step host m = .ok .running
      { m.movedTo next with locals := m.locals.setIfInBounds (m.frame.localsBase + slot.toNat) v } := by
  have hpeek : peek (m.movedTo next) = .ok v (m.movedTo next) := peek_of_stack hst
  rw [step_of_fetch hf]
  show (peek >>= fun v => localSlot slot >>= fun j => setLocal j v >>= fun _ => pure Status.running :
    Exec _) (m.movedTo next) = _
  rw [bind_ok hpeek,
    bind_ok (show localSlot slot (m.movedTo next) = .ok (m.frame.localsBase + slot.toNat) _ from rfl),
    bind_ok (show setLocal _ v (m.movedTo next) = .ok () _ from setLocal_of_lt hlt)]
  rfl

theorem step_pushTrue (host : Host)
    (hf : fetch m.frame.closure.function.chunk m.frame.ip = .ok (⟨.pushTrue, ()⟩, next)) :
    step host m = .ok .running { m.movedTo next with stack := .bool true :: m.stack } := by
  rw [step_of_fetch hf]
  rfl

theorem step_loop (host : Host) {distance : UInt32} {target : Nat}
    (hf : fetch m.frame.closure.function.chunk m.frame.ip = .ok (⟨.loop, distance⟩, next))
    (ht : target + distance.toNat = next) : step host m = .ok .running (m.movedTo target) := by
  rw [step_of_fetch hf]
  show (do
    if distance.toNat ≤ next then jumpTo (next - distance.toNat) else throw (.invalidJump m.frame.ip)
    return Status.running : Exec _) (m.movedTo next) = _
  rw [if_pos (by omega), show next - distance.toNat = target by omega]
  rfl

/-- A true value does not lead out of a loop. -/
theorem step_jumpFalse (host : Host) {distance : UInt32}
    (hf : fetch m.frame.closure.function.chunk m.frame.ip = .ok (⟨.jumpFalse, distance⟩, next))
    (hst : m.stack = .bool true :: st) : step host m = .ok .running (m.movedTo next) := by
  have hpeek : peek (m.movedTo next) = .ok (.bool true) (m.movedTo next) := peek_of_stack hst
  have hjump : jumpIf .jumpFalse false (next + distance.toNat) (m.movedTo next) =
      .ok () (m.movedTo next) := by
    unfold jumpIf
    rw [bind_ok hpeek]
    rfl
  rw [step_of_fetch hf]
  show (jumpIf .jumpFalse false (next + distance.toNat) >>= fun _ => pure Status.running : Exec _)
    (m.movedTo next) = _
  rw [bind_ok hjump]
  rfl

end

/-! ## Dropping locals -/

/-- The call has gone on to an offset, and some of the newest locals have been dropped. -/
structure Trims (m : Machine) (ip : Nat) (m' : Machine) : Prop where
  frame : m'.frame = { m.frame with ip }
  callers : m'.callers = m.callers
  globals : m'.globals = m.globals
  stack : m'.stack = m.stack
  locals : ∀ j < m'.locals.size, m'.locals[j]? = m.locals[j]?

theorem Trims.trans {ip ip' : Nat} (h : Trims m ip m') (h' : Trims m' ip' m'')
    (hle : m''.locals.size ≤ m'.locals.size) : Trims m ip' m'' where
  frame := by rw [h'.frame, h.frame]
  callers := h'.callers.trans h.callers
  globals := h'.globals.trans h.globals
  stack := h'.stack.trans h.stack
  locals j hj := (h'.locals j hj).trans (h.locals j (Nat.lt_of_lt_of_le hj hle))

theorem trims_truncated {ip : Nat} (size : Nat) : Trims m ip ((m.movedTo ip).truncated size) :=
  ⟨rfl, rfl, rfl, rfl, fun _ hj => getElem?_shrink hj⟩

/-- There are locals to drop when they are dropped. -/
theorem Live.step_drops {i : Instruction} (h : Live S base natives m) (host : Host)
    (hf : fetch m.frame.closure.function.chunk m.frame.ip = .ok (i, next))
    (hi : i.op.dropsLocals = true) : ∃ m', step host m = .ok .running m' ∧ Trims m next m' ∧
      m'.locals.size ≤ m.locals.size := by
  obtain ⟨s, size, k, hu⟩ := h.upcoming hf
  obtain ⟨p, u, -, hdoes⟩ := hu.does
  have hheight := hu.height
  have hdrops (n : Nat) (hn : n ≤ size) (he : step host m =
      (dropLocals n >>= fun _ => pure Status.running : Exec _) (m.movedTo next)) :
      ∃ m', step host m = .ok .running m' ∧ Trims m next m' ∧ m'.locals.size ≤ m.locals.size := by
    refine ⟨_, ?_, trims_truncated (m.locals.size - n), ?_⟩
    · have hd : dropLocals n (m.movedTo next) =
          .ok () ((m.movedTo next).truncated (m.locals.size - n)) := by
        rw [dropLocals_eq]
        exact if_pos (show n ≤ m.locals.size by omega)
      rw [he, bind_ok hd]
      rfl
    · show (m.locals.shrink _).size ≤ _
      rw [Array.size_shrink]
      exact Nat.min_le_right ..
  obtain ⟨op, args⟩ := i
  cases op with
  | popLocal | closeUpvalue => exact hdrops 1 hdoes.2.1 (step_of_fetch hf)
  | popnLocal => exact hdrops args.toNat hdoes.2.1 (step_of_fetch hf)
  | _ => cases hi

end Machine

/-- Code of instructions that drop locals. -/
def Fragment.Drops (f : Fragment) : Prop :=
  ∀ p ∈ f, ∃ i span, p = .instruction i span ∧ i.op.dropsLocals = true

theorem Fragment.Drops.append {f g : Fragment} (hf : f.Drops) (hg : g.Drops) : (f ++ g).Drops :=
  fun p hp => (List.mem_append.1 hp).elim (hf p) (hg p)

theorem Fragment.drops_emit {i : Instruction} (h : i.op.dropsLocals = true) (span : Span) :
    (emit i span).Drops := fun _ hp => ⟨i, span, List.mem_singleton.1 hp, h⟩

theorem Lowering.drops_releaseAfter (n : Nat) (span : Span) (ls : List Local) :
    (releaseAfter n span ls).Drops :=
  releaseAfter_induction nofun .append (drops_emit rfl span) (fun _ => drops_emit rfl span)
    (drops_emit rfl span) n ls

namespace Machine

/-- Code that drops locals is executed to its end. -/
theorem Live.drops {f : Fragment} {P : Nat → Prop} (h : Live S base natives m) (hh : host.Harmless)
    (hf : f.Drops) (hp : Placed m.frame.closure.function.chunk.code m.frame.ip f)
    (hP : ∀ x, m.frame.ip ≤ x → x < m.frame.ip + f.size → P x) :
    ∃ m', Walks host P m m' ∧ Trims m (m.frame.ip + f.size) m' ∧ m'.locals.size ≤ m.locals.size := by
  induction f generalizing m with
  | nil => exact ⟨m, .refl m, ⟨rfl, rfl, rfl, rfl, fun _ _ => rfl⟩, Nat.le_refl _⟩
  | cons p f ih =>
    obtain ⟨i, span, rfl, hi⟩ := hf p (List.mem_cons_self ..)
    have hfetch := hp.fetch (by
      obtain ⟨op, args⟩ := i
      cases op <;> trivial)
    obtain ⟨m₁, hs, htrims, hle⟩ := h.step_drops host hfetch hi
    have hframe := htrims.frame
    have hpos := i.size_pos
    have hip : m₁.frame.ip = m.frame.ip + i.size := by rw [hframe]
    have hend : m₁.frame.ip + Fragment.size f = m.frame.ip + size (.instruction i span :: f) := by
      rw [hip, size_cons, ← Nat.add_assoc]
      rfl
    obtain ⟨m', hr, htrims', hle'⟩ := ih (h.afterStep hh hs)
      (fun q hq => hf q (List.mem_cons_of_mem _ hq)) (by rw [hframe]; exact hp.tail)
      fun x hx hlt => hP x (by omega) (hend ▸ hlt)
    refine ⟨m', (Walks.single (hP _ (Nat.le_refl _) (by omega)) hs).trans hr, ?_, Nat.le_trans hle' hle⟩
    exact hend ▸ htrims.trans htrims' hle'

theorem Live.afterReaches (h : Live S base natives m) (hh : host.Harmless) (hr : Reaches host m m') :
    Live S base natives m' := by
  obtain ⟨k, hr⟩ := hr
  exact h.afterRun hh hr

end Machine

/-! ## Copying back -/

/-- Code that writes the top of the stack into a local. -/
def Lowering.writeBack (outer : UInt32) (span : Span) : Fragment :=
  emit ⟨.setLocal, outer⟩ span ++ (pop span ++ emit ⟨.pushTrue, ()⟩ span)

/-- Code that copies the variable of a turn back, and drops the locals of the turn in between. -/
def Lowering.copyBack (outer inner : UInt32) (released : Fragment) (span : Span) : Fragment :=
  emit ⟨.getLocal, inner⟩ span ++ (released ++ writeBack outer span)

namespace Machine

variable {outer inner : UInt32} {released : Fragment}

theorem reaches_writeBack
    (hp : Placed m.frame.closure.function.chunk.code m.frame.ip (writeBack outer span))
    (hst : m.stack = v :: st) (hlt : m.frame.localsBase + outer.toNat < m.locals.size) :
    Reaches host m { m.movedTo (m.frame.ip + 7) with
      stack := .bool true :: st
      locals := m.locals.setIfInBounds (m.frame.localsBase + outer.toNat) v } := by
  have hset := step_setLocal host (hp.left.fetch (i := ⟨.setLocal, outer⟩) trivial) hst hlt
  have hpop := step_pop host (m := { m.movedTo (m.frame.ip + 5) with
    locals := m.locals.setIfInBounds (m.frame.localsBase + outer.toNat) v })
    (hp.right.left.fetch (i := ⟨.pop, ()⟩) trivial) hst
  have htrue := step_pushTrue host (m := { m.movedTo (m.frame.ip + 6) with
    stack := st
    locals := m.locals.setIfInBounds (m.frame.localsBase + outer.toNat) v })
    (hp.right.right.fetch (i := ⟨.pushTrue, ()⟩) trivial)
  exact (Reaches.single hset).trans ((Reaches.single hpop).trans (Reaches.single htrue))

/-- The call has gone on to an offset. The local at a position has a new value, and some of the newest
locals have been dropped. -/
structure Copies (m : Machine) (ip : Nat) (stack : List Value) (q : Nat) (v : Value) (m' : Machine) :
    Prop where
  frame : m'.frame = { m.frame with ip }
  callers : m'.callers = m.callers
  globals : m'.globals = m.globals
  stack : m'.stack = stack
  copy : m'.locals[q]? = some v
  locals : ∀ j < m'.locals.size, j ≠ q → m'.locals[j]? = m.locals[j]?

/-- The locals that are read and written are there. -/
theorem Live.slot_lt_size {slot : UInt32} {i : Instruction} (h : Live S base natives m)
    (hf : fetch m.frame.closure.function.chunk m.frame.ip = .ok (i, next))
    (hi : i = ⟨.getLocal, slot⟩ ∨ i = ⟨.setLocal, slot⟩) :
    m.frame.localsBase + slot.toNat < m.locals.size := by
  obtain ⟨s, size, k, hu⟩ := h.upcoming hf
  obtain ⟨p, u, -, hdoes⟩ := hu.does
  have hlt : slot.toNat < size := by
    rcases hi with rfl | rfl <;> exact hdoes.2.1
  have hheight := hu.height
  omega

theorem Live.copies (h : Live S base natives m) (hh : host.Harmless) (hd : released.Drops)
    (hp : Placed m.frame.closure.function.chunk.code m.frame.ip (copyBack outer inner released span)) :
    ∃ v m', m.locals[m.frame.localsBase + inner.toNat]? = some v ∧ Reaches host m m' ∧
      Copies m (m.frame.ip + (copyBack outer inner released span).size) (.bool true :: m.stack)
        (m.frame.localsBase + outer.toNat) v m' := by
  have hread := hp.left.fetch (i := ⟨.getLocal, inner⟩) trivial
  obtain ⟨v, hv⟩ : ∃ v, m.locals[m.frame.localsBase + inner.toNat]? = some v :=
    ⟨_, Array.getElem?_eq_getElem (h.slot_lt_size hread (.inl rfl))⟩
  have hs := step_getLocal host hread hv
  have h₁ := h.afterStep hh hs
  obtain ⟨m₂, hr, htrims, hle⟩ := h₁.drops (P := fun _ => True) hh hd hp.right.left fun _ _ _ => trivial
  have hr := hr.reaches
  have hframe : m₂.frame = { m.frame with ip := m.frame.ip + 5 + released.size } := htrims.frame
  have hwrite : Placed m₂.frame.closure.function.chunk.code m₂.frame.ip (writeBack outer span) := by
    rw [hframe]
    exact hp.right.right
  have hlt := (h₁.afterReaches hh hr).slot_lt_size (hwrite.left.fetch (i := ⟨.setLocal, outer⟩) trivial)
    (.inr rfl)
  refine ⟨v, _, hv, (Reaches.single hs).trans (hr.trans (reaches_writeBack hwrite htrims.stack hlt)),
    ?_, htrims.callers, htrims.globals, rfl, ?_, fun j hj hne => ?_⟩
  · show { m₂.frame with ip := m₂.frame.ip + 7 } = _
    rw [hframe, copyBack, size_append, size_append, ← Nat.add_assoc, ← Nat.add_assoc]
    rfl
  · rw [show m.frame.localsBase = m₂.frame.localsBase by rw [hframe]]
    exact Array.getElem?_setIfInBounds_self_of_lt hlt
  · have hj : j < (m₂.locals.setIfInBounds (m₂.frame.localsBase + outer.toNat) v).size := hj
    rw [Array.size_setIfInBounds] at hj
    refine (Array.getElem?_setIfInBounds_ne ?_).trans (htrims.locals j hj)
    rw [hframe]
    exact Ne.symm hne

theorem walks_head (host : Host) {d head : Nat} {P : Nat → Prop}
    (hp : Placed m.frame.closure.function.chunk.code m.frame.ip [.jump .back d span])
    (hhead : m.frame.closure.function.chunk.code.LoopHead head) (hd : head + d = m.frame.ip + 5)
    (hst : m.stack = .bool true :: st) (h₁ : P m.frame.ip) (h₂ : P head) (h₃ : P (head + 5)) :
    Walks host P m { m.movedTo (head + 6) with stack := st } := by
  obtain ⟨out, span', hhead⟩ := hhead
  obtain ⟨hloop, hback⟩ := hp.fetch_jump
  have hs₁ := step_loop host hloop (show head + d.toUInt32.toNat = _ from hback.symm ▸ hd)
  have hs₂ := step_jumpFalse host (m := m.movedTo head) hhead.fetch_jump.1 hst
  have hs₃ := step_pop host (m := m.movedTo (head + 5))
    (hhead.tail.fetch (i := ⟨.pop, ()⟩) trivial) hst
  exact (Walks.single h₁ hs₁).trans ((Walks.single h₂ hs₂).trans (Walks.single h₃ hs₃))

end Machine

/-! ## Where turns go on with the next one -/

/-- From an offset on stands code of a turn that copies the variable back and goes on with the next
turn. -/
def Round.Returns (strip : Bool) (r : Round) (outer inner : UInt32) (code : Code) (x : Nat) : Prop :=
  ∃ released span y span' d, released.Drops ∧ Placed code x (copyBack outer inner released span) ∧
    y = x + (copyBack outer inner released span).size ∧ Placed code y [.jump .back d span'] ∧
    r.head + d = y + 5 ∧ r.start ≤ x ∧ y ≤ r.stop strip

theorem Round.Returns.bounds {strip : Bool} {r : Round} {outer inner : UInt32} {code : Code} {x : Nat}
    (h : r.Returns strip outer inner code x) : r.start ≤ x ∧ x < r.stop strip := by
  obtain ⟨released, span, y, -, -, -, -, hy, -, -, hstart, hstop⟩ := h
  have hsize : (copyBack outer inner released span).size =
      5 + (released ++ writeBack outer span).size := size_append ..
  exact ⟨hstart, by omega⟩

section

variable {limits : Limits} {strip : Bool} {p : Part} {first : Tally} {g : Function Value}
  {more : Fragment} {T : Nat → Tally → Prop} {r : Round} {id : Ident} {init : Expr}
  {test update : Option Expr} {body : Stmt} {span : Span} {outer inner : UInt32}

theorem Turn.rest_of_carry_some {t : Turn} (strip : Bool) (c : Context)
    (hcarry : t.loop.carry = some (outer, inner)) :
    t.rest strip c = copyBack outer inner (leaveScope t.span (t.inner strip c).2).1 t.span := by
  simp only [Turn.rest, hcarry, copyBack, writeBack, List.append_assoc]

theorem Lowering.closed_copyBack (outer inner : UInt32) {released : Fragment} (h : released.Closed)
    (span : Span) : (copyBack outer inner released span).Closed :=
  (closed_emit _ _).append (h.append ((closed_emit _ _).append ((closed_emit _ _).append (closed_emit _ _))))

theorem Lowering.exitLoop_continue {loop : Loop} (hcarry : loop.carry = some (outer, inner))
    (c : Context) : exitLoop (some loop) .continue span c =
      (copyBack outer inner (releaseAfter 0 span (c.frame.scope.above loop.depth)) span ++ [.exit span], c) := by
  obtain ⟨depth, carry⟩ := loop
  obtain rfl : carry = some (outer, inner) := hcarry
  show (emit ⟨.getLocal, inner⟩ span ++ releaseAfter 0 span (c.frame.scope.above depth) ++
    emit ⟨.setLocal, outer⟩ span ++ pop span ++ emit ⟨.pushTrue, ()⟩ span ++ [.exit span], c) = _
  simp only [copyBack, writeBack, List.append_assoc]

theorem Lowering.drops_leaveScope (span : Span) (c : Context) : (leaveScope span c).1.Drops :=
  drops_releaseAfter 0 span _

theorem Part.Loaded.placed_back (h : p.Loaded limits strip first g more T) (hp : p.Good strip) {o : Nat}
    {c : Context} {loop : Option (Loop × Nat)} {q : Carrying}
    (hs : ⟨o, c, .statement loop (.for id init test update body span)⟩ ∈ p.spots strip)
    (hq : carrying strip o c id init test update span = q) :
    ∃ y d, y = (⟨id, q.loop, body, span⟩ : Turn).stop strip q.turn q.turnOffset ∧
      Placed g.chunk.code y [.jump .back d span] ∧ q.head + d = y + 5 := by
  have hle : ∀ x ∈ loop.map Prod.snd, x ≤ o := hp.traversed.heads _ hs
  have hplaced := (hp.traversed.stands g.chunk.code nofun h.placed.left _ hs).placed
  subst hq
  set c₁ := (modifyScope Scope.enter c).2
  set c₂ := (expression strip init c₁).2
  set outer := (addLocal id.name c₂).1
  set c₃ := (addLocal id.name c₂).2
  set c₄ := (optionalExpression strip update c₃).2
  set c₅ := (optionalExpression strip test c₄).2
  set inner := (addLocal id.name (modifyScope Scope.enter c₅).2).1
  set u := forUpdate (optionalExpression strip update c₃).1 span
  set t := (optionalExpression strip test c₄).1
  set x : Turn := ⟨id, ⟨c₁.frame.scope.depth, some (outer, inner)⟩, body, span⟩
  have hturn := x.code_of_carry_some strip (c := c₅) rfl
  set turn := forTest t (x.code strip c₅) span with hturn'
  have hcode : (Phrase.statement loop (.for id init test update body span)).lower strip c =
      ((expression strip init c₁).1 ++ emit ⟨.defLocal, ()⟩ span ++ loopCode u (turn ++ [.jump .back
        (Piece.jumpSize + (pop span).size + u.size + turn.size + Piece.jumpSize) span]) span ++
        (leaveScope span (leaveScope span (x.inner strip c₅).2).2).1,
        (leaveScope span (leaveScope span (x.inner strip c₅).2).2).2) := by
    rw [hturn', hturn]
    rfl
  have hplaced : Placed g.chunk.code o (((Phrase.statement loop (.for id init test update body span)).lower
      strip c).1.settle (loop.map Prod.snd) o) := hplaced
  rw [hcode, settle_append hle, settle_append hle, settle_closed (closed_loopCode _ _ _)] at hplaced
  have hloop := loopPlaced hplaced.left.right
  have hsize : turn.size = testSize t + (x.code strip c₅).size := size_forTest t _ span
  have hstop : x.stop strip c₅ (o + (expression strip init c₁).1.size + 6 + 6 + u.size + testSize t) =
      o + ((expression strip init c₁).1.size + 1) + 11 + u.size + turn.size := by
    rw [hsize, Turn.stop]
    omega
  refine ⟨_, _, rfl, placed_jump hloop.round.linkRight ?_ rfl, ?_⟩
  · rw [size_settle, size_append]
    exact hstop.symm
  · show o + (expression strip init c₁).1.size + 6 + (5 + 1 + u.size + turn.size + 5) =
      x.stop strip c₅ (o + (expression strip init c₁).1.size + 6 + 6 + u.size + testSize t) + 5
    omega

theorem Part.Loaded.returns_end (h : p.Loaded limits strip first g more T) (hp : p.Good strip)
    (hr : r.spot ∈ p.spots strip) (hcarry : r.turn.loop.carry = some (outer, inner)) {d : Nat}
    (hback : Placed g.chunk.code (r.stop strip) [.jump .back d span])
    (hd : r.head + d = r.stop strip + 5) : r.Returns strip outer inner g.chunk.code
      (r.start + (r.turn.inner strip r.context).1.size) := by
  obtain ⟨-, hplaced⟩ := h.placed_round hp hr
  have hrest := r.turn.rest_of_carry_some strip r.context hcarry
  have hend := r.start_add_size strip
  have hright := hplaced.tail.tail.linkRight
  rw [hrest] at hright hend
  rw [size_append, ← Nat.add_assoc] at hend
  have hclosed := closed_copyBack outer inner
    (gives_closed_leaveScope r.turn.span (r.turn.inner strip r.context).2) r.turn.span
  exact ⟨_, _, _, _, d, drops_leaveScope _ _, hclosed.placed hright, hend.symm, hback, hd,
    Nat.le_add_right .., Nat.le_refl _⟩

theorem Part.Loaded.placed_continue (h : p.Loaded limits strip first g more T) (hp : p.Good strip)
    (hr : r.spot ∈ p.spots strip) {s : Spot} (hs : s ∈ r.turn.spots strip r.head r.offset r.context)
    (hphrase : s.phrase = .statement (some (r.turn.loop, r.head)) (.exit .continue span)) {f : Fragment}
    (hexit : (exitLoop (some r.turn.loop) .continue span s.context).1 = f ++ [.exit span])
    (hclosed : f.Closed) : ∃ d, Placed g.chunk.code s.offset (f ++ [.jump .back d span]) ∧
      r.head + d = s.offset + f.size + 5 ∧ r.start ≤ s.offset ∧
      s.offset + f.size + 5 ≤ r.bodyEnd strip := by
  have hmem : s ∈ p.spots strip := hp.traversed.parts r.spot hr hs
  have hbetween := hp.traversed.turns r.spot hr r.turn r.head rfl s hs
  have hplaced := (hp.traversed.stands g.chunk.code nofun h.placed.left s hmem).placed
  have hle : r.head ≤ s.offset := hp.traversed.heads s hmem r.head (by rw [hphrase]; rfl)
  have hcode : s.code strip = (f ++ [Piece.exit span]).settle (some r.head) s.offset := by
    rw [Spot.code, hphrase, ← hexit]
    rfl
  have hstop := hbetween.stop
  rw [hcode] at hplaced hstop
  rw [size_settle, size_append] at hstop
  rw [settle_append (by rintro _ ⟨⟩; exact hle), settle_closed hclosed] at hplaced
  refine ⟨s.offset + f.size - r.head + 5, hplaced, by omega, hbetween.start, ?_⟩
  rw [Nat.add_assoc]
  exact hstop

theorem Part.Loaded.returns_continue (h : p.Loaded limits strip first g more T) (hp : p.Good strip)
    (hr : r.spot ∈ p.spots strip) (hcarry : r.turn.loop.carry = some (outer, inner)) {s : Spot}
    (hs : s ∈ r.turn.spots strip r.head r.offset r.context)
    (hphrase : s.phrase = .statement (some (r.turn.loop, r.head)) (.exit .continue span)) :
    r.Returns strip outer inner g.chunk.code s.offset := by
  have hclosed := closed_copyBack outer inner (closed_releaseAfter 0 span
    (s.context.frame.scope.above r.turn.loop.depth)) span
  obtain ⟨d, hplaced, hd, hstart, hstop⟩ := h.placed_continue hp hr hs hphrase
    (congrArg Prod.fst (exitLoop_continue hcarry s.context)) hclosed
  refine ⟨_, span, _, span, d, drops_releaseAfter 0 span _, hplaced.left, rfl, hplaced.right, hd, hstart, ?_⟩
  have := r.bodyEnd_le_stop strip
  omega

end

namespace Machine

variable {program : Program} {options : Options} {m₀ : Machine} {t : Nat} {r : Round}
  {outer inner : UInt32}

theorem Visits.carries (hb : Begun program options S base natives host m₀)
    (h : Visits program options host m₀ t m r.path) (hr : r.In program options)
    (hhead : m.frame.closure.function.chunk.code.LoopHead r.head)
    (hx : r.Returns options.strip outer inner m.frame.closure.function.chunk.code m.frame.ip) :
    ∃ v k m', m.locals[m.frame.localsBase + inner.toNat]? = some v ∧
      Machine.run host (t + k) m₀ = (.unfinished, m') ∧
      Copies m (r.head + 6) m.stack (m.frame.localsBase + outer.toNat) v m' ∧
      m'.locals.size = m.frame.localsBase + r.slot := by
  obtain ⟨released, span, y, span', d, hdrops, hcopy, hy, hjump, hd, hstart, hstop⟩ := hx
  have hlive := hb.live.afterRun hb.harmless h.run
  obtain ⟨v, m₁, hv, ⟨k, hr₁⟩, hc⟩ := hlive.copies hb.harmless hdrops hcopy
  rw [← hy] at hc
  have hframe := hc.frame
  have hrun₁ : Machine.run host (t + k) m₀ = (.unfinished, m₁) := by rw [run_add h.run, hr₁]
  have hjump : Placed m₁.frame.closure.function.chunk.code m₁.frame.ip [.jump .back d span'] := by
    rw [hframe]
    exact hjump
  have hv₁ := h.sameCall hrun₁ ⟨by rw [hframe], by rw [hframe], hc.callers⟩
  -- The locals are those that there were when the turn began.
  have hsize : m₁.locals.size = m.frame.localsBase + r.slot := by
    have hopens := hv₁.opens hb hr
    obtain ⟨s, hs, hconfines⟩ := hv₁.confines hb hr
    have hip : m₁.frame.ip = y := by rw [hframe]
    have hbase : m₁.frame.localsBase = m.frame.localsBase := by rw [hframe]
    rcases Nat.eq_or_lt_of_le hstop with hstop | hstop
    · have := hconfines.leave (hip.trans hstop)
      omega
    · obtain ⟨i, next, hf, u, hdoes, hto⟩ := hconfines.inside (by omega) (by omega)
      obtain ⟨hf', hback⟩ := hjump.fetch_jump
      obtain ⟨rfl, rfl⟩ : i = Branch.back.instruction d.toUInt32 ∧ next = m₁.frame.ip + Piece.jumpSize := by
        simpa using hf.symm.trans hf'
      obtain ⟨-, rfl⟩ := hdoes
      have htarget := hto s rfl r.head (by
        show d.toUInt32.toNat ≤ m₁.frame.ip + 5 ∧ r.head = m₁.frame.ip + 5 - d.toUInt32.toNat
        omega)
      have := hopens.head_le
      have := r.offset_lt_definer
      have := r.start_eq
      omega
  have hhead₁ : m₁.frame.closure.function.chunk.code.LoopHead r.head := by
    rw [hframe]
    exact hhead
  have hlast := walks_head host (P := fun _ => True) hjump hhead₁ (by rw [hframe]; exact hd) hc.stack
    trivial trivial trivial
  obtain ⟨k', hr₂, -⟩ := hlast
  refine ⟨v, k + k', { m₁.movedTo (r.head + 6) with stack := m.stack }, hv, ?_,
    ⟨?_, hc.callers, hc.globals, rfl, hc.copy, hc.locals⟩, hsize⟩
  · rw [← Nat.add_assoc, run_add hrun₁, hr₂]
  · show { m₁.frame with ip := r.head + 6 } = _
    rw [hframe]

theorem Begins.copies (hb : Begun program options S base natives host m₀) {n : Nat}
    (h : Begins program options host m₀ r n m) (hcarry : r.turn.loop.carry = some (outer, inner))
    (hr : run host (n + 2) m₀ = (.unfinished, m')) :
    ∃ v, m.locals[m.frame.localsBase + outer.toNat]? = some v ∧ m'.locals = m.locals.push v := by
  obtain ⟨-, -, m₁, v, hm₁, -, -, hv, hlocals, -⟩ := h.defined hb hr
  obtain ⟨m₂, hm₂, hs⟩ := run_succ_iff.1 hm₁
  obtain rfl : m = m₂ := (Prod.mk.inj (h.visits.run.symm.trans hm₂)).2
  have hopening : r.turn.opening = ⟨.getLocal, outer⟩ := by rw [Turn.opening, hcarry]
  have hf := (h.visits.opens hb h.stands).opening
  rw [← h.ip, hopening] at hf
  have hlt := (hb.live.afterRun hb.harmless hm₂).slot_lt_size hf (.inl rfl)
  have hget := Array.getElem?_eq_getElem hlt
  have hs' := step_getLocal host hf hget
  rw [hs] at hs'
  cases hs'
  cases hv
  exact ⟨_, hget, hlocals⟩

end Machine

/-- The loop of a statement that carries its variable over, in a function of a program. -/
def Lowering.Carrying.round (q : Carrying) (path : List Making) (id : Ident) (body : Stmt) (span : Span) :
    Round := ⟨path, q.turnOffset, q.turn, ⟨id, q.loop, body, span⟩, q.head⟩

namespace Machine

section

variable {path : List Making} {o : Nat} {c : Context} {loop : Option (Loop × Nat)} {id : Ident}
  {init : Expr} {test update : Option Expr} {body : Stmt} {q : Carrying}

/-- Where control is when a turn goes on with the next one: at the end of its body, or at a
`continue`. -/
def GoesOn (strip : Bool) (r : Round) (m : Machine) : Prop :=
  m.frame.ip = r.start + (r.turn.inner strip r.context).1.size ∨
    ∃ s ∈ r.turn.spots strip r.head r.offset r.context, ∃ span,
      s.phrase = .statement (some (r.turn.loop, r.head)) (.exit .continue span) ∧ m.frame.ip = s.offset

theorem Visits.hands_over (hb : Begun program options S base natives host m₀)
    (h : Visits program options host m₀ t m path)
    (hs : ⟨o, c, .statement loop (.for id init test update body span)⟩ ∈
      (program.innermost options path).spots options.strip)
    (hq : carrying options.strip o c id init test update span = q)
    (hgoes : GoesOn options.strip (q.round path id body span) m) :
    ∃ n m₁ v k m', Begins program options host m₀ (q.round path id body span) n m₁ ∧ SameCall m₁ m ∧
      Persists host m₀ m₁.locals.size n t ∧ LastStored host m₀ m₁.locals.size n t v ∧
      Machine.run host (t + k) m₀ = (.unfinished, m') ∧
      Copies m (q.head + 6) m.stack (m.frame.localsBase + q.slot.toNat) v m' ∧
      m'.locals.size = m.frame.localsBase + q.slot.toNat + 1 := by
  obtain ⟨k, _, hmade⟩ := h.made
  obtain ⟨more, T, hloaded⟩ := hmade.loaded hb
  have hgood := hmade.isPath.good hb.good
  have hfits : q.Fits id := hq ▸ (hloaded.inner _ hs).statement _ _ rfl
  obtain ⟨inner, hcarry, hinner⟩ := hfits.carry
  set r := q.round path id body span
  have hin : r.In program options :=
    hgood.traversed.parts _ hs (Stmt.mem_spots_for _ _ hq).2.2
  have hreturns : r.Returns options.strip q.slot inner m.frame.closure.function.chunk.code m.frame.ip := by
    rcases hgoes with hip | ⟨s, hmem, span', hphrase, hip⟩
    · obtain ⟨y, d, rfl, hback, hd⟩ := hloaded.placed_back hgood hs hq
      rw [hip]
      exact hloaded.returns_end hgood hin hcarry hback hd
    · rw [hip]
      exact hloaded.returns_continue hgood hin hcarry hmem hphrase
  have hhead := (hgood.traversed.stands _ nofun hloaded.placed.left r.spot hin).head r.head rfl
  obtain ⟨v, k, m', hv, hrun, hcopies, hsize⟩ := h.carries hb hin hhead hreturns
  have hslot : r.slot = q.slot.toNat + 1 := hfits.locals
  have hposition : m.frame.localsBase + inner.toNat = m.frame.localsBase + r.slot := by
    rw [hinner]
    rfl
  rw [hposition] at hv
  obtain ⟨n, m₁, hbegins, hsame, hp⟩ := h.belongs hb hin hreturns.bounds.1 hreturns.bounds.2
    (Array.getElem?_eq_some_iff.1 hv).1
  obtain ⟨v', hlast, hcontains⟩ := hbegins.exists_lastStored hb hp.1 h.run
  have hvalue := hcontains.variable_eq hp
  rw [(hbegins.size hb).1, hsame.localsBase, hv] at hvalue
  obtain rfl : v = v' := Option.some.inj hvalue
  refine ⟨n, m₁, v, k, m', hbegins, hsame, hp, hlast, hrun, hcopies, ?_⟩
  rw [hsize, hslot, Nat.add_assoc]

end

end Machine

end StackScript
