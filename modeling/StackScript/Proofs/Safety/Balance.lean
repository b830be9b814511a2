import StackScript.Proofs.Safety.Carrying

/-!
# The stack of a turn

A turn of a loop goes on with the stack that its body began with. In code that has the body in its
place, but ends the program where the turn goes on, the body can be run on an empty stack, and a
program ends on an empty stack only. As the stack of a call is known by its type, whatever the type
stands on, the same holds of the body in a run.
-/

namespace StackScript

open Lowering Fragment

/-! ## Code that is cut off -/

theorem Machine.lt_size_of_fetch {chunk : Chunk Value} {ip next : Nat} {i : Instruction}
    (h : fetch chunk ip = .ok (i, next)) : ip < chunk.code.size := by
  refine Nat.lt_of_not_le fun hle => ?_
  unfold fetch at h
  rw [Array.getElem?_eq_none hle] at h
  cases h

theorem Code.Holds.transfer {code code' : Code} {o x : Nat} {bs cs : List UInt8} (h : code.Holds o bs)
    (h' : code'.Holds o bs) (hx : code.Holds x cs) (hle : o ≤ x)
    (hend : x + cs.length ≤ o + bs.length) : code'.Holds x cs := by
  have hcs : cs = (bs.drop (x - o)).take cs.length := by
    obtain ⟨as, after, hcode, rfl⟩ := h
    obtain ⟨as', after', hcode', rfl⟩ := hx
    have hdrop := congrArg (List.take cs.length ∘ List.drop as'.length) (hcode'.symm.trans hcode)
    simp only [Function.comp, List.append_assoc, List.drop_left, List.take_left] at hdrop
    rw [List.drop_append, List.drop_eq_nil_of_le hle, List.nil_append, List.drop_append,
      List.take_append_of_le_length (by rw [List.length_drop]; omega)] at hdrop
    exact hdrop
  rw [← List.take_append_drop (x - o) bs] at h'
  have hright := h'.right
  rw [← List.take_append_drop cs.length (bs.drop (x - o)), ← hcs, List.length_take,
    Nat.min_eq_left (by omega), Nat.add_sub_cancel' hle] at hright
  exact hright.left

namespace Round

variable {strip : Bool} {r : Round} {c : Value.Code} {n : Nat} {τ : List Slot}

variable (strip r) in
/-- Code with the body of a turn in its place. It ends the program where the turn goes on: at the end of the
body, and at the head of the loop with a flag. -/
def cut : Code :=
  (List.replicate r.head 0 ++ ([Opcode.pop.byte, Opcode.exitSuccess.byte] ++
    (List.replicate (r.start - (r.head + 2)) 0 ++
      ((linkFrom (r.start - r.head) (r.turn.inner strip r.context).1).bytes ++
        [Opcode.exitSuccess.byte])))).toArray

variable (strip r c) in
/-- The function of a closure with the code that is cut off, as a program. -/
def site : Site :=
  ⟨{ c.function with chunk := { c.function.chunk with code := r.cut strip } }, c.captures.length, true⟩

theorem head_add_two_le (h : r.head ≤ r.offset) : r.head + 2 ≤ r.start := by
  have := r.offset_lt_definer
  have := r.start_eq
  omega

theorem holds_cut (strip : Bool) (h : r.head ≤ r.offset) :
    (r.cut strip).Holds r.head [Opcode.pop.byte, Opcode.exitSuccess.byte] ∧
      (r.cut strip).Holds r.start
        ((linkFrom (r.start - r.head) (r.turn.inner strip r.context).1).bytes) ∧
      (r.cut strip).Holds (r.bodyEnd strip) [Opcode.exitSuccess.byte] := by
  have hle := head_add_two_le h
  have hhead : (r.cut strip).Holds r.head _ := ⟨List.replicate r.head 0, [], by
    rw [List.append_nil]
    rfl, List.length_replicate ..⟩
  have hbody := hhead.right.right
  rw [List.length_replicate, show r.head + [Opcode.pop.byte, Opcode.exitSuccess.byte].length +
    (r.start - (r.head + 2)) = r.start from Nat.add_sub_cancel' hle] at hbody
  have hend := hbody.right
  rw [length_bytes, size_linkFrom] at hend
  exact ⟨hhead.left, hbody.left, hend⟩

theorem size_cut (h : r.head ≤ r.offset) : (r.cut strip).size = r.bodyEnd strip + 1 := by
  have hle := head_add_two_le h
  have hsize : (r.cut strip).size = r.head + (2 + (r.start - (r.head + 2) +
      ((r.turn.inner strip r.context).1.size + 1))) := by
    rw [cut, List.size_toArray, List.length_append, List.length_append, List.length_append,
      List.length_append, length_bytes, size_linkFrom, List.length_replicate, List.length_replicate]
    rfl
  rw [hsize, bodyEnd]
  omega

section

variable (strip : Bool) (c : Value.Code) (h : r.head ≤ r.offset)

include h

theorem fetch_head : Machine.fetch (r.site strip c).function.chunk r.head = .ok (⟨.pop, ()⟩, r.head + 1) ∧
    Machine.fetch (r.site strip c).function.chunk (r.head + 1) = .ok (⟨.exitSuccess, ()⟩, r.head + 2) := by
  have hhead := (holds_cut strip h).1
  exact ⟨Machine.fetch_of_holds (i := ⟨.pop, ()⟩) trivial (Code.Holds.left hhead),
    Machine.fetch_of_holds (i := ⟨.exitSuccess, ()⟩) trivial hhead.tail⟩

theorem fetch_bodyEnd : Machine.fetch (r.site strip c).function.chunk (r.bodyEnd strip) =
    .ok (⟨.exitSuccess, ()⟩, r.bodyEnd strip + 1) :=
  Machine.fetch_of_holds (i := ⟨.exitSuccess, ()⟩) trivial (holds_cut strip h).2.2

theorem safe_bodyEnd_iff {strip : Bool} {c : Value.Code} : Safe (n + 1) (r.site strip c) (r.bodyEnd strip) τ ↔ τ = [] := by
  constructor
  · intro hsafe
    exact (hsafe.flow (fetch_bodyEnd strip c h)).2
  · rintro rfl
    exact ⟨_, _, fetch_bodyEnd strip c h, rfl, rfl⟩

theorem safe_head_iff {strip : Bool} {c : Value.Code} : Safe (n + 2) (r.site strip c) r.head τ ↔ ∃ s, τ = [s] := by
  obtain ⟨hpop, hexit⟩ := fetch_head strip c h
  constructor
  · intro hsafe
    obtain ⟨s, σ, rfl, hnext⟩ := hsafe.flow hpop
    exact ⟨s, congrArg (s :: ·) (hnext.flow hexit).2⟩
  · rintro ⟨s, rfl⟩
    exact ⟨_, _, hpop, s, [], rfl, _, _, hexit, rfl, rfl⟩

end

end Round

/-! ## The body of a turn -/

section

variable {limits : Limits} {strip : Bool} {p : Part} {first : Tally} {c : Value.Code}
  {more : Fragment} {T : Nat → Tally → Prop} {r : Round} {n k : Nat} {τ : List Slot} {site : Site}

theorem Part.Loaded.placed_cut (h : p.Loaded limits strip first c.function more T) (hp : p.Good strip)
    (hr : r.spot ∈ p.spots strip) : Placed (r.site strip c).code r.start
      (linkFrom (r.start - r.head) (r.turn.inner strip r.context).1) := by
  obtain ⟨hle, hplaced⟩ := h.placed_round hp hr
  exact ⟨(Round.holds_cut strip hle).2.1, hplaced.tail.tail.linkLeft.near⟩

theorem Part.Loaded.safe_start (h : p.Loaded limits strip first c.function more T) (hp : p.Good strip)
    (hr : r.spot ∈ p.spots strip) (hc : (p.captures strip).length = c.captures.length) :
    Safe n (r.site strip c) r.start [] := by
  obtain ⟨hle, -⟩ := h.placed_round hp hr
  have hspans := hp.spans hr
  have hclean : (r.turn.inner strip r.context).2.Clean :=
    (evolves_leaveScope r.turn.span).clean _ (hspans.clean hp)
  have hstep := (evolves_leaveScope r.turn.span).step _ (hspans.clean hp)
  have hready : Ready (0 + (1 + r.turn.body.size)) (r.site strip c) r.context
      (r.turn.inner strip r.context).2 := by
    refine ⟨hclean, (hspans.room hp).mono ?_, hspans.linked hp, ⟨_, ?_, h.constants⟩, ?_⟩
    · show _ ≤ r.turn.body.size + 1 + 1
      omega
    · exact hstep.constants.trans hspans.constants
    · show _ ≤ c.captures.length
      rw [← hc]
      exact (hstep.captures.trans hspans.captures).length_le
  have hrests := (Yields.andThen evolves_enter fun _ => .andThen (evolves_addLocal r.turn.id.name) fun _ =>
    yields_statement strip (some r.turn.loop) r.turn.body (r.site strip c)).gives r.context hready
  refine hrests [] nofun n r.start (r.start - r.head) (h.placed_cut hp hr) ?_ fun _ => ?_
  · rintro _ ⟨⟩
    refine ⟨r.head, Nat.add_sub_cancel' (Nat.le_of_add_right_le (Round.head_add_two_le hle)), fun m _ => ?_⟩
    exact Safe.anti ((Round.safe_head_iff (n := m) hle).2 ⟨_, rfl⟩) (Nat.le_add_right ..)
  · exact Safe.anti ((Round.safe_bodyEnd_iff (n := n) hle).2 rfl) (Nat.le_add_right ..)

/-- Code that drops locals leaves the stack as it is. -/
theorem Safe.drops {f : Fragment} {o : Nat} (hf : f.Drops) (hp : Placed site.code o f)
    (h : Safe (n + f.length) site o τ) : Safe n site (o + f.size) τ := by
  induction f generalizing o with
  | nil => exact h
  | cons q f ih =>
    obtain ⟨⟨op, args⟩, span, rfl, hi⟩ := hf q (List.mem_cons_self ..)
    have hflow := Safe.flow (n := n + f.length) h (hp.fetch (by cases op <;> trivial))
    have hnext : Safe (n + f.length) site (o + Instruction.size ⟨op, args⟩) τ := by
      cases op <;> first | exact hflow | cases hi
    have := ih (fun q hq => hf q (List.mem_cons_of_mem _ hq)) hp.tail hnext
    rwa [Nat.add_assoc] at this

theorem Lowering.exitLoop_continue_of_none {loop : Loop} (hcarry : loop.carry = none) (span : Span)
    (c : Context) : (exitLoop (some loop) .continue span c).1 =
      releaseAfter 0 span (c.frame.scope.above loop.depth) ++ emit ⟨.pushTrue, ()⟩ span ++ [.exit span] := by
  obtain ⟨depth, carry⟩ := loop
  obtain rfl : carry = none := hcarry
  rfl

theorem Part.Loaded.continues (h : p.Loaded limits strip first c.function more T)
    (hp : p.Good strip) (hr : r.spot ∈ p.spots strip) (hcarry : r.turn.loop.carry = none) {s : Spot}
    {span : Span} (hs : s ∈ r.turn.spots strip r.head r.offset r.context)
    (hphrase : s.phrase = .statement (some (r.turn.loop, r.head)) (.exit .continue span)) :
    ∃ (released : Fragment) (d : Nat), released.Drops ∧ Placed c.function.chunk.code s.offset
      (released ++ emit ⟨.pushTrue, ()⟩ span ++ [.jump .back d span]) ∧
      r.head + d = s.offset + released.size + 6 ∧ r.start ≤ s.offset ∧
      s.offset + released.size + 6 ≤ r.bodyEnd strip ∧
      ∃ n, ∀ τ, Safe n (r.site strip c) s.offset τ → τ = [] := by
  set released := releaseAfter 0 span (s.context.frame.scope.above r.turn.loop.depth)
  have hclosed : (released ++ emit ⟨.pushTrue, ()⟩ span).Closed :=
    (closed_releaseAfter 0 span _).append (closed_emit _ _)
  obtain ⟨d, hplaced, hd, hstart, hstop⟩ := h.placed_continue hp hr hs hphrase
    (exitLoop_continue_of_none hcarry span s.context) hclosed
  have hsize : (released ++ emit ⟨.pushTrue, ()⟩ span).size = released.size + 1 := size_append ..
  rw [hsize] at hd hstop
  have hdrops := drops_releaseAfter 0 span (s.context.frame.scope.above r.turn.loop.depth)
  refine ⟨released, d, hdrops, hplaced, hd, hstart, hstop, 4 + released.length, fun τ hsafe => ?_⟩
  obtain ⟨hle, hround⟩ := h.placed_round hp hr
  have hcut : Placed (r.site strip c).code s.offset
      (released ++ emit ⟨.pushTrue, ()⟩ span ++ [.jump .back d span]) := by
    refine ⟨hround.tail.tail.linkLeft.bytes.transfer (Round.holds_cut strip hle).2.1 hplaced.bytes hstart ?_,
      hplaced.near⟩
    rw [length_bytes, length_bytes, size_linkFrom, size_append, hsize]
    exact hstop
  -- the flag is pushed, and the jump leads to the head
  have hpush := hcut.left.right.fetch (i := ⟨.pushTrue, ()⟩) trivial
  obtain ⟨hback, hdistance⟩ := hcut.right.fetch_jump
  rw [hsize, ← Nat.add_assoc] at hback
  obtain ⟨t, hflag⟩ : ∃ t, Safe 3 (r.site strip c) (s.offset + released.size + 1) (t :: τ) :=
    ((hsafe.drops hdrops hcut.left.left).flow hpush).elim (⟨_, ·⟩) (⟨_, ·⟩)
  have hhead : Safe 2 (r.site strip c) (s.offset + released.size + 1 + 5 - d.toUInt32.toNat) (t :: τ) :=
    (hflag.flow hback).2.2
  rw [hdistance, show s.offset + released.size + 1 + 5 - d = r.head by omega] at hhead
  obtain ⟨_, he⟩ := (Round.safe_head_iff (n := 0) hle).1 hhead
  exact (List.cons.inj he).2

end

namespace Machine

variable {program : Program} {options : Options} {host : Host} {m₀ m m' m₁ : Machine} {n t : Nat}
  {S : Script} {base : Store} {natives : Nat} {r : Round}

theorem Begins.flows (hb : Begun program options S base natives host m₀)
    (h : Begins program options host m₀ r n m) (hr₁ : run host (n + 2) m₀ = (.unfinished, m₁))
    (hp : Persists host m₀ m.locals.size n t) (hr : run host t m₀ = (.unfinished, m'))
    (hbelow : m'.frame.localsBase ≤ m.locals.size)
    (hbefore : ∀ u m₂, n + 2 ≤ u → u < t → run host u m₀ = (.unfinished, m₂) → SameCall m m₂ →
      m₂.frame.ip ≠ r.bodyEnd options.strip) (k : Nat) :
    ∃ τ, Stands (· = m₁.stack) m₁.stack.length τ m'.stack ∧
      Safe k (r.site options.strip m.frame.closure) m'.frame.ip τ := by
  obtain ⟨_, _, hmade⟩ := h.visits.made
  obtain ⟨more, T, hloaded⟩ := hmade.loaded hb
  have hgood := hmade.isPath.good hb.good
  -- the step before is earlier, and safe for one step more
  induction t using Nat.strongRecOn generalizing m' k with
  | ind t ih =>
  rcases Nat.eq_or_lt_of_le hp.1 with rfl | hlt
  · obtain rfl : m' = m₁ := (Prod.mk.inj (hr.symm.trans hr₁)).2
    refine ⟨[], ⟨[], m'.stack, rfl, rfl, .nil, rfl⟩, ?_⟩
    rw [(h.defined hb hr).2.1]
    exact hloaded.safe_start hgood h.stands (hmade.length_captures hb)
  obtain ⟨u, m₂, i, next, hprecedes, hpersists, hbelow₂⟩ := h.precedes hb hp hr hbelow hlt
  obtain ⟨τ, hstack, hsafe⟩ := ih u hprecedes.lt hpersists hprecedes.runs hbelow₂
    (fun w m₃ hw hlt => hbefore w m₃ hw (Nat.lt_trans hlt hprecedes.lt)) (k + 1)
  obtain ⟨hsame, hstart, -⟩ := h.inside hb hpersists hprecedes.runs hbelow₂
  have hcut : m₂.frame.ip < r.bodyEnd options.strip + 1 := by
    obtain ⟨_, _, hf, -⟩ := id hsafe
    rw [← Round.size_cut (h.visits.opens hb h.stands).head_le]
    exact lt_size_of_fetch hf
  have hne := hbefore u m₂ hpersists.1 hprecedes.lt hprecedes.runs hsame
  obtain ⟨s, -, hconfines⟩ := (h.visits.sameCall hprecedes.runs hsame.symm).confines hb h.stands
  have hfetch : fetch (r.site options.strip m.frame.closure).function.chunk m₂.frame.ip = .ok (i, next) :=
    (hconfines.body hstart (by omega) _ (hloaded.placed_cut hgood h.stands)).trans hprecedes.fetched
  obtain ⟨σ, hsafe', hstack'⟩ := hprecedes.flows (r.site options.strip m.frame.closure) _ _ _ _ _
    (by rw [← hprecedes.closure, ← hsame.closure]; exact ⟨rfl, rfl⟩) hstack (hsafe.flow hfetch)
  exact ⟨σ, hstack', hsafe'⟩

theorem Begins.stack_eq (hb : Begun program options S base natives host m₀)
    (h : Begins program options host m₀ r n m) (hcarry : r.turn.loop.carry = none)
    (hr₁ : run host (n + 2) m₀ = (.unfinished, m₁)) (hp : Persists host m₀ m.locals.size n t)
    (hr : run host t m₀ = (.unfinished, m')) (hsame : SameCall m m')
    (hgoes : GoesOn options.strip r m')
    (hbefore : ∀ u m₂, n + 2 ≤ u → u < t → run host u m₀ = (.unfinished, m₂) → SameCall m m₂ →
      ¬GoesOn options.strip r m₂) : m'.stack = m₁.stack := by
  have hflows := h.flows hb hr₁ hp hr (by rw [← hsame.localsBase, (h.size hb).1]; exact Nat.le_add_right ..)
    fun u m₂ hle hlt hr₂ hsame₂ hip => hbefore u m₂ hle hlt hr₂ hsame₂ (.inl hip)
  have hempty {k : Nat} (hk : ∀ τ, Safe k (r.site options.strip m.frame.closure) m'.frame.ip τ → τ = []) :
      m'.stack = m₁.stack := by
    obtain ⟨τ, ⟨top, _, hst, -, htop, rfl⟩, hsafe⟩ := hflows k
    obtain rfl := hk τ hsafe
    cases htop
    exact hst
  rcases hgoes with hip | ⟨s, hs, span, hphrase, hip⟩
  · refine hempty (k := 1) fun τ hsafe => ?_
    rw [hip] at hsafe
    exact (Round.safe_bodyEnd_iff (h.visits.opens hb h.stands).head_le).1 hsafe
  · obtain ⟨_, _, hmade⟩ := h.visits.made
    obtain ⟨more, T, hloaded⟩ := hmade.loaded hb
    obtain ⟨-, -, -, -, -, -, -, k, hk⟩ :=
      hloaded.continues (hmade.isPath.good hb.good) h.stands hcarry hs hphrase
    exact hempty (hip ▸ hk)

end Machine

end StackScript
