import Mathlib.Order.Nat
import StackScript.Proofs.Machine.Iterating
import StackScript.Proofs.Safety.Balance
import StackScript.Proofs.Safety.Iteration

/-!
# The turns of a loop over a range

A loop over a range has one turn for each element, in order, if its turns go on. A turn goes on
where its body is at the end, or at a `continue`. From there the code of the loop drops the locals
of the turn, and finds the range on the stack, since a turn goes on with the stack that its body has
begun with.
-/

namespace StackScript

open Lowering Fragment

/-- The code of a loop over a range, from behind the code of the range to an end. -/
structure Round.Spreads (strip : Bool) (r : Round) (chunk : Chunk Value) (p e : Nat) : Prop where
  head : r.head = p + 6
  offset : r.offset = p + 18
  carry : r.turn.loop.carry = none
  stop : r.stop strip + 7 = e
  iterator : Machine.fetch chunk p = .ok (⟨.makeIterator, ()⟩, p + 1)
  jump : Machine.fetch chunk (p + 1) = .ok (⟨.jump, 7⟩, p + 6)
  advance : Machine.fetch chunk (p + 12) = .ok (⟨.advance, ()⟩, p + 13)
  test : ∃ d, Machine.fetch chunk (p + 13) = .ok (⟨.jumpHasNoNext, d⟩, p + 18) ∧ p + 19 + d.toNat = e
  released : Placed chunk.code (r.bodyEnd strip) (r.turn.rest strip r.context)
  back : ∃ d, Machine.fetch chunk (r.stop strip) = .ok (⟨.loop, d⟩, r.stop strip + 5) ∧
    p + 12 + d.toNat = r.stop strip + 5
  out : Machine.fetch chunk (r.stop strip + 6) = .ok (⟨.pop, ()⟩, e)

section

variable {limits : Limits} {strip : Bool} {p : Part} {first : Tally} {g : Function Value}
  {more : Fragment} {T : Nat → Tally → Prop} {o : Nat} {c : Context} {loop : Option (Loop × Nat)}
  {id : Ident} {iterable : Expr} {body : Stmt} {span : Span}

end

namespace Machine

section

variable (program : Program) (options : Options) (host : Host) (m₀ : Machine)

/-- From a step of the run on each turn of a loop goes on, until the call has come to an offset. -/
def TurnsGoOn (r : Round) (e t : Nat) (m : Machine) : Prop :=
  ∀ u m₁, t ≤ u → Begins program options host m₀ r u m₁ → SameCall m m₁ →
    (∀ w m₂, t ≤ w → w < u → run host w m₀ = (.unfinished, m₂) → SameCall m m₂ → m₂.frame.ip ≠ e) →
    ∃ t' m₂, Persists host m₀ m₁.locals.size u t' ∧ run host t' m₀ = (.unfinished, m₂) ∧
      SameCall m m₂ ∧ GoesOn options.strip r m₂

/-- The steps from one to another at which the call begins a turn of a loop. It does not come to an offset
in between. In each turn the body begins with an integer in the slot of the variable. -/
structure Turns (r : Round) (e : Nat) (m : Machine) (value : Nat → Int) (t t' : Nat)
    (turns : List Nat) : Prop where
  le : t ≤ t'
  sorted : turns.Pairwise (· < ·)
  within : ∀ u ∈ turns, t ≤ u ∧ u < t'
  exact : ∀ u m₁, t ≤ u → u < t' → run host u m₀ = (.unfinished, m₁) → SameCall m m₁ →
    m₁.frame.ip ≠ e ∧ (m₁.frame.ip = r.offset ↔ u ∈ turns)
  values : ∀ j u, turns[j]? = some u → ∃ m₁ m₂ v, Begins program options host m₀ r u m₁ ∧
    run host (u + 2) m₀ = (.unfinished, m₂) ∧ SameCall m m₂ ∧ m₂.frame.ip = r.start ∧
    m₂.locals[m.frame.localsBase + r.slot]? = some (.int v) ∧ v.toInt = value j

end

variable {program : Program} {options : Options} {host : Host} {m₀ m m₁ m₂ : Machine} {r : Round}
  {S : Script} {base : Store} {natives : Nat} {p e t t₁ t₂ : Nat} {f : Nat → Int} {us vs : List Nat}

theorem Turns.append (h : Turns program options host m₀ r e m f t t₁ us)
    (h' : Turns program options host m₀ r e m (fun j => f (us.length + j)) t₁ t₂ vs) :
    Turns program options host m₀ r e m f t t₂ (us ++ vs) where
  le := Nat.le_trans h.le h'.le
  sorted := List.pairwise_append.2 ⟨h.sorted, h'.sorted, fun u hu v hv =>
    Nat.lt_of_lt_of_le (h.within u hu).2 (h'.within v hv).1⟩
  within u hu := by
    have hle := h.le
    have hle' := h'.le
    rcases List.mem_append.1 hu with hu | hu
    · have := h.within u hu
      omega
    · have := h'.within u hu
      omega
  exact u m₁ hu hu' hr hsame := by
    rw [List.mem_append]
    by_cases hlt : u < t₁
    · obtain ⟨hne, hat⟩ := h.exact u m₁ hu hlt hr hsame
      exact ⟨hne, hat.trans (or_iff_left fun hv => Nat.not_lt.2 (h'.within u hv).1 hlt).symm⟩
    · obtain ⟨hne, hat⟩ := h'.exact u m₁ (Nat.not_lt.1 hlt) hu' hr hsame
      exact ⟨hne, hat.trans (or_iff_right fun hv => hlt (h.within u hv).2).symm⟩
  values j u hu := by
    rcases Nat.lt_or_ge j us.length with hlt | hle
    · rw [List.getElem?_append_left hlt] at hu
      exact h.values j u hu
    · rw [List.getElem?_append_right hle] at hu
      have := h'.values _ u hu
      rwa [Nat.add_sub_cancel' hle] at this

theorem Walks.turns (hr : run host t m₀ = (.unfinished, m₁))
    (h : Walks host (fun x => x ≠ e ∧ x ≠ r.offset) m₁ m₂) (f : Nat → Int) :
    ∃ t', run host t' m₀ = (.unfinished, m₂) ∧
      Turns program options host m₀ r e m f t t' [] := by
  obtain ⟨k, hk, hP⟩ := h
  refine ⟨t + k, by rw [run_add hr, hk], Nat.le_add_right .., .nil, nofun, fun u m' hu hu' hr' _ => ?_,
    nofun⟩
  obtain ⟨j, rfl⟩ := Nat.exists_eq_add_of_le hu
  rw [run_add hr] at hr'
  obtain ⟨hne, hat⟩ := hP j (Nat.lt_of_add_lt_add_left hu') m' hr'
  exact ⟨hne, iff_of_false hat List.not_mem_nil⟩

section

variable (hb : Begun program options S base natives host m₀)

include hb

theorem Visits.returns {P : Nat → Prop} (h : Visits program options host m₀ t m r.path)
    (hr : r.In program options) (hl : r.Spreads options.strip m.frame.closure.function.chunk p e)
    (hgoes : GoesOn options.strip r m)
    (hP : ∀ x, x = p + 6 ∨ x = p + 11 ∨ r.start ≤ x ∧ x ≤ r.stop options.strip → P x) :
    ∃ m', Walks host P m m' ∧ SameCall m m' ∧ m'.frame.ip = p + 12 ∧ m'.stack = m.stack := by
  obtain ⟨_, _, hmade⟩ := h.made
  obtain ⟨more, T, hloaded⟩ := hmade.loaded hb
  have hgood := hmade.isPath.good hb.good
  have hlive := hb.live.afterRun hb.harmless h.run
  have hhead := hl.head
  rcases hgoes with hip | ⟨s, hs, span, hphrase, hip⟩
  · have hip : m.frame.ip = r.bodyEnd options.strip := hip
    have hstart : r.start ≤ r.bodyEnd options.strip := Nat.le_add_right ..
    have hsize := r.start_add_size options.strip
    rw [size_append, ← Nat.add_assoc] at hsize
    have hsize : r.bodyEnd options.strip + (r.turn.rest options.strip r.context).size =
      r.stop options.strip := hsize
    have hdrops : (r.turn.rest options.strip r.context).Drops := by
      simp only [Turn.rest, hl.carry]
      exact drops_leaveScope _ _
    obtain ⟨m₁, hwalks, htrims, -⟩ := hlive.drops (P := P) hb.harmless hdrops
      (hip ▸ hl.released) fun x hx hlt => hP x (.inr (.inr (by omega)))
    rw [hip, hsize] at htrims
    have hframe := htrims.frame
    obtain ⟨d, hback, hd⟩ := hl.back
    have hs := step_loop host (m := m₁) (by rw [hframe]; exact hback) hd
    refine ⟨_, hwalks.trans (.single (hP _ (.inr (.inr ?_))) hs), ⟨?_, ?_, htrims.callers.symm⟩, rfl,
      htrims.stack⟩
    · rw [hframe]
      exact ⟨show r.start ≤ r.stop options.strip by omega, Nat.le_refl _⟩
    · show _ = m₁.frame.closure
      rw [hframe]
    · show _ = m₁.frame.localsBase
      rw [hframe]
  · obtain ⟨released, d, hdrops, hplaced, hd, hstart, hstop, -⟩ :=
      hloaded.continues hgood hr hl.carry hs hphrase
    have hle := r.bodyEnd_le_stop options.strip
    rw [← hip] at hplaced hd hstart hstop
    obtain ⟨m₁, hwalks, htrims, -⟩ := hlive.drops (P := P) hb.harmless hdrops hplaced.left.left
      fun x hx hlt => hP x (.inr (.inr (by omega)))
    have hframe := htrims.frame
    have hpush := step_pushTrue host (m := m₁) (by
      rw [hframe]
      exact hplaced.left.right.fetch (i := ⟨.pushTrue, ()⟩) trivial)
    have hback := hplaced.right
    rw [size_append, ← Nat.add_assoc] at hback
    have hhead := (hgood.traversed.stands _ (by rintro _ ⟨⟩) hloaded.placed.left r.spot hr).head r.head rfl
    rw [hl.head] at hhead
    have hd : p + 6 + d = m.frame.ip + released.size + 1 + 5 := by omega
    have hclosure : m.frame.closure = m₁.frame.closure := by rw [hframe]
    rw [hclosure] at hback hhead
    have hlast := walks_head host (P := P) (m := { m₁.movedTo (m.frame.ip + released.size + 1) with
      stack := .bool true :: m₁.stack }) hback hhead hd rfl (hP _ (.inr (.inr ⟨?_, ?_⟩)))
      (hP _ (.inl rfl)) (hP _ (.inr (.inl rfl)))
    · refine ⟨_, hwalks.trans ((Walks.single (hP _ (.inr (.inr ?_))) hpush).trans hlast),
        ⟨?_, ?_, htrims.callers.symm⟩, rfl, htrims.stack⟩
      · rw [hframe]
        show r.start ≤ m.frame.ip + released.size ∧ m.frame.ip + released.size ≤ _
        omega
      · show _ = m₁.frame.closure
        rw [hframe]
      · show _ = m₁.frame.localsBase
        rw [hframe]
    · show _ ≤ m.frame.ip + released.size + 1
      omega
    · show m.frame.ip + released.size + 1 ≤ _
      omega

/-- A turn begins when there is a next element. -/
theorem Begins.turn (h : Begins program options host m₀ r t m₁) (hsame : SameCall m m₁)
    (hl : r.Spreads options.strip m.frame.closure.function.chunk p e)
    {rg : Range} {st : List Value} (hst : m₁.stack = .range rg :: st)
    (hgo : ∃ t' m₂, Persists host m₀ m₁.locals.size t t' ∧ run host t' m₀ = (.unfinished, m₂) ∧
      SameCall m m₂ ∧ GoesOn options.strip r m₂) (hvalue : rg.next.toInt = f 0) :
    ∃ t' m₂, run host t' m₀ = (.unfinished, m₂) ∧ SameCall m m₂ ∧ m₂.frame.ip = p + 13 ∧
      m₂.stack = .range rg.advance :: st ∧
      Turns program options host m₀ r e m f t t' [t] := by
  have hopens := h.visits.opens hb h.stands
  have hsize := (h.size hb).1
  rw [← hsame.localsBase] at hsize
  -- the variable is defined
  have hopening : r.turn.opening = ⟨.getNext, ()⟩ := by rw [Turn.opening, hl.carry]
  have hget := step_getNext host (by rw [← hopening, h.ip]; exact hopens.opening) hst
  have hdefine := step_defLocal host (m := { m₁.movedTo r.definer with
    stack := .int rg.next :: m₁.stack }) hopens.define rfl
  have hrun₁ := run_succ_iff.2 ⟨m₁, h.visits.run, hget⟩
  have hrun₂ := run_succ_iff.2 ⟨_, hrun₁, hdefine⟩
  -- the first place where the turn goes on
  classical
  obtain ⟨t', m₂, hp, hgoes⟩ := hgo
  have hex : ∃ t', Persists host m₀ m₁.locals.size t t' ∧ ∃ m₂, run host t' m₀ = (.unfinished, m₂) ∧
    SameCall m m₂ ∧ GoesOn options.strip r m₂ := ⟨t', hp, m₂, hgoes⟩
  obtain ⟨hp, m₃, hr₃, hsame₃, hgoes⟩ := Nat.find_spec hex
  have hkept {u : Nat} (hle : t + 2 ≤ u) (hlt : u < Nat.find hex) : Persists host m₀ m₁.locals.size t u :=
    ⟨hle, fun w hw hlt' => hp.2 w hw (Nat.lt_trans hlt' hlt)⟩
  have hstack := h.stack_eq hb hl.carry hrun₂ hp hr₃ (hsame.symm.trans hsame₃) hgoes
    fun u m₂ hle hlt hr₂ hsame₂ hgoes₂ =>
      Nat.find_min hex hlt ⟨hkept hle hlt, m₂, hr₂, hsame.trans hsame₂, hgoes₂⟩
  -- the way back
  have hle := hp.1
  have hstart := r.offset_lt_definer
  have hsucc := r.start_eq
  have hsize' := r.start_add_size options.strip
  have hhead := hl.head
  have hoffset := hl.offset
  have hstop := hl.stop
  obtain ⟨m₄, hwalks, hsame₄, hip₄, hst₄⟩ := (h.visits.sameCall hr₃ (hsame₃.symm.trans hsame)).returns hb
    h.stands (hsame₃.closure ▸ hl) hgoes (P := fun x => x ≠ e ∧ x ≠ r.offset) fun x hx => by omega
  have hsame₄ := hsame₃.trans hsame₄
  have hadvance := step_advance host (m := m₄) (by rw [hip₄, ← hsame₄.closure]; exact hl.advance)
    (hst₄.trans (hstack.trans hst))
  have hone : Turns program options host m₀ r e m f t (Nat.find hex) [t] := by
    refine ⟨by omega, List.pairwise_singleton .., fun u hu => ?_, fun u m' hu hu' hr' hsame' => ?_,
      fun j u hu => ?_⟩
    · obtain rfl := List.mem_singleton.1 hu
      omega
    · rw [List.mem_singleton]
      obtain rfl | rfl | hle : u = t ∨ u = t + 1 ∨ t + 2 ≤ u := by omega
      · obtain rfl : m₁ = m' := (Prod.mk.inj (h.visits.run.symm.trans hr')).2
        exact ⟨by rw [h.ip]; omega, iff_of_true h.ip rfl⟩
      · obtain rfl := (Prod.mk.inj (hrun₁.symm.trans hr')).2
        exact ⟨show r.definer ≠ e by omega, iff_of_false (Nat.ne_of_gt hstart) (by omega)⟩
      · obtain ⟨-, hge, hlt⟩ := h.inside hb (hkept hle hu') hr' (by rw [← hsame'.localsBase]; omega)
        omega
    · obtain ⟨rfl, rfl⟩ : j = 0 ∧ u = t := by
        cases j with
        | zero => exact ⟨rfl, (Option.some.inj hu).symm⟩
        | succ j => cases hu
      refine ⟨m₁, _, rg.next, h, hrun₂, { hsame with }, rfl, ?_, hvalue⟩
      rw [← hsize]
      exact Array.getElem?_push_size
  obtain ⟨t₂, hr₂, hturns⟩ := Walks.turns hr₃
    (hwalks.trans (.single (by rw [hip₄]; omega) hadvance)) fun j => f (1 + j)
  exact ⟨t₂, _, hr₂, { hsame₄ with }, rfl, rfl, hone.append hturns⟩

theorem TurnsGoOn.turns {first last : Int64} {inclusive : Bool} {st : List Value} {t₀ : Nat}
    (hgo : TurnsGoOn program options host m₀ r e t₀ m) (hv : Visits program options host m₀ t₀ m r.path)
    (hin : r.In program options) (hl : r.Spreads options.strip m.frame.closure.function.chunk p e)
    (n : Nat) {i : Nat} (hi : i + n = Range.count first last inclusive) {us : List Nat}
    (hdone : Turns program options host m₀ r e m
      (fun j => first.toInt + j * Range.direction first last) t₀ t us) (hus : us.length = i)
    (hr : run host t m₀ = (.unfinished, m₁)) (hsame : SameCall m m₁) (hip : m₁.frame.ip = p + 13)
    (hst : m₁.stack = .range (Range.advance^[i] (.between first last inclusive)) :: st) :
    ∃ t' m₂ turns, run host t' m₀ = (.unfinished, m₂) ∧ SameCall m m₂ ∧ m₂.frame.ip = e ∧
      m₂.stack = st ∧ turns.length = Range.count first last inclusive ∧
      Turns program options host m₀ r e m (fun j => first.toInt + j * Range.direction first last)
        t₀ t' turns := by
  obtain ⟨d, htest, hd⟩ := hl.test
  have hoffset := hl.offset
  have hstop := hl.stop
  have hstart := r.offset_lt_definer
  have hsucc := r.start_eq
  have hsize := r.start_add_size options.strip
  induction n generalizing i t m₁ us with
  | zero =>
    rw [hsame.closure, ← hip] at htest
    have hout := hl.out
    rw [hsame.closure] at hout
    have hquiet : m₁.frame.ip ≠ e ∧ m₁.frame.ip ≠ r.offset := by omega
    have hleave : step host m₁ = .ok .running (m₁.movedTo (r.stop options.strip + 6)) := by
      have hnone := (Range.hasNext_iterate first last inclusive i).1
      rw [step_jumpHasNoNext htest hst, if_neg fun h => absurd (hnone.1 h) (by omega),
        show p + 18 + d.toNat = r.stop options.strip + 6 by omega]
    have hpop : step host (m₁.movedTo (r.stop options.strip + 6)) =
        .ok .running { m₁.movedTo e with stack := st } := step_pop host hout hst
    obtain ⟨t', hr', hturns⟩ := Walks.turns hr ((Walks.single hquiet hleave).trans (.single
      (show r.stop options.strip + 6 ≠ e ∧ r.stop options.strip + 6 ≠ r.offset by omega) hpop)) _
    refine ⟨t', _, us, hr', { hsame with }, rfl, rfl, hus.trans hi, ?_⟩
    have := hdone.append hturns
    rwa [List.append_nil] at this
  | succ n ih =>
    obtain ⟨hmore, hvalue⟩ := Range.hasNext_iterate first last inclusive i
    have hquiet : m₁.frame.ip ≠ e ∧ m₁.frame.ip ≠ r.offset := by omega
    have hnext : step host m₁ = .ok .running (m₁.movedTo (p + 18)) := by
      rw [step_jumpHasNoNext (by rw [hip, ← hsame.closure]; exact htest) hst, if_pos (hmore.2 (by omega))]
    obtain ⟨t₁, hr₁, hturns⟩ : ∃ t₁, run host t₁ m₀ = (.unfinished, m₁.movedTo (p + 18)) ∧
        Turns program options host m₀ r e m
          (fun j => first.toInt + (us.length + j : Nat) * Range.direction first last) t t₁ [] :=
      Walks.turns hr (.single hquiet hnext) _
    have hdone := hdone.append hturns
    rw [List.append_nil] at hdone
    have hsame₁ : SameCall m (m₁.movedTo (p + 18)) := { hsame with }
    have hbegins : Begins program options host m₀ r t₁ (m₁.movedTo (p + 18)) :=
      ⟨hv.sameCall hr₁ hsame₁.symm, hin, hoffset.symm⟩
    obtain ⟨t₂, m₂, hr₂, hsame₂, hip₂, hst₂, hturn⟩ := hbegins.turn hb hsame₁ hl hst
      (f := fun j => first.toInt + (us.length + j : Nat) * Range.direction first last)
      (hgo t₁ _ hdone.le hbegins hsame₁ fun w m' hw hlt hr' hsame' => (hdone.exact w m' hw hlt hr' hsame').1)
      (by rw [hus]; exact hvalue (by omega))
    rw [← Function.iterate_succ_apply' Range.advance] at hst₂
    exact ih (by omega) (hdone.append hturn) (by rw [List.length_append, hus]; rfl) hr₂ hsame₂ hip₂ hst₂

end

end Machine

namespace Machine

end Machine

end StackScript
