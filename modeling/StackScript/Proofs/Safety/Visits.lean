import StackScript.Proofs.Safety.Provenance

/-!
# How control comes to an instruction

When a call is executed, it has just begun, or there was a step before at which it was executed: the
last step of the run, or the one that began a call which has come to its end meanwhile. The
instruction of that step has led to the present one, and of the locals that the call had then none
has been dropped in between. The calls in between leave its stack alone, so the flow of types
decides what is on it now.
-/

namespace StackScript

/-- The part of a stack on which a call stands. -/
def Frame.below (f : Frame) (stack : List Value) : List Value :=
  stack.drop (stack.length - f.stackBase)

theorem Stands.below_eq {f : Frame} {τ : List Slot} {stack rest : List Value}
    (h : Stands (· = rest) f.stackBase τ stack) : f.below stack = rest := by
  obtain ⟨top, _, rfl, hb, -, rfl⟩ := h
  rw [Frame.below, ← hb, List.length_append, Nat.add_sub_cancel, List.drop_left]

namespace Machine

variable {S : Script} {base : Store} {natives n t : Nat} {m m' m₀ : Machine} {host : Host}
  {i : Instruction} {next : Nat}

/-! ## The stack of a call -/

section

variable {site : Site} {A : Nat → List Slot → Prop} {E : Site → Prop} {W : List Value → Prop} {low : Nat}
  {Q : Value.Code → Prop} {τ : List Slot}

theorem Proceeds.stays (h : Proceeds site A W low Q base m next .running m')
    (hc : m'.callers = m.callers) : ∃ σ, A m'.frame.ip σ ∧ Stands W low σ m'.stack := by
  cases h with
  | @goes t σ _ hframe _ _ hsafe hstack => exact ⟨σ, by rwa [hframe], hstack⟩
  | enters _ _ _ hcallers => exact absurd (hcallers.symm.trans hc) (List.cons_ne_self _ _)
  | leaves hcallers => exact absurd (hcallers.symm.trans hc.symm) (List.cons_ne_self _ _)

theorem Proceeds.calls {f : Frame} (h : Proceeds site A W low Q base m next .running m')
    (hc : m'.callers = f :: m.callers) : m'.frame.stackBase = m'.stack.length ∧
      ∃ σ, A next (.any :: σ) ∧ Stands W low σ m'.stack := by
  cases h with
  | goes _ hcallers => exact absurd (hc.symm.trans hcallers) (List.cons_ne_self _ _)
  | @enters σ _ _ _ hbase _ _ hsafe hstack => exact ⟨hbase, σ, hsafe, hstack⟩
  | leaves hcallers =>
    have := congrArg List.length hcallers
    rw [hc, List.length_cons, List.length_cons] at this
    omega

theorem Proceeds.returns (h : Proceeds site A W low Q base m next .running m')
    (hlow : low = m.frame.stackBase) (hc : m.callers = m'.frame :: m'.callers) : ∃ v rest, m'.stack = v :: rest ∧ W rest := by
  cases h with
  | goes _ hcallers => exact absurd (hc.symm.trans hcallers.symm) (List.cons_ne_self _ _)
  | enters _ _ _ hcallers =>
    have := congrArg List.length hcallers
    rw [hc, List.length_cons, List.length_cons] at this
    omega
  | @leaves v rest _ _ _ hstack hw => exact ⟨v, rest, hstack, hw hlow⟩

variable (h : Live S base natives m) (hh : host.Harmless) (hf : fetch m.chunk m.frame.ip = .ok (i, next))
  (hs : step host m = .ok .running m')

include h hh hf hs

theorem Live.proceeds (hsite : site.Fits m.frame.closure) (hstack : Stands W low τ m.stack)
    (hflow : Flow site A E next i.op i.args τ) :
    Proceeds site A W low (fun c => ∀ ref ∈ c.captures, base.cells.size ≤ ref.index) base
      (m.movedTo next) next .running m' := by
  have := step_behind hh (fun _ hc => hc) h.counts.young hf (fun _ _ _ _ _ _ _ _ _ hcells => hcells) hsite
    hstack hflow
  rw [hs] at this
  exact this.1

theorem Live.proceeds_below : ∃ site A, Proceeds site A (· = m.frame.below m.stack) m.frame.stackBase
    (fun c => ∀ ref ∈ c.captures, base.cells.size ≤ ref.index) base (m.movedTo next) next .running m' := by
  obtain ⟨-, τ, ⟨top, rest, hst, hb, htop, -⟩, i', next', hf', hflow⟩ := h.endures 1
  obtain ⟨rfl, rfl⟩ : i = i' ∧ next = next' := by simpa using hf.symm.trans hf'
  have hstack : Stands (· = rest) m.frame.stackBase τ m.stack := ⟨top, rest, hst, hb, htop, rfl⟩
  rw [hstack.below_eq]
  exact ⟨_, _, h.proceeds hh hf hs ⟨rfl, rfl⟩ hstack hflow⟩

end

/-! ## The step before -/

/-- At the step `u`, in the state `m`, the call of the frame was executed. The instruction there has led
to the place of the frame, which has the locals below `top` and, if it goes on now, the stack. Until the
step `t` other calls have been executed, and the locals that the call had have not been dropped. -/
structure Precedes (host : Host) (m₀ : Machine) (u : Nat) (m : Machine) (i : Instruction) (next t : Nat)
    (f : Frame) (callers : List Frame) (top : Nat) (stack : List Value) : Prop where
  lt : u < t
  runs : run host u m₀ = (.unfinished, m)
  closure : m.frame.closure = f.closure
  localsBase : m.frame.localsBase = f.localsBase
  outside : m.callers = callers
  fetched : fetch m.frame.closure.function.chunk m.frame.ip = .ok (i, next)
  targets : Targets next f.ip i.op i.args
  shifts : ∀ a b, m.frame.localsBase + a = m.locals.size → m.frame.localsBase + b = top → i.Shifts a b
  kept : ∀ q, q < m.locals.size → q < top → ∀ w, u ≤ w → w < t → ¬DropsLocal host m₀ w q
  deeper : ∀ w m', u < w → w < t → run host w m₀ = (.unfinished, m') →
    callers.length < m'.callers.length
  last : u + 1 = t ∨ i.op.isCall = true
  flows : ∀ (site : Site) A E W low τ, site.Fits f.closure → Stands W low τ m.stack →
    Flow site A E next i.op i.args τ → ∃ σ, A f.ip σ ∧ Stands W low σ stack

/-- The calls that wait have each been left at an instruction that began a call. They go on with the
result on top of their stack. -/
def Waiting (host : Host) (m₀ : Machine) (t : Nat) : Nat → List Value → List Frame → Prop
  | _, _, [] => True
  | top, stack, f :: fs => f.localsBase ≤ top ∧ f.stackBase ≤ stack.length ∧
      (∃ u m i next, (∀ v, Precedes host m₀ u m i next t f fs top (v :: stack)) ∧ i.op.isCall = true) ∧
      Waiting host m₀ t f.localsBase (f.below stack) fs

/-- How the innermost call has come to where it is. -/
structure Visited (host : Host) (m₀ : Machine) (t : Nat) (m : Machine) : Prop where
  now : (t = 0 ∨ ∃ u m₁, u + 1 = t ∧ run host u m₀ = (.unfinished, m₁) ∧
      m.frame.localsBase = m₁.locals.size) ∧ m.frame.ip = 0 ∨
    ∃ u m₁ i next, Precedes host m₀ u m₁ i next t m.frame m.callers m.locals.size m.stack
  waiting : Waiting host m₀ t m.frame.localsBase (m.frame.below m.stack) m.callers

theorem not_dropsLocal {q : Nat} (hr : run host t m₀ = (.unfinished, m))
    (hs : step host m = .ok .running m') (hq : q < m'.locals.size) : ¬DropsLocal host m₀ t q := by
  rintro ⟨m₁, m₂, hm₁, hm₂, -, hle⟩
  obtain rfl : m = m₁ := (Prod.mk.inj (hr.symm.trans hm₁)).2
  obtain rfl : m' = m₂ := by simpa using hs.symm.trans hm₂
  exact Nat.not_le.2 hq hle

section

variable {u top : Nat} {m₁ : Machine} {f : Frame} {callers : List Frame} {stack : List Value}

/-- A call goes on to wait. -/
theorem Precedes.wait (h : Precedes host m₀ u m₁ i next t f callers top stack) (hcall : i.op.isCall = true)
    (hr : run host t m₀ = (.unfinished, m)) (hs : step host m = .ok .running m')
    (htop : top ≤ m'.locals.size) (hdeep : callers.length < m.callers.length) :
    Precedes host m₀ u m₁ i next (t + 1) f callers top stack :=
  { h with
    lt := Nat.lt_succ_of_lt h.lt
    kept := fun q hq hlt w hle hw => by
      rcases Nat.eq_or_lt_of_le (Nat.le_of_lt_succ hw) with rfl | hw
      · exact not_dropsLocal hr hs (Nat.lt_of_lt_of_le hlt htop)
      · exact h.kept q hq hlt w hle hw
    deeper := fun w m₂ hlt hw hr₂ => by
      rcases Nat.eq_or_lt_of_le (Nat.le_of_lt_succ hw) with rfl | hw
      · obtain rfl : m = m₂ := (Prod.mk.inj (hr.symm.trans hr₂)).2
        exact hdeep
      · exact h.deeper w m₂ hlt hw hr₂
    last := .inr hcall }

theorem Waiting.step (h : Waiting host m₀ t top stack callers) (hr : run host t m₀ = (.unfinished, m))
    (hs : Machine.step host m = .ok .running m') (htop : top ≤ m'.locals.size)
    (hdeep : callers.length ≤ m.callers.length) : Waiting host m₀ (t + 1) top stack callers := by
  induction callers generalizing top stack with
  | nil => trivial
  | cons f fs ih =>
    obtain ⟨hle, hlow, ⟨u, m₁, i, next, hp, hcall⟩, hrest⟩ := h
    refine ⟨hle, hlow, ⟨u, m₁, i, next, fun v => (hp v).wait hcall hr hs htop hdeep, hcall⟩, ?_⟩
    exact ih hrest (Nat.le_trans hle htop) (Nat.le_of_succ_le hdeep)

end

theorem Live.localsBase_le (h : Live S base natives m) : m.frame.localsBase ≤ m.locals.size := by
  obtain ⟨i, next, s, size, k, hu⟩ := h.counts.upcoming
  exact hu.height ▸ Nat.le_add_right ..

theorem Visited.step (h : Visited host m₀ t m) (hlive : Live S base natives m) (hh : host.Harmless)
    (hr : run host t m₀ = (.unfinished, m)) (hs : Machine.step host m = .ok .running m') :
    Visited host m₀ (t + 1) m' := by
  obtain ⟨i, next, hf⟩ := hlive.exists_fetch
  have hlive' := hlive.afterStep hh hs
  obtain ⟨_, _, hbelow⟩ := hlive.proceeds_below hh hf hs
  rcases (hlive.frames_step hf (hlive.effect hh hf hs)).2 with hstays | hcalls | hreturns
  · obtain ⟨ip, ht, hframe⟩ := hstays.frame
    have hbase : m'.frame.localsBase = m.frame.localsBase := by rw [hframe]
    have hclosure : m.frame.closure = m'.frame.closure := by rw [hframe]
    obtain ⟨σ, -, hstack⟩ := hbelow.stays hstays.callers
    rw [show m.frame.stackBase = m'.frame.stackBase by rw [hframe]] at hstack
    refine ⟨.inr ⟨t, m, i, next, Nat.lt_succ_self t, hr, hclosure, hbase.symm, hstays.callers.symm, hf,
      by rwa [hframe], hstays.shifts, fun q _ hq w hle hlt => ?_, fun w _ hlt hle => absurd hle (by omega),
      .inl rfl, fun site A E W low τ hsite hst hflow => ?_⟩, ?_⟩
    · obtain rfl : t = w := Nat.le_antisymm hle (Nat.le_of_lt_succ hlt)
      exact not_dropsLocal hr hs hq
    · exact (hlive.proceeds hh hf hs (hclosure ▸ hsite) hst hflow).stays hstays.callers
    · rw [hbase, hstays.callers, hstack.below_eq]
      exact h.waiting.step hr hs (hbase ▸ hlive'.localsBase_le) (Nat.le_refl _)
  · refine ⟨.inl ⟨.inr ⟨t, m, rfl, hr, hcalls.localsBase⟩, hcalls.ip⟩, ?_⟩
    obtain ⟨hbase, σ, -, hstack⟩ := hbelow.calls hcalls.callers
    rw [hcalls.localsBase, hcalls.callers, Frame.below, hbase, Nat.sub_self, List.drop_zero]
    refine ⟨hlive.localsBase_le, ?_, ⟨t, m, i, next, fun v => ⟨Nat.lt_succ_self t, hr, rfl, rfl, rfl, hf,
      ?_, ?_, ?_, fun w _ hlt hle => absurd hle (by omega), .inl rfl, ?_⟩, hcalls.isCall⟩, ?_⟩
    · exact hstack.length ▸ Nat.le_add_right ..
    · exact targets_of_isCall hcalls.isCall next
    · intro a b ha hb
      obtain rfl : a = b := by omega
      exact Instruction.shifts_of_keepsLocals (Opcode.keepsLocals_of_isCall hcalls.isCall) a
    · intro q _ hq w hle hlt
      obtain rfl : t = w := Nat.le_antisymm hle (Nat.le_of_lt_succ hlt)
      exact not_dropsLocal hr hs (Nat.lt_of_lt_of_le hq hcalls.locals)
    · intro site A E W low τ hsite hst hflow
      obtain ⟨-, σ, hsafe, hstands⟩ := (hlive.proceeds hh hf hs hsite hst hflow).calls hcalls.callers
      exact ⟨.any :: σ, hsafe, hstands.push trivial⟩
    · rw [show Frame.below { m.frame with ip := next } m'.stack = _ from hstack.below_eq]
      exact h.waiting.step hr hs (Nat.le_trans hlive.localsBase_le hcalls.locals) (Nat.le_refl _)
  · have hwaiting := h.waiting
    rw [hreturns.callers] at hwaiting
    obtain ⟨hle, hlow, ⟨u, m₁, i, next, hp, hcall⟩, hrest⟩ := hwaiting
    obtain ⟨v, _, hst, rfl⟩ := hbelow.returns rfl hreturns.callers
    have hdeep : m'.callers.length < m.callers.length := by
      rw [hreturns.callers]
      exact Nat.lt_succ_self _
    refine ⟨.inr ⟨u, m₁, i, next, ?_⟩, ?_⟩
    · rw [hreturns.locals, hst]
      exact (hp v).wait hcall hr hs (Nat.le_of_eq hreturns.locals.symm) hdeep
    · rw [show m'.frame.below m'.stack = m'.frame.below (m.frame.below m.stack) by
        rw [hst, Frame.below, List.length_cons, Nat.succ_sub hlow, List.drop_succ_cons]
        rfl]
      exact hrest.step hr hs (Nat.le_trans hle (Nat.le_of_eq hreturns.locals.symm)) (Nat.le_of_lt hdeep)

theorem Live.visited (h : Live S base natives m₀) (hh : host.Harmless) (hc : m₀.callers = [])
    (hip : m₀.frame.ip = 0) (hr : run host t m₀ = (.unfinished, m)) : Visited host m₀ t m := by
  induction t generalizing m with
  | zero =>
    cases hr
    refine ⟨.inl ⟨.inl rfl, hip⟩, ?_⟩
    rw [hc]
    trivial
  | succ t ih =>
    obtain ⟨m₁, hm₁, hs⟩ := run_succ_iff.1 hr
    exact (ih hm₁).step (h.afterRun hh hm₁) hh hm₁ hs

end Machine

end StackScript
