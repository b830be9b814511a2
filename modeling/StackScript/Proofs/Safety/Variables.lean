import StackScript.Proofs.Lowering.Census
import StackScript.Proofs.Machine.Levels

/-!
# The variables of running programs
-/

namespace StackScript

open Lowering

/-- A compiled program with its census. -/
theorem Program.exists_script {program : Program} {options : Options} {chunk : Chunk Constant}
    (h : program.compile options = .ok chunk) (ht : program.isTidy = true)
    (hroom : Machine.maxFrames * (program.size + 1) ≤ 2 ^ 32) (store : Store) :
    ∃ (S : Script) (T : Nat → Tally → Prop), program.Census options S.limits chunk T ∧
      S.limits.globals = (hoist options program).entries.length ∧
      S.function = ⟨0, (chunk.load store).1⟩ ∧
      S.first = (Globals.ofNatives options.natives).entries.length := by
  have hsize : program.size < 2 ^ 32 := by
    have : 1 * (program.size + 1) ≤ Machine.maxFrames * (program.size + 1) :=
      Nat.mul_le_mul_right _ (by decide)
    omega
  obtain ⟨T, hcensus⟩ := Program.exists_census h ht hsize
  have hloads := chunk.loads_load store
  refine ⟨⟨program.limits options hsize, ?_, ⟨0, (chunk.load store).1⟩, _, ?_⟩, T, hcensus, rfl, rfl, rfl⟩
  · exact Nat.le_trans (Nat.mul_le_mul_left _ (Nat.le_succ _)) hroom
  · exact ⟨⟨T, hloads.code ▸ hcensus.table, hcensus.start⟩, Nat.zero_le _,
      fun i f hf => hloads.constants.known hcensus.constants hf⟩

/-- The instructions that begin calls. -/
def Opcode.isCall : Opcode → Bool
  | .call | .callProperty => true
  | _ => false

/-- The instruction makes `b` locals of a call out of `a`, and the call goes on. -/
def Instruction.Shifts (i : Instruction) (a b : Nat) : Prop :=
  ∀ limits (s : Tally) u, (Tally.moves limits).Does i s u → s.locals = a → ∃ t, u = some t ∧ t.locals = b

/-- The instructions that neither define nor drop locals, nor end anything. -/
def Opcode.keepsLocals : Opcode → Bool
  | .defLocal | .popLocal | .closeUpvalue | .popnLocal | .return | .returnVoid | .exitSuccess => false
  | _ => true

theorem Opcode.keepsLocals_of_isCall {op : Opcode} (h : op.isCall = true) : op.keepsLocals = true := by
  cases op with
  | call | callProperty => rfl
  | _ => cases h

theorem Machine.targets_of_isCall {i : Instruction} (h : i.op.isCall = true) (next : Nat) :
    Targets next next i.op i.args := by
  obtain ⟨op, args⟩ := i
  cases op with
  | call | callProperty => rfl
  | _ => cases h

theorem Instruction.shifts_of_keepsLocals {i : Instruction} (hi : i.op.keepsLocals = true) (a : Nat) :
    i.Shifts a a := by
  obtain ⟨op, args⟩ := i
  rintro limits s u hdoes rfl
  cases op with
  | pushClosure =>
    obtain ⟨-, -, p, -, -, rfl, -⟩ := hdoes
    exact ⟨_, rfl, rfl⟩
  | appendMethods => exact ⟨s, hdoes, rfl⟩
  | pushConst =>
    obtain ⟨-, p, rfl⟩ := hdoes
    exact ⟨_, rfl, rfl⟩
  | getLocal | setLocal | getGlobal | setGlobal => exact ⟨s, hdoes.2.2, rfl⟩
  | defGlobal =>
    obtain ⟨-, k, -, rfl⟩ := hdoes
    exact ⟨_, rfl, rfl⟩
  | defLocal | popLocal | closeUpvalue | popnLocal | «return» | returnVoid | exitSuccess => cases hi
  | _ => exact ⟨s, hdoes.2, rfl⟩

namespace Machine

/-- A machine that runs a compiled program. -/
structure Live (S : Script) (base : Store) (natives : Nat) (m : Machine) : Prop where
  counts : Counts S base natives m
  endures : Endures base m

variable {S : Script} {base : Store} {natives n : Nat} {m m' : Machine} {host : Host}

theorem exists_run_of_le {k : Nat} (h : run host n m = (.unfinished, m')) (hk : k ≤ n) :
    ∃ m₁, run host k m = (.unfinished, m₁) := by
  have hlasts : Lasts host n m := congrArg Prod.fst h
  exact ⟨_, Prod.ext (hlasts.anti hk) rfl⟩

/-- One step more at the end of a run. -/
theorem run_succ_iff : run host (n + 1) m = (.unfinished, m') ↔
    ∃ m₁, run host n m = (.unfinished, m₁) ∧ step host m₁ = .ok .running m' := by
  constructor
  · intro h
    obtain ⟨m₁, hm₁⟩ := exists_run_of_le h (Nat.le_succ n)
    refine ⟨m₁, hm₁, ?_⟩
    rw [run_add hm₁, run] at h
    cases hs : step host m₁ with
    | ok status m₂ =>
      rw [hs] at h
      cases status with
      | running =>
        cases h
        rfl
      | finished => cases h
    | error e m₂ =>
      rw [hs] at h
      cases h
  · rintro ⟨m₁, hm₁, hs⟩
    rw [run_add hm₁, run_succ hs]
    rfl

theorem Live.afterRun (h : Live S base natives m) (hh : host.Harmless)
    (hx : run host n m = (.unfinished, m')) : Live S base natives m' := by
  have hendures := endures_run hh h.endures n
  rw [hx] at hendures
  exact ⟨h.counts.run hh h.endures hx, hendures⟩

theorem Live.afterStep (h : Live S base natives m) (hh : host.Harmless)
    (hx : step host m = .ok .running m') : Live S base natives m' :=
  h.afterRun (n := 1) hh (run_succ hx)

/-- What is known of a step. -/
theorem Live.upcoming {i : Instruction} {next : Nat} (h : Live S base natives m)
    (hf : fetch m.chunk m.frame.ip = .ok (i, next)) :
    ∃ s size k, Upcoming S natives m i next s size k := by
  obtain ⟨i', next', s, size, k, hu⟩ := h.counts.upcoming
  obtain ⟨rfl, rfl⟩ : i' = i ∧ next' = next := by simpa using hu.fetched.symm.trans hf
  exact ⟨s, size, k, hu⟩

theorem Live.exists_fetch (h : Live S base natives m) :
    ∃ i next, fetch m.chunk m.frame.ip = .ok (i, next) := by
  obtain ⟨i, next, s, size, k, hu⟩ := h.counts.upcoming
  exact ⟨i, next, hu.fetched⟩

section

variable {i : Instruction} {next : Nat} {status : Status} (h : Live S base natives m)
  (hh : host.Harmless) (hf : fetch m.chunk m.frame.ip = .ok (i, next))
  (hx : step host m = .ok status m')

include h hh hf hx

theorem Live.effect :
    Effect (S.Owns base m'.store.cells.size) base (m.movedTo next) next i.op i.args status m' := by
  obtain ⟨s, size, k, hu⟩ := h.upcoming hf
  exact h.counts.effect hu hh (h.endures 1) hx

theorem Live.varies : (m.movedTo next).Varies base i.op m' := by
  obtain ⟨s, size, k, hu⟩ := h.upcoming hf
  exact h.counts.varies hu (h.effect hh hf hx)

end

/-! ## Calls -/

/-- Globals are left alone, or the next one is defined, or one is assigned to. -/
def ChangesGlobals (i : Instruction) (m m' : Machine) : Prop :=
  m'.globals = m.globals ∨
    (i = ⟨.defGlobal, ()⟩ ∧ ∃ v, m.stack.head? = some v ∧ m'.globals = m.globals.push v) ∨
    ∃ slot v, i = ⟨.setGlobal, slot⟩ ∧ m.stack.head? = some v ∧
      m'.globals = m.globals.setIfInBounds slot.toNat v

/-- The innermost call goes on. -/
structure Stays (i : Instruction) (next : Nat) (m m' : Machine) : Prop where
  frame : ∃ ip, Targets next ip i.op i.args ∧ m'.frame = { m.frame with ip }
  callers : m'.callers = m.callers
  shifts : ∀ a b, m.frame.localsBase + a = m.locals.size → m.frame.localsBase + b = m'.locals.size →
    i.Shifts a b
  globals : ChangesGlobals i m m'

/-- A call begins, of a closure with a property. -/
structure Calling (Q : Value.Code → Prop) (i : Instruction) (next : Nat) (m m' : Machine) : Prop where
  isCall : i.op.isCall = true
  callee : Q m'.frame.closure
  ip : m'.frame.ip = 0
  localsBase : m'.frame.localsBase = m.locals.size
  callers : m'.callers = { m.frame with ip := next } :: m.callers
  locals : m.locals.size ≤ m'.locals.size
  globals : m'.globals = m.globals

/-- The innermost call is at its end. -/
structure Returning (m m' : Machine) : Prop where
  callers : m.callers = m'.frame :: m'.callers
  locals : m'.locals.size = m.frame.localsBase
  globals : m'.globals = m.globals

/-- What a step means for the innermost call. -/
theorem Live.frames_step {Q : Value.Code → Prop} {i : Instruction} {next : Nat}
    (h : Live S base natives m) (hf : fetch m.chunk m.frame.ip = .ok (i, next))
    (he : Effect Q base (m.movedTo next) next i.op i.args .running m') :
    m'.Kept Q base ∧ (Stays i next m m' ∨ Calling Q i next m m' ∨ Returning m m') := by
  obtain ⟨s, size, k, hu⟩ := h.upcoming hf
  have hheight := hu.height
  have hrests {m₁ : Machine} {ip : Nat} (hr : Rests Q base m₁ ip m') (ht : Targets next ip i.op i.args)
      (hframe : m₁.frame = (m.movedTo next).frame) (hcallers : m₁.callers = m.callers)
      (hglobals : ChangesGlobals i m m₁) (hshifts : ∀ a b, m.frame.localsBase + a = m.locals.size →
        m.frame.localsBase + b = m₁.locals.size → i.Shifts a b) :
      m'.Kept Q base ∧ (Stays i next m m' ∨ Calling Q i next m m' ∨ Returning m m') := by
    refine ⟨hr.kept, .inl ⟨⟨ip, ht, ?_⟩, hr.callers.trans hcallers, fun a b ha hb => hshifts a b ha ?_, ?_⟩⟩
    · rw [hr.frame, hframe]
    · rw [hb, hr.locals]
    · unfold ChangesGlobals
      rw [hr.globals]
      exact hglobals
  have hsize (k : Nat) (hk : k ≤ m.locals.size) : ((m.movedTo next).truncated k).locals.size = k :=
    Array.size_shrink.trans (Nat.min_eq_left hk)
  have hsame {m₁ : Machine} {ip : Nat} (hr : Rests Q base m₁ ip m') (ht : Targets next ip i.op i.args)
      (hframe : m₁.frame = (m.movedTo next).frame) (hcallers : m₁.callers = m.callers)
      (hglobals : ChangesGlobals i m m₁) (hlocals : m₁.locals.size = m.locals.size)
      (hop : i.op.keepsLocals = true) := hrests hr ht hframe hcallers hglobals fun a b ha hb => by
    obtain rfl : a = b := by omega
    exact Instruction.shifts_of_keepsLocals hop a
  obtain ⟨op, args⟩ := i
  cases op with
  | pushClosure =>
    obtain ⟨-, f, refs, m₁, key, -, hcells, -, hr⟩ := he
    obtain ⟨-, hg, -⟩ := h.counts.captureCells hu hcells
    exact hsame hr rfl hg.frame hg.callers (.inl hg.globals) (by rw [hg.locals]) rfl
  | defLocal =>
    obtain ⟨-, v, -, hr⟩ := he
    refine hrests hr rfl rfl rfl (.inl rfl) fun a b ha hb => ?_
    rintro limits s u ⟨-, -, rfl⟩ rfl
    have hb : m.frame.localsBase + b = (m.locals.push v).size := hb
    rw [Array.size_push] at hb
    exact ⟨_, rfl, show s.locals + 1 = b by omega⟩
  | setLocal =>
    obtain ⟨-, v, -, -, hr⟩ := he
    exact hsame hr rfl rfl rfl (.inl rfl) (by simp) rfl
  | setGlobal =>
    obtain ⟨-, v, hv, -, hr⟩ := he
    exact hsame hr rfl rfl rfl (.inr (.inr ⟨args, v, rfl, hv, rfl⟩)) rfl rfl
  | defGlobal =>
    obtain ⟨-, v, hv, hr⟩ := he
    exact hsame hr rfl rfl rfl (.inr (.inl ⟨rfl, v, hv, rfl⟩)) rfl rfl
  | setUpvalue =>
    obtain ⟨-, ref, v, -, -, -, hr⟩ := he
    exact hsame hr rfl written_frame written_callers (.inl written_globals) size_locals_written rfl
  | popLocal | closeUpvalue | popnLocal =>
    obtain ⟨-, hle, hr⟩ := he
    refine hrests hr rfl rfl rfl (.inl rfl) fun a b ha hb => ?_
    rintro limits s u ⟨-, hle, rfl⟩ rfl
    rw [hsize _ (Nat.sub_le ..)] at hb
    exact ⟨_, rfl, Nat.sub_eq_of_eq_add (by omega)⟩
  | «return» | returnVoid =>
    rcases Effect.leaves next he with ⟨-, hstatus, -⟩ | ⟨frame, callers, hcallers, -, hr⟩
    · cases hstatus
    · refine ⟨hr.kept, .inr (.inr ⟨?_, ?_, hr.globals⟩)⟩
      · rw [hr.frame, hr.callers]
        exact hcallers
      · rw [hr.locals]
        exact hsize m.frame.localsBase (by omega)
  | call | callProperty =>
    rcases he.2 with hr | hr
    · exact hsame hr rfl rfl rfl (.inl rfl) rfl rfl
    · refine ⟨hr.kept, .inr (.inl ⟨rfl, hr.callee, hr.ip, hr.localsBase, hr.callers, ?_, hr.globals⟩)⟩
      obtain ⟨arguments, -, hlocals⟩ := hr.locals
      rw [hlocals, Array.size_append]
      exact Nat.le_add_right ..
  | getGlobal =>
    obtain ⟨-, v, -, -, hr⟩ := he
    exact hsame hr rfl rfl rfl (.inl rfl) rfl rfl
  | getUpvalue =>
    obtain ⟨-, ref, v, -, -, -, hr⟩ := he
    exact hsame hr rfl rfl rfl (.inl rfl) rfl rfl
  | exitSuccess => cases he.1
  | _ =>
    obtain ⟨-, t, ht, hr⟩ := he
    exact hsame hr ht rfl rfl (.inl rfl) rfl rfl

/-! ## The beginning -/

/-- A compiled program begins its run. -/
theorem live_start {program : Program} {options : Options} {chunk : Chunk Constant}
    (h : program.compile options = .ok chunk) (hroom : maxFrames * (program.size + 1) ≤ 2 ^ 32)
    (store : Store) (list : List Native) (hS : S.function = ⟨0, (chunk.load store).1⟩) :
    Live S (chunk.load store).2 list.length
      (start (chunk.load store).2 list (chunk.load store).1) := by
  refine ⟨counts_start _ _ _ hS, endures_start h ?_ store list⟩
  have : 1 * (program.size + 1) ≤ maxFrames * (program.size + 1) :=
    Nat.mul_le_mul_right _ (by decide)
  omega

end Machine

end StackScript
