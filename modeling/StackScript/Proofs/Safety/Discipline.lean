import Mathlib
import StackScript.Host
import StackScript.Proofs.Lowering.Script
import StackScript.Proofs.Machine.Running
import StackScript.Proofs.Safety.Soundness
import StackScript.Proofs.Safety.Typing

/-!
# Compiled programs keep to their stack

A compiled program is safe for any number of steps, and so is every state that its run reaches:
there is an instruction, the innermost call has as many values on the stack as the instruction
takes, and those values are of the kinds it relies on.
-/

namespace StackScript

/-! ## Programs -/

namespace Lowering

open Fragment (emit Placed closed_emit)

theorem safe_startCode {site : Site} {o : Nat} {slot : UInt32} (hp : site.isProgram = true)
    (h : Placed site.function.chunk.code o (startCode slot)) (n : Nat) : Safe n site o [] := by
  have hget (span : Span) : Turns site none (emit ⟨.getGlobal, slot⟩ span) [] [.any] :=
    turns_emit trivial fun _ _ _ h => h rfl
  have hcall (span : Span) : Turns site none (emit ⟨.call, 0⟩ span) [.any] [.any] :=
    turns_emit trivial fun _ _ _ h => ⟨[], .any, [], rfl, rfl, h rfl⟩
  refine (((hget _).append (hcall _)).append turns_pop).safe (((closed_emit _ _).append
    (closed_emit _ _)).append (closed_emit _ _)) h.left ?_
  cases n with
  | zero => trivial
  | succ n => exact ⟨_, _, h.right.fetch trivial, hp, rfl⟩

theorem safe_program {program : Program} {options : Options} {chunk : Chunk Constant}
    (h : program.compile options = .ok chunk) (hsize : program.size < 2 ^ 32) (store : Store)
    (n : Nat) : Safe n ⟨⟨0, (chunk.load store).1⟩, 0, true⟩ 0 [] := by
  obtain ⟨slot, hclean, -, hfar, rfl⟩ := compile_eq_ok h
  set c : Context := { globals := hoist options program }
  set r := statements options.strip none program.body c
  set code := r.1 ++ startCode slot.toUInt32
  set chunk := code.toChunk none r.2.frame.constants
  set site : Site := ⟨⟨0, (chunk.load store).1⟩, 0, true⟩
  have hloads := chunk.loads_load store
  have hlinked : Linked c.frame c.enclosing := rfl
  have hstep := (evolves_statements options.strip none program.body).step c hclean
  have hready : Ready (Stmt.sizes program.body) site c r.2 := by
    refine ⟨hclean, ?_, hlinked, ⟨⟨r.2.frame.constants, List.prefix_refl _, ?_⟩, ?_⟩⟩
    · refine ⟨⟨?_, ?_, ?_⟩, nofun⟩ <;>
      · show 0 + Stmt.sizes program.body < 2 ^ 32
        rwa [Nat.zero_add]
    · have := hloads.constants
      rwa [Fragment.constants_toChunk] at this
    · have hnone : r.2.enclosing = [] := List.forall₂_nil_left_iff.1 hstep.enclosing
      have hl := hstep.linked hlinked
      rw [hnone] at hl
      rw [show r.2.frame.captures = [] from hl]
      exact Nat.le_refl 0
  have hplaced : Placed site.function.chunk.code 0 code := by
    show Placed (chunk.load store).1.code 0 code
    rw [hloads.code]
    exact Fragment.placed_toChunk hfar _ _
  obtain ⟨hclosed, hturns⟩ := (bodyYields_statements (yields_statements options.strip none program.body)
    site).gives c hready
  exact hturns.safe hclosed hplaced.left (safe_startCode rfl hplaced.right n)

end Lowering

namespace Machine

variable {site : Site} {S : Nat → List Slot → Prop} {E : Site → Prop} {next : Nat} {op : Opcode}
  {τ : List Slot}

/-! ## What a state offers to its next instruction -/

/-- The number of values that an instruction takes from the top of the stack or looks at. -/
def demand : (op : Opcode) → op.format.Args → Nat
  | .pop, _ | .defLocal, _ | .setLocal, _ | .setUpvalue, _ | .defGlobal, _ | .setGlobal, _
  | .getProperty, _ | .neg, _ | .not, _ | .assertBool, _ | .jumpTrue, _ | .jumpFalse, _
  | .jumpHasNoNext, _ | .makeIterator, _ | .getNext, _ | .advance, _ | .return, _ => 1
  | .setProperty, _ | .add, _ | .sub, _ | .mul, _ | .div, _ | .mod, _ | .eq, _ | .ne, _ | .lt, _
  | .le, _ | .gt, _ | .ge, _ | .and, _ | .or, _ | .makeRange, _ | .makeInclRange, _ => 2
  | .call, argc | .callProperty, (_, argc) => argc.toNat + 1
  | .appendMethods, n => n.toNat + 1
  | _, _ => 0

/-- The instructions that work on the range on top of the stack. -/
def iterates : Opcode → Bool
  | .jumpHasNoNext | .getNext | .advance => true
  | _ => false

/-- The machine has what its next instruction needs. -/
structure Offers (host : Host) (m : Machine) (i : Instruction) (next : Nat) : Prop where
  /-- The instruction takes no value that is below the base of the innermost call. -/
  demand : m.frame.stackBase + demand i.op i.args ≤ m.stack.length
  /-- Instructions on a range find one. -/
  range : iterates i.op = true → ∃ r, m.stack.head? = some (.range r)
  /-- Methods are closures above the record they are for. -/
  methods : ∀ n, i = ⟨.appendMethods, n⟩ → ∃ methods record rest,
    m.stack = List.map Value.closure methods ++ .record record :: rest ∧ methods.length = n.toNat
  /-- A jump back to the test of a loop comes with a boolean. -/
  test : ∀ distance, i = ⟨.loop, distance⟩ → ∀ distance' next',
    fetch m.frame.closure.function.chunk (next - distance.toNat) =
      .ok (⟨.jumpFalse, distance'⟩, next') → ∃ b, m.stack.head? = some (.bool b)
  /-- Only when locals are dropped there can be too few of something. -/
  underflow : ∀ m', step host m = .error .stackUnderflow m' → i.op.dropsLocals = true

/-- The machine has a next instruction and what that needs. -/
def Disciplined (host : Host) (m : Machine) : Prop :=
  ∃ i next, fetch m.frame.closure.function.chunk m.frame.ip = .ok (i, next) ∧ m.Offers host i next

theorem demand_le_of_flow {args : op.format.Args} (h : Flow site S E next op args τ) :
    demand op args ≤ τ.length := by
  cases op <;> simp only [Flow] at h <;> simp only [demand] <;> grind

section

variable {n : Nat} {base : Store} {host : Host} {m : Machine}

theorem disciplined_of_sound (hh : host.Harmless) (h : Sound (n + 2) base m) :
    m.Disciplined host := by
  obtain ⟨-, τ, hstack, i, next, hfetch, hflow⟩ := id h
  refine ⟨i, next, hfetch, ?_, ?_, ?_, ?_, ?_⟩
  · rw [hstack.length]
    exact Nat.add_le_add_left (demand_le_of_flow hflow) _
  · obtain ⟨op, args⟩ := i
    intro hi
    have hrange : ∃ σ, τ = .range :: σ := by
      cases op
      case jumpHasNoNext | getNext | advance =>
        obtain ⟨σ, hσ, -⟩ := hflow
        exact ⟨σ, hσ⟩
      all_goals cases hi
    obtain ⟨σ, rfl⟩ := hrange
    obtain ⟨v, rest, he, ⟨r, rfl⟩, -⟩ := hstack.pop
    exact ⟨r, by rw [he]; rfl⟩
  · rintro k rfl
    obtain ⟨σ, rfl, -⟩ := hflow
    obtain ⟨vs, rest, he, hvs, hrest⟩ := hstack.split
    obtain ⟨v, rest, rfl, ⟨r, rfl⟩, -⟩ := hrest.pop
    obtain ⟨methods, rfl, hlen⟩ := exists_closures_of_admits hvs
    exact ⟨methods, r, rest, he, hlen⟩
  · rintro distance rfl distance' next' hnext
    obtain ⟨-, hhead, hsafe⟩ := hflow
    obtain ⟨j, next'', hfetch', hflow'⟩ := hsafe
    cases hfetch'.symm.trans hnext
    obtain ⟨s, σ, rfl, rfl | rfl, -⟩ := hflow'
    · exact absurd rfl hhead
    · obtain ⟨v, rest, he, ⟨b, rfl⟩, -⟩ := hstack.pop
      exact ⟨b, by rw [he]; rfl⟩
  · intro m' hm'
    obtain ⟨j, next', hj, hresults⟩ := h.step hh
    cases hfetch.symm.trans hj
    rw [hm'] at hresults
    exact hresults

end

/-! ## Runs -/

/-- The machine can go on for any number of steps. -/
def Endures (base : Store) (m : Machine) : Prop := ∀ n, Sound n base m

theorem endures_run {host : Host} {base : Store} {m : Machine} (hh : host.Harmless)
    (h : Endures base m) (k : Nat) :
    match run host k m with
    | (.unfinished, m') => Endures base m'
    | (.finished, m') => m'.stack = []
    | (.failed f, _) => ∃ op : Opcode, op.mayFail f = true := by
  induction k generalizing m with
  | zero => exact h
  | succ k ih =>
    have hstep (n : Nat) : match step host m with
        | .ok status m' => Continues n base status m'
        | .error f _ => ∃ op : Opcode, op.mayFail f = true := by
      obtain ⟨i, -, -, hresults⟩ := (h (n + 1)).step hh
      cases hs : step host m with
      | ok status m' =>
        rw [hs] at hresults
        exact hresults
      | error f m' =>
        rw [hs] at hresults
        exact ⟨i.op, hresults⟩
    unfold run
    cases hs : step host m with
    | ok status m' =>
      rw [hs] at hstep
      cases status with
      | running => exact ih hstep
      | finished => exact hstep 0
    | error f m' =>
      rw [hs] at hstep
      exact hstep 0

theorem endures_start {program : Program} {options : Options} {chunk : Chunk Constant}
    (h : program.compile options = .ok chunk) (hsize : program.size < 2 ^ 32) (store : Store)
    (natives : List Native) :
    Endures (chunk.load store).2 (start (chunk.load store).2 natives (chunk.load store).1) := by
  intro n
  refine ⟨⟨nofun, by simp [start], fun v hv => ?_, ?_, nofun, ?_⟩, [], ⟨[], [], rfl, rfl, .nil, rfl⟩,
    Lowering.safe_program h hsize store n⟩
  · have hv' : v ∈ (natives.map Value.native).toArray := hv
    rw [List.mem_toArray, List.mem_map] at hv'
    obtain ⟨native, -, rfl⟩ := hv'
    trivial
  · exact Store.within_self _ _
  · intro f hf ref hr
    rw [List.mem_singleton.1 hf] at hr
    cases hr

end Machine

/-- Faults that only malformed code can cause. -/
def Fault.isStructural : Fault → Bool
  | .invalidOpcode .. | .truncated _ | .invalidJump _ | .unexpectedEnd _ | .invalidConstant _
  | .invalidUpvalue _ => true
  | _ => false

/-- Compiled code never goes structurally wrong: in every state that a run of it reaches there is an
instruction, which finds on the stack above the base of its call all the values it needs, of the
right kinds; the run does not fail by malformed code, and ends with an empty stack. -/
theorem Machine.disciplined_run {program : Program} {options : Options} {chunk : Chunk Constant}
    (h : program.compile options = .ok chunk) (hsize : program.size < 2 ^ 32) {host : Host}
    (hh : host.Harmless) (store : Store) (natives : List Native) (steps : Nat) :
    match run host steps (start (chunk.load store).2 natives (chunk.load store).1) with
    | (.unfinished, m) => m.Disciplined host
    | (.finished, m) => m.stack = []
    | (.failed fault, _) => fault.isStructural = false := by
  have hrun := endures_run hh (endures_start h hsize store natives) steps
  split at hrun
  · exact disciplined_of_sound hh (hrun 2)
  · exact hrun
  · obtain ⟨op, hf⟩ := hrun
    rename_i f _ _
    cases f <;> first | rfl | cases hf

theorem Services.harmless_host (services : Services) : services.host.Harmless := by
  intro calls native store arguments v h
  have h' : (services.get native).answer store arguments = .ok v := h
  cases hs : services.get native <;> rw [hs] at h' <;> cases h'
  case first =>
    cases arguments with
    | nil => exact .inl rfl
    | cons a as => exact .inr (List.mem_cons_self ..)
  all_goals exact .inl rfl

/-- A program that leaves a loop over a range. -/
def leftLoop : Program :=
  ⟨[.function ⟨"main", {}⟩ [] [
    .forIn ⟨"i", {}⟩ (.range (.literal (.int 0) {}) (.literal (.int 3) {}) false {})
      (.block [.cond (.binary .equal (.name ⟨"i", {}⟩ {}) (.literal (.int 1) {}) {})
        (.block [.exit .break {}] {}) none {}] {}) {}] {}]⟩

theorem Machine.disciplined_run_leftLoop : ∃ chunk, leftLoop.compile {} = .ok chunk ∧
    leftLoop.size < 2 ^ 32 ∧ ({} : Services).host.Harmless ∧
    match run ({} : Services).host 20 (start (chunk.load {}).2 [] (chunk.load {}).1) with
    | (.unfinished, m) => m.Disciplined ({} : Services).host
    | (.finished, m) => m.stack = []
    | (.failed fault, _) => fault.isStructural = false := by
  obtain ⟨chunk, h⟩ := leftLoop.exists_chunk {} (by cbv)
  have hsize : leftLoop.size < 2 ^ 32 := by decide
  have hh := Services.harmless_host {}
  exact ⟨chunk, h, hsize, hh, disciplined_run h hsize hh {} [] 20⟩

end StackScript
