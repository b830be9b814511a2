import Mathlib
import StackScript.Proofs.Lowering.Emission
import StackScript.Proofs.Lowering.Script

/-!
# Compiled programs are well-formed

The draft of a program is what the compiler makes of it, whether it finds something wrong or not. As
long as all code of the draft is small enough for operands to reach, it is well-formed in all its
parts, and no jump is reported as too far.
-/

namespace StackScript

open Fragment

/-- What becomes of a program, whether it is correct or not. -/
def Program.draft (program : Program) (options : Options) : Chunk Constant :=
  let (code, context) :=
    (Lowering.script options program).run { globals := Lowering.hoist options program }
  code.toChunk none context.frame.constants

/-- All chunks are small, and functions are nested at most `n` deep. -/
def Chunk.isSmallTo : Nat → Chunk Constant → Bool
  | 0, _ => false
  | n + 1, c => c.code.size < 2 ^ 32 && c.constants.all fun k => match k with
    | ⟨.function f⟩ => f.chunk.isSmallTo n
    | _ => true

theorem Chunk.isSmall_of_isSmallTo {n : Nat} {c : Chunk Constant} (h : c.isSmallTo n = true) :
    c.IsSmall := by
  induction n generalizing c with
  | zero => cases h
  | succ n ih =>
    simp only [isSmallTo, Bool.and_eq_true, decide_eq_true_eq, List.all_eq_true] at h
    intro c' hc'
    rcases hc'.cases_head with rfl | ⟨f, hf, hc'⟩
    · exact h.1
    · exact ih (h.2 _ hf) c' hc'

namespace Lowering

theorem silent_unmute : Silent unmute := fun _ => .ofFrame rfl rfl rfl rfl fun h => h

theorem emitting_topLevel (strip : Bool) (ss : List Stmt) : Emitting (topLevel strip ss) := by
  induction ss with
  | nil => exact fun c => .refl c
  | cons s ss ih =>
    intro c
    exact (silent_unmute c).trans ((emitting_statement strip none s _).trans (ih _))

theorem gives_lands_topLevel (strip : Bool) (ss : List Stmt) :
    Gives (Lands false) (topLevel strip ss) := by
  induction ss with
  | nil => exact .pure lands_nil
  | cons s ss ih =>
    exact .andThen fun _ => (gives_lands_statement strip none s).bind fun _ h => ih.bind fun _ hs =>
      .pure (h.append hs)

theorem emitting_entryCall (entry : String) (program : Program) :
    Emitting (entryCall entry program) := by
  intro c
  rcases entryCall_cases entry program c with ⟨slot, -, -, he⟩ | ⟨-, he⟩
  · rw [he]
    exact (silent_unmute c).free rfl
  · rw [he]
    exact (silent_unmute c).trans (silent_report (by simp) _)

theorem distance_le_script {strip : Bool} {entry : String} {program : Program} {c : Context}
    {b : Branch} {d : Nat} {span : Span}
    (h : .jump b d span ∈ (topLevel strip program.body c).1 ++
      (entryCall entry program (topLevel strip program.body c).2).1) :
    d ≤ size ((topLevel strip program.body c).1 ++
      (entryCall entry program (topLevel strip program.body c).2).1) := by
  rw [size_append]
  rcases List.mem_append.1 h with h | h
  · have := distance_le_of_lands (gives_lands_topLevel strip program.body c) h
    omega
  · rcases entryCall_cases entry program (topLevel strip program.body c).2 with ⟨_, -, -, he⟩ | ⟨-, he⟩ <;>
    · rw [he] at h
      simp [startCode, emit] at h

theorem script_spec (options : Options) (program : Program) :
    ∃ c fatal, Emits { globals := hoist options program } (script options program
        { globals := hoist options program }).1 c ∧
      (script options program { globals := hoist options program }).2 = { c with fatal } ∧
      (fatal = c.fatal ∨
        2 ^ 32 ≤ (script options program { globals := hoist options program }).1.size) := by
  set c₀ : Context := { globals := hoist options program }
  set t := topLevel options.strip program.body c₀
  set e := entryCall options.entry program t.2
  have hs : script options program c₀ = (t.1 ++ e.1, (checkJumps (t.1 ++ e.1) e.2).2) := by
    rw [script_eq]
    rfl
  rw [hs]
  obtain ⟨fatal, hcheck, hfatal⟩ := checkJumps_eq e.2 fun _ _ _ => distance_le_script
  exact ⟨e.2, fatal, (emitting_topLevel _ _ c₀).trans (emitting_entryCall _ _ t.2), hcheck, hfatal⟩

end Lowering

namespace Program

variable {program : Program} {options : Options}

theorem draft_of_compile {chunk : Chunk Constant} (h : program.compile options = .ok chunk) :
    program.draft options = chunk := by
  rw [Lowering.compile_eq] at h
  split at h
  · exact Except.ok.inj h
  · cases h

theorem messages_of_compile {ds : List Diagnostic} (h : program.compile options = .error ds) :
    let c := (Lowering.script options program { globals := Lowering.hoist options program }).2
    ds = c.messages ++ c.fatal.toList := by
  rw [Lowering.compile_eq] at h
  split at h
  · cases h
  · exact (Except.error.inj h).symm

theorem wellFormed_of_compile {chunk : Chunk Constant} (h : program.compile options = .ok chunk)
    (hsmall : chunk.IsSmall) :
    (∀ l ∈ chunk.instructions, l.instruction.CapturesBelow 0) ∧
      ∀ c, chunk.Contains c → c.WellFormed := by
  obtain ⟨slot, -, -, -, rfl⟩ := Lowering.compile_eq_ok h
  set c : Lowering.Context := { globals := Lowering.hoist options program } with hc
  set r := Lowering.statements options.strip none program.body c
  have hemits : Lowering.Emits c (r.1 ++ Lowering.startCode slot.toUInt32) r.2 :=
    (Lowering.emitting_statements options.strip none program.body c).trans
      ((Lowering.Emits.refl r.2).free rfl)
  have hsealed : Sealed (r.1 ++ Lowering.startCode slot.toUInt32) := by
    refine sealed_of_lands (Lowering.gives_lands_statements options.strip none program.body c)
      (.inr ⟨List.cons_ne_nil _ _, fun p hp => ?_⟩)
    simp only [Lowering.startCode, emit, List.mem_append, List.mem_singleton] at hp
    rcases hp with ((rfl | rfl) | rfl) | rfl <;> exact ⟨_, _, rfl⟩
  have hnone : r.2.frame.captures = [] := by
    have hl := hemits.linked rfl
    rwa [show r.2.enclosing = [] from List.forall₂_nil_left_iff.1 hemits.enclosing] at hl
  have hfits := hemits.fits rfl
  rw [hnone] at hfits
  have hlast : r.1 ++ Lowering.startCode slot.toUInt32 = r.1 ++
      (emit ⟨.getGlobal, slot.toUInt32⟩ {} ++ emit ⟨.call, 0⟩ {} ++
        emit ⟨.pop, ()⟩ {}) ++ [.instruction ⟨.exitSuccess, ()⟩ {}] :=
    (List.append_assoc _ _ _).symm
  exact Lowering.wellFormed_of_fits hsealed hlast (.inr (.inr rfl)) hfits
    (by simpa [hc] using hemits.count) (hemits.good rfl (by rintro _ ⟨⟩)) hsmall

/-- No jump is reported as too far if the code is small. -/
theorem near_of_compile {ds : List Diagnostic} (h : program.compile options = .error ds)
    (hsmall : (program.draft options).IsSmall) : ∀ d ∈ ds, ∀ n, d.cause ≠ .jumpTooFar n := by
  obtain ⟨c, fatal, hemits, hc, hfatal⟩ := Lowering.script_spec options program
  have hds := messages_of_compile h
  have hdraft : program.draft options =
      (Lowering.script options program { globals := Lowering.hoist options program }).1.toChunk none
        (Lowering.script options program
          { globals := Lowering.hoist options program }).2.frame.constants := rfl
  rw [hc] at hdraft
  set code := (Lowering.script options program { globals := Lowering.hoist options program }).1
  have hsize : code.size < 2 ^ 32 := by
    rw [← Lowering.code_size_toChunk code none c.frame.constants, ← hdraft]
    exact hsmall _ .self
  have hnone : fatal = none := by
    rcases hfatal with rfl | hlong
    · rcases hemits.fatal rfl with hf | ⟨f, hf, hlarge⟩
      · exact hf
      · refine absurd (hsmall.function ?_) hlarge
        rwa [hdraft, constants_toChunk]
    · omega
  intro d hd
  simp only [hc, hnone, Option.toList_none, List.append_nil] at hds
  rw [hds] at hd
  exact hemits.plain nofun d hd

/-- Everything that is made of a program with small code is well-formed, and no jump in it is too
far. -/
theorem compile_wellFormed (program : Program) (options : Options) :
    (∀ chunk, program.compile options = .ok chunk → chunk = program.draft options) ∧
    ((program.draft options).IsSmall →
      (∀ chunk, program.compile options = .ok chunk →
        (∀ l ∈ chunk.instructions, l.instruction.CapturesBelow 0) ∧
          ∀ c, chunk.Contains c → c.WellFormed) ∧
      ∀ ds, program.compile options = .error ds → ∀ d ∈ ds, ∀ n, d.cause ≠ .jumpTooFar n) := by
  refine ⟨fun chunk h => (draft_of_compile h).symm, fun hsmall => ⟨fun chunk h => ?_, fun ds h => ?_⟩⟩
  · exact wellFormed_of_compile h (draft_of_compile h ▸ hsmall)
  · exact near_of_compile h hsmall

/-- A program with a loop, in which a function captures the variable of the function around it. -/
def capturing : Program :=
  ⟨[.function ⟨"main", {}⟩ [] [
      .variable ⟨"x", {}⟩ (.literal (.int 1) {}) {},
      .while (.binary .less (.name ⟨"x", {}⟩ {}) (.literal (.int 3) {}) {}) (.block [
        .function ⟨"next", {}⟩ [] [
          .return (some (.binary (.arithmetic .add) (.name ⟨"x", {}⟩ {}) (.literal (.int 1) {}) {})) {}] {},
        .expression (.assign (.name ⟨"x", {}⟩ {}) (.call (.name ⟨"next", {}⟩ {}) [] {}) {}) {}] {}) {}] {}]⟩

theorem compile_wellFormed_capturing : ∃ chunk, capturing.compile {} = .ok chunk ∧
    (capturing.draft {}).IsSmall ∧ ∀ c, chunk.Contains c → c.WellFormed := by
  obtain ⟨chunk, h⟩ := capturing.exists_chunk {} (by cbv)
  have hsmall : (capturing.draft {}).IsSmall := Chunk.isSmall_of_isSmallTo (n := 3) (by cbv)
  exact ⟨chunk, h, hsmall, (((compile_wellFormed capturing {}).2 hsmall).1 chunk h).2⟩

end Program

end StackScript
