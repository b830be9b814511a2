import StackScript.Proofs.Lowering.Parts

/-!
# Compiling whole programs

Without messages the statements at the top level are compiled like those of a function body, and
behind them stands the call of the function that the program starts with.
-/

namespace StackScript.Lowering

open Fragment (emit)

variable {c : Context} {strip : Bool} {ss : List Stmt} {program : Program}

theorem unmute_of_clean (hh : c.Honest) (h : (unmute c).2.Clean) : c.Clean ∧ (unmute c).2 = c := by
  have hm : c.muted = false := by
    cases hm : c.muted with
    | false => rfl
    | true => exact absurd h.messages (hh hm)
  refine ⟨⟨h.messages, h.fatal, hm⟩, ?_⟩
  show { c with muted := false } = c
  rw [← hm]

theorem honest_unmute (c : Context) : (unmute c).2.Honest := nofun

theorem topLevel_of_clean (hh : c.Honest) (h : (topLevel strip ss c).2.Clean) :
    c.Clean ∧ topLevel strip ss c = statements strip none ss c := by
  induction ss generalizing c with
  | nil => exact ⟨h, rfl⟩
  | cons s ss ih =>
    have hev := evolves_statement strip none s
    obtain ⟨hc, he⟩ := ih (hev.honest _ (honest_unmute c)) h
    obtain ⟨hclean, hu⟩ := unmute_of_clean hh (hev.clean _ hc)
    refine ⟨hclean, ?_⟩
    have hrest : topLevel strip (s :: ss) c =
        ((statement strip none s (unmute c).2).1 ++
          (topLevel strip ss (statement strip none s (unmute c).2).2).1,
          (topLevel strip ss (statement strip none s (unmute c).2).2).2) := rfl
    rw [hrest, he, hu]
    rfl

theorem honest_topLevel (hh : c.Honest) : (topLevel strip ss c).2.Honest := by
  induction ss generalizing c with
  | nil => exact hh
  | cons s ss ih => exact ih ((evolves_statement strip none s).honest _ (honest_unmute c))

/-- Code that calls the function in a slot and ends the program. -/
def startCode (slot : UInt32) : Fragment :=
  emit ⟨.getGlobal, slot⟩ {} ++ emit ⟨.call, 0⟩ {} ++ emit ⟨.pop, ()⟩ {} ++ emit ⟨.exitSuccess, ()⟩ {}

theorem entryCall_cases (entry : String) (program : Program) (c : Context) :
    (∃ slot, c.globals.slot? entry = some slot ∧
      (program.body.filterMap Stmt.function?).any (·.name = entry) = true ∧
      entryCall entry program c = (startCode slot.toUInt32, (unmute c).2)) ∨
    (c.globals.slot? entry = none ∨ (program.body.filterMap Stmt.function?).any (·.name = entry) = false) ∧
      entryCall entry program c = ([], (report (.missingEntry entry) {} (unmute c).2).2) := by
  rw [entryCall, bind_apply, bind_apply]
  have hget : ((get : Lower Context) (unmute c).2).1.globals.slot? entry = c.globals.slot? entry := rfl
  rw [hget]
  cases c.globals.slot? entry with
  | none => exact .inr ⟨.inl rfl, rfl⟩
  | some slot =>
    cases (program.body.filterMap Stmt.function?).any (·.name = entry) with
    | false => exact .inr ⟨.inr rfl, rfl⟩
    | true => exact .inl ⟨slot, rfl, rfl, rfl⟩

theorem entryCall_of_clean {entry : String} (hh : c.Honest)
    (h : (entryCall entry program c).2.Clean) :
    ∃ slot, c.globals.slot? entry = some slot ∧ c.Clean ∧
      entryCall entry program c = (startCode slot.toUInt32, c) := by
  rcases entryCall_cases entry program c with ⟨slot, hs, -, he⟩ | ⟨-, he⟩
  · rw [he] at h ⊢
    obtain ⟨hc, hu⟩ := unmute_of_clean hh h
    exact ⟨slot, hs, hc, by rw [hu]⟩
  · rw [he] at h
    exact absurd h (not_clean_report _ _ _)

theorem honest_entryCall (entry : String) (program : Program) (c : Context) :
    (entryCall entry program c).2.Honest := by
  rcases entryCall_cases entry program c with ⟨slot, -, -, he⟩ | ⟨-, he⟩
  · rw [he]
    exact honest_unmute c
  · rw [he]
    exact (evolves_report _ _).honest _ (honest_unmute c)

theorem script_eq (options : Options) (program : Program) (c : Context) :
    script options program c = (do
      let body ← topLevel options.strip program.body
      let call ← entryCall options.entry program
      checkJumps (body ++ call)
      return body ++ call) c := by
  rcases hb : topLevel options.strip program.body c with ⟨body, c₁⟩
  rcases he : entryCall options.entry program c₁ with ⟨call, c₂⟩
  simp only [script, bind, StateT.bind, hb, he, checkJumps]
  cases Fragment.farJump? 0 _ <;> rfl

/-- A program is compiled if there is nothing to report. -/
theorem compile_eq (options : Options) (program : Program) :
    let r := script options program { globals := hoist options program }
    program.compile options = if (r.2.messages ++ r.2.fatal.toList).isEmpty then
      .ok (r.1.toChunk none r.2.frame.constants) else .error (r.2.messages ++ r.2.fatal.toList) := by
  intro r
  have hrun : (script options program).run { globals := hoist options program } = (r.1, r.2) := rfl
  rw [Program.compile, hrun]
  dsimp only
  cases r.2.messages ++ r.2.fatal.toList <;> rfl

theorem compile_eq_ok {options : Options} {chunk : Chunk Constant}
    (h : program.compile options = .ok chunk) :
    let r := statements options.strip none program.body { globals := hoist options program }
    ∃ slot, r.2.Clean ∧ r.2.globals.slot? options.entry = some slot ∧
      (r.1 ++ startCode slot.toUInt32).farJump? 0 = none ∧
      chunk = (r.1 ++ startCode slot.toUInt32).toChunk none r.2.frame.constants := by
  intro r
  set c : Context := { globals := hoist options program } with hc
  rw [compile_eq, ← hc] at h
  set t := topLevel options.strip program.body c
  set e := entryCall options.entry program t.2 with he
  have hs : script options program c = (t.1 ++ e.1, (checkJumps (t.1 ++ e.1) e.2).2) := by
    rw [script_eq]
    rfl
  rw [hs] at h
  split at h
  · rename_i hm
    obtain ⟨hmessages, hfatal⟩ := List.append_eq_nil_iff.1 (List.isEmpty_iff.1 hm)
    have hhonest := (evolves_checkJumps (t.1 ++ e.1)).honest e.2 (honest_entryCall _ _ t.2)
    have hclean : (checkJumps (t.1 ++ e.1) e.2).2.Clean := by
      refine ⟨hmessages, by simpa using hfatal, ?_⟩
      cases hmute : (checkJumps (t.1 ++ e.1) e.2).2.muted with
      | false => rfl
      | true => exact absurd hmessages (hhonest hmute)
    obtain ⟨hfar, hsame⟩ := farJump?_of_clean hclean
    rw [hsame] at h hclean
    have hth : t.2.Honest := honest_topLevel nofun
    obtain ⟨slot, hslot, htclean, hcall⟩ := entryCall_of_clean hth hclean
    obtain ⟨-, hstatements⟩ := topLevel_of_clean (c := c) nofun htclean
    have hr : t = r := hstatements
    rw [← he] at hcall
    rw [hcall] at h hfar
    rw [hr] at h hfar hslot htclean
    exact ⟨slot, htclean, hslot, hfar, (Except.ok.inj h).symm⟩
  · cases h

end StackScript.Lowering

theorem StackScript.Program.exists_chunk (program : Program) (options : Options)
    (h : (program.compile options).toOption.isSome = true) :
    ∃ chunk, program.compile options = .ok chunk := by
  cases hc : program.compile options with
  | ok chunk => exact ⟨chunk, rfl⟩
  | error messages =>
    rw [hc] at h
    cases h
