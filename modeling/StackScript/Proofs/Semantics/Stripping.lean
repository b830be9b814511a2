import StackScript.Proofs.Lowering.Reporting
import StackScript.Proofs.Semantics.Preservation

/-!
# Programs without idle statements

Statements that are a literal or a name can be left out of a program. It then behaves as before,
unless such a name stands for a global that has no value yet, and it is compiled without them
exactly if it is with them.
-/

namespace StackScript.Semantics

section

variable {s : Setting} {b : Bool} {call call' : Val → List Val → Eval Val}

theorem agrees_topLevel (h : Omits s b call call') (ss : List Stmt) :
    Agrees (topLevel s call ss) (topLevel { s with strip := b } call' ss) := by
  induction ss with
  | nil => exact fun _ => .inl rfl
  | cons st ss ih =>
    have hdefine (name : String) (v : Val) :
        Agrees (do defineGlobal name v; topLevel s call ss)
          (do defineGlobal name v; topLevel { s with strip := b } call' ss) :=
      Agrees.bind (fun _ => .inl rfl) fun _ => ih
    cases st with
    | «variable» id init span => exact (follows_expression h [] init).agrees.bind (hdefine id.name)
    | function id params body span => exact Agrees.bind (fun _ => .inl rfl) (hdefine id.name)
    | _ => exact (follows_statement h [] _).agrees.bind fun _ => ih

theorem agrees_script (hb : s.strip = true → b = true) (entry : String) (program : Program) :
    Agrees (script s entry program) (script { s with strip := b } entry program) := by
  have h : Omits s b (invoke s (Machine.maxFrames - 1))
      (invoke { s with strip := b } (Machine.maxFrames - 1)) := ⟨hb, follows_invoke hb _⟩
  exact (agrees_topLevel h program.body).bind fun _ => Agrees.bind (fun _ => .inl rfl) fun f =>
    (h.call f []).agrees.bind fun _ _ => .inl rfl

end

theorem strip_compile {program : Program} {options : Options}
    (hfull : (program.draft { options with strip := false }).IsSmall)
    (hstripped : (program.draft { options with strip := true }).IsSmall) :
    (∃ full stripped, program.compile { options with strip := false } = .ok full ∧
      program.compile { options with strip := true } = .ok stripped) ∨
    ∃ ds, program.compile { options with strip := false } = .error ds ∧
      program.compile { options with strip := true } = .error ds := by
  have hsame : program.violations { options with strip := true } =
      program.violations { options with strip := false } := rfl
  rw [Program.compile_of_isSmall hfull, Program.compile_of_isSmall hstripped, hsame]
  split
  · exact .inl ⟨_, _, rfl, rfl⟩
  · exact .inr ⟨_, rfl, rfl⟩

/-- The program has ended because a global has no value. -/
def Behavior.misses (b : Behavior) : Prop := ∃ slot, b.outcome = .failed (.undefinedGlobal slot)

theorem strip_behavior_iff {program : Program} {options : Options} {full stripped : Chunk Constant}
    {natives : List Native} {host : Host} {view : HostView}
    (hfull : program.compile { options with strip := false } = .ok full)
    (hstripped : program.compile { options with strip := true } = .ok stripped)
    (hplain : program.isPlain = true) (hnatives : options.natives = natives.map Native.name)
    (hdistinct : options.natives.Nodup) (hview : view.Describes host)
    (hlocals : Machine.maxFrames * (program.size + 1) ≤ 2 ^ 32)
    (hglobals : natives.length + program.size ≤ 2 ^ 32) (store : Store) :
    (∃ b steps, b.misses ∧ Machine.behavior? host steps
      (Machine.start (full.load store).2 natives (full.load store).1) = some b) ∨
    ∀ b, (∃ steps, Machine.behavior? host steps
        (Machine.start (full.load store).2 natives (full.load store).1) = some b) ↔
      ∃ steps, Machine.behavior? host steps
        (Machine.start (stripped.load store).2 natives (stripped.load store).1) = some b := by
  have hsim := exists_sim hfull hplain hnatives hdistinct hview hlocals hglobals store
  have hsim' := exists_sim hstripped hplain hnatives hdistinct hview hlocals hglobals store
  by_cases hmisses : ∃ b steps, b.misses ∧ Machine.behavior? host steps
      (Machine.start (full.load store).2 natives (full.load store).1) = some b
  · exact .inl hmisses
  · refine .inr fun b => ?_
    rw [← behavior_iff_of_sim hsim, ← behavior_iff_of_sim hsim']
    refine exists_congr fun rounds => Eq.to_iff ?_
    have hagrees : Agrees (script (setting view { options with strip := false } program rounds) _ _)
        (script (setting view { options with strip := true } program rounds) _ _) :=
      agrees_script (by rintro ⟨⟩) options.entry program
    rcases hagrees (Pairing.startWorld natives) with he | ⟨stop, w, he, hstop⟩
    · exact congrArg (resultBehavior? · = some b) he.symm
    · obtain ⟨A, rfl, hA⟩ := hsim rounds
      rw [show script (setting view { options with strip := false } program rounds) _ _ _ = _ from he] at hA
      cases stop with
      | unfinished => cases hstop
      | undefined => cases hA
      | fault f =>
        cases f with
        | undefinedGlobal slot =>
          obtain ⟨steps, h⟩ := hA.behavior.1 _ rfl
          exact absurd ⟨_, steps, ⟨slot, rfl⟩, h⟩ hmisses
        | _ => cases hstop

end StackScript.Semantics
