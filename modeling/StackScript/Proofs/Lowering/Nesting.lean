import StackScript.Proofs.Lowering.Pools

/-!
# How deep functions are nested

A function that is declared in the body of another is a constant of that other one, so the functions
of a program and those among the constants of its chunk nest alike. The level of a function at the
top level is one, and it grows by one with each function around it; methods and functions without a
name count as well.
-/

namespace StackScript

/-- A function stands at a level of the given constants: among the constants themselves, or among the
constants of a function there, and so on. -/
inductive NestedIn : List Constant → Nat → Function Constant → Prop
  | here {ks : List Constant} {f : Function Constant} : ⟨.function f⟩ ∈ ks → NestedIn ks 1 f
  | inside {ks : List Constant} {f g : Function Constant} {n : Nat} : ⟨.function f⟩ ∈ ks →
      NestedIn f.chunk.constants n g → NestedIn ks (n + 1) g

/-- A function with the given name stands at a level of the given constants. -/
def NestsName (ks : List Constant) (n : Nat) (name : String) : Prop :=
  ∃ f, NestedIn ks n f ∧ f.chunk.name = some name

theorem nestsName_iff {ks : List Constant} {n : Nat} {name : String} :
    NestsName ks n name ↔ ∃ f, ⟨.function f⟩ ∈ ks ∧
      ((n = 1 ∧ f.chunk.name = some name) ∨ ∃ m, n = m + 1 ∧ NestsName f.chunk.constants m name) := by
  constructor
  · rintro ⟨g, hg, hname⟩
    cases hg with
    | here hf => exact ⟨g, hf, .inl ⟨rfl, hname⟩⟩
    | inside hf hg => exact ⟨_, hf, .inr ⟨_, rfl, g, hg, hname⟩⟩
  · rintro ⟨f, hf, ⟨rfl, hname⟩ | ⟨m, rfl, g, hg, hname⟩⟩
    · exact ⟨f, .here hf, hname⟩
    · exact ⟨g, .inside hf hg, hname⟩

namespace Lowering

variable {α : Type} {k : Nat} {L : List (Nat × String)}

theorem mem_intern_iff {ks : List Constant} {k k' : Constant} :
    k' ∈ (Chunk.intern ks k).2 ↔ k' ∈ ks ∨ k' = k := by
  constructor
  · exact mem_intern
  · rintro (h | rfl)
    · exact (intern_spec ks k).1.subset h
    · exact List.mem_of_getElem? (intern_spec ks k').2.2

theorem Built.nests {x : Lower α} (h : Built k L x) {c : Context} (hc : (x c).2.Clean) (n : Nat)
    (s : String) : NestsName (x c).2.frame.constants n s ↔
      NestsName c.frame.constants n s ∨ (n, s) ∈ L := by
  induction h generalizing c n with
  | silent hs =>
    rw [hs.constants_eq c]
    simp only [List.not_mem_nil, or_false]
  | @constant k hk =>
    have hmem (f : Function Constant) : (⟨.function f⟩ : Constant) ∈
        (Lowering.constant k c).2.frame.constants ↔ ⟨.function f⟩ ∈ c.frame.constants := by
      show _ ∈ (Chunk.intern c.frame.constants k).2 ↔ _
      rw [mem_intern_iff]
      refine or_iff_left fun he => ?_
      subst he
      cases hk fun _ => False with
      | function _ hname => exact hname
    rw [nestsName_iff, nestsName_iff]
    simp only [hmem, List.not_mem_nil, or_false]
  | @function _ L name self params span body _ he hl ih =>
    obtain ⟨-, hclean, -⟩ := function_of_clean hc
    rw [(function_spec he hl c).2]
    set r := withParams params body (c.inside self)
    set f : Function Constant := ⟨params.length.toUInt32,
      (returning r.1 span).toChunk (some name) r.2.frame.constants⟩ with hf
    -- the function begins without constants, so that all it has stem from its body
    have hbody (m : Nat) : NestsName f.chunk.constants m s ↔ (m, s) ∈ L := by
      have hnone : ¬ NestsName (declareParams params (c.inside self)).2.frame.constants m s := by
        rw [nestsName_iff, (silent_declareParams params).constants_eq]
        rintro ⟨g, hg, -⟩
        cases hg
      rw [hf, Fragment.constants_toChunk]
      exact (ih hclean m).trans (or_iff_right hnone)
    have hname : f.chunk.name = some s ↔ s = name := by
      rw [hf, Fragment.name_toChunk, Option.some_inj, eq_comm]
    have hown : ((n = 1 ∧ f.chunk.name = some s) ∨
        ∃ m, n = m + 1 ∧ NestsName f.chunk.constants m s) ↔ (n, s) ∈ (1, name) :: deeper L := by
      simp only [hname, hbody, List.mem_cons, mem_deeper, Prod.mk.injEq]
    have hk : functionConstant name self params span body c = ⟨.function f⟩ := rfl
    rw [hk, ← hown, nestsName_iff, nestsName_iff]
    simp only [mem_intern_iff, Constant.mk.injEq, Node.function.injEq, or_and_right, exists_or,
      exists_eq_left]
  | bind _ hf ihx ihf =>
    rw [List.mem_append, ← or_assoc, ← ihx ((hf _).evolves.clean _ hc) n]
    exact ihf _ hc n
  | message _ _ hm => exact absurd hc (hm c)
  | mono _ _ ih => exact ih hc n

end Lowering

theorem Program.nestsName_of_compile {program : Program} {options : Options} {chunk : Chunk Constant}
    (h : program.compile options = .ok chunk) (n : Nat) (name : String) :
    NestsName chunk.constants n name ↔ (n, name) ∈ program.functionLevels := by
  obtain ⟨slot, hclean, -, -, rfl⟩ := Lowering.compile_eq_ok h
  rw [Fragment.constants_toChunk]
  refine ((Lowering.built_statements options.strip none program.body).nests hclean n name).trans ?_
  refine or_iff_right fun hnone => ?_
  obtain ⟨f, hf, -⟩ := nestsName_iff.1 hnone
  cases hf

end StackScript
