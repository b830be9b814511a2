import StackScript.Proofs.Lowering.Script

/-!
# The constants of compiled programs

Compiling a program puts only numbers, texts, characters, names of properties, records that have no
methods yet and functions into its chunks. Each function has the name under which the program
declares it, or the name of functions without one.
-/

namespace StackScript

mutual

/-- The names of the functions and methods that an expression declares, at any depth. Functions
without a name have one that programs cannot write. -/
def Expr.functionNames : Expr → List String
  | .literal .. | .name .. => []
  | .binary _ left right _ | .logical _ left right _ | .assign left right _
  | .range left right _ _ => left.functionNames ++ right.functionNames
  | .unary _ operand _ => operand.functionNames
  | .call callee arguments _ => callee.functionNames ++ Expr.functionNamesOf arguments
  | .member object _ _ => object.functionNames
  | .arrow _ body _ => Lowering.lambdaName :: body.functionNames
  | .lambda _ body _ => Lowering.lambdaName :: Stmt.functionNamesOf body

/-- The names of the functions and methods that some expressions declare. -/
def Expr.functionNamesOf : List Expr → List String
  | [] => []
  | e :: es => e.functionNames ++ Expr.functionNamesOf es

/-- The names of the functions and methods that a statement declares, at any depth. -/
def Stmt.functionNames : Stmt → List String
  | .variable _ init _ => init.functionNames
  | .function id _ body _ => id.name :: Stmt.functionNamesOf body
  | .record _ _ methods _ => Method.functionNamesOf methods
  | .expression e _ => e.functionNames
  | .block body _ => Stmt.functionNamesOf body
  | .cond test consequent alternate _ =>
    test.functionNames ++ consequent.functionNames ++ Stmt.functionNamesOfOption alternate
  | .while test body _ => test.functionNames ++ body.functionNames
  | .loop body _ => body.functionNames
  | .forIn _ iterable body _ => iterable.functionNames ++ body.functionNames
  | .for _ init test update body _ =>
    init.functionNames ++ Expr.functionNamesOfOption test ++ Expr.functionNamesOfOption update ++
      body.functionNames
  | .return value _ => Expr.functionNamesOfOption value
  | .exit .. => []

/-- The names of the functions and methods that some statements declare. -/
def Stmt.functionNamesOf : List Stmt → List String
  | [] => []
  | s :: ss => s.functionNames ++ Stmt.functionNamesOf ss

/-- The names of the functions and methods that a statement declares, if there is one. -/
def Stmt.functionNamesOfOption : Option Stmt → List String
  | none => []
  | some s => s.functionNames

/-- The names of the functions and methods that an expression declares, if there is one. -/
def Expr.functionNamesOfOption : Option Expr → List String
  | none => []
  | some e => e.functionNames

/-- The names of some methods and of the functions that they declare. -/
def Method.functionNamesOf : List Method → List String
  | [] => []
  | ⟨id, _, body⟩ :: ms => id.name :: Stmt.functionNamesOf body ++ Method.functionNamesOf ms

end

/-- The names of all functions and methods of a program. -/
def Program.functionNames (program : Program) : List String := Stmt.functionNamesOf program.body

theorem mem_deeper {levels : List (Nat × String)} {n : Nat} {name : String} :
    (n, name) ∈ deeper levels ↔ ∃ m, n = m + 1 ∧ (m, name) ∈ levels := by
  unfold deeper
  rw [List.mem_map]
  constructor
  · rintro ⟨⟨m, s⟩, hm, he⟩
    cases he
    exact ⟨m, rfl, hm⟩
  · rintro ⟨m, rfl, hm⟩
    exact ⟨(m, name), hm, rfl⟩

/-- Every function that has a level has one of the names. -/
def Named (levels : List (Nat × String)) (names : List String) : Prop :=
  ∀ level ∈ levels, level.2 ∈ names

section

variable {l l' : List (Nat × String)} {ns ns' : List String}

theorem named_nil (ns : List String) : Named [] ns := nofun

theorem Named.append (h : Named l ns) (h' : Named l' ns') : Named (l ++ l') (ns ++ ns') := by
  intro level hl
  rcases List.mem_append.1 hl with hl | hl
  · exact List.mem_append_left _ (h level hl)
  · exact List.mem_append_right _ (h' level hl)

theorem Named.function (h : Named l ns) (name : String) :
    Named ((1, name) :: deeper l) (name :: ns) := by
  rintro ⟨n, s⟩ hl
  rcases List.mem_cons.1 hl with he | hl
  · cases he
    exact List.mem_cons_self
  · obtain ⟨m, -, hm⟩ := mem_deeper.1 hl
    exact List.mem_cons_of_mem _ (h (m, s) hm)

end

mutual

theorem Expr.named : (e : Expr) → Named e.functionLevels e.functionNames
  | .literal .. | .name .. => named_nil _
  | .binary _ left right _ | .logical _ left right _ | .assign left right _
  | .range left right _ _ => left.named.append right.named
  | .unary _ operand _ => operand.named
  | .call callee arguments _ => callee.named.append (Expr.namedOf arguments)
  | .member object _ _ => object.named
  | .arrow _ body _ => body.named.function _
  | .lambda _ body _ => (Stmt.namedOf body).function _

theorem Expr.namedOf : (es : List Expr) → Named (Expr.functionLevelsOf es) (Expr.functionNamesOf es)
  | [] => named_nil _
  | e :: es => e.named.append (Expr.namedOf es)

theorem Stmt.named : (s : Stmt) → Named s.functionLevels s.functionNames
  | .variable _ init _ => init.named
  | .function id _ body _ => (Stmt.namedOf body).function _
  | .record _ _ methods _ => Method.namedOf methods
  | .expression e _ => e.named
  | .block body _ => Stmt.namedOf body
  | .cond test consequent alternate _ => by
    rw [Stmt.functionNames, List.append_assoc]
    exact test.named.append (consequent.named.append (Stmt.namedOfOption alternate))
  | .while test body _ => test.named.append body.named
  | .loop body _ => body.named
  | .forIn _ iterable body _ => iterable.named.append body.named
  | .for _ init test update body _ => by
    have h := init.named.append ((Expr.namedOfOption update).append
      ((Expr.namedOfOption test).append body.named))
    intro level hl
    have hn := h level hl
    simp only [Stmt.functionNames, List.mem_append] at hn ⊢
    tauto
  | .return value _ => Expr.namedOfOption value
  | .exit .. => named_nil _

theorem Stmt.namedOf : (ss : List Stmt) → Named (Stmt.functionLevelsOf ss) (Stmt.functionNamesOf ss)
  | [] => named_nil _
  | s :: ss => s.named.append (Stmt.namedOf ss)

theorem Stmt.namedOfOption : (s : Option Stmt) →
    Named (Stmt.functionLevelsOfOption s) (Stmt.functionNamesOfOption s)
  | none => named_nil _
  | some s => s.named

theorem Expr.namedOfOption : (e : Option Expr) →
    Named (Expr.functionLevelsOfOption e) (Expr.functionNamesOfOption e)
  | none => named_nil _
  | some e => e.named

theorem Method.namedOf : (ms : List Method) →
    Named (Method.functionLevelsOf ms) (Method.functionNamesOf ms)
  | [] => named_nil _
  | ⟨id, _, body⟩ :: ms => ((Stmt.namedOf body).function id.name).append (Method.namedOf ms)

end

namespace Lowering

variable {P : String → Prop} {α : Type} {n : Nat} {L : List (Nat × String)}

/-- What makes no code adds no constants. -/
theorem Silent.constants_eq {x : Lower α} (h : Silent x) (c : Context) :
    (x c).2.frame.constants = c.frame.constants := by
  have hcount := (h c).count
  rw [Fragment.size_nil, Nat.add_zero] at hcount
  exact ((h c).constants.eq_of_length (Nat.le_antisymm (h c).constants.length_le hcount)).symm

/-! ## What the parts do to the constants -/

theorem nodup_intern {ks : List Constant} (h : ks.Nodup) (k : Constant) : (Chunk.intern ks k).2.Nodup := by
  unfold Chunk.intern
  cases hf : ks.findIdx? (· == k) with
  | some i => exact h
  | none =>
    refine List.nodup_append.2 ⟨h, by simp, ?_⟩
    rintro a ha _ hb rfl
    rw [List.mem_singleton.1 hb] at ha
    have hne := List.findIdx?_eq_none_iff.1 hf k ha
    rw [beq_self_eq_true] at hne
    cases hne

/-- The constants of the function that is being compiled are ordinary, and no two are equal. -/
def Context.Pooled (P : String → Prop) (c : Context) : Prop :=
  c.frame.constants.Nodup ∧ ∀ k ∈ c.frame.constants, k.Ordinary P

/-- The constant that a function becomes. -/
def functionConstant (name self : String) (params : List Ident) (span : Span) (body : Lower Fragment)
    (c : Context) : Constant :=
  let r := withParams params body (c.inside self)
  ⟨.function ⟨params.length.toUInt32, (returning r.1 span).toChunk (some name) r.2.frame.constants⟩⟩

theorem function_spec {name self : String} {params : List Ident} {span : Span}
    {body : Lower Fragment} (he : Emitting body) (hl : Gives (Lands false) body) (c : Context) :
    let k := functionConstant name self params span body c
    (∃ captures, (function name self params span body c).1 =
      .emit ⟨.pushClosure, ((constant k c).1, captures)⟩ span) ∧
    (function name self params span body c).2.frame.constants =
      (Chunk.intern c.frame.constants k).2 := by
  intro k
  let r := withParams params body (c.inside self)
  have hin : Emits (c.inside self) r.1 r.2 := (silent_declareParams params _).trans (he _)
  obtain ⟨g, gs, hg, -, hframes⟩ := List.forall₂_cons_left_iff.1 hin.enclosing
  have hsealed : (returning r.1 span).Sealed :=
    sealed_returning (hl (declareParams params (c.inside self)).2) span
  obtain ⟨fatal, hcheck, -⟩ := checkJumps_eq r.2 (fun _ _ _ => hsealed.distance_le)
  have houter : (r.2.enclosing.headD {}).constants = c.frame.constants := by
    rw [hframes, List.headD_cons, hg.constants]
  have heq : function name self params span body c = close name params span (returning r.1 span)
      (checkJumps (returning r.1 span) r.2).2 := function_eq ..
  rw [heq, hcheck]
  refine ⟨⟨r.2.frame.captures, ?_⟩, ?_⟩
  · show Fragment.emit ⟨.pushClosure,
      ((Chunk.intern (r.2.enclosing.headD {}).constants k).1.toUInt32, _)⟩ span = _
    rw [houter]
    rfl
  · show (Chunk.intern (r.2.enclosing.headD {}).constants k).2 = _
    rw [houter]

theorem Built.keeps {x : Lower α} (h : Built n L x) (hP : ∀ level ∈ L, P level.2) (c : Context) :
    c.frame.constants <+: (x c).2.frame.constants ∧ (c.Pooled P → (x c).2.Pooled P) := by
  have hintern {ks : List Constant} {k : Constant}
      (hks : ks.Nodup ∧ ∀ k ∈ ks, k.Ordinary P) (hk : k.Ordinary P) :
      (Chunk.intern ks k).2.Nodup ∧ ∀ k' ∈ (Chunk.intern ks k).2, k'.Ordinary P := by
    refine ⟨nodup_intern hks.1 k, fun k' hk' => ?_⟩
    rcases mem_intern hk' with h | rfl
    · exact hks.2 k' h
    · exact hk
  induction h generalizing c with
  | silent hs =>
    unfold Context.Pooled
    rw [hs.constants_eq]
    exact ⟨List.prefix_refl _, id⟩
  | constant hk => exact ⟨(intern_spec _ _).1, fun hc => hintern hc (hk P)⟩
  | @function _ L name self params span body _ he hl ih =>
    unfold Context.Pooled
    rw [(function_spec he hl c).2]
    refine ⟨(intern_spec _ _).1, fun hc => hintern hc ?_⟩
    have hparams := (silent_declareParams params).constants_eq (c.inside self)
    have hinside : ∀ level ∈ L, P level.2 := fun level hl =>
      hP (level.1 + 1, level.2) (List.mem_cons_of_mem _ (mem_deeper.2 ⟨_, rfl, hl⟩))
    obtain ⟨hnodup, hinner⟩ := (ih hinside (declareParams params (c.inside self)).2).2 (by
      unfold Context.Pooled
      rw [hparams]
      exact ⟨List.nodup_nil, nofun⟩)
    refine .function (Fragment.name_toChunk ..) (hP (1, name) List.mem_cons_self) ?_ ?_ <;>
      rw [Fragment.constants_toChunk]
    · exact hnodup
    · exact hinner
  | bind _ _ ihx ihf =>
    rw [List.forall_mem_append] at hP
    obtain ⟨hx, hpx⟩ := ihx hP.1 c
    obtain ⟨hf, hpf⟩ := ihf _ hP.2 _
    exact ⟨hx.trans hf, fun hc => hpf (hpx hc)⟩
  | message _ hsub _ ih => exact ih (fun level hl => hP level (hsub hl)) c
  | mono _ _ ih => exact ih hP c

end Lowering

/-- The constants of a compiled program are ordinary. -/
theorem Program.ordinary_of_compile {program : Program} {options : Options} {chunk : Chunk Constant}
    {P : String → Prop} (hnames : ∀ name ∈ program.functionNames, P name)
    (h : program.compile options = .ok chunk) :
    chunk.name = none ∧ ∀ k ∈ chunk.constants, k.Ordinary P := by
  obtain ⟨slot, -, -, -, rfl⟩ := Lowering.compile_eq_ok h
  rw [Fragment.name_toChunk, Fragment.constants_toChunk]
  have hpool := ((Lowering.built_statements options.strip none program.body).keeps
    (fun level hl => hnames _ (Stmt.namedOf program.body level hl))
    { globals := Lowering.hoist options program }).2
  exact ⟨rfl, (hpool ⟨List.nodup_nil, nofun⟩).2⟩

end StackScript
