import Mathlib
import StackScript.Proofs.Code.WellFormed
import StackScript.Proofs.Lowering.Pools
import StackScript.Proofs.Machine.Comparison

/-!
# Constants are stored once

A compiled function has no two equal constants. Its constants are numbers, texts, records without
methods and functions, so their comparison locks nothing and always has an answer. The index that a
constant gets leads to it until the function is finished.
-/

namespace StackScript

open Lowering

variable {program : Program} {options : Options} {chunk : Chunk Constant}

/-! ## Comparing constants -/

theorem Constant.Ordinary.isSome_same {P : String → Prop} {s : Store} {d : Nat} {v : Value}
    (h : (s.snapshot d v).Ordinary P) (w : Value) (locked : List CellRef) :
    (s.same d locked v w).isSome = true := by
  induction d generalizing v w with
  | zero => rfl
  | succ d ih =>
    rw [Store.same]
    split
    · rfl
    refine Store.allM_isSome ?_
    rw [Store.snapshot] at h
    unfold Store.checks
    split
    · simp only [Store.functionChecks, List.cons_append, List.forall_mem_cons, List.forall_mem_append,
        List.forall_mem_map]
      refine ⟨rfl, fun p hp => ?_, rfl, List.forall_mem_nil _⟩
      cases h with
      | function _ _ _ hks => exact ih (hks _ (List.mem_map_of_mem (List.of_mem_zip hp).1)) _
    · cases h
    · rename_i r q _
      obtain ⟨key, name, fields, methods⟩ := r
      cases methods with
      | nil => exact List.forall_mem_singleton.2 rfl
      | cons m ms => cases h
    · split
      · rename_i hi _
        rw [Store.node, hi] at h
        cases h
      · exact List.forall_mem_singleton.2 rfl
    · cases h
    · exact List.forall_mem_singleton.2 rfl

/-! ## What a function asks for -/

namespace Lowering

variable {α : Type} {L : List (Nat × String)} {c : Context} {k : Constant}

/-- During the compilation of a function a constant is asked for, and gets an index. -/
inductive Asks : {α : Type} → Lower α → Context → Constant → UInt32 → Prop
  | constant {k : Constant} {c : Context} : (∀ P, k.Ordinary P) → Asks (constant k) c k (constant k c).1
  | function {n : Nat} {L : List (Nat × String)} {name self : String} {params : List Ident} {span : Span}
      {body : Lower Fragment} {c : Context} {index : UInt32} {captures : List Capture} :
      Built n L body → Emitting body → Gives (Lands false) body →
      (function name self params span body c).1 = .emit ⟨.pushClosure, (index, captures)⟩ span →
      Asks (function name self params span body) c
        (functionConstant name self params span body c) index
  | first {α β : Type} {n : Nat} {L : List (Nat × String)} {x : Lower α} {f : α → Lower β} {c : Context}
      {k : Constant} {i : UInt32} : Asks x c k i → (∀ a, Built n L (f a)) → Asks (x >>= f) c k i
  | later {α β : Type} {n : Nat} {L : List (Nat × String)} {x : Lower α} {f : α → Lower β} {c : Context}
      {k : Constant} {i : UInt32} : Built n L x → Asks (f (x c).1) (x c).2 k i → Asks (x >>= f) c k i

/-- During the compilation of a function another function inside it is compiled, at any depth. -/
inductive Opens : {α : Type} → Lower α → Context → Lower Fragment → Context → Prop
  | function {n : Nat} {L : List (Nat × String)} {name self : String} {params : List Ident} {span : Span}
      {body : Lower Fragment} {c : Context} : Built n L body → Emitting body → Gives (Lands false) body →
      Opens (function name self params span body) c (withParams params body) (c.inside self)
  | inside {n : Nat} {L : List (Nat × String)} {name self : String} {params : List Ident} {span : Span}
      {body b : Lower Fragment} {c c' : Context} : Built n L body → Emitting body → Gives (Lands false) body →
      Opens (withParams params body) (c.inside self) b c' →
      Opens (function name self params span body) c b c'
  | first {α β : Type} {n : Nat} {L : List (Nat × String)} {x : Lower α} {f : α → Lower β} {c c' : Context}
      {b : Lower Fragment} : Opens x c b c' → (∀ a, Built n L (f a)) → Opens (x >>= f) c b c'
  | later {α β : Type} {n : Nat} {L : List (Nat × String)} {x : Lower α} {f : α → Lower β} {c c' : Context}
      {b : Lower Fragment} : Built n L x → Opens (f (x c).1) (x c).2 b c' → Opens (x >>= f) c b c'

theorem Built.prefixes {x : Lower α} (h : Built n L x) (c : Context) :
    c.frame.constants <+: (x c).2.frame.constants :=
  (h.keeps (P := fun _ => True) (fun _ _ => trivial) c).1

theorem Built.length_constants_le {x : Lower α} (h : Built n L x) (c : Context) :
    (x c).2.frame.constants.length ≤ c.frame.constants.length + n ∧
      ∀ f, ⟨.function f⟩ ∈ (x c).2.frame.constants → ⟨.function f⟩ ∈ c.frame.constants ∨
        ∀ d, f.chunk.Contains d → d.constants.length ≤ n := by
  induction h generalizing c with
  | silent hs _ =>
    rw [hs.constants_eq c]
    exact ⟨Nat.le_add_right .., fun _ => .inl⟩
  | constant hord =>
    refine ⟨(intern_spec ..).2.1, fun f hf => (mem_intern hf).imp_right ?_⟩
    rintro rfl
    cases hord fun _ => False with
    | function _ hfalse => exact hfalse.elim
  | @function n _ name self params span body _ he hl ih =>
    rw [(function_spec he hl c).2]
    refine ⟨Nat.le_trans (intern_spec ..).2.1 (by omega), fun f hf => (mem_intern hf).imp_right ?_⟩
    rintro ⟨⟩ d hd
    obtain ⟨hlength, hinside⟩ := ih (declareParams params (c.inside self)).2
    have hnone : (declareParams params (c.inside self)).2.frame.constants = [] :=
      (silent_declareParams params).constants_eq _
    rw [hnone] at hlength hinside
    rcases hd.cases_head with rfl | ⟨g, hg, hd⟩ <;> rw [Fragment.constants_toChunk] at *
    · exact Nat.le_trans hlength (by simp; omega)
    · exact Nat.le_trans (((hinside g hg).resolve_left (List.not_mem_nil)) d hd) (by omega)
  | bind _ _ ihx ihf =>
    obtain ⟨hx, hinx⟩ := ihx c
    obtain ⟨hf, hinf⟩ := ihf _ _
    refine ⟨Nat.le_trans hf (by omega), fun g hg => ?_⟩
    rcases hinf g hg with hg | hg
    · exact (hinx g hg).imp_right fun h d hd => Nat.le_trans (h d hd) (Nat.le_add_right ..)
    · exact .inr fun d hd => Nat.le_trans (hg d hd) (Nat.le_add_left ..)
  | message _ _ _ ih => exact ih c
  | mono _ hm ih =>
    exact ⟨Nat.le_trans (ih c).1 (Nat.add_le_add_left hm _), fun f hf => ((ih c).2 f hf).imp_right
      fun h d hd => Nat.le_trans (h d hd) hm⟩

theorem Asks.getElem?_eq {x : Lower α} {i : UInt32} (h : Asks x c k i)
    (hsmall : (x c).2.frame.constants.length ≤ 2 ^ 32) :
    (x c).2.frame.constants[i.toNat]? = some k := by
  have hintern {ks : List Constant} {k : Constant} (hks : (Chunk.intern ks k).2.length ≤ 2 ^ 32) :
      (Chunk.intern ks k).2[(Chunk.intern ks k).1.toUInt32.toNat]? = some k := by
    have hk := (intern_spec ks k).2.2
    have hlt := (List.getElem?_eq_some_iff.1 hk).1
    rw [Word.toNat_toUInt32 (by omega), hk]
  induction h with
  | constant _ => exact hintern hsmall
  | function _ he hl hcode =>
    obtain ⟨⟨captures, hmade⟩, hpool⟩ := function_spec he hl _
    rw [hmade] at hcode
    cases hcode
    rw [hpool] at hsmall ⊢
    exact hintern hsmall
  | @first _ _ _ _ x f c k i _ hf ih =>
    have hkeep := (hf (x c).1).prefixes (x c).2
    have hk := ih (Nat.le_trans hkeep.length_le hsmall)
    show (f (x c).1 (x c).2).2.frame.constants[i.toNat]? = some k
    obtain ⟨ks, hks⟩ := hkeep
    rw [← hks, List.getElem?_append_left (List.getElem?_eq_some_iff.1 hk).1, hk]
  | later _ _ ih => exact ih hsmall

theorem Built.asks {x : Lower α} (h : Built n L x) (c : Context) (hk : k ∈ (x c).2.frame.constants) :
    k ∈ c.frame.constants ∨ ∃ i, Asks x c k i := by
  induction h generalizing c with
  | silent hs => exact .inl (hs.constants_eq c ▸ hk)
  | constant hord =>
    rcases mem_intern hk with h | rfl
    · exact .inl h
    · exact .inr ⟨_, .constant hord⟩
  | function hbody he hl _ =>
    obtain ⟨⟨captures, hmade⟩, hpool⟩ := function_spec he hl c
    rw [hpool] at hk
    rcases mem_intern hk with h | rfl
    · exact .inl h
    · exact .inr ⟨_, .function hbody he hl hmade⟩
  | bind hx hf ihx ihf =>
    rcases ihf _ _ hk with h | ⟨i, hi⟩
    · exact (ihx c h).imp_right fun ⟨i, hi⟩ => ⟨i, hi.first hf⟩
    · exact .inr ⟨i, .later hx hi⟩
  | message _ _ _ ih => exact ih c hk
  | mono _ _ ih => exact ih c hk

theorem Opens.contains {x : Lower α} {c' : Context} {b : Lower Fragment} (h : Opens x c b c') :
    ((∃ n L, Built n L b) ∧ c'.frame.constants = []) ∧
      ∃ f, ⟨.function f⟩ ∈ (x c).2.frame.constants ∧
        ∃ d, f.chunk.Contains d ∧ d.constants = (b c').2.frame.constants := by
  have hmem {name self params span body} {c : Context} (he : Emitting body)
      (hl : Gives (Lands false) body) : functionConstant name self params span body c ∈
        (Lowering.function name self params span body c).2.frame.constants := by
    rw [(function_spec he hl c).2]
    exact List.mem_of_getElem? (intern_spec ..).2.2
  induction h with
  | @function _ _ _ _ params _ _ _ hbody he hl =>
    have hparams := Built.silent (silent_declareParams params) (evolves_declareParams params)
    exact ⟨⟨⟨_, _, hparams.bind fun _ => hbody⟩, rfl⟩, _, hmem he hl, _, .self,
      Fragment.constants_toChunk ..⟩
  | inside _ he hl _ ih =>
    obtain ⟨hb, f, hf, d, hd, hpool⟩ := ih
    refine ⟨hb, _, hmem he hl, d, (Chunk.Contains.self.function ?_).trans hd, hpool⟩
    rwa [Fragment.constants_toChunk]
  | @first _ _ _ _ x _ c _ _ _ hf ih =>
    obtain ⟨hb, f, hmem, hd⟩ := ih
    exact ⟨hb, f, ((hf (x c).1).prefixes (x c).2).subset hmem, hd⟩
  | later _ _ ih => exact ih

end Lowering

/-! ## Compiled programs -/

theorem Chunk.Contains.pooled {P : String → Prop} {root c : Chunk Constant} (h : root.Contains c)
    (hroot : root.constants.Nodup ∧ ∀ k ∈ root.constants, k.Ordinary P) :
    c.constants.Nodup ∧ ∀ k ∈ c.constants, k.Ordinary P := by
  induction h with
  | self => exact hroot
  | function _ hf ih =>
    cases ih.2 _ hf with
    | function _ _ hnodup hks => exact ⟨hnodup, hks⟩

/-- The compilation of the program and of each function in it: what is compiled and from where. -/
inductive Program.Compiles (program : Program) (options : Options) : Lower Fragment → Context → Prop
  | script : Compiles program options (statements options.strip none program.body)
      { globals := hoist options program }
  | function {b : Lower Fragment} {c : Context} :
      Opens (statements options.strip none program.body)
        { globals := hoist options program } b c → Compiles program options b c

theorem Program.pooled_of_compile (h : program.compile options = .ok chunk) :
    chunk.constants.Nodup ∧ ∀ k ∈ chunk.constants, k.Ordinary fun _ => True := by
  obtain ⟨slot, -, -, -, rfl⟩ := compile_eq_ok h
  rw [Fragment.constants_toChunk]
  exact ((built_statements options.strip none program.body).keeps (fun _ _ => trivial)
    { globals := hoist options program }).2 ⟨List.nodup_nil, nofun⟩

theorem Program.length_constants_le (h : program.compile options = .ok chunk) {c : Chunk Constant}
    (hin : chunk.Contains c) : c.constants.length ≤ program.size := by
  obtain ⟨slot, -, -, -, rfl⟩ := compile_eq_ok h
  obtain ⟨hlength, hinside⟩ := (built_statements options.strip none program.body).length_constants_le
    { globals := hoist options program }
  rcases hin.cases_head with rfl | ⟨f, hf, hd⟩ <;> rw [Fragment.constants_toChunk] at *
  · exact Nat.le_trans hlength (Nat.le_of_eq (Nat.zero_add _))
  · exact ((hinside f hf).resolve_left List.not_mem_nil) c hd

theorem Program.Compiles.contains {b : Lower Fragment} {start : Context}
    (hb : program.Compiles options b start) (h : program.compile options = .ok chunk) :
    ((∃ n L, Built n L b) ∧ start.frame.constants = []) ∧
      ∃ c, chunk.Contains c ∧ c.constants = (b start).2.frame.constants := by
  obtain ⟨slot, -, -, -, rfl⟩ := compile_eq_ok h
  cases hb with
  | script =>
    exact ⟨⟨⟨_, _, built_statements _ _ _⟩, rfl⟩, _, .self,
      Fragment.constants_toChunk ..⟩
  | function ho =>
    obtain ⟨hb, f, hf, d, hd, hpool⟩ := ho.contains
    refine ⟨hb, d, (Chunk.Contains.self.function ?_).trans hd, hpool⟩
    rwa [Fragment.constants_toChunk]

/-- Having the same contents is an equivalence of the values whose layers end: the comparison of two that
stand for the same tree comes to an end, and every answer says whether they do. No function of a compiled
program has two equal constants, in whatever store they live, and during the compilation of each the index
that a constant gets leads to an equal one in the finished chunk. -/
theorem Program.pools_of_compile :
    (∀ (s : Store) (V : Value → Prop), s.Keyed V →
      Equivalence (fun v w : {v // V v ∧ ∃ d, s.Ends d v} => s.Equal v w) ∧
      ∀ d v w, V v → V w →
        (∀ locked b, s.same d locked v w = some b → b = (s.snapshot d v).same (s.snapshot d w)) ∧
        (s.Ends d v → (s.Equal v w ↔ s.same d [] v w = some true) ∧
          (s.Equal v w ↔ (s.snapshot d v).same (s.snapshot d w) = true))) ∧
    Equivalence (fun a b : Constant => a.same b = true) ∧
    ∀ (program : Program) (options : Options) (chunk : Chunk Constant),
      program.compile options = .ok chunk →
      (∀ c, chunk.Contains c → c.constants.length ≤ program.size ∧
        c.constants.Pairwise (fun a b => a.same b = false) ∧
        ∀ (s : Store) (V : Value → Prop), s.Keyed V → ∀ d v w, V v → V w →
          s.snapshot d v ∈ c.constants → s.snapshot d w ∈ c.constants →
          s.same d [] v w = some ((s.snapshot d v).same (s.snapshot d w))) ∧
      ∀ b start, program.Compiles options b start → ∃ c, chunk.Contains c ∧
        c.constants = (b start).2.frame.constants ∧
        (∀ k ∈ c.constants, ∃ i, Asks b start k i) ∧
        (c.constants.length ≤ 2 ^ 32 → ∀ k i, Asks b start k i →
          ∃ k', c.constants[i.toNat]? = some k' ∧ k'.same k = true) := by
  have hanswer {s : Store} {V : Value → Prop} (h : s.Keyed V) {d : Nat} {v w : Value} (hv : V v) (hw : V w)
      {locked : List CellRef} {b : Bool} (hb : s.same d locked v w = some b) :
      b = (s.snapshot d v).same (s.snapshot d w) := by
    rw [Bool.eq_iff_iff, Store.same_eq_some h hv hw hb, Constant.same_iff]
  refine ⟨fun s V h => ⟨h.equivalence, fun d v w hv hw => ⟨fun locked b => hanswer h hv hw,
    fun hends => ⟨Store.equal_iff_same h hv hw hends, ?_⟩⟩⟩, ?_,
    fun program options chunk hc => ⟨fun c hin => ⟨Program.length_constants_le hc hin, ?_,
      fun s V h d v w hv hw hkv _ => ?_⟩, fun b start hb => ?_⟩⟩
  · rw [Store.equal_iff_alike h hv hw hends, Constant.same_iff]
    exact ⟨fun ha => ha d, Store.alike_of_ends hends⟩
  · simp only [Constant.same_iff]
    exact ⟨.refl, .symm, .trans⟩
  · refine (hin.pooled (Program.pooled_of_compile hc)).1.imp fun {a b} hne => ?_
    rw [← Bool.not_eq_true, Constant.same_iff]
    exact hne
  · have hord := (hin.pooled (Program.pooled_of_compile hc)).2 _ hkv
    obtain ⟨b, hb⟩ := Option.isSome_iff_exists.1 (hord.isSome_same w [])
    rw [hb, hanswer h hv hw hb]
  · obtain ⟨⟨⟨_, _, hbuilt⟩, hempty⟩, c, hin, hpool⟩ := hb.contains hc
    refine ⟨c, hin, hpool, fun k hk => ?_, fun hsmall k i hi => ⟨k, ?_, (Constant.same_iff k k).2 rfl⟩⟩
    · exact (hbuilt.asks start (hpool ▸ hk)).resolve_left (by simp [hempty])
    · rw [hpool] at hsmall ⊢
      exact hi.getElem?_eq hsmall

/-- A program that writes the same number twice, in a function and in a function inside it. -/
def Program.repeating : Program :=
  ⟨[.function ⟨"main", {}⟩ [] [
      .variable ⟨"f", {}⟩ (.arrow [] (.binary (.arithmetic .add) (.literal (.int 7) {})
        (.literal (.int 7) {}) {}) {}) {},
      .return (some (.binary (.arithmetic .add) (.literal (.int 7) {}) (.literal (.int 7) {}) {})) {}] {}]⟩

/-- A store with two closures over variables that hold 1, one over a variable that holds the first of them,
one over a variable that holds that one, and an instance of a record with a method. -/
def Store.nested : Store where
  cells := #[⟨0, 0, some (.int 1)⟩, ⟨0, 0, some (.int 1)⟩, ⟨0, 0, some (.closure (code 0 0))⟩,
    ⟨0, 0, some (.closure (code 2 2))⟩]
  instances := #[⟨[.closure (code 0 0), .float .invalid], ⟨4, ⟨"R", ["a", "b"], [code 5 1]⟩⟩⟩]
where
  /-- A closure over one variable. -/
  code (key cell : Nat) : Value.Method := ⟨key, ⟨⟨0, ⟨some "f", #[], [.float .invalid], #[]⟩⟩, [⟨cell⟩]⟩⟩

open Store.nested in
/-- The values in the store. -/
def Store.nested.values : List Value :=
  [.int 1, .float .invalid, .closure (code 0 0), .closure (code 1 1), .closure (code 2 2),
    .closure (code 3 3), .record ⟨4, ⟨"R", ["a", "b"], [code 5 1]⟩⟩, .instanceOf ⟨0⟩]

theorem Store.nested.keyed : nested.Keyed (· ∈ values) where
  parts := by
    simp [values, nested, code, node, closureNode, recordNode, cell, instance?, Node.parts, Closure.parts, Function.parts, Record.parts, Record.map]
  eq v w hv hw h := by
    simp only [values, List.mem_cons, List.not_mem_nil, or_false] at hv hw
    rcases hv with rfl | rfl | rfl | rfl | rfl | rfl | rfl | rfl <;>
      rcases hw with rfl | rfl | rfl | rfl | rfl | rfl | rfl | rfl <;>
        first | rfl | exact absurd h (by decide)
  present := by
    simp [values, nested, instance?]

theorem Store.nested.ends : ∀ v ∈ values, nested.Ends 4 v := by
  simp [values, nested, code, node, closureNode, recordNode, cell, instance?, Node.parts, Closure.parts, Function.parts, Record.parts, Record.map, Ends]

open Store.nested in
theorem Program.pools_of_compile_repeating :
    Store.nested.Keyed (· ∈ values) ∧ (∀ v ∈ values, Store.nested.Ends 4 v) ∧
    Equivalence (fun v w : {v // v ∈ values ∧ ∃ d, Store.nested.Ends d v} => Store.nested.Equal v w) ∧
    Store.nested.Equal (.closure (code 0 0)) (.closure (code 1 1)) ∧
    Store.nested.same 4 [] (.closure (code 2 2)) (.closure (code 3 3)) = none ∧
    ∃ chunk, repeating.compile {} = .ok chunk ∧
      (∀ c, chunk.Contains c → c.constants.Pairwise fun a b => a.same b = false) ∧
      ∀ b start, repeating.Compiles {} b start → ∃ c, chunk.Contains c ∧
        c.constants = (b start).2.frame.constants ∧
        (∀ k ∈ c.constants, ∃ i, Asks b start k i) ∧
        ∀ k i, Asks b start k i → ∃ k', c.constants[i.toNat]? = some k' ∧ k'.same k = true := by
  obtain ⟨hequal, -, hpools⟩ := Program.pools_of_compile
  obtain ⟨hequivalence, hcompare⟩ := hequal _ _ keyed
  have hmem : Value.closure (code 0 0) ∈ values ∧ Value.closure (code 1 1) ∈ values := by simp [values]
  refine ⟨keyed, ends, hequivalence,
    ((hcompare 4 _ _ hmem.1 hmem.2).2 (ends _ hmem.1)).1.2 (by decide), by decide, ?_⟩
  obtain ⟨chunk, h⟩ := repeating.exists_chunk {} (by cbv)
  obtain ⟨hnodup, hcompiles⟩ := hpools repeating {} chunk h
  refine ⟨chunk, h, fun c hin => (hnodup c hin).2.1, fun b start hb => ?_⟩
  obtain ⟨c, hin, hpool, hasks, hindex⟩ := hcompiles b start hb
  exact ⟨c, hin, hpool, hasks, hindex (Nat.le_trans (hnodup c hin).1 (by decide))⟩

end StackScript
