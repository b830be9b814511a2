import StackScript.Proofs.Lowering.Hoisting
import StackScript.Proofs.Lowering.Measuring

/-!
# The variables of whole programs

The statements at the top level define the globals one by one, in the order of their slots. With
what is known of the locals this gives a table for the code of a tidy program, and one for each
function in it.
-/

namespace StackScript

open Lowering Fragment

/-- Where the globals are defined: for each declaration at the top level, the offset of the instruction
that defines its global. -/
def Stmt.definitions (strip : Bool) (o : Nat) (c : Context) : List Stmt → List (Ident × Nat)
  | [] => []
  | s :: ss =>
    let r := statement strip none s c
    (s.declared?.map (·, o + r.1.size - 1)).toList ++ Stmt.definitions strip (o + r.1.size) r.2 ss

/-- Where the globals of a program are defined. -/
def Program.definitions (program : Program) (options : Options) : List (Ident × Nat) :=
  Stmt.definitions options.strip 0 { globals := hoist options program } program.body

namespace Lowering

variable {limits : Limits} {strip : Bool}

/-- The value of a declaration at the top level. -/
theorem measures_valueCode {s : Stmt} {id : Ident} {k : Option Nat} {c : Context}
    (hs : s.isTidy = true) (hd : s.declared? = some id) (htop : c.isTop = true)
    (hclean : (valueCode strip s c).2.Clean) (hr : c.Ready limits k s.size) :
    Measures limits strip none c (valueCode strip s c).1 (valueCode strip s c).2 ⟨c.locals, false, k⟩
      ⟨c.locals, false, k⟩ fun o _ => s.spots strip none o c := by
  cases s with
  | «variable» id' init span =>
    simp only [Stmt.spots]
    exact ((level_expression init hs).measures k c hclean (hr.mono (Nat.le_succ _))).statement _ _
      fun _ => trivial
  | function id' params body span =>
    simp only [Stmt.spots, htop]
    refine Measures.statement ?_ _ _ fun _ => trivial
    exact measures_function (r := ⟨id'.name, "", params, .block body, span⟩) (q := false) none
      (evolves_statements strip none body) (StatementsLevel.body (statementsLevel body hs))
      hclean (hr.mono (Nat.le_succ _)) rfl (by rintro ⟨⟩)
  | record id' fields methods span =>
    simp only [Stmt.spots, htop]
    refine Measures.statement ?_ _ _ fun _ => trivial
    exact measures_recordParts (q := false) none (methodsLevel methods hs) hclean
      (hr.mono (by simp only [Stmt.size]; omega)) rfl
  | _ => cases hd

/-- The statements at the top level define the globals in the order of their slots. -/
structure TopMeasures (limits : Limits) (strip : Bool) (c : Context) (ss : List Stmt) (k : Nat)
    (marks : Nat → Nat → List (Mark Tally)) : Prop where
  counted : Counted limits none (statements strip none ss c).1 ⟨0, false, some k⟩
    ⟨0, false, some limits.globals⟩ marks
  keeps : ∀ o, Keeps limits strip c (statements strip none ss c).2 (Stmt.allSpots strip none o c ss)
  spots : ∀ o, ∀ spot ∈ Stmt.allSpots strip none o c ss, ∃ k, spot.marks limits strip k ⊆ marks o 0
  definitions : ∀ o, ∀ d ∈ Stmt.definitions strip o c ss, ∀ slot, c.globals.slot? d.1.name = some slot →
    .place d.2 ⟨0, false, some slot⟩ ∈ marks o 0
  defines : ∀ o, ∀ d ∈ Stmt.definitions strip o c ss, ∃ f span f',
    (statements strip none ss c).1 = f ++ (emit ⟨.defGlobal, ()⟩ span ++ f') ∧ d.2 = o + f.size

/-- One statement more. -/
theorem TopMeasures.cons {s : Stmt} {ss : List Stmt} {c : Context} {k j : Nat}
    {marks marks' : Nat → Nat → List (Mark Tally)}
    (hfirst : Counted limits none (statement strip none s c).1 ⟨0, false, some k⟩ ⟨0, false, some j⟩
      marks)
    (hkeeps : ∀ o, Keeps limits strip c (statement strip none s c).2 (s.spots strip none o c))
    (hspots : ∀ o, ∀ spot ∈ s.spots strip none o c, ∃ k, spot.marks limits strip k ⊆ marks o 0)
    (hdefines : ∀ o, ∀ id ∈ s.declared?, ∀ slot, c.globals.slot? id.name = some slot →
      .place (o + (statement strip none s c).1.size - 1) ⟨0, false, some slot⟩ ∈ marks o 0)
    (hends : ∀ id ∈ s.declared?, ∃ f span,
      (statement strip none s c).1 = f ++ emit ⟨.defGlobal, ()⟩ span)
    (hslots : ∀ name, (statement strip none s c).2.globals.slot? name = c.globals.slot? name)
    (hrest : TopMeasures limits strip (statement strip none s c).2 ss j marks') :
    TopMeasures limits strip c (s :: ss) k
      fun o h => marks o h ++ marks' (o + (statement strip none s c).1.size) h where
  counted := hfirst.append hrest.counted
  keeps o := (hkeeps o).trans (hrest.keeps _)
  spots o spot hmem := by
    rcases List.mem_append.1 hmem with hmem | hmem
    · obtain ⟨k, hk⟩ := hspots o spot hmem
      exact ⟨k, List.subset_append_of_subset_left _ hk⟩
    · obtain ⟨k, hk⟩ := hrest.spots _ spot hmem
      exact ⟨k, List.subset_append_of_subset_right _ hk⟩
  definitions o d hmem slot hslot := by
    rcases List.mem_append.1 hmem with hmem | hmem
    · obtain ⟨id, hid, rfl⟩ := Option.map_eq_some_iff.1 (Option.mem_toList.1 hmem)
      exact List.mem_append_left _ (hdefines o id hid slot hslot)
    · exact List.mem_append_right _ (hrest.definitions _ d hmem slot (by rw [hslots, hslot]))
  defines o d hmem := by
    have hcons : (statements strip none (s :: ss) c).1 = (statement strip none s c).1 ++
        (statements strip none ss (statement strip none s c).2).1 := rfl
    rcases List.mem_append.1 hmem with hmem | hmem
    · obtain ⟨id, hid, rfl⟩ := Option.map_eq_some_iff.1 (Option.mem_toList.1 hmem)
      obtain ⟨f, span, hf⟩ := hends id hid
      refine ⟨f, span, _, by rw [hcons, hf, List.append_assoc], ?_⟩
      rw [hf, size_append]
      rfl
    · obtain ⟨f, span, f', hf, hd⟩ := hrest.defines _ d hmem
      refine ⟨_ ++ f, span, f', by rw [hcons, hf, List.append_assoc], ?_⟩
      rw [hd, size_append, Nat.add_assoc]

theorem exists_topMeasures {ss : List Stmt} {c : Context} {pre : List String} (hb : c.Bare)
    (hs : Stmt.areTidy ss = true) (hclean : (statements strip none ss c).2.Clean)
    (hr : c.Ready limits (some pre.length) (Stmt.sizes ss))
    (hn : c.globals.names = pre ++ Stmt.declaredNames ss)
    (hnodup : (pre ++ Stmt.declaredNames ss).Nodup) :
    ∃ marks, TopMeasures limits strip c ss pre.length marks := by
  induction ss generalizing c pre with
  | nil =>
    have hall : pre.length = limits.globals := by
      rw [← hr.globals, ← List.length_map (f := Global.name)]
      show _ = c.globals.names.length
      rw [hn]
      simp [Stmt.declaredNames]
    refine ⟨fun _ _ => [], ?_, fun _ => .ofFrame rfl, (by rintro _ _ ⟨⟩), (by rintro _ _ ⟨⟩),
      (by rintro _ _ ⟨⟩)⟩
    rw [hall]
    exact counted_nil
  | cons s ss ih =>
    obtain ⟨hs₁, hs₂⟩ := (Bool.and_eq_true ..).mp hs
    have hclean₂ : (statements strip none ss (statement strip none s c).2).2.Clean := hclean
    have hclean₁ := (evolves_statements strip none ss).clean _ hclean₂
    have hlocals : c.locals = 0 := by
      have := congrArg List.length hb.labels
      simpa [Scope.labels, Context.locals] using this
    have hknown : ∀ id ∈ s.declared?, id.name ∈ c.globals.names := fun id hid => by
      rw [hn]
      exact List.mem_append_right _ (Stmt.mem_declaredNames_head hid ss)
    obtain ⟨hbare, hnames, -⟩ := hb.statement hs₁ hclean₁ hknown
    have hstep := (evolves_statement strip none s).step c hclean₁
    cases hd : s.declared? with
    | none =>
      have hdecl : s.isDeclaration = false := by
        rw [Stmt.isDeclaration, hd]
        rfl
      have hadds := top_statement hs₁ hd hb.bounded hclean₁
      have hfirst := statementLevel s hs₁ none 0 (some pre.length) c hclean₁
        ⟨hr.mono (Nat.le_add_right ..), hb.bounded, (by rintro _ ⟨⟩)⟩ (by simp [hdecl])
      have hlocals₁ : (statement strip none s c).2.locals = 0 := hadds.locals.trans hlocals
      rw [hlocals, hlocals₁] at hfirst
      have hsame : Stmt.declaredNames (s :: ss) = Stmt.declaredNames ss := by
        rw [Stmt.declaredNames_cons, hd]
        rfl
      rw [hsame] at hn hnodup
      obtain ⟨marks, hrest⟩ := ih hbare hs₂ hclean₂ (hr.step hstep hadds.globals)
        (hnames.trans hn) hnodup
      refine ⟨_, TopMeasures.cons (hfirst.counted.relax rfl rfl (Nat.le_of_eq hr.floor))
        (fun o => hfirst.keeps o 0)
        (fun o spot hmem => ⟨_, fun _ hmark => List.mem_flatMap.2 ⟨spot, hmem, hmark⟩⟩) (by simp [hd])
        (by simp [hd]) (fun name => by rw [hadds.globals]) hrest⟩
    | some id =>
      obtain ⟨slot, hadds, hclean', hslot, -, heq⟩ :=
        top_declaration hs₁ hb.top hd hclean₁ (hknown id hd)
      have hvalue := measures_valueCode hs₁ hd hb.top hclean' (hr.mono (Nat.le_add_right ..))
      rw [hlocals] at hvalue
      have hcons : Stmt.declaredNames (s :: ss) = id.name :: Stmt.declaredNames ss := by
        rw [Stmt.declaredNames_cons, hd]
        rfl
      rw [hcons] at hn hnodup
      have hcode : (statement strip none s c).1 =
          (valueCode strip s c).1 ++ emit ⟨.defGlobal, ()⟩ (declaredAt s) := by rw [heq]
      -- the next slot is that of the name
      have hnext : slot = pre.length := by
        rw [Globals.slot?_eq_findIdx?, hn] at hslot
        have hfind : (pre ++ id.name :: Stmt.declaredNames ss).findIdx? (· = id.name) =
            some pre.length := by
          have hnot : id.name ∉ pre := fun hm =>
            (List.nodup_append.1 hnodup).2.2 id.name hm id.name (List.mem_cons_self ..) rfl
          rw [List.findIdx?_append, List.findIdx?_eq_none_iff.2]
          · simp [List.findIdx?_cons]
          · intro x hx
            simp only [decide_eq_false_iff_not]
            rintro rfl
            exact hnot hx
        exact Option.some.inj (hslot.symm.trans hfind)
      have hdefine : Counted limits none (emit ⟨.defGlobal, ()⟩ (declaredAt s))
          ⟨0, false, some pre.length⟩ ⟨0, false, some (pre ++ [id.name]).length⟩
          fun o _ => [.place o ⟨0, false, some pre.length⟩] := by
        have : Counted limits none (emit ⟨.defGlobal, ()⟩ (declaredAt s)) ⟨0, false, some pre.length⟩
            ⟨0, false, some (pre ++ [id.name]).length⟩ := by
          rw [List.length_append]
          exact counted_emit ⟨rfl, _, rfl, rfl⟩ ⟨(by rintro ⟨⟩), (by rintro ⟨⟩)⟩
        exact fun o h E hE => (this o h E hE).start
      have hready : (statement strip none s c).2.Ready limits (some (pre ++ [id.name]).length)
          (Stmt.sizes ss) := by
        refine ⟨hstep.room _ _ hr.room, hstep.linked hr.linked, ?_, fun hne => ?_, hr.floor⟩
        · rw [← hr.globals, heq]
          exact List.length_modify ..
        · obtain ⟨htop, -⟩ := (Bool.and_eq_true ..).mp hbare.top
          exact absurd (List.isEmpty_iff.1 htop) hne
      obtain ⟨marks, hrest⟩ := ih hbare hs₂ hclean₂ hready
        (by rw [hnames, hn, List.append_assoc]; rfl) (by rwa [List.append_assoc])
      have hvalue₁ : Counted limits _ _ _ _ _ := hvalue.counted.relax rfl rfl (Nat.le_of_eq hr.floor)
      refine ⟨_, TopMeasures.cons (hcode ▸ hvalue₁.append hdefine) ?_ ?_ ?_ (fun _ _ => ⟨_, _, hcode⟩) ?_
        hrest⟩
      · intro o
        refine ⟨fun hc => ?_, (hvalue.keeps o 0).inner⟩
        rw [heq]
        exact (hvalue.keeps o 0).constants hc
      · exact fun o spot hmem => ⟨_, fun _ hmark =>
          List.mem_append_left _ (List.mem_flatMap.2 ⟨spot, hmem, hmark⟩)⟩
      · intro o id' hid slot' hslot'
        obtain rfl : id = id' := Option.some.inj (hd.symm.trans hid)
        obtain rfl := Option.some.inj (hslot.symm.trans hslot')
        refine List.mem_append_right _ (List.mem_singleton.2 ?_)
        rw [hcode, Fragment.size_append, hnext]
        rfl
      · intro name
        rw [heq]
        exact Globals.slot?_markInitialized _ _ _

end Lowering

/-- How many variables a program can have. -/
def Program.limits (program : Program) (options : Options) (h : program.size < 2 ^ 32) : Limits :=
  { globals := (hoist options program).entries.length, locals := program.size, locals_lt := h }

/-- The offset of the call of the function that a program starts with. -/
def Program.callOffset (program : Program) (options : Options) : Nat :=
  (statements options.strip none program.body { globals := hoist options program }).1.size

def Program.code (program : Program) (options : Options) : Fragment :=
  let r := statements options.strip none program.body { globals := hoist options program }
  r.1 ++ startCode ((r.2.globals.slot? options.entry).getD 0).toUInt32

/-- What is known of the variables of a program and its functions. -/
structure Program.Census (program : Program) (options : Options) (limits : Limits)
    (chunk : Chunk Constant) (T : Nat → Tally → Prop) : Prop where
  table : chunk.code.Table (Tally.moves limits) T
  start : T 0 ⟨0, false, some (Globals.ofNatives options.natives).entries.length⟩
  constants : ∀ k ∈ chunk.constants, k.isForeign = false ∧ ∀ f, k = ⟨.function f⟩ → f.Tallied limits
  spots : ∀ spot ∈ program.spots options, ∃ k, spot.Holds limits options.strip k chunk.code T
  begins : ∀ o s, T o s → (program.code options).Begins o
  inner : ∀ spot ∈ program.spots options, spot.Sound limits options.strip
  definitions : ∀ d ∈ program.definitions options, ∀ slot,
    (hoist options program).slot? d.1.name = some slot → ∀ s, T d.2 s → s = ⟨0, false, some slot⟩
  call : ∀ s, T (program.callOffset options) s → s = ⟨0, false, some limits.globals⟩
  defines : ∀ d ∈ program.definitions options, ∀ loaded : Chunk Value, loaded.code = chunk.code →
    Machine.fetch loaded d.2 = .ok (⟨.defGlobal, ()⟩, d.2 + 1)
  entry : ∃ slot, (hoist options program).slot? options.entry = some slot ∧
    ∀ loaded : Chunk Value, loaded.code = chunk.code → ∃ next,
      Machine.fetch loaded (program.callOffset options) = .ok (⟨.getGlobal, slot.toUInt32⟩, next)

/-- The code of a tidy program counts its variables. -/
theorem Program.exists_census {program : Program} {options : Options} {chunk : Chunk Constant}
    (h : program.compile options = .ok chunk) (ht : program.isTidy = true)
    (hsize : program.size < 2 ^ 32) :
    ∃ T, program.Census options (program.limits options hsize) chunk T := by
  obtain ⟨slot, hclean, hslot, hfar, rfl⟩ := compile_eq_ok h
  obtain ⟨hnames, hnodup⟩ := names_hoist_eq h ht
  set c : Context := { globals := hoist options program }
  set limits := program.limits options hsize
  set r := statements options.strip none program.body c
  have hready : c.Ready limits (some (Globals.ofNatives options.natives).names.length)
      (Stmt.sizes program.body) := by
    have hroom : 0 + Stmt.sizes program.body < program.size + 1 := by
      rw [Nat.zero_add]
      exact Nat.lt_succ_self _
    exact ⟨⟨⟨hroom, hroom, hroom⟩, (by rintro _ ⟨⟩)⟩, rfl, rfl, (absurd rfl ·), rfl⟩
  have hbare : c.Bare := ⟨rfl, rfl⟩
  obtain ⟨marks, htop⟩ := exists_topMeasures hbare ht hclean hready hnames hnodup
  have hknown : ∀ name ∈ Stmt.declaredNames program.body, name ∈ c.globals.names := fun name hn => by
    rw [hnames]
    exact List.mem_append_right _ hn
  have hfound : c.globals.slot? options.entry = some slot := by
    rw [Globals.slot?_eq_findIdx?, ← (hbare.statements ht hclean hknown).2.1,
      ← Globals.slot?_eq_findIdx?]
    exact hslot
  have hentry : slot.toUInt32.toNat < limits.globals :=
    Nat.lt_of_le_of_lt (toNat_toUInt32_le slot) (List.findIdx?_eq_some_iff_getElem.1 hfound).1
  have hidle (i : Instruction) (hi : i.op.isIdle = true) : Counted limits none (emit i {})
      ⟨0, false, some limits.globals⟩ ⟨0, false, some limits.globals⟩ := counted_idle hi rfl
  have hget : Counted limits none (emit ⟨.getGlobal, slot.toUInt32⟩ {})
      ⟨0, false, some limits.globals⟩ ⟨0, false, some limits.globals⟩
      fun o _ => [.place o ⟨0, false, some limits.globals⟩] := fun o h E hE =>
    (counted_get (b := .global slot.toUInt32) hentry o h E hE).start
  have hcode := htop.counted.append ((hget.append (hidle ⟨.call, 0⟩ rfl)).append (hidle ⟨.pop, ()⟩ rfl))
  set f := r.1 ++ (emit ⟨.getGlobal, slot.toUInt32⟩ {} ++ emit ⟨.call, 0⟩ {} ++ emit ⟨.pop, ()⟩ {}) with hf
  obtain ⟨T, hT, hm⟩ := hcode 0 0 (fun _ _ => False) (by rintro _ ⟨⟩)
  have hplaced := placed_toChunk hfar none r.2.frame.constants
  have hassoc : r.1 ++ startCode slot.toUInt32 = f ++ emit ⟨.exitSuccess, ()⟩ {} := by
    simp only [hf, startCode, List.append_assoc]
  rw [hassoc] at hplaced ⊢
  have hexit : (Tally.moves limits).act ⟨.exitSuccess, ()⟩ ⟨0, false, some limits.globals⟩ none :=
    ⟨rfl, rfl⟩
  have hholds (mark : Mark Tally) (hmark : mark ∈ marks 0 0 ∨
      mark = .place r.1.size ⟨0, false, some limits.globals⟩) :
      mark.Holds (Tally.moves limits)
        ((f ++ emit ⟨.exitSuccess, ()⟩ {}).toChunk none r.2.frame.constants).code T := by
    refine hT.holds (hm mark ?_) hplaced.left Tally.countable_of_act Tally.ends_of_act fun _ L => ?_
    · rcases hmark with hmark | rfl
      · exact List.mem_append_left _ hmark
      · refine List.mem_append_right _ (List.mem_cons.2 (.inl ?_))
        rw [Nat.zero_add]
    · have hlast := Piece.Goes.leads (p := .instruction _ {}) (T := L) ⟨none, hexit, (by rintro _ ⟨⟩)⟩ hplaced.right
        Tally.countable_of_act
      rwa [Nat.zero_add] at hlast
  have hnone : c.Tallied limits := (by rintro _ ⟨⟩)
  refine ⟨T, hT.table_append hexit hplaced Tally.countable_of_act, ?_, ?_, ?_, ?_, ?_, ?_, ?_, ?_, ?_⟩
  · rw [← List.length_map (f := Global.name)]
    exact hT.start
  · rw [constants_toChunk]
    exact (htop.keeps 0).constants hnone
  · intro spot hs
    obtain ⟨k, hk⟩ := htop.spots 0 spot hs
    exact ⟨k, fun mark hmark => hholds mark (.inl (hk hmark))⟩
  · intro o s hTs
    have hall : program.code options = r.1 ++ startCode slot.toUInt32 := by
      show r.1 ++ startCode ((r.2.globals.slot? options.entry).getD 0).toUInt32 = _
      rw [hslot, Option.getD_some]
    rw [hall, hassoc]
    rcases hT.within o s hTs with ⟨ho, -, -⟩ | ⟨f₁, p, f₂, hpieces, ho, -⟩
    · exact ⟨_, _, [], rfl, by rw [ho, Nat.zero_add]⟩
    · exact ⟨f₁, p, f₂ ++ emit ⟨.exitSuccess, ()⟩ {}, by rw [hpieces]; simp, by rw [ho, Nat.zero_add]⟩
  · exact (htop.keeps 0).inner
  · exact fun d hd slot hslot s hTs => hholds _ (.inl (htop.definitions 0 d hd slot hslot)) s hTs
  · exact fun s hTs => hholds _ (.inr rfl) s hTs
  · intro d hd loaded hloaded
    obtain ⟨f₁, span, f₂, hpieces, ho⟩ := htop.defines 0 d hd
    rw [← hloaded] at hplaced
    have htopPlaced := hplaced.left.left
    rw [show r.1 = _ from hpieces] at htopPlaced
    have hdefine := htopPlaced.right.left
    rw [← ho] at hdefine
    exact hdefine.fetch trivial
  · refine ⟨slot, hfound, fun loaded hloaded => ?_⟩
    have hcall := hplaced.left.right.left.left
    rw [Nat.zero_add, ← hloaded] at hcall
    exact ⟨_, hcall.fetch trivial⟩

end StackScript
