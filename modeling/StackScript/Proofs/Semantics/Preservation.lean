import Mathlib
import StackScript.Host
import StackScript.Proofs.Lowering.Hoisting
import StackScript.Proofs.Semantics.Functions
import StackScript.Proofs.Semantics.Keeping

/-!
# Compilation preserves behavior

A compiled program does what its text says: it ends in the same way, with the same calls of host
functions and the same globals, or goes on forever where evaluation does.
-/

namespace StackScript.Semantics

variable {outcome : Machine.Outcome}

namespace Pairing

open Lowering Machine
open Fragment (emit Placed)

variable {A : Pairing} {S : A.Scene} {call : Val → List Val → Eval Val} {γ L : List Nat} {o : Nat}
  {st : List Value} {m : Machine} {w : World} {c : Context} {span : Span} {v : Value} {x : Val}
variable {s : Stmt} {id : Ident} {store : Store} {natives : List Native}

/-! ## The top level -/

/-- The scene of a program, which no function is around. -/
structure Scene.IsScript (S : A.Scene) : Prop where
  base : S.frame.localsBase = 0
  outer : S.outer = []
  enclosing : S.enclosing = []

theorem scoped_of_bare (hs : S.IsScript) (h : c.Bare) : Scoped S [] c [] := by
  refine ⟨?_, ?_⟩
  · rw [h.labels, hs.outer]
    rfl
  · rw [hs.base, ← length_labels, h.labels]
    rfl

theorem State.defines_global {name : String} (h : State S γ L o (v :: st) m w) (hv : A.Matches γ v x)
    (hp : Placed S.code o (emit ⟨.defGlobal, ()⟩ span))
    (hn : w.globals.map Prod.fst ++ [name] <+: A.setting.globals) :
    A.Goes m fun m' => State S γ L (o + 1) st m' { w with globals := w.globals ++ [(name, x)] } := by
  exact h.executes hp trivial fun h₁ => ⟨_, bind_ok (pop_of_stack h₁.stack),
    ⟨h₁.frame, h₁.callers, rfl, h₁.rel.defineGlobal hn hv, h₁.captured⟩, h₁.size⟩

theorem sim_topStatement (hcall : CallSim S call) (hs : S.IsScript) (hplain : s.isPlain = true)
    (hd : s.declared? = none) (hbare : c.Bare)
    (hf : Fit S s.size c (Lowering.statement A.strip none s c).2)
    (hp : Placed S.code o (Lowering.statement A.strip none s c).1) (h : State S γ [] o [] m w) :
    A.Sim A.setting.rounds m (fun _ => Arrives S γ []
      (o + (Lowering.statement A.strip none s c).1.size) [])
      (statement A.setting call [] s w) := by
  have hdecl : s.isDeclaration = false := by
    unfold Stmt.isDeclaration
    rw [hd]
    rfl
  have hscoped := scoped_of_bare hs hbare
  have hlinked : Placed S.code o
      (Fragment.linkFrom 0 (Lowering.statement A.strip none s c).1) := by
    rwa [gives_closed_statement A.strip s c 0]
  refine (statementSim hcall s hplain none γ [] o 0 [] m w c [] hf hlinked hscoped nofun
    (by simp [hdecl]) h).mono ?_
  rintro ⟨env, completion⟩ w₁ m₁ h₁
  cases completion with
  | normal =>
    obtain ⟨L', hL', -, hs', h'⟩ := h₁
    have hadds := top_statement (s.isTidy_of_isPlain hplain) hd hf.bounded hf.clean
    obtain rfl := hscoped.eq_of_isPrefix hadds hs' hL'
    exact h'
  | exit how =>
    obtain ⟨t, -, ht, -⟩ := h₁
    cases ht
  | «return» x => exact absurd hs.enclosing h₁.1

/-- The value that a declaration defines. -/
def declaredValue (s : Setting) (call : Val → List Val → Eval Val) : Stmt → Eval Val
  | .variable _ init _ => expression s call [] init
  | .function id params body _ => close ⟨id.name, params, .block body⟩ []
  | _ => throw .undefined

theorem topLevel_cons_of_declared (hplain : s.isPlain = true) (hd : s.declared? = some id)
    (ss : List Stmt) :
    topLevel A.setting call (s :: ss) = (do
      let v ← declaredValue A.setting call s
      defineGlobal id.name v
      topLevel A.setting call ss) := by
  cases s with
  | «variable» id' init span =>
    obtain rfl := Option.some.inj hd
    rfl
  | function id' params body span =>
    obtain rfl := Option.some.inj hd
    rfl
  | record => cases hplain
  | _ => cases hd

theorem topLevel_cons_of_not_declared (hd : s.declared? = none) (ss : List Stmt) :
    topLevel A.setting call (s :: ss) = (do
      let _ ← statement A.setting call [] s
      topLevel A.setting call ss) := by
  cases s <;> first | rfl | cases hd

theorem keeps_declaredValue (hkeeps : ∀ f xs, Keeps (call f xs)) (s : Stmt) :
    Keeps (declaredValue A.setting call s) := by
  cases s with
  | «variable» id init span => exact keeps_expression A.setting hkeeps [] init
  | function id params body span => exact keeps_close _ _
  | _ => exact .throw _

theorem sim_declaredValue (hcall : CallSim S call) (hs : S.IsScript) (hplain : s.isPlain = true)
    (hd : s.declared? = some id) (hbare : c.Bare)
    (hf : Fit S s.size c (valueCode A.strip s c).2)
    (hp : Placed S.code o (valueCode A.strip s c).1) (h : State S γ [] o [] m w) :
    A.Sim A.setting.rounds m
      (Yields S γ [] (o + (valueCode A.strip s c).1.size) [])
      (declaredValue A.setting call s w) := by
  have hscoped := scoped_of_bare hs hbare
  cases s with
  | «variable» id' init span =>
    exact expressionSim hcall init hplain γ [] o [] m w c [] (hf.mono (Nat.le_succ _)) hp hscoped h
  | function id' params body span =>
    exact h.closes ⟨id'.name, params, .block body⟩ (hf.mono (Nat.le_succ _)) hp hscoped
      hplain
  | record => cases hplain
  | _ => cases hd

theorem Sim.keeping {α : Type} {n : Nat} {Q : α → World → Machine → Prop} {x : Eval α} (hk : Keeps x)
    (h : A.Sim n m Q (x w)) :
    A.Sim n m (fun a w' m' => Q a w' m' ∧ w'.globals.map Prod.fst = w.globals.map Prod.fst) (x w) := by
  have hk := hk.keeps w
  cases hx : x w with
  | ok a w' =>
    rw [hx] at h
    exact Goes.mono h fun m' hq => ⟨hq, hk a w' hx⟩
  | error e w' =>
    rw [hx] at h
    cases e <;> exact h

theorem sim_topLevel {ss : List Stmt} (hcall : CallSim S call) (hkeeps : ∀ f xs, Keeps (call f xs))
    (hs : S.IsScript) (hplain : Stmt.arePlain ss = true) (hbare : c.Bare)
    (hf : Fit S (Stmt.sizes ss) c (Lowering.statements A.strip none ss c).2)
    (hp : Placed S.code o (Lowering.statements A.strip none ss c).1)
    (hn : w.globals.map Prod.fst ++ Stmt.declaredNames ss = A.setting.globals)
    (h : State S γ [] o [] m w) :
    A.Sim A.setting.rounds m (fun _ => Arrives S γ []
      (o + (Lowering.statements A.strip none ss c).1.size) [])
      (topLevel A.setting call ss w) := by
  induction ss generalizing γ o m w c with
  | nil => exact Sim.pure (Q := fun (_ : Unit) => Arrives S γ [] (o + 0) []) h.arrives
  | cons s ss ih =>
    obtain ⟨hps, hpss⟩ := (Bool.and_eq_true ..).mp hplain
    have htidy := s.isTidy_of_isPlain hps
    set a := Lowering.statement A.strip none s c
    set b := Lowering.statements A.strip none ss a.2
    have hknown : ∀ id ∈ s.declared?, id.name ∈ c.globals.names := by
      intro id hid
      rw [hf.names, ← hn]
      exact List.mem_append_right _ (Stmt.mem_declaredNames_head hid ss)
    have hfit : Fit S (s.size + Stmt.sizes ss) c ((Lowering.statement A.strip none s >>=
        fun _ => Lowering.statements A.strip none ss) c).2 := hf
    have hclean : a.2.Clean := (evolves_statements A.strip none ss).clean _ hf.clean
    obtain ⟨hbare₁, hnames, -⟩ := hbare.statement htidy hclean hknown
    obtain ⟨hf₁, hf₂⟩ := hfit.parts (evolves_statement A.strip none s)
      (fun _ => evolves_statements A.strip none ss) fun _ => ⟨hnames, hbare₁.bounded⟩
    have hpl : Placed S.code o (a.1 ++ b.1) := hp
    show A.Sim _ m (fun _ => Arrives S γ [] (o + (a.1 ++ b.1).size) []) _
    rw [Fragment.size_append, ← Nat.add_assoc]
    cases hd : s.declared? with
    | none =>
      rw [topLevel_cons_of_not_declared hd]
      refine Sim.bind (Sim.keeping (keeps_statement A.setting hkeeps [] s)
        (sim_topStatement hcall hs hps hd hbare hf₁ hpl.left h)) ?_
      rintro r w₁ m₁ ⟨⟨γ₁, hγ₁, h₁⟩, hw₁⟩
      refine (ih hpss hbare₁ hf₂ hpl.right ?_ h₁).mono fun _ w₂ m₂ h₂ => h₂.mono hγ₁
      rw [hw₁, ← hn, Stmt.declaredNames_cons, hd]
      rfl
    | some id =>
      rw [topLevel_cons_of_declared hps hd]
      obtain ⟨slot, hadds, hclean₁, -, -, he⟩ :=
        top_declaration htidy hbare.top hd hclean (hknown id hd)
      set k := valueCode A.strip s c
      have hcode : a.1 = k.1 ++ emit ⟨.defGlobal, ()⟩ (declaredAt s) := congrArg Prod.fst he
      have hvalue : Fit S s.size c k.2 := by
        rw [he] at hf₁
        exact { hf₁ with clean := hclean₁ }
      have hpl' := hpl.left
      rw [hcode] at hpl'
      refine Sim.bind (Sim.keeping (keeps_declaredValue hkeeps s)
        (sim_declaredValue hcall hs hps hd hbare hvalue hpl'.left h)) ?_
      rintro x w₁ m₁ ⟨⟨γ₁, v, hγ₁, hx, h₁⟩, hw₁⟩
      have hn₁ : (w₁.globals.map Prod.fst ++ [id.name]) ++ Stmt.declaredNames ss =
          A.setting.globals := by
        rw [hw₁, ← hn, Stmt.declaredNames_cons, hd, List.append_assoc]
        rfl
      refine Sim.of_goes (h₁.defines_global hx hpl'.right (hn₁ ▸ List.prefix_append _ _))
        fun m₂ h₂ => ?_
      refine Sim.bind_of_ok (rfl : defineGlobal id.name x w₁ = .ok () _) ?_
      have h₃ : State S γ₁ [] (o + a.1.size) [] m₂
          { w₁ with globals := w₁.globals ++ [(id.name, x)] } := by
        rw [hcode, Fragment.size_append, ← Nat.add_assoc]
        exact h₂
      refine (ih hpss hbare₁ hf₂ hpl.right ?_ h₃).mono fun _ w₄ m₄ h₄ => h₄.mono hγ₁
      rw [← hn₁, List.map_append]
      rfl

/-! ## Programs -/

variable (A) in
/-- The machine is at its last instruction. -/
def Ends (w : World) (m : Machine) : Prop :=
  ∃ m', step A.host m = .ok .finished m' ∧ Shows m' w

theorem sim_startCode {slot : UInt32} {entry : String} (hcall : CallSim S call)
    (hslot : A.setting.globals.findIdx? (· = entry) = some slot.toNat)
    (hp : Placed S.code o (startCode slot)) (h : State S γ [] o [] m w) :
    A.Sim A.setting.rounds m (fun _ => A.Ends) ((do
      let f ← readGlobal A.setting entry
      let _ ← call f []
      return () : Eval Unit) w) := by
  refine Sim.bind (h.gets_global hslot hp.left.left.left) ?_
  rintro f w₁ m₁ ⟨γ₁, v, -, hv, h₁⟩
  refine Sim.bind (hcall γ₁ [] (o + 5) [] {} m₁ w₁ v f [] [] h₁ hv .nil (Nat.zero_le _) (by decide)
    hp.left.left.right) ?_
  rintro x w₂ m₂ ⟨γ₂, u, -, -, h₂⟩
  refine Sim.of_goes (h₂.pops hp.left.right) fun m₃ h₃ => ?_
  exact Sim.pure ⟨_, h₃.step (hp.right.fetch trivial), Shows.of_rel h₃.rel⟩

def scriptScene (A : Pairing) (chunk : Chunk Value) : A.Scene where
  frame := { closure := ⟨⟨0, chunk⟩, []⟩ }
  callers := []
  captures := []
  enclosing := []
  outer := []
  base_le := Nat.zero_le _
  depth_lt := by decide

theorem isScript_scriptScene (chunk : Chunk Value) : (scriptScene A chunk).IsScript := ⟨rfl, rfl, rfl⟩

/-- The world before the first statement. -/
def startWorld (natives : List Native) : World :=
  { globals := natives.map fun n => (n.name, .datum (.native n)) }

theorem state_start {chunk : Chunk Value} (hbase : A.base = store.cells.size)
    (hshift : A.shift = store.fresh) (hn : natives.map Native.name <+: A.setting.globals) :
    State (scriptScene A chunk) [] [] 0 [] (start store natives chunk)
      (startWorld natives) := by
  have hleads (ref : CellRef) (p : Nat) : ¬ A.Leads [] ref p := by
    rintro ⟨-, h⟩
    cases h
  refine ⟨⟨rfl, rfl, rfl, ?_, ⟨rfl, nofun⟩⟩, rfl⟩
  exact {
    locals := fun i v p h => by cases h
    size := Nat.le_refl _
    distinct := List.nodup_nil
    bound := nofun
    cells := hbase.symm
    cellsDistinct := List.nodup_nil
    cellsBound := nofun
    closed := fun ref p v h => absurd h (hleads ref p)
    opened := fun ref p h => absurd h (hleads ref p)
    openCells := nofun
    globals := fun i v g hv hg => by
      have hv' : (natives.map Value.native)[i]? = some v := by simpa [start] using hv
      have hg' : (natives.map fun n => (n.name, Val.datum (.native n)))[i]? = some g := hg
      rw [List.getElem?_map] at hv' hg'
      obtain ⟨n, hi, rfl⟩ := Option.map_eq_some_iff.1 hv'
      rw [hi] at hg'
      obtain rfl := Option.some.inj hg'
      exact ⟨rfl, .inr ⟨n, rfl⟩⟩
    count := by simp [start, startWorld]
    names := by simpa [startWorld, Function.comp_def] using hn
    fresh := by simp [start, startWorld, hshift]
    calls := rfl }

/-- A compiled program simulates its evaluation. -/
theorem sim_script {program : Program} {options : Options} {chunk : Chunk Constant}
    (h : program.compile options = .ok chunk) (hplain : program.isPlain = true)
    (hnatives : options.natives = natives.map Native.name) (hdistinct : options.natives.Nodup)
    (hstrip : A.strip = options.strip)
    (hglobals : A.setting.globals = options.natives ++ Stmt.declaredNames program.body)
    (hlimit : A.limit = program.size + 1) (hbase : A.base = (chunk.load store).2.cells.size)
    (hshift : A.shift = (chunk.load store).2.fresh) :
    A.Sim A.setting.rounds (start (chunk.load store).2 natives (chunk.load store).1)
      (fun _ => A.Ends) (script A.setting options.entry program (startWorld natives)) := by
  obtain ⟨hnames, -⟩ := names_hoist h (Stmt.areTidy_of_arePlain _ hplain) hdistinct
  obtain ⟨slot, hclean, hslot, hfar, rfl⟩ := compile_eq_ok h
  rw [← hstrip] at *
  set c : Context := { globals := hoist options program }
  set r := Lowering.statements A.strip none program.body c
  set code := r.1 ++ startCode slot.toUInt32
  set chunk := code.toChunk none r.2.frame.constants
  set S := scriptScene A (chunk.load store).1
  have hloads := chunk.loads_load store
  have hplaced : Placed S.code 0 code := by
    show Placed (chunk.load store).1.code 0 code
    rw [hloads.code]
    exact Fragment.placed_toChunk hfar _ _
  have hbare : c.Bare := ⟨rfl, rfl⟩
  have hstep := (evolves_statements A.strip none program.body).step c hclean
  have hbound : 0 + Stmt.sizes program.body < A.limit := by
    rw [hlimit]
    show 0 + program.size < _
    omega
  have hfit : Fit S (Stmt.sizes program.body) c r.2 := by
    have hnone : r.2.enclosing = [] := List.forall₂_nil_left_iff.1 hstep.enclosing
    have hcaptures : r.2.frame.captures = [] := by
      have hl := hstep.linked (rfl : Linked c.frame c.enclosing)
      rwa [hnone] at hl
    refine ⟨hclean, ⟨⟨hbound, hbound, hbound⟩, nofun⟩, rfl, ⟨_, List.prefix_refl _, ?_⟩, ?_, ?_,
      hnames.trans hglobals.symm, hbare.bounded⟩
    · have := hloads.constants
      rwa [Fragment.constants_toChunk] at this
    · rw [hcaptures]
      exact List.nil_prefix
    · rw [hnone]
      exact .nil
  have hknown : ∀ name ∈ Stmt.declaredNames program.body, name ∈ c.globals.names := fun name hn => by
    show name ∈ (hoist options program).names
    rw [hnames]
    exact List.mem_append_right _ hn
  have hcall : CallSim S (invoke A.setting (maxFrames - 1)) := callSim_invoke _ S rfl
  refine Sim.bind (sim_topLevel hcall (keeps_invoke A.setting _) (isScript_scriptScene _) hplain hbare
    hfit hplaced.left ?_ (state_start hbase hshift ?_)) ?_
  · rw [hglobals, hnatives]
    simp [startWorld, Function.comp_def]
  · rw [hglobals, hnatives]
    exact List.prefix_append _ _
  · rintro - w m ⟨γ, -, h₁⟩
    refine sim_startCode hcall ?_ hplaced.right h₁
    have hr' := (hbare.statements (Stmt.areTidy_of_arePlain _ hplain) hclean hknown).2.1
    rw [Globals.slot?_eq_findIdx?, hr', show c.globals.names = A.setting.globals from
      hnames.trans hglobals.symm] at hslot
    have hlt := (List.findIdx?_eq_some_iff_getElem.1 hslot).1
    rw [Word.toNat_toUInt32 (Nat.lt_of_lt_of_le hlt A.countable)]
    exact hslot

end Pairing

/-! ## Behavior -/

section Behavior

variable {host : Host} {m m' : Machine} {b b' : Behavior} {k n : Nat}

theorem behavior?_of_run (h : Machine.run host k m = (outcome, m')) (ho : outcome ≠ .unfinished) :
    Machine.behavior? host k m =
      some ⟨outcome, m'.calls, m'.globals.toList.map m'.store.shown⟩ := by
  unfold Machine.behavior?
  rw [h]
  cases outcome <;> first | rfl | exact absurd rfl ho

/-- A machine has at most one behavior. -/
theorem behavior?_unique (h : Machine.behavior? host k m = some b)
    (h' : Machine.behavior? host n m = some b') : b = b' := by
  have hle (k n : Nat) (hk : k ≤ n) (b : Behavior) (h : Machine.behavior? host k m = some b) :
      Machine.behavior? host n m = some b := by
    rcases hr : Machine.run host k m with ⟨outcome, m'⟩
    by_cases ho : outcome = .unfinished
    · unfold Machine.behavior? at h
      rw [hr, ho] at h
      cases h
    · rw [behavior?_of_run hr ho] at h
      rwa [behavior?_of_run (Machine.run_of_le hr ho hk) ho]
  have h₁ := hle k (max k n) (Nat.le_max_left ..) b h
  have h₂ := hle n (max k n) (Nat.le_max_right ..) b' h'
  exact Option.some.inj (h₁.symm.trans h₂)

theorem behavior?_of_reaches {w : World} (h : Machine.Reaches host m m') {m'' : Machine}
    (hrun : Machine.run host 1 m' = (outcome, m'')) (ho : outcome ≠ .unfinished)
    (hs : Pairing.Shows m'' w) :
    ∃ steps, Machine.behavior? host steps m = some (w.behavior outcome) := by
  obtain ⟨k, hk⟩ := h
  refine ⟨k + 1, ?_⟩
  rw [behavior?_of_run ((Machine.run_add hk).trans hrun) ho, hs.1, hs.2]
  rfl

/-- The behavior that a result of evaluation means. -/
def resultBehavior? : EStateM.Result Stop World Unit → Option Behavior
  | .ok _ w => some (w.behavior .finished)
  | .error (.fault f) w => some (w.behavior (.failed f))
  | .error .unfinished _ | .error .undefined _ => none

theorem Pairing.Sim.behavior {A : Pairing} {r : EStateM.Result Stop World Unit}
    (h : A.Sim n m (fun _ => A.Ends) r) :
    (∀ b, resultBehavior? r = some b → ∃ steps, Machine.behavior? A.host steps m = some b) ∧
      (resultBehavior? r = none → Machine.behavior? A.host n m = none) := by
  rcases r with ⟨_, w⟩ | ⟨f | _ | _, w⟩
  · obtain ⟨m', hreach, m'', hstep, hshows⟩ := h
    refine ⟨fun b hb => ?_, by rintro ⟨⟩⟩
    obtain rfl := Option.some.inj hb
    exact behavior?_of_reaches hreach (by rw [Machine.run, hstep]) (by rintro ⟨⟩) hshows
  · obtain ⟨m', hreach, m'', hstep, hshows⟩ := h
    refine ⟨fun b hb => ?_, by rintro ⟨⟩⟩
    obtain rfl := Option.some.inj hb
    exact behavior?_of_reaches hreach (by rw [Machine.run, hstep]) (by rintro ⟨⟩) hshows
  · refine ⟨by rintro _ ⟨⟩, fun _ => ?_⟩
    have hrun : (Machine.run A.host n m).1 = .unfinished := h
    unfold Machine.behavior?
    rcases hr : Machine.run A.host n m with ⟨outcome, m'⟩
    rw [hr] at hrun
    rw [show outcome = .unfinished from hrun]
  · cases h

theorem behavior_iff_of_sim {r : Nat → EStateM.Result Stop World Unit}
    (hsim : ∀ rounds, ∃ A : Pairing, A.host = host ∧ A.Sim rounds m (fun _ => A.Ends) (r rounds)) :
    (∃ rounds, resultBehavior? (r rounds) = some b) ↔
      ∃ steps, Machine.behavior? host steps m = some b := by
  constructor
  · rintro ⟨rounds, h⟩
    obtain ⟨A, rfl, hA⟩ := hsim rounds
    exact hA.behavior.1 b h
  · rintro ⟨steps, h⟩
    -- With as many rounds as the machine has made steps, evaluation cannot be unfinished.
    obtain ⟨A, rfl, hA⟩ := hsim steps
    obtain ⟨hsome, hnone⟩ := hA.behavior
    cases hr : resultBehavior? (r steps) with
    | some b' =>
      obtain ⟨steps', h'⟩ := hsome b' hr
      exact ⟨steps, by rw [hr, behavior?_unique h h']⟩
    | none => exact absurd (h.symm.trans (hnone hr)) nofun

end Behavior

/-- The pairing of a program with its evaluation. -/
def pairing {host : Host} {view : HostView} (hview : view.Describes host) {program : Program}
    {options : Options} (hdistinct : (setting view options program 0).globals.Nodup)
    (hlocals : Machine.maxFrames * (program.size + 1) ≤ 2 ^ 32)
    (hglobals : (setting view options program 0).globals.length ≤ 2 ^ 32) (store : Store)
    (rounds : Nat) : Pairing where
  host := host
  setting := setting view options program rounds
  limit := program.size + 1
  base := store.cells.size
  shift := store.fresh
  describes := hview
  distinct := hdistinct
  small := hlocals
  countable := hglobals

theorem length_declaredNames (ss : List Stmt) : (Stmt.declaredNames ss).length ≤ Stmt.sizes ss := by
  induction ss with
  | nil => exact Nat.le_refl _
  | cons s ss ih =>
    rw [Stmt.declaredNames_cons, List.length_append]
    have hs : (s.declared?.map Ident.name).toList.length ≤ s.size := by
      cases hd : s.declared? with
      | none => exact Nat.zero_le _
      | some id =>
        have hpos : 0 < s.size := by cases s <;> simp only [Stmt.size] <;> omega
        exact hpos
    exact Nat.add_le_add hs ih

theorem exists_sim {program : Program} {options : Options} {chunk : Chunk Constant}
    {natives : List Native} {host : Host} {view : HostView}
    (hcompile : program.compile options = .ok chunk) (hplain : program.isPlain = true)
    (hnatives : options.natives = natives.map Native.name) (hdistinct : options.natives.Nodup)
    (hview : view.Describes host) (hlocals : Machine.maxFrames * (program.size + 1) ≤ 2 ^ 32)
    (hglobals : natives.length + program.size ≤ 2 ^ 32) (store : Store) (rounds : Nat) :
    ∃ A : Pairing, A.host = host ∧
      A.Sim rounds (Machine.start (chunk.load store).2 natives (chunk.load store).1)
        (fun _ => A.Ends) (script (setting view options program rounds) options.entry program
          (Pairing.startWorld natives)) := by
  obtain ⟨-, hnodup⟩ :=
    Lowering.names_hoist hcompile (Stmt.areTidy_of_arePlain _ hplain) hdistinct
  have hcount : (setting view options program 0).globals.length ≤ 2 ^ 32 := by
    show (options.natives ++ Stmt.declaredNames program.body).length ≤ _
    have := length_declaredNames program.body
    have hsize : program.size = Stmt.sizes program.body := rfl
    rw [List.length_append, hnatives, List.length_map]
    omega
  exact ⟨pairing hview hnodup hlocals hcount (chunk.load store).2 rounds, rfl,
    Pairing.sim_script hcompile hplain hnatives hdistinct rfl rfl rfl rfl rfl⟩

/-- A compiled program behaves as its evaluation: it ends if and only if evaluation does, with the
same outcome, the same calls of host functions and the same globals. The bounds let all numbers of
locals and globals, of which there is one at most for each part of the program in each active call,
fit into the operands of instructions. -/
theorem compiled_behavior_iff {program : Program} {options : Options} {chunk : Chunk Constant}
    {natives : List Native} {host : Host} {view : HostView}
    (hcompile : program.compile options = .ok chunk) (hplain : program.isPlain = true)
    (hnatives : options.natives = natives.map Native.name) (hdistinct : options.natives.Nodup)
    (hview : view.Describes host) (hlocals : Machine.maxFrames * (program.size + 1) ≤ 2 ^ 32)
    (hglobals : natives.length + program.size ≤ 2 ^ 32) (store : Store) (b : Behavior) :
    (∃ rounds, behavior? view options natives program rounds = some b) ↔
      ∃ steps, Machine.behavior? host steps
        (Machine.start (chunk.load store).2 natives (chunk.load store).1) = some b := by
  exact behavior_iff_of_sim
    (exists_sim hcompile hplain hnatives hdistinct hview hlocals hglobals store)

/-! ## The services of an engine -/

/-- What a service replies to arguments as they are shown. -/
def reply (service : Service) (arguments : List Shown) : Reply :=
  let first := arguments.headD (({} : Store).shown .nil)
  match service with
  | .print | .silent => .value .void
  | .first => .argument 0
  | .kindName => .value (.string first.kind.name)
  | .text => .value (.string first.text)
  | .callable => .value (.bool (first.kind = .closure || first.kind = .native))
  | .count => .value (.int (Int64.ofNat arguments.length))
  | .fail => .failure ("failed with " ++ toString arguments.length ++ " args")

/-- The services of an engine as evaluation meets them. -/
def viewOf (services : Services) : HostView where
  reply _ native := reply (services.get native)
  watches native := services.watched (services.get native)

theorem fields_of_kind {v : Value} (s : Store)
    (h : v.kind ≠ .record ∧ v.kind ≠ .instanceOf ∧ v.kind ≠ .bound) : (s.node v).fields = [] := by
  cases v <;> first | rfl | simp [Value.kind] at h

theorem describes_viewOf (services : Services) : (viewOf services).Describes services.host := by
  refine ⟨fun _ native store arguments hk => ?_, fun _ => rfl⟩
  show (services.get native).answer store arguments =
    (reply (services.get native) (arguments.map store.shown)).answer id arguments
  have hfirst : (arguments.map store.shown).headD (({} : Store).shown .nil) =
      store.shown (arguments.headD .nil) := by
    cases arguments with
    | nil =>
      rw [List.map_nil, List.headD_nil, List.headD_nil, Store.shown_of_fields rfl,
        Store.shown_of_fields rfl]
      rfl
    | cons v vs => rw [List.map_cons, List.headD_cons, List.headD_cons]
  have hkind : (arguments.headD .nil).kind ≠ .record ∧ (arguments.headD .nil).kind ≠ .instanceOf ∧
      (arguments.headD .nil).kind ≠ .bound := by
    cases arguments with
    | nil => exact ⟨nofun, nofun, nofun⟩
    | cons v vs => exact hk v (List.mem_cons_self ..)
  have hshown := Store.shown_of_fields (fields_of_kind store hkind)
  unfold reply
  rw [hfirst, hshown]
  cases services.get native with
  | print | silent | kindName => rfl
  | first => cases arguments <;> rfl
  | text =>
    refine congrArg (fun t => Except.ok (Value.string t)) ?_
    have hfields := fields_of_kind store hkind
    simp only [Store.fullText, Store.isDeep, Store.text, hfields, List.any_nil, List.map_nil,
      Bool.false_eq_true, if_false]
  | callable =>
    refine congrArg (fun b => Except.ok (Value.bool b)) ?_
    generalize arguments.headD .nil = v at hkind
    cases v <;> first | rfl | simp [Value.kind] at hkind
  | count =>
    rw [List.length_map]
    rfl
  | fail =>
    rw [List.length_map]
    rfl

/-- A program that counts the rounds of a loop in a global, but for one that it leaves out. -/
def counting : Program :=
  ⟨[.variable ⟨"count", {}⟩ (.literal (.int 0) {}) {},
    .function ⟨"main", {}⟩ [] [
      .forIn ⟨"i", {}⟩ (.range (.literal (.int 0) {}) (.literal (.int 3) {}) false {})
        (.block [
          .cond (.binary .equal (.name ⟨"i", {}⟩ {}) (.literal (.int 1) {}) {})
            (.block [.exit .continue {}] {}) none {},
          .expression (.assign (.name ⟨"count", {}⟩ {}) (.binary (.arithmetic .add)
            (.name ⟨"count", {}⟩ {}) (.literal (.int 1) {}) {}) {}) {},
          .expression (.call (.name ⟨"print", {}⟩ {}) [.name ⟨"i", {}⟩ {}] {}) {}] {}) {}] {}]⟩

theorem compiled_behavior_iff_counting : ∃ chunk,
    counting.compile { natives := ["print"] } = .ok chunk ∧ counting.isPlain = true ∧
    (viewOf { entries := [(0, .print)] }).Describes (Services.host { entries := [(0, .print)] }) ∧
    Machine.maxFrames * (counting.size + 1) ≤ 2 ^ 32 ∧
    ∃ steps, Machine.behavior? (Services.host { entries := [(0, .print)] }) steps
      (Machine.start (chunk.load {}).2 [⟨0, "print", 1⟩] (chunk.load {}).1) =
        some ⟨.finished,
          [⟨⟨0, "print", 1⟩, [⟨.int, "2"⟩]⟩, ⟨⟨0, "print", 1⟩, [⟨.int, "0"⟩]⟩],
          [⟨.native, "<native fn print>"⟩, ⟨.int, "2"⟩, ⟨.closure, "<fn main>"⟩]⟩ := by
  obtain ⟨chunk, h⟩ := counting.exists_chunk { natives := ["print"] } (by cbv)
  have hlocals : Machine.maxFrames * (counting.size + 1) ≤ 2 ^ 32 := by decide
  refine ⟨chunk, h, rfl, describes_viewOf _, hlocals, ?_⟩
  exact (compiled_behavior_iff h rfl rfl (by decide) (describes_viewOf _) hlocals (by decide) {} _).1
    ⟨4, by cbv⟩

end StackScript.Semantics
