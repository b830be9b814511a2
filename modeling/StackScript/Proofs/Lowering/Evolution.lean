import Mathlib.Data.List.Forall2
import StackScript.Compile

/-!
# How compilation changes its context

Constants, captured variables and globals are only ever added at the end; the functions around the
current one pass on variables and mark locals as captured, but declare nothing; and a message that
was given is never taken back. `Step` says this of two contexts, and `Evolves` of a part of the
compilation whose outcome has no message.

How much is added is bounded by the size of the compiled tree, so that the numbers of a program that
is small enough fit into operands.
-/

namespace StackScript

/-! ## The size of a program -/

mutual

/-- The size of an expression: at least the number of constants, captured variables and locals that
compiling it can add to any one function. -/
def Expr.size : Expr → Nat
  | .literal .. | .name .. => 1
  | .binary _ left right _ | .logical _ left right _ | .assign left right _
  | .range left right _ _ => left.size + right.size + 1
  | .unary _ operand _ => operand.size + 1
  | .call callee arguments _ => callee.size + Expr.sizes arguments + 1
  | .member object _ _ => object.size + 1
  | .arrow params body _ => params.length + body.size + 2
  | .lambda params body _ => params.length + Stmt.sizes body + 2

def Expr.sizes : List Expr → Nat
  | [] => 0
  | e :: es => e.size + Expr.sizes es

def Stmt.size : Stmt → Nat
  | .variable _ init _ => init.size + 1
  | .function _ params body _ => params.length + Stmt.sizes body + 3
  | .record _ _ methods _ => Method.sizes methods + 2
  | .expression e _ => e.size + 1
  | .block body _ => Stmt.sizes body + 1
  | .cond test consequent alternate _ =>
    test.size + consequent.size + Stmt.sizeOption alternate + 1
  | .while test body _ => test.size + body.size + 1
  | .loop body _ => body.size + 1
  | .forIn _ iterable body _ => iterable.size + body.size + 1
  | .for _ init test update body _ =>
    init.size + Expr.sizeOption test + Expr.sizeOption update + body.size + 2
  | .return value _ => Expr.sizeOption value + 1
  | .exit .. => 1

def Stmt.sizes : List Stmt → Nat
  | [] => 0
  | s :: ss => s.size + Stmt.sizes ss

def Stmt.sizeOption : Option Stmt → Nat
  | none => 0
  | some s => s.size

def Expr.sizeOption : Option Expr → Nat
  | none => 0
  | some e => e.size

def Method.sizes : List Method → Nat
  | [] => 0
  | ⟨_, params, body⟩ :: ms => params.length + Stmt.sizes body + 2 + Method.sizes ms

end

def Program.size (program : Program) : Nat := Stmt.sizes program.body

theorem Expr.size_pos (e : Expr) : 0 < e.size := by
  cases e <;> simp only [Expr.size] <;> omega

theorem Expr.length_le_sizes (es : List Expr) : es.length ≤ Expr.sizes es := by
  induction es with
  | nil => exact Nat.le_refl 0
  | cons e es ih =>
    have := e.size_pos
    simp only [List.length_cons, Expr.sizes]
    omega

theorem Method.length_le_sizes (ms : List Method) : ms.length ≤ Method.sizes ms := by
  induction ms with
  | nil => exact Nat.le_refl 0
  | cons m ms ih =>
    obtain ⟨id, params, body⟩ := m
    simp only [List.length_cons, Method.sizes]
    omega

/-! ## Scopes up to marks -/

/-- A local without the mark that a closure captures it. -/
def Local.label (l : Local) : String × Nat := (l.name, l.depth)

namespace Scope

/-- The locals of a scope without their marks. -/
def labels (s : Scope) : List (String × Nat) := s.locals.map Local.label

/-- The scopes differ in the marks of their locals only. -/
structure Alike (s s' : Scope) : Prop where
  depth : s'.depth = s.depth
  labels : s'.labels = s.labels

theorem Alike.refl (s : Scope) : s.Alike s := ⟨rfl, rfl⟩

theorem Alike.trans {s t u : Scope} (h : s.Alike t) (h' : t.Alike u) : s.Alike u :=
  ⟨h'.depth.trans h.depth, h'.labels.trans h.labels⟩

theorem Alike.length {s s' : Scope} (h : s.Alike s') : s'.locals.length = s.locals.length := by
  simpa [Scope.labels] using congrArg List.length h.labels

theorem map_label_captureIn (slot : Nat) (ls : List Local) :
    (captureIn slot ls).map Local.label = ls.map Local.label := by
  induction ls with
  | nil => rfl
  | cons l ls ih =>
    unfold captureIn
    split
    · rfl
    · rw [List.map_cons, ih, List.map_cons]

theorem alike_capture (s : Scope) (slot : Nat) : s.Alike (s.capture slot) :=
  ⟨rfl, map_label_captureIn slot s.locals⟩

end Scope

/-- The names of the globals, in the order of their slots. -/
def Globals.names (g : Globals) : List String := g.entries.map Global.name

theorem Globals.names_markInitialized (g : Globals) (slot : Nat) :
    (g.markInitialized slot).names = g.names := by
  simp only [names, markInitialized]
  apply List.ext_getElem?
  intro i
  simp only [List.getElem?_map, List.getElem?_modify]
  cases g.entries[i]? with
  | none => rfl
  | some x => by_cases h : slot = i <;> simp [h]

namespace Lowering

variable {f f' : Frame} {i limit n : Nat} {c : Context} {name self : String} {gs gs' : List Frame}
  {body : Lower Fragment}

/-! ## Contexts -/

/-- Compiling inside a function changes a function around it only by variables that it passes on and
by marks. -/
structure Frame.Passes (f f' : Frame) : Prop where
  constants : f'.constants = f.constants
  captures : f.captures <+: f'.captures
  scope : f.scope.Alike f'.scope

theorem Frame.Passes.refl (f : Frame) : f.Passes f :=
  ⟨rfl, List.prefix_refl _, .refl _⟩

theorem Frame.Passes.trans {g h : Frame} (hfg : f.Passes g) (hgh : g.Passes h) : f.Passes h :=
  ⟨hgh.constants.trans hfg.constants, hfg.captures.trans hgh.captures, hfg.scope.trans hgh.scope⟩

/-- There is room for `n` more constants, captured variables and locals below a limit. -/
structure Frame.Room (limit n : Nat) (f : Frame) : Prop where
  constants : f.constants.length + n < limit
  captures : f.captures.length + n < limit
  locals : f.scope.locals.length + n < limit

theorem Frame.Room.mono {m : Nat} (h : f.Room limit n) (hm : m ≤ n) : f.Room limit m := by
  obtain ⟨h₁, h₂, h₃⟩ := h
  exact ⟨by omega, by omega, by omega⟩

theorem Frame.Room.grow {k : Nat} (h : f.Room limit (n + k))
    (h₁ : f'.constants.length ≤ f.constants.length + n)
    (h₂ : f'.captures.length ≤ f.captures.length + n)
    (h₃ : f'.scope.locals.length ≤ f.scope.locals.length + n) : f'.Room limit k := by
  obtain ⟨r₁, r₂, r₃⟩ := h
  exact ⟨by omega, by omega, by omega⟩

/-- Every captured variable is one of the function around: one of its locals, or one that it has
captured itself. -/
def Linked : Frame → List Frame → Prop
  | f, [] => f.captures = []
  | f, g :: gs =>
    (∀ x ∈ f.captures, x.index.toNat <
      if x.fromLocal then g.scope.locals.length else g.captures.length) ∧ Linked g gs

/-- No function captures a variable twice. -/
def Distinct (f : Frame) (gs : List Frame) : Prop := ∀ g ∈ f :: gs, g.captures.Nodup

theorem Linked.congr (h : Linked f gs) (hf : f'.captures = f.captures) : Linked f' gs := by
  cases gs with
  | nil => exact hf.trans h
  | cons g gs =>
    refine ⟨?_, h.2⟩
    rw [hf]
    exact h.1

namespace Context

variable {m n : Nat} {c : Context}

/-- Every function has room. -/
structure Room (limit n : Nat) (c : Context) : Prop where
  frame : c.frame.Room limit n
  enclosing : ∀ f ∈ c.enclosing, f.Room limit n

theorem Room.mono {limit : Nat} (h : c.Room limit n) (hm : m ≤ n) : c.Room limit m :=
  ⟨h.frame.mono hm, fun f hf => (h.enclosing f hf).mono hm⟩

/-- There is no message. -/
structure Clean (c : Context) : Prop where
  messages : c.messages = []
  fatal : c.fatal = none
  unmuted : c.muted = false

/-- A muted statement has a message. -/
def Honest (c : Context) : Prop := c.muted = true → c.messages ≠ []

/-- What compiling a part of a program of size at most `n` can change. -/
structure Step (n : Nat) (c c' : Context) : Prop where
  constants : c.frame.constants <+: c'.frame.constants
  captures : c.frame.captures <+: c'.frame.captures
  enclosing : List.Forall₂ Frame.Passes c.enclosing c'.enclosing
  globals : c.globals.names <+: c'.globals.names
  globalCount : c'.globals.entries.length ≤ c.globals.entries.length + n
  room : ∀ limit k, c.Room limit (n + k) → c'.Room limit k
  linked : Linked c.frame c.enclosing → Linked c'.frame c'.enclosing
  distinct : Distinct c.frame c.enclosing → Distinct c'.frame c'.enclosing

theorem Step.refl (c : Context) : Step 0 c c where
  constants := List.prefix_refl _
  captures := List.prefix_refl _
  enclosing := List.forall₂_same.2 fun f _ => .refl f
  globals := List.prefix_refl _
  globalCount := Nat.le_refl _
  room limit k h := by simpa using h
  linked h := h
  distinct h := h

/-- A step that concerns the current function alone. -/
theorem Step.ofFrame {f : Frame} (hk : c.frame.constants <+: f.constants)
    (hkn : f.constants.length ≤ c.frame.constants.length + n) (hc : f.captures = c.frame.captures)
    (hl : f.scope.locals.length ≤ c.frame.scope.locals.length + n) :
    Step n c { c with frame := f } where
  constants := hk
  captures := by simp only [hc, List.prefix_refl]
  enclosing := List.forall₂_same.2 fun f _ => .refl f
  globals := List.prefix_refl _
  globalCount := Nat.le_add_right _ _
  room limit k h := ⟨h.frame.grow hkn (by rw [hc]; omega) hl,
    fun g hg => (h.enclosing g hg).mono (by omega)⟩
  linked h := h.congr hc
  distinct h := by
    obtain ⟨hf, hgs⟩ := List.forall_mem_cons.1 h
    exact List.forall_mem_cons.2 ⟨hc ▸ hf, hgs⟩

theorem forall₂_trans {α : Type} {R : α → α → Prop} (hR : ∀ x y z, R x y → R y z → R x z)
    {xs ys zs : List α} (h : List.Forall₂ R xs ys) (h' : List.Forall₂ R ys zs) :
    List.Forall₂ R xs zs := by
  induction h generalizing zs with
  | nil => exact h'
  | cons hxy _ ih =>
    cases h' with
    | cons hyz h' => exact .cons (hR _ _ _ hxy hyz) (ih h')

theorem forall₂_passes_trans {fs gs hs : List Frame} (h : List.Forall₂ Frame.Passes fs gs)
    (h' : List.Forall₂ Frame.Passes gs hs) : List.Forall₂ Frame.Passes fs hs :=
  forall₂_trans (fun _ _ _ => .trans) h h'

theorem Step.trans {c' c'' : Context} (h : Step n c c') (h' : Step m c' c'') :
    Step (n + m) c c'' where
  constants := h.constants.trans h'.constants
  captures := h.captures.trans h'.captures
  enclosing := forall₂_passes_trans h.enclosing h'.enclosing
  globals := h.globals.trans h'.globals
  globalCount := by
    have := h.globalCount
    have := h'.globalCount
    omega
  room limit k hk := h'.room limit k (h.room limit (m + k) (by rwa [← Nat.add_assoc]))
  linked hl := h'.linked (h.linked hl)
  distinct hd := h'.distinct (h.distinct hd)

theorem Step.mono {c' : Context} (h : Step n c c') (hm : n ≤ m) : Step m c c' where
  constants := h.constants
  captures := h.captures
  enclosing := h.enclosing
  globals := h.globals
  globalCount := by
    have := h.globalCount
    omega
  room limit k hk := h.room limit k (hk.mono (by omega))
  linked := h.linked
  distinct := h.distinct

end Context

/-! ## Parts of the compilation -/

section Apply

variable {α β : Type} (c : Context)

theorem bind_apply (x : Lower α) (f : α → Lower β) : (x >>= f) c = f (x c).1 (x c).2 := rfl

theorem get_bind (f : Context → Lower β) : (get >>= f) c = f c c := rfl

theorem set_apply (c' : Context) : (set c' : Lower Unit) c = ((), c') := rfl

end Apply

/-- A part of the compilation keeps track of its messages and, where there are none in the end,
there were none at any time and the context has changed by a step. -/
structure Evolves {α : Type} (n : Nat) (x : Lower α) : Prop where
  honest : ∀ c, c.Honest → (x c).2.Honest
  clean : ∀ c, (x c).2.Clean → c.Clean
  step : ∀ c, (x c).2.Clean → Context.Step n c (x c).2

namespace Evolves

variable {α β : Type} {n m : Nat}

theorem pure (a : α) : Evolves 0 (pure a : Lower α) :=
  ⟨fun _ h => h, fun _ h => h, fun c _ => .refl c⟩

theorem bind {x : Lower α} {f : α → Lower β} (hx : Evolves n x) (hf : ∀ a, Evolves m (f a)) :
    Evolves (n + m) (x >>= f) where
  honest c h := (hf _).honest _ (hx.honest c h)
  clean c h := hx.clean c ((hf _).clean _ h)
  step c h := (hx.step c ((hf _).clean _ h)).trans ((hf _).step _ h)

theorem mono {x : Lower α} (hx : Evolves n x) (hm : n ≤ m) : Evolves m x :=
  ⟨hx.honest, hx.clean, fun c h => (hx.step c h).mono hm⟩

theorem andReturn {x : Lower α} (hx : Evolves n x) (f : α → β) :
    Evolves n (x >>= fun a => Pure.pure (f a)) :=
  hx.bind fun a => pure (f a)

/-- Looking at the context changes nothing. -/
theorem ofRead {x : Lower α} (h : ∀ c, (x c).2 = c) : Evolves 0 x where
  honest c hc := by rwa [h]
  clean c hc := by rwa [h] at hc
  step c _ := by
    rw [h]
    exact .refl c

/-- What gives a message has no clean outcome. -/
theorem ofMessage {x : Lower α} (h : ∀ c, ¬ (x c).2.Clean)
    (hh : ∀ c, c.Honest → (x c).2.Honest) : Evolves 0 x :=
  ⟨hh, fun c hc => absurd hc (h c), fun c hc => absurd hc (h c)⟩

end Evolves

theorem report_eq (cause : Diagnostic.Cause) (span : Span) (c : Context) :
    (report cause span c).2 = if c.muted || c.fatal.isSome then c
      else { c with messages := c.messages ++ [⟨cause, span⟩], muted := true } :=
  rfl

theorem not_clean_report (cause : Diagnostic.Cause) (span : Span) (c : Context) :
    ¬ (report cause span c).2.Clean := by
  intro h
  rw [report_eq] at h
  split at h
  · rename_i hc
    simp [h.unmuted, h.fatal] at hc
  · exact absurd h.unmuted (by simp)

theorem evolves_report (cause : Diagnostic.Cause) (span : Span) : Evolves 0 (report cause span) := by
  refine .ofMessage (not_clean_report cause span) fun c h => ?_
  rw [report_eq]
  split
  · exact h
  · intro _
    simp

theorem not_clean_abort (cause : Diagnostic.Cause) (span : Span) (c : Context) :
    ¬ (abort cause span c).2.Clean := by
  intro h
  by_cases hc : c.fatal.isSome
  · have he : (abort cause span c).2 = c := if_pos hc
    rw [he] at h
    simp [h.fatal] at hc
  · have he : (abort cause span c).2 = { c with fatal := some ⟨cause, span⟩ } := if_neg hc
    rw [he] at h
    exact absurd h.fatal (by simp)

theorem evolves_abort (cause : Diagnostic.Cause) (span : Span) : Evolves 0 (abort cause span) := by
  refine .ofMessage (not_clean_abort cause span) fun c h => ?_
  by_cases hc : c.fatal.isSome
  · have he : (abort cause span c).2 = c := if_pos hc
    rwa [he]
  · have he : (abort cause span c).2 = { c with fatal := some ⟨cause, span⟩ } := if_neg hc
    rw [he]
    exact h

theorem evolves_getScope : Evolves 0 getScope := .ofRead fun _ => rfl

theorem evolves_atTopLevel : Evolves 0 atTopLevel := .ofRead fun _ => rfl

theorem evolves_release (depth : Nat) (span : Span) : Evolves 0 (release depth span) :=
  .ofRead fun _ => rfl

theorem evolves_modifyScope {f : Scope → Scope}
    (hf : ∀ s, (f s).locals.length ≤ s.locals.length + n) : Evolves n (modifyScope f) where
  honest _ h := h
  clean _ h := { h with }
  step c _ := .ofFrame (List.prefix_refl _) (Nat.le_add_right _ _) rfl (hf c.frame.scope)

/-! ## Constants and locals -/

theorem intern_spec (ks : List Constant) (k : Constant) :
    ks <+: (Chunk.intern ks k).2 ∧ (Chunk.intern ks k).2.length ≤ ks.length + 1 ∧
      (Chunk.intern ks k).2[(Chunk.intern ks k).1]? = some k := by
  unfold Chunk.intern
  cases h : ks.findIdx? (· == k) with
  | some i =>
    obtain ⟨hi, hk, -⟩ := List.findIdx?_eq_some_iff_getElem.1 h
    refine ⟨List.prefix_refl _, Nat.le_succ _, ?_⟩
    show ks[i]? = some k
    rw [List.getElem?_eq_getElem hi, eq_of_beq hk]
  | none => exact ⟨List.prefix_append _ _, by simp, by simp⟩

theorem evolves_constant (k : Constant) : Evolves 1 (constant k) where
  honest _ h := h
  clean _ h := { h with }
  step _ _ := .ofFrame (intern_spec _ k).1 (intern_spec _ k).2.1 rfl (Nat.le_succ _)

theorem constant_index {k : Constant} (hr : c.Room (2 ^ 32) 1) :
    (constant k c).2.frame.constants[(constant k c).1.toNat]? = some k := by
  obtain ⟨-, hl, hk⟩ := intern_spec c.frame.constants k
  have hi : (Chunk.intern c.frame.constants k).1 < (Chunk.intern c.frame.constants k).2.length :=
    (List.getElem?_eq_some_iff.1 hk).1
  have := hr.frame.constants
  show (Chunk.intern c.frame.constants k).2[(Chunk.intern c.frame.constants k).1.toUInt32.toNat]? = _
  rw [Word.toNat_toUInt32 (by omega), hk]

theorem evolves_pushConstant (k : Constant) (span : Span) : Evolves 1 (pushConstant k span) :=
  (evolves_constant k).andReturn _

theorem evolves_literal (l : Literal) (span : Span) : Evolves 1 (literal l span) := by
  cases l with
  | bool b => cases b <;> exact (Evolves.pure _).mono (by omega)
  | nil | void => exact (Evolves.pure _).mono (by omega)
  | _ => exact evolves_pushConstant _ span

theorem evolves_addLocal (name : String) : Evolves 1 (addLocal name) where
  honest _ h := h
  clean _ h := { h with }
  step _ _ := .ofFrame (List.prefix_refl _) (Nat.le_succ _) rfl (Nat.le_refl _)

/-! ## Resolution -/

/-- A function that captures one variable more, or had captured it before, under an index. -/
structure Frame.Captured (f f' : Frame) (index : Nat) : Prop where
  scope : f'.scope = f.scope
  constants : f'.constants = f.constants
  captures : f.captures <+: f'.captures
  count : f'.captures.length ≤ f.captures.length + 1
  index : index < f'.captures.length

theorem Frame.Captured.passes (h : f.Captured f' i) : f.Passes f' :=
  ⟨h.constants, h.captures, by rw [h.scope]; exact .refl _⟩

theorem Frame.Captured.room (h : f.Captured f' i) (hr : f.Room limit (1 + n)) :
    f'.Room limit n := by
  refine hr.grow ?_ h.count ?_
  · rw [h.constants]
    omega
  · rw [h.scope]
    omega

theorem Frame.captured_capture (f : Frame) (x : Capture) :
    f.Captured (f.capture x).2 (f.capture x).1 ∧
      (f.capture x).2.captures[(f.capture x).1]? = some x := by
  unfold Frame.capture
  cases h : f.captures.findIdx? (· = x) with
  | some i =>
    obtain ⟨hi, hx, -⟩ := List.findIdx?_eq_some_iff_getElem.1 h
    refine ⟨⟨rfl, rfl, List.prefix_refl _, Nat.le_succ _, hi⟩, ?_⟩
    show f.captures[i]? = some x
    rw [List.getElem?_eq_getElem hi]
    exact congrArg some (of_decide_eq_true hx)
  | none =>
    exact ⟨⟨rfl, rfl, List.prefix_append _ _, by simp, by simp⟩, by simp⟩

theorem captureFrom_cons {g : Frame} (h : captureFrom name f (g :: gs) = some (i, f', gs')) :
    (∃ slot, g.scope.slot? name = some slot ∧ i = (f.capture ⟨true, slot.toUInt32⟩).1 ∧
      f' = (f.capture ⟨true, slot.toUInt32⟩).2 ∧
      gs' = { g with scope := g.scope.capture slot } :: gs) ∨
    g.scope.slot? name = none ∧ ∃ j g₁ gs₁, captureFrom name g gs = some (j, g₁, gs₁) ∧
      i = (f.capture ⟨false, j.toUInt32⟩).1 ∧ f' = (f.capture ⟨false, j.toUInt32⟩).2 ∧
      gs' = g₁ :: gs₁ := by
  unfold captureFrom at h
  split at h
  · obtain ⟨rfl, rfl, rfl⟩ : _ ∧ _ ∧ _ := by simpa using h
    exact .inl ⟨_, ‹_›, rfl, rfl, rfl⟩
  · split at h
    · obtain ⟨rfl, rfl, rfl⟩ : _ ∧ _ ∧ _ := by simpa using h
      exact .inr ⟨‹_›, _, _, _, ‹_›, rfl, rfl, rfl⟩
    · simp at h

theorem captureFrom_spec (h : captureFrom name f gs = some (i, f', gs')) :
    f.Captured f' i ∧ List.Forall₂ Frame.Passes gs gs' ∧
      ∀ limit n, (∀ g ∈ gs, g.Room limit (1 + n)) → ∀ g ∈ gs', g.Room limit n := by
  induction gs generalizing f f' gs' i with
  | nil => simp [captureFrom] at h
  | cons g gs ih =>
    rcases captureFrom_cons h with ⟨slot, -, rfl, rfl, rfl⟩ | ⟨-, j, g₁, gs₁, hrec, rfl, rfl, rfl⟩
    · refine ⟨(f.captured_capture _).1, .cons ⟨rfl, List.prefix_refl _, g.scope.alike_capture slot⟩
        (List.forall₂_same.2 fun f _ => .refl f), ?_⟩
      intro limit n hr g' hg'
      rcases List.mem_cons.1 hg' with rfl | hg'
      · exact (hr g (List.mem_cons_self ..)).grow (Nat.le_succ _) (Nat.le_succ _)
          (Nat.le_succ_of_le (Nat.le_of_eq (g.scope.alike_capture slot).length))
      · exact (hr g' (List.mem_cons_of_mem _ hg')).mono (by omega)
    · obtain ⟨hg, hgs, hroom⟩ := ih hrec
      refine ⟨(f.captured_capture _).1, .cons hg.passes hgs, ?_⟩
      intro limit n hr g' hg'
      rcases List.mem_cons.1 hg' with rfl | hg'
      · exact hg.room (hr g (List.mem_cons_self ..))
      · exact hroom limit n (fun g hg => hr g (List.mem_cons_of_mem _ hg)) g' hg'

theorem slotIn?_lt {ls : List Local} {slot : Nat} (h : Scope.slotIn? name ls = some slot) :
    slot < ls.length := by
  induction ls with
  | nil => cases h
  | cons l ls ih =>
    unfold Scope.slotIn? at h
    split at h
    · obtain rfl := Option.some.inj h
      exact Nat.lt_succ_self _
    · exact Nat.lt_succ_of_lt (ih h)

theorem toNat_toUInt32_le (n : Nat) : n.toUInt32.toNat ≤ n := by
  rw [show n.toUInt32.toNat = n % 2 ^ 32 from UInt32.toNat_ofNat']
  exact Nat.mod_le _ _

theorem Frame.mem_capture {x y : Capture} (h : y ∈ (f.capture x).2.captures) :
    y ∈ f.captures ∨ y = x := by
  unfold Frame.capture at h
  split at h
  · exact .inl h
  · simpa using h

theorem linked_captureFrom (h : captureFrom name f gs = some (i, f', gs')) (hl : Linked f gs) :
    Linked f' gs' := by
  induction gs generalizing f f' gs' i with
  | nil => simp [captureFrom] at h
  | cons g gs ih =>
    rcases captureFrom_cons h with
      ⟨slot, hslot, rfl, rfl, rfl⟩ | ⟨-, j, g₁, gs₁, hrec, rfl, rfl, rfl⟩
    · refine ⟨fun x hx => ?_, hl.2.congr rfl⟩
      show _ < if x.fromLocal then (g.scope.capture slot).locals.length else g.captures.length
      rw [(g.scope.alike_capture slot).length]
      rcases Frame.mem_capture hx with hx | rfl
      · exact hl.1 x hx
      · exact Nat.lt_of_le_of_lt (toNat_toUInt32_le slot) (slotIn?_lt hslot)
    · obtain ⟨hg, -, -⟩ := captureFrom_spec hrec
      refine ⟨fun x hx => ?_, ih hrec hl.2⟩
      rw [hg.scope]
      rcases Frame.mem_capture hx with hx | rfl
      · have hle := hg.captures.length_le
        have := hl.1 x hx
        split at this
        · rwa [if_pos ‹_›]
        · rw [if_neg ‹_›]
          omega
      · exact Nat.lt_of_le_of_lt (toNat_toUInt32_le j) hg.index

theorem Frame.nodup_capture (h : f.captures.Nodup) (x : Capture) :
    (f.capture x).2.captures.Nodup := by
  unfold Frame.capture
  cases hx : f.captures.findIdx? (· = x) with
  | some i => exact h
  | none =>
    refine List.nodup_append.2 ⟨h, by simp, ?_⟩
    rintro y hy z hz rfl
    obtain rfl := List.mem_singleton.1 hz
    simpa using List.findIdx?_eq_none_iff.1 hx y hy

theorem distinct_captureFrom (h : captureFrom name f gs = some (i, f', gs')) (hd : Distinct f gs) :
    Distinct f' gs' := by
  induction gs generalizing f f' gs' i with
  | nil => simp [captureFrom] at h
  | cons g gs ih =>
    obtain ⟨hf, hgs⟩ := List.forall_mem_cons.1 hd
    rcases captureFrom_cons h with ⟨slot, -, rfl, rfl, rfl⟩ | ⟨-, j, g₁, gs₁, hrec, rfl, rfl, rfl⟩
    · refine List.forall_mem_cons.2 ⟨Frame.nodup_capture hf _, ?_⟩
      exact List.forall_mem_cons.2 (List.forall_mem_cons.1 hgs)
    · exact List.forall_mem_cons.2 ⟨Frame.nodup_capture hf _, ih hrec hgs⟩

theorem resolve_cases (id : Ident) (c : Context) :
    (∃ slot, c.frame.scope.slot? id.name = some slot ∧
      resolve id c = (some (.local slot.toUInt32), c)) ∨
    (c.frame.scope.slot? id.name = none ∧
      ∃ i f gs, captureFrom id.name c.frame c.enclosing = some (i, f, gs) ∧
        resolve id c = (some (.captured i.toUInt32), { c with frame := f, enclosing := gs })) ∨
    (c.frame.scope.slot? id.name = none ∧ captureFrom id.name c.frame c.enclosing = none ∧
      ∃ slot, c.globals.slot? id.name = some slot ∧
        (c.globals.isInitialized slot = true ∨ (atTopLevel c).1 = false) ∧
        resolve id c = (some (.global slot.toUInt32), c)) ∨
    ∃ cause, (c.frame.scope.slot? id.name = none ∧
        captureFrom id.name c.frame c.enclosing = none ∧
        (c.globals.slot? id.name = none ∧ cause = .undeclared id.name ∨
          ∃ slot, c.globals.slot? id.name = some slot ∧ c.globals.isInitialized slot = false ∧
            (atTopLevel c).1 = true ∧ cause = .uninitialized id.name)) ∧
      resolve id c = (none, (report cause id.span c).2) := by
  cases hl : c.frame.scope.slot? id.name with
  | some slot =>
    refine .inl ⟨slot, rfl, ?_⟩
    rw [resolve, get_bind, hl]
    rfl
  | none =>
    refine .inr ?_
    cases hf : captureFrom id.name c.frame c.enclosing with
    | some r =>
      obtain ⟨i, f, gs⟩ := r
      refine .inl ⟨rfl, i, f, gs, rfl, ?_⟩
      rw [resolve, get_bind, hl, hf]
      rfl
    | none =>
      refine .inr ?_
      cases hg : c.globals.slot? id.name with
      | none =>
        refine .inr ⟨.undeclared id.name, ⟨rfl, rfl, .inl ⟨rfl, rfl⟩⟩, ?_⟩
        rw [resolve, get_bind, hl, hf, hg]
        rfl
      | some slot =>
        by_cases h : (!c.globals.isInitialized slot && (atTopLevel c).1) = true
        · have hr : resolve id c = (none, (report (.uninitialized id.name) id.span c).2) := by
            rw [resolve, get_bind, hl, hf, hg]
            dsimp only
            rw [bind_apply, if_pos h]
            rfl
          rw [Bool.and_eq_true, Bool.not_eq_true'] at h
          exact .inr ⟨_, ⟨rfl, rfl, .inr ⟨slot, rfl, h.1, h.2, rfl⟩⟩, hr⟩
        · have hr : resolve id c = (some (.global slot.toUInt32), c) := by
            rw [resolve, get_bind, hl, hf, hg]
            dsimp only
            rw [bind_apply, if_neg h]
            rfl
          rw [Bool.and_eq_true, Bool.not_eq_true', not_and, Bool.not_eq_true] at h
          refine .inl ⟨rfl, rfl, slot, rfl, ?_, hr⟩
          cases hi : c.globals.isInitialized slot with
          | true => exact .inl rfl
          | false => exact .inr (h hi)

theorem evolves_resolve (id : Ident) : Evolves 1 (resolve id) := by
  refine ⟨fun c h => ?_, fun c h => ?_, fun c h => ?_⟩
  · rcases resolve_cases id c with ⟨_, -, he⟩ | ⟨-, _, _, _, -, he⟩ | ⟨-, -, _, -, -, he⟩ | ⟨cause, -, he⟩
    · rwa [he]
    · rwa [he]
    · rwa [he]
    · rw [he]
      exact (evolves_report cause id.span).honest c h
  · rcases resolve_cases id c with ⟨_, -, he⟩ | ⟨-, _, _, _, -, he⟩ | ⟨-, -, _, -, -, he⟩ | ⟨cause, -, he⟩
    · rwa [he] at h
    · rw [he] at h
      exact { h with }
    · rwa [he] at h
    · rw [he] at h
      exact absurd h (not_clean_report cause id.span c)
  · rcases resolve_cases id c with ⟨_, -, he⟩ | ⟨-, _, _, _, hf, he⟩ | ⟨-, -, _, -, -, he⟩ | ⟨cause, -, he⟩
    · rw [he]
      exact (Context.Step.refl c).mono (by omega)
    · rw [he]
      obtain ⟨hc, hgs, hroom⟩ := captureFrom_spec hf
      exact
        { constants := by simp only [hc.constants, List.prefix_refl]
          captures := hc.captures
          enclosing := hgs
          globals := List.prefix_refl _
          globalCount := Nat.le_succ _
          room := fun limit k hk => ⟨hc.room hk.frame, hroom limit k hk.enclosing⟩
          linked := linked_captureFrom hf
          distinct := distinct_captureFrom hf }
    · rw [he]
      exact (Context.Step.refl c).mono (by omega)
    · rw [he] at h
      exact absurd h (not_clean_report cause id.span c)

theorem exists_of_clean_resolve {id : Ident} (h : (resolve id c).2.Clean) :
    ∃ b, (resolve id c).1 = some b := by
  rcases resolve_cases id c with ⟨_, -, he⟩ | ⟨-, _, _, _, -, he⟩ | ⟨-, -, _, -, -, he⟩ | ⟨cause, -, he⟩
  · exact ⟨_, by rw [he]⟩
  · exact ⟨_, by rw [he]⟩
  · exact ⟨_, by rw [he]⟩
  · rw [he] at h
    exact absurd h (not_clean_report cause id.span c)

theorem captured_lt {id : Ident} {i : UInt32} (h : (resolve id c).1 = some (.captured i)) :
    i.toNat < (resolve id c).2.frame.captures.length := by
  rcases resolve_cases id c with ⟨_, -, he⟩ | ⟨-, j, f, _, hf, he⟩ | ⟨-, -, _, -, -, he⟩ | ⟨cause, -, he⟩ <;>
    rw [he] at h <;> simp only [Option.some.injEq, reduceCtorEq, Binding.captured.injEq] at h
  subst h
  rw [he]
  exact Nat.lt_of_le_of_lt (toNat_toUInt32_le j) (captureFrom_spec hf).1.index

/-! ## Declarations -/

theorem declareGlobal_cases (id : Ident) (c : Context) :
    (∃ slot, c.globals.slot? id.name = some slot ∧ c.globals.isInitialized slot = false ∧
      declareGlobal id c =
        (some (.global slot.toUInt32), { c with globals := c.globals.markInitialized slot })) ∨
    (c.globals.slot? id.name = none ∧
      declareGlobal id c = (some (.global c.globals.entries.length.toUInt32),
        { c with globals := ⟨c.globals.entries ++ [⟨id.name, true⟩]⟩ })) ∨
    ∃ slot, c.globals.slot? id.name = some slot ∧ c.globals.isInitialized slot = true ∧
      declareGlobal id c = (none, (report (.redeclared id.name) id.span c).2) := by
  cases hg : c.globals.slot? id.name with
  | none =>
    refine .inr (.inl ⟨rfl, ?_⟩)
    rw [declareGlobal, get_bind, Globals.declare?, hg]
    rfl
  | some slot =>
    cases hi : c.globals.isInitialized slot with
    | true =>
      refine .inr (.inr ⟨slot, rfl, hi, ?_⟩)
      rw [declareGlobal, get_bind, hg]
      dsimp only
      rw [if_pos hi]
      rfl
    | false =>
      refine .inl ⟨slot, rfl, hi, ?_⟩
      rw [declareGlobal, get_bind, hg]
      dsimp only
      rw [hi, if_neg Bool.false_ne_true]
      rfl

theorem evolves_declareGlobal (id : Ident) : Evolves 1 (declareGlobal id) := by
  refine ⟨fun c h => ?_, fun c h => ?_, fun c h => ?_⟩
  · rcases declareGlobal_cases id c with ⟨_, -, -, he⟩ | ⟨-, he⟩ | ⟨_, -, -, he⟩
    · rwa [he]
    · rwa [he]
    · rw [he]
      exact (evolves_report _ _).honest c h
  · rcases declareGlobal_cases id c with ⟨_, -, -, he⟩ | ⟨-, he⟩ | ⟨_, -, -, he⟩
    · rw [he] at h
      exact { h with }
    · rw [he] at h
      exact { h with }
    · rw [he] at h
      exact absurd h (not_clean_report _ _ c)
  · rcases declareGlobal_cases id c with ⟨slot, -, -, he⟩ | ⟨-, he⟩ | ⟨_, -, -, he⟩
    · rw [he]
      have hs := (Context.Step.refl c).mono (Nat.zero_le 1)
      exact
        { hs with
          globals := by
            show _ <+: (c.globals.markInitialized slot).names
            simp only [Globals.names_markInitialized, List.prefix_refl]
          globalCount := by simp [Globals.markInitialized]
          room := fun limit k hk => ⟨(hs.room limit k hk).frame, (hs.room limit k hk).enclosing⟩
          linked := fun hl => hl
          distinct := fun hd => hd }
    · rw [he]
      have hs := (Context.Step.refl c).mono (Nat.zero_le 1)
      exact
        { hs with
          globals := by
            show _ <+: Globals.names ⟨_ ++ _⟩
            simp [Globals.names]
          globalCount := by simp
          room := fun limit k hk => ⟨(hs.room limit k hk).frame, (hs.room limit k hk).enclosing⟩
          linked := fun hl => hl
          distinct := fun hd => hd }
    · rw [he] at h
      exact absurd h (not_clean_report _ _ c)

theorem evolves_declareLocal (id : Ident) : Evolves 1 (declareLocal id) := by
  refine evolves_getScope.bind (m := 1) fun scope => ?_
  split
  · exact ((evolves_report _ _).andReturn _).mono (by omega)
  · exact (evolves_addLocal id.name).andReturn _

theorem evolves_declare (id : Ident) : Evolves 1 (declare id) := by
  refine evolves_atTopLevel.bind (m := 1) fun top => ?_
  split
  · exact evolves_declareGlobal id
  · exact evolves_declareLocal id

theorem declareParams_cons (id : Ident) (ids : List Ident) (c : Context) :
    declareParams (id :: ids) c = (if c.frame.scope.declares id.name then do
        report (.redeclared id.name) id.span
        let _ ← addLocal id.name
        declareParams ids
      else do
        let _ ← addLocal id.name
        declareParams ids : Lower Unit) c := rfl

theorem evolves_declareParams (ids : List Ident) : Evolves ids.length (declareParams ids) := by
  induction ids with
  | nil => exact .pure ()
  | cons id ids ih =>
    have hadd : Evolves (1 + ids.length) (do let _ ← addLocal id.name; declareParams ids) :=
      (evolves_addLocal id.name).bind fun _ => ih
    refine (evolves_getScope.bind (m := 1 + ids.length) fun scope => ?_).mono
      (by rw [List.length_cons]; omega)
    split
    · exact ((evolves_report _ _).bind fun _ => hadd).mono (by omega)
    · exact hadd

theorem evolves_reportRepeated (seen : List String) (ids : List Ident) :
    Evolves 0 (reportRepeated seen ids) := by
  induction ids generalizing seen with
  | nil => exact .pure ()
  | cons id ids ih =>
    unfold reportRepeated
    split
    · exact evolves_report _ _
    · exact ih _

theorem evolves_enter : Evolves 0 (modifyScope Scope.enter) :=
  evolves_modifyScope fun _ => Nat.le_refl _

theorem evolves_leaveScope (span : Span) : Evolves 0 (leaveScope span) := by
  refine evolves_getScope.bind (m := 0) fun scope =>
    (evolves_release _ span).bind (m := 0) fun code => ?_
  refine (evolves_modifyScope (n := 0) fun s => ?_).andReturn _
  exact (List.dropWhile_suffix _).length_le

/-! ## Functions -/

/-- The context at the beginning of a function. -/
def Context.inside (c : Context) (self : String) : Context :=
  { c with
    frame := { scope := ((Scope.mk [] (c.frame.scope.depth + 1)).declare self).2 }
    enclosing := c.frame :: c.enclosing }

/-- The context behind a function. -/
def Context.outside (c : Context) : Context :=
  { c with frame := c.enclosing.headD {}, enclosing := c.enclosing.tail }

/-- The code of a function with a return at its end. -/
def returning (code : Fragment) (span : Span) : Fragment :=
  if code.endsInReturn then code else code ++ .emit ⟨.returnVoid, ()⟩ span

/-- The body of a function behind its parameters. -/
def withParams (params : List Ident) (body : Lower Fragment) : Lower Fragment := do
  declareParams params
  body

/-- What is left to do once the body of a function is compiled. -/
def close (name : String) (params : List Ident) (span : Span) (code : Fragment) :
    Lower Fragment := fun inner =>
  let chunk := code.toChunk (some name) inner.frame.constants
  let k := constant ⟨.function ⟨params.length.toUInt32, chunk⟩⟩ inner.outside
  (.emit ⟨.pushClosure, (k.1, inner.frame.captures)⟩ span, k.2)

/-- Refuses code with a jump that is too far. -/
def checkJumps (code : Fragment) : Lower Unit :=
  match code.farJump? 0 with
  | some (offset, span) => abort (.jumpTooFar offset) span
  | none => pure ()

theorem function_eq (name self : String) (params : List Ident) (span : Span)
    (body : Lower Fragment) (c : Context) :
    function name self params span body c =
      (do
        let code ← withParams params body
        checkJumps (returning code span)
        close name params span (returning code span)) (c.inside self) := by
  rcases hp : declareParams params (c.inside self) with ⟨_, c₁⟩
  rcases hb : body c₁ with ⟨code, c₂⟩
  have hr : withParams params body (c.inside self) = (code, c₂) := by
    rw [withParams, bind_apply, hp, hb]
  rw [Context.inside] at hp
  rw [function, get_bind]
  simp only [bind_apply, set_apply, hp, hb, hr, checkJumps, returning]
  cases Fragment.farJump? 0 _ <;> rfl

theorem evolves_checkJumps (code : Fragment) : Evolves 0 (checkJumps code) := by
  unfold checkJumps
  split
  · exact evolves_abort _ _
  · exact .pure ()

theorem farJump?_of_clean {code : Fragment} (h : (checkJumps code c).2.Clean) :
    code.farJump? 0 = none ∧ (checkJumps code c).2 = c := by
  cases hj : code.farJump? 0 with
  | some place =>
    simp only [checkJumps, hj] at h
    exact absurd h (not_clean_abort _ _ c)
  | none =>
    simp only [checkJumps, hj]
    exact ⟨trivial, rfl⟩

theorem evolves_withParams (params : List Ident) (hb : Evolves n body) :
    Evolves (params.length + n) (withParams params body) :=
  (evolves_declareParams params).bind fun _ => hb

theorem function_of_clean {params : List Ident} {span : Span}
    (h : (function name self params span body c).2.Clean) :
    let r := withParams params body (c.inside self)
    (returning r.1 span).farJump? 0 = none ∧ r.2.Clean ∧
      function name self params span body c = close name params span (returning r.1 span) r.2 := by
  rw [function_eq] at h
  intro r
  have hclose : (checkJumps (returning r.1 span) r.2).2.Clean := by
    have h' := (evolves_constant _).clean _ h
    exact { h' with }
  obtain ⟨hf, he⟩ := farJump?_of_clean hclose
  refine ⟨hf, by rwa [he] at hclose, ?_⟩
  rw [function_eq]
  show close name params span (returning r.1 span) (checkJumps (returning r.1 span) r.2).2 = _
  rw [he]

theorem Context.Room.inside (h : c.Room limit (n + 1)) (self : String) :
    (c.inside self).Room limit n := by
  have := h.frame.constants
  refine ⟨⟨?_, ?_, ?_⟩, fun f hf => ?_⟩
  · show 0 + n < limit
    omega
  · show 0 + n < limit
    omega
  · show 1 + n < limit
    omega
  · rcases List.mem_cons.1 hf with rfl | hf
    · exact h.frame.mono (Nat.le_succ n)
    · exact (h.enclosing f hf).mono (Nat.le_succ n)

theorem Context.Step.outside {inner : Context} (h : Step n (c.inside self) inner) :
    Step (n + 1) c inner.outside ∧ c.frame.Passes inner.outside.frame := by
  cases he : inner.enclosing with
  | nil =>
    have := h.enclosing
    rw [he] at this
    cases this
  | cons g gs =>
    have hpass := h.enclosing
    rw [he] at hpass
    obtain ⟨hg, hgs⟩ := List.forall₂_cons.1 hpass
    have ho : inner.outside = { inner with frame := g, enclosing := gs } := by
      simp [Context.outside, he]
    rw [ho]
    refine ⟨?_, hg⟩
    exact
      { constants := by simp only [hg.constants, List.prefix_refl]
        captures := hg.captures
        enclosing := hgs
        globals := h.globals
        globalCount := Nat.le_succ_of_le h.globalCount
        room := by
          intro limit k hk
          have hr := h.room limit k (Room.inside (by rwa [Nat.add_right_comm] at hk) self)
          have henc := hr.enclosing
          rw [he] at henc
          exact ⟨henc g (List.mem_cons_self ..),
            fun f hf => henc f (List.mem_cons_of_mem g hf)⟩
        linked := by
          intro hl
          have := h.linked ⟨by simp [Context.inside], hl⟩
          rw [he] at this
          exact this.2
        distinct := by
          intro hd
          have := h.distinct (List.forall_mem_cons.2 ⟨List.nodup_nil, hd⟩)
          rw [he] at this
          exact (List.forall_mem_cons.1 this).2 }

theorem evolves_function {params : List Ident} {span : Span} (hb : Evolves n body) :
    Evolves (params.length + n + 2) (function name self params span body) := by
  have hp := evolves_withParams params hb
  refine ⟨fun c h => ?_, fun c h => ?_, fun c h => ?_⟩
  · rw [function_eq]
    exact (evolves_checkJumps _).honest _ (hp.honest (c.inside self) h)
  · obtain ⟨-, hc, -⟩ := function_of_clean h
    have := hp.clean _ hc
    exact ⟨this.messages, this.fatal, this.unmuted⟩
  · obtain ⟨-, hc, he⟩ := function_of_clean h
    rw [he] at h ⊢
    have ho := (hp.step _ hc).outside.1
    exact ho.trans ((evolves_constant _).step _ h)

/-! ## Returns -/

theorem statement_return (strip : Bool) (loop : Option Loop) (value : Option Expr) (span : Span)
    (c : Context) : statement strip loop (.return value span) c = (if c.enclosing.isEmpty then do
      report .returnOutsideFunction span
      return []
    else do
      match ← optionalExpression strip value with
      | some value => return value ++ .emit ⟨.return, ()⟩ span
      | none => return .emit ⟨.returnVoid, ()⟩ span : Lower Fragment) c := rfl

def returnCode (strip : Bool) (value : Option Expr) (span : Span) (c : Context) : Fragment × Context :=
  match value with
  | none => (.emit ⟨.returnVoid, ()⟩ span, c)
  | some e => ((expression strip e c).1 ++ .emit ⟨.return, ()⟩ span, (expression strip e c).2)

/-- A return without a message stands in a function. -/
theorem return_of_clean {strip : Bool} {loop : Option Loop} {value : Option Expr} {span : Span}
    {c : Context} (h : (statement strip loop (.return value span) c).2.Clean) :
    c.enclosing.isEmpty = false ∧
      statement strip loop (.return value span) c = returnCode strip value span c := by
  rw [statement_return] at h ⊢
  split at h
  · exact absurd h (not_clean_report _ _ c)
  · rename_i hne
    rw [if_neg hne]
    exact ⟨eq_false_of_ne_true hne, by cases value <;> rfl⟩

/-! ## Names in expressions

Where a name is resolved without a message, the code is that of its binding. -/

section Names

variable {strip : Bool} {id : Ident} {span : Span} {c : Context}

theorem exists_of_clean_bind {code : Option Binding → Lower Fragment} (hcode : ∀ b c, (code b c).2 = c)
    (h : ((resolve id >>= code) c).2.Clean) :
    ∃ b, (resolve id c).1 = some b ∧ (resolve id >>= code) c = code (some b) (resolve id c).2 := by
  have hclean : (code (resolve id c).1 (resolve id c).2).2.Clean := h
  rw [hcode] at hclean
  obtain ⟨b, hb⟩ := exists_of_clean_resolve hclean
  exact ⟨b, hb, congrArg (code · (resolve id c).2) hb⟩

theorem expression_name (h : (expression strip (.name id span) c).2.Clean) :
    ∃ b, (resolve id c).1 = some b ∧
      expression strip (.name id span) c = (b.get span, (resolve id c).2) := by
  rw [expression] at h ⊢
  exact exists_of_clean_bind (by rintro (_ | _) _ <;> rfl) h

theorem expression_assign_name {value : Expr} {place : Span}
    (h : (expression strip (.assign (.name id place) value span) c).2.Clean) :
    let v := expression strip value c
    ∃ b, (resolve id v.2).1 = some b ∧ expression strip (.assign (.name id place) value span) c =
      (v.1 ++ b.set span, (resolve id v.2).2) := by
  rw [expression, bind_apply] at h ⊢
  exact exists_of_clean_bind (by rintro (_ | _) _ <;> rfl) h

theorem statement_name {loop : Option Loop} {place : Span}
    (h : (statement strip loop (.expression (.name id place) span) c).2.Clean) :
    ∃ b, (resolve id c).1 = some b ∧ statement strip loop (.expression (.name id place) span) c =
      (if strip then [] else b.get place ++ pop span, (resolve id c).2) := by
  rw [statement] at h ⊢
  exact exists_of_clean_bind (by rintro (_ | _) _ <;> rfl) h

end Names

end Lowering
end StackScript
