import StackScript.Proofs.Lowering.Layout
import StackScript.Proofs.Machine.Running
import StackScript.Proofs.Semantics.Relation

/-!
# Simulation

A machine simulates a part of the evaluation when it comes to a state that fits its result, fails
with the same fault, or goes on for at least as many steps as a loop has rounds. Parts are put
together by `Sim.bind`, and loops by `Sim.iterate`.

A `Scene` is a call of the machine, `State` says where it stands beside the evaluation, `Fit` that a
part of the compilation belongs to its function, and `Scoped` what the names in sight mean there.
-/

namespace StackScript.Semantics.Pairing

open Lowering (Context Lower Linked Evolves)
open Machine (Reaches Lasts)

variable (A : Pairing)

/-- The machine and the evaluation look the same from outside. -/
def Shows (m : Machine) (w : World) : Prop :=
  m.calls = w.calls ∧ m.globals.toList.map m.store.shown = w.globals.map fun g => g.2.shown

/-- The machine comes to a state with a property. -/
def Goes (m : Machine) (Q : Machine → Prop) : Prop := ∃ m', Reaches A.host m m' ∧ Q m'

/-- The machine simulates a result of the evaluation. -/
def Sim {α : Type} (n : Nat) (m : Machine) (Q : α → World → Machine → Prop) :
    EStateM.Result Stop World α → Prop
  | .ok a w => A.Goes m (Q a w)
  | .error (.fault f) w =>
    A.Goes m fun m' => ∃ m'', Machine.step A.host m' = .error f m'' ∧ Shows m'' w
  | .error .unfinished _ => Lasts A.host n m
  | .error .undefined _ => False

/-- The machine makes at least one step and comes to a state with a property. -/
def Moves (m : Machine) (Q : Machine → Prop) : Prop :=
  ∃ m', Machine.step A.host m = .ok .running m' ∧ A.Goes m' Q

/-- A round of a loop has ended: the machine goes on to the next one, or the loop has ended. -/
def Round {σ : Type} (Inv : σ → World → Machine → Prop) (Q : Completion → World → Machine → Prop) :
    σ ⊕ Completion → World → Machine → Prop
  | .inl s, w, m => A.Moves m (Inv s w)
  | .inr c, w, m => Q c w m

variable {A} {α β σ : Type} {n k : Nat} {m m' : Machine} {w : World}

theorem Goes.refl {Q : Machine → Prop} (h : Q m) : A.Goes m Q := ⟨m, .refl m, h⟩

theorem Goes.bind {P Q : Machine → Prop} (h : A.Goes m P) (hQ : ∀ m', P m' → A.Goes m' Q) :
    A.Goes m Q := by
  obtain ⟨m₁, h₁, hP⟩ := h
  obtain ⟨m₂, h₂, hq⟩ := hQ m₁ hP
  exact ⟨m₂, h₁.trans h₂, hq⟩

theorem Goes.mono {P Q : Machine → Prop} (h : A.Goes m P) (hQ : ∀ m', P m' → Q m') : A.Goes m Q :=
  h.bind fun m' hP => .refl (hQ m' hP)

theorem Moves.goes {Q : Machine → Prop} (h : A.Moves m Q) : A.Goes m Q := by
  obtain ⟨m₁, hs, m₂, h₂, hq⟩ := h
  exact ⟨m₂, (Reaches.single hs).trans h₂, hq⟩

theorem Moves.bind {P Q : Machine → Prop} (h : A.Moves m P) (hQ : ∀ m', P m' → A.Goes m' Q) :
    A.Moves m Q := by
  obtain ⟨m₁, hs, hg⟩ := h
  exact ⟨m₁, hs, hg.bind hQ⟩

namespace Sim

variable {P Q : α → World → Machine → Prop} {r : EStateM.Result Stop World α}

theorem of_reaches (h : Reaches A.host m m') (hr : A.Sim n m' Q r) : A.Sim n m Q r := by
  match r with
  | .ok a w =>
    obtain ⟨m₁, h₁, hq⟩ := hr
    exact ⟨m₁, h.trans h₁, hq⟩
  | .error (.fault f) w =>
    obtain ⟨m₁, h₁, hq⟩ := hr
    exact ⟨m₁, h.trans h₁, hq⟩
  | .error .unfinished w => exact Lasts.of_reaches h hr
  | .error .undefined w => exact hr

theorem of_goes {R : Machine → Prop} (h : A.Goes m R) (hr : ∀ m', R m' → A.Sim n m' Q r) :
    A.Sim n m Q r := by
  obtain ⟨m', h, hR⟩ := h
  exact (hr m' hR).of_reaches h

theorem forward (h : A.Sim n m P r) (hQ : ∀ a w m, P a w m → A.Goes m (Q a w)) : A.Sim n m Q r := by
  match r with
  | .ok a w => exact Goes.bind h fun m' => hQ a w m'
  | .error (.fault f) w => exact h
  | .error .unfinished w => exact h
  | .error .undefined w => exact h

theorem mono (h : A.Sim n m P r) (hQ : ∀ a w m, P a w m → Q a w m) : A.Sim n m Q r :=
  h.forward fun a w m hP => .refl (hQ a w m hP)

theorem of_moves {R : Machine → Prop} (h : A.Moves m R) (hr : ∀ m', R m' → A.Sim n m' Q r) :
    A.Sim (n + 1) m Q r := by
  obtain ⟨m₁, hs, hg⟩ := h
  have h₁ := of_goes hg hr
  match r with
  | .ok a w => exact of_reaches (.single hs) h₁
  | .error (.fault f) w => exact of_reaches (.single hs) h₁
  | .error .unfinished w => exact Lasts.succ hs h₁
  | .error .undefined w => exact h₁

theorem pure {a : α} (h : Q a w m) : A.Sim n m Q ((Pure.pure a : Eval α) w) := Goes.refl h

theorem bind {x : Eval β} {f : β → Eval α} {P : β → World → Machine → Prop}
    (hx : A.Sim n m P (x w)) (hf : ∀ b w' m', P b w' m' → A.Sim n m' Q (f b w')) :
    A.Sim n m Q ((x >>= f) w) := by
  show A.Sim n m Q (EStateM.bind x f w)
  unfold EStateM.bind
  cases hr : x w with
  | ok b w' =>
    rw [hr] at hx
    obtain ⟨m', h, hP⟩ := hx
    exact (hf b w' m' hP).of_reaches h
  | error e w' =>
    rw [hr] at hx
    match e with
    | .fault f => exact hx
    | .unfinished => exact hx
    | .undefined => exact hx

theorem bind_of_ok {x : Eval β} {f : β → Eval α} {b : β} {w' : World} (hx : x w = .ok b w')
    (hf : A.Sim n m Q (f b w')) : A.Sim n m Q ((x >>= f) w) :=
  bind (P := fun b' w'' m' => b' = b ∧ w'' = w' ∧ m' = m) (by rw [hx]; exact Goes.refl ⟨rfl, rfl, rfl⟩)
    (by
      rintro _ _ _ ⟨rfl, rfl, rfl⟩
      exact hf)

theorem bind_of_error {x : Eval β} {f : β → Eval α} {e : Stop} {w' : World} (hx : x w = .error e w')
    (h : A.Sim n m Q (.error e w')) : A.Sim n m Q ((x >>= f) w) := by
  show A.Sim n m Q (EStateM.bind x f w)
  unfold EStateM.bind
  rw [hx]
  exact h

theorem iterate {Q : Completion → World → Machine → Prop} {round : σ → Eval (σ ⊕ Completion)}
    {Inv : σ → World → Machine → Prop}
    (hround : ∀ s w m, Inv s w m → A.Sim n m (A.Round Inv Q) (round s w))
    (hk : k ≤ n) {s : σ} (h : Inv s w m) : A.Sim k m Q (Semantics.iterate round k s w) := by
  induction k generalizing s w m with
  | zero => exact (rfl : Lasts A.host 0 m)
  | succ k ih =>
    have hr := hround s w m h
    show A.Sim (k + 1) m Q (EStateM.bind (round s) _ w)
    unfold EStateM.bind
    cases he : round s w with
    | ok r w' =>
      rw [he] at hr
      obtain ⟨m', hreach, hm'⟩ := hr
      refine of_reaches hreach ?_
      cases r with
      | inl s' => exact of_moves hm' fun m'' hinv => ih (by omega) hinv
      | inr c => exact Sim.pure hm'
    | error e w' =>
      rw [he] at hr
      match e with
      | .fault f => exact hr
      | .unfinished => exact Lasts.anti hr hk
      | .undefined => exact hr

end Sim

/-! ## A function at work -/

variable (A)

/-- An active call of the machine, with the variables that its function captures in the end, the
functions around it and the variables of these that it can see. The locals of every call around it
stay below the limit, so that all slots fit into operands. -/
structure Scene where
  frame : StackScript.Frame
  callers : List StackScript.Frame
  captures : List Capture
  enclosing : List Lowering.Frame
  outer : Env
  base_le : frame.localsBase ≤ callers.length * A.limit
  depth_lt : callers.length < Machine.maxFrames

variable {A} {S : A.Scene} {c c' : Context} {l : Nat} {L : List Nat} {env : Env}

/-- The code that runs. -/
def Scene.code (S : A.Scene) : Code := S.frame.closure.function.chunk.code

/-- The machine is at an offset of the code of a scene, with the given stack, and its variables are
those of the evaluation, but for a local that it may be about to add. -/
structure Poised (S : A.Scene) (γ L : List Nat) (o : Nat) (st : List Value) (m : Machine)
    (w : World) : Prop where
  frame : m.frame = { S.frame with ip := o }
  callers : m.callers = S.callers
  stack : m.stack = st
  rel : A.Rel γ L m.store m.locals m.globals m.openCells m.calls w
  captured : A.Captured γ S.frame.closure.captures S.captures S.enclosing S.outer

/-- The machine is at an offset of the code of a scene and has all locals. -/
structure State (S : A.Scene) (γ L : List Nat) (o : Nat) (st : List Value) (m : Machine)
    (w : World) : Prop extends Poised S γ L o st m w where
  size : m.locals.size = L.length

/-- A part of the compilation, of size at most `n`, that is without messages and becomes part of the
function of the scene. -/
structure Fit (S : A.Scene) (n : Nat) (c c' : Context) : Prop where
  clean : c'.Clean
  room : c.Room A.limit n
  linked : Linked c.frame c.enclosing
  constants : ∃ ks, c'.frame.constants <+: ks ∧
    LoadsAll ks S.frame.closure.function.chunk.constants
  captures : c'.frame.captures <+: S.captures
  enclosing : List.Forall₂ Lowering.Frame.Passes c'.enclosing S.enclosing
  names : c.globals.names = A.setting.globals
  bounded : c.frame.scope.Bounded

/-- The variables in sight are the locals of the function and those of the functions around it. -/
structure Scoped (S : A.Scene) (L : List Nat) (c : Context) (env : Env) : Prop where
  env_eq : env = (c.frame.scope.labels.map Prod.fst).zip (L.drop S.frame.localsBase).reverse ++ S.outer
  length : S.frame.localsBase + c.frame.scope.locals.length = L.length

/-- A part of what fits fits. -/
theorem Fit.part {i j : Nat} {c₁ c₂ : Context} (h : Fit S n c c') (before : c.Step i c₁)
    (after : c₂.Step j c') (hclean : c₂.Clean) (hn : i + l ≤ n)
    (hg : c₁.globals.names = c.globals.names) (hb : c₁.frame.scope.Bounded) : Fit S l c₁ c₂ where
  clean := hclean
  room := before.room _ l (h.room.mono hn)
  linked := before.linked h.linked
  constants := by
    obtain ⟨ks, hks, hl⟩ := h.constants
    exact ⟨ks, after.constants.trans hks, hl⟩
  captures := after.captures.trans h.captures
  enclosing := Context.forall₂_passes_trans after.enclosing h.enclosing
  names := hg.trans h.names
  bounded := hb

theorem Fit.mono (h : Fit S n c c') (hl : l ≤ n) : Fit S l c c' :=
  { h with room := h.room.mono hl }

/-- Inside of a function, there is a function around. -/
theorem Fit.enclosing_ne_nil (h : Fit S n c c') (hstep : c.Step l c') (he : c.enclosing ≠ []) :
    S.enclosing ≠ [] := by
  have h₁ := hstep.enclosing.length_eq
  have h₂ := h.enclosing.length_eq
  rw [← List.length_pos_iff_ne_nil] at he ⊢
  omega

theorem Fit.first {x : Lower α} {f : α → Lower β} (hf : ∀ a, Evolves l (f a))
    (h : Fit S n c ((x >>= f) c).2) : Fit S n c (x c).2 :=
  h.part (Context.Step.refl c) ((hf (x c).1).step (x c).2 h.clean) ((hf _).clean _ h.clean)
    (Nat.le_of_eq (Nat.zero_add n)) rfl h.bounded

theorem Fit.parts {x : Lower α} {f : α → Lower β} (hx : Evolves n x) (hf : ∀ a, Evolves l (f a))
    (h : Fit S (n + l) c ((x >>= f) c).2)
    (hs : (x c).2.Clean → (x c).2.globals.names = c.globals.names ∧ (x c).2.frame.scope.Bounded) :
    Fit S n c (x c).2 ∧ Fit S l (x c).2 (f (x c).1 (x c).2).2 := by
  have h₁ := h.first hf
  obtain ⟨hg, hb⟩ := hs h₁.clean
  exact ⟨h₁.mono (Nat.le_add_right n l),
    h.part (hx.step c h₁.clean) (Context.Step.refl _) h.clean (Nat.le_refl _) hg hb⟩

/-- A part that declares nothing, and what follows it. -/
theorem Fit.split {x : Lower α} {f : α → Lower β} (hx : Evolves n x) (hs : Lowering.Stays x)
    (hf : ∀ a, Evolves l (f a)) (h : Fit S (n + l) c ((x >>= f) c).2) :
    Fit S n c (x c).2 ∧ Fit S l (x c).2 (f (x c).1 (x c).2).2 ∧ c.Adds [] (x c).2 := by
  have hadds := hs c ((hf _).clean _ h.clean)
  obtain ⟨h₁, h₂⟩ := h.parts hx hf fun _ =>
    ⟨congrArg Globals.names hadds.globals, hadds.bounded h.bounded nofun⟩
  exact ⟨h₁, h₂, hadds⟩

theorem limit_le : A.limit ≤ 2 ^ 32 := by
  have := A.small
  unfold Machine.maxFrames at this
  omega

theorem Fit.room32 (h : Fit S n c c') : c.Room (2 ^ 32) n := by
  have hl := A.limit_le
  have hframe (f : Lowering.Frame) (hf : f.Room A.limit n) : f.Room (2 ^ 32) n :=
    ⟨Nat.lt_of_lt_of_le hf.constants hl, Nat.lt_of_lt_of_le hf.captures hl,
      Nat.lt_of_lt_of_le hf.locals hl⟩
  exact ⟨hframe _ h.room.frame, fun f hf => hframe f (h.room.enclosing f hf)⟩

theorem Fit.constant {i : Nat} {k : Constant} (h : Fit S n c c')
    (hk : c'.frame.constants[i]? = some k) :
    ∃ v, S.frame.closure.function.chunk.constants[i]? = some v ∧ k.Loads v := by
  obtain ⟨ks, ⟨rest, rfl⟩, hl⟩ := h.constants
  apply hl.get
  rw [List.getElem?_append_left (List.getElem?_eq_some_iff.1 hk).1]
  exact hk

theorem Scoped.congr (h : Scoped S L c env) (hc : c.Adds [] c') : Scoped S L c' env := by
  have hl : c'.frame.scope.labels = c.frame.scope.labels := hc.labels
  have hlen : c'.frame.scope.locals.length = c.frame.scope.locals.length := by
    simpa [Scope.labels] using congrArg List.length hl
  exact ⟨by rw [hl]; exact h.env_eq, by rw [hlen]; exact h.length⟩

/-- The positions of all locals fit into operands. -/
theorem Scoped.lt (h : Scoped S L c env) (hf : Fit S n c c') :
    L.length + n < (S.callers.length + 1) * A.limit := by
  have h₁ := h.length
  have h₂ := S.base_le
  have h₃ := hf.room.frame.locals
  rw [Nat.succ_mul]
  omega

theorem Scoped.lt_word (h : Scoped S L c env) (hf : Fit S n c c') : L.length + n < 2 ^ 32 := by
  have h₁ := h.lt hf
  have h₂ : (S.callers.length + 1) * A.limit ≤ Machine.maxFrames * A.limit :=
    Nat.mul_le_mul_right _ S.depth_lt
  exact Nat.lt_of_lt_of_le h₁ (Nat.le_trans h₂ A.small)

theorem Shows.of_rel {γ L : List Nat} (h : A.Rel γ L m.store m.locals m.globals m.openCells m.calls w) :
    Shows m w := by
  refine ⟨h.calls, List.ext_getElem? fun i => ?_⟩
  rw [List.getElem?_map, List.getElem?_map, Array.getElem?_toList]
  by_cases hi : i < m.globals.size
  · have hw : i < w.globals.length := by
      rw [← h.count]
      exact hi
    have hm := h.globals i _ _ (Array.getElem?_eq_getElem hi) (List.getElem?_eq_getElem hw)
    rw [Array.getElem?_eq_getElem hi, List.getElem?_eq_getElem hw, Option.map_some, Option.map_some,
      hm.shown]
  · have hw : ¬ i < w.globals.length := by
      rw [← h.count]
      exact hi
    rw [Array.getElem?_eq_none (Nat.not_lt.1 hi), List.getElem?_eq_none (Nat.not_lt.1 hw)]
    rfl

end StackScript.Semantics.Pairing
