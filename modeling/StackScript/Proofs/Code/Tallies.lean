import StackScript.Proofs.Code.Tables
import StackScript.Proofs.Machine.Loading

/-!
# Counting locals

At each place of the code of a function the number of its locals is known. One more can be about to
be defined, since a local function or record may refer to itself: its closures capture a local that
comes into being only behind them. The code of a program itself also defines the globals.
-/

namespace StackScript

/-- What is known of the variables at a place of the code of a function. -/
structure Tally where
  /-- The number of locals. -/
  locals : Nat
  /-- Whether closures may capture the local that is defined next. -/
  pending : Bool
  /-- In the code of a program itself, the number of globals that are defined. -/
  defined : Option Nat

/-- How many variables there can be. -/
structure Limits where
  /-- The number of globals of a program. -/
  globals : Nat
  /-- The number of locals of a call is not greater. -/
  locals : Nat
  /-- The numbers of locals fit into operands. -/
  locals_lt : locals < 2 ^ 32
  /-- Where a local is defined or a closure is made, the number of locals is not smaller. -/
  floor : Nat := 0

/-- The limits with another floor. -/
def Limits.above (limits : Limits) (floor : Nat) : Limits := { limits with floor }

namespace Tally

/-- What an instruction does to the variables. -/
def Step (limits : Limits) (s : Tally) : (op : Opcode) → op.format.Args → Option Tally → Prop
  | .pushClosure, (_, captures), u => captures.length < 2 ^ 32 ∧ limits.floor ≤ s.locals ∧ ∃ p : Bool,
      (s.pending = true → p = true) ∧ s.locals + p.toNat ≤ limits.locals ∧
      u = some { s with pending := p } ∧
      ∀ c ∈ captures, c.fromLocal = true → c.index.toNat < s.locals + p.toNat
  | .appendMethods, _, u => u = some s
  | .pushConst, _, u => s.pending = false ∧ ∃ p, u = some { s with pending := p }
  | .defLocal, _, u =>
      limits.floor ≤ s.locals ∧ s.locals < limits.locals ∧ u = some { s with locals := s.locals + 1, pending := false }
  | .getLocal, slot, u | .setLocal, slot, u =>
      s.pending = false ∧ slot.toNat < s.locals ∧ u = some s
  | .popLocal, _, u | .closeUpvalue, _, u =>
      s.pending = false ∧ 1 ≤ s.locals ∧ u = some { s with locals := s.locals - 1 }
  | .popnLocal, k, u =>
      s.pending = false ∧ k.toNat ≤ s.locals ∧ u = some { s with locals := s.locals - k.toNat }
  | .defGlobal, _, u => s.pending = false ∧ ∃ k, s.defined = some k ∧
      u = some { s with defined := some (k + 1) }
  | .getGlobal, slot, u | .setGlobal, slot, u =>
      s.pending = false ∧ slot.toNat < limits.globals ∧ u = some s
  | .return, _, u | .returnVoid, _, u => s.pending = false ∧ s.defined = none ∧ u = none
  | .exitSuccess, _, u => s = ⟨0, false, some limits.globals⟩ ∧ u = none
  | .jump, _, _ | .jumpTrue, _, _ | .jumpFalse, _, _ | .jumpHasNoNext, _, _ | .loop, _, _ => False
  | _, _, u => s.pending = false ∧ u = some s

/-- The number of variables as the state of code. -/
def moves (limits : Limits) : Moves Tally where
  act i s u := s.Step limits i.op i.args u
  jumps s := s.pending = false

variable {limits : Limits}

theorem idles {s : Tally} (hs : s.pending = false) : (moves limits).Idles s := by
  refine ⟨?_, hs⟩
  rintro ⟨op, args⟩ h
  cases op with
  | pushConst => exact ⟨hs, s.pending, rfl⟩
  | appendMethods => rfl
  | _ => first | exact ⟨hs, rfl⟩ | cases h

theorem countable_of_act (i : Instruction) (s : Tally) (u : Option Tally)
    (h : (moves limits).act i s u) : i.op.format ≠ .jump ∧ i.op.format.Countable i.args := by
  obtain ⟨op, args⟩ := i
  cases op with
  | pushClosure => exact ⟨nofun, h.1⟩
  | jump | jumpTrue | jumpFalse | jumpHasNoNext | loop => exact h.elim
  | _ => exact ⟨nofun, trivial⟩

/-- What is allowed is allowed with a lower floor. -/
theorem Step.relax {limits' : Limits} {s : Tally} {op : Opcode} {args : op.format.Args} {u : Option Tally}
    (h : s.Step limits op args u) (hg : limits'.globals = limits.globals)
    (hl : limits'.locals = limits.locals) (hf : limits'.floor ≤ limits.floor) :
    s.Step limits' op args u := by
  cases op with
  | pushClosure =>
    obtain ⟨hlen, hfloor, p, hp, hle, hrest⟩ := h
    exact ⟨hlen, Nat.le_trans hf hfloor, p, hp, hl ▸ hle, hrest⟩
  | defLocal => exact ⟨Nat.le_trans hf h.1, hl ▸ h.2.1, h.2.2⟩
  | getGlobal | setGlobal => exact ⟨h.1, hg ▸ h.2.1, h.2.2⟩
  | exitSuccess => exact ⟨hg ▸ h.1, h.2⟩
  | _ => exact h

theorem ends_of_act (i : Instruction) (s : Tally) (u : Option Tally) (s' : Tally) (u' : Option Tally)
    (h : (moves limits).act i s u) (h' : (moves limits).act i s' u') (hu : u' = none) : u = none := by
  subst hu
  obtain ⟨op, args⟩ := i
  cases op with
  | pushClosure => obtain ⟨-, -, _, -, -, ⟨⟩, -⟩ := h'
  | appendMethods => cases h'
  | pushConst => obtain ⟨-, _, ⟨⟩⟩ := h'
  | defGlobal => obtain ⟨-, _, -, ⟨⟩⟩ := h'
  | defLocal | getLocal | setLocal | popLocal | closeUpvalue | popnLocal | getGlobal | setGlobal =>
    obtain ⟨-, -, ⟨⟩⟩ := h'
  | «return» | returnVoid => exact h.2.2
  | exitSuccess => exact h.2
  | jump | jumpTrue | jumpFalse | jumpHasNoNext | loop => exact h.elim
  | _ => obtain ⟨-, ⟨⟩⟩ := h'

end Tally

/-- The tally at the beginning of a function: there are the callee and the arguments. -/
def Function.firstTally {α : Type} (f : Function α) : Tally := ⟨f.arity.toNat + 1, false, none⟩

/-- The code of a function counts its locals, and so do the functions inside of it. -/
inductive Function.Tallied (limits : Limits) : Function Constant → Prop
  | mk {f : Function Constant} {T : Nat → Tally → Prop} :
      f.chunk.code.Table (Tally.moves limits) T → T 0 f.firstTally →
      f.firstTally.locals ≤ limits.locals → (∀ k ∈ f.chunk.constants, k.isForeign = false) →
      (∀ g, ⟨.function g⟩ ∈ f.chunk.constants → g.Tallied limits) → f.Tallied limits

namespace Lowering

open Fragment (emit)

/-- The code leads from one tally to another; in a loop, open ends lead to its head with a known tally.
The marks depend on where the code and the head of the loop stand. -/
def Counted (limits : Limits) (head : Option Tally) (f : Fragment) (s t : Tally)
    (marks : Nat → Nat → List (Mark Tally) := fun _ _ => []) : Prop :=
  ∀ o h (E : Nat → Tally → Prop), (∀ k ∈ head, E h k) →
    f.Charted (Tally.moves limits) (head.map fun _ => h) E o s t (marks o h)

section

variable {limits : Limits} {m : Nat} {k : Option Nat} {head : Option Tally} {f g : Fragment}
  {s t u : Tally} {span : Span} {marks marks' : Nat → Nat → List (Mark Tally)}

theorem counted_nil : Counted limits head [] s s := fun _ _ _ _ => .nil

theorem Counted.append (hf : Counted limits head f s u marks)
    (hg : Counted limits head g u t marks') :
    Counted limits head (f ++ g) s t fun o h => marks o h ++ marks' (o + f.size) h :=
  fun o h E hE => (hf o h E hE).append (hg _ h E hE)

/-- What has no open ends can also stand in a loop. -/
theorem Counted.inLoop (hf : Counted limits none f s t marks) : Counted limits head f s t marks :=
  fun o h E _ => (hf o h E nofun).weaken nofun fun _ _ h => h

/-- The floor may be lower. -/
theorem Counted.relax {limits' : Limits} (h : Counted limits head f s t marks)
    (hg : limits'.globals = limits.globals) (hl : limits'.locals = limits.locals)
    (hf : limits'.floor ≤ limits.floor) : Counted limits' head f s t marks :=
  fun o x E hE => (h o x E hE).relax (fun _ _ _ hact => Tally.Step.relax hact hg hl hf) fun _ hj => hj

theorem counted_emit {i : Instruction} (hi : s.Step limits i.op i.args (some t))
    (hr : i.op ≠ .return ∧ i.op ≠ .returnVoid) : Counted limits head (emit i span) s t := by
  refine fun o h E _ => .emit hi ?_
  show (i.op == .return || i.op == .returnVoid) = false
  simp [hr.1, hr.2]

theorem counted_idle {i : Instruction} (hi : i.op.isIdle = true) (hs : s.pending = false) :
    Counted limits head (emit i span) s s := by
  refine counted_emit ((Tally.idles hs).act i hi) ⟨?_, ?_⟩ <;>
  · intro he
    rw [he] at hi
    cases hi

theorem counted_return {i : Instruction} (hi : i.op = .return ∨ i.op = .returnVoid) :
    Counted limits head (emit i span) ⟨m, false, none⟩ t := by
  refine fun o h E _ => .emit_end ?_
  obtain ⟨op, args⟩ := i
  rcases hi with rfl | rfl <;> exact ⟨rfl, rfl, rfl⟩

/-! ## Accessing and releasing locals -/

/-- The variable is one of `m` locals or of the globals, or a captured one. -/
def Binding.Below (limits : Limits) (m : Nat) : Binding → Prop
  | .local slot => slot.toNat < m
  | .captured _ => True
  | .global slot => slot.toNat < limits.globals

theorem counted_get {b : Binding} (hb : b.Below limits m) :
    Counted limits head (b.get span) ⟨m, false, k⟩ ⟨m, false, k⟩ := by
  cases b with
  | «local» slot | global slot => exact counted_emit ⟨rfl, hb, rfl⟩ ⟨nofun, nofun⟩
  | captured index => exact counted_idle rfl rfl

theorem counted_set {b : Binding} (hb : b.Below limits m) :
    Counted limits head (b.set span) ⟨m, false, k⟩ ⟨m, false, k⟩ := by
  cases b with
  | «local» slot | global slot => exact counted_emit ⟨rfl, hb, rfl⟩ ⟨nofun, nofun⟩
  | captured index => exact counted_idle rfl rfl

theorem counted_define {p : Bool} (hf : limits.floor ≤ m) (hm : m < limits.locals) :
    Counted limits head (emit ⟨.defLocal, ()⟩ span) ⟨m, p, k⟩ ⟨m + 1, false, k⟩ :=
  counted_emit ⟨hf, hm, rfl⟩ ⟨nofun, nofun⟩

theorem counted_dropLocals {n : Nat} (hn : n < 2 ^ 32) :
    Counted limits head (dropLocals n span) ⟨m + n, false, k⟩ ⟨m, false, k⟩ := by
  unfold dropLocals
  split
  · exact counted_nil
  · exact counted_emit ⟨rfl, by simp, by simp⟩ ⟨nofun, nofun⟩
  · refine counted_emit ⟨rfl, ?_, ?_⟩ ⟨nofun, nofun⟩ <;>
    · simp only [Word.toNat_toUInt32 hn]
      simp

theorem counted_releaseAfter {ls : List Local} (run : Nat) (h : run + ls.length < 2 ^ 32) :
    Counted limits head (releaseAfter run span ls) ⟨m + run + ls.length, false, k⟩ ⟨m, false, k⟩ := by
  induction ls generalizing run with
  | nil => exact counted_dropLocals h
  | cons l ls ih =>
    rw [List.length_cons] at h ⊢
    unfold releaseAfter
    split
    · have hdrop : Counted limits head (dropLocals run span) ⟨m + run + (ls.length + 1), false, k⟩
          ⟨m + ls.length + 1, false, k⟩ := by
        convert counted_dropLocals (m := m + ls.length + 1) (n := run) (by omega) using 2
        omega
      have hclose : Counted limits head (emit ⟨.closeUpvalue, ()⟩ span)
          ⟨m + ls.length + 1, false, k⟩ ⟨m + ls.length, false, k⟩ :=
        counted_emit ⟨rfl, by simp, by simp⟩ ⟨(by rintro ⟨⟩), (by rintro ⟨⟩)⟩
      exact (hdrop.append hclose).append (ih 0 (by omega))
    · convert ih (run + 1) (by omega) using 2
      omega

end

/-! ## Control structures -/

section

variable {limits : Limits} {head : Option Tally} {f t k a r : Fragment} {s : Tally} {span : Span}
  {mf mt mk ma : Nat → Nat → List (Mark Tally)}

variable (hs : s.pending = false)

include hs

theorem counted_logical {op : LogicalOp} (ht : Counted limits head t s s mt)
    (hk : Counted limits head k s s mk) :
    Counted limits head (t ++ Fragment.skip (shortcut op) (pop span ++ k) span ++
      emit ⟨.assertBool, ()⟩ span) s s fun o h => mt o h ++ mk (o + t.size + 6) h := by
  have hop : shortcut op ≠ .always ∧ shortcut op ≠ .back := by cases op <;> exact ⟨nofun, nofun⟩
  exact fun o h E hE => charted_logical (Tally.idles hs) hop (ht o h E hE)
    (hk _ h E hE)

theorem counted_cond (ht : Counted limits head t s s mt) (hk : Counted limits head k s s mk)
    (ha : Counted limits head a s s ma) :
    Counted limits head (condCode t k a span) s s fun o h =>
      mt o h ++ mk (o + t.size + 6) h ++ ma (o + t.size + k.size + 12) h :=
  fun o h E hE => charted_condCode (Tally.idles hs) (ht o h E hE) (hk _ h E hE)
    (ha _ h E hE)

theorem counted_while (ht : Counted limits none t s s mt) (hk : Counted limits (some s) k s s mk) :
    Counted limits head (loopCode [] (whileRound t k span) span) s s fun o h =>
      mt (o + 11) h ++ mk (o + t.size + 17) (o + 5) := by
  refine Counted.inLoop fun o h E _ => charted_while (Tally.idles hs)
    (fun E => ht _ h E nofun) fun E hE => hk _ _ E ?_
  rintro _ ⟨⟩
  exact hE

theorem counted_loop (hk : Counted limits (some s) k s s mk) :
    Counted limits head (loopCode [] (Fragment.again k span) span) s s fun o _ =>
      mk (o + 11) (o + 5) := by
  refine Counted.inLoop fun o h E _ => charted_loop (Tally.idles hs)
    fun E hE => hk _ _ E ?_
  rintro _ ⟨⟩
  exact hE

theorem counted_forIn {b : Option Binding}
    (hk : Counted limits (some s) (emit ⟨.getNext, ()⟩ span ++ define b span ++ k ++ r) s s mk) :
    Counted limits head (loopCode (emit ⟨.advance, ()⟩ span) (forInRound b k r span) span) s s
      fun o _ => mk (o + 17) (o + 5) := by
  refine Counted.inLoop fun o h E _ => charted_forIn (Tally.idles hs)
    fun E hE => hk _ _ E ?_
  rintro _ ⟨⟩
  exact hE

theorem counted_for (span : Span) {test : Option Fragment} {update turn : Fragment}
    (hu : Counted limits none update s s mf) (ht : ∀ t ∈ test, Counted limits none t s s mt)
    (hnone : test = none → mt = fun _ _ => []) (hk : Counted limits (some s) turn s s mk) :
    Counted limits head (loopCode update (forTest test turn span ++ [.jump .back (Piece.jumpSize +
      (pop span).size + update.size + (forTest test turn span).size + Piece.jumpSize) span]) span)
      s s fun o h => mf (o + 11) h ++ (mt (o + 11 + update.size) h ++
        mk (o + 11 + update.size + (forTest test turn span).size - turn.size) (o + 5)) := by
  refine Counted.inLoop fun o h E _ => charted_for (Tally.idles hs)
    (fun E => hu _ h E nofun) (fun t htest E => ht t htest _ h E nofun)
    (fun hn => by rw [hnone hn]) fun o' E ho hE => ?_
  rw [show o + 11 + update.size + (forTest test turn span).size - turn.size = o' by omega]
  refine hk _ _ E ?_
  rintro _ ⟨⟩
  exact hE

end

end Lowering

end StackScript
