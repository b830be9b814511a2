import Mathlib.Data.List.Forall2
import StackScript.Proofs.Machine.Effects
import StackScript.Proofs.Safety.Flow

/-!
# Sound machines

A machine is sound for a number of steps when every closure it can get hold of is safe for so many
steps, and the stack is made of one part for each active call: the part of the innermost call has a
type for which the next instruction is safe, and that of every other call a type that is safe with
the result of the call on top.

A step takes a sound machine to one that is sound for one step less. `Keeps` says what holds behind
an operation if it succeeds; if it fails, it does so by a mistake of the program or for want of a
variable.
-/

namespace StackScript

variable {n : Nat}

/-! ## Values -/

/-- The answers of the host are scalars or among the arguments. -/
def Host.Harmless (host : Host) : Prop :=
  ∀ calls native store arguments v, host.answer calls native store arguments = .ok v →
    v.isScalar = true ∨ v ∈ arguments

section

variable (n : Nat) (base : Store)

/-- The closure can be run for a number of steps, and what it has captured is younger than the
store. -/
structure Closure.Sound (c : Value.Code) : Prop where
  safe : Safe n ⟨c.function, c.captures.length, false⟩ 0 []
  captures : ∀ ref ∈ c.captures, base.cells.size ≤ ref.index

end

theorem Closure.Sound.pred {base : Store} {c : Value.Code} (h : c.Sound (n + 1) base) :
    c.Sound n base := ⟨h.safe.pred, h.captures⟩

/-! ## The stack -/

/-- The stack has a part of the given type on top of a part that is as high as the base. -/
def Stands (W : List Value → Prop) (base : Nat) (τ : List Slot) (stack : List Value) : Prop :=
  ∃ top rest, stack = top ++ rest ∧ rest.length = base ∧ List.Forall₂ Slot.admits τ top ∧ W rest

/-- The function of a call. -/
def Frame.site (f : Frame) (callers : List Frame) : Site :=
  ⟨f.closure.function, f.closure.captures.length, callers.isEmpty⟩

/-- The constants and the captured variables of the function are those of the closure. -/
structure Site.Fits (site : Site) (c : Value.Code) : Prop where
  constants : site.function.chunk.constants = c.function.chunk.constants
  captures : site.captures = c.captures.length

/-- The stack below a call belongs to the calls around it, and each of them can go on for a number
of steps once it has a result. -/
def Waits (n : Nat) : List Frame → List Value → Prop
  | [], stack => stack = []
  | f :: fs, stack =>
    ∃ τ, Stands (Waits n fs) f.stackBase τ stack ∧ Safe n (f.site fs) f.ip (.any :: τ)

namespace Stands

variable {W : List Value → Prop} {base : Nat} {σ τ : List Slot} {s : Slot} {stack : List Value}

theorem push {v : Value} (h : Stands W base τ stack) (hs : s.admits v) :
    Stands W base (s :: τ) (v :: stack) := by
  obtain ⟨top, rest, rfl, hb, ht, hw⟩ := h
  exact ⟨v :: top, rest, rfl, hb, .cons hs ht, hw⟩

theorem split (h : Stands W base (σ ++ τ) stack) :
    ∃ vs rest, stack = vs ++ rest ∧ List.Forall₂ Slot.admits σ vs ∧ Stands W base τ rest := by
  obtain ⟨top, rest, rfl, hb, ht, hw⟩ := h
  induction σ generalizing top with
  | nil => exact ⟨[], _, rfl, .nil, top, rest, rfl, hb, ht, hw⟩
  | cons s σ ih =>
    obtain ⟨v, top', hv, ht', rfl⟩ := List.forall₂_cons_left_iff.1 ht
    obtain ⟨vs, rest', he, hvs, hr⟩ := ih top' ht'
    exact ⟨v :: vs, rest', by rw [List.cons_append, he, List.cons_append], .cons hv hvs, hr⟩

theorem pop (h : Stands W base (s :: τ) stack) :
    ∃ v rest, stack = v :: rest ∧ s.admits v ∧ Stands W base τ rest := by
  obtain ⟨vs, rest, rfl, hvs, hr⟩ := split (σ := [s]) h
  obtain ⟨v, _, hv, hnil, rfl⟩ := List.forall₂_cons_left_iff.1 hvs
  cases hnil
  exact ⟨v, rest, rfl, hv, hr⟩

theorem join {vs : List Value} (h : Stands W base τ stack) (hv : List.Forall₂ Slot.admits σ vs) :
    Stands W base (σ ++ τ) (vs ++ stack) := by
  induction hv with
  | nil => exact h
  | cons hs _ ih => exact ih.push hs

theorem mono {W' : List Value → Prop} (h : Stands W base τ stack) (hw : ∀ st, W st → W' st) :
    Stands W' base τ stack := by
  obtain ⟨top, rest, he, hb, ht, hr⟩ := h
  exact ⟨top, rest, he, hb, ht, hw rest hr⟩

theorem length (h : Stands W base τ stack) : stack.length = base + τ.length := by
  obtain ⟨top, rest, rfl, hb, ht, -⟩ := h
  rw [List.length_append, hb, ht.length_eq, Nat.add_comm]

end Stands

theorem exists_closures_of_admits {k : Nat} {vs : List Value}
    (h : List.Forall₂ Slot.admits (List.replicate k .closure) vs) :
    ∃ cs, vs = List.map Value.closure cs ∧ cs.length = k := by
  induction k generalizing vs with
  | zero =>
    cases h
    exact ⟨[], rfl, rfl⟩
  | succ k ih =>
    obtain ⟨v, vs, ⟨c, rfl⟩, hvs, rfl⟩ := List.forall₂_cons_left_iff.1 h
    obtain ⟨cs, rfl, hlen⟩ := ih hvs
    exact ⟨c :: cs, rfl, by rw [List.length_cons, hlen]⟩

theorem Waits.pred {fs : List Frame} {stack : List Value} (h : Waits (n + 1) fs stack) :
    Waits n fs stack := by
  induction fs generalizing stack with
  | nil => exact h
  | cons f fs ih =>
    obtain ⟨τ, hs, hn⟩ := h
    exact ⟨τ, hs.mono fun _ => ih, hn.pred⟩

/-! ## Machines -/

/-- Whether an instruction drops locals. -/
def Opcode.dropsLocals : Opcode → Bool
  | .popLocal | .popnLocal | .closeUpvalue => true
  | _ => false

/-- Whether an instruction looks for a local, be it one that is captured. -/
def Opcode.findsLocal : Opcode → Bool
  | .getLocal | .setLocal | .getUpvalue | .setUpvalue => true
  | _ => false

/-- Whether an instruction looks for a global. -/
def Opcode.findsGlobal : Opcode → Bool
  | .getGlobal | .setGlobal => true
  | _ => false

/-- The faults of an instruction whose code is not to blame: mistakes of a program, and variables that
are not there. -/
def Opcode.mayFail (op : Opcode) : Fault → Bool
  | .invalidOpcode .. | .truncated _ | .invalidJump _ | .unexpectedEnd _ | .invalidConstant _
  | .invalidUpvalue _ => false
  | .stackUnderflow => op.dropsLocals
  | .invalidLocal _ => op.findsLocal
  | .undefinedGlobal _ => op.findsGlobal
  | _ => true

namespace Machine

/-- The machine can go on for a number of steps. -/
def Sound (n : Nat) (base : Store) (m : Machine) : Prop :=
  m.Kept (Closure.Sound n base) base ∧ ∃ τ, Stands (Waits n m.callers) m.frame.stackBase τ m.stack ∧
    Safe n (m.frame.site m.callers) m.frame.ip τ

/-- Variables and calls are as in the first machine. The innermost call is at an offset, with a stack
of the given type. -/
structure At (W : List Value → Prop) (low : Nat) (Q : Value.Code → Prop) (base : Store) (m₀ : Machine)
    (ip : Nat) (τ : List Slot) (m : Machine) : Prop extends Rests Q base m₀ ip m where
  stack : Stands W low τ m.stack

/-- How an instruction of a site takes the innermost call on: to a place where `S` allows the type of the
stack, into a call that comes back to such a place with a result, out of the call, or to the end. The stack
of the call stands on a part that is `low` values high and has the property `W`. -/
inductive Proceeds (site : Site) (S : Nat → List Slot → Prop) (W : List Value → Prop) (low : Nat)
    (Q : Value.Code → Prop) (base : Store) (m : Machine) (next : Nat) : Status → Machine → Prop
  | goes {t : Nat} {σ : List Slot} {m' : Machine} : m'.frame = { m.frame with ip := t } →
      m'.callers = m.callers → m'.Kept Q base → S t σ → Stands W low σ m'.stack →
      Proceeds site S W low Q base m next .running m'
  | enters {σ : List Slot} {m' : Machine} : Q m'.frame.closure → m'.frame.ip = 0 →
      m'.frame.stackBase = m'.stack.length → m'.callers = { m.frame with ip := next } :: m.callers →
      m'.Kept Q base → S next (.any :: σ) → Stands W low σ m'.stack →
      Proceeds site S W low Q base m next .running m'
  | leaves {v : Value} {rest : List Value} {m' : Machine} : m.callers = m'.frame :: m'.callers →
      m'.Kept Q base → m'.stack = v :: rest → (low = m.frame.stackBase → W rest) →
      Proceeds site S W low Q base m next .running m'
  | ends {m' : Machine} : m.callers = [] ∨ site.isProgram = true → (low = m.frame.stackBase → W m'.stack) →
      Proceeds site S W low Q base m next .finished m'

/-! ## Operations -/

section Keeping

variable {α β : Type} {o : Opcode} {P : Machine → Prop} {Q : α → Machine → Prop}
  {R : β → Machine → Prop}

/-- An instruction has led to a result with the property, or it has failed in one of its ways. -/
def Results (o : Opcode) (Q : α → Machine → Prop) : EStateM.Result Fault Machine α → Prop
  | .ok a m => Q a m
  | .error f _ => o.mayFail f = true

/-- From a machine with the first property, the operation leads to one with the second, or it fails
in one of the ways of the instruction. -/
def Keeps (o : Opcode) (P : Machine → Prop) (x : Exec α) (Q : α → Machine → Prop) : Prop :=
  ∀ m, P m → Results o Q (x m)

namespace Keeps

theorem pure {a : α} (h : ∀ m, P m → Q a m) : Keeps o P (pure a) Q := h

theorem bind {x : Exec α} {f : α → Exec β} (hx : Keeps o P x Q) (hf : ∀ a, Keeps o (Q a) (f a) R) :
    Keeps o P (x >>= f) R := by
  intro m hm
  have h := hx m hm
  cases hr : x m with
  | ok a m' =>
    rw [hr] at h
    rw [bind_ok hr]
    exact hf a m' h
  | error f m' =>
    rw [hr] at h
    rw [bind_error hr]
    exact h

/-- Looking at the machine. -/
theorem ofGet {f : Machine → Exec α} (h : ∀ m, P m → Keeps o (· = m) (f m) Q) :
    Keeps o P (get >>= f) Q := fun m hm => h m hm m rfl

theorem throw {f : Fault} (h : o.mayFail f = true) : Keeps o P (throw f : Exec α) Q := fun _ _ => h

theorem assume {p : Prop} {x : Exec α} (h : p → Keeps o P x Q) : Keeps o (fun m => p ∧ P m) x Q :=
  fun m hm => h hm.1 m hm.2

theorem weaken {x : Exec α} {Q' : α → Machine → Prop} (h : Keeps o P x Q)
    (hq : ∀ a m, Q a m → Q' a m) : Keeps o P x Q' := by
  intro m hm
  have := h m hm
  cases hr : x m with
  | ok a m' =>
    rw [hr] at this
    exact hq _ _ this
  | error f m' =>
    rw [hr] at this
    exact this

end Keeps

end Keeping

section Operations

variable {receiver v : Value} {m m₀ : Machine} {t : Slot} {o op : Opcode} {name : String}
  {index slot : UInt32} {P : Machine → Prop} {host : Host} {k target : Nat} {ref : CellRef}
  {a b : Value}
variable {W : List Value → Prop} {low : Nat} {Q : Value.Code → Prop} {base : Store} {ip : Nat}
  {τ σ : List Slot} {s : Slot}

theorem At.withStack {stack : List Value} (h : At W low Q base m₀ ip τ m)
    (hv : ∀ v ∈ stack, v.Within Q base) (hs : Stands W low σ stack) :
    At W low Q base m₀ ip σ { m with stack } := ⟨h.toRests.withStack hv, hs⟩

theorem At.push (h : At W low Q base m₀ ip τ m) (hv : v.Within Q base) (hs : s.admits v) :
    At W low Q base m₀ ip (s :: τ) { m with stack := v :: m.stack } := by
  refine h.withStack (fun w hw => ?_) (h.stack.push hs)
  rcases List.mem_cons.1 hw with rfl | hw
  · exact hv
  · exact h.kept.stack w hw

theorem At.pop (h : At W low Q base m₀ ip (s :: τ) m) : ∃ v rest, m.stack = v :: rest ∧
    (v.Within Q base ∧ s.admits v) ∧ At W low Q base m₀ ip τ { m with stack := rest } := by
  obtain ⟨v, rest, he, hs, hr⟩ := h.stack.pop
  have hv : ∀ w ∈ v :: rest, w.Within Q base := he ▸ h.kept.stack
  exact ⟨v, rest, he, ⟨hv v (List.mem_cons_self ..), hs⟩,
    h.withStack (fun w hw => hv w (List.mem_cons_of_mem v hw)) hr⟩

/-- Nothing needs to be known of the value on top. -/
theorem At.forget (h : At W low Q base m₀ ip (s :: τ) m) : At W low Q base m₀ ip (.any :: τ) m := by
  obtain ⟨v, rest, he, -, hr⟩ := h.stack.pop
  refine ⟨h.toRests, ?_⟩
  rw [he]
  exact hr.push trivial

theorem keeps_push (hv : v.Within Q base) (hs : s.admits v) :
    Keeps o (At W low Q base m₀ ip τ) (push v) fun _ => At W low Q base m₀ ip (s :: τ) :=
  fun _ h => h.push hv hs

theorem keeps_pop : Keeps o (At W low Q base m₀ ip (s :: τ)) pop fun v m =>
    (v.Within Q base ∧ s.admits v) ∧ At W low Q base m₀ ip τ m := by
  intro m h
  obtain ⟨v, rest, he, hv, hr⟩ := h.pop
  rw [pop_of_stack he]
  exact ⟨hv, hr⟩

theorem keeps_peek : Keeps o (At W low Q base m₀ ip (s :: τ)) peek fun v m =>
    ∀ t : Slot, t.admits v → At W low Q base m₀ ip (t :: τ) m := by
  intro m h
  obtain ⟨v, rest, he, -, hr⟩ := h.stack.pop
  rw [peek_of_stack he]
  intro t ht
  refine ⟨h.toRests, ?_⟩
  rw [he]
  exact hr.push ht

theorem keeps_popMany : Keeps o (At W low Q base m₀ ip (σ ++ τ)) (popMany σ.length) fun vs m =>
    ((∀ v ∈ vs, v.Within Q base) ∧ List.Forall₂ Slot.admits σ vs.reverse) ∧
      At W low Q base m₀ ip τ m := by
  intro m h
  obtain ⟨vs, rest, he, hvs, hr⟩ := h.stack.split
  have hlen : σ.length = vs.length := hvs.length_eq
  have hs : ∀ w ∈ vs ++ rest, w.Within Q base := he ▸ h.kept.stack
  unfold popMany
  rw [he, hlen, if_pos (by simp), List.take_left, List.drop_left]
  refine ⟨⟨fun v hv => hs v (List.mem_append_left _ (List.mem_reverse.1 hv)), ?_⟩,
    h.withStack (fun w hw => hs w (List.mem_append_right _ hw)) hr⟩
  rwa [List.reverse_reverse]

theorem keeps_jumpTo :
    Keeps o (At W low Q base m₀ ip τ) (jumpTo target) fun _ => At W low Q base m₀ target τ :=
  fun _ h => ⟨h.toRests.movedTo target, h.stack⟩

theorem keeps_constant (hv : m₀.chunk.constants[index.toNat]? = some v) :
    Keeps o (At W low Q base m₀ ip τ) (constant index) fun w m => w = v ∧ At W low Q base m₀ ip τ m := by
  intro m h
  unfold constant
  rw [h.frame, hv]
  exact ⟨rfl, h⟩

theorem keeps_nameConstant {site : Site} (hsite : site.function.chunk.constants = m₀.chunk.constants)
    (hn : site.HasName index) :
    Keeps o (At W low Q base m₀ ip τ) (nameConstant index) fun _ => At W low Q base m₀ ip τ := by
  obtain ⟨name, hname⟩ := hn
  rw [hsite] at hname
  refine (keeps_constant hname).bind fun v => .assume ?_
  rintro rfl
  exact .pure fun _ h => h

theorem keeps_getLocal {slot : Nat} (ho : o.findsLocal = true) :
    Keeps o (At W low Q base m₀ ip τ) (getLocal slot) fun v m =>
      v.Within Q base ∧ At W low Q base m₀ ip τ m := by
  intro m h
  unfold getLocal
  cases hv : m.locals[slot]? with
  | none => exact ho
  | some v => exact ⟨h.kept.locals v (Array.mem_of_getElem? hv), h⟩

/-! ### Objects and instances -/

theorem keeps_newObject {β : Type} (body : β) :
    Keeps o (At W low Q base m₀ ip τ) (inStore (Store.newObject body)) fun a m =>
      a.body = body ∧ At W low Q base m₀ ip τ m :=
  fun _ h => ⟨rfl, h.toRests.withStore rfl { h.kept.store with }, h.stack⟩

theorem keeps_newInstance {x : Instance} (hx : (∀ v ∈ x.fields, v.Within Q base) ∧
      ∀ method ∈ x.record.body.methods, Q method.body) :
    Keeps o (At W low Q base m₀ ip τ) (inStore (Store.newInstance x)) fun ref m =>
      base.instances.size ≤ ref.index ∧ At W low Q base m₀ ip τ m := by
  intro m h
  obtain ⟨hs, hr⟩ := h.kept.store.newInstance hx
  exact ⟨hr, h.toRests.withStore rfl hs, h.stack⟩

theorem keeps_property (hr : receiver.Within Q base) :
    Keeps o (At W low Q base m₀ ip τ) (property receiver name) fun p m =>
      p.Within Q base ∧ At W low Q base m₀ ip τ m := by
  refine .ofGet fun m h => ?_
  cases hp : property? m.store receiver name with
  | none =>
    simp only [hp]
    exact .throw rfl
  | some p =>
    rintro _ rfl
    simp only [hp]
    exact ⟨within_property? h.kept.store hr hp, h⟩

theorem keeps_getProperty (hr : receiver.Within Q base) :
    Keeps o (At W low Q base m₀ ip τ) (getProperty receiver name) fun v m =>
      v.Within Q base ∧ At W low Q base m₀ ip τ m := by
  refine (keeps_property hr).bind fun p => .assume fun hp => ?_
  cases p with
  | field v => exact .pure fun _ h => ⟨hp, h⟩
  | method m => exact .pure fun _ h => ⟨⟨hr, hp⟩, h⟩

theorem keeps_setProperty (hr : receiver.Within Q base) (hv : v.Within Q base) :
    Keeps o (At W low Q base m₀ ip τ) (setProperty receiver name v) fun _ => At W low Q base m₀ ip τ := by
  intro m h
  rcases setProperty_eq receiver name v m with he | ⟨ref, x, y, rfl, hx, hy, he⟩
  · rw [he]
    rfl
  · rw [he]
    exact ⟨h.toRests.withStore rfl (h.kept.store.setField hr hx hy hv), h.stack⟩

theorem keeps_asMethods {vs : List Value} (hv : ∀ v ∈ vs, v.Within Q base) :
    Keeps o (At W low Q base m₀ ip τ) (asMethods vs) fun ms m =>
      (∀ method ∈ ms, Q method.body) ∧ At W low Q base m₀ ip τ m := by
  induction vs with
  | nil => exact .pure fun _ h => ⟨nofun, h⟩
  | cons v vs ih =>
    cases v with
    | closure c =>
      refine (ih fun w hw => hv w (List.mem_cons_of_mem _ hw)).bind fun ms => .assume fun hms => ?_
      refine .pure fun _ h => ⟨fun method hm => ?_, h⟩
      rcases List.mem_cons.1 hm with rfl | hm
      · exact hv _ (List.mem_cons_self ..)
      · exact hms method hm
    | _ => exact .throw rfl

theorem keeps_appendMethods :
    Keeps o (At W low Q base m₀ ip (List.replicate k .closure ++ .record :: τ)) (appendMethods k) fun _ =>
      At W low Q base m₀ ip (.any :: τ) := by
  have hpop : Keeps o (At W low Q base m₀ ip (List.replicate k .closure ++ .record :: τ))
      (popMany (List.replicate k Slot.closure).length) _ := keeps_popMany
  rw [List.length_replicate] at hpop
  refine hpop.bind fun vs => .assume fun hvs => (keeps_asMethods hvs.1).bind fun ms => ?_
  refine .assume fun hms => keeps_pop.bind fun v => .assume ?_
  rintro ⟨hv, r, rfl⟩
  refine (keeps_newObject _).bind fun r' => .assume fun hbody => keeps_push (fun m hm => ?_) trivial
  rw [hbody] at hm
  rcases List.mem_append.1 hm with hm | hm
  · exact hv m hm
  · exact hms m hm

/-! ### Computing -/

theorem keeps_binary {f : Value → Value → Except Fault Value}
    (hf : ∀ a b v, f a b = .ok v → v.isScalar = true)
    (he : ∀ a b e, f a b = .error e → o.mayFail e = true) :
    Keeps o (At W low Q base m₀ ip (s :: t :: τ)) (binary f) fun _ => At W low Q base m₀ ip (.any :: τ) := by
  refine keeps_pop.bind fun b => .assume fun _ => keeps_pop.bind fun a => .assume fun _ => ?_
  cases hr : f a b with
  | ok v => exact keeps_push (Value.within_of_isScalar (hf a b v hr)) trivial
  | error e => exact .throw (he a b e hr)

theorem keeps_expectBool : Keeps o P (expectBool op v) fun _ => P := by
  cases v with
  | bool b => exact .pure fun _ h => h
  | _ => exact .throw rfl

theorem keeps_expectRange {expected : String} :
    Keeps o P (expectRange op expected v) fun r m => v = .range r ∧ P m := by
  cases v with
  | range r => exact .pure fun _ h => ⟨rfl, h⟩
  | _ => exact .throw rfl

theorem mayFail_arithmetic {op : Arithmetic} {e : Fault} (h : arithmetic op a b = .error e) :
    o.mayFail e = true := by
  unfold arithmetic at h
  split at h
  · cases hr : Integer.apply op _ _ with
    | ok x =>
      rw [hr] at h
      cases h
    | error e =>
      rw [hr] at h
      cases h
      cases e <;> rfl
  · cases h
  · cases h
  · split at h <;> cases h
    rfl

theorem keeps_arithmetic {op : Arithmetic} :
    Keeps o (At W low Q base m₀ ip (s :: t :: τ)) (binary (arithmetic op)) fun _ =>
      At W low Q base m₀ ip (.any :: τ) :=
  keeps_binary (fun _ _ _ => isScalar_arithmetic) fun _ _ _ => mayFail_arithmetic

theorem keeps_negated :
    Keeps o (At W low Q base m₀ ip (s :: τ)) (unary negated) fun _ => At W low Q base m₀ ip (.any :: τ) := by
  refine keeps_pop.bind fun a => .assume fun _ => ?_
  cases a with
  | int x =>
    simp only [negated]
    cases Integer.negate x with
    | ok y => exact keeps_push trivial trivial
    | error e => cases e <;> exact .throw rfl
  | float x => exact keeps_push trivial trivial
  | _ => exact .throw rfl

theorem keeps_compared {accept : Ordering → Bool} :
    Keeps o (At W low Q base m₀ ip (s :: t :: τ)) (binary (compared op accept)) fun _ =>
      At W low Q base m₀ ip (.any :: τ) := by
  refine keeps_binary (fun _ _ _ => isScalar_compared) fun a b e h => ?_
  unfold compared at h
  split at h <;> cases h
  rfl

theorem keeps_ranged {inclusive : Bool} :
    Keeps o (At W low Q base m₀ ip (s :: t :: τ)) (binary (ranged op inclusive)) fun _ =>
      At W low Q base m₀ ip (.any :: τ) := by
  refine keeps_binary (fun _ _ _ => isScalar_ranged) fun a b e h => ?_
  unfold ranged at h
  split at h <;> cases h
  rfl

theorem keeps_equals {f : Value → Value → Bool} :
    Keeps o (At W low Q base m₀ ip (s :: t :: τ)) (binary fun a b => .ok (.bool (f a b))) fun _ =>
      At W low Q base m₀ ip (.any :: τ) :=
  keeps_binary (fun _ _ _ h => by cases h; rfl) nofun

theorem keeps_connective {f : Bool → Bool → Bool} :
    Keeps o (At W low Q base m₀ ip (s :: t :: τ)) (connective op f) fun _ =>
      At W low Q base m₀ ip (.any :: τ) := by
  refine keeps_pop.bind fun b => .assume fun _ => keeps_pop.bind fun a => .assume fun _ => ?_
  exact keeps_expectBool.bind fun _ => keeps_expectBool.bind fun _ => keeps_push trivial trivial

theorem keeps_jumpIf {wanted : Bool} :
    Keeps o (At W low Q base m₀ ip (s :: τ)) (jumpIf op wanted target) fun _ m =>
      ∃ t, (t = ip ∨ t = target) ∧ At W low Q base m₀ t (.any :: τ) m := by
  refine keeps_peek.bind fun v => keeps_expectBool.bind fun b => ?_
  split
  · exact fun m h => ⟨target, .inr rfl, keeps_jumpTo (o := o) m (h .any trivial)⟩
  · exact .pure fun _ h => ⟨ip, .inl rfl, h .any trivial⟩

/-! ### Calls -/

theorem keeps_callee : Keeps o (At W low Q base m₀ ip (σ ++ s :: τ)) (callee σ.length) fun v m =>
    v.Within Q base ∧ At W low Q base m₀ ip (σ ++ s :: τ) m := by
  intro m h
  obtain ⟨vs, rest, he, hvs, hr⟩ := h.stack.split
  obtain ⟨v, rest, rfl, -, -⟩ := hr.pop
  have hlen : σ.length = vs.length := hvs.length_eq
  have hv : v.Within Q base := h.kept.stack v (by rw [he]; simp)
  unfold callee
  rw [he, hlen, List.getElem?_append_right (Nat.le_refl _), Nat.sub_self]
  exact ⟨hv, h⟩

theorem keeps_replace (hv : v.Within Q base) (ht : t.admits v) :
    Keeps o (At W low Q base m₀ ip (σ ++ s :: τ)) (replace σ.length v) fun _ =>
      At W low Q base m₀ ip (σ ++ t :: τ) := by
  intro m h
  obtain ⟨vs, rest, he, hvs, hr⟩ := h.stack.split
  obtain ⟨w, rest, rfl, -, hrest⟩ := hr.pop
  have hlen : σ.length = vs.length := hvs.length_eq
  have hset : m.stack.set σ.length v = vs ++ v :: rest := by
    rw [he, hlen, List.set_append_right _ _ (Nat.le_refl _), Nat.sub_self, List.set_cons_zero]
  refine h.withStack (fun x hx => ?_) ?_
  · rcases List.mem_or_eq_of_mem_set hx with hx | rfl
    · exact h.kept.stack x hx
    · exact hv
  · rw [hset]
    exact (hrest.push ht).join hvs

theorem keeps_checkArity {expected : UInt32} {argc : Nat} :
    Keeps o P (checkArity name expected argc) fun _ m => argc.toUInt32 = expected ∧ P m := by
  unfold checkArity
  split
  · exact .throw rfl
  · rename_i h
    exact .pure fun _ hm => ⟨by simpa using h, hm⟩

theorem keeps_construct {r : Value.RecordType} (hr : (Value.record r).Within Q base) :
    Keeps o (At W low Q base m₀ ip (σ ++ s :: τ)) (construct r σ.length) fun _ =>
      At W low Q base m₀ ip (.any :: τ) := by
  simp only [construct]
  split
  · exact .throw rfl
  · refine keeps_popMany.bind fun fields => .assume fun hf => ?_
    refine keeps_pop.bind fun _ => .assume fun _ => ?_
    exact (keeps_newInstance (x := ⟨fields, r⟩) ⟨hf.1, hr⟩).bind fun ref => .assume fun href =>
      keeps_push href trivial

theorem keeps_callHost {native : Native} (hh : host.Harmless) :
    Keeps o (At W low Q base m₀ ip (σ ++ s :: τ)) (callHost host native σ.length) fun _ =>
      At W low Q base m₀ ip (.any :: τ) := by
  refine keeps_checkArity.bind fun _ => .assume fun _ => keeps_popMany.bind fun arguments => ?_
  refine .assume fun ha => keeps_pop.bind fun _ => .assume fun _ => .ofGet fun m h => ?_
  have hwatched {x : Exec Unit} (calls : List HostCall)
      (hx : Keeps o (At W low Q base m₀ ip τ) x fun _ => At W low Q base m₀ ip (.any :: τ)) : Keeps o (· = m)
        (if host.watches native then set { m with calls } >>= fun _ => x else x) fun _ =>
        At W low Q base m₀ ip (.any :: τ) := by
    rintro _ rfl
    split
    · exact hx _ ⟨{ h.toRests with kept := { h.kept with } }, h.stack⟩
    · exact hx _ h
  cases hv : host.answer m.calls native m.store arguments with
  | error message => exact hwatched _ (x := throw (.native native.name message)) (.throw rfl)
  | ok v =>
    refine hwatched _ (keeps_push ?_ trivial)
    rcases hh m.calls native m.store arguments v hv with hs | hs
    · exact Value.within_of_isScalar hs
    · exact ha.1 v hs

section Going

variable {site : Site} {S : Nat → List Slot → Prop}

theorem At.goes {next : Nat} (h : At W low Q base m₀ ip τ m) (hs : S ip τ) :
    Proceeds site S W low Q base m₀ next .running m :=
  .goes h.frame h.callers h.kept hs h.stack

variable (site) (hQ : ∀ c, Q c → ∀ ref ∈ c.captures, base.cells.size ≤ ref.index) (hs : S ip (.any :: τ))

include hQ hs

theorem keeps_enter {c : Value.Code} (hc : Q c) :
    Keeps o (At W low Q base m₀ ip (σ ++ s :: τ)) (enter c σ.length) fun _ m =>
      Enters Q base m₀ ip σ.length m ∧ Proceeds site S W low Q base m₀ ip .running m := by
  have hpop : Keeps o (At W low Q base m₀ ip (σ ++ [s] ++ τ)) (popMany (σ ++ [s]).length) _ :=
    keeps_popMany
  rw [List.append_assoc, List.length_append] at hpop
  refine keeps_checkArity.bind fun _ => .assume fun harity => .ofGet fun m h => ?_
  split
  · exact .throw rfl
  · rename_i hdepth
    rintro _ rfl
    refine hpop.bind (fun vs => .assume ?_) _ h
    rintro ⟨hvs, hlen⟩ m' h'
    have hkept : Kept Q base { m' with
        locals := m'.locals ++ vs.toArray
        frame := { closure := c, localsBase := m'.locals.size, stackBase := m'.stack.length }
        callers := m'.frame :: m'.callers } := by
      refine { h'.kept with locals := fun v hv => ?_, frames := fun f hf => ?_ }
      · rcases Array.mem_append.1 hv with hv | hv
        · exact h'.kept.locals v hv
        · exact hvs v (by simpa using hv)
      · rcases List.mem_cons.1 hf with rfl | hf
        · exact hQ c hc
        · exact h'.kept.frames f hf
    have hcallers : m'.frame :: m'.callers = { m₀.frame with ip } :: m₀.callers := by
      rw [h'.frame, h'.callers]
    refine ⟨⟨hc, harity, rfl, congrArg Array.size h'.locals, hcallers, ?_, ⟨vs, ?_, ?_⟩, h'.globals, h'.cells,
      h'.openCells, hkept⟩, .enters hc rfl rfl hcallers hkept hs h'.stack⟩
    · show m'.callers.length + 1 < maxFrames
      rw [h'.callers, ← h.callers]
      exact Nat.lt_of_not_le hdepth
    · simpa using hlen.length_eq.symm
    · show m'.locals ++ _ = _
      rw [h'.locals]

theorem keeps_call (hh : host.Harmless) :
    Keeps o (At W low Q base m₀ ip (σ ++ s :: τ)) (call host σ.length) fun _ m =>
      Calls Q base m₀ ip σ.length m ∧ Proceeds site S W low Q base m₀ ip .running m := by
  have hends {m : Machine} (h : At W low Q base m₀ ip (.any :: τ) m) :
      Calls Q base m₀ ip σ.length m ∧ Proceeds site S W low Q base m₀ ip .running m :=
    ⟨.inl h.toRests, h.goes hs⟩
  have henter {c : Value.Code} {s : Slot} (hc : Q c) :
      Keeps o (At W low Q base m₀ ip (σ ++ s :: τ)) (enter c σ.length) fun _ m =>
        Calls Q base m₀ ip σ.length m ∧ Proceeds site S W low Q base m₀ ip .running m :=
    (keeps_enter site hQ hs hc).weaken fun _ _ h => ⟨.inr h.1, h.2⟩
  refine keeps_callee.bind fun v => .assume fun hv => ?_
  cases v with
  | closure c => exact henter hv
  | function f => exact hv.elim
  | bound receiver method =>
    exact (keeps_replace (t := .any) hv.1 trivial).bind fun _ => henter hv.2
  | record r => exact (keeps_construct hv).weaken fun _ _ => hends
  | native native => exact (keeps_callHost hh).weaken fun _ _ => hends
  | _ => exact .throw rfl

theorem keeps_callProperty (hh : host.Harmless) :
    Keeps o (At W low Q base m₀ ip (σ ++ s :: τ)) (callProperty host name σ.length) fun _ m =>
      Calls Q base m₀ ip σ.length m ∧ Proceeds site S W low Q base m₀ ip .running m := by
  refine keeps_callee.bind fun receiver => .assume fun hr => ?_
  refine (keeps_property hr).bind fun p => .assume fun hp => ?_
  cases p with
  | field v => exact (keeps_replace (t := .any) hp trivial).bind fun _ => keeps_call site hQ hs hh
  | method m => exact (keeps_enter site hQ hs hp).weaken fun _ _ h => ⟨.inr h.1, h.2⟩

end Going

/-! ### Captured variables -/

/-- Only cells have been added, as far as the eye can see. -/
structure Captures (Q : Value.Code → Prop) (base : Store) (m₀ m : Machine) : Prop where
  frame : m.frame = m₀.frame
  callers : m.callers = m₀.callers
  stack : m.stack = m₀.stack
  kept : m.Kept Q base

theorem keeps_capturedCell (hi : index.toNat < m₀.frame.closure.captures.length) :
    Keeps o (Captures Q base m₀) (capturedCell index) fun ref m =>
      base.cells.size ≤ ref.index ∧ Captures Q base m₀ m := by
  intro m h
  unfold capturedCell
  rw [h.frame, List.getElem?_eq_getElem hi]
  refine ⟨h.kept.frames m₀.frame ?_ _ (List.getElem_mem hi), h⟩
  exact List.mem_cons.2 (.inl h.frame.symm)

theorem keeps_openCell {slot position : Nat} :
    Keeps o (Captures Q base m₀) (openCell slot position) fun ref m =>
      base.cells.size ≤ ref.index ∧ Captures Q base m₀ m := by
  intro m h
  cases hf : m.openCells.find? fun ref => (m.store.cell ref).slot.toNat = slot with
  | some ref =>
    rw [openCell_of_find hf]
    exact ⟨h.kept.openCells ref (List.mem_of_find?_eq_some hf), h⟩
  | none =>
    rw [openCell_of_find_none hf]
    obtain ⟨hs, hr⟩ := h.kept.store.newCell (c := ⟨slot.toUInt32, position.toUInt32, none⟩) nofun
    refine ⟨hr, { h with kept := { h.kept with store := hs, openCells := fun ref hm => ?_ } }⟩
    rcases List.mem_append.1 hm with hm | hm
    · exact h.kept.openCells ref hm
    · cases List.mem_singleton.1 hm
      exact hr

theorem keeps_captureCells {cs : List Capture} (position : Nat)
    (hc : ∀ c ∈ cs, c.fromLocal = false → c.index.toNat < m₀.frame.closure.captures.length) :
    Keeps o (Captures Q base m₀) (captureCells position cs) fun refs m =>
      (refs.length = cs.length ∧ ∀ ref ∈ refs, base.cells.size ≤ ref.index) ∧
        Captures Q base m₀ m := by
  induction cs generalizing position with
  | nil => exact .pure fun _ h => ⟨⟨rfl, nofun⟩, h⟩
  | cons c cs ih =>
    have hrest (ref : CellRef) (hr : base.cells.size ≤ ref.index) :
        Keeps o (Captures Q base m₀) (do
          let refs ← captureCells (position + 1) cs
          return ref :: refs) fun refs m =>
          (refs.length = (c :: cs).length ∧ ∀ ref ∈ refs, base.cells.size ≤ ref.index) ∧
            Captures Q base m₀ m := by
      refine (ih (position + 1) fun c' hc' => hc c' (List.mem_cons_of_mem c hc')).bind fun refs => .assume ?_
      rintro ⟨hlen, hrefs⟩
      refine .pure fun _ h => ⟨⟨by rw [List.length_cons, List.length_cons, hlen], ?_⟩, h⟩
      intro r hmem
      rcases List.mem_cons.1 hmem with rfl | hmem
      · exact hr
      · exact hrefs r hmem
    rw [captureCells_cons]
    by_cases hl : c.fromLocal
    · rw [if_pos hl]
      exact fun m h => (keeps_openCell.bind fun ref => .assume (hrest ref)) m h
    · rw [if_neg hl]
      have hi := hc c (List.mem_cons_self ..) (by simpa using hl)
      exact (keeps_capturedCell hi).bind fun ref => .assume (hrest ref)

theorem At.capturedCell (h : At W low Q base m ip τ m) (hi : index.toNat < m.frame.closure.captures.length) :
    ∃ ref, m.frame.closure.captures[index.toNat]? = some ref ∧ capturedCell index m = .ok ref m ∧
      base.cells.size ≤ ref.index := by
  have href : m.frame.closure.captures[index.toNat]? = some _ := List.getElem?_eq_getElem hi
  refine ⟨_, href, ?_, h.kept.frames m.frame (List.mem_cons_self ..) _ (List.mem_of_getElem? href)⟩
  unfold Machine.capturedCell
  rw [href]

/-! ## Instructions -/

/-- The closures that an instruction makes have a property. -/
def Makes (Q : Value.Code → Prop) (base : Store) (m : Machine) (i : Instruction) : Prop :=
  ∀ index captures, i = ⟨.pushClosure, (index, captures)⟩ → ∀ f cells m₁,
    m.chunk.constants[index.toNat]? = some (.function f) → captureCells 0 captures m = .ok cells m₁ →
    cells.length = captures.length → (∀ ref ∈ cells, base.cells.size ≤ ref.index) → Q ⟨f.body, cells⟩

/-- The instruction takes the innermost call on, and it has done what it does. -/
def Behind (site : Site) (S : Nat → List Slot → Prop) (W : List Value → Prop) (low : Nat)
    (Q : Value.Code → Prop) (base : Store) (m : Machine) (next : Nat) (op : Opcode)
    (args : op.format.Args) (status : Status) (m' : Machine) : Prop :=
  Proceeds site S W low Q base m next status m' ∧ Effect Q base m next op args status m'

section Executing

variable {next : Nat} {site : Site} {S : Nat → List Slot → Prop} {E : Site → Prop}

theorem keeps_makeClosure {captures : List Capture} {f : Object (Function Value)}
    (h : At W low Q base m next τ m) (hf : m.chunk.constants[index.toNat]? = some (.function f))
    (hc : ∀ c ∈ captures, c.fromLocal = false → c.index.toNat < m.frame.closure.captures.length)
    (hmakes : Makes Q base m ⟨.pushClosure, (index, captures)⟩) (hs : s = .any ∨ s = .closure)
    (hn : S next (s :: τ)) : Keeps o (· = m) (makeClosure index captures) fun _ =>
      Behind site S W low Q base m next .pushClosure (index, captures) .running := by
  rintro m rfl
  have hconst : constant index m = .ok (.function f) m := by
    unfold constant
    rw [hf]
  unfold makeClosure
  rw [bind_ok hconst]
  have hcells := keeps_captureCells (o := o) 0 hc m ⟨rfl, rfl, rfl, h.kept⟩
  cases hr : captureCells 0 captures m with
  | error e m₁ =>
    rw [hr] at hcells
    simp only [bind_error hr]
    exact hcells
  | ok cells m₁ =>
    rw [hr] at hcells
    obtain ⟨⟨hlen, hyoung⟩, hm₁⟩ := hcells
    simp only [bind_ok hr]
    have hclosure := hmakes index captures rfl f cells m₁ hf hr hlen hyoung
    have hat : At W low Q base m₁ next τ m₁ := by
      refine ⟨.refl hm₁.kept ?_, ?_⟩
      · rw [hm₁.frame, h.frame]
      · rw [hm₁.stack]
        exact h.stack
    have hobject := keeps_newObject (o := o) (⟨f.body, cells⟩ : Value.Code) m₁ hat
    have hpush := hobject.2.push (v := .closure ⟨m₁.store.fresh, f.body, cells⟩) (s := s) hclosure (by
      rcases hs with rfl | rfl
      · trivial
      · exact ⟨_, rfl⟩)
    refine ⟨.goes (hpush.frame.trans (by rw [hm₁.frame])) (hpush.callers.trans hm₁.callers) hpush.kept hn
      hpush.stack, rfl, f, cells, m₁, m₁.store.fresh, hf, hr, ?_, hpush.toRests⟩
    exact congrArg (_ :: ·) hm₁.stack

theorem leave_results {result : Value} {stack : List Value} (h : At W low Q base m next τ { m with stack })
    (hr : result.Within Q base) : Results o (Behind site S W low Q base m next .returnVoid ())
      (leave result { m with stack }) := by
  set rest := stack.drop (stack.length - m.frame.stackBase) with hdrop
  have hrest : ∀ v ∈ rest, v.Within Q base := fun v hv => h.kept.stack v (List.mem_of_mem_drop hv)
  have hkept := h.kept.truncated m.frame.localsBase
  have hw (hlow : low = m.frame.stackBase) : W rest := by
    obtain ⟨top, below, he, hb, -, hw⟩ := h.stack
    obtain rfl : stack = top ++ below := he
    rwa [hdrop, ← hlow, ← hb, List.length_append, Nat.add_sub_cancel, List.drop_left]
  rw [leave_eq]
  unfold Behind Effect
  dsimp only
  rw [← hdrop]
  cases hc : m.callers with
  | nil =>
    refine ⟨.ends (.inl hc) hw, rfl, rfl, hc.symm, rfl, rfl, rfl, rfl, { hkept with
      stack := hrest, frames := ?_ }⟩
    exact hc ▸ h.kept.frames
  | cons f fs =>
    have hk : Kept Q base { m.truncated m.frame.localsBase with
        stack := result :: rest, frame := f, callers := fs } := by
      refine { hkept with stack := fun v hv => ?_, frames := fun g hg => ?_ }
      · rcases List.mem_cons.1 hv with rfl | hv
        · exact hr
        · exact hrest v hv
      · refine h.kept.frames g (List.mem_cons_of_mem _ ?_)
        rw [hc]
        exact hg
    exact ⟨.leaves hc hk rfl hw, rfl, rfl, rfl, rfl, rfl, rfl, rfl, hk⟩

theorem keeps_dropLocals (h : At W low Q base m next τ m) (hn : S next τ) (ho : o.dropsLocals = true) :
    Keeps o (· = m) (dropLocals k) fun _ m' => Proceeds site S W low Q base m next .running m' ∧
      k ≤ m.locals.size ∧ Rests Q base (m.truncated (m.locals.size - k)) next m' := by
  rintro m rfl
  rw [dropLocals_eq]
  split
  · rename_i hk
    have hat : At W low Q base (m.truncated (m.locals.size - k)) next τ (m.truncated (m.locals.size - k)) :=
      ⟨.refl (h.kept.truncated _) (congrArg Frame.ip h.frame), h.stack⟩
    exact ⟨.goes hat.frame hat.callers hat.kept hn hat.stack, hk, hat.toRests⟩
  · exact ho

theorem Rests.goes {m₁ m' : Machine} (hr : Rests Q base m₁ next m') (hframe : m₁.frame = m.frame)
    (hcallers : m₁.callers = m.callers) (hs : Stands W low τ m'.stack) (hn : S next τ) :
    Proceeds site S W low Q base m next .running m' :=
  .goes (hr.frame.trans (by rw [hframe])) (hr.callers.trans hcallers) hr.kept hn hs

theorem keeps_execute {args : op.format.Args}
    (hQ : ∀ c, Q c → ∀ ref ∈ c.captures, base.cells.size ≤ ref.index) (hh : host.Harmless)
    (hsite : site.Fits m.frame.closure) (h : At W low Q base m next τ m)
    (hf : Flow site S E next op args τ) (hmakes : Makes Q base m ⟨op, args⟩) :
    Keeps op (· = m) (execute host ip next op args)
      (Behind site S W low Q base m next op args) := by
  have hip : m.frame.ip = next := congrArg Frame.ip h.frame
  -- Most instructions work on the stack alone.
  have quiet (hq : Keeps op (At W low Q base m next τ) (execute host ip next op args)
      (Behind site S W low Q base m next op args)) :
      Keeps op (· = m) (execute host ip next op args) (Behind site S W low Q base m next op args) := by
    rintro m rfl
    exact hq m h
  have goes {t : Nat} {σ : List Slot} (hs : S t σ) (ht : Targets next t op args) :
      Keeps op (At W low Q base m t σ) (pure .running) fun status m' =>
        Proceeds site S W low Q base m next status m' ∧ status = .running ∧ ∃ t, Targets next t op args ∧
          Rests Q base m t m' :=
    .pure fun _ hm => ⟨hm.goes hs, rfl, t, ht, hm.toRests⟩
  have pushes {v : Value} {s : Slot} {σ : List Slot} (hs : S next (s :: σ)) (hv : v.Within Q base)
      (ha : s.admits v) (ht : Targets next next op args) :
      Keeps op (At W low Q base m next σ) (do
        push v
        return .running) fun status m' => Proceeds site S W low Q base m next status m' ∧
          status = .running ∧ ∃ t, Targets next t op args ∧ Rests Q base m t m' :=
    (keeps_push hv ha).bind fun _ => goes hs ht
  cases op
  case pushConst =>
    obtain ⟨v, s, hv, hd, hs, hn⟩ := hf
    rw [hsite.constants] at hv
    refine quiet ((keeps_constant hv).bind fun w => .assume ?_)
    rintro rfl
    exact pushes hn (Value.within_of_isDatum hd) hs rfl
  case pushClosure =>
    obtain ⟨index, captures⟩ := args
    obtain ⟨f, hf, hc, -, hn⟩ := hf
    rw [hsite.constants] at hf
    rw [hsite.captures] at hc
    rcases hn with hn | hn
    · exact (keeps_makeClosure h hf hc hmakes (.inl rfl) hn).bind fun _ => .pure fun _ h => h
    · exact (keeps_makeClosure h hf hc hmakes (.inr rfl) hn).bind fun _ => .pure fun _ h => h
  case pushTrue | pushFalse =>
    obtain hn | hn := hf
    · exact quiet (pushes hn trivial trivial rfl)
    · exact quiet (pushes hn trivial ⟨_, rfl⟩ rfl)
  case pushNil | pushVoid => exact quiet (pushes hf trivial trivial rfl)
  case pop =>
    obtain ⟨s, σ, rfl, hn⟩ := hf
    exact quiet (keeps_pop.bind fun _ => .assume fun _ => goes hn rfl)
  case getLocal =>
    exact quiet fun m' hm => ((keeps_getLocal rfl).bind fun v => .assume fun hv =>
      pushes hf hv trivial rfl) m' hm
  case popLocal | popnLocal | closeUpvalue =>
    exact (keeps_dropLocals h hf rfl).bind fun _ => .pure fun _ h => ⟨h.1, rfl, h.2⟩
  case getProperty =>
    obtain ⟨hname, s, σ, rfl, hn⟩ := hf
    refine quiet ((keeps_nameConstant hsite.constants hname).bind fun _ => keeps_pop.bind fun v => .assume fun hv => ?_)
    exact (keeps_getProperty hv.1).bind fun w => .assume fun hw => pushes hn hw trivial rfl
  case setProperty =>
    obtain ⟨hname, s, t, σ, rfl, hn⟩ := hf
    refine quiet ((keeps_nameConstant hsite.constants hname).bind fun _ => keeps_pop.bind fun v => .assume fun hv => ?_)
    refine keeps_pop.bind fun r => .assume fun hr => ?_
    exact (keeps_setProperty hr.1 hv.1).bind fun _ => pushes hn hv.1 trivial rfl
  case call =>
    obtain ⟨σ, s, τ, rfl, hlen, hn⟩ := hf
    have hcall : Keeps .call (At W low Q base m next (σ ++ s :: τ)) (call host σ.length) _ :=
      keeps_call site hQ hn hh
    rw [hlen] at hcall
    exact quiet (hcall.bind fun _ => .pure fun _ h => ⟨h.2, rfl, h.1⟩)
  case callProperty =>
    obtain ⟨index, argc⟩ := args
    obtain ⟨hname, σ, s, τ, rfl, hlen, hn⟩ := hf
    refine quiet ((keeps_nameConstant hsite.constants hname).bind fun name => ?_)
    have hcall : Keeps .callProperty (At W low Q base m next (σ ++ s :: τ))
        (callProperty host name σ.length) _ := keeps_callProperty site hQ hn hh
    rw [hlen] at hcall
    exact hcall.bind fun _ => .pure fun _ h => ⟨h.2, rfl, h.1⟩
  case appendMethods =>
    obtain ⟨σ, rfl, hn⟩ := hf
    exact quiet (keeps_appendMethods.bind fun _ => goes hn rfl)
  case jump => exact quiet (keeps_jumpTo.bind fun _ => goes hf rfl)
  case jumpTrue | jumpFalse =>
    obtain ⟨s, σ, rfl, -, hn, ht⟩ := hf
    refine quiet (keeps_jumpIf.bind fun _ => .pure fun m' hm => ?_)
    obtain ⟨t, rfl | rfl, hm⟩ := hm
    · exact ⟨hm.goes hn, rfl, _, .inl rfl, hm.toRests⟩
    · exact ⟨hm.goes ht, rfl, _, .inr rfl, hm.toRests⟩
  case jumpHasNoNext =>
    obtain ⟨σ, rfl, hn, ht⟩ := hf
    refine quiet (keeps_peek.bind fun v => keeps_expectRange.bind fun r => .assume ?_)
    rintro rfl
    by_cases hnext : !r.hasNext
    · simp only [if_pos hnext]
      exact fun m' hm => (keeps_jumpTo.bind fun _ => goes ht (.inr rfl)) m' (hm .range ⟨r, rfl⟩)
    · simp only [if_neg hnext]
      exact fun m' hm => goes hn (.inl rfl) m' (hm .range ⟨r, rfl⟩)
  case loop =>
    obtain ⟨hd, -, hn⟩ := hf
    refine quiet ?_
    simp only [execute, if_pos hd]
    exact keeps_jumpTo.bind fun _ => goes hn ⟨hd, rfl⟩
  case add | sub | mul | div | mod =>
    obtain ⟨s, t, σ, rfl, hn⟩ := hf
    exact quiet (keeps_arithmetic.bind fun _ => goes hn rfl)
  case eq | ne =>
    obtain ⟨s, t, σ, rfl, hn⟩ := hf
    exact quiet (keeps_equals.bind fun _ => goes hn rfl)
  case lt | le | gt | ge =>
    obtain ⟨s, t, σ, rfl, hn⟩ := hf
    exact quiet (keeps_compared.bind fun _ => goes hn rfl)
  case and | or =>
    obtain ⟨s, t, σ, rfl, hn⟩ := hf
    exact quiet (keeps_connective.bind fun _ => goes hn rfl)
  case makeRange | makeInclRange =>
    obtain ⟨s, t, σ, rfl, hn⟩ := hf
    exact quiet (keeps_ranged.bind fun _ => goes hn rfl)
  case neg =>
    obtain ⟨s, σ, rfl, hn⟩ := hf
    exact quiet (keeps_negated.bind fun _ => goes hn rfl)
  case not =>
    obtain ⟨s, σ, rfl, hn⟩ := hf
    exact quiet (keeps_pop.bind fun v => .assume fun _ => keeps_expectBool.bind fun b =>
      pushes hn trivial trivial rfl)
  case assertBool =>
    obtain ⟨s, σ, rfl, hn⟩ := hf
    exact quiet (keeps_peek.bind fun v => keeps_expectBool.bind fun b =>
      fun m' hm => goes hn rfl m' (hm .any trivial))
  case makeIterator =>
    obtain ⟨s, σ, rfl, hn⟩ := hf
    refine quiet (keeps_peek.bind fun v => keeps_expectRange.bind fun r => .assume ?_)
    rintro rfl
    exact fun m' hm => goes hn rfl m' (hm .range ⟨r, rfl⟩)
  case getNext =>
    obtain ⟨σ, rfl, hn⟩ := hf
    refine quiet (keeps_peek.bind fun v => keeps_expectRange.bind fun r => .assume ?_)
    rintro rfl
    exact fun m' hm => pushes (v := .int r.next) hn trivial trivial rfl m' (hm .range ⟨r, rfl⟩)
  case advance =>
    obtain ⟨σ, rfl, hn⟩ := hf
    refine quiet (keeps_peek.bind fun v => keeps_expectRange.bind fun r => .assume fun _ m' hm => ?_)
    have hrange : Slot.range.admits (.range r.advance) := ⟨_, rfl⟩
    exact ((keeps_replace (σ := []) (s := .any) (v := .range r.advance) trivial hrange).bind fun _ =>
      goes hn rfl) m' (hm .any trivial)
  case defLocal =>
    obtain ⟨s, σ, rfl, hn⟩ := hf
    obtain ⟨v, rest, he, hv, hr⟩ := h.pop
    rintro m rfl
    rw [show execute host ip next .defLocal args m = _ from bind_ok (pop_of_stack he)]
    have hrests : Rests Q base { m with locals := m.locals.push v } next _ := .ofKept hip
      { hr.kept with locals := fun w hw => within_of_mem_push h.kept.locals hv.1 hw }
    exact ⟨hrests.goes rfl rfl hr.stack hn, rfl, v, by rw [he]; rfl, hrests⟩
  case defGlobal =>
    obtain ⟨s, σ, rfl, hn⟩ := hf
    obtain ⟨v, rest, he, hv, hr⟩ := h.pop
    rintro m rfl
    rw [show execute host ip next .defGlobal args m = _ from bind_ok (pop_of_stack he)]
    have hrests : Rests Q base { m with globals := m.globals.push v } next _ := .ofKept hip
      { hr.kept with globals := fun w hw => within_of_mem_push h.kept.globals hv.1 hw }
    exact ⟨hrests.goes rfl rfl hr.stack hn, rfl, v, by rw [he]; rfl, hrests⟩
  case setLocal =>
    obtain ⟨s, σ, rfl, hn⟩ := hf
    obtain ⟨v, rest, he, hv, -⟩ := h.pop
    rintro m rfl
    set j := m.frame.localsBase + args.toNat
    rw [show execute host ip next .setLocal args m = (setLocal j v >>= fun _ => pure .running) m from
      bind_ok (peek_of_stack he)]
    by_cases hlt : j < m.locals.size
    · rw [bind_ok (setLocal_of_lt hlt)]
      have hrests : Rests Q base { m with locals := m.locals.setIfInBounds j v } next _ := .refl
        { h.kept with locals := fun w hw => within_of_mem_setIfInBounds h.kept.locals hv.1 hw } hip
      exact ⟨hrests.goes rfl rfl h.forget.stack hn, rfl, v, by rw [he]; rfl, hlt, hrests⟩
    · rw [bind_error (show setLocal _ v m = _ from if_neg hlt)]
      rfl
  case setGlobal =>
    obtain ⟨s, σ, rfl, hn⟩ := hf
    obtain ⟨v, rest, he, hv, -⟩ := h.pop
    rintro m rfl
    rw [show execute host ip next .setGlobal args m = (setGlobal args v >>= fun _ => pure .running) m from
      bind_ok (peek_of_stack he)]
    by_cases hlt : args.toNat < m.globals.size
    · rw [bind_ok (show setGlobal args v m = _ from if_pos hlt)]
      have hrests : Rests Q base { m with globals := m.globals.setIfInBounds args.toNat v } next _ := .refl
        { h.kept with globals := fun w hw => within_of_mem_setIfInBounds h.kept.globals hv.1 hw } hip
      exact ⟨hrests.goes rfl rfl h.forget.stack hn, rfl, v, by rw [he]; rfl, hlt, hrests⟩
    · rw [bind_error (show setGlobal args v m = _ from if_neg hlt)]
      rfl
  case getGlobal =>
    rintro m rfl
    rcases getGlobal_cases args m with ⟨v, hv, hget⟩ | ⟨-, hget⟩
    · rw [show execute host ip next .getGlobal args m = _ from bind_ok hget]
      have hp := h.push (s := .any) (h.kept.globals v (Array.mem_of_getElem? hv)) trivial
      exact ⟨hp.goes hf, rfl, v, hv, rfl, hp.toRests⟩
    · rw [show execute host ip next .getGlobal args m = _ from bind_error hget]
      rfl
  case getUpvalue =>
    obtain ⟨hi, hn⟩ := hf
    rw [hsite.captures] at hi
    rintro m rfl
    obtain ⟨ref, href, hcell, hyoung⟩ := h.capturedCell hi
    have hread := readCell_eq ref m
    rw [show execute host ip next .getUpvalue args m = (readCell ref >>= fun v => push v >>= fun _ =>
      pure .running) m from bind_ok hcell]
    cases hv : m.denoted ref with
    | none =>
      rw [hv] at hread
      rw [bind_error hread]
      rfl
    | some v =>
      rw [hv] at hread
      rw [bind_ok hread]
      have hp := h.push (s := .any) (h.kept.denoted hyoung hv) trivial
      exact ⟨hp.goes hn, rfl, ref, v, href, hv, rfl, hp.toRests⟩
  case setUpvalue =>
    obtain ⟨hi, s, σ, rfl, hn⟩ := hf
    rw [hsite.captures] at hi
    obtain ⟨v, rest, he, hv, -⟩ := h.pop
    rintro m rfl
    obtain ⟨ref, href, hcell, -⟩ := h.capturedCell hi
    rw [show execute host ip next .setUpvalue args m = (writeCell ref v >>= fun _ => pure .running) m from
      (bind_ok hcell).trans (bind_ok (peek_of_stack he))]
    rcases writeCell_cases ref v m with ⟨hlt, hw⟩ | hw
    · rw [bind_ok hw]
      have hrests : Rests Q base (m.written ref v) next (m.written ref v) :=
        .refl (h.kept.written hv.1) (by rw [written_frame, hip])
      refine ⟨hrests.goes written_frame written_callers ?_ hn, rfl, ref, v, href, by rw [he]; rfl, hlt,
        hrests⟩
      rw [show (m.written ref v).stack = m.stack by unfold written; split <;> rfl]
      exact h.forget.stack
    · rw [bind_error hw]
      rfl
  case «return» =>
    obtain ⟨s, σ, rfl⟩ := hf
    obtain ⟨v, rest, he, hv, hr⟩ := h.pop
    rintro m rfl
    rw [show execute host ip next .return args m = _ from bind_ok (pop_of_stack he)]
    exact leave_results hr hv.1
  case returnVoid =>
    rintro m rfl
    exact leave_results h trivial
  case exitSuccess =>
    obtain ⟨hp, rfl⟩ := hf
    rintro m rfl
    obtain ⟨top, rest, he, -, htop, hw⟩ := h.stack
    cases htop
    obtain rfl : m.stack = rest := he
    exact ⟨.ends (.inr hp) fun _ => hw, rfl, h.toRests⟩

/-! ## Steps -/

variable {i : Instruction}

theorem step_behind (hh : host.Harmless)
    (hQ : ∀ c, Q c → ∀ ref ∈ c.captures, base.cells.size ≤ ref.index) (hk : m.Kept Q base)
    (hfetch : fetch m.chunk m.frame.ip = .ok (i, next)) (hmakes : Makes Q base (m.movedTo next) i)
    (hsite : site.Fits m.frame.closure) (hstack : Stands W low τ m.stack)
    (hflow : Flow site S E next i.op i.args τ) :
    Results i.op (Behind site S W low Q base (m.movedTo next) next i.op i.args) (step host m) := by
  rw [step_of_fetch hfetch]
  exact keeps_execute (m := m.movedTo next) hQ hh hsite ⟨.refl (hk.movedTo next) rfl, hstack⟩ hflow
    hmakes _ rfl

/-- What is behind an instruction: a sound machine, or an empty stack at the end. -/
def Continues (n : Nat) (base : Store) : Status → Machine → Prop
  | .running, m => Sound n base m
  | .finished, m => m.stack = []

/-- Where all calls are safe, a machine stays sound. -/
theorem Proceeds.continues {m' : Machine} {status : Status}
    (h : Proceeds (m.frame.site m.callers) (Safe n (m.frame.site m.callers)) (Waits n m.callers)
      m.frame.stackBase (Closure.Sound n base) base m next status m') : Continues n base status m' := by
  cases h with
  | @goes t σ _ hframe hcallers hkept hsafe hstack =>
    refine ⟨hkept, σ, ?_, ?_⟩ <;> rw [hcallers, hframe]
    · exact hstack
    · exact hsafe
  | @enters σ _ hcallee hip hbase hcallers hkept hsafe hstack =>
    refine ⟨hkept, [], ⟨[], _, rfl, hbase.symm, .nil, ?_⟩, ?_⟩
    · rw [hcallers]
      exact ⟨σ, hstack, hsafe⟩
    · rw [hip, hcallers]
      exact hcallee.safe
  | @leaves v rest _ hcallers hkept hstack hw =>
    have hwaits := hw rfl
    rw [hcallers] at hwaits
    obtain ⟨σ, hstands, hsafe⟩ := hwaits
    exact ⟨hkept, .any :: σ, hstack ▸ hstands.push trivial, hsafe⟩
  | ends hlast hw =>
    have hnil : m.callers = [] := hlast.elim id List.isEmpty_iff.1
    have hwaits := hw rfl
    rwa [hnil] at hwaits

theorem Sound.step (h : Sound (n + 1) base m) (hh : host.Harmless) : ∃ i next,
    fetch m.chunk m.frame.ip = .ok (i, next) ∧ Results i.op (Continues n base) (step host m) := by
  obtain ⟨hkept, τ, hstack, i, next, hfetch, hflow⟩ := h
  refine ⟨i, next, hfetch, ?_⟩
  have hmakes : Makes (Closure.Sound n base) base (m.movedTo next) i := by
    rintro index captures rfl f cells m₁ hf - hlen hyoung
    obtain ⟨f', hf', -, hsafe, -⟩ := hflow
    obtain rfl : f' = f := by simpa using hf'.symm.trans hf
    exact ⟨hlen ▸ hsafe, hyoung⟩
  have := step_behind hh (fun _ hc => hc.captures) (hkept.mono fun _ => .pred) hfetch hmakes ⟨rfl, rfl⟩
    (hstack.mono fun _ => Waits.pred) hflow
  cases hx : Machine.step host m with
  | ok status m' =>
    rw [hx] at this
    exact this.1.continues (m := m.movedTo next)
  | error f m' =>
    rw [hx] at this
    exact this

theorem step_effect {status : Status} {m' : Machine} (hh : host.Harmless)
    (hQ : ∀ c, Q c → ∀ ref ∈ c.captures, base.cells.size ≤ ref.index) (h : m.Kept Q base)
    (hsound : Sound 1 base m) (hfetch : fetch m.chunk m.frame.ip = .ok (i, next))
    (hmakes : Makes Q base (m.movedTo next) i) (hx : step host m = .ok status m') :
    Effect Q base (m.movedTo next) next i.op i.args status m' := by
  obtain ⟨-, τ, hstack, i', next', hfetch', hflow⟩ := hsound
  obtain ⟨rfl, rfl⟩ : i = i' ∧ next = next' := by simpa using hfetch.symm.trans hfetch'
  have := step_behind hh hQ h hfetch hmakes ⟨rfl, rfl⟩ hstack hflow
  rw [hx] at this
  exact this.2

end Executing

end Operations

end Machine

end StackScript
