import StackScript.Proofs.Machine.Dispatch

/-!
# Values that can be called

A call refuses its callee exactly if the callee is neither a callable value nor a plain function
(`Machine.call_refuses_iff`). A plain function is no callable value, yet a call enters it
(`Machine.call_enters_function`).
-/

namespace StackScript.Machine

variable {α β : Type} {x : Exec α} {f : α → Exec β} {e : Fault} {argc : Nat}

/-- The operation may fail, but not because of what its callee is. -/
def Accepts (x : Exec α) : Prop := ∀ m kind m', x m ≠ .error (.notCallable kind) m'

namespace Accepts

theorem ofOk (h : ∀ m, ∃ a m', x m = .ok a m') : Accepts x := by
  intro m kind m' he
  obtain ⟨a, m₁, hm⟩ := h m
  cases hm.symm.trans he

theorem throw (h : ∀ kind, e ≠ .notCallable kind) : Accepts (throw e : Exec α) := by
  intro m kind m' he
  cases he
  exact h kind rfl

theorem bind (hx : Accepts x) (hf : ∀ a, Accepts (f a)) : Accepts (x >>= f) := by
  intro m kind m'
  cases hm : x m with
  | ok a m₁ =>
    rw [bind_ok hm]
    exact hf a m₁ kind m'
  | error e m₁ =>
    rw [bind_error hm]
    intro he
    cases he
    exact hx m kind m' hm

end Accepts

theorem accepts_get : Accepts (get : Exec Machine) := .ofOk fun _ => ⟨_, _, rfl⟩

theorem accepts_push (v : Value) : Accepts (push v) := .ofOk fun _ => ⟨_, _, rfl⟩

theorem accepts_pop : Accepts pop := by
  intro m kind m'
  unfold pop
  split <;> rintro ⟨⟩

theorem accepts_popMany (n : Nat) : Accepts (popMany n) := by
  intro m kind m'
  unfold popMany
  split <;> rintro ⟨⟩

theorem accepts_checkArity (name : String) (expected : UInt32) :
    Accepts (checkArity name expected argc) := by
  unfold checkArity
  split
  · exact .throw (by rintro _ ⟨⟩)
  · exact .ofOk fun _ => ⟨_, _, rfl⟩

theorem accepts_enter (closure : Value.Code) : Accepts (enter closure argc) := by
  refine (accepts_checkArity _ _).bind fun _ => accepts_get.bind fun m => ?_
  split
  · exact .throw (by rintro _ ⟨⟩)
  · exact (accepts_popMany _).bind fun _ => .ofOk fun _ => ⟨_, _, rfl⟩

theorem accepts_construct (record : Value.RecordType) : Accepts (construct record argc) := by
  unfold construct
  dsimp only
  split
  · exact .throw (by rintro _ ⟨⟩)
  · exact (accepts_popMany _).bind fun _ => accepts_pop.bind fun _ => .ofOk fun _ => ⟨_, _, rfl⟩

theorem accepts_callHost (host : Host) (native : Native) : Accepts (callHost host native argc) := by
  refine (accepts_checkArity _ _).bind fun _ => (accepts_popMany _).bind fun arguments =>
    accepts_pop.bind fun _ => accepts_get.bind fun m => ?_
  cases host.answer m.calls native m.store arguments with
  | ok v =>
    dsimp only
    split
    · exact .ofOk fun _ => ⟨_, _, rfl⟩
    · exact accepts_push v
  | error message =>
    have hthrow : Accepts (throw (.native native.name message) : Exec Unit) :=
      .throw (by rintro _ ⟨⟩)
    dsimp only
    split
    · exact Accepts.bind (.ofOk fun _ => ⟨_, _, rfl⟩) fun _ => hthrow
    · exact hthrow

theorem call_refuses_iff (host : Host) {m m' : Machine} {v : Value} {kind : Kind}
    (h : m.stack[argc]? = some v) : call host argc m = .error (.notCallable kind) m' ↔
      (v.isCallable = false ∧ ∀ f, v ≠ .function f) ∧ kind = v.kind ∧ m' = m := by
  unfold call
  rw [bind_ok (callee_eq_ok h)]
  cases v with
  | closure c => simp [Value.isCallable, accepts_enter _ m kind m']
  | function f => simp [accepts_enter _ m kind m']
  | bound receiver method =>
    have haccepts : Accepts (replace argc receiver >>= fun _ => enter method.body argc) :=
      Accepts.bind (.ofOk fun _ => ⟨_, _, rfl⟩) fun _ => accepts_enter _
    simp [Value.isCallable, haccepts m kind m']
  | record r => simp [Value.isCallable, accepts_construct _ m kind m']
  | native n => simp [Value.isCallable, accepts_callHost _ _ m kind m']
  | _ =>
    constructor
    · rintro ⟨⟩
      exact ⟨⟨rfl, by rintro _ ⟨⟩⟩, rfl, rfl⟩
    · rintro ⟨-, rfl, rfl⟩
      rfl

/-- An instance is refused, whatever record it is of. -/
theorem call_refuses_point : withPoint.stack[1]? = some (.instanceOf ⟨0⟩) ∧
    call (Services.host {}) 1 withPoint = .error (.notCallable .instanceOf) withPoint :=
  ⟨rfl, (call_refuses_iff _ rfl).2 ⟨⟨rfl, by rintro _ ⟨⟩⟩, rfl, rfl⟩⟩

theorem call_enters_function : let v : Value := .function ⟨0, ⟨0, { name := none }⟩⟩
    v.isCallable = false ∧
    ∃ m, call (Services.host {}) 0 { withPoint with stack := [v] } = .ok () m := ⟨rfl, _, rfl⟩

end StackScript.Machine
