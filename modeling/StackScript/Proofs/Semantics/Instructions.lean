import StackScript.Proofs.Semantics.Simulation

/-!
# Instructions beside the evaluation

Each instruction of compiled code does to the machine what the evaluation does to its world. Where an
operation of the evaluation can fail, the instruction fails with the same fault.
-/

namespace StackScript.Semantics.Pairing

open Machine
open Lowering (Context Binding namesOf length_names literal pushConstant releaseAfter)
open Fragment (emit Placed)

variable {A : Pairing} {S : A.Scene} {α : Type} {γ L : List Nat} {o n : Nat} {st : List Value}
  {m : Machine} {w : World} {span : Span} {i : Instruction} {v v' : Value} {x x' : Val}
variable {env : Env} {c : Context} {j p : Nat} {name : String} {a u : Value} {op : Opcode}
  {index : UInt32} {ref : CellRef}

theorem Poised.withStack (h : Poised S γ L o st m w) (st' : List Value) :
    Poised S γ L o st' { m with stack := st' } w :=
  ⟨h.frame, h.callers, rfl, h.rel, h.captured⟩

theorem State.withStack (h : State S γ L o st m w) (st' : List Value) :
    State S γ L o st' { m with stack := st' } w :=
  ⟨h.toPoised.withStack st', h.size⟩

theorem Poised.movedTo (h : Poised S γ L o st m w) (o' : Nat) : Poised S γ L o' st (m.movedTo o') w :=
  ⟨congrArg (fun f : StackScript.Frame => { f with ip := o' }) h.frame, h.callers, h.stack, h.rel,
    h.captured⟩

theorem State.movedTo (h : State S γ L o st m w) (o' : Nat) : State S γ L o' st (m.movedTo o') w :=
  ⟨h.toPoised.movedTo o', h.size⟩

theorem Poised.step {next : Nat} (h : Poised S γ L o st m w)
    (hf : fetch S.frame.closure.function.chunk o = .ok (i, next)) :
    step A.host m = execute A.host o next i.op i.args (m.movedTo next) := by
  have hfetch : fetch m.frame.closure.function.chunk m.frame.ip = .ok (i, next) := by
    rw [h.frame]
    exact hf
  rw [step_of_fetch hfetch, show m.frame.ip = o from congrArg _ h.frame]

theorem State.executes {Q : Machine → Prop} (h : State S γ L o st m w)
    (hp : Placed S.code o (emit i span)) (hc : i.op.format.Countable i.args)
    (he : State S γ L (o + i.size) st (m.movedTo (o + i.size)) w → ∃ m',
      execute A.host o (o + i.size) i.op i.args (m.movedTo (o + i.size)) = .ok .running m' ∧ Q m') :
    A.Goes m Q := by
  obtain ⟨m', he, hq⟩ := he (h.movedTo _)
  exact Moves.goes ⟨m', (h.step (hp.fetch hc)).trans he, .refl hq⟩

theorem State.fails {Q : α → World → Machine → Prop} {f : Fault} (h : State S γ L o st m w)
    (hp : Placed S.code o (emit i span)) (hc : i.op.format.Countable i.args) (st' : List Value)
    (he : execute A.host o (o + i.size) i.op i.args (m.movedTo (o + i.size)) =
      .error f { m.movedTo (o + i.size) with stack := st' }) : A.Sim n m Q (.error (.fault f) w) :=
  Goes.refl ⟨_, (h.step (hp.fetch hc)).trans he, Shows.of_rel h.rel⟩

/-! ## The stack -/

theorem State.pushes (h : State S γ L o st m w) (hp : Placed S.code o (emit i span))
    (hc : i.op.format.Countable i.args)
    (he : execute A.host o (o + i.size) i.op i.args (m.movedTo (o + i.size)) =
      .ok .running { m.movedTo (o + i.size) with stack := v :: m.stack }) :
    A.Goes m fun m' => State S γ L (o + (emit i span).size) (v :: st) m' w := by
  rw [Fragment.size_emit]
  refine h.executes hp hc fun h₁ => ⟨_, he, ?_⟩
  rw [h.stack]
  exact h₁.withStack _

theorem State.pops (h : State S γ L o (v :: st) m w) (hp : Placed S.code o (Lowering.pop span)) :
    A.Goes m fun m' => State S γ L (o + 1) st m' w :=
  h.executes (i := ⟨.pop, ()⟩) hp trivial fun h₁ => ⟨_, bind_ok (pop_of_stack h₁.stack), h₁.withStack st⟩

theorem isScalar_valueOf (l : Literal) : (valueOf l).isScalar = true := by
  cases l <;> rfl

theorem State.pushes_constant {k : Constant} (h : State S γ L o st m w)
    (hf : Fit S 1 c (pushConstant k span c).2) (hp : Placed S.code o (pushConstant k span c).1)
    (hk : ∀ u, k.Loads u → u = v) :
    A.Goes m fun m' =>
      State S γ L (o + (pushConstant k span c).1.size) (v :: st) m' w := by
  obtain ⟨u, hu, hl⟩ := hf.constant (Lowering.constant_index hf.room32)
  obtain rfl := hk u hl
  have hc (next : Nat) : constant (Lowering.constant k c).1 (m.movedTo next) =
      .ok u (m.movedTo next) := by
    unfold constant
    simp only [h.frame, hu]
  exact h.pushes (i := ⟨.pushConst, (Lowering.constant k c).1⟩) hp trivial (bind_ok (hc _))

/-- Code for a literal pushes its value. -/
theorem State.literal {l : Literal} (h : State S γ L o st m w) (hf : Fit S 1 c (literal l span c).2)
    (hp : Placed S.code o (literal l span c).1) :
    A.Goes m fun m' =>
      State S γ L (o + (literal l span c).1.size) (valueOf l :: st) m' w := by
  cases l with
  | int | float | string | char =>
    refine h.pushes_constant hf hp fun u hu => ?_
    cases hu with
    | foreign hk => cases hk
    | _ => rfl
  | bool b => cases b <;> exact h.pushes hp trivial rfl
  | nil | void => exact h.pushes hp trivial rfl

/-! ## Operators -/

variable (S γ L o st) in
/-- The value of an expression is on top of a stack that is as before otherwise. -/
def Yields (x : Val) (w : World) (m : Machine) : Prop :=
  ∃ γ' v, γ <+: γ' ∧ A.Matches γ' v x ∧ State S γ' L o (v :: st) m w

theorem Yields.mono {γ' : List Nat} (h : Yields S γ' L o st x w m) (hγ : γ <+: γ') :
    Yields S γ L o st x w m := by
  obtain ⟨γ₂, v, h₂, hv, hs⟩ := h
  exact ⟨γ₂, v, hγ.trans h₂, hv, hs⟩

theorem State.yields (h : State S γ L o (v :: st) m w) (hv : A.Matches γ v x) :
    Yields S γ L o st x w m :=
  ⟨γ, v, List.prefix_refl _, hv, h⟩

theorem isScalar_binary {op : BinaryOp} {b : Value} (h : binary op a b = .ok u) :
    u.isScalar = true := by
  cases op with
  | arithmetic op => exact isScalar_arithmetic h
  | equal | notEqual =>
    cases h
    rfl
  | less | lessEqual | greater | greaterEqual =>
    simp only [binary, compared] at h
    split at h <;> cases h
    rfl
  | and | or =>
    simp only [binary, connected] at h
    split at h <;> cases h
    rfl

theorem isScalar_unary {op : UnaryOp} (h : unary op a = .ok u) : u.isScalar = true := by
  cases op with
  | negate =>
    simp only [unary, negated] at h
    split at h
    · rename_i k
      cases hk : Integer.negate k with
      | ok y =>
        rw [hk] at h
        cases h
        rfl
      | error e =>
        rw [hk] at h
        cases h
    · cases h
      rfl
    · cases h
  | not =>
    simp only [unary] at h
    split at h <;> cases h
    rfl

theorem isScalar_ranged {inclusive : Bool} {b : Value} (h : ranged inclusive a b = .ok u) :
    u.isScalar = true := by
  unfold ranged Machine.ranged at h
  split at h <;> cases h
  rfl

/-- The outcome of an instruction that puts the result of an operation on a stack. -/
def settled (st : List Value) (m : Machine) :
    Except Fault Value → EStateM.Result Fault Machine Status
  | .ok u => .ok .running { m with stack := u :: st }
  | .error f => .error f { m with stack := st }

theorem State.computes {r : Except Fault Value} {st₀ : List Value} (h : State S γ L o st₀ m w)
    (hp : Placed S.code o (emit i span)) (hc : i.op.format.Countable i.args)
    (hr : ∀ u, r = .ok u → u.isScalar = true)
    (he : execute A.host o (o + i.size) i.op i.args (m.movedTo (o + i.size)) =
      settled st (m.movedTo (o + i.size)) r) :
    A.Sim n m (Yields S γ L (o + (emit i span).size) st) (compute r w) := by
  rw [Fragment.size_emit]
  cases r with
  | ok u =>
    refine Sim.of_goes (R := fun m' => State S γ L (o + i.size) (u :: st) m' w) ?_ fun m' h' =>
      Sim.pure (h'.yields (matches_scalar (hr u rfl)))
    exact h.executes hp hc fun h₁ => ⟨_, he, h₁.withStack _⟩
  | error f => exact h.fails hp hc st he

theorem settled_of_result {x : Exec Unit} {r : Except Fault Value} (hx : x m = match r with
      | .ok u => .ok () { m with stack := u :: st }
      | .error f => .error f { m with stack := st }) :
    (do x; return Status.running : Exec _) m = settled st m r := by
  cases r with
  | ok u =>
    rw [bind_ok hx]
    rfl
  | error e => rw [bind_error hx]; rfl

theorem settled_binary {f : Value → Value → Except Fault Value} (h : m.stack = v' :: v :: st) :
    (do Machine.binary f; return Status.running : Exec _) m = settled st m (f v v') := by
  refine settled_of_result ?_
  unfold Machine.binary
  rw [bind_ok (pop_of_stack h), bind_ok (pop_of_stack (v := v) rfl)]
  cases f v v' <;> rfl

theorem settled_connective {f : Bool → Bool → Bool} (h : m.stack = v' :: v :: st) :
    (do connective op f; return Status.running : Exec _) m =
      settled st m (connected op f v v') := by
  refine settled_of_result ?_
  unfold connective
  rw [bind_ok (pop_of_stack h), bind_ok (pop_of_stack (v := v) rfl)]
  cases v with
  | bool b => cases v' <;> rfl
  | _ => rfl

theorem State.binary {op : BinaryOp} (h : State S γ L o (v' :: v :: st) m w)
    (hp : Placed S.code o (emit (Lowering.binaryInstruction op) span)) (hv : A.Matches γ v x)
    (hv' : A.Matches γ v' x') :
    A.Sim n m (Yields S γ L (o + (emit (Lowering.binaryInstruction op) span).size) st)
      (compute (Semantics.binary op x.view x'.view) w) := by
  rw [← hv.binary hv' op]
  refine h.computes hp ?_ (fun u hu => isScalar_binary hu) ?_
  · rcases op with (_ | _ | _ | _ | _) | _ | _ | _ | _ | _ | _ | _ | _ <;> trivial
  · rcases op with (_ | _ | _ | _ | _) | _ | _ | _ | _ | _ | _ | _ | _ <;>
      first
      | exact settled_binary h.stack
      | exact settled_connective h.stack

theorem State.range {inclusive : Bool} (h : State S γ L o (v' :: v :: st) m w)
    (hp : Placed S.code o (emit (if inclusive then ⟨.makeInclRange, ()⟩ else ⟨.makeRange, ()⟩) span))
    (hv : A.Matches γ v x) (hv' : A.Matches γ v' x') :
    A.Sim n m (Yields S γ L
        (o + (emit (if inclusive then ⟨.makeInclRange, ()⟩ else ⟨.makeRange, ()⟩) span).size) st)
      (compute (Semantics.ranged inclusive x.view x'.view) w) := by
  rw [← hv.ranged hv' inclusive]
  refine h.computes hp ?_ (fun u hu => isScalar_ranged hu) ?_
  · cases inclusive <;> trivial
  · cases inclusive <;> exact settled_binary h.stack

theorem State.unary {op : UnaryOp} (h : State S γ L o (v :: st) m w)
    (hp : Placed S.code o (emit (Lowering.unaryInstruction op) span)) (hv : A.Matches γ v x) :
    A.Sim n m (Yields S γ L (o + (emit (Lowering.unaryInstruction op) span).size) st)
      (compute (Semantics.unary op x.view) w) := by
  rw [← hv.unary op]
  refine h.computes hp ?_ (fun u hu => isScalar_unary hu) ?_
  · cases op <;> trivial
  · have hpop (next : Nat) := pop_of_stack (m := m.movedTo next) h.stack
    cases op with
    | negate =>
      refine settled_of_result (x := Machine.unary negated) ((bind_ok (hpop _)).trans ?_)
      show _ = (match negated v with | .ok u => _ | .error f => _)
      cases negated v <;> rfl
    | not =>
      refine (bind_ok (hpop _)).trans ?_
      cases v <;> rfl

/-! ## Conditions and jumps -/

section Jumps

variable {d : Nat} {rest : Fragment} {b : Bool} {r : Range}

theorem State.jumps (h : State S γ L o st m w)
    (hp : Placed S.code o (.jump .always d span :: rest)) :
    A.Goes m fun m' => State S γ L (o + 5 + d) st m' w := by
  obtain ⟨hf, hd⟩ := hp.fetch_jump
  have he : step A.host m = .ok .running (m.movedTo (o + 5 + d.toUInt32.toNat)) := h.step hf
  rw [hd] at he
  exact Moves.goes ⟨_, he, .refl (h.movedTo _)⟩

theorem State.jumps_back {t : Nat} (h : State S γ L o st m w)
    (hp : Placed S.code o (.jump .back d span :: rest)) (ht : t + d = o + 5) :
    A.Moves m fun m' => State S γ L t st m' w := by
  obtain ⟨hf, hd⟩ := hp.fetch_jump
  have he : step A.host m = (do
      if d.toUInt32.toNat ≤ o + 5 then jumpTo (o + 5 - d.toUInt32.toNat)
      else throw (.invalidJump o)
      return Status.running : Exec _) (m.movedTo (o + 5)) := h.step hf
  rw [hd, if_pos (by omega), show o + 5 - d = t by omega] at he
  exact ⟨_, he, .refl (h.movedTo t)⟩

theorem truth_eq (hv : A.Matches γ v x) : truth op x w = match v.asBool? with
    | some b => .ok b w
    | none => .error (.fault (.unexpectedType op.mnemonic "bool" v.kind)) w := by
  unfold truth
  rw [hv.asBool?, hv.kind]
  cases x.view.asBool? <;> rfl

theorem eq_bool_of_asBool? (h : u.asBool? = some b) : u = .bool b := by
  cases u <;> cases h
  rfl

theorem expectBool_of_none (h : v.asBool? = none) :
    expectBool op v m = .error (.unexpectedType op.mnemonic "bool" v.kind) m := by
  cases v <;> first | rfl | cases h

theorem jumpIf_of_stack {wanted : Bool} {t : Nat} (h : m.stack = v :: st) :
    jumpIf op wanted t m = match v.asBool? with
      | some b => if b = wanted then .ok () { m with frame := { m.frame with ip := t } } else .ok () m
      | none => .error (.unexpectedType op.mnemonic "bool" v.kind) m := by
  unfold jumpIf
  rw [bind_ok (peek_of_stack h)]
  cases hb : v.asBool? with
  | none => rw [bind_error (expectBool_of_none hb)]
  | some b =>
    obtain rfl := eq_bool_of_asBool? hb
    show (if b = wanted then jumpTo t else pure () : Exec Unit) m = _
    by_cases hw : b = wanted
    · rw [if_pos hw]
      simp only [if_pos hw]
      rfl
    · rw [if_neg hw]
      simp only [if_neg hw]
      rfl

/-- A jump on the top of the stack. -/
theorem State.step_jump (h : State S γ L o (v :: st) m w) (op : LogicalOp)
    (hp : Placed S.code o (.jump (Lowering.shortcut op) d span :: rest)) :
    step A.host m = (do
      jumpIf (shortcutTest op) (isDecided op true) (o + 5 + d)
      return Status.running : Exec _) (m.movedTo (o + 5)) := by
  obtain ⟨hf, hd⟩ := hp.fetch_jump
  have hs := h.step hf
  rw [← hd]
  cases op <;> exact hs

theorem State.jumps_if (h : State S γ L o (.bool b :: st) m w) (op : LogicalOp)
    (hp : Placed S.code o (.jump (Lowering.shortcut op) d span :: rest)) :
    A.Moves m fun m' =>
      State S γ L (if isDecided op b then o + 5 + d else o + 5) (.bool b :: st) m' w := by
  have hj : jumpIf (shortcutTest op) (isDecided op true) (o + 5 + d) (m.movedTo (o + 5)) = _ :=
    jumpIf_of_stack h.stack
  have hdec : b = isDecided op true ↔ isDecided op b = true := by
    cases op <;> cases b <;> decide
  simp only [Value.asBool?, hdec] at hj
  by_cases hi : isDecided op b = true
  · rw [if_pos hi] at hj ⊢
    exact ⟨_, (h.step_jump op hp).trans (bind_ok hj), .refl (h.movedTo _)⟩
  · rw [if_neg hi] at hj ⊢
    exact ⟨_, (h.step_jump op hp).trans (bind_ok hj), .refl (h.movedTo _)⟩

/-- The code of a condition jumps if its value decides. -/
theorem State.branches (h : State S γ L o (v :: st) m w) (op : LogicalOp)
    (hp : Placed S.code o (.jump (Lowering.shortcut op) d span :: rest)) (hv : A.Matches γ v x) :
    A.Sim n m (fun b w' m' => v = .bool b ∧
        State S γ L (if isDecided op b then o + 5 + d else o + 5) (v :: st) m' w')
      (truth (shortcutTest op) x w) := by
  rw [truth_eq hv]
  cases hb : v.asBool? with
  | none =>
    have hj : jumpIf (shortcutTest op) (isDecided op true) (o + 5 + d) (m.movedTo (o + 5)) = _ :=
      jumpIf_of_stack h.stack
    rw [hb] at hj
    exact Goes.refl ⟨_, (h.step_jump op hp).trans (bind_error hj), Shows.of_rel h.rel⟩
  | some b =>
    obtain rfl := eq_bool_of_asBool? hb
    exact (h.jumps_if op hp).goes.mono fun m' h' => ⟨rfl, h'⟩

theorem State.asserts_bool (h : State S γ L o (.bool b :: st) m w)
    (hp : Placed S.code o (emit ⟨.assertBool, ()⟩ span)) :
    A.Goes m fun m' => State S γ L (o + 1) (.bool b :: st) m' w := by
  exact h.executes hp trivial fun h₁ => ⟨_, bind_ok (peek_of_stack h₁.stack), h₁⟩

theorem State.asserts (h : State S γ L o (v :: st) m w)
    (hp : Placed S.code o (emit ⟨.assertBool, ()⟩ span)) (hv : A.Matches γ v x) :
    A.Sim n m (fun _ w' m' => State S γ L (o + 1) (v :: st) m' w') (truth .assertBool x w) := by
  rw [truth_eq hv]
  cases hb : v.asBool? with
  | none =>
    exact h.fails hp trivial m.stack
      ((bind_ok (peek_of_stack (h.movedTo _).stack)).trans (bind_error (expectBool_of_none hb)))
  | some b =>
    obtain rfl := eq_bool_of_asBool? hb
    exact h.asserts_bool hp

/-- A loop over a range checks that it has one. -/
theorem State.makes_iterator (h : State S γ L o (v :: st) m w)
    (hp : Placed S.code o (emit ⟨.makeIterator, ()⟩ span)) (hv : A.Matches γ v x) :
    A.Sim n m (fun r w' m' => v = .range r ∧ State S γ L (o + 1) (.range r :: st) m' w')
      (rangeOf x w) := by
  have hfail (hr : ∀ r, v ≠ .range r) : A.Sim n m (fun r w' m' => v = .range r ∧
      State S γ L (o + 1) (.range r :: st) m' w')
      (fail (.unexpectedType Opcode.makeIterator.mnemonic "range" v.kind) w) := by
    refine h.fails hp trivial m.stack ((bind_ok (peek_of_stack (h.movedTo _).stack)).trans ?_)
    cases v <;> first | rfl | exact absurd rfl (hr _)
  unfold rangeOf
  rcases hv.view with ⟨hvx, -⟩ | ⟨a, b, rfl, hx, -⟩
  · rw [← hvx]
    cases v with
    | range r =>
      exact h.executes hp trivial fun h₁ => ⟨_, bind_ok (peek_of_stack h₁.stack), rfl, h₁⟩
    | _ => exact hfail nofun
  · rw [hx]
    exact hfail nofun

theorem State.has_no_next (h : State S γ L o (.range r :: st) m w)
    (hp : Placed S.code o (.jump .ifDone d span :: rest)) :
    A.Goes m fun m' =>
      State S γ L (if r.hasNext then o + 5 else o + 5 + d) (.range r :: st) m' w := by
  obtain ⟨hf, hd⟩ := hp.fetch_jump
  have he : step A.host m = (do
      if !r.hasNext then jumpTo (o + 5 + d)
      return Status.running : Exec _) (m.movedTo (o + 5)) := by
    rw [← hd]
    exact (h.step hf).trans (bind_ok (peek_of_stack (h.movedTo _).stack))
  by_cases hn : r.hasNext
  · rw [if_pos hn]
    rw [if_neg (by simp [hn])] at he
    exact Moves.goes ⟨_, he, .refl (h.movedTo _)⟩
  · rw [if_neg hn]
    rw [if_pos (by simp [hn])] at he
    exact Moves.goes ⟨_, he, .refl (h.movedTo _)⟩

theorem State.gets_next (h : State S γ L o (.range r :: st) m w)
    (hp : Placed S.code o (emit ⟨.getNext, ()⟩ span)) :
    A.Goes m fun m' => State S γ L (o + 1) (.int r.next :: .range r :: st) m' w := by
  exact h.pushes hp trivial (bind_ok (peek_of_stack (h.movedTo _).stack))

theorem State.advances (h : State S γ L o (.range r :: st) m w)
    (hp : Placed S.code o (emit ⟨.advance, ()⟩ span)) :
    A.Goes m fun m' => State S γ L (o + 1) (.range r.advance :: st) m' w := by
  refine h.executes hp trivial fun h₁ => ⟨_, bind_ok (peek_of_stack h₁.stack), ?_⟩
  show State S γ L (o + 1) _ { m.movedTo (o + 1) with stack := m.stack.set 0 (.range r.advance) } w
  rw [h.stack]
  exact h₁.withStack _

end Jumps

/-! ## Variables -/

variable (S γ L) in
/-- What the code for a name leads to: a local, a cell that the function has captured, or a
global. -/
def Finds (env : Env) (name : String) : Binding → Prop
  | .local slot => ∃ p, env.lookup name = some p ∧ L[S.frame.localsBase + slot.toNat]? = some p
  | .captured index => ∃ p ref, env.lookup name = some p ∧
      S.frame.closure.captures[index.toNat]? = some ref ∧ A.Leads γ ref p
  | .global slot => env.lookup name = none ∧
      A.setting.globals.findIdx? (· = name) = some slot.toNat

theorem lookup_of_findIdx? {e : String × Nat} (h : (env.map Prod.fst).findIdx? (· = name) = some j)
    (he : env[j]? = some e) : env.lookup name = some e.2 := by
  induction env generalizing j with
  | nil => cases h
  | cons a env ih =>
    rw [List.map_cons, List.findIdx?_cons] at h
    by_cases ha : a.1 = name
    · rw [if_pos (decide_eq_true ha)] at h
      obtain rfl := Option.some.inj h
      obtain rfl := Option.some.inj he
      rw [List.lookup_cons, ha]
      simp
    · rw [if_neg (by simpa using ha)] at h
      obtain ⟨k, hk, rfl⟩ := Option.map_eq_some_iff.1 h
      rw [List.lookup_cons]
      have hne : (name == a.1) = false := by simpa using Ne.symm ha
      rw [hne]
      exact ih hk he

theorem lookup_of_findIdx?_none (h : (env.map Prod.fst).findIdx? (· = name) = none) :
    env.lookup name = none := by
  rw [List.lookup_eq_none_iff]
  intro e he
  have hne : e.1 ≠ name := by simpa using List.findIdx?_eq_none_iff.1 h e.1 (List.mem_map_of_mem he)
  simpa using hne.symm

theorem Scoped.names (h : Scoped S L c env)
    (hc : A.Captured γ S.frame.closure.captures S.captures S.enclosing S.outer) :
    env.map Prod.fst = c.frame.scope.labels.map Prod.fst ++ namesOf S.enclosing := by
  have hlen := h.length
  rw [h.env_eq, List.map_append, hc.names, List.map_fst_zip]
  rw [length_names, List.length_reverse, List.length_drop]
  omega

/-- The variable of a local. -/
theorem Scoped.slot {slot : Nat} (h : Scoped S L c env) (hlt : slot < c.frame.scope.locals.length) :
    ∃ e, env[c.frame.scope.locals.length - 1 - slot]? = some e ∧
      L[S.frame.localsBase + slot]? = some e.2 := by
  have hlen := h.length
  have hL : S.frame.localsBase + slot < L.length := by omega
  have hnames := length_names c.frame
  have hdrop : (L.drop S.frame.localsBase).length = c.frame.scope.locals.length := by
    rw [List.length_drop]
    omega
  have hzip : c.frame.scope.locals.length - 1 - slot <
      ((c.frame.scope.labels.map Prod.fst).zip (L.drop S.frame.localsBase).reverse).length := by
    rw [List.length_zip, List.length_reverse, hnames, hdrop]
    omega
  rw [h.env_eq, List.getElem?_append_left hzip, List.getElem?_eq_getElem hzip]
  refine ⟨_, rfl, ?_⟩
  rw [List.getElem?_eq_getElem hL, List.getElem_zip]
  simp only [List.getElem_reverse, List.getElem_drop]
  congr 2
  omega

theorem Scoped.beyond (h : Scoped S L c env) (j : Nat) :
    env[c.frame.scope.locals.length + j]? = S.outer[j]? := by
  have hlen := h.length
  have hnames := length_names c.frame
  have hzip : ((c.frame.scope.labels.map Prod.fst).zip (L.drop S.frame.localsBase).reverse).length =
      c.frame.scope.locals.length := by
    rw [List.length_zip, List.length_reverse, hnames, List.length_drop]
    omega
  rw [h.env_eq, List.getElem?_append_right (by omega), hzip, Nat.add_sub_cancel_left]

theorem Scoped.findIdx? (h : Scoped S L c env)
    (hc : A.Captured γ S.frame.closure.captures S.captures S.enclosing S.outer) (name : String) :
    (env.map Prod.fst).findIdx? (· = name) =
      match c.frame.scope.slot? name with
      | some slot => some (c.frame.scope.locals.length - 1 - slot)
      | none => ((namesOf S.enclosing).findIdx? (· = name)).map (c.frame.scope.locals.length + ·) := by
  rw [h.names hc]
  exact Lowering.findIdx?_namesOf_cons name c.frame S.enclosing

theorem finds_resolve {id : Ident} {b : Binding} (hs : Scoped S L c env)
    (hc : A.Captured γ S.frame.closure.captures S.captures S.enclosing S.outer)
    (hf : Fit S 1 c (Lowering.resolve id c).2) (hb : (Lowering.resolve id c).1 = some b) :
    Finds S γ L env id.name b := by
  have hroom := hf.room32
  have hidx := hs.findIdx? hc id.name
  rcases Lowering.resolve_cases id c with ⟨slot, hslot, he⟩ | ⟨hslot, j, f, gs, hfrom, he⟩ |
    ⟨hslot, hnone, slot, hg, -, he⟩ | ⟨cause, -, he⟩
  · rw [he] at hb
    obtain rfl := Option.some.inj hb
    have hlt : slot < c.frame.scope.locals.length := Lowering.slotIn?_lt hslot
    have hfit : slot.toUInt32.toNat = slot := by
      have := hroom.frame.locals
      exact Word.toNat_toUInt32 (by omega)
    obtain ⟨e, he, hL⟩ := hs.slot hlt
    rw [hslot] at hidx
    refine ⟨e.2, lookup_of_findIdx? hidx he, ?_⟩
    rw [hfit]
    exact hL
  · rw [he] at hb hf
    obtain rfl := Option.some.inj hb
    obtain ⟨y, p, hy, ht, hfirst⟩ := Lowering.captureFrom_target hfrom
      fun g hg => hroom.enclosing g hg
    have hpasses : List.Forall₂ Lowering.Frame.Passes gs S.enclosing := hf.enclosing
    have hcaptures : f.captures <+: S.captures := hf.captures
    have hfit : j.toUInt32.toNat = j := by
      obtain ⟨hcap, -⟩ := Lowering.captureFrom_spec hfrom
      have h₁ := hcap.index
      have h₂ := hcap.count
      have h₃ := hroom.frame.captures
      exact Word.toNat_toUInt32 (by omega)
    have hy' : S.captures[j]? = some y := by
      obtain ⟨rest, hrest⟩ := hcaptures
      rw [← hrest, List.getElem?_append_left (List.getElem?_eq_some_iff.1 hy).1]
      exact hy
    obtain ⟨ref, q, e, href, htq, heq, hl⟩ := hc.cells j y hy'
    obtain rfl := Option.some.inj ((Lowering.target_passes hpasses ht).symm.trans htq)
    rw [hslot, Lowering.namesOf_passes hpasses, hfirst] at hidx
    refine ⟨e.2, ref, lookup_of_findIdx? hidx ?_, ?_, hl⟩
    · rw [hs.beyond]
      exact heq
    · rw [hfit]
      exact href
  · rw [he] at hb hf
    obtain rfl := Option.some.inj hb
    have hout : (namesOf S.enclosing).findIdx? (· = id.name) = none := by
      rw [Lowering.namesOf_passes hf.enclosing]
      exact Lowering.findIdx?_of_captureFrom_none hnone
    rw [hslot, hout] at hidx
    have hglobal : A.setting.globals.findIdx? (· = id.name) = some slot := by
      rw [← hf.names, ← hg]
      unfold Globals.names Globals.slot?
      rw [List.findIdx?_map]
      rfl
    have hfit : slot.toUInt32.toNat = slot := by
      have hlt := (List.findIdx?_eq_some_iff_getElem.1 hglobal).1
      have := A.countable
      exact Word.toNat_toUInt32 (by omega)
    refine ⟨lookup_of_findIdx?_none hidx, ?_⟩
    rw [hfit]
    exact hglobal
  · rw [he] at hb
    cases hb

theorem localSlot_of_state {slot : UInt32} (h : State S γ L o st m w) :
    localSlot slot m = .ok (S.frame.localsBase + slot.toNat) m := by
  unfold localSlot
  rw [h.frame]

theorem capturedCell_of_state (h : State S γ L o st m w)
    (hr : S.frame.closure.captures[index.toNat]? = some ref) :
    capturedCell index m = .ok ref m := by
  unfold capturedCell
  rw [h.frame, hr]

/-- A global without a value fails with its slot. -/
theorem missing_eq {slot : UInt32} (hs : A.setting.globals.findIdx? (· = name) = some slot.toNat) :
    (missing A.setting name : Eval α) w = .error (.fault (.undefinedGlobal slot)) w := by
  unfold missing
  rw [hs]
  show EStateM.Result.error (Stop.fault (.undefinedGlobal slot.toNat.toUInt32)) w = _
  rw [Word.toUInt32_toNat]

/-- The value of a local and that of its place. -/
theorem State.local (h : State S γ L o st m w) (hL : L[j]? = some p) :
    ∃ v x, m.locals[j]? = some v ∧ w.places[p]? = some x ∧ A.Matches γ v x := by
  have hj : j < m.locals.size := by
    rw [h.size]
    exact (List.getElem?_eq_some_iff.1 hL).1
  obtain ⟨x, hx, hm⟩ := h.rel.locals j _ p (Array.getElem?_eq_getElem hj) hL
  exact ⟨_, x, Array.getElem?_eq_getElem hj, hx, hm⟩

theorem load_of_place (h : w.places[p]? = some x) : load p w = .ok x w := by
  unfold load
  rw [h]

theorem State.pushed (h : State S γ L o st m w) (hv : A.Matches γ v x) :
    Yields S γ L o st x w { m with stack := v :: m.stack } := by
  rw [h.stack]
  exact (h.withStack (v :: st)).yields hv

theorem State.gets_local {slot : UInt32} (h : State S γ L o st m w)
    (hL : L[S.frame.localsBase + slot.toNat]? = some p)
    (hp : Placed S.code o (emit ⟨.getLocal, slot⟩ span)) :
    A.Sim n m (Yields S γ L (o + 5) st) (load p w) := by
  obtain ⟨v, x, hv, hx, hm⟩ := h.local hL
  have hget (next : Nat) : getLocal (S.frame.localsBase + slot.toNat) (m.movedTo next) =
      .ok v (m.movedTo next) := by
    unfold getLocal
    simp only [hv]
  rw [load_of_place hx]
  exact h.executes hp trivial fun h₁ =>
    ⟨_, (bind_ok (localSlot_of_state h₁)).trans (bind_ok (hget _)), h₁.pushed hm⟩

theorem State.gets_captured (h : State S γ L o st m w)
    (hr : S.frame.closure.captures[index.toNat]? = some ref) (hl : A.Leads γ ref p)
    (hp : Placed S.code o (emit ⟨.getUpvalue, index⟩ span)) :
    A.Sim n m (Yields S γ L (o + 5) st) (load p w) := by
  obtain ⟨v, x, hx, hm, hcell⟩ := h.rel.read_cell h.size hl
  have hread (next : Nat) : readCell ref (m.movedTo next) = .ok v (m.movedTo next) := by
    rcases hcell with hc | ⟨hc, -, hv⟩
    · exact readCell_of_closed hc
    · rw [readCell_of_open (m := m.movedTo next) hc, getLocal]
      simp only [hv]
  rw [load_of_place hx]
  exact h.executes hp trivial fun h₁ =>
    ⟨_, (bind_ok (capturedCell_of_state h₁ hr)).trans (bind_ok (hread _)), h₁.pushed hm⟩

theorem State.gets_global {slot : UInt32} (h : State S γ L o st m w)
    (hs : A.setting.globals.findIdx? (· = name) = some slot.toNat)
    (hp : Placed S.code o (emit ⟨.getGlobal, slot⟩ span)) :
    A.Sim n m (Yields S γ L (o + 5) st) (readGlobal A.setting name w) := by
  unfold readGlobal
  rcases h.rel.lookup_global hs with ⟨v, x, hv, -, hx, hm⟩ | ⟨hnone, hx⟩
  · have hget (next : Nat) : getGlobal slot (m.movedTo next) = .ok v (m.movedTo next) := by
      unfold getGlobal
      simp only [hv]
    rw [hx]
    exact h.executes hp trivial fun h₁ => ⟨_, bind_ok (hget _), h₁.pushed hm⟩
  · have hget (next : Nat) :
        getGlobal slot (m.movedTo next) = .error (.undefinedGlobal slot) (m.movedTo next) := by
      unfold getGlobal
      simp only [hnone]
    rw [hx]
    show A.Sim n m _ (missing A.setting name w)
    rw [missing_eq hs]
    exact h.fails hp trivial m.stack (bind_error (hget _))

theorem State.gets {b : Binding} (h : State S γ L o st m w) (hb : Finds S γ L env name b)
    (hp : Placed S.code o (b.get span)) :
    A.Sim n m (Yields S γ L (o + (b.get span).size) st) (read A.setting env name w) := by
  unfold read
  cases b with
  | «local» slot =>
    obtain ⟨p, hlookup, hL⟩ := hb
    rw [hlookup]
    exact h.gets_local hL hp
  | captured index =>
    obtain ⟨p, ref, hlookup, hr, hl⟩ := hb
    rw [hlookup]
    exact h.gets_captured hr hl hp
  | global slot =>
    obtain ⟨hlookup, hs⟩ := hb
    rw [hlookup]
    exact h.gets_global hs hp

/-- A local and its place get a new value. -/
theorem State.assigned (h : State S γ L o st m w) (hL : L[j]? = some p) (hv : A.Matches γ v x) :
    setLocal j v m = .ok () { m with locals := m.locals.setIfInBounds j v } ∧
      State S γ L o st { m with locals := m.locals.setIfInBounds j v }
        { w with places := w.places.set p x } := by
  have hj : j < m.locals.size := by
    rw [h.size]
    exact (List.getElem?_eq_some_iff.1 hL).1
  refine ⟨setLocal_of_lt hj, { h with rel := h.rel.assign hL hv }, ?_⟩
  show (m.locals.setIfInBounds j v).size = L.length
  rw [Array.size_setIfInBounds]
  exact h.size

theorem State.sets_local {slot : UInt32} (h : State S γ L o (v :: st) m w) (hv : A.Matches γ v x)
    (hL : L[S.frame.localsBase + slot.toNat]? = some p)
    (hp : Placed S.code o (emit ⟨.setLocal, slot⟩ span)) :
    A.Goes m fun m' => State S γ L (o + 5) (v :: st) m' { w with places := w.places.set p x } := by
  refine h.executes hp trivial fun h₁ => ?_
  obtain ⟨hset, h₂⟩ := h₁.assigned hL hv
  exact ⟨_, (bind_ok (peek_of_stack h₁.stack)).trans ((bind_ok (localSlot_of_state h₁)).trans
    (bind_ok hset)), h₂⟩

theorem State.sets_captured (h : State S γ L o (v :: st) m w) (hv : A.Matches γ v x)
    (hr : S.frame.closure.captures[index.toNat]? = some ref) (hl : A.Leads γ ref p)
    (hp : Placed S.code o (emit ⟨.setUpvalue, index⟩ span)) :
    A.Goes m fun m' => State S γ L (o + 5) (v :: st) m' { w with places := w.places.set p x } := by
  refine h.executes hp trivial fun h₁ => ?_
  have hfound := (bind_ok (f := fun r => peek >>= fun v => writeCell r v >>= fun _ => pure Status.running)
    (capturedCell_of_state h₁ hr)).trans (bind_ok (peek_of_stack h₁.stack))
  obtain ⟨u, -, -, -, hcell⟩ := h₁.rel.read_cell h₁.size hl
  rcases hcell with hc | ⟨hc, hL, -⟩
  · exact ⟨_, hfound.trans (bind_ok (writeCell_of_closed hc)),
      { h₁ with rel := h₁.rel.assignCell hl hc hv }, h₁.size⟩
  · obtain ⟨hset, h₂⟩ := h₁.assigned hL hv
    exact ⟨_, hfound.trans (bind_ok ((writeCell_of_open hc).trans hset)), h₂⟩

theorem State.sets_global {slot : UInt32} (h : State S γ L o (v :: st) m w) (hv : A.Matches γ v x)
    (hs : A.setting.globals.findIdx? (· = name) = some slot.toNat)
    (hp : Placed S.code o (emit ⟨.setGlobal, slot⟩ span)) :
    A.Sim n m (fun _ w' m' => State S γ L (o + 5) (v :: st) m' w')
      (writeGlobal A.setting name x w) := by
  unfold writeGlobal
  rcases h.rel.lookup_global hs with ⟨u, z, hu, hz, hy, -⟩ | ⟨hnone, hy⟩
  · have hlt : slot.toNat < m.globals.size := (Array.getElem?_eq_some_iff.1 hu).1
    have hset (next : Nat) : setGlobal slot v (m.movedTo next) = .ok () { m.movedTo next with
        globals := m.globals.setIfInBounds slot.toNat v } := if_pos hlt
    rw [hy]
    exact h.executes hp trivial fun h₁ => ⟨_, (bind_ok (peek_of_stack h₁.stack)).trans
      (bind_ok (hset _)), { h₁ with rel := h₁.rel.assignGlobal hz hv }, h₁.size⟩
  · have hlt : ¬ slot.toNat < m.globals.size := Nat.not_lt.2 (Array.getElem?_eq_none_iff.1 hnone)
    have hset (next : Nat) :
        setGlobal slot v (m.movedTo next) = .error (.undefinedGlobal slot) (m.movedTo next) := if_neg hlt
    rw [hy]
    show A.Sim n m _ (missing A.setting name w)
    rw [missing_eq hs]
    exact h.fails hp trivial m.stack ((bind_ok (peek_of_stack (h.movedTo _).stack)).trans (bind_error (hset _)))

theorem State.sets {b : Binding} (h : State S γ L o (v :: st) m w) (hv : A.Matches γ v x)
    (hb : Finds S γ L env name b) (hp : Placed S.code o (b.set span)) :
    A.Sim n m (fun _ w' m' => State S γ L (o + (b.set span).size) (v :: st) m' w')
      (write A.setting env name x w) := by
  unfold write
  cases b with
  | «local» slot =>
    obtain ⟨p, hlookup, hL⟩ := hb
    rw [hlookup]
    exact h.sets_local hv hL hp
  | captured index =>
    obtain ⟨p, ref, hlookup, hr, hl⟩ := hb
    rw [hlookup]
    exact h.sets_captured hv hr hl hp
  | global slot =>
    obtain ⟨hlookup, hs⟩ := hb
    rw [hlookup]
    exact h.sets_global hv hs hp

/-! ## Declaring and dropping locals -/

theorem Poised.defines_local (h : Poised S γ (L ++ [p]) o (v :: st) m w)
    (hsize : m.locals.size = L.length) (hx : w.places[p]? = some x) (hv : A.Matches γ v x)
    (hp : Placed S.code o (emit ⟨.defLocal, ()⟩ span)) :
    A.Goes m fun m' => State S γ (L ++ [p]) (o + 1) st m' w := by
  have h₁ := h.movedTo (o + 1)
  have he := (h.step (hp.fetch trivial)).trans (bind_ok (pop_of_stack h₁.stack))
  have hlast : (L ++ [p])[m.locals.size]? = some p := by
    rw [hsize]
    simp
  refine Moves.goes ⟨_, he, .refl ⟨⟨h₁.frame, h₁.callers, rfl, h₁.rel.fill hlast hx hv,
    h₁.captured⟩, ?_⟩⟩
  show (m.locals.push v).size = _
  rw [Array.size_push, hsize, List.length_append, List.length_singleton]

theorem State.defines_local (h : State S γ L o (v :: st) m w) (hv : A.Matches γ v x)
    (hp : Placed S.code o (emit ⟨.defLocal, ()⟩ span)) :
    A.Goes m fun m' => State S γ (L ++ [w.places.length]) (o + 1) st m'
      { w with places := w.places ++ [x] } := by
  have hr : Poised S γ (L ++ [w.places.length]) o (v :: st) m { w with places := w.places ++ [x] } :=
    { h with rel := h.rel.reserve h.size x }
  exact hr.defines_local h.size (by simp) hv hp

theorem Scoped.declare (h : Scoped S L c env) (name : String) (p : Nat) :
    Scoped S (L ++ [p]) (Lowering.addLocal name c).2 ((name, p) :: env) := by
  have hlen := h.length
  refine ⟨?_, ?_⟩
  · show (name, p) :: env = (name :: c.frame.scope.labels.map Prod.fst).zip _ ++ S.outer
    rw [List.drop_append_of_le_length (by omega), List.reverse_append, h.env_eq]
    rfl
  · show S.frame.localsBase + (c.frame.scope.locals.length + 1) = _
    rw [List.length_append, List.length_singleton]
    omega

theorem State.dropped {k : Nat} (h : State S γ L o st m w) (hk : k ≤ L.length) :
    ∃ m', dropLocals k m = .ok () m' ∧ State S γ (L.take (L.length - k)) o st m' w := by
  have he : dropLocals k m = (if k ≤ m.locals.size then
    truncateLocals (m.locals.size - k) else throw .stackUnderflow : Exec Unit) m := rfl
  rw [h.size, if_pos hk] at he
  refine ⟨_, he, { h with rel := h.rel.truncate h.size _ }, ?_⟩
  show (m.locals.shrink (L.length - k)).size = _
  rw [Array.size_shrink, List.length_take, h.size]

theorem State.drops {k : Nat} (h : State S γ L o st m w) (hk : k ≤ L.length)
    (hp : Placed S.code o (emit i span)) (hc : i.op.format.Countable i.args)
    (he : ∀ m', execute A.host o (o + i.size) i.op i.args m' =
      (dropLocals k >>= fun _ => pure Status.running : Exec _) m') :
    A.Goes m fun m' => State S γ (L.take (L.length - k)) (o + (emit i span).size) st m' w := by
  rw [Fragment.size_emit]
  refine h.executes hp hc fun h₁ => ?_
  obtain ⟨m₂, hd, h₂⟩ := h₁.dropped hk
  exact ⟨m₂, (he _).trans (bind_ok hd), h₂⟩

theorem State.drops_locals {k : Nat} (h : State S γ L o st m w) (hk : k ≤ L.length)
    (hL : L.length < 2 ^ 32) (hp : Placed S.code o (Lowering.dropLocals k span)) :
    A.Goes m fun m' =>
      State S γ (L.take (L.length - k)) (o + (Lowering.dropLocals k span).size) st m' w := by
  match k with
  | 0 =>
    refine Goes.refl ?_
    rw [Nat.sub_zero, List.take_length]
    exact h
  | 1 => exact h.drops hk (i := ⟨.popLocal, ()⟩) hp trivial fun _ => rfl
  | k + 2 =>
    have hfit : (k + 2).toUInt32.toNat = k + 2 := Word.toNat_toUInt32 (by omega)
    refine h.drops hk (i := ⟨.popnLocal, (k + 2).toUInt32⟩) hp trivial fun m₁ => ?_
    show (dropLocals (k + 2).toUInt32.toNat >>= fun _ => pure Status.running :
      Exec _) m₁ = _
    rw [hfit]

theorem State.releases {ls : List Local} (h : State S γ L o st m w) (run : Nat)
    (hk : run + ls.length ≤ L.length) (hL : L.length < 2 ^ 32)
    (hp : Placed S.code o (releaseAfter run span ls)) :
    A.Goes m fun m' => State S γ (L.take (L.length - (run + ls.length)))
      (o + (releaseAfter run span ls).size) st m' w := by
  induction ls generalizing run o L m with
  | nil => exact h.drops_locals hk hL hp
  | cons l ls ih =>
    rw [List.length_cons] at hk ⊢
    unfold releaseAfter at hp ⊢
    split at hp
    · rename_i hc
      rw [if_pos hc]
      have h₁ := h.drops_locals (k := run) (by omega) hL hp.left.left
      refine h₁.bind fun m₁ h₁ => ?_
      have hlen₁ : (L.take (L.length - run)).length = L.length - run := by
        rw [List.length_take]
        omega
      have h₂ := h₁.drops (k := 1) (by omega) (i := ⟨.closeUpvalue, ()⟩) hp.left.right trivial fun _ => rfl
      refine h₂.bind fun m₂ h₂ => ?_
      rw [hlen₁, List.take_take, Nat.min_eq_left (by omega)] at h₂
      have hlen₂ : (L.take (L.length - run - 1)).length = L.length - run - 1 := by
        rw [List.length_take]
        omega
      rw [Nat.add_assoc, ← Fragment.size_append] at h₂
      have h₃ := ih h₂ 0 (by omega) (by omega) hp.right
      rw [hlen₂, List.take_take, Nat.min_eq_left (by omega)] at h₃
      rw [show L.length - (run + (ls.length + 1)) = L.length - run - 1 - (0 + ls.length) by omega,
        Fragment.size_append, ← Nat.add_assoc]
      exact h₃
    · rename_i hc
      rw [if_neg hc]
      have h₁ := ih h (run + 1) (by omega) hL hp
      rw [show run + (ls.length + 1) = run + 1 + ls.length by omega]
      exact h₁

end StackScript.Semantics.Pairing
