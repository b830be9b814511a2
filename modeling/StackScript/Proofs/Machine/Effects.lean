import StackScript.Proofs.Machine.Contents
import StackScript.Proofs.Machine.Running

/-!
# What a step changes

Most instructions work on the stack alone. `Effect` says for each instruction what it does to the
variables and to the calls if it succeeds. All that is said about runs below follows from it.
-/

namespace StackScript.Machine

variable {v : Value} {ref : CellRef} {op : Opcode} {index : UInt32} {a : Unit} {stack : List Value}
  {xs : Array Value} {m m' : Machine}

/-! ## The stack alone -/

/-- All variables and calls are as in the first machine, and the innermost call goes on at an
offset. -/
structure Rests (Q : Value.Code → Prop) (base : Store) (m₀ : Machine) (ip : Nat) (m : Machine) :
    Prop where
  frame : m.frame = { m₀.frame with ip }
  callers : m.callers = m₀.callers
  locals : m.locals = m₀.locals
  globals : m.globals = m₀.globals
  cells : m.store.cells = m₀.store.cells
  openCells : m.openCells = m₀.openCells
  kept : m.Kept Q base

variable {Q : Value.Code → Prop} {base : Store} {m₀ : Machine} {ip : Nat}

theorem Rests.withStack (h : Rests Q base m₀ ip m) (hs : ∀ v ∈ stack, v.Within Q base) :
    Rests Q base m₀ ip { m with stack } :=
  { h with kept := { h.kept with stack := hs } }

/-- Nothing is changed by keeping books on the store. -/
theorem Rests.withStore {store : Store} (h : Rests Q base m₀ ip m)
    (hc : store.cells = m.store.cells) (hs : store.Within Q base) :
    Rests Q base m₀ ip { m with store } :=
  { h with cells := hc.trans h.cells, kept := { h.kept with store := hs } }

theorem Rests.ofKept (hip : m.frame.ip = ip) (h : ({ m with stack } : Machine).Kept Q base) :
    Rests Q base m ip { m with stack } :=
  ⟨by rw [← hip], rfl, rfl, rfl, rfl, rfl, h⟩

theorem Rests.refl (h : m.Kept Q base) (hip : m.frame.ip = ip) : Rests Q base m ip m :=
  ⟨by rw [← hip], rfl, rfl, rfl, rfl, rfl, h⟩

theorem Kept.movedTo (h : m.Kept Q base) (ip : Nat) : (m.movedTo ip).Kept Q base := by
  refine { h with frames := fun f hf => ?_ }
  rcases List.mem_cons.1 hf with rfl | hf
  · exact h.frames m.frame (List.mem_cons_self ..)
  · exact h.frames f (List.mem_cons_of_mem _ hf)

theorem Rests.movedTo (h : Rests Q base m₀ ip m) (target : Nat) :
    Rests Q base m₀ target (m.movedTo target) :=
  { h with frame := by simp [h.frame], kept := h.kept.movedTo target }

/-! ## Variables -/

/-- The value of a captured variable: what its cell was closed over or, until then, the local. -/
def denoted (m : Machine) (ref : CellRef) : Option Value :=
  match (m.store.cell ref).closed with
  | some v => some v
  | none => m.locals[(m.store.cell ref).slot.toNat]?

theorem denoted_congr (hc : m'.store.cells = m.store.cells) (hl : m'.locals = m.locals)
    (ref : CellRef) : m'.denoted ref = m.denoted ref := by
  simp [denoted, Store.cell, hc, hl]

theorem readCell_eq (ref : CellRef) (m : Machine) : readCell ref m = match m.denoted ref with
    | some v => .ok v m
    | none => .error (.invalidLocal (m.store.cell ref).slot.toNat) m := by
  unfold denoted
  cases hc : (m.store.cell ref).closed with
  | some w => exact readCell_of_closed hc
  | none => exact readCell_of_open hc

theorem Kept.denoted (h : m.Kept Q base) (hr : base.cells.size ≤ ref.index)
    (hv : m.denoted ref = some v) : v.Within Q base := by
  unfold Machine.denoted at hv
  cases hc : (m.store.cell ref).closed with
  | some w =>
    rw [hc] at hv
    cases hv
    exact h.store.cell hr hc
  | none =>
    rw [hc] at hv
    exact h.locals v (Array.mem_of_getElem? hv)

/-- The machine with the locals from a position on dropped, and their cells closed. -/
def truncated (size : Nat) (m : Machine) : Machine :=
  { m with
    store := (m.openCells.partition fun ref => (m.store.cell ref).slot.toNat < size).2.foldl
      (closeCell m.locals) m.store
    openCells := (m.openCells.partition fun ref => (m.store.cell ref).slot.toNat < size).1
    locals := m.locals.shrink size }

theorem getElem?_shrink {size j : Nat} (h : j < (xs.shrink size).size) :
    (xs.shrink size)[j]? = xs[j]? := by
  have hj : j < xs.size := by
    rw [Array.size_shrink] at h
    omega
  rw [Array.getElem?_eq_getElem h, Array.getElem_shrink, Array.getElem?_eq_getElem hj]

theorem dropLocals_eq (n : Nat) (m : Machine) : dropLocals n m =
    if n ≤ m.locals.size then .ok () (m.truncated (m.locals.size - n))
    else .error .stackUnderflow m := by
  have he : dropLocals n m = (if n ≤ m.locals.size then truncateLocals (m.locals.size - n)
    else throw .stackUnderflow : Exec Unit) m := rfl
  rw [he]
  split <;> rfl

/-- The machine with another value in a captured variable. -/
def written (ref : CellRef) (v : Value) (m : Machine) : Machine :=
  match (m.store.cell ref).closed with
  | some _ => { m with store := m.store.setCell ref { m.store.cell ref with closed := some v } }
  | none => { m with locals := m.locals.setIfInBounds (m.store.cell ref).slot.toNat v }

@[simp] theorem written_frame : (m.written ref v).frame = m.frame := by
  unfold written
  split <;> rfl

@[simp] theorem written_callers : (m.written ref v).callers = m.callers := by
  unfold written
  split <;> rfl

@[simp] theorem written_globals : (m.written ref v).globals = m.globals := by
  unfold written
  split <;> rfl

theorem writeCell_cases (ref : CellRef) (v : Value) (m : Machine) :
    ((m.store.cell ref).closed = none → (m.store.cell ref).slot.toNat < m.locals.size) ∧
        writeCell ref v m = .ok () (m.written ref v) ∨
      writeCell ref v m = .error (.invalidLocal (m.store.cell ref).slot.toNat) m := by
  unfold written
  cases hc : (m.store.cell ref).closed with
  | some w => exact .inl ⟨nofun, writeCell_of_closed hc⟩
  | none =>
    rw [writeCell_of_open hc]
    by_cases hlt : (m.store.cell ref).slot.toNat < m.locals.size
    · exact .inl ⟨fun _ => hlt, if_pos hlt⟩
    · exact .inr (if_neg hlt)

theorem Kept.truncated (h : m.Kept Q base) (size : Nat) : (m.truncated size).Kept Q base where
  stack := h.stack
  locals v hv := by
    have hv' : v ∈ m.locals.shrink size := hv
    rw [Array.mem_def, Array.toList_shrink] at hv'
    exact h.locals v (Array.mem_def.2 (List.mem_of_mem_take hv'))
  globals := h.globals
  store := h.store.closeCells h.locals _
  openCells ref hr := by
    have hr' : ref ∈ (m.openCells.partition fun ref => (m.store.cell ref).slot.toNat < size).1 := hr
    rw [List.partition_eq_filter_filter] at hr'
    exact h.openCells ref (List.mem_filter.1 hr').1
  frames := h.frames

theorem within_of_mem_setIfInBounds {i : Nat} {w : Value} (hx : ∀ w ∈ xs, w.Within Q base)
    (hv : v.Within Q base) (hw : w ∈ xs.setIfInBounds i v) : w.Within Q base := by
  rw [Array.mem_def, Array.toList_setIfInBounds] at hw
  rcases List.mem_or_eq_of_mem_set hw with hw | rfl
  · exact hx w (Array.mem_def.2 hw)
  · exact hv

theorem within_of_mem_push {w : Value} (hx : ∀ w ∈ xs, w.Within Q base) (hv : v.Within Q base)
    (hw : w ∈ xs.push v) : w.Within Q base := by
  rcases Array.mem_push.1 hw with hw | rfl
  · exact hx w hw
  · exact hv

theorem Kept.written (h : m.Kept Q base) (hv : v.Within Q base) :
    (m.written ref v).Kept Q base := by
  unfold Machine.written
  split
  · exact { h with store := h.store.setCell (by
      rintro _ ⟨⟩
      exact hv) }
  · exact { h with locals := fun w hw => within_of_mem_setIfInBounds h.locals hv hw }

theorem capturedCell_ok (h : capturedCell index m = .ok ref m') :
    m.frame.closure.captures[index.toNat]? = some ref ∧ m' = m := by
  rcases capturedCell_cases index m with ⟨ref', hr, hcell⟩ | hcell
  · rw [hcell] at h
    cases h
    exact ⟨hr, rfl⟩
  · rw [hcell] at h
    cases h

theorem makeClosure_ok {captures : List Capture} (hx : makeClosure index captures m = .ok a m') :
    ∃ f cells m₁, constant index m = .ok (.function f) m ∧ captureCells 0 captures m = .ok cells m₁ ∧
      (inStore (Store.newObject ⟨f.body, cells⟩) >>= fun c => push (.closure c)) m₁ = .ok a m' := by
  obtain ⟨v, m₁, hv, hx⟩ := exists_of_bind_ok hx
  obtain rfl : m₁ = m := by
    unfold constant at hv
    split at hv <;> cases hv
    rfl
  cases v with
  | function f =>
    obtain ⟨cells, m₂, hcells, hx⟩ := exists_of_bind_ok hx
    exact ⟨f, cells, m₂, hv, hcells, hx⟩
  | _ => cases hx

theorem leave_eq (result : Value) (m : Machine) : leave result m =
    match m.callers with
    | [] => .ok .finished { m.truncated m.frame.localsBase with
        stack := m.stack.drop (m.stack.length - m.frame.stackBase) }
    | frame :: callers => .ok .running { m.truncated m.frame.localsBase with
        stack := result :: m.stack.drop (m.stack.length - m.frame.stackBase), frame, callers } := by
  cases m with
  | mk store stack locals globals frame callers openCells calls => cases callers <;> rfl

/-! ## Operators -/

section

variable {a b : Value}

theorem isScalar_arithmetic {op : Arithmetic} (h : arithmetic op a b = .ok v) :
    v.isScalar = true := by
  unfold arithmetic at h
  split at h
  · cases hr : Integer.apply op _ _ with
    | ok x =>
      rw [hr] at h
      cases h
      rfl
    | error e =>
      rw [hr] at h
      cases h
  · cases h
    rfl
  · cases h
    rfl
  · split at h <;> cases h
    rfl

theorem isScalar_compared {accept : Ordering → Bool} (h : compared op accept a b = .ok v) :
    v.isScalar = true := by
  unfold compared at h
  split at h <;> cases h
  rfl

theorem isScalar_ranged {inclusive : Bool} (h : ranged op inclusive a b = .ok v) :
    v.isScalar = true := by
  unfold ranged at h
  split at h <;> cases h
  rfl

end

/-! ## Instructions -/

/-- Where an instruction leads to, if it does not change the calls. -/
def Targets (next : Nat) (t : Nat) : (op : Opcode) → op.format.Args → Prop
  | .jump, distance => t = next + distance.toNat
  | .jumpTrue, distance | .jumpFalse, distance | .jumpHasNoNext, distance =>
    t = next ∨ t = next + distance.toNat
  | .loop, distance => distance.toNat ≤ next ∧ t = next - distance.toNat
  | _, _ => t = next

/-- A call has begun: its callee and its arguments are the newest locals. -/
structure Enters (Q : Value.Code → Prop) (base : Store) (m₀ : Machine) (next argc : Nat)
    (m : Machine) : Prop where
  callee : Q m.frame.closure
  arity : argc.toUInt32 = m.frame.closure.function.arity
  ip : m.frame.ip = 0
  localsBase : m.frame.localsBase = m₀.locals.size
  callers : m.callers = { m₀.frame with ip := next } :: m₀.callers
  depth : m.callers.length < maxFrames
  locals : ∃ arguments : List Value, arguments.length = argc + 1 ∧
    m.locals = m₀.locals ++ arguments.toArray
  globals : m.globals = m₀.globals
  cells : m.store.cells = m₀.store.cells
  openCells : m.openCells = m₀.openCells
  kept : m.Kept Q base

/-- What a call does: it comes to its end at once, or it begins. -/
def Calls (Q : Value.Code → Prop) (base : Store) (m₀ : Machine) (ip argc : Nat) (m : Machine) : Prop :=
  Rests Q base m₀ ip m ∨ Enters Q base m₀ ip argc m

/-- What an instruction that is followed by the one at `next` does to variables and calls. -/
def Effect (Q : Value.Code → Prop) (base : Store) (m : Machine) (next : Nat) :
    (op : Opcode) → op.format.Args → Status → Machine → Prop
  | .pushClosure, (index, captures), status, m' => status = .running ∧ ∃ f cells m₁ key,
      m.frame.closure.function.chunk.constants[index.toNat]? = some (.function f) ∧
      captureCells 0 captures m = .ok cells m₁ ∧
      m'.stack = .closure ⟨key, f.body, cells⟩ :: m.stack ∧ Rests Q base m₁ next m'
  | .defLocal, _, status, m' => status = .running ∧ ∃ v, m.stack.head? = some v ∧
      Rests Q base { m with locals := m.locals.push v } next m'
  | .setLocal, slot, status, m' => status = .running ∧ ∃ v, m.stack.head? = some v ∧
      m.frame.localsBase + slot.toNat < m.locals.size ∧ Rests Q base
        { m with locals := m.locals.setIfInBounds (m.frame.localsBase + slot.toNat) v } next m'
  | .popLocal, _, status, m' | .closeUpvalue, _, status, m' => status = .running ∧
      1 ≤ m.locals.size ∧ Rests Q base (m.truncated (m.locals.size - 1)) next m'
  | .popnLocal, n, status, m' => status = .running ∧ n.toNat ≤ m.locals.size ∧
      Rests Q base (m.truncated (m.locals.size - n.toNat)) next m'
  | .getUpvalue, index, status, m' => status = .running ∧ ∃ ref v,
      m.frame.closure.captures[index.toNat]? = some ref ∧ m.denoted ref = some v ∧
      m'.stack = v :: m.stack ∧ Rests Q base m next m'
  | .setUpvalue, index, status, m' => status = .running ∧ ∃ ref v,
      m.frame.closure.captures[index.toNat]? = some ref ∧ m.stack.head? = some v ∧
      ((m.store.cell ref).closed = none → (m.store.cell ref).slot.toNat < m.locals.size) ∧
      Rests Q base (m.written ref v) next m'
  | .defGlobal, _, status, m' => status = .running ∧ ∃ v, m.stack.head? = some v ∧
      Rests Q base { m with globals := m.globals.push v } next m'
  | .getGlobal, slot, status, m' => status = .running ∧ ∃ v,
      m.globals[slot.toNat]? = some v ∧ m'.stack = v :: m.stack ∧ Rests Q base m next m'
  | .setGlobal, slot, status, m' => status = .running ∧ ∃ v, m.stack.head? = some v ∧
      slot.toNat < m.globals.size ∧
      Rests Q base { m with globals := m.globals.setIfInBounds slot.toNat v } next m'
  | .call, argc, status, m' | .callProperty, (_, argc), status, m' => status = .running ∧
      Calls Q base m next argc.toNat m'
  | .return, _, status, m' | .returnVoid, _, status, m' =>
    match m.callers with
    | [] => status = .finished ∧ Rests Q base (m.truncated m.frame.localsBase) m.frame.ip m'
    | frame :: callers => status = .running ∧
      Rests Q base { m.truncated m.frame.localsBase with frame, callers } frame.ip m'
  | .exitSuccess, _, status, m' => status = .finished ∧ Rests Q base m next m'
  | op, args, status, m' => status = .running ∧ ∃ t, Targets next t op args ∧ Rests Q base m t m'

end StackScript.Machine
