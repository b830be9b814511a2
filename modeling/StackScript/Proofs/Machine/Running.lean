import StackScript.Machine.Step

/-!
# Runs of a machine

A machine reaches a state when it comes there without ending, and it lasts for a number of steps when
none of them ends it. A machine is deterministic, so a state that is reached on the way says all about
what follows.
-/

namespace StackScript.Machine

/-- The machine at an offset of the code of its innermost call. -/
abbrev movedTo (m : Machine) (ip : Nat) : Machine := { m with frame := { m.frame with ip } }

/-- The code of its innermost call. -/
abbrev chunk (m : Machine) : Chunk Value := m.frame.closure.function.chunk

section Exec

variable {α β : Type} {x : Exec α} {f : α → Exec β} {m m' : Machine}

theorem get_bind (f : Machine → Exec β) (m : Machine) : (get >>= f) m = f m m := rfl

theorem bind_ok {a : α} (h : x m = .ok a m') : (x >>= f) m = f a m' := by
  show EStateM.bind x f m = _
  unfold EStateM.bind
  rw [h]

theorem bind_error {e : Fault} (h : x m = .error e m') : (x >>= f) m = .error e m' := by
  show EStateM.bind x f m = _
  unfold EStateM.bind
  rw [h]

theorem exists_of_bind_ok {b : β} (h : (x >>= f) m = .ok b m') :
    ∃ a m₁, x m = .ok a m₁ ∧ f a m₁ = .ok b m' := by
  cases hx : x m with
  | ok a m₁ => exact ⟨a, m₁, rfl, (bind_ok hx).symm.trans h⟩
  | error e m₁ =>
    rw [bind_error hx] at h
    cases h

end Exec

/-- A step executes the instruction that is fetched. -/
theorem step_of_fetch {host : Host} {m : Machine} {i : Instruction} {next : Nat}
    (h : fetch m.chunk m.frame.ip = .ok (i, next)) :
    step host m = execute host m.frame.ip next i.op i.args
      { m with frame := { m.frame with ip := next } } := by
  rw [step, get_bind, h]
  rfl

section Cells

variable {m : Machine} {ref : CellRef} {v w : Value} {slot position : Nat}

theorem readCell_of_closed (h : (m.store.cell ref).closed = some v) : readCell ref m = .ok v m := by
  rw [readCell, get_bind, h]
  rfl

theorem readCell_of_open (h : (m.store.cell ref).closed = none) :
    readCell ref m = getLocal (m.store.cell ref).slot.toNat m := by
  rw [readCell, get_bind, h]

theorem writeCell_of_closed (h : (m.store.cell ref).closed = some w) :
    writeCell ref v m = .ok () { m with
      store := m.store.setCell ref { m.store.cell ref with closed := some v } } := by
  rw [writeCell, get_bind, h]
  rfl

theorem writeCell_of_open (h : (m.store.cell ref).closed = none) :
    writeCell ref v m = setLocal (m.store.cell ref).slot.toNat v m := by
  rw [writeCell, get_bind, h]

theorem openCell_of_find
    (h : m.openCells.find? (fun ref => (m.store.cell ref).slot.toNat = slot) = some ref) :
    openCell slot position m = .ok ref m := by
  rw [openCell, get_bind, h]
  rfl

theorem openCell_of_find_none
    (h : m.openCells.find? (fun ref => (m.store.cell ref).slot.toNat = slot) = none) :
    openCell slot position m = .ok ⟨m.store.cells.size⟩ { m with
      store := { m.store with cells := m.store.cells.push ⟨slot.toUInt32, position.toUInt32, none⟩ }
      openCells := m.openCells ++ [⟨m.store.cells.size⟩] } := by
  rw [openCell, get_bind, h]
  rfl

theorem captureCells_cons (c : Capture) (cs : List Capture) (position : Nat) :
    captureCells position (c :: cs) = if c.fromLocal then do
        let slot ← localSlot c.index
        let ref ← openCell slot position
        let refs ← captureCells (position + 1) cs
        return ref :: refs
      else do
        let ref ← capturedCell c.index
        let refs ← captureCells (position + 1) cs
        return ref :: refs := rfl

end Cells

section Stack

variable {m : Machine} {v : Value} {st : List Value}

theorem pop_of_stack (h : m.stack = v :: st) : pop m = .ok v { m with stack := st } := by
  unfold pop
  rw [h]

theorem peek_of_stack (h : m.stack = v :: st) : peek m = .ok v m := by
  unfold peek
  rw [h]

theorem step_pop (host : Host) {next : Nat}
    (hf : fetch m.chunk m.frame.ip = .ok (⟨.pop, ()⟩, next))
    (hst : m.stack = v :: st) : step host m = .ok .running { m.movedTo next with stack := st } :=
  (step_of_fetch hf).trans (bind_ok (pop_of_stack (m := m.movedTo next) hst))

theorem peek_cases (m : Machine) :
    (∃ v, m.stack.head? = some v ∧ peek m = .ok v m) ∨ peek m = .error .stackUnderflow m := by
  unfold peek
  cases m.stack with
  | nil => exact .inr rfl
  | cons v st => exact .inl ⟨v, rfl, rfl⟩

end Stack

theorem capturedCell_cases (index : UInt32) (m : Machine) :
    (∃ ref, m.frame.closure.captures[index.toNat]? = some ref ∧ capturedCell index m = .ok ref m) ∨
      capturedCell index m = .error (.invalidUpvalue index) m := by
  unfold capturedCell
  cases m.frame.closure.captures[index.toNat]? with
  | none => exact .inr rfl
  | some ref => exact .inl ⟨ref, rfl, rfl⟩

theorem getGlobal_cases (slot : UInt32) (m : Machine) :
    (∃ v, m.globals[slot.toNat]? = some v ∧ getGlobal slot m = .ok v m) ∨
      m.globals.size ≤ slot.toNat ∧ getGlobal slot m = .error (.undefinedGlobal slot) m := by
  unfold getGlobal
  cases hv : m.globals[slot.toNat]? with
  | none => exact .inr ⟨Array.getElem?_eq_none_iff.1 hv, rfl⟩
  | some v => exact .inl ⟨v, rfl, rfl⟩

theorem setProperty_eq (receiver : Value) (name : String) (v : Value) (m : Machine) :
    setProperty receiver name v m = .error (.noSuchProperty name (ownerName m.store receiver)) m ∨
    ∃ ref i j, receiver = .instanceOf ref ∧ m.store.instance? ref = some i ∧ i.set? name v = some j ∧
      setProperty receiver name v m = .ok () { m with store := m.store.setInstance ref j } := by
  unfold setProperty
  rw [get_bind]
  cases receiver with
  | instanceOf ref =>
    cases hc : (m.store.instance? ref).bind fun i =>
      (i.set? name v).map fun i => m.store.setInstance ref i with
    | none => exact .inl (by simp only [hc]; rfl)
    | some store =>
      obtain ⟨i, hi, hset⟩ := Option.bind_eq_some_iff.1 hc
      obtain ⟨j, hj, rfl⟩ := Option.map_eq_some_iff.1 hset
      exact .inr ⟨ref, i, j, rfl, hi, hj, by simp only [hc]; rfl⟩
  | _ => exact .inl rfl

theorem setLocal_of_lt {m : Machine} {v : Value} {j : Nat} (h : j < m.locals.size) :
    setLocal j v m = .ok () { m with locals := m.locals.setIfInBounds j v } := by
  unfold setLocal
  rw [if_pos h]

/-- The same call is executed. -/
structure SameCall (m m' : Machine) : Prop where
  closure : m.frame.closure = m'.frame.closure
  localsBase : m.frame.localsBase = m'.frame.localsBase
  callers : m.callers = m'.callers

theorem SameCall.trans {m m₁ m₂ : Machine} (h : SameCall m m₁) (h' : SameCall m₁ m₂) :
    SameCall m m₂ :=
  ⟨h.closure.trans h'.closure, h.localsBase.trans h'.localsBase, h.callers.trans h'.callers⟩

theorem SameCall.symm {m m' : Machine} (h : SameCall m m') : SameCall m' m :=
  ⟨h.closure.symm, h.localsBase.symm, h.callers.symm⟩

/-- The machine comes from one state to the other. -/
def Reaches (host : Host) (m m' : Machine) : Prop := ∃ k, run host k m = (.unfinished, m')

/-- The machine does not end within a number of steps. -/
def Lasts (host : Host) (n : Nat) (m : Machine) : Prop := (run host n m).1 = .unfinished

variable {host : Host} {m m' m'' : Machine} {k n : Nat}

theorem run_succ (h : step host m = .ok .running m') : run host (n + 1) m = run host n m' := by
  rw [run, h]

theorem run_add (h : run host k m = (.unfinished, m')) : run host (k + n) m = run host n m' := by
  induction k generalizing m with
  | zero =>
    obtain rfl : m = m' := (Prod.mk.inj h).2
    rw [Nat.zero_add]
  | succ k ih =>
    cases hs : step host m with
    | ok status m₁ =>
      cases status with
      | running =>
        rw [run_succ hs] at h
        rw [Nat.add_right_comm, run_succ hs]
        exact ih h
      | finished =>
        rw [run, hs] at h
        cases (Prod.mk.inj h).1
    | error e m₁ =>
      rw [run, hs] at h
      cases (Prod.mk.inj h).1

/-- A run that has ended stays as it is. -/
theorem run_of_le {outcome : Outcome} (h : run host k m = (outcome, m')) (ho : outcome ≠ .unfinished)
    (hk : k ≤ n) : run host n m = (outcome, m') := by
  induction k generalizing m n with
  | zero => exact absurd (Prod.mk.inj h).1.symm ho
  | succ k ih =>
    obtain ⟨n, rfl⟩ : ∃ n', n = n' + 1 := ⟨n - 1, by omega⟩
    unfold run at h ⊢
    cases hs : step host m with
    | ok status m₁ =>
      rw [hs] at h
      cases status with
      | running => exact ih h (by omega)
      | finished => exact h
    | error e m₁ =>
      rw [hs] at h
      exact h

theorem Reaches.refl (m : Machine) : Reaches host m m := ⟨0, rfl⟩

theorem Reaches.trans (h : Reaches host m m') (h' : Reaches host m' m'') : Reaches host m m'' := by
  obtain ⟨k, hk⟩ := h
  obtain ⟨n, hn⟩ := h'
  exact ⟨k + n, by rw [run_add hk, hn]⟩

theorem Reaches.single (h : step host m = .ok .running m') : Reaches host m m' :=
  ⟨1, run_succ h⟩

/-- The machine comes from one state to the other, and the states on the way are at certain offsets. -/
def Walks (host : Host) (P : Nat → Prop) (m m' : Machine) : Prop :=
  ∃ k, run host k m = (.unfinished, m') ∧
    ∀ j < k, ∀ m₁, run host j m = (.unfinished, m₁) → P m₁.frame.ip

theorem Walks.reaches {P : Nat → Prop} (h : Walks host P m m') : Reaches host m m' := by
  obtain ⟨k, hk, -⟩ := h
  exact ⟨k, hk⟩

theorem Walks.refl {P : Nat → Prop} (m : Machine) : Walks host P m m := ⟨0, rfl, nofun⟩

theorem Walks.single {P : Nat → Prop} (hP : P m.frame.ip) (h : step host m = .ok .running m') :
    Walks host P m m' := by
  refine ⟨1, run_succ h, fun j hj m₁ hm₁ => ?_⟩
  obtain rfl := Nat.lt_one_iff.1 hj
  obtain rfl : m = m₁ := (Prod.mk.inj hm₁).2
  exact hP

theorem Walks.trans {P : Nat → Prop} (h : Walks host P m m') (h' : Walks host P m' m'') :
    Walks host P m m'' := by
  obtain ⟨k, hk, hP⟩ := h
  obtain ⟨n, hn, hP'⟩ := h'
  refine ⟨k + n, by rw [run_add hk, hn], fun j hj m₁ hm₁ => ?_⟩
  rcases Nat.lt_or_ge j k with hlt | hle
  · exact hP j hlt m₁ hm₁
  · obtain ⟨i, rfl⟩ := Nat.exists_eq_add_of_le hle
    rw [run_add hk] at hm₁
    exact hP' i (Nat.lt_of_add_lt_add_left hj) m₁ hm₁

theorem Lasts.anti (h : Lasts host n m) (hk : k ≤ n) : Lasts host k m :=
  Classical.byContradiction fun ho => ho ((congrArg Prod.fst (run_of_le rfl ho hk)).symm.trans h)

theorem Lasts.of_reaches (h : Reaches host m m') (h' : Lasts host n m') : Lasts host n m := by
  obtain ⟨k, hk⟩ := h
  have : Lasts host (k + n) m := by
    unfold Lasts
    rw [run_add hk]
    exact h'
  exact this.anti (Nat.le_add_left n k)

theorem Lasts.succ (h : step host m = .ok .running m') (h' : Lasts host n m') :
    Lasts host (n + 1) m := by
  unfold Lasts
  rw [run_succ h]
  exact h'

end StackScript.Machine
