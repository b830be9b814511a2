import StackScript.Machine.Call

/-!
# What a machine can get hold of

`Machine.Kept` says that all closures that a machine can meet have some property: those on the
stack, in variables and fields, and the methods of records and of bound methods. What a store held
before a run is left out, as the machine holds no reference to it.
-/

namespace StackScript

/-- Values without references to anything else. -/
def Value.isScalar : Value → Bool
  | .int _ | .float _ | .string _ | .char _ | .bool _ | .nil | .void | .range _ => true
  | _ => false

/-- The constant is a value that can be pushed: no function, and a record without methods. -/
def Value.isDatum : Value → Bool
  | .int _ | .float _ | .string _ | .char _ => true
  | .record r => r.body.methods.isEmpty
  | _ => false

section

variable (Q : Value.Code → Prop) (base : Store)

/-- The closures inside of the value have a property, and its instances are younger than the store. A
function alone is never a value. -/
def Value.Within : Value → Prop
  | .function _ => False
  | .closure c => Q c.body
  | .record r => ∀ method ∈ r.body.methods, Q method.body
  | .instanceOf ref => base.instances.size ≤ ref.index
  | .bound receiver method => receiver.Within ∧ Q method.body
  | _ => True

end

/-- What is younger than the base store has only values with the property. -/
structure Store.Within (Q : Value.Code → Prop) (s base : Store) : Prop where
  cells_le : base.cells.size ≤ s.cells.size
  instances_le : base.instances.size ≤ s.instances.size
  cells : ∀ i c, base.cells.size ≤ i → s.cells[i]? = some c → ∀ v ∈ c.closed, v.Within Q base
  instances : ∀ i x, base.instances.size ≤ i → s.instances[i]? = some x →
    (∀ v ∈ x.fields, v.Within Q base) ∧ ∀ method ∈ x.record.body.methods, Q method.body

/-- Every closure that the machine can get hold of has the property. -/
structure Machine.Kept (Q : Value.Code → Prop) (base : Store) (m : Machine) : Prop where
  stack : ∀ v ∈ m.stack, v.Within Q base
  locals : ∀ v ∈ m.locals, v.Within Q base
  globals : ∀ v ∈ m.globals, v.Within Q base
  store : m.store.Within Q base
  openCells : ∀ ref ∈ m.openCells, base.cells.size ≤ ref.index
  frames : ∀ f ∈ m.frame :: m.callers, ∀ ref ∈ f.closure.captures, base.cells.size ≤ ref.index

variable {Q Q' : Value.Code → Prop} {base s : Store}

theorem Value.Within.mono (hQ : ∀ c, Q c → Q' c) : {v : Value} → v.Within Q base → v.Within Q' base
  | .closure _, h => hQ _ h
  | .record _, h => fun m hm => hQ _ (h m hm)
  | .bound .., h => ⟨Value.Within.mono hQ h.1, hQ _ h.2⟩
  | .instanceOf _, h => h
  | .int _, _ | .float _, _ | .string _, _ | .char _, _ | .bool _, _ | .nil, _ | .void, _
  | .native _, _ | .range _, _ => trivial

theorem Value.within_of_isScalar {v : Value} (h : v.isScalar = true) : v.Within Q base := by
  cases v <;> trivial

theorem Value.within_of_isDatum {v : Value} (h : v.isDatum = true) : v.Within Q base := by
  cases v with
  | record r =>
    intro m hm
    have hr : r.body.methods = [] := List.isEmpty_iff.1 h
    rw [hr] at hm
    cases hm
  | function f => cases h
  | closure c => cases h
  | instanceOf ref => cases h
  | bound receiver method => cases h
  | _ => trivial

namespace Store

theorem Within.mono (hQ : ∀ c, Q c → Q' c) (h : s.Within Q base) : s.Within Q' base where
  cells_le := h.cells_le
  instances_le := h.instances_le
  cells i c hi hc v hv := (h.cells i c hi hc v hv).mono hQ
  instances i x hi hx := ⟨fun v hv => ((h.instances i x hi hx).1 v hv).mono hQ,
    fun m hm => hQ _ ((h.instances i x hi hx).2 m hm)⟩

theorem within_self (Q : Value.Code → Prop) (s : Store) : s.Within Q s := by
  refine ⟨Nat.le_refl _, Nat.le_refl _, fun i c hi hc => ?_, fun i x hi hx => ?_⟩
  · rw [Array.getElem?_eq_none hi] at hc
    cases hc
  · rw [Array.getElem?_eq_none hi] at hx
    cases hx

theorem Within.cell {ref : CellRef} {v : Value} (h : s.Within Q base)
    (hr : base.cells.size ≤ ref.index) (hv : (s.cell ref).closed = some v) : v.Within Q base := by
  unfold Store.cell at hv
  cases hc : s.cells[ref.index]? with
  | none =>
    rw [Array.getD_eq_getD_getElem?, hc] at hv
    cases hv
  | some c =>
    rw [Array.getD_eq_getD_getElem?, hc] at hv
    exact h.cells ref.index c hr hc v hv

section

variable {α : Type} {P : α → Prop} {xs : Array α} {x : α} {n : Nat}

theorem forall_of_push (h : ∀ i y, n ≤ i → xs[i]? = some y → P y) (hx : P x) :
    ∀ i y, n ≤ i → (xs.push x)[i]? = some y → P y := by
  intro i y hi hy
  rw [Array.getElem?_push] at hy
  split at hy
  · cases hy
    exact hx
  · exact h i y hi hy

theorem forall_of_set {j : Nat} (h : ∀ i y, n ≤ i → xs[i]? = some y → P y) (hx : P x) :
    ∀ i y, n ≤ i → (xs.setIfInBounds j x)[i]? = some y → P y := by
  intro i y hi hy
  rw [Array.getElem?_setIfInBounds] at hy
  split at hy
  · split at hy <;> cases hy
    exact hx
  · exact h i y hi hy

theorem le_size_push (h : n ≤ xs.size) : n ≤ (xs.push x).size :=
  Nat.le_trans h (Array.size_push x ▸ Nat.le_succ _)

end

theorem Within.newCell {c : Cell Value} (h : s.Within Q base)
    (hc : ∀ v ∈ c.closed, v.Within Q base) :
    (Store.newCell c s).2.Within Q base ∧ base.cells.size ≤ (Store.newCell c s).1.index :=
  ⟨⟨le_size_push h.cells_le, h.instances_le, forall_of_push h.cells hc, h.instances⟩, h.cells_le⟩

theorem Within.setCell {ref : CellRef} {c : Cell Value} (h : s.Within Q base)
    (hc : ∀ v ∈ c.closed, v.Within Q base) : (s.setCell ref c).Within Q base :=
  ⟨Nat.le_trans h.cells_le (Nat.le_of_eq Array.size_setIfInBounds.symm), h.instances_le, forall_of_set h.cells hc,
    h.instances⟩

theorem Within.newInstance {x : Instance} (h : s.Within Q base)
    (hx : (∀ v ∈ x.fields, v.Within Q base) ∧ ∀ method ∈ x.record.body.methods, Q method.body) :
    (Store.newInstance x s).2.Within Q base ∧
      base.instances.size ≤ (Store.newInstance x s).1.index :=
  ⟨⟨h.cells_le, le_size_push h.instances_le, h.cells, forall_of_push h.instances hx⟩, h.instances_le⟩

theorem Within.setInstance {ref : InstanceRef} {x : Instance} (h : s.Within Q base)
    (hx : (∀ v ∈ x.fields, v.Within Q base) ∧ ∀ method ∈ x.record.body.methods, Q method.body) :
    (s.setInstance ref x).Within Q base :=
  ⟨h.cells_le, Nat.le_trans h.instances_le (Nat.le_of_eq Array.size_setIfInBounds.symm), h.cells,
    forall_of_set h.instances hx⟩

/-- Closing cells over variables with the property. -/
theorem Within.closeCells {locals : Array Value} (hl : ∀ v ∈ locals, v.Within Q base)
    (refs : List CellRef) (h : s.Within Q base) :
    (refs.foldl (Machine.closeCell locals) s).Within Q base := by
  induction refs generalizing s with
  | nil => exact h
  | cons ref refs ih =>
    refine ih (h.setCell fun v hv => ?_)
    obtain rfl := Option.some.inj hv
    cases hg : locals[(s.cell ref).slot.toNat]? with
    | none => trivial
    | some v => exact hl v (Array.mem_of_getElem? hg)

theorem Within.setField {ref : InstanceRef} {x y : Instance} {name : String} {v : Value}
    (h : s.Within Q base) (hr : base.instances.size ≤ ref.index) (hx : s.instance? ref = some x)
    (hy : x.set? name v = some y) (hv : v.Within Q base) : (s.setInstance ref y).Within Q base := by
  obtain ⟨hfields, hmethods⟩ := h.instances ref.index x hr hx
  obtain ⟨slot, -, hslot⟩ := Option.bind_eq_some_iff.1 hy
  split at hslot
  · cases hslot
    refine h.setInstance ⟨fun w hw => ?_, hmethods⟩
    rcases List.mem_or_eq_of_mem_set hw with hw | rfl
    · exact hfields w hw
    · exact hv
  · cases hslot

end Store

namespace Machine

/-- What is inside of the property has a property itself. -/
def Property.Within (Q : Value.Code → Prop) (base : Store) : Property → Prop
  | .field v => v.Within Q base
  | .method m => Q m.body

theorem within_property? {receiver : Value} {name : String} {p : Property} (hs : s.Within Q base)
    (hr : receiver.Within Q base) (hp : property? s receiver name = some p) : p.Within Q base := by
  cases receiver with
  | instanceOf ref =>
    obtain ⟨x, hx, hp⟩ := Option.bind_eq_some_iff.1 hp
    obtain ⟨hfields, hmethods⟩ := hs.instances ref.index x hr hx
    cases hg : x.get? name with
    | some v =>
      rw [hg] at hp
      cases hp
      obtain ⟨slot, -, hslot⟩ := Option.bind_eq_some_iff.1 hg
      exact hfields v (List.mem_of_getElem? hslot)
    | none =>
      rw [hg] at hp
      obtain ⟨m, hm, rfl⟩ := Option.map_eq_some_iff.1 hp
      exact hmethods m (List.mem_of_find?_eq_some hm)
  | _ => cases hp

end Machine

theorem Machine.Kept.mono {m : Machine} (hQ : ∀ c, Q c → Q' c) (h : m.Kept Q base) :
    m.Kept Q' base where
  stack v hv := (h.stack v hv).mono hQ
  locals v hv := (h.locals v hv).mono hQ
  globals v hv := (h.globals v hv).mono hQ
  store := h.store.mono hQ
  openCells := h.openCells
  frames := h.frames

/-! ## Cells -/

namespace Store

theorem cell_setCell (s : Store) (ref ref' : CellRef) (c : Cell Value)
    (h : ref.index < s.cells.size) :
    (s.setCell ref c).cell ref' = if ref' = ref then c else s.cell ref' := by
  obtain ⟨i⟩ := ref
  obtain ⟨j⟩ := ref'
  simp only [cell, setCell, Array.getD_eq_getD_getElem?, Array.getElem?_setIfInBounds, CellRef.mk.injEq]
  by_cases hij : i = j
  · subst hij
    rw [if_pos rfl, if_pos h, if_pos rfl]
    rfl
  · rw [if_neg hij, if_neg (Ne.symm hij)]

theorem cell_push (s : Store) (c : Cell Value) (ref : CellRef) :
    ({ s with cells := s.cells.push c } : Store).cell ref =
      if ref.index = s.cells.size then c else s.cell ref := by
  simp only [cell, Array.getD_eq_getD_getElem?, Array.getElem?_push]
  by_cases h : ref.index = s.cells.size
  · rw [if_pos h, if_pos h]
    rfl
  · rw [if_neg h, if_neg h]

end Store

namespace Machine

theorem size_closeCells (locals : Array Value) (refs : List CellRef) (s : Store) :
    (refs.foldl (closeCell locals) s).cells.size = s.cells.size := by
  induction refs generalizing s with
  | nil => rfl
  | cons ref refs ih =>
    rw [List.foldl_cons, ih]
    simp [closeCell, Store.setCell]

theorem fresh_closeCells (locals : Array Value) (refs : List CellRef) (s : Store) :
    (refs.foldl (closeCell locals) s).fresh = s.fresh := by
  induction refs generalizing s with
  | nil => rfl
  | cons ref refs ih =>
    rw [List.foldl_cons, ih]
    rfl

theorem cell_closeCells (locals : Array Value) {refs : List CellRef} {s : Store}
    (h : ∀ ref ∈ refs, ref.index < s.cells.size) (ref : CellRef) :
    (refs.foldl (closeCell locals) s).cell ref =
      if ref ∈ refs then
        { s.cell ref with closed := some (locals[(s.cell ref).slot.toNat]?.getD .nil) }
      else s.cell ref := by
  induction refs generalizing s with
  | nil => rfl
  | cons r refs ih =>
    have hr := h r (List.mem_cons_self ..)
    have hcell (ref : CellRef) : (closeCell locals s r).cell ref = if ref = r then
        { s.cell r with closed := some (locals[(s.cell r).slot.toNat]?.getD .nil) }
        else s.cell ref := Store.cell_setCell s r ref _ hr
    have hsize : (closeCell locals s r).cells.size = s.cells.size := by
      simp [closeCell, Store.setCell]
    rw [List.foldl_cons, ih fun ref' h' => by
      rw [hsize]
      exact h ref' (List.mem_cons_of_mem r h'), hcell]
    by_cases he : ref = r
    · subst he
      simp
    · by_cases hm : ref ∈ refs <;> simp [he, hm]

end Machine

end StackScript
