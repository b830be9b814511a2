import Mathlib.Data.List.Forall2
import StackScript.Proofs.Machine.Contents

/-!
# Machines that differ in their objects only

The keys of functions and records, and the places of captured variables and instances, depend on
what the store was used for before, and a program cannot see them. A `Matching` says which objects
of two machines correspond to each other; the same objects must correspond to the same, as a program
can ask for that. New objects are made in the same order on both sides, so that it can be said
beforehand which of them will correspond. Records that correspond can in addition be required to be
such as a `Matching` says.

Values match if they are the same numbers and texts or are made of objects that correspond. Whatever
can be seen of matching values is the same.
-/

namespace StackScript

/-- Which objects and functions of two machines correspond to each other. -/
structure Matching where
  /-- Keys of objects. -/
  key : Nat → Nat → Prop
  /-- Captured variables. -/
  cell : CellRef → CellRef → Prop
  /-- Instances. -/
  inst : InstanceRef → InstanceRef → Prop
  /-- Functions. -/
  function : Function Value → Function Value → Prop
  /-- What records that correspond have to be. -/
  record : Value.RecordType → Value.RecordType → Prop
  key_iff : ∀ {k k' l l'}, key k k' → key l l' → (k = l ↔ k' = l')
  cell_iff : ∀ {r r' q q'}, cell r r' → cell q q' → (r.index = q.index ↔ r'.index = q'.index)
  inst_iff : ∀ {r r' q q'}, inst r r' → inst q q' → (r = q ↔ r' = q')
  arity : ∀ {f f'}, function f f' → f.arity = f'.arity
  name : ∀ {f f'}, function f f' → f.name = f'.name

namespace Matching

variable (A : Matching)
variable {α β : Type} {r r' : InstanceRef} {i j : Nat} {c c' : Cell Value} {i' : Instance}

/-- Closures of functions that correspond, with captured variables that correspond. -/
structure Code (c c' : Value.Code) : Prop where
  function : A.function c.function c'.function
  captures : List.Forall₂ A.cell c.captures c'.captures

/-- Closure objects that match. -/
structure Method (c c' : Value.Method) : Prop where
  key : A.key c.key c'.key
  body : A.Code c.body c'.body

/-- Record objects that match. -/
structure RecordType (r r' : Value.RecordType) : Prop where
  key : A.key r.key r'.key
  name : r.body.name = r'.body.name
  fields : r.body.fields = r'.body.fields
  methods : List.Forall₂ A.Method r.body.methods r'.body.methods
  known : A.record r r'

/-- Values that match. -/
inductive Matches : Value → Value → Prop
  | scalar {v : Value} : v.isScalar = true → Matches v v
  | native (n : Native) : Matches (.native n) (.native n)
  | function {f f' : Object (Function Value)} :
      A.key f.key f'.key → A.function f.body f'.body → Matches (.function f) (.function f')
  | closure {c c' : Value.Method} : A.Method c c' → Matches (.closure c) (.closure c')
  | record {r r' : Value.RecordType} : A.RecordType r r' → Matches (.record r) (.record r')
  | instanceOf {r r' : InstanceRef} : A.inst r r' → Matches (.instanceOf r) (.instanceOf r')
  | bound {v v' : Value} {m m' : Value.Method} :
      Matches v v' → A.Method m m' → Matches (.bound v m) (.bound v' m')

/-- Captured variables in the same state. -/
structure MatchesCell (c c' : Cell Value) : Prop where
  slot : c.slot = c'.slot
  position : c.position = c'.position
  closed : Option.Rel A.Matches c.closed c'.closed

/-- Instances of matching records with matching fields. -/
structure MatchesInstance (i i' : Instance) : Prop where
  fields : List.Forall₂ A.Matches i.fields i'.fields
  record : A.RecordType i.record i'.record

/-- Stores whose corresponding objects have matching contents, and that will make corresponding
objects. -/
structure MatchesStore (s s' : Store) : Prop where
  fresh : ∀ n, A.key (s.fresh + n) (s'.fresh + n)
  newRecords : ∀ n body body', A.record ⟨s.fresh + n, body⟩ ⟨s'.fresh + n, body'⟩
  newCells : ∀ n, A.cell ⟨s.cells.size + n⟩ ⟨s'.cells.size + n⟩
  newInstances : ∀ n, A.inst ⟨s.instances.size + n⟩ ⟨s'.instances.size + n⟩
  cells : ∀ {r r'}, A.cell r r' → Option.Rel A.MatchesCell s.cells[r.index]? s'.cells[r'.index]?
  instances : ∀ {r r'}, A.inst r r' →
    Option.Rel A.MatchesInstance (s.instance? r) (s'.instance? r')

variable {A : Matching} {v v' w w' : Value} {s s' : Store}

/-! ## What can be seen of a value -/

theorem Matches.kind (h : A.Matches v v') : v.kind = v'.kind := by
  cases h <;> rfl

theorem Matches.eq_of_isScalar (h : A.Matches v v') (hv : v.isScalar = true) : v = v' := by
  cases h with
  | scalar => rfl
  | _ => cases hv

theorem Matches.isScalar_eq (h : A.Matches v v') : v.isScalar = v'.isScalar := by
  cases h <;> rfl

theorem beq_eq_of_iff [DecidableEq α] [DecidableEq β] {a b : α} {a' b' : β} (h : a = b ↔ a' = b') :
    (a == b) = (a' == b') := by
  rw [Bool.eq_iff_iff, beq_iff_eq, beq_iff_eq]
  exact h

/-- A scalar equals no value of another sort. -/
theorem equals_of_isScalar (hv : v.isScalar = true) (hw : w.isScalar = false) :
    v.equals w = false ∧ w.equals v = false := by
  cases v <;> first
    | exact absurd hv Bool.false_ne_true
    | cases w <;> first | exact absurd hw.symm Bool.false_ne_true | exact ⟨rfl, rfl⟩

/-- Matching values are equal to matching values. -/
theorem Matches.equals (hv : A.Matches v v') (hw : A.Matches w w') :
    v.equals w = v'.equals w' := by
  induction hv generalizing w w' with
  | scalar hs =>
    rcases Bool.eq_false_or_eq_true w.isScalar with hw' | hw'
    · rw [hw.eq_of_isScalar hw']
    · rw [(equals_of_isScalar hs hw').1, (equals_of_isScalar hs (hw.isScalar_eq ▸ hw')).1]
  | native n =>
    cases hw with
    | scalar hs => rw [(equals_of_isScalar hs rfl).2]
    | _ => rfl
  | function hk =>
    cases hw with
    | scalar hs => rw [(equals_of_isScalar hs rfl).2, (equals_of_isScalar hs rfl).2]
    | function hl => exact beq_eq_of_iff (A.key_iff hk hl)
    | _ => rfl
  | closure hc =>
    cases hw with
    | scalar hs => rw [(equals_of_isScalar hs rfl).2, (equals_of_isScalar hs rfl).2]
    | closure hd => exact beq_eq_of_iff (A.key_iff hc.key hd.key)
    | _ => rfl
  | record hr =>
    cases hw with
    | scalar hs => rw [(equals_of_isScalar hs rfl).2, (equals_of_isScalar hs rfl).2]
    | record hq => exact beq_eq_of_iff (A.key_iff hr.key hq.key)
    | _ => rfl
  | instanceOf hr =>
    cases hw with
    | scalar hs => rw [(equals_of_isScalar hs rfl).2, (equals_of_isScalar hs rfl).2]
    | instanceOf hq => exact beq_eq_of_iff (A.inst_iff hr hq)
    | _ => rfl
  | bound _ hm ih =>
    cases hw with
    | scalar hs => rw [(equals_of_isScalar hs rfl).2, (equals_of_isScalar hs rfl).2]
    | bound hr hn =>
      show (_ == _ && _) = (_ == _ && _)
      rw [beq_eq_of_iff (A.key_iff hm.key hn.key), ih hr]
    | _ => rfl

/-! ## Texts -/

theorem map_eq_of_forall₂ {γ : Type} {R : α → β → Prop} {f : α → γ} {g : β → γ}
    (hfg : ∀ a b, R a b → f a = g b) {as : List α} {bs : List β} (h : List.Forall₂ R as bs) :
    as.map f = bs.map g := by
  induction h with
  | nil => rfl
  | cons hab _ ih => rw [List.map_cons, List.map_cons, hfg _ _ hab, ih]

theorem node_instanceOf (s : Store) (r : InstanceRef) : s.node (.instanceOf r) =
    ((s.instance? r).map fun i => .instanceOf i.fields (s.recordNode i.record.body)).getD .nil := by
  simp only [Store.node]
  cases s.instance? r <;> rfl

/-- The layers of instances that correspond. -/
theorem MatchesStore.node_cases (hs : A.MatchesStore s s') (hr : A.inst r r') :
    (s.node (.instanceOf r) = .nil ∧ s'.node (.instanceOf r') = .nil) ∨
      ∃ i i', s.node (.instanceOf r) = .instanceOf i.fields (s.recordNode i.record.body) ∧
        s'.node (.instanceOf r') = .instanceOf i'.fields (s'.recordNode i'.record.body) ∧
        A.MatchesInstance i i' := by
  rw [node_instanceOf, node_instanceOf]
  have hi := hs.instances hr
  generalize s.instance? r = i at hi ⊢
  generalize s'.instance? r' = i' at hi ⊢
  cases hi with
  | none => exact .inl ⟨rfl, rfl⟩
  | some hi => exact .inr ⟨_, _, rfl, rfl, hi⟩

section Text

variable (hs : A.MatchesStore s s')

include hs

/-- Matching values have the same text. -/
theorem MatchesStore.text (depth : Nat) (h : A.Matches v v') :
    s.text depth v = s'.text depth v' := by
  induction depth generalizing v v' with
  | zero => rfl
  | succ depth ih =>
    cases h with
    | scalar hv => cases v <;> first | rfl | cases hv
    | native n => rfl
    | function _ hf => exact congrArg (fun n => "<fn " ++ n ++ ">") (A.name hf)
    | closure hc => exact congrArg (fun n => "<fn " ++ n ++ ">") (A.name hc.body.function)
    | record hr => exact congrArg (fun n => "<record " ++ n ++ ">") hr.name
    | bound _ hm => exact congrArg (fun n => "<bound method " ++ n ++ ">") (A.name hm.body.function)
    | instanceOf hr =>
      unfold Store.text
      rcases hs.node_cases hr with ⟨hn, hn'⟩ | ⟨i, i', hn, hn', hi⟩
      · rw [hn, hn']
        rfl
      · rw [hn, hn']
        have hfields := map_eq_of_forall₂ (fun _ _ h => ih h) hi.fields
        show _ ++ _ ++ String.intercalate "," (List.zipWith _ i.record.body.fields
          (i.fields.map (s.text depth))) ++ _ = _
        rw [hfields, hi.record.fields]
        show i.record.body.name ++ _ ++ _ ++ _ = _
        rw [hi.record.name]
        rfl

theorem MatchesStore.isDeep (depth : Nat) (h : A.Matches v v') :
    s.isDeep depth v = s'.isDeep depth v' := by
  induction depth generalizing v v' with
  | zero =>
    unfold Store.isDeep
    rw [h.kind]
  | succ depth ih =>
    cases h with
    | scalar hv => cases v <;> first | rfl | cases hv
    | instanceOf hr =>
      unfold Store.isDeep
      rcases hs.node_cases hr with ⟨hn, hn'⟩ | ⟨i, i', hn, hn', hi⟩
      · rw [hn, hn']
        rfl
      · rw [hn, hn']
        have hfields := map_eq_of_forall₂ (fun _ _ h => ih h) hi.fields
        have hany : i.fields.any (s.isDeep depth) = i'.fields.any (s'.isDeep depth) := by
          simpa [List.any_map] using congrArg (List.any · id) hfields
        exact hany
    | _ => rfl

/-- Matching values are shown alike. -/
theorem MatchesStore.shown (h : A.Matches v v') : s.shown v = s'.shown v' := by
  unfold Store.shown
  rw [h.kind, hs.isDeep _ h, hs.text _ h]

end Text

/-! ## Changing stores -/

theorem MatchesStore.cell (hs : A.MatchesStore s s') {r r' : CellRef} (hr : A.cell r r') :
    A.MatchesCell (s.cell r) (s'.cell r') := by
  unfold Store.cell
  rw [Array.getD_eq_getD_getElem?, Array.getD_eq_getD_getElem?]
  have hc := hs.cells hr
  generalize s.cells[r.index]? = c at hc ⊢
  generalize s'.cells[r'.index]? = c' at hc ⊢
  cases hc with
  | none => exact ⟨rfl, rfl, .none⟩
  | some hc => exact hc

theorem MatchesStore.newObject (hs : A.MatchesStore s s') (b b' : β) :
    A.MatchesStore (Store.newObject b s).2 (Store.newObject b' s').2 ∧
      A.key (Store.newObject b s).1.key (Store.newObject b' s').1.key := by
  refine ⟨{ hs with fresh := fun n => ?_, newRecords := fun n => ?_ }, hs.fresh 0⟩
  · show A.key (s.fresh + 1 + n) (s'.fresh + 1 + n)
    rw [Nat.add_assoc, Nat.add_assoc]
    exact hs.fresh (1 + n)
  · show ∀ b b', A.record ⟨s.fresh + 1 + n, b⟩ ⟨s'.fresh + 1 + n, b'⟩
    rw [Nat.add_assoc, Nat.add_assoc]
    exact hs.newRecords (1 + n)

theorem inst_index_iff {q q' : InstanceRef} (hr : A.inst r r') (hq : A.inst q q') :
    r.index = q.index ↔ r'.index = q'.index := by
  have hiff := A.inst_iff hr hq
  cases r
  cases r'
  cases q
  cases q'
  simpa using hiff

theorem rel_push {R : α → α → Prop} {xs ys : Array α} {a b : α} (hab : R a b)
    (hij : Option.Rel R xs[i]? ys[j]?) (hiff : i = xs.size ↔ j = ys.size) :
    Option.Rel R (xs.push a)[i]? (ys.push b)[j]? := by
  rw [Array.getElem?_push, Array.getElem?_push]
  by_cases h : i = xs.size
  · rw [if_pos h, if_pos (hiff.1 h)]
    exact .some hab
  · rw [if_neg h, if_neg fun h' => h (hiff.2 h')]
    exact hij

/-- Arrays that are changed at places that correspond. -/
theorem rel_setIfInBounds {R : α → α → Prop} {xs ys : Array α} {k l : Nat} {a b : α} (hab : R a b)
    (hkl : Option.Rel R xs[k]? ys[l]?) (hiff : i = k ↔ j = l) :
    Option.Rel R (xs.setIfInBounds i a)[k]? (ys.setIfInBounds j b)[l]? := by
  rw [Array.getElem?_setIfInBounds, Array.getElem?_setIfInBounds]
  by_cases h : i = k
  · have h' := hiff.1 h
    subst h h'
    rw [if_pos rfl, if_pos rfl]
    by_cases hi : i < xs.size
    · rw [Array.getElem?_eq_getElem hi] at hkl
      have hj : j < ys.size := by
        by_contra hj
        rw [Array.getElem?_eq_none (by omega)] at hkl
        cases hkl
      rw [if_pos hi, if_pos hj]
      exact .some hab
    · rw [Array.getElem?_eq_none (by omega)] at hkl
      have hj : ¬ j < ys.size := fun hj => by
        rw [Array.getElem?_eq_getElem hj] at hkl
        cases hkl
      rw [if_neg hi, if_neg hj]
      exact .none
  · rw [if_neg h, if_neg fun h' => h (hiff.2 h')]
    exact hkl

theorem MatchesStore.newCell (hs : A.MatchesStore s s') (hc : A.MatchesCell c c') :
    A.MatchesStore (Store.newCell c s).2 (Store.newCell c' s').2 ∧
      A.cell (Store.newCell c s).1 (Store.newCell c' s').1 := by
  refine ⟨{ hs with newCells := fun n => ?_, cells := fun {r r'} hr => ?_ }, hs.newCells 0⟩
  · show A.cell ⟨(s.cells.push c).size + n⟩ ⟨(s'.cells.push c').size + n⟩
    rw [Array.size_push, Array.size_push, Nat.add_assoc, Nat.add_assoc]
    exact hs.newCells (1 + n)
  · exact rel_push hc (hs.cells hr) (A.cell_iff hr (hs.newCells 0))

theorem MatchesStore.newInstance {i : Instance} (hs : A.MatchesStore s s')
    (hi : A.MatchesInstance i i') :
    A.MatchesStore (Store.newInstance i s).2 (Store.newInstance i' s').2 ∧
      A.inst (Store.newInstance i s).1 (Store.newInstance i' s').1 := by
  refine ⟨{ hs with newInstances := fun n => ?_, instances := fun {r r'} hr => ?_ },
    hs.newInstances 0⟩
  · show A.inst ⟨(s.instances.push i).size + n⟩ ⟨(s'.instances.push i').size + n⟩
    rw [Array.size_push, Array.size_push, Nat.add_assoc, Nat.add_assoc]
    exact hs.newInstances (1 + n)
  · exact rel_push hi (hs.instances hr) (inst_index_iff hr (hs.newInstances 0))

theorem MatchesStore.setCell {r r' : CellRef} (hs : A.MatchesStore s s') (hr : A.cell r r')
    (hc : A.MatchesCell c c') : A.MatchesStore (s.setCell r c) (s'.setCell r' c') := by
  refine { hs with newCells := fun n => ?_, cells := fun {q q'} hq => ?_ }
  · show A.cell ⟨(s.cells.setIfInBounds r.index c).size + n⟩
      ⟨(s'.cells.setIfInBounds r'.index c').size + n⟩
    rw [Array.size_setIfInBounds, Array.size_setIfInBounds]
    exact hs.newCells n
  · exact rel_setIfInBounds hc (hs.cells hq) (A.cell_iff hr hq)

theorem MatchesStore.setInstance {i : Instance} (hs : A.MatchesStore s s') (hr : A.inst r r')
    (hi : A.MatchesInstance i i') : A.MatchesStore (s.setInstance r i) (s'.setInstance r' i') := by
  refine { hs with newInstances := fun n => ?_, instances := fun {q q'} hq => ?_ }
  · show A.inst ⟨(s.instances.setIfInBounds r.index i).size + n⟩
      ⟨(s'.instances.setIfInBounds r'.index i').size + n⟩
    rw [Array.size_setIfInBounds, Array.size_setIfInBounds]
    exact hs.newInstances n
  · exact rel_setIfInBounds hi (hs.instances hq) (inst_index_iff hr hq)

end Matching

end StackScript
