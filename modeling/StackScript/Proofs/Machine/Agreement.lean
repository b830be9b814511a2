import StackScript.Proofs.Machine.Effects
import StackScript.Proofs.Machine.Matching

/-!
# Operations on matching machines

Every operation fails on two machines that match with the same fault, or gives results that
correspond, and the machines match again. `Matching.Agree` says this of two operations; it goes from
the small ones to whole instructions and to runs.
-/

namespace StackScript.Matching

open Machine

variable (A : Matching)
variable {a a' b b' v v' : Value} {host host' : Host} {s s' : Store} {r r' : Value.RecordType}

/-- Calls of matching closures, at the same offset. -/
structure MatchesFrame (f f' : Frame) : Prop where
  closure : A.Code f.closure f'.closure
  ip : f.ip = f'.ip
  localsBase : f.localsBase = f'.localsBase
  stackBase : f.stackBase = f'.stackBase

/-- Machines that match in all their parts. -/
structure MatchesMachine (m m' : Machine) : Prop where
  store : A.MatchesStore m.store m'.store
  stack : List.Forall₂ A.Matches m.stack m'.stack
  locals : List.Forall₂ A.Matches m.locals.toList m'.locals.toList
  globals : List.Forall₂ A.Matches m.globals.toList m'.globals.toList
  frame : A.MatchesFrame m.frame m'.frame
  callers : List.Forall₂ A.MatchesFrame m.callers m'.callers
  openCells : List.Forall₂ A.cell m.openCells m'.openCells
  calls : m.calls = m'.calls

/-- Two operations have succeeded with corresponding results or failed with the same fault, and the
machines match. -/
inductive Same {α β : Type} (R : α → β → Prop) :
    EStateM.Result Fault Machine α → EStateM.Result Fault Machine β → Prop
  | ok {a : α} {b : β} {m m' : Machine} : R a b → A.MatchesMachine m m' → Same R (.ok a m) (.ok b m')
  | error (e : Fault) {m m' : Machine} : A.MatchesMachine m m' → Same R (.error e m) (.error e m')

/-- Two operations do the same to all machines that match. -/
def Agree {α β : Type} (R : α → β → Prop) (x : Exec α) (y : Exec β) : Prop :=
  ∀ m m', A.MatchesMachine m m' → A.Same R (x m) (y m')

/-- Two operations without a result do the same to all machines that match. -/
abbrev Act (x y : Exec Unit) : Prop := A.Agree (fun _ _ => True) x y

variable {A : Matching} {α β γ δ : Type} {R : α → β → Prop} {S : γ → δ → Prop} {x : Exec α}
  {y : Exec β} {m m' : Machine}

/-! ## Sequences of operations -/

theorem Same.bind {f : α → Exec γ} {g : β → Exec δ} (h : A.Same R (x m) (y m'))
    (hfg : ∀ a b, R a b → A.Agree S (f a) (g b)) : A.Same S ((x >>= f) m) ((y >>= g) m') := by
  show A.Same S (EStateM.bind x f m) (EStateM.bind y g m')
  unfold EStateM.bind
  generalize x m = r at h ⊢
  generalize y m' = r' at h ⊢
  cases h with
  | ok hab hm => exact hfg _ _ hab _ _ hm
  | error e hm => exact .error e hm

theorem Agree.bind {f : α → Exec γ} {g : β → Exec δ} (h : A.Agree R x y)
    (hfg : ∀ a b, R a b → A.Agree S (f a) (g b)) : A.Agree S (x >>= f) (y >>= g) :=
  fun m m' hm => (h m m' hm).bind hfg

theorem Agree.pure {a : α} {b : β} (h : R a b) : A.Agree R (pure a) (pure b) := fun _ _ hm => .ok h hm

theorem Agree.throw (e : Fault) : A.Agree R (throw e) (throw e) := fun _ _ hm => .error e hm

theorem Agree.get : A.Agree A.MatchesMachine get get := fun _ _ hm => .ok hm hm

theorem Agree.set (h : A.MatchesMachine m m') : A.Act (set m) (set m') :=
  fun _ _ _ => .ok trivial h

theorem Agree.modify {f g : Machine → Machine}
    (h : ∀ {m m'}, A.MatchesMachine m m' → A.MatchesMachine (f m) (g m')) :
    A.Act (modify f) (modify g) := fun _ _ hm => .ok trivial (h hm)

/-- What follows does not depend on the result. -/
theorem Agree.andThen {f : α → Exec γ} {g : β → Exec δ} (h : A.Agree R x y)
    (hfg : ∀ a b, A.Agree S (f a) (g b)) : A.Agree S (x >>= f) (y >>= g) :=
  h.bind fun a b _ => hfg a b

/-- What follows an operation with the same result. -/
theorem Agree.bindEq {x y : Exec α} {f : α → Exec γ} {g : α → Exec δ} (h : A.Agree (· = ·) x y)
    (hfg : ∀ a, A.Agree S (f a) (g a)) : A.Agree S (x >>= f) (y >>= g) := by
  refine h.bind ?_
  rintro a _ rfl
  exact hfg a

/-- An operation as the whole of an instruction. -/
theorem Agree.goesOn (h : A.Agree R x y) : A.Agree (· = ·) (do let _ ← x; return Status.running)
    (do let _ ← y; return Status.running) :=
  h.andThen fun _ _ => .pure rfl

theorem Same.lookup (hm : A.MatchesMachine m m') (e : Fault) {a b : Option Value} :
    Option.Rel A.Matches a b → A.Same A.Matches
      (match a with | some a => .ok a m | none => .error e m)
      (match b with | some b => .ok b m' | none => .error e m')
  | .none => .error e hm
  | .some h => .ok h hm

/-! ## Lists and optional values -/

theorem rel_bind {a : Option α} {b : Option β} {f : α → Option γ} {g : β → Option δ}
    (h : Option.Rel R a b) (hfg : ∀ x y, R x y → Option.Rel S (f x) (g y)) :
    Option.Rel S (a.bind f) (b.bind g) := by
  cases h with
  | none => exact .none
  | some h => exact hfg _ _ h

theorem rel_optionMap {a : Option α} {b : Option β} {f : α → γ} {g : β → δ}
    (h : Option.Rel R a b) (hfg : ∀ x y, R x y → S (f x) (g y)) :
    Option.Rel S (a.map f) (b.map g) := by
  cases h with
  | none => exact .none
  | some h => exact .some (hfg _ _ h)

section Lists

variable {xs : List α} {ys : List β}

theorem rel_getElem? (h : List.Forall₂ R xs ys) (i : Nat) : Option.Rel R xs[i]? ys[i]? := by
  induction h generalizing i with
  | nil => exact .none
  | cons hab _ ih =>
    cases i with
    | zero => exact .some hab
    | succ i => exact ih i

theorem rel_getElem?_array {xs : Array α} {ys : Array β} (h : List.Forall₂ R xs.toList ys.toList)
    (i : Nat) : Option.Rel R xs[i]? ys[i]? := by
  rw [← Array.getElem?_toList, ← Array.getElem?_toList]
  exact rel_getElem? h i

theorem rel_set (h : List.Forall₂ R xs ys) (i : Nat) {a : α} {b : β} (hab : R a b) :
    List.Forall₂ R (xs.set i a) (ys.set i b) := by
  induction h generalizing i with
  | nil => exact .nil
  | cons hab' h ih =>
    cases i with
    | zero => exact .cons hab h
    | succ i => exact .cons hab' (ih i)

theorem rel_concat (h : List.Forall₂ R xs ys) {a : α} {b : β} (hab : R a b) :
    List.Forall₂ R (xs ++ [a]) (ys ++ [b]) :=
  List.rel_append h (.cons hab .nil)

theorem rel_find? (h : List.Forall₂ R xs ys) {p : α → Bool} {q : β → Bool}
    (hpq : ∀ a b, R a b → p a = q b) : Option.Rel R (xs.find? p) (ys.find? q) := by
  induction h with
  | nil => exact .none
  | @cons a b _ _ hab _ ih =>
    rw [List.find?_cons, List.find?_cons, ← hpq a b hab]
    cases p a with
    | true => exact .some hab
    | false => exact ih

end Lists

/-! ## The stack -/

theorem agree_push (hv : A.Matches v v') : A.Act (push v) (push v') :=
  .modify fun h => { h with stack := .cons hv h.stack }

theorem agree_pop : A.Agree A.Matches pop pop := by
  intro m m' h
  obtain ⟨store, stack, locals, globals, frame, callers, openCells, calls⟩ := m
  obtain ⟨store', stack', locals', globals', frame', callers', openCells', calls'⟩ := m'
  cases h.stack with
  | nil => exact .error _ h
  | cons hv hs => exact .ok hv { h with stack := hs }

theorem agree_peek : A.Agree A.Matches peek peek := by
  intro m m' h
  obtain ⟨store, stack, locals, globals, frame, callers, openCells, calls⟩ := m
  obtain ⟨store', stack', locals', globals', frame', callers', openCells', calls'⟩ := m'
  cases h.stack with
  | nil => exact .error _ h
  | cons hv _ => exact .ok hv h

theorem agree_replace (depth : Nat) (hv : A.Matches v v') :
    A.Act (replace depth v) (replace depth v') :=
  .modify fun h => { h with stack := rel_set h.stack depth hv }

theorem agree_popMany (n : Nat) : A.Agree (List.Forall₂ A.Matches) (popMany n) (popMany n) := by
  intro m m' h
  unfold popMany
  rw [h.stack.length_eq]
  split
  · exact .ok (List.rel_reverse (List.forall₂_take n h.stack))
      { h with stack := List.forall₂_drop n h.stack }
  · exact .error _ h

/-! ## Variables -/

theorem agree_localSlot (slot : UInt32) : A.Agree (· = ·) (localSlot slot) (localSlot slot) := by
  intro m m' h
  refine .ok ?_ h
  rw [h.frame.localsBase]

theorem agree_getLocal (slot : Nat) : A.Agree A.Matches (getLocal slot) (getLocal slot) :=
  fun _ _ h => .lookup h (.invalidLocal slot) (rel_getElem?_array h.locals slot)

theorem size_eq_of_forall₂ {xs : Array α} {ys : Array β} (h : List.Forall₂ R xs.toList ys.toList) :
    xs.size = ys.size := by
  rw [← Array.length_toList, ← Array.length_toList, h.length_eq]

theorem agree_setLocal (slot : Nat) (hv : A.Matches v v') :
    A.Act (setLocal slot v) (setLocal slot v') := by
  intro m m' h
  unfold setLocal
  rw [size_eq_of_forall₂ h.locals]
  split
  · refine .ok trivial { h with locals := ?_ }
    rw [Array.toList_setIfInBounds, Array.toList_setIfInBounds]
    exact rel_set h.locals slot hv
  · exact .error _ h

theorem agree_addLocal (hv : A.Matches v v') :
    A.Act (addLocal v) (addLocal v') := by
  refine .modify fun h => { h with locals := ?_ }
  rw [Array.toList_push, Array.toList_push]
  exact rel_concat h.locals hv

theorem agree_getGlobal (slot : UInt32) : A.Agree A.Matches (getGlobal slot) (getGlobal slot) :=
  fun _ _ h => .lookup h (.undefinedGlobal slot) (rel_getElem?_array h.globals slot.toNat)

theorem agree_setGlobal (slot : UInt32) (hv : A.Matches v v') :
    A.Act (setGlobal slot v) (setGlobal slot v') := by
  intro m m' h
  unfold setGlobal
  rw [size_eq_of_forall₂ h.globals]
  split
  · refine .ok trivial { h with globals := ?_ }
    rw [Array.toList_setIfInBounds, Array.toList_setIfInBounds]
    exact rel_set h.globals slot.toNat hv
  · exact .error _ h

theorem agree_addGlobal (hv : A.Matches v v') :
    A.Act (addGlobal v) (addGlobal v') := by
  refine .modify fun h => { h with globals := ?_ }
  rw [Array.toList_push, Array.toList_push]
  exact rel_concat h.globals hv

/-! ## Captured variables -/

theorem agree_inStore {f : StateM Store α} {g : StateM Store β}
    (h : ∀ {s s'}, A.MatchesStore s s' → A.MatchesStore (f s).2 (g s').2 ∧ R (f s).1 (g s').1) :
    A.Agree R (inStore f) (inStore g) := by
  intro m m' hm
  exact .ok (h hm.store).2 { hm with store := (h hm.store).1 }

theorem agree_capturedCell (index : UInt32) :
    A.Agree A.cell (capturedCell index) (capturedCell index) := by
  intro m m' h
  have hr := rel_getElem? h.frame.closure.captures index.toNat
  unfold capturedCell
  generalize m.frame.closure.captures[index.toNat]? = r at hr ⊢
  generalize m'.frame.closure.captures[index.toNat]? = r' at hr ⊢
  cases hr with
  | none => exact .error _ h
  | some hr => exact .ok hr h

theorem agree_openCell (slot position : Nat) :
    A.Agree A.cell (openCell slot position) (openCell slot position) := by
  refine Agree.get.bind fun m m' h => ?_
  have hr : Option.Rel A.cell (m.openCells.find? fun ref => (m.store.cell ref).slot.toNat = slot)
      (m'.openCells.find? fun ref => (m'.store.cell ref).slot.toNat = slot) := by
    refine rel_find? h.openCells fun r r' hr => ?_
    rw [(h.store.cell hr).slot]
  generalize m.openCells.find? _ = r at hr ⊢
  generalize m'.openCells.find? _ = r' at hr ⊢
  cases hr with
  | some hr => exact .pure hr
  | none =>
    have hnew : A.Agree A.cell (inStore (Store.newCell ⟨slot.toUInt32, position.toUInt32, none⟩))
        (inStore (Store.newCell ⟨slot.toUInt32, position.toUInt32, none⟩)) :=
      agree_inStore fun hs => hs.newCell ⟨rfl, rfl, .none⟩
    refine hnew.bind fun r r' hr => ?_
    refine Agree.andThen (.modify fun h => ?_) fun _ _ => .pure hr
    exact { h with openCells := rel_concat h.openCells hr }

theorem agree_readCell {r r' : CellRef} (hr : A.cell r r') :
    A.Agree A.Matches (readCell r) (readCell r') := by
  refine Agree.get.bind fun m m' h => ?_
  have hc := h.store.cell hr
  generalize m.store.cell r = c at hc ⊢
  generalize m'.store.cell r' = c' at hc ⊢
  obtain ⟨slot, position, closed⟩ := c
  obtain ⟨slot', position', closed'⟩ := c'
  obtain rfl : slot = slot' := hc.slot
  cases hc.closed with
  | some hv => exact .pure hv
  | none => exact agree_getLocal slot.toNat

theorem agree_writeCell {r r' : CellRef} (hr : A.cell r r') (hv : A.Matches v v') :
    A.Act (writeCell r v) (writeCell r' v') := by
  refine Agree.get.bind fun m m' h => ?_
  have hc := h.store.cell hr
  generalize m.store.cell r = c at hc ⊢
  generalize m'.store.cell r' = c' at hc ⊢
  obtain ⟨slot, position, closed⟩ := c
  obtain ⟨slot', position', closed'⟩ := c'
  obtain rfl : slot = slot' := hc.slot
  cases hc.closed with
  | some _ => exact .modify fun h => { h with store := h.store.setCell hr ⟨rfl, hc.position, .some hv⟩ }
  | none => exact agree_setLocal slot.toNat hv

theorem MatchesStore.closeCells {locals locals' : Array Value} {refs refs' : List CellRef}
    (hl : List.Forall₂ A.Matches locals.toList locals'.toList) (hr : List.Forall₂ A.cell refs refs')
    (hs : A.MatchesStore s s') :
    A.MatchesStore (refs.foldl (closeCell locals) s) (refs'.foldl (closeCell locals') s') := by
  induction hr generalizing s s' with
  | nil => exact hs
  | @cons r r' _ _ hr _ ih =>
    refine ih (hs.setCell hr ?_)
    have hc := hs.cell hr
    refine ⟨hc.slot, hc.position, .some ?_⟩
    have hv := rel_getElem?_array hl (s.cell r).slot.toNat
    rw [← hc.slot]
    generalize locals[(s.cell r).slot.toNat]? = v at hv ⊢
    generalize locals'[(s.cell r).slot.toNat]? = v' at hv ⊢
    cases hv with
    | none => exact .scalar rfl
    | some hv => exact hv

theorem agree_truncateLocals (size : Nat) :
    A.Act (truncateLocals size) (truncateLocals size) := by
  refine .modify fun {m m'} h => ?_
  have hp (r r' : CellRef) (hr : A.cell r r') :
      decide ((m.store.cell r).slot.toNat < size) = decide ((m'.store.cell r').slot.toNat < size) := by
    rw [(h.store.cell hr).slot]
  rw [List.partition_eq_filter_filter, List.partition_eq_filter_filter]
  refine { h with store := h.store.closeCells h.locals ?_, locals := ?_, openCells := ?_ }
  · refine List.rel_filter (R := A.cell) (fun r r' hr => ?_) h.openCells
    simp only [Function.comp_apply, hp r r' hr]
  · rw [Array.toList_shrink, Array.toList_shrink]
    exact List.forall₂_take size h.locals
  · refine List.rel_filter (R := A.cell) (fun r r' hr => ?_) h.openCells
    simp only [hp r r' hr]

theorem agree_dropLocals (n : Nat) : A.Act (dropLocals n) (dropLocals n) := by
  refine Agree.get.bind fun m m' h => ?_
  show A.Agree _ (if n ≤ m.locals.size then _ else _) (if n ≤ m'.locals.size then _ else _)
  rw [size_eq_of_forall₂ h.locals]
  split
  · exact agree_truncateLocals _
  · exact .throw _

theorem agree_captureCells (position : Nat) (captures : List Capture) :
    A.Agree (List.Forall₂ A.cell) (captureCells position captures)
      (captureCells position captures) := by
  induction captures generalizing position with
  | nil => exact .pure .nil
  | cons c cs ih =>
    have hrest (r r' : CellRef) (hr : A.cell r r') : A.Agree (List.Forall₂ A.cell)
        (do let refs ← captureCells (position + 1) cs
            return r :: refs)
        (do let refs ← captureCells (position + 1) cs
            return r' :: refs) :=
      (ih (position + 1)).bind fun refs refs' hrefs => .pure (.cons hr hrefs)
    rw [captureCells_cons]
    split
    · exact (agree_localSlot c.index).bindEq fun slot => (agree_openCell slot position).bind hrest
    · exact (agree_capturedCell c.index).bind hrest

/-! ## Calls -/

variable (A) in
/-- Hosts that do the same for arguments that match, after the same calls. -/
structure Hosts (host host' : Host) : Prop where
  watches : ∀ n, host.watches n = host'.watches n
  answer : ∀ calls n {s s' : Store} {vs vs' : List Value}, A.MatchesStore s s' →
    List.Forall₂ A.Matches vs vs' →
    (∃ message, host.answer calls n s vs = .error message ∧
        host'.answer calls n s' vs' = .error message) ∨
      ∃ v v', host.answer calls n s vs = .ok v ∧ host'.answer calls n s' vs' = .ok v' ∧ A.Matches v v'

theorem agree_callee (argc : Nat) : A.Agree A.Matches (callee argc) (callee argc) :=
  fun _ _ h => .lookup h .stackUnderflow (rel_getElem? h.stack argc)

theorem agree_checkArity (name : String) (expected : UInt32) (argc : Nat) :
    A.Act (checkArity name expected argc) (checkArity name expected argc) := by
  unfold checkArity
  split
  · exact .throw _
  · exact .pure trivial

theorem agree_enter {c c' : Value.Code} (hc : A.Code c c') (argc : Nat) :
    A.Act (enter c argc) (enter c' argc) := by
  unfold enter
  rw [show c.name = c'.name from A.name hc.function, A.arity hc.function]
  refine (agree_checkArity _ _ _).andThen fun _ _ => Agree.get.bind fun m m' h => ?_
  rw [h.callers.length_eq]
  split
  · exact .throw _
  · refine (agree_popMany _).bind fun vs vs' hvs => .modify fun {n n'} hn => ?_
    refine { hn with locals := ?_, frame := ?_, callers := .cons hn.frame hn.callers }
    · rw [Array.toList_append, Array.toList_append]
      exact List.rel_append hn.locals hvs
    · exact ⟨hc, rfl, size_eq_of_forall₂ hn.locals, hn.stack.length_eq⟩

theorem agree_construct (hr : A.RecordType r r') (argc : Nat) :
    A.Act (construct r argc) (construct r' argc) := by
  unfold construct
  rw [hr.fields, hr.name]
  show A.Agree _ (if argc ≠ r'.body.fields.length then _ else _)
    (if argc ≠ r'.body.fields.length then _ else _)
  split
  · exact .throw _
  · refine (agree_popMany argc).bind fun vs vs' hvs => agree_pop.bind fun _ _ _ => ?_
    have hnew : A.Agree A.inst (inStore (Store.newInstance ⟨vs, r⟩))
        (inStore (Store.newInstance ⟨vs', r'⟩)) :=
      agree_inStore fun hs => hs.newInstance ⟨hvs, hr⟩
    exact hnew.bind fun i i' hi => agree_push (.instanceOf hi)

theorem agree_callHost (hh : A.Hosts host host') (native : Native) (argc : Nat) :
    A.Act (callHost host native argc) (callHost host' native argc) := by
  unfold callHost
  refine (agree_checkArity _ _ _).andThen fun _ _ => (agree_popMany argc).bind fun vs vs' hvs =>
    agree_pop.bind fun _ _ _ => Agree.get.bind fun m m' h => ?_
  rw [h.calls]
  have hwatched {x x' : Exec Unit} (hx : A.Act x x') : A.Act
      (if host.watches native then
        set { m with calls := ⟨native, vs.map m.store.shown⟩ :: m'.calls } >>= fun _ => x else x)
      (if host'.watches native then
        set { m' with calls := ⟨native, vs'.map m'.store.shown⟩ :: m'.calls } >>= fun _ => x' else x') := by
    rw [hh.watches native]
    by_cases hw : host'.watches native = true
    · rw [if_pos hw, if_pos hw]
      refine Agree.andThen (.set { h with calls := ?_ }) fun _ _ => hx
      rw [map_eq_of_forall₂ (fun _ _ hv => h.store.shown hv) hvs]
    · rw [if_neg hw, if_neg hw]
      exact hx
  rcases hh.answer m'.calls native h.store hvs with ⟨message, he, he'⟩ | ⟨v, v', hv, hv', hvv⟩
  · rw [he, he']
    exact hwatched (.throw _)
  · rw [hv, hv']
    exact hwatched (agree_push hvv)

theorem agree_call (hh : A.Hosts host host') (argc : Nat) :
    A.Act (call host argc) (call host' argc) := by
  refine (agree_callee argc).bind fun v v' hv => ?_
  cases hv with
  | scalar hs => cases v <;> first | exact .throw _ | cases hs
  | native n => exact agree_callHost hh n argc
  | function _ hf => exact agree_enter ⟨hf, .nil⟩ argc
  | closure hc => exact agree_enter hc.body argc
  | record hr => exact agree_construct hr argc
  | instanceOf _ => exact .throw _
  | bound hr hm => exact (agree_replace argc hr).andThen fun _ _ => agree_enter hm.body argc

/-! ## Properties -/

variable (A) in
/-- Properties with matching values or methods. -/
inductive MatchesProperty : Property → Property → Prop
  | field {v v' : Value} : A.Matches v v' → MatchesProperty (.field v) (.field v')
  | method {c c' : Value.Method} : A.Method c c' → MatchesProperty (.method c) (.method c')

theorem slot?_eq (hr : A.RecordType r r') (name : String) :
    r.body.slot? name = r'.body.slot? name := by
  unfold Record.slot?
  rw [hr.fields]

theorem rel_get? {i i' : Instance} (hi : A.MatchesInstance i i') (name : String) :
    Option.Rel A.Matches (i.get? name) (i'.get? name) := by
  unfold Instance.get?
  rw [slot?_eq hi.record]
  cases i'.record.body.slot? name with
  | none => exact .none
  | some slot => exact rel_getElem? hi.fields slot

theorem rel_set? {i i' : Instance} (hi : A.MatchesInstance i i') (name : String)
    (hv : A.Matches v v') : Option.Rel A.MatchesInstance (i.set? name v) (i'.set? name v') := by
  unfold Instance.set?
  rw [slot?_eq hi.record]
  cases i'.record.body.slot? name with
  | none => exact .none
  | some slot =>
    show Option.Rel _ (if slot < i.fields.length then _ else _)
      (if slot < i'.fields.length then _ else _)
    rw [hi.fields.length_eq]
    split
    · exact .some ⟨rel_set hi.fields slot hv, hi.record⟩
    · exact .none

theorem rel_method? (hr : A.RecordType r r') (name : String) :
    Option.Rel A.Method (r.body.method? name) (r'.body.method? name) := by
  refine rel_find? hr.methods fun c c' hc => ?_
  rw [show c.body.name = c'.body.name from A.name hc.body.function]

theorem rel_property? (hs : A.MatchesStore s s') (hv : A.Matches v v') (name : String) :
    Option.Rel A.MatchesProperty (property? s v name) (property? s' v' name) := by
  cases hv with
  | scalar h => cases v <;> first | exact .none | cases h
  | instanceOf hr =>
    refine rel_bind (hs.instances hr) fun i i' hi => ?_
    have hg := rel_get? hi name
    generalize i.get? name = g at hg ⊢
    generalize i'.get? name = g' at hg ⊢
    cases hg with
    | some hg => exact .some (.field hg)
    | none => exact rel_optionMap (rel_method? hi.record name) fun _ _ hm => .method hm
  | _ => exact .none

theorem ownerName_eq (hs : A.MatchesStore s s') (hv : A.Matches v v') :
    ownerName s v = ownerName s' v' := by
  cases hv with
  | @instanceOf r r' hr =>
    have hi := hs.instances hr
    show ((s.instance? r).map _).getD _ = ((s'.instance? r').map _).getD _
    generalize s.instance? r = i at hi ⊢
    generalize s'.instance? r' = i' at hi ⊢
    cases hi with
    | none => rfl
    | some hi => exact hi.record.name
  | scalar h => cases v <;> first | rfl | cases h
  | _ => rfl

theorem agree_property (hv : A.Matches v v') (name : String) :
    A.Agree A.MatchesProperty (property v name) (property v' name) := by
  refine Agree.get.bind fun m m' h => ?_
  have hp := rel_property? h.store hv name
  dsimp only
  rw [ownerName_eq h.store hv]
  generalize property? m.store v name = p at hp ⊢
  generalize property? m'.store v' name = p' at hp ⊢
  cases hp with
  | none => exact .throw _
  | some hp => exact .pure hp

theorem agree_getProperty (hv : A.Matches v v') (name : String) :
    A.Agree A.Matches (getProperty v name) (getProperty v' name) := by
  refine (agree_property hv name).bind fun p p' hp => ?_
  cases hp with
  | field hf => exact .pure hf
  | method hm => exact .pure (.bound hv hm)

theorem agree_setProperty {v v' w w' : Value} (hv : A.Matches v v') (name : String)
    (hw : A.Matches w w') :
    A.Act (setProperty v name w) (setProperty v' name w') := by
  refine Agree.get.bind fun m m' h => ?_
  dsimp only
  rw [ownerName_eq h.store hv]
  cases hv with
  | scalar h => cases v <;> first | exact .throw _ | cases h
  | @instanceOf r r' hr =>
    have hs : Option.Rel A.MatchesStore
        ((m.store.instance? r).bind fun i => (i.set? name w).map fun i => m.store.setInstance r i)
        ((m'.store.instance? r').bind fun i =>
          (i.set? name w').map fun i => m'.store.setInstance r' i) :=
      rel_bind (h.store.instances hr) fun i i' hi =>
        rel_optionMap (rel_set? hi name hw) fun _ _ hj => h.store.setInstance hr hj
    dsimp only
    generalize (m.store.instance? r).bind _ = s at hs ⊢
    generalize (m'.store.instance? r').bind _ = s' at hs ⊢
    cases hs with
    | none => exact .throw _
    | some hs => exact .modify fun h => { h with store := hs }
  | _ => exact .throw _

theorem agree_callProperty (hh : A.Hosts host host') (name : String) (argc : Nat) :
    A.Act (callProperty host name argc) (callProperty host' name argc) := by
  refine (agree_callee argc).bind fun v v' hv => (agree_property hv name).bind fun p p' hp => ?_
  cases hp with
  | field hf => exact (agree_replace argc hf).andThen fun _ _ => agree_call hh argc
  | method hm => exact agree_enter hm.body argc

/-! ## Methods -/

theorem agree_asMethods {vs vs' : List Value} (h : List.Forall₂ A.Matches vs vs') :
    A.Agree (List.Forall₂ A.Method) (asMethods vs) (asMethods vs') := by
  induction h with
  | nil => exact .pure .nil
  | @cons v v' _ _ hv _ ih =>
    cases hv with
    | scalar h => cases v <;> first | exact .throw _ | cases h
    | closure hc => exact ih.bind fun cs cs' hcs => .pure (.cons hc hcs)
    | _ => exact .throw _

theorem agree_appendMethods (n : Nat) :
    A.Act (appendMethods n) (appendMethods n) := by
  refine (agree_popMany n).bind fun vs vs' hvs => (agree_asMethods hvs).bind fun cs cs' hcs =>
    agree_pop.bind fun v v' hv => ?_
  cases hv with
  | scalar h => cases v <;> first | exact .throw _ | cases h
  | @record r r' hr =>
    refine Agree.bind (R := A.RecordType) (agree_inStore fun hs => ?_) fun _ _ hr =>
      agree_push (.record hr)
    refine ⟨(hs.newObject _ _).1, (hs.newObject _ _).2, hr.name, hr.fields, ?_, ?_⟩
    · exact List.rel_append hr.methods hcs
    · exact hs.newRecords 0 _ _
  | _ => exact .throw _

/-! ## Operators -/

variable (A) in
/-- Results of an operator: the same fault, or matching values. -/
inductive SameResult : Except Fault Value → Except Fault Value → Prop
  | ok {v v' : Value} : A.Matches v v' → SameResult (.ok v) (.ok v')
  | error (e : Fault) : SameResult (.error e) (.error e)

theorem SameResult.refl {r : Except Fault Value} (h : ∀ v, r = .ok v → v.isScalar = true) :
    A.SameResult r r := by
  cases r with
  | ok v => exact .ok (.scalar (h v rfl))
  | error e => exact .error e

theorem sameResult_of_scalar {f : Value → Value → Except Fault Value}
    (hf : ∀ a b v, f a b = .ok v → v.isScalar = true) {e : Kind → Kind → Fault}
    (he : ∀ a b, a.isScalar = false ∨ b.isScalar = false → f a b = .error (e a.kind b.kind))
    (ha : A.Matches a a') (hb : A.Matches b b') : A.SameResult (f a b) (f a' b') := by
  by_cases h : a.isScalar = false ∨ b.isScalar = false
  · rw [he a b h, he a' b' (ha.isScalar_eq ▸ hb.isScalar_eq ▸ h), ha.kind, hb.kind]
    exact .error _
  · rw [not_or, Bool.not_eq_false, Bool.not_eq_false] at h
    rw [← ha.eq_of_isScalar h.1, ← hb.eq_of_isScalar h.2]
    exact .refl fun v => hf a b v

theorem toDouble?_of_not_isScalar (h : v.isScalar = false) : v.toDouble? = none := by
  cases v <;> first | rfl | cases h

theorem sameResult_arithmetic (op : Arithmetic) (ha : A.Matches a a') (hb : A.Matches b b') :
    A.SameResult (arithmetic op a b) (arithmetic op a' b') := by
  refine sameResult_of_scalar (f := arithmetic op) (e := .typeMismatch op.symbol)
    (fun _ _ _ => isScalar_arithmetic) (fun a b h => ?_) ha hb
  unfold arithmetic
  split
  · simp [Value.isScalar] at h
  · simp [Value.isScalar] at h
  · simp [Value.isScalar] at h
  · rcases h with h | h
    · rw [toDouble?_of_not_isScalar h]
    · rw [toDouble?_of_not_isScalar h]
      cases a.toDouble? <;> rfl

theorem comparable_of_not_isScalar (h : a.isScalar = false ∨ b.isScalar = false) :
    a.comparable b = false := by
  unfold Value.comparable
  split <;> first | rfl | simp [Value.isScalar] at h

theorem sameResult_compared (op : Opcode) (accept : Ordering → Bool) (ha : A.Matches a a')
    (hb : A.Matches b b') : A.SameResult (compared op accept a b) (compared op accept a' b') := by
  refine sameResult_of_scalar (f := compared op accept) (e := .typeMismatch op.mnemonic)
    (fun _ _ _ => isScalar_compared) (fun a b h => ?_) ha hb
  unfold compared
  rw [comparable_of_not_isScalar h]
  rfl

theorem sameResult_ranged (op : Opcode) (inclusive : Bool) (ha : A.Matches a a')
    (hb : A.Matches b b') : A.SameResult (ranged op inclusive a b) (ranged op inclusive a' b') := by
  refine sameResult_of_scalar (f := ranged op inclusive) (e := .typeMismatch op.mnemonic)
    (fun _ _ _ => isScalar_ranged) (fun a b h => ?_) ha hb
  unfold ranged
  split
  · simp [Value.isScalar] at h
  · rfl

theorem sameResult_negated (ha : A.Matches a a') : A.SameResult (negated a) (negated a') := by
  cases ha with
  | scalar h =>
    cases a with
    | int n =>
      simp only [negated]
      cases Integer.negate n with
      | ok k => exact .ok (.scalar rfl)
      | error e => exact .error _
    | float x => exact .ok (.scalar rfl)
    | _ => exact .error _
  | _ => exact .error _

theorem SameResult.agree {r r' : Except Fault Value} : A.SameResult r r' → A.Act
    (match r with | .ok v => push v | .error e => throw e)
    (match r' with | .ok v => push v | .error e => throw e)
  | .ok hv => agree_push hv
  | .error e => .throw e

theorem agree_binary {f : Value → Value → Except Fault Value}
    (hf : ∀ {a a' b b'}, A.Matches a a' → A.Matches b b' → A.SameResult (f a b) (f a' b')) :
    A.Act (binary f) (binary f) :=
  agree_pop.bind fun _ _ hb => agree_pop.bind fun _ _ ha => (hf ha hb).agree

theorem agree_unary {f : Value → Except Fault Value}
    (hf : ∀ {a a'}, A.Matches a a' → A.SameResult (f a) (f a')) :
    A.Act (unary f) (unary f) :=
  agree_pop.bind fun _ _ ha => (hf ha).agree

theorem agree_expectBool (op : Opcode) (hv : A.Matches v v') :
    A.Agree (· = ·) (expectBool op v) (expectBool op v') := by
  cases hv with
  | scalar h => cases v <;> first | exact .pure rfl | exact .throw _
  | _ => exact .throw _

theorem agree_expectRange (op : Opcode) (expected : String) (hv : A.Matches v v') :
    A.Agree (· = ·) (expectRange op expected v) (expectRange op expected v') := by
  cases hv with
  | scalar h => cases v <;> first | exact .pure rfl | exact .throw _
  | _ => exact .throw _

theorem agree_connective (op : Opcode) (f : Bool → Bool → Bool) :
    A.Act (connective op f) (connective op f) := by
  exact agree_pop.bind fun b b' hb => agree_pop.bind fun a a' ha =>
    (agree_expectBool op ha).bindEq fun _ => (agree_expectBool op hb).bindEq fun _ =>
      agree_push (.scalar rfl)

/-! ## Instructions -/

theorem agree_leave (hv : A.Matches v v') : A.Agree (· = ·) (leave v) (leave v') := by
  refine Agree.get.bind fun m m' h => ?_
  rw [h.frame.localsBase]
  refine (agree_truncateLocals _).andThen fun _ _ => ?_
  refine Agree.andThen (.modify fun {n n'} hn => ?_) fun _ _ => ?_
  · rw [hn.stack.length_eq, hn.frame.stackBase]
    exact { hn with stack := List.forall₂_drop _ hn.stack }
  · have hc := h.callers
    generalize m.callers = callers at hc ⊢
    generalize m'.callers = callers' at hc ⊢
    cases hc with
    | nil => exact .pure rfl
    | cons hf hc =>
      refine Agree.andThen (.modify fun hn => ?_) fun _ _ =>
        (agree_push hv).andThen fun _ _ => .pure rfl
      exact { hn with frame := hf, callers := hc }

/-- Making closures of functions that correspond. -/
theorem agree_closure {f f' : Function Value} (hf : A.function f f') (captures : List Capture) :
    A.Act
      (do let cells ← captureCells 0 captures
          push (.closure (← inStore (Store.newObject ⟨f, cells⟩))))
      (do let cells ← captureCells 0 captures
          push (.closure (← inStore (Store.newObject ⟨f', cells⟩)))) := by
  refine (agree_captureCells 0 captures).bind fun cells cells' hcells => ?_
  refine Agree.bind (R := A.Method) (agree_inStore fun hs => ?_) fun _ _ hc => agree_push (.closure hc)
  exact ⟨(hs.newObject _ _).1, (hs.newObject _ _).2, hf, hcells⟩

theorem agree_jumpTo (ip : Nat) : A.Act (jumpTo ip) (jumpTo ip) :=
  .modify fun h => { h with frame := { h.frame with ip := rfl } }

theorem agree_jumpIf (op : Opcode) (wanted : Bool) (target : Nat) :
    A.Act (jumpIf op wanted target) (jumpIf op wanted target) := by
  refine agree_peek.bind fun v v' hv => (agree_expectBool op hv).bindEq fun b => ?_
  split
  · exact agree_jumpTo target
  · exact .pure trivial

/-! ## Machines with the same code -/

variable (A) in
/-- Functions that correspond have the same code and matching constants. -/
structure SameCode : Prop where
  code : ∀ {f f'}, A.function f f' → f.chunk.code = f'.chunk.code
  title : ∀ {f f'}, A.function f f' → f.chunk.title = f'.chunk.title
  constants : ∀ {f f'}, A.function f f' →
    List.Forall₂ A.Matches f.chunk.constants f'.chunk.constants

section SameCode

variable (hA : A.SameCode)

include hA

theorem SameCode.agree_constant (index : UInt32) :
    A.Agree A.Matches (constant index) (constant index) :=
  fun _ _ h => .lookup h (.invalidConstant index) (rel_getElem? (hA.constants h.frame.closure.function) index.toNat)

theorem SameCode.agree_nameConstant (index : UInt32) :
    A.Agree (· = ·) (nameConstant index) (nameConstant index) := by
  refine (hA.agree_constant index).bind fun v v' hv => ?_
  cases hv with
  | scalar hs => cases v <;> first | exact .pure rfl | exact .throw _
  | _ => exact .throw _

theorem SameCode.agree_makeClosure (index : UInt32) (captures : List Capture) :
    A.Act (makeClosure index captures) (makeClosure index captures) := by
  refine (hA.agree_constant index).bind fun v v' hv => ?_
  cases hv with
  | scalar hs => cases v <;> first | exact .throw _ | cases hs
  | function _ hf => exact agree_closure hf captures
  | _ => exact .throw _

theorem SameCode.agree_execute (hh : A.Hosts host host') (op : Opcode) (args : op.format.Args)
    (ip next : Nat) :
    A.Agree (· = ·) (execute host ip next op args) (execute host' ip next op args) := by
  cases op with
  | pushConst => exact (hA.agree_constant args).bind fun _ _ hv => (agree_push hv).goesOn
  | pushClosure => exact (hA.agree_makeClosure args.1 args.2).goesOn
  | getProperty =>
    exact (hA.agree_nameConstant args).bindEq fun name => agree_pop.bind fun _ _ hv =>
      (agree_getProperty hv name).bind fun _ _ hw => (agree_push hw).goesOn
  | setProperty =>
    exact (hA.agree_nameConstant args).bindEq fun name => agree_pop.bind fun _ _ hv =>
      agree_pop.bind fun _ _ hw => (agree_setProperty hw name hv).andThen fun _ _ =>
        (agree_push hv).goesOn
  | callProperty =>
    exact (hA.agree_nameConstant args.1).bindEq fun name => (agree_callProperty hh name _).goesOn
  | jump => exact (agree_jumpTo _).goesOn
  | jumpTrue | jumpFalse => exact (agree_jumpIf _ _ _).goesOn
  | jumpHasNoNext =>
    refine agree_peek.bind fun _ _ hv => (agree_expectRange _ _ hv).bindEq fun r => ?_
    split
    · exact (agree_jumpTo _).goesOn
    · exact .pure rfl
  | loop =>
    show A.Agree _ (if _ then _ else _) (if _ then _ else _)
    split
    · exact (agree_jumpTo _).goesOn
    · exact .throw _
  | pushTrue | pushFalse | pushNil | pushVoid =>
    exact (agree_push (.scalar rfl)).goesOn
  | pop => exact agree_pop.goesOn
  | defLocal => exact agree_pop.bind fun _ _ hv => (agree_addLocal hv).goesOn
  | getLocal =>
    exact (agree_localSlot args).bindEq fun slot => (agree_getLocal slot).bind fun _ _ hv =>
      (agree_push hv).goesOn
  | setLocal =>
    exact agree_peek.bind fun _ _ hv => (agree_localSlot args).bindEq fun slot =>
      (agree_setLocal slot hv).goesOn
  | popLocal | closeUpvalue => exact (agree_dropLocals 1).goesOn
  | popnLocal => exact (agree_dropLocals _).goesOn
  | getUpvalue =>
    exact (agree_capturedCell args).bind fun _ _ hr => (agree_readCell hr).bind fun _ _ hv =>
      (agree_push hv).goesOn
  | setUpvalue =>
    exact (agree_capturedCell args).bind fun _ _ hr => agree_peek.bind fun _ _ hv =>
      (agree_writeCell hr hv).goesOn
  | defGlobal => exact agree_pop.bind fun _ _ hv => (agree_addGlobal hv).goesOn
  | getGlobal => exact (agree_getGlobal args).bind fun _ _ hv => (agree_push hv).goesOn
  | setGlobal => exact agree_peek.bind fun _ _ hv => (agree_setGlobal args hv).goesOn
  | call => exact (agree_call hh _).goesOn
  | appendMethods => exact (agree_appendMethods _).goesOn
  | add | sub | mul | div | mod =>
    exact (agree_binary fun ha hb => sameResult_arithmetic _ ha hb).goesOn
  | neg => exact (agree_unary fun ha => sameResult_negated ha).goesOn
  | eq | ne =>
    refine (agree_binary fun ha hb => ?_).goesOn
    rw [ha.equals hb]
    exact .ok (.scalar rfl)
  | lt | le | gt | ge =>
    exact (agree_binary fun ha hb => sameResult_compared _ _ ha hb).goesOn
  | not =>
    exact agree_pop.bind fun _ _ hv => (agree_expectBool _ hv).bindEq fun _ =>
      (agree_push (.scalar rfl)).goesOn
  | and | or => exact (agree_connective _ _).goesOn
  | assertBool => exact agree_peek.bind fun _ _ hv => (agree_expectBool _ hv).goesOn
  | makeRange | makeInclRange =>
    exact (agree_binary fun ha hb => sameResult_ranged _ _ ha hb).goesOn
  | makeIterator => exact agree_peek.bind fun _ _ hv => (agree_expectRange _ _ hv).goesOn
  | getNext =>
    exact agree_peek.bind fun _ _ hv => (agree_expectRange _ _ hv).bindEq fun _ =>
      (agree_push (.scalar rfl)).goesOn
  | advance =>
    exact agree_peek.bind fun _ _ hv => (agree_expectRange _ _ hv).bindEq fun _ =>
      (agree_replace 0 (.scalar rfl)).goesOn
  | «return» => exact agree_pop.bind fun _ _ hv => agree_leave hv
  | returnVoid => exact agree_leave (.scalar rfl)
  | exitSuccess => exact .pure rfl

theorem SameCode.fetch {f f' : Function Value} (hf : A.function f f') (ip : Nat) :
    fetch f.chunk ip = fetch f'.chunk ip := by
  unfold Machine.fetch
  rw [hA.code hf, hA.title hf]

/-- A step does the same to machines that match. -/
theorem SameCode.agree_step (hh : A.Hosts host host') :
    A.Agree (· = ·) (step host) (step host') := by
  refine Agree.get.bind fun m m' h => ?_
  rw [hA.fetch h.frame.closure.function, h.frame.ip]
  cases Machine.fetch m'.chunk m'.frame.ip with
  | error e => exact .throw e
  | ok r => exact (agree_jumpTo _).andThen fun _ _ => hA.agree_execute hh _ _ _ _

/-- Runs of machines that match end in the same way. -/
theorem SameCode.run (hh : A.Hosts host host') (steps : Nat) (h : A.MatchesMachine m m') :
    (run host steps m).1 = (run host' steps m').1 ∧
      A.MatchesMachine (run host steps m).2 (run host' steps m').2 := by
  induction steps generalizing m m' with
  | zero => exact ⟨rfl, h⟩
  | succ steps ih =>
    have hstep := hA.agree_step hh m m' h
    unfold Machine.run
    generalize step host m = r at hstep ⊢
    generalize step host' m' = r' at hstep ⊢
    cases hstep with
    | @ok status _ n n' hs hn =>
      subst hs
      cases status with
      | running => exact ih hn
      | finished => exact ⟨rfl, hn⟩
    | error e hn => exact ⟨rfl, hn⟩

end SameCode

end StackScript.Matching
