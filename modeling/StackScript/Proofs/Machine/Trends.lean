import StackScript.Proofs.Machine.Cells

/-!
# What all operations have in common

Some facts hold between a machine and any later one, whatever the program does and whether it
succeeds or fails. Such a fact has to be looked at only for opening, writing and closing cells; from
these it follows for steps and for runs.
-/

namespace StackScript.Machine

variable {α β : Type}

/-- The machine that an operation leaves behind, even if it fails. -/
def left : EStateM.Result Fault Machine α → Machine
  | .ok _ m | .error _ m => m

/-- A relation of machines to later ones, as long as cells are opened only for some locals. -/
structure Trend where
  holds : Machine → Machine → Prop
  opensFor : Nat → Prop
  trans {m₁ m₂ m₃ : Machine} : holds m₁ m₂ → holds m₂ m₃ → holds m₁ m₃
  stays {m m' : Machine} : m'.store.cells = m.store.cells → m'.openCells = m.openCells →
    m.store.fresh ≤ m'.store.fresh → holds m m'
  opens {slot : Nat} (position : Nat) (m : Machine) : opensFor slot →
    holds m (left (openCell slot position m))
  writes (ref : CellRef) (v : Value) (m : Machine) : holds m (left (writeCell ref v m))
  drops (size : Nat) (m : Machine) : holds m (left (truncateLocals size m))

/-- The operation respects the relation. -/
def Trend.Along (T : Trend) (x : Exec α) : Prop := ∀ m, T.holds m (left (x m))

variable {T : Trend}

theorem Trend.same {m m' : Machine} (hs : m'.store = m.store) (ho : m'.openCells = m.openCells) :
    T.holds m m' := T.stays (by rw [hs]) ho (Nat.le_of_eq (by rw [hs]))

theorem Trend.refl (m : Machine) : T.holds m m := T.same rfl rfl

theorem Trend.bind {x : Exec α} {f : α → Exec β} {m : Machine} (hx : T.holds m (left (x m)))
    (hf : ∀ a m', x m = .ok a m' → T.holds m' (left (f a m'))) :
    T.holds m (left ((x >>= f) m)) := by
  cases hr : x m with
  | ok a m₁ =>
    rw [hr] at hx
    rw [bind_ok hr]
    exact T.trans hx (hf a m₁ hr)
  | error e m₁ =>
    rw [hr] at hx
    rwa [bind_error hr]

namespace Trend.Along

theorem pure (a : α) : T.Along (pure a) := refl

theorem throw (e : Fault) : T.Along (throw e : Exec α) := refl

theorem get : T.Along (get : Exec Machine) := refl

theorem bind {x : Exec α} {f : α → Exec β} (hx : T.Along x) (hf : ∀ a, T.Along (f a)) :
    T.Along (x >>= f) := fun m => Trend.bind (hx m) fun a m' _ => hf a m'

theorem ofGet {f : Machine → Exec α} (h : ∀ m, T.holds m (left (f m m))) :
    T.Along (MonadState.get >>= f) := h

theorem modify {f : Machine → Machine}
    (h : ∀ m, (f m).store = m.store ∧ (f m).openCells = m.openCells) : T.Along (modify f) :=
  fun m => T.same (h m).1 (h m).2

theorem inStore {f : StateM Store α}
    (h : ∀ s, (f s).2.cells = s.cells ∧ s.fresh ≤ (f s).2.fresh) : T.Along (inStore f) :=
  fun m => T.stays (h m.store).1 rfl (h m.store).2

end Trend.Along

/-! ## Operations -/

theorem along_push (v : Value) : T.Along (push v) := .modify fun _ => ⟨rfl, rfl⟩

theorem along_pop : T.Along pop := by
  intro m
  unfold pop
  split <;> exact T.same rfl rfl

theorem along_peek : T.Along peek := by
  intro m
  unfold peek
  split <;> exact T.same rfl rfl

theorem along_replace (depth : Nat) (v : Value) : T.Along (replace depth v) := .modify fun _ => ⟨rfl, rfl⟩

theorem along_popMany (n : Nat) : T.Along (popMany n) := by
  intro m
  unfold popMany
  split <;> exact T.same rfl rfl

theorem along_jumpTo (ip : Nat) : T.Along (jumpTo ip) := .modify fun _ => ⟨rfl, rfl⟩

theorem along_constant (index : UInt32) : T.Along (constant index) := by
  intro m
  unfold constant
  split <;> exact T.same rfl rfl

theorem along_nameConstant (index : UInt32) : T.Along (nameConstant index) := by
  refine (along_constant index).bind fun v => ?_
  split
  · exact .pure _
  · exact .throw _

theorem along_localSlot (slot : UInt32) : T.Along (localSlot slot) := T.refl

theorem along_getLocal (slot : Nat) : T.Along (getLocal slot) := by
  intro m
  unfold getLocal
  split <;> exact T.same rfl rfl

theorem along_setLocal (slot : Nat) (v : Value) : T.Along (setLocal slot v) := by
  intro m
  unfold setLocal
  split <;> exact T.same rfl rfl

theorem along_getGlobal (slot : UInt32) : T.Along (getGlobal slot) := by
  intro m
  unfold getGlobal
  split <;> exact T.same rfl rfl

theorem along_setGlobal (slot : UInt32) (v : Value) : T.Along (setGlobal slot v) := by
  intro m
  unfold setGlobal
  split <;> exact T.same rfl rfl

theorem along_capturedCell (index : UInt32) : T.Along (capturedCell index) := by
  intro m
  unfold capturedCell
  split <;> exact T.same rfl rfl

theorem along_newObject {body : β} : T.Along (inStore (Store.newObject body)) :=
  .inStore fun s => ⟨rfl, Nat.le_succ s.fresh⟩

theorem along_readCell (ref : CellRef) : T.Along (readCell ref) := by
  refine Trend.Along.get.bind fun m => ?_
  dsimp only
  split
  · exact .pure _
  · exact along_getLocal _

theorem along_dropLocals (n : Nat) : T.Along (dropLocals n) := by
  refine Trend.Along.get.bind fun m => ?_
  dsimp only
  split
  · exact T.drops _
  · exact .throw _

/-! ## Calls and properties -/

theorem along_callee (argc : Nat) : T.Along (callee argc) := by
  intro m
  unfold callee
  split <;> exact T.same rfl rfl

theorem along_checkArity (name : String) (expected : UInt32) (argc : Nat) :
    T.Along (checkArity name expected argc) := by
  unfold checkArity
  split
  · exact .throw _
  · exact .pure _

theorem along_enter (closure : Value.Code) (argc : Nat) : T.Along (enter closure argc) := by
  refine (along_checkArity _ _ _).bind fun _ => Trend.Along.get.bind fun m => ?_
  split
  · exact .throw _
  · exact (along_popMany _).bind fun _ => .modify fun _ => ⟨rfl, rfl⟩

theorem along_construct (record : Value.RecordType) (argc : Nat) : T.Along (construct record argc) := by
  unfold construct
  dsimp only
  split
  · exact .throw _
  · exact (along_popMany _).bind fun _ => along_pop.bind fun _ =>
      (Trend.Along.inStore fun _ => ⟨rfl, Nat.le_refl _⟩).bind fun _ => along_push _

theorem along_callHost (host : Host) (native : Native) (argc : Nat) :
    T.Along (callHost host native argc) := by
  refine (along_checkArity _ _ _).bind fun _ => (along_popMany _).bind fun arguments =>
    along_pop.bind fun _ => .ofGet fun m => ?_
  by_cases hw : host.watches native = true
  · rw [if_pos hw]
    cases host.answer m.calls native m.store arguments <;> exact T.same rfl rfl
  · rw [if_neg hw]
    cases host.answer m.calls native m.store arguments <;> exact T.same rfl rfl

theorem along_call (host : Host) (argc : Nat) : T.Along (call host argc) := by
  refine (along_callee argc).bind fun v => ?_
  cases v with
  | closure c => exact along_enter _ _
  | function f => exact along_enter _ _
  | bound receiver method => exact (along_replace _ _).bind fun _ => along_enter _ _
  | record r => exact along_construct _ _
  | native n => exact along_callHost _ _ _
  | _ => exact .throw _

theorem along_property (receiver : Value) (name : String) : T.Along (property receiver name) := by
  refine Trend.Along.get.bind fun m => ?_
  dsimp only
  split
  · exact .pure _
  · exact .throw _

theorem along_getProperty (receiver : Value) (name : String) : T.Along (getProperty receiver name) := by
  refine (along_property receiver name).bind fun p => ?_
  cases p <;> exact .pure _

theorem along_setProperty (receiver : Value) (name : String) (v : Value) :
    T.Along (setProperty receiver name v) := by
  intro m
  rcases setProperty_eq receiver name v m with he | ⟨ref, i, j, -, -, -, he⟩
  · rw [he]
    exact T.refl _
  · rw [he]
    exact T.stays rfl rfl (Nat.le_refl _)

theorem along_callProperty (host : Host) (name : String) (argc : Nat) :
    T.Along (callProperty host name argc) := by
  refine (along_callee argc).bind fun receiver => (along_property receiver name).bind fun p => ?_
  cases p with
  | field v => exact (along_replace argc v).bind fun _ => along_call host argc
  | method m => exact along_enter _ _

theorem along_asMethods (vs : List Value) : T.Along (asMethods vs) := by
  induction vs with
  | nil => exact .pure _
  | cons v vs ih =>
    cases v with
    | closure c => exact ih.bind fun _ => .pure _
    | _ => exact .throw _

theorem along_appendMethods (n : Nat) : T.Along (appendMethods n) := by
  refine (along_popMany n).bind fun vs => (along_asMethods vs).bind fun methods =>
    along_pop.bind fun v => ?_
  cases v with
  | record r => exact along_newObject.bind fun _ => along_push _
  | _ => exact .throw _

/-! ## Steps -/

theorem along_expectBool (op : Opcode) (v : Value) : T.Along (expectBool op v) := by
  cases v with
  | bool b => exact .pure _
  | _ => exact .throw _

theorem along_expectRange (op : Opcode) (expected : String) (v : Value) :
    T.Along (expectRange op expected v) := by
  cases v with
  | range r => exact .pure _
  | _ => exact .throw _

theorem along_binary (f : Value → Value → Except Fault Value) : T.Along (binary f) := by
  refine along_pop.bind fun b => along_pop.bind fun a => ?_
  split
  · exact along_push _
  · exact .throw _

theorem along_unary (f : Value → Except Fault Value) : T.Along (unary f) := by
  refine along_pop.bind fun a => ?_
  split
  · exact along_push _
  · exact .throw _

theorem along_connective (op : Opcode) (f : Bool → Bool → Bool) : T.Along (connective op f) :=
  along_pop.bind fun _ => along_pop.bind fun _ => (along_expectBool _ _).bind fun _ =>
    (along_expectBool _ _).bind fun _ => along_push _

theorem holds_captureCells {m : Machine} {cs : List Capture} (position : Nat)
    (h : ∀ c ∈ cs, c.fromLocal = true → T.opensFor (m.frame.localsBase + c.index.toNat)) :
    T.holds m (left (captureCells position cs m)) := by
  induction cs generalizing position m with
  | nil => exact T.refl _
  | cons c cs ih =>
    rw [captureCells_cons]
    split
    · rename_i hl
      refine Trend.bind (x := localSlot c.index) (T.refl m) ?_
      rintro _ _ ⟨⟩
      refine Trend.bind (T.opens _ m (h c (List.mem_cons_self ..) hl)) fun ref m₁ hopen => ?_
      have hframe : m₁.frame = m.frame := by
        rcases openCell_eq _ position m with ⟨_, -, -, he⟩ | ⟨-, he⟩ <;> cases he.symm.trans hopen <;> rfl
      refine Trend.bind (ih _ fun c' hc' hl' => ?_) fun _ _ _ => T.refl _
      rw [hframe]
      exact h c' (List.mem_cons_of_mem _ hc') hl'
    · refine Trend.bind (along_capturedCell _ m) fun ref m₁ hcell => ?_
      obtain ⟨-, rfl⟩ := capturedCell_ok hcell
      exact Trend.bind (ih _ fun c' hc' => h c' (List.mem_cons_of_mem _ hc')) fun _ _ _ => T.refl _

theorem holds_makeClosure {m : Machine} (index : UInt32) {captures : List Capture}
    (h : ∀ c ∈ captures, c.fromLocal = true → T.opensFor (m.frame.localsBase + c.index.toNat)) :
    T.holds m (left (makeClosure index captures m)) := by
  refine Trend.bind (along_constant index m) fun v m₁ hv => ?_
  have hm₁ : m₁ = m := by
    unfold constant at hv
    split at hv <;> cases hv
    rfl
  subst hm₁
  cases v with
  | function f =>
    refine Trend.bind (holds_captureCells 0 h) fun _ m₁ _ => ?_
    exact (along_newObject.bind fun _ => along_push _) m₁
  | _ => exact T.refl _

theorem along_jumpIf (op : Opcode) (wanted : Bool) (target : Nat) : T.Along (jumpIf op wanted target) := by
  refine along_peek.bind fun v => (along_expectBool op v).bind fun b => ?_
  split
  · exact along_jumpTo _
  · exact .pure _

theorem along_leave (result : Value) : T.Along (leave result) := by
  refine Trend.Along.get.bind fun m => Trend.Along.bind (T.drops _) fun _ =>
    Trend.Along.bind (.modify fun _ => ⟨rfl, rfl⟩) fun _ => ?_
  split
  · exact .pure _
  · exact Trend.Along.bind (.modify fun _ => ⟨rfl, rfl⟩) fun _ => (along_push _).bind fun _ => .pure _

theorem along_execute (host : Host) (ip next : Nat) {op : Opcode} (args : op.format.Args)
    (hop : op ≠ .pushClosure) : T.Along (execute host ip next op args) := by
  have done {x : Exec Unit} (h : T.Along x) : T.Along (x >>= fun _ => Pure.pure Status.running) :=
    h.bind fun _ => .pure _
  cases op with
  | pushConst => exact (along_constant _).bind fun _ => done (along_push _)
  | pushClosure => exact absurd rfl hop
  | pushTrue | pushFalse | pushNil | pushVoid => exact done (along_push _)
  | pop => exact along_pop.bind fun _ => .pure _
  | defLocal | defGlobal => exact along_pop.bind fun _ => done (.modify fun _ => ⟨rfl, rfl⟩)
  | getLocal =>
    exact (along_localSlot _).bind fun _ => (along_getLocal _).bind fun _ => done (along_push _)
  | setLocal =>
    exact along_peek.bind fun _ => (along_localSlot _).bind fun _ => done (along_setLocal _ _)
  | popLocal | popnLocal | closeUpvalue => exact done (along_dropLocals _)
  | getUpvalue =>
    exact (along_capturedCell _).bind fun _ => (along_readCell _).bind fun _ => done (along_push _)
  | setUpvalue =>
    exact (along_capturedCell _).bind fun _ => along_peek.bind fun _ => done (T.writes _ _)
  | getGlobal => exact (along_getGlobal _).bind fun _ => done (along_push _)
  | setGlobal => exact along_peek.bind fun _ => done (along_setGlobal _ _)
  | getProperty =>
    exact (along_nameConstant _).bind fun _ => along_pop.bind fun _ =>
      (along_getProperty _ _).bind fun _ => done (along_push _)
  | setProperty =>
    exact (along_nameConstant _).bind fun _ => along_pop.bind fun _ => along_pop.bind fun _ =>
      (along_setProperty _ _ _).bind fun _ => done (along_push _)
  | call => exact done (along_call _ _)
  | callProperty => exact (along_nameConstant _).bind fun _ => done (along_callProperty _ _ _)
  | appendMethods => exact done (along_appendMethods _)
  | jump => exact done (along_jumpTo _)
  | jumpTrue | jumpFalse => exact done (along_jumpIf _ _ _)
  | jumpHasNoNext =>
    refine along_peek.bind fun _ => (along_expectRange _ _ _).bind fun _ => ?_
    split
    · exact done (along_jumpTo _)
    · exact .pure _
  | loop =>
    show T.Along (if _ then _ else _)
    split
    · exact done (along_jumpTo _)
    · exact .throw _
  | add | sub | mul | div | mod | eq | ne | lt | le | gt | ge | makeRange | makeInclRange =>
    exact done (along_binary _)
  | neg => exact done (along_unary _)
  | not => exact along_pop.bind fun _ => (along_expectBool _ _).bind fun _ => done (along_push _)
  | and | or => exact done (along_connective _ _)
  | assertBool => exact along_peek.bind fun _ => (along_expectBool _ _).bind fun _ => .pure _
  | makeIterator => exact along_peek.bind fun _ => (along_expectRange _ _ _).bind fun _ => .pure _
  | getNext =>
    exact along_peek.bind fun _ => (along_expectRange _ _ _).bind fun _ => done (along_push _)
  | advance =>
    exact along_peek.bind fun _ => (along_expectRange _ _ _).bind fun _ => done (along_replace _ _)
  | «return» => exact along_pop.bind fun _ => along_leave _
  | returnVoid => exact along_leave _
  | exitSuccess => exact .pure _

/-- The next instruction captures only locals at some positions. -/
def CapturesOnly (m : Machine) (P : Nat → Prop) : Prop :=
  ∀ index captures next, fetch m.chunk m.frame.ip = .ok (⟨.pushClosure, (index, captures)⟩, next) →
    ∀ c ∈ captures, c.fromLocal = true → P (m.frame.localsBase + c.index.toNat)

theorem holds_step {m : Machine} (host : Host) (h : m.CapturesOnly T.opensFor) :
    T.holds m (left (step host m)) := by
  cases hf : fetch m.chunk m.frame.ip with
  | error e =>
    rw [step, get_bind, hf]
    exact T.refl _
  | ok fetched =>
    obtain ⟨⟨op, args⟩, next⟩ := fetched
    rw [step_of_fetch hf]
    refine T.trans (along_jumpTo next m) ?_
    by_cases hop : op = .pushClosure
    · subst hop
      exact Trend.bind (holds_makeClosure _ (h _ _ _ hf)) fun _ _ _ => T.refl _
    · exact along_execute _ _ _ _ hop _

theorem holds_run {host : Host} {n : Nat} {m : Machine}
    (h : ∀ j < n, ∀ m', run host j m = (.unfinished, m') → m'.CapturesOnly T.opensFor) :
    T.holds m (run host n m).2 := by
  induction n generalizing m with
  | zero => exact T.refl _
  | succ n ih =>
    have hstep := holds_step host (h 0 (Nat.zero_lt_succ n) m rfl)
    rw [run]
    cases hs : step host m with
    | ok status m₁ =>
      rw [hs] at hstep
      cases status with
      | running =>
        refine T.trans hstep (ih fun j hj m' hm' => h (j + 1) (Nat.succ_lt_succ hj) m' ?_)
        rwa [run_succ hs]
      | finished => exact hstep
    | error e m₁ =>
      rw [hs] at hstep
      exact hstep

theorem holds_later {host : Host} {k n : Nat} {m m' : Machine}
    (h : ∀ j < n, ∀ m', run host j m = (.unfinished, m') → m'.CapturesOnly T.opensFor)
    (hk : run host k m = (.unfinished, m')) (hle : k ≤ n) : T.holds m' (run host n m).2 := by
  obtain ⟨d, rfl⟩ := Nat.exists_eq_add_of_le hle
  rw [run_add hk]
  refine holds_run fun j hj m₁ hm₁ => h (k + j) (Nat.add_lt_add_left hj k) m₁ ?_
  rw [run_add hk, hm₁]

end StackScript.Machine
