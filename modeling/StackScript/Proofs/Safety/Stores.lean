import StackScript.Proofs.Safety.Rounds

/-!
# What is stored into the variable of a turn

The variable that a turn of a loop defines is a local, and closures that have captured it share a
cell, which goes on with its last value when it has been dropped. At any time both hold what has
been stored last: by the definition, by the body of the turn, or by a closure that has the cell.
-/

namespace StackScript

open Lowering

namespace Machine

section

variable (host : Host) (m₀ : Machine)

/-- Before the step `t` a closure has captured the variable at a position which a turn that began at the
step `n` has defined, and the cell is the one of the variable. -/
def Captured (q n t : Nat) (ref : CellRef) : Prop :=
  ∃ w < t, Persists host m₀ q n w ∧ TakesLocal host m₀ w q ref

/-- At the step `w` a value is stored into the variable at a position which a turn that began at the step
`n` defines. -/
inductive Stores (q n w : Nat) (v : Value) : Prop
  | define {m : Machine} : w = n + 1 → run host w m₀ = (.unfinished, m) → m.stack.head? = some v →
      Stores q n w v
  /-- The call of the turn assigns to the variable. -/
  | assign {m : Machine} {slot : UInt32} {next : Nat} : Persists host m₀ q n w →
      run host w m₀ = (.unfinished, m) →
      fetch m.frame.closure.function.chunk m.frame.ip = .ok (⟨.setLocal, slot⟩, next) →
      m.frame.localsBase + slot.toNat = q → m.stack.head? = some v → Stores q n w v
  /-- A closure assigns to the captured variable. -/
  | write {m : Machine} {index : UInt32} {next : Nat} {ref : CellRef} :
      run host w m₀ = (.unfinished, m) →
      fetch m.frame.closure.function.chunk m.frame.ip = .ok (⟨.setUpvalue, index⟩, next) →
      m.frame.closure.captures[index.toNat]? = some ref → Captured host m₀ q n w ref →
      m.stack.head? = some v → Stores q n w v

/-- The value has been stored last before the step `t`. -/
def LastStored (q n t : Nat) (v : Value) : Prop :=
  ∃ w < t, Stores host m₀ q n w v ∧ ∀ w' v', w < w' → w' < t → ¬Stores host m₀ q n w' v'

end

variable {program : Program} {options : Options} {host : Host} {m₀ m m' m₁ : Machine}
  {n t q : Nat} {S : Script} {base : Store} {natives : Nat} {r : Round} {ref ref' : CellRef}
  {i : Instruction} {next : Nat} {v : Value}

theorem Persists.pred (h : Persists host m₀ q n (t + 1)) (ht : n + 2 ≤ t) : Persists host m₀ q n t :=
  ⟨ht, fun w hw hlt => h.2 w hw (Nat.lt_succ_of_lt hlt)⟩

theorem Stores.exists_head {w : Nat} (h : Stores host m₀ q n w v) :
    ∃ m, run host w m₀ = (.unfinished, m) ∧ m.stack.head? = some v := by
  cases h with
  | define _ hr hv | assign _ hr _ _ hv | write hr _ _ _ hv => exact ⟨_, hr, hv⟩

/-- There is one value that has been stored last. -/
theorem LastStored.unique {v' : Value} (h : LastStored host m₀ q n t v)
    (h' : LastStored host m₀ q n t v') : v = v' := by
  obtain ⟨w, hw, hstores, hlast⟩ := h
  obtain ⟨w', hw', hstores', hlast'⟩ := h'
  rcases Nat.lt_trichotomy w w' with hlt | rfl | hlt
  · exact absurd hstores' (hlast w' v' hlt hw')
  · obtain ⟨m, hm, hv⟩ := hstores.exists_head
    obtain ⟨m', hm', hv'⟩ := hstores'.exists_head
    obtain rfl : m = m' := (Prod.mk.inj (hm.symm.trans hm')).2
    exact Option.some.inj (hv.symm.trans hv')
  · exact absurd hstores (hlast' w v hlt hw)

/-! ## The cell of a variable -/

theorem denoted_of_mem (ht : m.Tracks base) (hr : ref ∈ m.openCells)
    (hq : (m.store.cell ref).slot.toNat = q) : m.denoted ref = m.locals[q]? := by
  unfold denoted
  rw [ht.isOpen ref hr, ← hq]

theorem Varies.getElem?_locals {op : Opcode} (h : m.Varies base op m')
    (hop : op ≠ .setLocal ∧ op ≠ .setUpvalue) (hq : q < m.locals.size) (hq' : q < m'.locals.size) :
    m'.locals[q]? = m.locals[q]? := by
  cases h with
  | rests _ hs => rw [hs.locals]
  | opens _ hg _ hs => rw [hs.locals, hg.locals]
  | defines _ _ hs =>
    rw [hs.locals, Array.getElem?_push, if_neg (Nat.ne_of_lt hq)]
  | enters _ hs => rw [hs.locals, Array.getElem?_append_left hq]
  | assigns he => exact absurd he hop.1
  | writes he => exact absurd he hop.2
  | drops hle _ hs =>
    rw [hs.locals] at hq' ⊢
    exact getElem?_shrink hq'

theorem Captured.mem_iff (h : Captured host m₀ q n t ref) (hlive : Live S base natives m₀)
    (hh : host.Harmless) (hr : run host t m₀ = (.unfinished, m)) :
    (m.store.cell ref).slot.toNat = q ∧ m.Owned base ref ∧
      (ref ∈ m.openCells ↔ Persists host m₀ q n t) := by
  obtain ⟨w, hlt, ⟨hle, hkept⟩, htakes⟩ := h
  obtain ⟨hslot, howned, hiff⟩ := hlive.takesLocal_mem_iff hh htakes hlt hr
  refine ⟨hslot, howned, hiff.trans ⟨fun hd => ?_, fun hp u hu => hp.2 u (Nat.le_trans hle hu)⟩⟩
  refine ⟨Nat.le_trans hle (Nat.le_of_lt hlt), fun u hu hut => ?_⟩
  rcases Nat.lt_or_ge u w with huw | huw
  · exact hkept u hu huw
  · exact hd u huw hut

theorem Captured.cases (h : Captured host m₀ q n (t + 1) ref) :
    Captured host m₀ q n t ref ∨ Persists host m₀ q n t ∧ TakesLocal host m₀ t q ref := by
  obtain ⟨w, hlt, hp, htakes⟩ := h
  rcases Nat.eq_or_lt_of_le (Nat.le_of_lt_succ hlt) with rfl | hlt
  · exact .inr ⟨hp, htakes⟩
  · exact .inl ⟨w, hlt, hp, htakes⟩

theorem TakesLocal.op (h : TakesLocal host m₀ t q ref) (hr : run host t m₀ = (.unfinished, m))
    (hf : fetch m.chunk m.frame.ip = .ok (i, next)) : i.op = .pushClosure := by
  obtain ⟨m₁, captures, refs, c, hm₁, ⟨index, next', m₂, key, f, hf', -⟩, -⟩ := h
  obtain rfl : m = m₁ := (Prod.mk.inj (hr.symm.trans hm₁)).2
  obtain ⟨rfl, -⟩ : i = ⟨.pushClosure, (index, captures)⟩ ∧ next = next' := by
    simpa using hf.symm.trans hf'
  rfl

variable (hb : Begun program options S base natives host m₀)

include hb

theorem Begins.captured (h : Begins program options host m₀ r n m)
    (hp : Persists host m₀ m.locals.size n t) (hr : run host t m₀ = (.unfinished, m'))
    (hmem : ref ∈ m'.openCells) (hq : (m'.store.cell ref).slot.toNat = m.locals.size) :
    Captured host m₀ m.locals.size n t ref := by
  have htracks := (hb.live.afterRun hb.harmless hr).counts.tracks
  obtain ⟨w, q, hlt, htakes⟩ := hb.live.origin hb.harmless hb.cells hr
    ⟨htracks.young ref hmem, htracks.exists_cell ref hmem⟩
  obtain ⟨hslot, -, hiff⟩ := hb.live.takesLocal_mem_iff hb.harmless htakes hlt hr
  obtain rfl : q = m.locals.size := hslot.symm.trans hq
  have hkept := hiff.1 hmem
  refine ⟨w, hlt, ⟨Nat.le_of_not_lt fun hw => ?_, fun u hu hlt' => hp.2 u hu (Nat.lt_trans hlt' hlt)⟩,
    htakes⟩
  -- When the variable is defined there is no open cell in its place.
  obtain ⟨m₂, hm₂⟩ := exists_run_of_le hr hp.1
  obtain ⟨-, -, _, _, -, -, -, -, -, hbelow⟩ := h.defined hb hm₂
  obtain ⟨hslot₂, -, hiff₂⟩ := hb.live.takesLocal_mem_iff hb.harmless htakes hw hm₂
  have := hbelow ref (hiff₂.2 fun u hu hlt' => hkept u hu (Nat.lt_of_lt_of_le hlt' hp.1))
  omega

theorem Begins.captured_eq (h : Begins program options host m₀ r n m)
    (hc : Captured host m₀ m.locals.size n t ref) (hc' : Captured host m₀ m.locals.size n t ref') :
    ref = ref' := by
  obtain ⟨w, -, hp, htakes⟩ := hc
  obtain ⟨w', -, hp', htakes'⟩ := hc'
  exact (h.cell_eq_iff hb h hp hp' htakes htakes').2 rfl

omit hb

/-! ## The value of a variable -/

/-- The variable and the cell that closures have of it hold a value. -/
structure Contains (host : Host) (m₀ : Machine) (q n t : Nat) (m : Machine) (v : Value) : Prop where
  variable_eq : Persists host m₀ q n t → m.locals[q]? = some v
  cell_eq : ∀ ref, Captured host m₀ q n t ref → m.denoted ref = some v

include hb

theorem Captured.denoted_eq (h : Captured host m₀ q n t ref) (hp : Persists host m₀ q n t)
    (hr : run host t m₀ = (.unfinished, m)) : m.denoted ref = m.locals[q]? := by
  obtain ⟨hslot, -, hiff⟩ := h.mem_iff hb.live hb.harmless hr
  exact denoted_of_mem (hb.live.afterRun hb.harmless hr).counts.tracks (hiff.2 hp) hslot

section

variable (h : Begins program options host m₀ r n m) (ht : n + 2 ≤ t)
  (hr : run host t m₀ = (.unfinished, m₁)) (hs : step host m₁ = .ok .running m')

include h ht hr hs

/-- What is stored into a variable is its value then. -/
theorem Begins.contains_of_stores (hstores : Stores host m₀ m.locals.size n t v) :
    Contains host m₀ m.locals.size n (t + 1) m' v := by
  have hlive := hb.live.afterRun hb.harmless hr
  have hr' : run host (t + 1) m₀ = (.unfinished, m') := run_succ_iff.2 ⟨m₁, hr, hs⟩
  cases hstores with
  | define heq => omega
  | assign hp hm hf hslot hv =>
    obtain rfl := (Prod.mk.inj (hr.symm.trans hm)).2
    obtain ⟨-, v', hv', hlt, hrests⟩ := hlive.effect hb.harmless hf hs
    obtain ⟨v'', hv'', hdenoted⟩ := hlive.respects hb.harmless hf hs
    obtain rfl : v = v' := Option.some.inj (hv.symm.trans hv')
    obtain rfl : v = v'' := Option.some.inj (hv.symm.trans hv'')
    refine ⟨fun _ => ?_, fun ref hc => ?_⟩
    · rw [hrests.locals, ← hslot]
      exact Array.getElem?_setIfInBounds_self_of_lt hlt
    · rcases hc.cases with hc | ⟨-, htakes⟩
      · obtain ⟨hcell, howned, hiff⟩ := hc.mem_iff hb.live hb.harmless hr
        rw [hdenoted ref howned, if_pos ⟨hiff.2 hp, hcell.trans hslot.symm⟩]
      · cases htakes.op hr hf
  | write hm hf hcaptured hc hv =>
    obtain rfl := (Prod.mk.inj (hr.symm.trans hm)).2
    obtain ⟨ref, v', hcaptured', hv', hdenoted, -⟩ := hlive.respects hb.harmless hf hs
    obtain rfl := Option.some.inj (hcaptured.symm.trans hcaptured')
    obtain rfl : v = v' := Option.some.inj (hv.symm.trans hv')
    refine ⟨fun hp => ?_, fun ref' hc' => ?_⟩
    · obtain ⟨w, hlt, hrest⟩ := hc
      rw [← Captured.denoted_eq hb ⟨w, Nat.lt_succ_of_lt hlt, hrest⟩ hp hr', hdenoted]
    · rcases hc'.cases with hc' | ⟨-, htakes⟩
      · rw [h.captured_eq hb hc' hc, hdenoted]
      · cases htakes.op hr hf

theorem Begins.locals_of_not_stores (hnot : ∀ v, ¬Stores host m₀ m.locals.size n t v)
    (hp : Persists host m₀ m.locals.size n (t + 1)) :
    m'.locals[m.locals.size]? = m₁.locals[m.locals.size]? := by
  have hlive := hb.live.afterRun hb.harmless hr
  have hpred := hp.pred ht
  have hq := h.lt_size hb hpred hr
  have hq' := h.lt_size hb hp (run_succ_iff.2 ⟨m₁, hr, hs⟩)
  obtain ⟨⟨op, args⟩, next, hf⟩ := hlive.exists_fetch
  have hrest (hop : op ≠ .setLocal ∧ op ≠ .setUpvalue) :
      m'.locals[m.locals.size]? = m₁.locals[m.locals.size]? :=
    (hlive.varies hb.harmless hf hs).getElem?_locals hop hq hq'
  cases op with
  | setLocal =>
    obtain ⟨-, v, hv, -, hrests⟩ := hlive.effect hb.harmless hf hs
    rw [hrests.locals]
    exact Array.getElem?_setIfInBounds_ne fun heq => hnot v (.assign hpred hr hf heq hv)
  | setUpvalue =>
    obtain ⟨-, ref, v, hcaptured, hv, -, hrests⟩ := hlive.effect hb.harmless hf hs
    rw [hrests.locals]
    unfold written
    split
    · rfl
    · rename_i hopen
      refine Array.getElem?_setIfInBounds_ne fun heq => hnot v (.write hr hf hcaptured ?_ hv)
      exact h.captured hb hpred hr (hlive.orderly.running m₁.frame (List.mem_cons_self ..) ref
        (List.mem_of_getElem? hcaptured) hopen) heq
  | _ => exact hrest ⟨nofun, nofun⟩

omit ht in
theorem Begins.denoted_of_not_stores (hnot : ∀ v, ¬Stores host m₀ m.locals.size n t v)
    (hc : Captured host m₀ m.locals.size n t ref) : m'.denoted ref = m₁.denoted ref := by
  have hlive := hb.live.afterRun hb.harmless hr
  obtain ⟨hslot, howned, hiff⟩ := hc.mem_iff hb.live hb.harmless hr
  obtain ⟨⟨op, args⟩, next, hf⟩ := hlive.exists_fetch
  have hrespects := hlive.respects hb.harmless hf hs
  cases op with
  | getUpvalue => exact hrespects.2 ref howned
  | setUpvalue =>
    obtain ⟨ref', v, hcaptured, hv, -, hother⟩ := hrespects
    refine hother ref howned ?_
    rintro rfl
    exact hnot v (.write hr hf hcaptured hc hv)
  | setLocal =>
    obtain ⟨v, hv, hdenoted⟩ := hrespects
    rw [hdenoted ref howned, if_neg]
    rintro ⟨hmem, heq⟩
    exact hnot v (.assign (hiff.1 hmem) hr hf (heq.symm.trans hslot) hv)
  | defLocal =>
    obtain ⟨v, hv, hdenoted⟩ := hrespects
    rw [hdenoted ref howned, if_neg]
    rintro ⟨hmem, heq⟩
    exact Nat.lt_irrefl _ (Nat.lt_of_lt_of_eq (h.lt_size hb (hiff.1 hmem) hr) (heq.symm.trans hslot))
  | _ => exact hrespects ref howned

theorem Begins.contains_of_not_stores (hnot : ∀ v, ¬Stores host m₀ m.locals.size n t v)
    (hc : Contains host m₀ m.locals.size n t m₁ v) :
    Contains host m₀ m.locals.size n (t + 1) m' v := by
  have hvariable (hp : Persists host m₀ m.locals.size n (t + 1)) : m'.locals[m.locals.size]? = some v := by
    rw [h.locals_of_not_stores hb ht hr hs hnot hp, hc.variable_eq (hp.pred ht)]
  refine ⟨hvariable, fun ref hc' => ?_⟩
  rcases hc'.cases with hold | ⟨hp, htakes⟩
  · rw [h.denoted_of_not_stores hb hr hs hnot hold, hc.cell_eq ref hold]
  · -- the closure has just been made
    obtain ⟨_, -, -, -, hstays⟩ := hb.live.after_takesLocal hb.harmless htakes
    have hp' : Persists host m₀ m.locals.size n (t + 1) := by
      refine ⟨Nat.le_succ_of_le ht, fun w hw hlt => ?_⟩
      rcases Nat.eq_or_lt_of_le (Nat.le_of_lt_succ hlt) with rfl | hlt
      · exact hstays _
      · exact hp.2 w hw hlt
    rw [Captured.denoted_eq hb hc' hp' (run_succ_iff.2 ⟨m₁, hr, hs⟩), hvariable hp']

end

theorem Begins.exists_lastStored (h : Begins program options host m₀ r n m) (ht : n + 2 ≤ t)
    (hr : run host t m₀ = (.unfinished, m')) :
    ∃ v, LastStored host m₀ m.locals.size n t v ∧ Contains host m₀ m.locals.size n t m' v := by
  induction ht generalizing m' with
  | refl =>
    obtain ⟨-, -, m₁, v, hm₁, -, -, hv, hlocals, -⟩ := h.defined hb hr
    refine ⟨v, ⟨n + 1, Nat.lt_succ_self _, .define rfl hm₁ hv, fun w _ hw hlt => by omega⟩,
      fun _ => ?_, fun ref hc => ?_⟩
    · rw [hlocals, Array.getElem?_push_size]
    · obtain ⟨w, hlt, ⟨hle, -⟩, -⟩ := hc
      omega
  | @step t ht ih =>
    obtain ⟨m₁, hm₁, hs⟩ := run_succ_iff.1 hr
    obtain ⟨v, ⟨w, hlt, hstores, hlast⟩, hc⟩ := ih hm₁
    by_cases hnew : ∃ v', Stores host m₀ m.locals.size n t v'
    · obtain ⟨v', hv'⟩ := hnew
      exact ⟨v', ⟨t, Nat.lt_succ_self t, hv', fun w _ hw hlt => by omega⟩,
        h.contains_of_stores hb ht hm₁ hs hv'⟩
    · have hnot (v' : Value) : ¬Stores host m₀ m.locals.size n t v' := fun h => hnew ⟨v', h⟩
      refine ⟨v, ⟨w, Nat.lt_succ_of_lt hlt, hstores, fun w' v' hw hlt => ?_⟩,
        h.contains_of_not_stores hb ht hm₁ hs hnot hc⟩
      rcases Nat.eq_or_lt_of_le (Nat.le_of_lt_succ hlt) with rfl | hlt
      · exact hnot v'
      · exact hlast w' v' hw hlt

omit hb in
theorem readCell_of_denoted (hv : m.denoted ref = some v) : readCell ref m = .ok v m := by
  unfold denoted at hv
  cases hc : (m.store.cell ref).closed with
  | some w =>
    rw [hc] at hv
    cases hv
    exact readCell_of_closed hc
  | none =>
    rw [hc] at hv
    rw [readCell_of_open hc, getLocal, show m.locals[(m.store.cell ref).slot.toNat]? = some v from hv]

omit hb in
theorem step_getUpvalue {index : UInt32}
    (hf : fetch m.chunk m.frame.ip = .ok (⟨.getUpvalue, index⟩, next))
    (hc : m.frame.closure.captures[index.toNat]? = some ref) (hv : m.denoted ref = some v) :
    step host m = .ok .running { m.movedTo next with stack := v :: m.stack } := by
  have hcell : capturedCell index (m.movedTo next) = .ok ref (m.movedTo next) := by
    unfold capturedCell
    rw [show (m.movedTo next).frame.closure.captures[index.toNat]? = some ref from hc]
  have hread : readCell ref (m.movedTo next) = .ok v (m.movedTo next) := readCell_of_denoted hv
  rw [step_of_fetch hf]
  show (capturedCell index >>= fun ref => readCell ref >>= fun v => push v >>= fun _ =>
    pure Status.running : Exec _) (m.movedTo next) = _
  rw [bind_ok hcell, bind_ok hread]
  rfl

theorem Begins.reads (h : Begins program options host m₀ r n m) (hr : run host t m₀ = (.unfinished, m'))
    {index : UInt32}
    (hf : fetch m'.chunk m'.frame.ip = .ok (⟨.getUpvalue, index⟩, next))
    (href : m'.frame.closure.captures[index.toNat]? = some ref)
    (hc : Captured host m₀ m.locals.size n t ref) :
    ∃ v, LastStored host m₀ m.locals.size n t v ∧
      step host m' = .ok .running { m'.movedTo next with stack := v :: m'.stack } := by
  have ht : n + 2 ≤ t := by
    obtain ⟨w, hlt, hp, -⟩ := hc
    exact Nat.le_trans hp.1 (Nat.le_of_lt hlt)
  obtain ⟨v, hlast, hcontains⟩ := h.exists_lastStored hb ht hr
  exact ⟨v, hlast, step_getUpvalue hf href (hcontains.cell_eq ref hc)⟩

end Machine

end StackScript
