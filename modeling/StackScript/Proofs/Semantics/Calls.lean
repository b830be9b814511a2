import StackScript.Proofs.Semantics.Instructions

/-!
# Functions beside the evaluation

The machine makes a closure by looking up a cell for every variable that the function captures,
while the evaluation keeps all variables in sight: a captured variable leads to the place of the
first name that is meant. A call binds the arguments to new places, in a scene of its own, and a
return comes back to the scene of the caller.
-/

namespace StackScript.Semantics.Pairing

open Machine
open Lowering (Context Linked target)
open Fragment (emit Placed)

variable {A : Pairing} {S : A.Scene} {α : Type} {γ L : List Nat} {o n : Nat} {st : List Value}
  {m : Machine} {w : World} {span : Span} {v : Value} {x : Val}
variable {env : Env} {c inner : Context} {closure : Value.Code}

/-! ## Closures -/

variable (S L) in
/-- The place of a variable that is captured. -/
def PlaceOf (y : Capture) (p : Nat) : Prop :=
  if y.fromLocal then L[S.frame.localsBase + y.index.toNat]? = some p
  else ∃ z q e, S.captures[y.index.toNat]? = some z ∧ target S.enclosing z = some q ∧
    S.outer[q]? = some e ∧ e.2 = p

theorem Poised.opens_cell {slot p position : Nat} (h : Poised S γ L o st m w)
    (hL : L[slot]? = some p) (hlt : L.length ≤ 2 ^ 32) :
    ∃ γ' ref m', openCell slot position m = .ok ref m' ∧ γ <+: γ' ∧ A.Leads γ' ref p ∧
      Poised S γ' L o st m' w ∧ m'.locals.size = m.locals.size := by
  have hslot : slot < 2 ^ 32 := Nat.lt_of_lt_of_le (List.getElem?_eq_some_iff.1 hL).1 hlt
  cases hf : m.openCells.find? fun ref => (m.store.cell ref).slot.toNat = slot with
  | some ref =>
    obtain ⟨q, hq, ho⟩ := h.rel.openCells ref (List.mem_of_find?_eq_some hf)
    have hs : (m.store.cell ref).slot.toNat = slot := by
      simpa using List.find?_some hf
    have hLq := (h.rel.opened ref q hq ho).2
    rw [hs] at hLq
    obtain rfl := Option.some.inj (hL.symm.trans hLq)
    exact ⟨γ, ref, m, openCell_of_find hf, List.prefix_refl _, hq, h, rfl⟩
  | none =>
    have hnone : ∀ ref ∈ m.openCells, (m.store.cell ref).slot.toNat ≠ slot := fun ref hr hs =>
      List.find?_eq_none.1 hf ref hr (decide_eq_true hs)
    obtain ⟨hrel, hl⟩ := h.rel.newCell position.toUInt32 hL hslot hnone
    have hγ : γ <+: γ ++ [p] := List.prefix_append _ _
    exact ⟨γ ++ [p], _, _, openCell_of_find_none hf, hγ, hl, ⟨h.frame, h.callers, h.stack, hrel, h.captured.mono hγ⟩, rfl⟩

theorem Poised.captures {ys : List Capture} (h : Poised S γ L o st m w) (position : Nat)
    (hlt : L.length ≤ 2 ^ 32) (hy : ∀ y ∈ ys, ∃ p, PlaceOf S L y p) :
    ∃ γ' refs m', captureCells position ys m = .ok refs m' ∧ γ <+: γ' ∧
      List.Forall₂ (fun y ref => ∃ p, PlaceOf S L y p ∧ A.Leads γ' ref p) ys refs ∧
      Poised S γ' L o st m' w ∧ m'.locals.size = m.locals.size := by
  induction ys generalizing position γ m with
  | nil => exact ⟨γ, [], m, rfl, List.prefix_refl _, .nil, h, rfl⟩
  | cons y ys ih =>
    obtain ⟨p, hp⟩ := hy y (List.mem_cons_self ..)
    -- One cell is found or made, and the others after it.
    have hfirst : ∃ γ₁ ref m₁, (if y.fromLocal then do
          let slot ← localSlot y.index
          openCell slot position
        else capturedCell y.index : Exec CellRef) m = .ok ref m₁ ∧ γ <+: γ₁ ∧
        A.Leads γ₁ ref p ∧ Poised S γ₁ L o st m₁ w ∧ m₁.locals.size = m.locals.size := by
      unfold PlaceOf at hp
      by_cases hl : y.fromLocal
      · rw [if_pos hl] at hp ⊢
        have hslot : localSlot y.index m = .ok (S.frame.localsBase + y.index.toNat) m := by
          unfold localSlot
          rw [h.frame]
        rw [bind_ok hslot]
        exact h.opens_cell hp hlt
      · rw [if_neg hl] at hp ⊢
        obtain ⟨z, q, e, hz, hq, he, rfl⟩ := hp
        obtain ⟨ref, q', e', hr, hq', he', hlead⟩ := h.captured.cells _ z hz
        obtain rfl := Option.some.inj (hq.symm.trans hq')
        obtain rfl := Option.some.inj (he.symm.trans he')
        refine ⟨γ, ref, m, ?_, List.prefix_refl _, hlead, h, rfl⟩
        unfold capturedCell
        rw [h.frame, hr]
    obtain ⟨γ₁, ref, m₁, he₁, hγ₁, hlead, h₁, hs₁⟩ := hfirst
    obtain ⟨γ₂, refs, m₂, he₂, hγ₂, hall, h₂, hs₂⟩ :=
      ih h₁ (position + 1) fun y' hy' => hy y' (List.mem_cons_of_mem y hy')
    refine ⟨γ₂, ref :: refs, m₂, ?_, hγ₁.trans hγ₂, .cons ⟨p, hp, hlead.mono hγ₂⟩ hall, h₂,
      hs₂.trans hs₁⟩
    have hsplit : captureCells position (y :: ys) m = ((if y.fromLocal then do
          let slot ← localSlot y.index
          openCell slot position
        else capturedCell y.index : Exec CellRef) >>= fun ref =>
          captureCells (position + 1) ys >>= fun refs => pure (ref :: refs)) m := by
      show (if y.fromLocal then _ else _ : Exec (List CellRef)) m = _
      by_cases hl : y.fromLocal
      · simp only [if_pos hl]
        rfl
      · simp only [if_neg hl]
    rw [hsplit, bind_ok he₁, bind_ok he₂]
    rfl

/-- What a function captures in the end, where it is compiled into a function that fits. -/
structure Nested (S : A.Scene) (c inner : Context) : Prop where
  linked : Linked inner.frame inner.enclosing
  passes : List.Forall₂ Lowering.Frame.Passes (c.frame :: c.enclosing) inner.enclosing
  captures : inner.outside.frame.captures <+: S.captures
  enclosing : List.Forall₂ Lowering.Frame.Passes inner.outside.enclosing S.enclosing

theorem Nested.place {y : Capture} (h : Nested S c inner) (hs : Scoped S L c env)
    (hc : A.Captured γ S.frame.closure.captures S.captures S.enclosing S.outer)
    (hy : y ∈ inner.frame.captures) : ∃ p, PlaceOf S L y p := by
  have hpasses := h.passes
  have hlinked := h.linked
  have hcaptures := h.captures
  have hlen := hs.length
  unfold Context.outside at hcaptures
  cases he : inner.enclosing with
  | nil =>
    rw [he] at hpasses
    cases hpasses
  | cons g gs =>
    rw [he] at hpasses hlinked hcaptures
    obtain ⟨hg, -⟩ := List.forall₂_cons.1 hpasses
    have hi := hlinked.1 y hy
    unfold PlaceOf
    by_cases hl : y.fromLocal
    · rw [if_pos hl] at hi
      rw [hg.scope.length] at hi
      have hlt : S.frame.localsBase + y.index.toNat < L.length := by omega
      exact ⟨_, by rw [if_pos hl]; exact List.getElem?_eq_getElem hlt⟩
    · rw [if_neg hl] at hi
      have hlt : y.index.toNat < S.captures.length :=
        Nat.lt_of_lt_of_le hi (List.IsPrefix.length_le hcaptures)
      obtain ⟨-, q, e, -, hq, he, -⟩ := hc.cells _ _ (List.getElem?_eq_getElem hlt)
      refine ⟨e.2, ?_⟩
      rw [if_neg hl]
      exact ⟨_, q, e, List.getElem?_eq_getElem hlt, hq, he, rfl⟩

theorem Nested.captured {c inner : Context} {env : Env} {γ' : List Nat} {refs : List CellRef}
    (h : Nested S c inner) (hs : Scoped S L c env)
    (hc : A.Captured γ S.frame.closure.captures S.captures S.enclosing S.outer)
    (hr : List.Forall₂ (fun y ref => ∃ p, PlaceOf S L y p ∧ A.Leads γ' ref p)
      inner.frame.captures refs) :
    A.Captured γ' refs inner.frame.captures inner.enclosing env := by
  have hpasses := h.passes
  have hlinked := h.linked
  have hcaptures := h.captures
  have henclosing := h.enclosing
  unfold Context.outside at hcaptures henclosing
  cases he : inner.enclosing with
  | nil =>
    rw [he] at hpasses
    cases hpasses
  | cons g gs =>
    rw [he] at hpasses hlinked hcaptures henclosing
    obtain ⟨hg, -⟩ := List.forall₂_cons.1 hpasses
    have hgs : List.Forall₂ Lowering.Frame.Passes gs S.enclosing := henclosing
    obtain ⟨rest, hrest⟩ : g.captures <+: S.captures := hcaptures
    refine ⟨?_, fun j y hy => ?_⟩
    · rw [hs.names hc, Lowering.namesOf_cons, hg.scope.labels, Lowering.namesOf_passes hgs]
    · obtain ⟨hj, hyj⟩ := List.getElem?_eq_some_iff.1 hy
      have hjr : j < refs.length := by
        rw [← hr.length_eq]
        exact hj
      obtain ⟨p, hp, hl⟩ := (List.forall₂_iff_get.1 hr).2 j hj hjr
      simp only [List.get_eq_getElem, hyj] at hp hl
      refine ⟨refs[j], ?_⟩
      have hmem : y ∈ inner.frame.captures := List.mem_of_getElem? hy
      have hi := hlinked.1 y hmem
      unfold PlaceOf at hp
      unfold target
      rw [hg.scope.length]
      by_cases hlocal : y.fromLocal
      · rw [if_pos hlocal] at hp hi
        rw [hg.scope.length] at hi
        obtain ⟨e, hee, hLe⟩ := hs.slot hi
        obtain rfl := Option.some.inj (hp.symm.trans hLe)
        exact ⟨_, e, List.getElem?_eq_getElem hjr, if_pos hlocal, hee, hl⟩
      · rw [if_neg hlocal] at hp hi
        obtain ⟨z, q, e, hz, hq, hee, rfl⟩ := hp
        have hzg : g.captures[y.index.toNat]? = some z := by
          rw [← hrest, List.getElem?_append_left hi] at hz
          exact hz
        obtain ⟨q', hq'⟩ := Lowering.exists_target hlinked.2 (List.mem_of_getElem? hzg)
        obtain rfl := Option.some.inj ((Lowering.target_passes hgs hq').symm.trans hq)
        refine ⟨c.frame.scope.locals.length + q', e, List.getElem?_eq_getElem hjr, ?_, ?_, hl⟩
        · rw [if_neg hlocal, hzg, Option.bind_some, hq', Option.map_some]
        · rw [hs.beyond]
          exact hee

section Closing

variable {code : Lambda} {c : Context}
  (hf : Fit S (code.params.length + code.body.size + 2) c (code.lower A.strip span c).2)

include hf

theorem nested_of_fit : (code.compiled A.strip span c).2.Clean ∧
    Nested S c (code.compiled A.strip span c).2 := by
  have hbody := code.body.evolves_lower A.strip span
  obtain ⟨-, hclean, he⟩ := Lowering.function_of_clean hf.clean
  have hstep := (Lowering.evolves_withParams code.params hbody).step _ hclean
  have hcaptures := hf.captures
  have henclosing := hf.enclosing
  unfold Lambda.lower at hcaptures henclosing
  rw [he] at hcaptures henclosing
  exact ⟨hclean, hstep.linked ⟨by simp [Context.inside], hf.linked⟩, hstep.enclosing, hcaptures,
    henclosing⟩

/-- The code that makes a closure is one instruction. -/
theorem lower_of_fit : ∃ k key g, S.frame.closure.function.chunk.constants[k.toNat]? =
      some (.function ⟨key, g⟩) ∧ (code.constant A.strip span c).Loads g ∧
    (code.lower A.strip span c).1 =
      emit ⟨.pushClosure, (k, (code.compiled A.strip span c).2.frame.captures)⟩ span ∧
    (code.compiled A.strip span c).2.frame.captures.length < 2 ^ 32 := by
  have hbody := code.body.evolves_lower A.strip span
  obtain ⟨-, hclean, he⟩ := Lowering.function_of_clean hf.clean
  have hstep := (Lowering.evolves_withParams code.params hbody).step _ hclean
  have hout : (code.compiled A.strip span c).2.outside.Room (2 ^ 32) 1 :=
    hstep.outside.1.room _ 1 hf.room32
  have hinside : (c.inside "").Room A.limit (code.params.length + code.body.size + 0) :=
    (hf.room.mono (Nat.le_succ _)).inside ""
  have hcount := (hstep.room _ 0 hinside).frame.captures
  have hfit := hf
  unfold Lambda.lower at hfit
  rw [he] at hfit
  obtain ⟨u, hu, hl⟩ := hfit.constant (Lowering.constant_index hout)
  obtain ⟨key, g, rfl, hg⟩ := hl.of_function
  refine ⟨_, key, g, hu, hg, ?_, Nat.lt_of_lt_of_le hcount A.limit_le⟩
  unfold Lambda.lower
  rw [he]
  rfl

theorem compiled_of_fit {g : Function Value} (hg : (code.constant A.strip span c).Loads g)
    (hplain : code.body.isPlain = true) : A.Compiled code g c span := by
  obtain ⟨hnear, hclean, -⟩ := Lowering.function_of_clean hf.clean
  exact ⟨hclean, (hf.room.mono (Nat.le_succ _)).inside "", hf.linked, hnear, hg, hf.names, hplain⟩

end Closing

theorem makeClosure_of_captures {m' : Machine} {k : UInt32} {ys : List Capture} {refs : List CellRef}
    {key : Nat} {g : Function Value} (hk : constant k m = .ok (.function ⟨key, g⟩) m)
    (hc : captureCells 0 ys m = .ok refs m') :
    makeClosure k ys m = .ok () { m' with
      store := { m'.store with fresh := m'.store.fresh + 1 }
      stack := .closure ⟨m'.store.fresh, ⟨g, refs⟩⟩ :: m'.stack } := by
  unfold makeClosure
  rw [bind_ok hk]
  show (captureCells 0 ys >>= fun cells => _ : Exec Unit) m = _
  rw [bind_ok hc]
  rfl

theorem Poised.closes {code : Lambda} (h : Poised S γ L o st m w)
    (hf : Fit S (code.params.length + code.body.size + 2) c (code.lower A.strip span c).2)
    (hp : Placed S.code o (code.lower A.strip span c).1) (hs : Scoped S L c env)
    (hlt : L.length ≤ 2 ^ 32) (hplain : code.body.isPlain = true) :
    A.Goes m fun m' => ∃ γ' v, γ <+: γ' ∧ A.Matches γ' v (.closure w.fresh code env) ∧
      Poised S γ' L (o + (code.lower A.strip span c).1.size) (v :: st) m'
        { w with fresh := w.fresh + 1 } ∧ m'.locals.size = m.locals.size := by
  obtain ⟨-, hnested⟩ := nested_of_fit hf
  obtain ⟨k, key, g, hk, hg, hcode, hcount⟩ := lower_of_fit hf
  rw [hcode] at hp ⊢
  rw [Fragment.size_emit]
  have hexec := h.step (hp.fetch hcount)
  set next := o + Instruction.size _
  have h₁ := h.movedTo next
  obtain ⟨γ', refs, m₂, hcells, hγ, hall, h₂, hs₂⟩ :=
    h₁.captures 0 hlt fun y hy => hnested.place hs h.captured hy
  have hget : constant k (m.movedTo next) = .ok (.function ⟨key, g⟩) (m.movedTo next) := by
    unfold constant
    rw [h₁.frame, hk]
  have hmake := makeClosure_of_captures hget hcells
  rw [h₂.stack] at hmake
  have hrun := hexec.trans (bind_ok hmake)
  refine Moves.goes ⟨_, hrun, .refl ⟨γ', .closure ⟨m₂.store.fresh, ⟨g, refs⟩⟩, hγ, ?_, ?_,
    hs₂⟩⟩
  · refine ⟨g, refs, c, span, ?_, compiled_of_fit hf hg hplain, hnested.captured hs h.captured hall⟩
    rw [h₂.rel.fresh]
  · exact ⟨h₂.frame, h₂.callers, rfl, h₂.rel.newObject, h₂.captured⟩

theorem State.closes (h : State S γ L o st m w) (code : Lambda)
    (hf : Fit S (code.params.length + code.body.size + 2) c (code.lower A.strip span c).2)
    (hp : Placed S.code o (code.lower A.strip span c).1) (hs : Scoped S L c env)
    (hplain : code.body.isPlain = true) :
    A.Sim n m (Yields S γ L (o + (code.lower A.strip span c).1.size) st)
      (close code env w) := by
  have hlt : L.length ≤ 2 ^ 32 := by
    have := hs.lt_word hf
    omega
  refine Goes.mono (h.toPoised.closes hf hp hs hlt hplain) ?_
  rintro m' ⟨γ', u, hγ, hu, h', hsize⟩
  exact ⟨γ', u, hγ, hu, h', hsize.trans h.size⟩

/-! ## Calls -/

section Calls

variable {vs : List Value} {xs : List Val}

theorem callee_of_stack (h : m.stack = vs.reverse ++ v :: st) :
    callee vs.length m = .ok v m := by
  unfold callee
  rw [h, List.getElem?_append_right (Nat.le_of_eq List.length_reverse), List.length_reverse,
    Nat.sub_self]
  rfl

theorem popMany_of_stack (h : m.stack = vs.reverse ++ st) :
    popMany vs.length m = .ok vs { m with stack := st } := by
  have hlen : vs.reverse.length = vs.length := List.length_reverse
  unfold popMany
  rw [h, if_pos (by rw [List.length_append, hlen]; omega), ← hlen, List.take_left, List.drop_left,
    List.reverse_reverse]

theorem machine_checkArity (name : String) (expected : UInt32) (argc : Nat) (m : Machine) :
    Machine.checkArity name expected argc m = if argc.toUInt32 = expected then .ok () m
      else .error (.arityMismatch name expected argc.toUInt32) m := by
  unfold Machine.checkArity
  by_cases h : argc.toUInt32 = expected
  · rw [if_neg (not_not_intro h), if_pos h]
    rfl
  · rw [if_pos h, if_neg h]
    rfl

theorem checkArity_eq (name : String) (expected : UInt32) (argc : Nat) (w : World) :
    checkArity name expected argc w = if argc.toUInt32 = expected then .ok () w
      else .error (.fault (.arityMismatch name expected argc.toUInt32)) w := by
  unfold checkArity
  by_cases h : argc.toUInt32 = expected
  · rw [if_pos h, if_pos h]
    rfl
  · rw [if_neg h, if_neg h]
    rfl

/-! ### Host functions -/

theorem kind_of_matches (h : A.Matches γ v x) :
    v.kind ≠ .record ∧ v.kind ≠ .instanceOf ∧ v.kind ≠ .bound := by
  cases x with
  | datum u =>
    obtain ⟨rfl, hu | ⟨native, rfl⟩⟩ := h
    · cases v <;> first | (cases hu; done) | exact ⟨nofun, nofun, nofun⟩
    · exact ⟨nofun, nofun, nofun⟩
  | closure key code env =>
    obtain ⟨g, refs, c, span, rfl, -⟩ := h
    exact ⟨nofun, nofun, nofun⟩

/-- A reply means the same for arguments that match. -/
theorem answer_of_matches (hv : List.Forall₂ (A.Matches γ) vs xs) (reply : Reply) :
    (∃ u y, reply.answer id vs = .ok u ∧ reply.answer Val.datum xs = .ok y ∧ A.Matches γ u y) ∨
      ∃ message, reply.answer id vs = .error message ∧ reply.answer Val.datum xs = .error message := by
  cases reply with
  | value l => exact .inl ⟨_, _, rfl, rfl, matches_scalar (isScalar_valueOf l)⟩
  | argument position =>
    refine .inl ⟨_, _, rfl, rfl, ?_⟩
    induction hv generalizing position with
    | nil => exact matches_scalar rfl
    | cons h _ ih =>
      cases position with
      | zero => exact h
      | succ position => exact ih position
  | failure message => exact .inr ⟨message, rfl, rfl⟩

theorem shown_of_matches (hv : List.Forall₂ (A.Matches γ) vs xs) (s : Store) :
    vs.map s.shown = xs.map Val.shown := by
  induction hv with
  | nil => rfl
  | cons h _ ih => rw [List.map_cons, List.map_cons, ih, h.shown s]

theorem callHost_of_stack {native : Native} (h : m.stack = vs.reverse ++ v :: st)
    (ha : vs.length.toUInt32 = native.arity) :
    Machine.callHost A.host native vs.length m = (match A.host.answer m.calls native m.store vs with
      | .ok u => push u
      | .error message => throw (.native native.name message) : Exec Unit) { m with
        stack := st
        calls := if A.host.watches native then ⟨native, vs.map m.store.shown⟩ :: m.calls
          else m.calls } := by
  have harity : Machine.checkArity native.name native.arity vs.length m = .ok () m := by
    rw [machine_checkArity, if_pos ha]
  unfold Machine.callHost
  rw [bind_ok harity, bind_ok (popMany_of_stack h),
    bind_ok (pop_of_stack (v := v) rfl)]
  by_cases hw : A.host.watches native
  · simp only [if_pos hw]
    rfl
  · simp only [if_neg hw]
    rfl

theorem State.calls {y : Exec Unit} (h : State S γ L o (vs.reverse ++ v :: st) m w)
    (hn : vs.length < 2 ^ 32) (hp : Placed S.code o (emit ⟨.call, vs.length.toUInt32⟩ span))
    (hy : ∀ m₁ : Machine, m₁.stack = vs.reverse ++ v :: st →
      Machine.call A.host vs.length m₁ = y m₁) :
    ∃ m₁, State S γ L (o + 5) (vs.reverse ++ v :: st) m₁ w ∧
      step A.host m = (y >>= fun _ => pure Status.running : Exec _) m₁ := by
  have hfit : vs.length.toUInt32.toNat = vs.length := Word.toNat_toUInt32 hn
  refine ⟨_, h.movedTo (o + 5), ?_⟩
  have hcall : step A.host m = EStateM.bind (Machine.call A.host vs.length.toUInt32.toNat)
      (fun _ => pure Status.running) (m.movedTo (o + 5)) := h.step (hp.fetch trivial)
  rw [hcall, hfit]
  show _ = EStateM.bind y _ (m.movedTo (o + 5))
  unfold EStateM.bind
  rw [hy (m.movedTo (o + 5)) h.stack]

theorem State.calls_host {native : Native} (h : State S γ L o (vs.reverse ++ .native native :: st) m w)
    (hv : List.Forall₂ (A.Matches γ) vs xs) (hn : vs.length < 2 ^ 32)
    (hp : Placed S.code o (emit ⟨.call, vs.length.toUInt32⟩ span)) :
    A.Sim n m (Yields S γ L (o + 5) st) (callHost A.setting native xs w) := by
  have hlen : xs.length = vs.length := hv.length_eq.symm
  obtain ⟨m₁, h₁, hs⟩ := h.calls (y := Machine.callHost A.host native vs.length) hn hp fun m₁ hm₁ => by
    unfold Machine.call
    rw [bind_ok (callee_of_stack hm₁)]
  unfold callHost
  rw [hlen]
  by_cases ha : vs.length.toUInt32 = native.arity
  · refine Sim.bind_of_ok (by rw [checkArity_eq, if_pos ha]) (Sim.bind_of_ok rfl ?_)
    have hcall := callHost_of_stack (A := A) h₁.stack ha
    set m₂ : Machine := { m₁ with
      stack := st
      calls := if A.host.watches native then ⟨native, vs.map m₁.store.shown⟩ :: m₁.calls
        else m₁.calls } with hm₂
    set w₂ : World := if A.setting.host.watches native then
      { w with calls := ⟨native, xs.map Val.shown⟩ :: w.calls } else w with hw₂
    have h₂ : State S γ L (o + 5) st m₂ w₂ := by
      rw [hm₂, hw₂, ← A.describes.watches native, shown_of_matches hv]
      by_cases hw : A.host.watches native
      · simp only [if_pos hw]
        exact ⟨⟨h₁.frame, h₁.callers, rfl, h₁.rel.record _, h₁.captured⟩, h₁.size⟩
      · simp only [if_neg hw]
        exact h₁.withStack st
    have hanswer : A.host.answer m₁.calls native m₁.store vs =
        (A.setting.host.reply w.calls native (xs.map Val.shown)).answer id vs := by
      rw [A.describes.answer m₁.calls native m₁.store vs, h₁.rel.calls, shown_of_matches hv]
      intro u hu
      obtain ⟨j, hj, rfl⟩ := List.mem_iff_getElem.1 hu
      exact kind_of_matches ((List.forall₂_iff_get.1 hv).2 j hj (by omega))
    rw [hanswer] at hcall
    rcases answer_of_matches hv (A.setting.host.reply w.calls native (xs.map Val.shown)) with
      ⟨u, y, hu, hy, hm⟩ | ⟨message, hu, hy⟩
    · rw [hu] at hcall
      have hrun := hs.trans (bind_ok hcall)
      simp only [hy]
      exact Sim.of_goes (Moves.goes ⟨_, hrun, .refl (h₂.pushed hm)⟩) fun m' h' => Sim.pure h'
    · rw [hu] at hcall
      have hrun := hs.trans (bind_error hcall)
      simp only [hy]
      exact Goes.refl ⟨m₂, hrun, Shows.of_rel h₂.rel⟩
  · refine Sim.bind_of_error (by rw [checkArity_eq, if_neg ha]) ?_
    have harity : Machine.callHost A.host native vs.length m₁ =
        .error (.arityMismatch native.name native.arity vs.length.toUInt32) m₁ := by
      unfold Machine.callHost
      exact bind_error (by rw [machine_checkArity, if_neg ha])
    exact Goes.refl ⟨m₁, hs.trans (bind_error harity), Shows.of_rel h₁.rel⟩

/-! ### Functions -/

theorem enter_of_stack (h : m.stack = vs.reverse ++ v :: st)
    (ha : vs.length.toUInt32 = closure.function.arity) (hd : m.callers.length + 1 < maxFrames) :
    Machine.enter closure vs.length m = .ok () { m with
      stack := st
      locals := m.locals ++ (v :: vs).toArray
      frame := { closure, localsBase := m.locals.size, stackBase := st.length }
      callers := m.frame :: m.callers } := by
  have harity : Machine.checkArity closure.name closure.function.arity vs.length m = .ok () m := by
    rw [machine_checkArity, if_pos ha]
  have hpop : popMany (vs.length + 1) m = .ok (v :: vs) { m with stack := st } := by
    have hstack : m.stack = (v :: vs).reverse ++ st := by
      rw [h, List.reverse_cons, List.append_assoc]
      rfl
    exact popMany_of_stack hstack
  unfold Machine.enter
  rw [bind_ok harity]
  show (if m.callers.length + 1 ≥ maxFrames then _ else _ : Exec Unit) m = _
  rw [if_neg (Nat.not_le.2 hd)]
  show (popMany (vs.length + 1) >>= fun arguments => _ : Exec Unit) m = _
  rw [bind_ok hpop]
  rfl

variable (S) in
/-- The scene of a function that is called, where the caller has the locals `L` and the stack `st`
below the arguments, and goes on at `o`. -/
def Scene.callee (closure : Value.Code) (inner : Context) (env : Env) (L : List Nat) (o : Nat)
    (st : List Value) (hL : L.length ≤ (S.callers.length + 1) * A.limit)
    (hd : S.callers.length + 1 < maxFrames) : A.Scene where
  frame := { closure, localsBase := L.length, stackBase := st.length }
  callers := { S.frame with ip := o } :: S.callers
  captures := inner.frame.captures
  enclosing := inner.enclosing
  outer := env
  base_le := hL
  depth_lt := hd

theorem binds_params {params : List Ident} {s : Store} {ls gs : Array Value} {os : List CellRef}
    {cs : List HostCall} (h : A.Rel γ L s ls gs os cs w) (hsize : ls.size = L.length)
    (hv : List.Forall₂ (A.Matches γ) vs xs) (hlen : vs.length = params.length)
    (hs : Scoped S L c env) (hc : (Lowering.declareParams params c).2.Clean) :
    ∃ L' env' w', bindAll env ((params.map Ident.name).zip xs) w = .ok env' w' ∧ L <+: L' ∧
      A.Rel γ L' s (ls ++ vs.toArray) gs os cs w' ∧ (ls ++ vs.toArray).size = L'.length ∧
      Scoped S L' (Lowering.declareParams params c).2 env' := by
  induction params generalizing vs xs ls L w c env with
  | nil =>
    obtain rfl := List.length_eq_zero_iff.1 hlen
    cases hv
    refine ⟨L, env, w, rfl, List.prefix_refl _, ?_, ?_, hs⟩
    · simpa using h
    · simpa using hsize
  | cons id ids ih =>
    cases hv with
    | nil => cases hlen
    | @cons v x vs xs hvx hv =>
      have he := Lowering.declareParams_cons_of_clean hc
      rw [he] at hc ⊢
      have hr := h.reserve hsize x
      have hlast : (L ++ [w.places.length])[ls.size]? = some w.places.length := by
        rw [hsize]
        simp
      have hfill := hr.fill hlast (by simp) hvx
      obtain ⟨L', env', w', hb, hL, hrel, hsize', hscope⟩ := ih hfill
        (by rw [Array.size_push, hsize, List.length_append, List.length_singleton]) hv
        (Nat.succ.inj hlen) (hs.declare id.name w.places.length) hc
      have happ : ls ++ (v :: vs).toArray = ls.push v ++ vs.toArray := by
        apply Array.ext'
        simp
      rw [happ]
      exact ⟨L', env', w', hb, (List.prefix_append _ _).trans hL, hrel, hsize', hscope⟩

/-- What is left of a call when the callee, which is not the program itself, has a result. -/
def Leaving (S : A.Scene) (γ L : List Nat) (st : List Value) (x : Val) (w : World) (m : Machine) :
    Prop :=
  S.enclosing ≠ [] ∧ ∃ γ' L' o' st' v m₁, γ <+: γ' ∧ L <+: L' ∧ st <:+ st' ∧ A.Matches γ' v x ∧
    step A.host m = leave v m₁ ∧ State S γ' L' o' st' m₁ w

theorem State.returns {x : Val} (h : State S γ L o (v :: st) m w) (hx : A.Matches γ v x)
    (hp : Placed S.code o (emit ⟨.return, ()⟩ span)) (he : S.enclosing ≠ []) :
    Leaving S γ L st x w m := by
  have h₁ := h.movedTo (o + 1)
  exact ⟨he, γ, L, _, st, v, _, List.prefix_refl _, List.prefix_refl _, List.suffix_refl _, hx,
    (h.step (hp.fetch trivial)).trans (bind_ok (pop_of_stack h₁.stack)), h₁.withStack st⟩

theorem State.returns_void (h : State S γ L o st m w)
    (hp : Placed S.code o (emit ⟨.returnVoid, ()⟩ span)) (he : S.enclosing ≠ []) :
    Leaving S γ L st (.datum .void) w m := by
  exact ⟨he, γ, L, _, st, .void, _, List.prefix_refl _, List.prefix_refl _, List.suffix_refl _,
    matches_scalar rfl, h.step (hp.fetch trivial), h.movedTo _⟩

/-- A return comes back to the caller. -/
theorem State.leaves {γ' L' : List Nat} {o' : Nat} {st' : List Value}
    {hL : L.length ≤ (S.callers.length + 1) * A.limit} {hd : S.callers.length + 1 < maxFrames}
    (h : State (S.callee closure inner env L o st hL hd) γ' L' o' st' m w)
    (hc : A.Captured γ' S.frame.closure.captures S.captures S.enclosing S.outer) (hL' : L <+: L')
    (hst : st <:+ st') :
    ∃ m', leave v m = .ok .running m' ∧ State S γ' L o (v :: st) m' w := by
  have hcallers : m.callers = { S.frame with ip := o } :: S.callers := h.callers
  have hbase : m.frame.localsBase = L.length := by
    rw [h.frame]
    rfl
  have hstack : m.stack.drop (m.stack.length - m.frame.stackBase) = st := by
    have hb : m.frame.stackBase = st.length := by
      rw [h.frame]
      rfl
    obtain ⟨junk, hjunk⟩ := hst
    rw [hb, h.stack, ← hjunk, List.length_append, Nat.add_sub_cancel, List.drop_left]
  have htake : L'.take L.length = L := by
    obtain ⟨rest, rfl⟩ := hL'
    exact List.take_left
  have hrel := h.rel.truncate h.size L.length
  rw [htake] at hrel
  rw [leave, get_bind, hcallers, hbase]
  refine ⟨_, rfl, ⟨rfl, rfl, ?_, hrel, hc⟩, ?_⟩
  · show v :: m.stack.drop (m.stack.length - m.frame.stackBase) = v :: st
    rw [hstack]
  · show (m.locals.shrink L.length).size = L.length
    have hle := hL'.length_le
    rw [Array.size_shrink, h.size]
    omega

section Entering

variable {f : Val} {key : Nat} {code : Lambda} {env : Env} {g : Function Value} {refs : List CellRef}
  {c : Context} {place : Span}

theorem Compiled.arity_iff (h : A.Compiled code g c place) (hn : vs.length < 2 ^ 32) :
    vs.length.toUInt32 = g.arity ↔ vs.length = code.params.length := by
  have hp : code.params.length < 2 ^ 32 := by
    have h₁ := h.room.frame.constants
    have h₂ := A.limit_le
    omega
  have ha : g.arity = code.params.length.toUInt32 := h.loads.arity
  rw [ha]
  refine ⟨fun he => ?_, fun he => by rw [he]⟩
  have := congrArg UInt32.toNat he
  rwa [Word.toNat_toUInt32 hn, Word.toNat_toUInt32 hp] at this

theorem scoped_callee (hL : L.length ≤ (S.callers.length + 1) * A.limit)
    (hd : S.callers.length + 1 < maxFrames) (p : Nat) :
    Scoped (S.callee closure inner env L o st hL hd) (L ++ [p]) (c.inside "") (("", p) :: env) := by
  set c₀ : Context := { c with
    frame := { scope := ⟨[], c.frame.scope.depth + 1⟩ }
    enclosing := c.frame :: c.enclosing } with hc₀
  have h₀ : Scoped (S.callee closure inner env L o st hL hd) L c₀ env := ⟨rfl, rfl⟩
  exact h₀.declare "" p

theorem State.enters (h : State S γ L o (vs.reverse ++ .closure ⟨key, ⟨g, refs⟩⟩ :: st) m w)
    (hm : A.Matches γ (.closure ⟨key, ⟨g, refs⟩⟩) f) (hc : A.Compiled code g c place)
    (hr : A.Captured γ refs (code.compiled A.strip place c).2.frame.captures
      (code.compiled A.strip place c).2.enclosing env)
    (hv : List.Forall₂ (A.Matches γ) vs xs) (hlen : vs.length = code.params.length)
    (hn : vs.length < 2 ^ 32) (hp : Placed S.code o (emit ⟨.call, vs.length.toUInt32⟩ span))
    (hL : L.length ≤ (S.callers.length + 1) * A.limit)
    (hd : S.callers.length + 1 < maxFrames) :
    ∃ L' env' w', bindAll env (("", f) :: (code.params.map Ident.name).zip xs) w = .ok env' w' ∧
      L <+: L' ∧
      Scoped (S.callee ⟨g, refs⟩ (code.compiled A.strip place c).2 env L (o + 5) st hL hd) L'
        (Lowering.declareParams code.params (c.inside "")).2 env' ∧
      A.Goes m fun m' => State (S.callee ⟨g, refs⟩ (code.compiled A.strip place c).2 env L
        (o + 5) st hL hd) γ L' 0 st m' w' := by
  set S' := S.callee ⟨g, refs⟩ (code.compiled A.strip place c).2 env L (o + 5) st hL hd
  obtain ⟨m₁, h₁, hs⟩ := h.calls (y := Machine.enter ⟨g, refs⟩ vs.length) hn hp fun m₁ hm₁ => by
    unfold Machine.call
    rw [bind_ok (callee_of_stack hm₁)]
  have hclean : (Lowering.declareParams code.params (c.inside "")).2.Clean :=
    (code.body.evolves_lower A.strip place).clean _ hc.clean
  have hlast : (L ++ [w.places.length])[m₁.locals.size]? = some w.places.length := by
    rw [h₁.size]
    simp
  have hself := (h₁.rel.reserve h₁.size f).fill hlast (by simp) hm
  obtain ⟨L', env', w', hb, hpre, hrel, hsize, hscope⟩ := binds_params hself
    (by rw [Array.size_push, h₁.size, List.length_append, List.length_singleton]) hv hlen
    (scoped_callee hL hd w.places.length) hclean
  refine ⟨L', env', w', hb, (List.prefix_append _ _).trans hpre, hscope, ?_⟩
  have hdepth : m₁.callers.length + 1 < maxFrames := by
    rw [h₁.callers]
    exact hd
  have hrun := hs.trans (bind_ok
    (enter_of_stack h₁.stack ((hc.arity_iff hn).2 hlen) hdepth))
  have happ : m₁.locals ++ (Value.closure ⟨key, ⟨g, refs⟩⟩ :: vs).toArray =
      m₁.locals.push (.closure ⟨key, ⟨g, refs⟩⟩) ++ vs.toArray := by
    apply Array.ext'
    simp
  refine Moves.goes ⟨_, hrun, .refl ⟨⟨?_, ?_, rfl, ?_, hr⟩, ?_⟩⟩
  · show (⟨⟨g, refs⟩, 0, m₁.locals.size, st.length⟩ : StackScript.Frame) = _
    rw [h₁.size]
    rfl
  · show m₁.frame :: m₁.callers = _
    rw [h₁.frame, h₁.callers]
    rfl
  · show A.Rel γ L' m₁.store (m₁.locals ++ (Value.closure ⟨key, ⟨g, refs⟩⟩ :: vs).toArray) _ _ _ w'
    rw [happ]
    exact hrel
  · show (m₁.locals ++ (Value.closure ⟨key, ⟨g, refs⟩⟩ :: vs).toArray).size = _
    rw [happ]
    exact hsize

/-- Calls that nest too deeply fail. -/
theorem State.overflows {Q : α → World → Machine → Prop}
    (h : State S γ L o (vs.reverse ++ .closure ⟨key, ⟨g, refs⟩⟩ :: st) m w)
    (hc : A.Compiled code g c place) (hlen : vs.length = code.params.length)
    (hn : vs.length < 2 ^ 32) (hp : Placed S.code o (emit ⟨.call, vs.length.toUInt32⟩ span))
    (hd : ¬ S.callers.length + 1 < maxFrames) :
    A.Sim n m Q (fail .stackOverflow w) := by
  obtain ⟨m₁, h₁, hs⟩ := h.calls (y := Machine.enter ⟨g, refs⟩ vs.length) hn hp fun m₁ hm₁ => by
    unfold Machine.call
    rw [bind_ok (callee_of_stack hm₁)]
  have he : Machine.enter ⟨g, refs⟩ vs.length m₁ = .error .stackOverflow m₁ := by
    have harity : Machine.checkArity (⟨g, refs⟩ : Value.Code).name g.arity vs.length m₁ = .ok () m₁ := by
      rw [machine_checkArity, if_pos ((hc.arity_iff hn).2 hlen)]
    unfold Machine.enter
    rw [bind_ok harity]
    show (if m₁.callers.length + 1 ≥ maxFrames then _ else _ : Exec Unit) m₁ = _
    rw [h₁.callers, if_pos (Nat.not_lt.1 hd)]
    rfl
  exact Goes.refl ⟨m₁, hs.trans (bind_error he), Shows.of_rel h₁.rel⟩

theorem State.applies {enter : Lambda → Env → Eval Val}
    (h : State S γ L o (vs.reverse ++ v :: st) m w) (hm : A.Matches γ v f)
    (hv : List.Forall₂ (A.Matches γ) vs xs) (hn : vs.length < 2 ^ 32)
    (hp : Placed S.code o (emit ⟨.call, vs.length.toUInt32⟩ span))
    (henter : ∀ key code env g refs c place, v = .closure ⟨key, ⟨g, refs⟩⟩ →
      A.Compiled code g c place → A.Captured γ refs
        (code.compiled A.strip place c).2.frame.captures
        (code.compiled A.strip place c).2.enclosing env →
      vs.length = code.params.length → A.Sim n m (Yields S γ L (o + 5) st) (enter code env w)) :
    A.Sim n m (Yields S γ L (o + 5) st) (apply A.setting enter f xs w) := by
  cases f with
  | closure key code env =>
    obtain ⟨g, refs, c, place, rfl, hc, hr⟩ := hm
    have hlen : xs.length = vs.length := hv.length_eq.symm
    have harity : g.arity = code.params.length.toUInt32 := hc.loads.arity
    show A.Sim n m _ ((checkArity code.name code.params.length.toUInt32 xs.length >>= fun _ =>
      enter code env : Eval Val) w)
    rw [hlen, ← harity]
    by_cases ha : vs.length.toUInt32 = g.arity
    · refine Sim.bind_of_ok (by rw [checkArity_eq, if_pos ha]) ?_
      exact henter _ code env g refs c place rfl hc hr ((hc.arity_iff hn).1 ha)
    · refine Sim.bind_of_error (by rw [checkArity_eq, if_neg ha]) ?_
      obtain ⟨m₁, h₁, hs⟩ := h.calls (y := Machine.enter ⟨g, refs⟩ vs.length) hn hp fun m₁ hm₁ => by
        unfold Machine.call
        rw [bind_ok (callee_of_stack hm₁)]
      have hname : (⟨g, refs⟩ : Value.Code).name = code.name := hc.name_eq
      have he : Machine.enter ⟨g, refs⟩ vs.length m₁ =
          .error (.arityMismatch code.name g.arity vs.length.toUInt32) m₁ := by
        unfold Machine.enter
        refine bind_error ?_
        rw [machine_checkArity, if_neg ha, hname]
      exact Goes.refl ⟨m₁, hs.trans (bind_error he), Shows.of_rel h₁.rel⟩
  | datum u =>
    obtain ⟨rfl, hu | ⟨native, rfl⟩⟩ := hm
    · have hfail : A.Sim n m (Yields S γ L (o + 5) st) (fail (.notCallable v.kind) w) := by
        obtain ⟨m₁, h₁, hs⟩ := h.calls (y := throw (.notCallable v.kind)) hn hp fun m₁ hm₁ => by
          unfold Machine.call
          rw [bind_ok (callee_of_stack hm₁)]
          cases v <;> first | rfl | cases hu
        exact Goes.refl ⟨m₁, hs, Shows.of_rel h₁.rel⟩
      cases v <;> first | exact hfail | cases hu
    · exact h.calls_host hv hn hp

end Entering

variable (S) in
/-- The machine simulates the calls that a function makes. -/
def CallSim (call : Val → List Val → Eval Val) : Prop :=
  ∀ γ L o st span m w v f vs xs, State S γ L o (vs.reverse ++ v :: st) m w → A.Matches γ v f →
    List.Forall₂ (A.Matches γ) vs xs → L.length ≤ (S.callers.length + 1) * A.limit →
    vs.length < 2 ^ 32 → Placed S.code o (emit ⟨.call, vs.length.toUInt32⟩ span) →
    A.Sim A.setting.rounds m (Yields S γ L (o + 5) st) (call f xs w)

end Calls

end StackScript.Semantics.Pairing
