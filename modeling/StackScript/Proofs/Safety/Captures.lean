import StackScript.Proofs.Safety.Variables

/-!
# Captured variables

A closure refers to the variables it has captured by cells. What a cell denotes is the value of one
variable from its definition on: reading and assigning through a closure reads and assigns the
variable and no other, and dropping locals changes nothing. Two closures have a cell in common
exactly if they have captured the same variable of the same call, block or round of a loop.
-/

namespace StackScript

/-- The instructions that stand between a closure and the definition of the local it may capture before
it is there: a function or a record can refer to itself. -/
def Opcode.declares : Opcode → Bool
  | .pushClosure | .appendMethods | .defLocal => true
  | _ => false

theorem Tally.declares_of_pending {limits : Limits} {i : Instruction} {s : Tally} {u : Option Tally}
    (h : (moves limits).Does i s u) (hs : s.pending = true) : i.op.declares = true := by
  obtain ⟨op, args⟩ := i
  have hcontra (hp : s.pending = false) : op.declares = true := by
    rw [hs] at hp
    cases hp
  cases op with
  | pushClosure | appendMethods | defLocal => rfl
  | exitSuccess =>
    obtain ⟨rfl, -⟩ : s = ⟨0, false, some limits.globals⟩ ∧ u = none := h
    cases hs
  | _ => exact hcontra h.1

namespace Machine

/-! ## States -/

/-- The cell belongs to a run that began with the base store. -/
def Owned (base : Store) (m : Machine) (ref : CellRef) : Prop :=
  base.cells.size ≤ ref.index ∧ ref.index < m.store.cells.size

/-- The open cells of a machine are open, each is the only one for its local, no closure has another
open cell, and their locals exist or are about to be defined. -/
structure OrderlyCells (base : Store) (m : Machine) : Prop where
  isOpen : ∀ ref ∈ m.openCells, (m.store.cell ref).closed = none
  distinct : m.openCells.Pairwise fun r s => (m.store.cell r).slot ≠ (m.store.cell s).slot
  held : m.Kept (fun c => ∀ ref ∈ c.captures, (m.store.cell ref).closed = none →
    ref ∈ m.openCells) base
  running : ∀ f ∈ m.frame :: m.callers, ∀ ref ∈ f.closure.captures,
    (m.store.cell ref).closed = none → ref ∈ m.openCells
  below : ∀ ref ∈ m.openCells, (m.store.cell ref).slot.toNat < m.locals.size ∨
    (m.store.cell ref).slot.toNat = m.locals.size ∧ ∃ i next,
      fetch m.frame.closure.function.chunk m.frame.ip = .ok (i, next) ∧ i.op.declares = true

variable {S : Script} {base : Store} {natives n : Nat} {m m' m₀ : Machine} {host : Host}
  {i : Instruction} {next q : Nat} {status : Status} {ref r : CellRef}

theorem Live.below_cases (h : Live S base natives m)
    (hf : fetch m.chunk m.frame.ip = .ok (i, next)) :
    m.Below false ∨ m.Below true ∧ i.op.declares = true := by
  obtain ⟨s, size, k, hu⟩ := h.upcoming hf
  obtain ⟨p, u, hp, hdoes⟩ := hu.does
  cases p with
  | false => exact .inl hp
  | true => exact .inr ⟨hp, Tally.declares_of_pending hdoes rfl⟩

theorem Live.orderly (h : Live S base natives m) : m.OrderlyCells base := by
  have ht := h.counts.tracks
  have hkept := h.counts.kept
  refine ⟨ht.isOpen, ht.distinct, hkept.mono fun c hc ref hr => ?_, fun f hf ref hr => ?_,
    fun ref hr => ?_⟩
  · exact ht.listed ref (hc.young ref hr) (hc.exists_cell ref hr)
  · exact ht.listed ref (hkept.frames f hf ref hr) (h.counts.captures f hf ref hr)
  · obtain ⟨i, next, hf⟩ := h.exists_fetch
    rcases h.below_cases hf with hp | ⟨hp, hi⟩
    · exact .inl (hp ref hr)
    · rcases Nat.lt_or_eq_of_le (Nat.le_of_lt_succ (hp ref hr)) with hlt | heq
      · exact .inl hlt
      · exact .inr ⟨heq, i, next, hf, hi⟩

/-! ## Steps -/

/-- What an instruction does to the captured variables of a run. -/
def Respects (base : Store) (m m' : Machine) : (op : Opcode) → op.format.Args → Prop
  | .getUpvalue, index => (∃ ref v, m.frame.closure.captures[index.toNat]? = some ref ∧
      m.denoted ref = some v ∧ m'.stack = v :: m.stack) ∧
      ∀ r, m.Owned base r → m'.denoted r = m.denoted r
  | .setUpvalue, index => ∃ ref v, m.frame.closure.captures[index.toNat]? = some ref ∧
      m.stack.head? = some v ∧ m'.denoted ref = some v ∧
      ∀ r, m.Owned base r → r ≠ ref → m'.denoted r = m.denoted r
  | .setLocal, slot => ∃ v, m.stack.head? = some v ∧ ∀ r, m.Owned base r → m'.denoted r =
      if r ∈ m.openCells ∧ (m.store.cell r).slot.toNat = m.frame.localsBase + slot.toNat then some v
      else m.denoted r
  | .defLocal, _ => ∃ v, m.stack.head? = some v ∧ ∀ r, m.Owned base r → m'.denoted r =
      if r ∈ m.openCells ∧ (m.store.cell r).slot.toNat = m.locals.size then some v else m.denoted r
  | _, _ => ∀ r, m.Owned base r → m'.denoted r = m.denoted r

theorem Live.respects_setLocal {slot : UInt32} (h : Live S base natives m)
    (he : Effect (S.Owns base m'.store.cells.size) base (m.movedTo next) next .setLocal slot status m') :
    m.Respects base m' .setLocal slot := by
  obtain ⟨-, v, hv, hlt, hr⟩ := he
  refine ⟨v, hv, fun r ho => ?_⟩
  rw [hr.sameVariables.denoted]
  split
  · rename_i hopen
    exact denoted_withLocal hlt (h.counts.tracks.isOpen r hopen.1) hopen.2
  · rename_i hnot
    exact denoted_withLocal_of_ne fun hc hs => hnot ⟨h.counts.tracks.listed r ho.1 ho.2 hc, hs⟩

theorem Live.respects_defLocal {args : Unit} (h : Live S base natives m)
    (he : Effect (S.Owns base m'.store.cells.size) base (m.movedTo next) next .defLocal args status m') :
    m.Respects base m' .defLocal args := by
  obtain ⟨-, v, hv, hr⟩ := he
  refine ⟨v, hv, fun r ho => ?_⟩
  rw [hr.sameVariables.denoted]
  unfold denoted
  cases hc : (m.store.cell r).closed with
  | some w =>
    rw [if_neg fun hopen => by
      rw [h.counts.tracks.isOpen r hopen.1] at hc
      cases hc]
  | none =>
    have hmem := h.counts.tracks.listed r ho.1 ho.2 hc
    show (m.locals.push v)[(m.store.cell r).slot.toNat]? = _
    by_cases hs : (m.store.cell r).slot.toNat = m.locals.size
    · rw [if_pos ⟨hmem, hs⟩, hs, Array.getElem?_push_size]
    · rw [if_neg fun hopen => hs hopen.2, Array.getElem?_push, if_neg hs]

theorem Live.respects (h : Live S base natives m) (hh : host.Harmless)
    (hf : fetch m.chunk m.frame.ip = .ok (i, next))
    (hx : step host m = .ok status m') : m.Respects base m' i.op i.args := by
  have he := h.effect hh hf hx
  have hv := h.varies hh hf hx
  have hsame (hop : i.op ≠ .setUpvalue ∧ i.op ≠ .setLocal ∧ i.op ≠ .defLocal) (r : CellRef)
      (ho : m.Owned base r) : m'.denoted r = m.denoted r :=
    hv.denoted { h.counts.tracks with } hop ho.1 ho.2
  obtain ⟨op, args⟩ := i
  cases op with
  | getUpvalue =>
    obtain ⟨-, ref, v, hcaptured, hvalue, hstack, -⟩ := he
    exact ⟨⟨ref, v, hcaptured, hvalue, hstack⟩, hsame ⟨nofun, nofun, nofun⟩⟩
  | setUpvalue =>
    obtain ⟨-, ref, v, hcaptured, hvalue, hlt, hr⟩ := he
    have hmem := List.mem_of_getElem? hcaptured
    have hb := h.counts.kept.frames m.frame (List.mem_cons_self ..) ref hmem
    have hexists := h.counts.captures m.frame (List.mem_cons_self ..) ref hmem
    have htracks : (m.movedTo next).Tracks base := { h.counts.tracks with }
    refine ⟨ref, v, hcaptured, hvalue, ?_, fun r ho hne => ?_⟩
    · rw [hr.sameVariables.denoted]
      exact denoted_written hlt
    · rw [hr.sameVariables.denoted]
      exact htracks.denoted_written_of_ne hb hexists ho.1 ho.2 hne
  | setLocal => exact h.respects_setLocal he
  | defLocal => exact h.respects_defLocal he
  | _ => exact hsame ⟨nofun, nofun, nofun⟩

theorem Live.slot_lt (h : Live S base natives m) (hh : host.Harmless)
    (hf : fetch m.chunk m.frame.ip = .ok (i, next))
    (hx : step host m = .ok status m')
    (hop : i.op ≠ .pushClosure ∧ i.op ≠ .appendMethods) : m'.Below false := by
  have htracks : (m.movedTo next).Tracks base := { h.counts.tracks with }
  have hbelow (hi : i.op ≠ .defLocal) : m.Below false := by
    refine (h.below_cases hf).resolve_right fun hp => ?_
    have := hp.2
    cases hi' : i.op <;> simp_all [Opcode.declares]
  have hle : m.Below true := (h.below_cases hf).elim Below.weaken And.left
  cases h.varies hh hf hx with
  | rests hi hs =>
    exact (hbelow hi).of_eq id hs.openCells (fun r => by rw [hs.cell]) (by rw [hs.locals])
  | opens he => exact absurd he hop.1
  | defines _ _ hs =>
    intro r hr
    rw [hs.openCells] at hr
    rw [hs.cell, hs.locals, Array.size_push]
    exact hle r hr
  | enters hb hs =>
    intro r hr
    rw [hs.openCells] at hr
    rw [hs.cell, hs.locals, Array.size_append]
    exact Nat.lt_of_lt_of_le (hb r hr) (Nat.le_add_right _ _)
  | assigns he _ hs =>
    refine (hbelow (by rw [he]; nofun)).of_eq id hs.openCells (fun r => by rw [hs.cell]) ?_
    rw [hs.locals, Array.size_setIfInBounds]
  | writes he hs =>
    refine (hbelow (by rw [he]; nofun)).of_eq id (hs.openCells.trans openCells_written) (fun r => ?_) ?_
    · rw [hs.cell, slot_written.1]
    · rw [hs.locals, size_locals_written]
  | drops hle _ hs =>
    exact (htracks.below_truncated hle).of_eq id hs.openCells (fun r => by rw [hs.cell])
      (by rw [hs.locals])

/-! ## Runs -/

/-- A closure is made, with its captures and its cells. -/
def MakesClosure (host : Host) (m : Machine) (captures : List Capture) (refs : List CellRef) : Prop :=
  ∃ index next m' key f,
    fetch m.frame.closure.function.chunk m.frame.ip = .ok (⟨.pushClosure, (index, captures)⟩, next) ∧
    step host m = .ok .running m' ∧ m'.stack = .closure ⟨key, f, refs⟩ :: m.stack

/-- At a step of a run a closure is made that captures the local at a position. -/
def TakesLocal (host : Host) (m₀ : Machine) (n q : Nat) (ref : CellRef) : Prop :=
  ∃ m captures refs c, run host n m₀ = (.unfinished, m) ∧ m.MakesClosure host captures refs ∧
    (c, ref) ∈ captures.zip refs ∧ c.fromLocal = true ∧ m.frame.localsBase + c.index.toNat = q

/-- At a step of a run the local at a position is dropped. -/
def DropsLocal (host : Host) (m₀ : Machine) (n q : Nat) : Prop :=
  ∃ m m', run host n m₀ = (.unfinished, m) ∧ step host m = .ok .running m' ∧
    q < m.locals.size ∧ m'.locals.size ≤ q

theorem Live.makesClosure {captures : List Capture} {refs : List CellRef} (h : Live S base natives m)
    (hh : host.Harmless) (hm : m.MakesClosure host captures refs) :
    ∃ m', step host m = .ok .running m' ∧ m'.locals = m.locals ∧ captures.length = refs.length ∧
      ∀ c ref, (c, ref) ∈ captures.zip refs →
        (c.fromLocal = true → ref ∈ m'.openCells ∧
          (m'.store.cell ref).slot.toNat = m.frame.localsBase + c.index.toNat) ∧
        (c.fromLocal = false → m.frame.closure.captures[c.index.toNat]? = some ref) := by
  obtain ⟨index, next, m', key, f, hf, hx, hstack⟩ := hm
  obtain ⟨s, size, k, hu⟩ := h.upcoming hf
  obtain ⟨-, f', refs', m₁, key', -, hcells, hstack', hr⟩ := h.effect hh hf hx
  obtain rfl : refs = refs' := by
    have htop := hstack.symm.trans hstack'
    simp only [List.cons.injEq, Value.closure.injEq, Object.mk.injEq, Closure.mk.injEq] at htop
    exact htop.1.2.2
  obtain ⟨-, hg, htakes, -, -⟩ := h.counts.captureCells hu hcells
  obtain ⟨hlength, hzip⟩ := List.forall₂_iff_zip.1 htakes
  refine ⟨m', hx, hr.locals.trans hg.locals, hlength, fun c ref hmem => ?_⟩
  have htake := hzip hmem
  unfold Takes at htake
  rw [hg.frame] at htake
  refine ⟨fun hl => ?_, fun hl => ?_⟩
  · rw [if_pos hl] at htake
    rw [hr.openCells, hr.sameVariables.cell]
    exact htake
  · rwa [if_neg (by rw [hl]; nofun)] at htake

theorem Live.takes_of_fresh (h : Live S base natives m) (hh : host.Harmless)
    (hx : step host m = .ok .running m') (hle : m.store.cells.size ≤ ref.index)
    (hlt : ref.index < m'.store.cells.size) : ∃ captures refs c, m.MakesClosure host captures refs ∧
      (c, ref) ∈ captures.zip refs ∧ c.fromLocal = true := by
  obtain ⟨i, next, hf⟩ := h.exists_fetch
  obtain ⟨hop, hmem⟩ := (h.varies hh hf hx).fresh { h.counts.tracks with } hle hlt
  have he := h.effect hh hf hx
  obtain ⟨s, size, k, hu⟩ := h.upcoming hf
  obtain ⟨op, args⟩ := i
  obtain rfl : op = .pushClosure := hop
  obtain ⟨-, f, refs, m₁, key, -, hcells, hstack, hr⟩ := he
  obtain ⟨ht, -, htakes, hnew, -⟩ := h.counts.captureCells hu hcells
  rw [hr.openCells] at hmem
  obtain ⟨c, hc, hl, htake⟩ := hnew ref hmem fun hold =>
    absurd hle (Nat.not_le.2 (h.counts.tracks.exists_cell ref hold))
  refine ⟨args.2, refs, c, ⟨args.1, next, m', key, f.body, hf, hx, hstack⟩, ?_, hl⟩
  -- The capture has taken a cell for this local, and there is only one.
  obtain ⟨j, hj, rfl⟩ := List.getElem_of_mem hc
  have hj' : j < refs.length := htakes.length_eq ▸ hj
  have htake' : m₁.Takes args.2[j] refs[j] := htakes.get hj hj'
  unfold Takes at htake htake'
  rw [if_pos hl] at htake htake'
  obtain rfl : refs[j] = ref :=
    ht.eq_of_slot htake'.1 htake.1 (UInt32.toNat_inj.1 (htake'.2.trans htake.2.symm))
  exact List.mem_of_getElem? (List.getElem?_zip_eq_some.2
    ⟨List.getElem?_eq_getElem hj, List.getElem?_eq_getElem hj'⟩)

theorem Live.origin (h : Live S base natives m₀) (hh : host.Harmless)
    (hbase : m₀.store.cells.size = base.cells.size) (hx : run host n m₀ = (.unfinished, m))
    (ho : m.Owned base ref) : ∃ t q, t < n ∧ TakesLocal host m₀ t q ref := by
  induction n generalizing m with
  | zero =>
    cases hx
    exact absurd ho.1 (Nat.not_le.2 (hbase ▸ ho.2))
  | succ n ih =>
    obtain ⟨m₁, hm₁, hs⟩ := run_succ_iff.1 hx
    by_cases hlt : ref.index < m₁.store.cells.size
    · obtain ⟨t, q, ht, htake⟩ := ih hm₁ ⟨ho.1, hlt⟩
      exact ⟨t, q, Nat.lt_succ_of_lt ht, htake⟩
    · obtain ⟨captures, refs, c, hmake, hmem, hl⟩ :=
        (h.afterRun hh hm₁).takes_of_fresh hh hs (Nat.le_of_not_lt hlt) ho.2
      exact ⟨n, _, Nat.lt_succ_self n, m₁, captures, refs, c, hm₁, hmake, hmem, hl, rfl⟩

theorem Live.mem_openCells_iff (h : Live S base natives m₀) (hh : host.Harmless)
    (hx : run host n m₀ = (.unfinished, m)) (hr : ref ∈ m₀.openCells)
    (hq : (m₀.store.cell ref).slot.toNat = q) :
    (m.store.cell ref).slot.toNat = q ∧ m.Owned base ref ∧
      (ref ∈ m.openCells ↔ ∀ t < n, ¬DropsLocal host m₀ t q) := by
  induction n generalizing m with
  | zero =>
    cases hx
    exact ⟨hq, ⟨h.counts.tracks.young ref hr, h.counts.tracks.exists_cell ref hr⟩,
      fun _ t ht => absurd ht (Nat.not_lt_zero t), fun _ => hr⟩
  | succ n ih =>
    obtain ⟨m₁, hm₁, hs⟩ := run_succ_iff.1 hx
    obtain ⟨hslot, ho, hiff⟩ := ih hm₁
    have hlive := h.afterRun hh hm₁
    obtain ⟨i, next, hf⟩ := hlive.exists_fetch
    have hv := hlive.varies hh hf hs
    have htracks : (m₁.movedTo next).Tracks base := { hlive.counts.tracks with }
    obtain ⟨hslot', hclosed⟩ := (hv.traces htracks).cell ho.2
    have hdrops : DropsLocal host m₀ n q ↔ q < m₁.locals.size ∧ m.locals.size ≤ q := by
      constructor
      · rintro ⟨m₂, m₃, hm₂, hm₃, hd⟩
        obtain rfl : m₁ = m₂ := (Prod.mk.inj (hm₁.symm.trans hm₂)).2
        obtain rfl : m = m₃ := by simpa using hs.symm.trans hm₃
        exact hd
      · exact fun hd => ⟨m₁, m, hm₁, hs, hd⟩
    refine ⟨by rw [hslot', ← hslot], ⟨ho.1, Nat.lt_of_lt_of_le ho.2 (hv.traces htracks).cells_le⟩, ?_⟩
    rw [Nat.forall_lt_succ_right, ← hiff, hdrops]
    by_cases hmem : ref ∈ m₁.openCells
    · have hnot := hv.not_mem_openCells_iff hmem
      rw [hslot] at hnot
      rw [← hnot]
      simp [hmem]
    · -- A closed cell stays closed.
      refine iff_of_false (fun hopen => hmem ?_) fun hand => hmem hand.1
      exact hlive.counts.tracks.listed ref ho.1 ho.2 (hclosed ((hv.traces htracks).tracks.isOpen ref hopen))

theorem dropsLocal_add {k : Nat} (hx : run host k m₀ = (.unfinished, m)) :
    DropsLocal host m n q ↔ DropsLocal host m₀ (k + n) q := by
  unfold DropsLocal
  rw [run_add hx]

theorem Live.after_takesLocal (h : Live S base natives m₀) (hh : host.Harmless)
    (ht : TakesLocal host m₀ n q r) : ∃ m', run host (n + 1) m₀ = (.unfinished, m') ∧
      r ∈ m'.openCells ∧ (m'.store.cell r).slot.toNat = q ∧ ∀ q', ¬DropsLocal host m₀ n q' := by
  obtain ⟨m, captures, refs, c, hm, hmake, hmem, hl, rfl⟩ := ht
  obtain ⟨m', hs, hlocals, -, htakes⟩ := (h.afterRun hh hm).makesClosure hh hmake
  refine ⟨m', run_succ_iff.2 ⟨m, hm, hs⟩, ((htakes c r hmem).1 hl).1, ((htakes c r hmem).1 hl).2, ?_⟩
  rintro q' ⟨m₂, m₃, hm₂, hm₃, hlt, hle⟩
  obtain rfl : m = m₂ := (Prod.mk.inj (hm.symm.trans hm₂)).2
  obtain rfl : m' = m₃ := by simpa using hs.symm.trans hm₃
  rw [hlocals] at hle
  exact Nat.not_le.2 hlt hle

theorem Live.takesLocal_mem_iff {t : Nat} (h : Live S base natives m₀) (hh : host.Harmless)
    (ht : TakesLocal host m₀ n q r) (hlt : n < t) (hr : run host t m₀ = (.unfinished, m)) :
    (m.store.cell r).slot.toNat = q ∧ m.Owned base r ∧
      (r ∈ m.openCells ↔ ∀ w, n ≤ w → w < t → ¬DropsLocal host m₀ w q) := by
  obtain ⟨m₁, hm₁, hmem, hq, hstays⟩ := h.after_takesLocal hh ht
  obtain ⟨k, rfl⟩ := Nat.exists_eq_add_of_lt hlt
  have hrun : run host k m₁ = (.unfinished, m) := by
    rw [← run_add hm₁, Nat.add_right_comm, hr]
  obtain ⟨hslot, howned, hiff⟩ := (h.afterRun hh hm₁).mem_openCells_iff hh hrun hmem hq
  refine ⟨hslot, howned, hiff.trans ⟨fun hd w hle hlt => ?_, fun hd w hlt => ?_⟩⟩
  · rcases Nat.eq_or_lt_of_le hle with rfl | hle
    · exact hstays q
    · have := hd (w - (n + 1)) (by omega)
      rwa [dropsLocal_add hm₁, show n + 1 + (w - (n + 1)) = w by omega] at this
  · rw [dropsLocal_add hm₁]
    exact hd _ (by omega) (by omega)

theorem Live.takesLocal_eq_iff {n₁ n₂ q₁ q₂ : Nat} {r₁ r₂ : CellRef} (h : Live S base natives m₀)
    (hh : host.Harmless) (hn : n₁ ≤ n₂) (h₁ : TakesLocal host m₀ n₁ q₁ r₁)
    (h₂ : TakesLocal host m₀ n₂ q₂ r₂) :
    r₁ = r₂ ↔ q₁ = q₂ ∧ ∀ t, n₁ ≤ t → t < n₂ → ¬DropsLocal host m₀ t q₁ := by
  obtain ⟨m₂, hm₂, hr₂, hq₂, hstays₂⟩ := h.after_takesLocal hh h₂
  obtain ⟨hslot, -, hiff⟩ := h.takesLocal_mem_iff hh h₁ (Nat.lt_succ_of_le hn) hm₂
  have hopen : r₁ ∈ m₂.openCells ↔ ∀ t, n₁ ≤ t → t < n₂ → ¬DropsLocal host m₀ t q₁ := by
    refine hiff.trans ⟨fun hd t hle hlt => hd t hle (Nat.lt_succ_of_lt hlt), fun hd t hle hlt => ?_⟩
    rcases Nat.eq_or_lt_of_le (Nat.le_of_lt_succ hlt) with rfl | hlt
    · exact hstays₂ q₁
    · exact hd t hle hlt
  rw [← hopen]
  constructor
  · rintro rfl
    exact ⟨hslot.symm.trans hq₂, hr₂⟩
  · rintro ⟨rfl, hmem⟩
    exact (h.afterRun hh hm₂).counts.tracks.eq_of_slot hmem hr₂ (UInt32.toNat_inj.1 (hslot.trans hq₂.symm))

/-- When a run is at its end, all cells are closed. -/
theorem Live.closed_of_finished (h : Live S base natives m₀) (hh : host.Harmless)
    (hx : run host n m₀ = (.finished, m)) (ho : m.Owned base ref) :
    (m.store.cell ref).closed ≠ none := by
  induction n generalizing m₀ with
  | zero => cases hx
  | succ n ih =>
    unfold run at hx
    cases hs : step host m₀ with
    | ok status m₁ =>
      rw [hs] at hx
      cases status with
      | running => exact ih (h.afterStep hh hs) hx
      | finished =>
        cases hx
        obtain ⟨ht, hnil⟩ := h.counts.finish hh (h.endures 1) hs
        intro hc
        have := ht.listed ref ho.1 ho.2 hc
        rw [hnil] at this
        cases this
    | error e m₁ =>
      rw [hs] at hx
      cases hx

/-- The cells of a run are variables that closures share. -/
structure SharesVariables (host : Host) (base : Store) (m₀ : Machine) : Prop where
  orderly : ∀ n m, run host n m₀ = (.unfinished, m) → m.OrderlyCells base
  respects : ∀ n m i next status m', run host n m₀ = (.unfinished, m) →
    fetch m.frame.closure.function.chunk m.frame.ip = .ok (i, next) →
    step host m = .ok status m' → m.Respects base m' i.op i.args ∧
      (i.op ≠ .pushClosure ∧ i.op ≠ .appendMethods → m'.Below false)
  /-- A capture that is not from a local passes a cell on. -/
  passes : ∀ n m captures refs, run host n m₀ = (.unfinished, m) →
    m.MakesClosure host captures refs → captures.length = refs.length ∧
      ∀ c ref, (c, ref) ∈ captures.zip refs → c.fromLocal = false →
        m.frame.closure.captures[c.index.toNat]? = some ref
  /-- Every cell is the one of a local that a closure has captured. -/
  origin : ∀ n m ref, run host n m₀ = (.unfinished, m) → m.Owned base ref →
    ∃ t q, t < n ∧ TakesLocal host m₀ t q ref
  /-- Captures have a cell in common exactly if they are from the same local, and it has not been
  dropped in between. -/
  shared : ∀ n₁ n₂ q₁ q₂ r₁ r₂, n₁ ≤ n₂ → TakesLocal host m₀ n₁ q₁ r₁ → TakesLocal host m₀ n₂ q₂ r₂ →
    (r₁ = r₂ ↔ q₁ = q₂ ∧ ∀ t, n₁ ≤ t → t < n₂ → ¬DropsLocal host m₀ t q₁)
  closed : ∀ n m ref, run host n m₀ = (.finished, m) → m.Owned base ref →
    (m.store.cell ref).closed ≠ none

theorem Live.sharesVariables (h : Live S base natives m₀) (hh : host.Harmless)
    (hbase : m₀.store.cells.size = base.cells.size) : SharesVariables host base m₀ where
  orderly _ _ hx := (h.afterRun hh hx).orderly
  respects _ _ _ _ _ _ hx hf hs :=
    ⟨(h.afterRun hh hx).respects hh hf hs, (h.afterRun hh hx).slot_lt hh hf hs⟩
  passes _ _ _ _ hx hm := by
    obtain ⟨m', -, -, hlength, htakes⟩ := (h.afterRun hh hx).makesClosure hh hm
    exact ⟨hlength, fun c ref hmem => (htakes c ref hmem).2⟩
  origin _ _ _ hx ho := h.origin hh hbase hx ho
  shared _ _ _ _ _ _ hn h₁ h₂ := h.takesLocal_eq_iff hh hn h₁ h₂
  closed _ _ _ hx ho := h.closed_of_finished hh hx ho

/-- Captured variables are shared variables, in every run of a compiled program in which declarations
stand in blocks only. The bound lets the positions of all locals fit into cells. -/
theorem sharesVariables_run {program : Program} {options : Options} {chunk : Chunk Constant}
    (hcompile : program.compile options = .ok chunk) (htidy : program.isTidy = true)
    (hroom : maxFrames * (program.size + 1) ≤ 2 ^ 32) (hh : host.Harmless) (store : Store)
    (natives : List Native) : SharesVariables host (chunk.load store).2
      (start (chunk.load store).2 natives (chunk.load store).1) := by
  obtain ⟨S, T, -, -, hfunction, -⟩ := Program.exists_script hcompile htidy hroom store
  exact (live_start hcompile hroom store natives hfunction).sharesVariables hh rfl

end Machine

/-- A program with a counter that two closures share: one counts, the other one tells. -/
def counter : Program :=
  ⟨[.function ⟨"main", {}⟩ [] [
    .variable ⟨"count", {}⟩ (.literal (.int 0) {}) {},
    .variable ⟨"up", {}⟩ (.lambda [] [.expression (.assign (.name ⟨"count", {}⟩ {})
      (.binary (.arithmetic .add) (.name ⟨"count", {}⟩ {}) (.literal (.int 1) {}) {}) {}) {}] {}) {},
    .variable ⟨"tell", {}⟩ (.arrow [] (.name ⟨"count", {}⟩ {}) {}) {},
    .expression (.call (.name ⟨"up", {}⟩ {}) [] {}) {},
    .return (some (.call (.name ⟨"tell", {}⟩ {}) [] {})) {}] {}]⟩

theorem Machine.sharesVariables_run_counter : ∃ chunk, counter.compile {} = .ok chunk ∧
    counter.isTidy = true ∧ maxFrames * (counter.size + 1) ≤ 2 ^ 32 ∧
    ({} : Services).host.Harmless ∧ SharesVariables ({} : Services).host (chunk.load {}).2
      (start (chunk.load {}).2 [] (chunk.load {}).1) := by
  obtain ⟨chunk, h⟩ := counter.exists_chunk {} (by cbv)
  have hroom : maxFrames * (counter.size + 1) ≤ 2 ^ 32 := by decide
  have hh := Services.harmless_host {}
  exact ⟨chunk, h, rfl, hroom, hh, sharesVariables_run h rfl hroom hh {} []⟩

end StackScript
