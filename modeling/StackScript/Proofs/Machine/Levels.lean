import StackScript.Proofs.Code.Tallies
import StackScript.Proofs.Machine.Cells
import StackScript.Proofs.Safety.Discipline

/-!
# The locals of running programs

`Levels` says that each active call has as many locals as every table of its code has at the place
where the call is, and that the program has defined as many globals. With the open cells, which are
those of locals that exist or are about to, this is an invariant of every run: `Counts`.
-/

namespace StackScript

/-! ## Functions at run time -/

/-- The function comes from one that counts its locals. -/
def Function.Known (limits : Limits) (g : Function Value) : Prop :=
  ∃ f : Function Constant, f.Tallied limits ∧ f.Loads g

/-- The code of the function has a table that starts with a tally, and closures are made of known
functions only. -/
structure Function.Sourced (limits : Limits) (s : Tally) (g : Function Value) : Prop where
  table : ∃ T, g.chunk.code.Table (Tally.moves limits) T ∧ T 0 s
  small : s.locals ≤ limits.locals
  constants : ∀ (i : Nat) (f : Object (Function Value)),
    g.chunk.constants[i]? = some (.function f) → f.body.Known limits

/-- Functions among loaded constants are known. -/
theorem LoadsAll.known {limits : Limits} {ks : List Constant} {vs : List Value} (h : LoadsAll ks vs)
    (hk : ∀ k ∈ ks, k.isForeign = false ∧ ∀ f, k = ⟨.function f⟩ → f.Tallied limits) {i : Nat}
    {f : Object (Function Value)} (hv : vs[i]? = some (.function f)) : f.body.Known limits := by
  obtain ⟨k, hget⟩ : ∃ k, ks[i]? = some k := by
    have hi := (List.getElem?_eq_some_iff.1 hv).1
    rw [h.length] at hi
    exact ⟨_, List.getElem?_eq_getElem hi⟩
  obtain ⟨hforeign, htallied⟩ := hk k (List.mem_of_getElem? hget)
  cases h.loads i k _ hget hv with
  | function key f g ha hn hc hl hks => exact ⟨f, htallied f rfl, ha, hn, hc, hl, hks⟩
  | foreign hf =>
    rw [hforeign] at hf
    cases hf

theorem Function.Known.sourced {limits : Limits} {g : Function Value} (h : g.Known limits) :
    g.Sourced limits g.firstTally := by
  obtain ⟨f, hf, hl⟩ := h
  have hfirst : g.firstTally = f.firstTally := by rw [firstTally, hl.arity, firstTally]
  cases hf with
  | mk htable hstart hsmall hforeign hinner =>
    rw [hfirst]
    refine ⟨⟨_, hl.code ▸ htable, hstart⟩, hsmall, fun i f' hv => ?_⟩
    refine hl.constants.known (fun k hk => ⟨hforeign k hk, ?_⟩) hv
    rintro f'' rfl
    exact hinner f'' hk

/-- A program that runs, with what is known of its code. -/
structure Script where
  limits : Limits
  /-- The locals of all calls that can be active at once have positions that fit into cells. -/
  room : Machine.maxFrames * limits.locals ≤ 2 ^ 32
  /-- The code of the program. -/
  function : Function Value
  /-- The number of globals that are defined at the beginning. -/
  first : Nat
  sourced : function.Sourced limits ⟨0, false, some first⟩

/-! ## Calls -/

section

variable (S : Script)

/-- A call is at a place where it has so many locals and the program so many globals; whether a local
may be captured before it is defined is as `P` says. -/
structure Level (s : Tally) (P : Bool → Prop) (size : Nat) (k : Option Nat) (f : Frame) : Prop where
  sourced : f.closure.function.Sourced S.limits s
  small : size ≤ S.limits.locals
  marked : ∀ T, f.closure.function.chunk.code.Table (Tally.moves S.limits) T → T 0 s →
    ∃ p, P p ∧ T f.ip ⟨size, p, k⟩

/-- The calls, the innermost first, share the locals below `top` among them. -/
inductive Levels (defined : Nat) : (P : Bool → Prop) → (top : Nat) → List Frame → Prop
  | program {P : Bool → Prop} {top : Nat} {f : Frame} :
      f.closure = ⟨S.function, []⟩ → f.localsBase = 0 →
      Level S ⟨0, false, some S.first⟩ P top (some defined) f → Levels defined P top [f]
  | call {P : Bool → Prop} {size : Nat} {f caller : Frame} {callers : List Frame} :
      f.closure.function.Known S.limits →
      Level S f.closure.function.firstTally P size none f →
      Levels defined (· = false) f.localsBase (caller :: callers) →
      Levels defined P (f.localsBase + size) (f :: caller :: callers)

end

variable {S : Script} {s : Tally} {P P' : Bool → Prop} {size size' top defined : Nat}
  {k k' : Option Nat} {f : Frame} {fs : List Frame}

theorem Level.advance {i : Instruction} {next t : Nat} (h : Level S s P size k f)
    (hf : Machine.fetch f.closure.function.chunk f.ip = .ok (i, next))
    (ht : Machine.Targets next t i.op i.args) (hsmall : size' ≤ S.limits.locals)
    (hnext : ∀ p u, P p → (Tally.moves S.limits).Does i ⟨size, p, k⟩ u →
      ∃ p', u = some ⟨size', p', k'⟩ ∧ P' p') : Level S s P' size' k' { f with ip := t } := by
  refine ⟨h.sourced, hsmall, fun T hT h0 => ?_⟩
  obtain ⟨p, hp, hmark⟩ := h.marked T hT h0
  obtain ⟨i', next', hfetch, u, hdoes, htargets⟩ := hT f.ip _ hmark
  obtain ⟨rfl, rfl⟩ : i' = i ∧ next' = next := by
    have := (hfetch _ rfl).symm.trans hf
    simpa using this
  obtain ⟨p', rfl, hp'⟩ := hnext p u hp hdoes
  exact ⟨p', hp', htargets _ rfl t ht⟩

theorem Level.does (h : Level S s P size k f) : ∃ i next p u,
    Machine.fetch f.closure.function.chunk f.ip = .ok (i, next) ∧ P p ∧
      (Tally.moves S.limits).Does i ⟨size, p, k⟩ u := by
  obtain ⟨T, hT, h0⟩ := h.sourced.table
  obtain ⟨p, hp, hmark⟩ := h.marked T hT h0
  obtain ⟨i, next, hfetch, u, hdoes, -⟩ := hT f.ip _ hmark
  exact ⟨i, next, p, u, hfetch _ rfl, hp, hdoes⟩

theorem Level.mono (h : Level S s P size k f) (hP : ∀ p, P p → P' p) : Level S s P' size k f :=
  ⟨h.sourced, h.small, fun T hT h0 => (h.marked T hT h0).imp fun p hp => ⟨hP p hp.1, hp.2⟩⟩

theorem Levels.mono (h : Levels S defined P top fs) (hP : ∀ p, P p → P' p) :
    Levels S defined P' top fs := by
  cases h with
  | program hc hb hl => exact .program hc hb (hl.mono hP)
  | call hk hl htail => exact .call hk (hl.mono hP) htail

/-- No call has more locals than the limits allow. -/
theorem Levels.top_le (h : Levels S defined P top fs) : top ≤ fs.length * S.limits.locals := by
  induction h with
  | program _ _ hl =>
    rw [List.length_singleton, Nat.one_mul]
    exact hl.small
  | call _ hl _ ih =>
    rw [List.length_cons, Nat.succ_mul]
    exact Nat.add_le_add ih hl.small

theorem Levels.head (h : Levels S defined P top (f :: fs)) : ∃ s size k,
    f.localsBase + size = top ∧ Level S s P size k f ∧ (k = none ↔ fs ≠ []) ∧
      k.getD defined = defined ∧ f.localsBase ≤ fs.length * S.limits.locals ∧
      ∀ {P' size' k' ip'}, Level S s P' size' k' { f with ip := ip' } → (k' = none ↔ k = none) →
        Levels S (k'.getD defined) P' (f.localsBase + size') ({ f with ip := ip' } :: fs) := by
  cases h with
  | program hc hb hl =>
    refine ⟨_, top, some defined, by rw [hb, Nat.zero_add], hl, by simp, rfl, by rw [hb]; exact Nat.zero_le _,
      fun {P' size' k' ip'} hl' hk' => ?_⟩
    cases k' with
    | none => cases hk'.1 rfl
    | some d =>
      rw [hb, Nat.zero_add]
      exact .program (f := { f with localsBase := 0, ip := ip' }) hc rfl (hb ▸ hl')
  | call hk hl htail =>
    refine ⟨_, _, none, rfl, hl, by simp, rfl, htail.top_le, fun {P' size' k' ip'} hl' hk' => ?_⟩
    obtain rfl := hk'.2 rfl
    exact .call (f := { f with ip := ip' }) hk hl' htail

theorem Levels.tail {caller : Frame} (h : Levels S defined P top (f :: caller :: fs)) :
    Levels S defined (· = false) f.localsBase (caller :: fs) := by
  cases h with
  | call _ _ htail => exact htail

/-! ## Machines -/

/-- The closure is made of a known function, and it has captured cells of the run. -/
structure Script.Owns (S : Script) (base : Store) (cells : Nat) (c : Value.Code) : Prop where
  known : c.function.Known S.limits
  young : ∀ ref ∈ c.captures, base.cells.size ≤ ref.index
  exists_cell : ∀ ref ∈ c.captures, ref.index < cells

namespace Machine

section

variable (S : Script) (base : Store) (natives : Nat)

/-- The machine has as many variables as the tables of its code say, and its cells are those of locals
or closed. -/
structure Counts (m : Machine) : Prop where
  kept : m.Kept (S.Owns base m.store.cells.size) base
  tracks : m.Tracks base
  captures : ∀ f ∈ m.frame :: m.callers, ∀ ref ∈ f.closure.captures, ref.index < m.store.cells.size
  depth : m.callers.length < maxFrames
  levels : ∃ defined, Levels S defined m.Below m.locals.size (m.frame :: m.callers) ∧
    m.globals.size + S.first = defined + natives

end

variable {base : Store} {natives : Nat} {m m₁ m' : Machine} {i : Instruction} {next t : Nat}
  {status : Status} {host : Host}

theorem Below.of_eq {p q : Bool} (h : m.Below p) (hpq : p = true → q = true)
    (hopen : m'.openCells = m.openCells) (hslot : ∀ r, (m'.store.cell r).slot = (m.store.cell r).slot)
    (hsize : m'.locals.size = m.locals.size) : m'.Below q := by
  intro r hr
  rw [hopen] at hr
  rw [hslot, hsize]
  refine Nat.lt_of_lt_of_le (h r hr) (Nat.add_le_add_left ?_ _)
  cases p with
  | false => exact Nat.zero_le _
  | true => exact Nat.le_of_eq (by rw [hpq rfl])

theorem Below.weaken {p : Bool} (h : m.Below false) : m.Below p :=
  fun r hr => Nat.lt_of_lt_of_le (h r hr) (Nat.add_le_add_left (Nat.zero_le _) _)

/-- What is known of the next instruction: it is there, the innermost call has a number of locals with
which it can be executed, and whatever it makes of that number, the calls around are not concerned. -/
structure Upcoming (S : Script) (natives : Nat) (m : Machine) (i : Instruction) (next : Nat)
    (s : Tally) (size : Nat) (k : Option Nat) : Prop where
  fetched : fetch m.frame.closure.function.chunk m.frame.ip = .ok (i, next)
  height : m.frame.localsBase + size = m.locals.size
  level : Level S s m.Below size k m.frame
  does : ∃ p u, m.Below p ∧ (Tally.moves S.limits).Does i ⟨size, p, k⟩ u
  inside : k = none ↔ m.callers ≠ []
  outermost : m.callers = [] → m.frame.localsBase = 0
  room : m.frame.localsBase + S.limits.locals ≤ 2 ^ 32
  levels : ∀ {P' size' k' ip'}, Level S s P' size' k' { m.frame with ip := ip' } →
    (k' = none ↔ k = none) → ∃ defined,
      Levels S defined P' (m.frame.localsBase + size') ({ m.frame with ip := ip' } :: m.callers) ∧
      m.globals.size + k'.getD 0 + S.first = k.getD 0 + defined + natives

theorem Counts.upcoming (h : Counts S base natives m) : ∃ i next s size k,
    Upcoming S natives m i next s size k := by
  obtain ⟨defined, hlevels, hglobals⟩ := h.levels
  obtain ⟨s, size, k, hsize, hlevel, hk, hdefined, hbase, hrebuild⟩ := hlevels.head
  obtain ⟨i, next, p, u, hfetch, hp, hdoes⟩ := hlevel.does
  refine ⟨i, next, s, size, k, hfetch, hsize, hlevel, ⟨p, u, hp, hdoes⟩, hk, fun hc => ?_, ?_, ?_⟩
  · rw [hc, List.length_nil, Nat.zero_mul] at hbase
    exact Nat.le_zero.1 hbase
  · calc m.frame.localsBase + S.limits.locals
        ≤ (m.callers.length + 1) * S.limits.locals := by
          rw [Nat.succ_mul]
          exact Nat.add_le_add_right hbase _
      _ ≤ maxFrames * S.limits.locals := Nat.mul_le_mul_right _ h.depth
      _ ≤ 2 ^ 32 := S.room
  · intro P' size' k' ip' hlevel' hk'
    refine ⟨_, hrebuild hlevel' hk', ?_⟩
    cases k with
    | none =>
      obtain rfl := hk'.2 rfl
      simp only [Option.getD_none]
      omega
    | some d =>
      obtain ⟨d', rfl⟩ := Option.ne_none_iff_exists'.1 (mt hk'.1 nofun)
      obtain rfl : d = defined := hdefined
      simp only [Option.getD_some]
      omega

/-! ### The effect of a step -/

variable {s : Tally} {size : Nat} {k : Option Nat} {Q : Value.Code → Prop}

theorem Upcoming.position_lt {index : UInt32} {captures : List Capture}
    (h : Upcoming S natives m ⟨.pushClosure, (index, captures)⟩ next s size k) {c : Capture} (hc : c ∈ captures)
    (hl : c.fromLocal = true) : m.frame.localsBase + c.index.toNat < 2 ^ 32 := by
  obtain ⟨p, u, -, -, -, p', -, hsmall, -, hbound⟩ := h.does
  have := hbound c hc hl
  have := h.room
  dsimp only at *
  omega

/-- The cells that a closure takes belong to the run. -/
theorem Counts.captureCells {index : UInt32} {captures : List Capture} {refs : List CellRef}
    (h : Counts S base natives m)
    (hu : Upcoming S natives m ⟨.pushClosure, (index, captures)⟩ next s size k)
    (hx : captureCells 0 captures (m.movedTo next) = .ok refs m₁) :
    m₁.Tracks base ∧ (m.movedTo next).Grows m₁ ∧ List.Forall₂ m₁.Takes captures refs ∧
      (∀ ref ∈ m₁.openCells, ref ∉ m.openCells →
        ∃ c ∈ captures, c.fromLocal = true ∧ m₁.Takes c ref) ∧
      ∀ ref ∈ refs, ref.index < m₁.store.cells.size := by
  have htracks : (m.movedTo next).Tracks base := { h.tracks with }
  obtain ⟨ht, hg, htakes, hnew⟩ := captureCells_takes hx htracks h.kept.store.cells_le
    fun c hc hl => hu.position_lt hc hl
  refine ⟨ht, hg, htakes, hnew, fun ref hr => ?_⟩
  obtain ⟨c, htake⟩ : ∃ c, m₁.Takes c ref := by
    obtain ⟨j, hj, rfl⟩ := List.getElem_of_mem hr
    exact ⟨_, htakes.get (htakes.length_eq ▸ hj) hj⟩
  unfold Takes at htake
  split at htake
  · exact ht.exists_cell _ htake.1
  · rw [hg.frame] at htake
    refine Nat.lt_of_lt_of_le ?_ hg.size_le
    exact h.captures m.frame (List.mem_cons_self ..) _ (List.mem_of_getElem? htake)

theorem Counts.young (h : Counts S base natives m) :
    m.Kept (fun c => ∀ ref ∈ c.captures, base.cells.size ≤ ref.index) base :=
  h.kept.mono fun _ hc => hc.young

theorem Effect.leaves (n : Nat) (he : Effect Q base m n .returnVoid () status m') :
    (m.callers = [] ∧ status = .finished ∧
      Rests Q base (m.truncated m.frame.localsBase) m.frame.ip m') ∨
    ∃ frame callers, m.callers = frame :: callers ∧ status = .running ∧
      Rests Q base { m.truncated m.frame.localsBase with frame, callers } frame.ip m' := by
  unfold Effect at he
  cases hc : m.callers with
  | nil =>
    rw [hc] at he
    exact .inl ⟨rfl, he⟩
  | cons frame callers =>
    rw [hc] at he
    exact .inr ⟨frame, callers, rfl, he⟩

theorem Counts.varies (h : Counts S base natives m) (hu : Upcoming S natives m i next s size k)
    (he : Effect Q base (m.movedTo next) next i.op i.args status m') :
    (m.movedTo next).Varies base i.op m' := by
  obtain ⟨p, u, hp, hdoes⟩ := hu.does
  have hbelow (hpending : p = false) : (m.movedTo next).Below false := by
    subst hpending
    exact hp
  obtain ⟨op, args⟩ := i
  cases op with
  | pushClosure =>
    obtain ⟨-, f, refs, m₁, key, -, hcells, -, hr⟩ := he
    obtain ⟨ht, hg, -⟩ := h.captureCells hu hcells
    exact .opens rfl hg ht hr.sameVariables
  | defLocal =>
    obtain ⟨-, v, hv, hr⟩ := he
    exact .defines rfl hv hr.sameVariables
  | setLocal =>
    obtain ⟨-, v, -, hlt, hr⟩ := he
    exact .assigns rfl hlt hr.sameVariables
  | setUpvalue =>
    obtain ⟨-, ref, v, -, -, -, hr⟩ := he
    exact .writes rfl hr.sameVariables
  | popLocal | closeUpvalue | popnLocal =>
    obtain ⟨-, hle, hr⟩ := he
    exact .drops (Nat.sub_le ..) (hbelow hdoes.1) hr.sameVariables
  | «return» | returnVoid =>
    have hle : m.frame.localsBase ≤ m.locals.size := hu.height ▸ Nat.le_add_right _ _
    rcases Effect.leaves next he with ⟨-, -, hr⟩ | ⟨frame, callers, -, -, hr⟩
    · exact .drops hle (hbelow hdoes.1) hr.sameVariables
    · exact .drops hle (hbelow hdoes.1) ⟨hr.locals, hr.cells, hr.openCells⟩
  | call | callProperty =>
    rcases he.2 with hr | hr
    · exact .rests nofun hr.sameVariables
    · obtain ⟨arguments, -, hlocals⟩ := hr.locals
      exact .enters (hbelow hdoes.1) ⟨hlocals, hr.cells, hr.openCells⟩
  | defGlobal =>
    obtain ⟨-, v, -, hr⟩ := he
    exact .rests nofun ⟨hr.locals, hr.cells, hr.openCells⟩
  | setGlobal =>
    obtain ⟨-, v, -, -, hr⟩ := he
    exact .rests nofun ⟨hr.locals, hr.cells, hr.openCells⟩
  | getGlobal =>
    obtain ⟨-, v, -, -, hr⟩ := he
    exact .rests nofun hr.sameVariables
  | getUpvalue =>
    obtain ⟨-, ref, v, -, -, -, hr⟩ := he
    exact .rests nofun hr.sameVariables
  | exitSuccess => exact .rests nofun he.2.sameVariables
  | _ =>
    obtain ⟨-, t, -, hr⟩ := he
    exact .rests nofun hr.sameVariables

theorem Counts.effect (h : Counts S base natives m) (hu : Upcoming S natives m i next s size k)
    (hh : host.Harmless) (hsound : Sound 1 base m) (hx : step host m = .ok status m') :
    Effect (S.Owns base m'.store.cells.size) base (m.movedTo next) next i.op i.args status m' := by
  -- At first nothing is known of how many cells there are behind the step.
  have hyoung := step_effect hh (fun _ hc => hc) h.young hsound hu.fetched
    (fun _ _ _ _ _ _ _ _ _ hcells => hcells) hx
  have hle := ((h.varies hu hyoung).traces { h.tracks with }).cells_le
  refine step_effect hh (fun _ hc => hc.young)
    (h.kept.mono fun c hc => ⟨hc.known, hc.young, fun ref hr => ?_⟩) hsound hu.fetched
    (fun index captures hi f refs m₁ hf hcells _ hrefs => ?_) hx
  · exact Nat.lt_of_lt_of_le (hc.exists_cell ref hr) hle
  · subst hi
    obtain ⟨-, f', refs', m₂, key, -, hcells', -, hr⟩ := hyoung
    obtain ⟨rfl, rfl⟩ : refs = refs' ∧ m₁ = m₂ := by
      have := hcells.symm.trans hcells'
      simpa using this
    refine ⟨hu.level.sourced.constants _ f hf, hrefs, fun ref href => ?_⟩
    rw [hr.cells]
    exact (h.captureCells hu hcells).2.2.2.2 ref href

/-! ### Steps -/

section

variable (h : Counts S base natives m) (hu : Upcoming S natives m i next s size k)
  (hv : (m.movedTo next).Varies base i.op m')

include h hu hv

theorem Counts.advance (n : Nat) (j : Option Nat)
    (hr : Rests (S.Owns base m'.store.cells.size) base m₁ t m')
    (hframe : m₁.frame = (m.movedTo next).frame) (hcallers : m₁.callers = m.callers)
    (ht : Targets next t i.op i.args) (hsize : m.frame.localsBase + n = m'.locals.size)
    (hsmall : n ≤ S.limits.locals) (hk : j = none ↔ k = none)
    (hglobals : m'.globals.size + k.getD 0 = m.globals.size + j.getD 0)
    (hnext : ∀ p u, m.Below p → (Tally.moves S.limits).Does i ⟨size, p, k⟩ u →
      ∃ p', u = some ⟨n, p', j⟩ ∧ m'.Below p') : Counts S base natives m' := by
  have htracks : (m.movedTo next).Tracks base := { h.tracks with }
  have hframe' : m'.frame = { m.frame with ip := t } := by rw [hr.frame, hframe]
  have hcallers' : m'.callers = m.callers := hr.callers.trans hcallers
  obtain ⟨defined, hlevels, hdefined⟩ :=
    hu.levels (hu.level.advance hu.fetched ht hsmall hnext) hk
  refine ⟨hr.kept, (hv.traces htracks).tracks, fun f hf ref href => ?_, by rw [hcallers']; exact h.depth,
    defined, ?_, by omega⟩
  · refine Nat.lt_of_lt_of_le ?_ (hv.traces htracks).cells_le
    rw [hframe', hcallers'] at hf
    rcases List.mem_cons.1 hf with rfl | hf
    · exact h.captures m.frame (List.mem_cons_self ..) ref href
    · exact h.captures f (List.mem_cons_of_mem _ hf) ref href
  · rwa [hframe', hcallers', ← hsize]

theorem Counts.still
    (hr : Rests (S.Owns base m'.store.cells.size) base m₁ t m')
    (hframe : m₁.frame = (m.movedTo next).frame) (hcallers : m₁.callers = m.callers)
    (ht : Targets next t i.op i.args) (hlocals : m₁.locals.size = m.locals.size)
    (hglobals : m₁.globals.size = m.globals.size) (hopen : m₁.openCells = m.openCells)
    (hslot : ∀ r, (m₁.store.cell r).slot = (m.store.cell r).slot)
    (hnext : ∀ p u, (Tally.moves S.limits).Does i ⟨size, p, k⟩ u →
      ∃ p', u = some ⟨size, p', k⟩ ∧ (p = true → p' = true)) : Counts S base natives m' := by
  refine h.advance hu hv size k hr hframe hcallers ht ?_ hu.level.small .rfl ?_ fun p u hp hdoes => ?_
  · rw [hr.locals, hlocals, hu.height]
  · rw [hr.globals, hglobals]
  · obtain ⟨p', rfl, hpp⟩ := hnext p u hdoes
    refine ⟨p', rfl, hp.of_eq hpp (hr.openCells.trans hopen) (fun r => ?_) (by rw [hr.locals, hlocals])⟩
    rw [hr.sameVariables.cell, hslot]

/-- A step that drops locals of the innermost call. -/
theorem Counts.drop {n : Nat} (hn : n ≤ size)
    (hr : Rests (S.Owns base m'.store.cells.size) base
      ((m.movedTo next).truncated (m.locals.size - n)) next m')
    (ht : Targets next next i.op i.args)
    (hnext : ∀ p u, (Tally.moves S.limits).Does i ⟨size, p, k⟩ u →
      ∃ p', u = some ⟨size - n, p', k⟩) : Counts S base natives m' := by
  have hheight := hu.height
  have htracks : (m.movedTo next).Tracks base := { h.tracks with }
  have hsize : m'.locals.size = m.locals.size - n := by
    rw [hr.locals]
    refine Array.size_shrink.trans (Nat.min_eq_left (Nat.sub_le ..))
  refine h.advance hu hv (size - n) k hr rfl rfl ht (by omega)
    (Nat.le_trans (Nat.sub_le ..) hu.level.small) .rfl ?_ fun p u _ hdoes => ?_
  · rw [hr.globals]
    rfl
  · obtain ⟨p', rfl⟩ := hnext p u hdoes
    refine ⟨p', rfl, Below.weaken ?_⟩
    have hbelow : ((m.movedTo next).truncated (m.locals.size - n)).Below false :=
      htracks.below_truncated (Nat.sub_le ..)
    exact hbelow.of_eq id hr.openCells (fun r => by rw [hr.sameVariables.cell])
      (by rw [hr.locals])

theorem Counts.leave {frame : Frame} {callers : List Frame} (hc : m.callers = frame :: callers)
    (hr : Rests (S.Owns base m'.store.cells.size) base
      { (m.movedTo next).truncated m.frame.localsBase with frame, callers } frame.ip m') :
    Counts S base natives m' := by
  have htracks : (m.movedTo next).Tracks base := { h.tracks with }
  have hle : m.frame.localsBase ≤ m.locals.size := hu.height ▸ Nat.le_add_right _ _
  have hframe : m'.frame = frame := hr.frame
  have hcallers : m'.callers = callers := hr.callers
  have hsize : m'.locals.size = m.frame.localsBase := by
    rw [hr.locals]
    exact Array.size_shrink.trans (Nat.min_eq_left hle)
  have hbelow : m'.Below false :=
    (htracks.below_truncated hle).of_eq id hr.openCells (fun r => by rw [hr.sameVariables.cell])
      (by rw [hr.locals])
  obtain ⟨defined, hlevels, hdefined⟩ := h.levels
  rw [hc] at hlevels
  refine ⟨hr.kept, (hv.traces htracks).tracks, fun f hf ref href => ?_, ?_, defined, ?_, ?_⟩
  · rw [hframe, hcallers, ← hc] at hf
    exact Nat.lt_of_lt_of_le (h.captures f (List.mem_cons_of_mem _ hf) ref href) (hv.traces htracks).cells_le
  · have hdepth := h.depth
    rw [hc, List.length_cons] at hdepth
    rw [hcallers]
    omega
  · rw [hframe, hcallers, hsize]
    exact hlevels.tail.mono fun p _ => hbelow.weaken
  · rw [hr.globals]
    exact hdefined

theorem Counts.enter {argc : UInt32} (hi : i.op = .call ∨ i.op = .callProperty)
    (hr : Enters (S.Owns base m'.store.cells.size) base (m.movedTo next) next argc.toNat m') :
    Counts S base natives m' := by
  have htracks : (m.movedTo next).Tracks base := { h.tracks with }
  have htargets : Targets next next i.op i.args := by
    obtain ⟨op, args⟩ := i
    rcases hi with rfl | rfl <;> rfl
  have hdoes (p : Bool) (u : Option Tally) (hd : (Tally.moves S.limits).Does i ⟨size, p, k⟩ u) :
      p = false ∧ u = some ⟨size, p, k⟩ := by
    obtain ⟨op, args⟩ := i
    rcases hi with rfl | rfl <;> exact hd
  have hpending : m.Below false := by
    obtain ⟨p, u, hp, hd⟩ := hu.does
    obtain ⟨rfl, -⟩ := hdoes p u hd
    exact hp
  -- The caller goes on behind the call once it has ended.
  have hcaller : Level S s (· = false) size k { m.frame with ip := next } := by
    refine hu.level.advance hu.fetched htargets hu.level.small fun p u _ hd => ?_
    obtain ⟨rfl, rfl⟩ := hdoes p u hd
    exact ⟨false, rfl, rfl⟩
  obtain ⟨defined, hlevels, hdefined⟩ := hu.levels hcaller .rfl
  obtain ⟨arguments, hlength, hlocals⟩ := hr.locals
  have hbase : m'.frame.localsBase = m.locals.size := hr.localsBase
  have hcells : m'.store.cells = m.store.cells := hr.cells
  have harity : m'.frame.closure.function.arity = argc := by
    rw [← hr.arity]
    exact UInt32.ofNat_toNat
  have hsize : m'.locals.size = m'.frame.localsBase + (argc.toNat + 1) := by
    rw [hlocals, hbase, ← hlength]
    simp
  have hsourced := hr.callee.known.sourced
  refine ⟨hr.kept, (hv.traces htracks).tracks, fun f hf ref href => ?_, hr.depth, defined, ?_, ?_⟩
  · rw [hr.callers] at hf
    rw [hcells]
    rcases List.mem_cons.1 hf with rfl | hf
    · rw [← hcells]
      exact hr.callee.exists_cell ref href
    · rcases List.mem_cons.1 hf with rfl | hf
      · exact h.captures m.frame (List.mem_cons_self ..) ref href
      · exact h.captures f (List.mem_cons_of_mem _ hf) ref href
  · rw [hr.callers, hsize]
    refine .call hr.callee.known ⟨hsourced, ?_, fun T _ h0 => ⟨false, fun ref href => ?_, ?_⟩⟩ ?_
    · have hsmall := hsourced.small
      rwa [Function.firstTally, harity] at hsmall
    · rw [hr.openCells] at href
      rw [Store.cell, hcells, ← Store.cell, hsize, hbase]
      exact Nat.lt_of_lt_of_le (hpending ref href) (Nat.le_add_right _ _)
    · rw [hr.ip]
      rwa [Function.firstTally, harity] at h0
    · rw [hbase, ← hu.height]
      exact hlevels
  · have hglobals : m'.globals = m.globals := hr.globals
    rw [hglobals]
    omega

end

theorem Counts.pushClosure {args : UInt32 × List Capture} (h : Counts S base natives m)
    (hu : Upcoming S natives m ⟨.pushClosure, args⟩ next s size k)
    (hv : (m.movedTo next).Varies base .pushClosure m')
    (he : Effect (S.Owns base m'.store.cells.size) base (m.movedTo next) next .pushClosure args
      status m') : Counts S base natives m' := by
  obtain ⟨-, f, refs, m₁, key, -, hcells, -, hr⟩ := he
  obtain ⟨ht, hg, -, hnew, -⟩ := h.captureCells hu hcells
  refine h.advance hu hv size k hr hg.frame hg.callers rfl ?_ hu.level.small .rfl ?_ ?_
  · rw [hr.locals, hg.locals, hu.height]
  · rw [hr.globals, hg.globals]
  · rintro p u hp ⟨-, -, p', hpp, -, rfl, hbound⟩
    refine ⟨p', rfl, fun ref href => ?_⟩
    rw [hr.openCells] at href
    rw [hr.sameVariables.cell, hr.locals, hg.locals]
    by_cases hold : ref ∈ m.openCells
    · have hbelow : m.Below p' := hp.of_eq hpp rfl (fun _ => rfl) rfl
      rw [hg.cell (h.tracks.exists_cell ref hold)]
      exact hbelow ref hold
    · obtain ⟨c, hc, hl, htake⟩ := hnew ref href hold
      unfold Takes at htake
      rw [if_pos hl, hg.frame] at htake
      have hlt : c.index.toNat < size + p'.toNat := hbound c hc hl
      rw [htake.2, ← hu.height, Nat.add_assoc]
      exact Nat.add_lt_add_left hlt _

theorem Counts.defLocal {args : Unit} (h : Counts S base natives m)
    (hu : Upcoming S natives m ⟨.defLocal, args⟩ next s size k)
    (hv : (m.movedTo next).Varies base .defLocal m')
    (he : Effect (S.Owns base m'.store.cells.size) base (m.movedTo next) next .defLocal args
      status m') : Counts S base natives m' := by
  obtain ⟨-, v, -, hr⟩ := he
  obtain ⟨p, u, -, -, hlt, -⟩ := hu.does
  have hheight := hu.height
  have hsize : m'.locals.size = m.locals.size + 1 := by
    rw [hr.locals]
    exact Array.size_push ..
  refine h.advance hu hv (size + 1) k hr rfl rfl rfl (by omega) (Nat.succ_le_of_lt hlt) .rfl
    (by rw [hr.globals]) ?_
  rintro p u hp ⟨-, -, rfl⟩
  refine ⟨false, rfl, fun ref href => ?_⟩
  rw [hr.openCells] at href
  rw [hr.sameVariables.cell, hsize]
  refine Nat.lt_of_lt_of_le (hp ref href) (Nat.add_le_add_left ?_ _)
  cases p <;> decide

theorem Counts.defGlobal {args : Unit} (h : Counts S base natives m)
    (hu : Upcoming S natives m ⟨.defGlobal, args⟩ next s size k)
    (hv : (m.movedTo next).Varies base .defGlobal m')
    (he : Effect (S.Owns base m'.store.cells.size) base (m.movedTo next) next .defGlobal args
      status m') : Counts S base natives m' := by
  obtain ⟨-, v, -, hr⟩ := he
  obtain ⟨p, u, -, -, d, hd, -⟩ := hu.does
  obtain rfl : k = some d := hd
  have hlocals : m'.locals = m.locals := hr.locals
  refine h.advance hu hv size (some (d + 1)) hr rfl rfl rfl (hlocals ▸ hu.height) hu.level.small
    (by simp) ?_ ?_
  · rw [hr.globals, Array.size_push]
    simp only [Option.getD_some]
    omega
  · rintro p u hp ⟨hpending, d', hd', rfl⟩
    obtain rfl := Option.some.inj hd'
    exact ⟨p, rfl, hp.of_eq id hr.openCells (fun r => by rw [hr.sameVariables.cell]) (by rw [hlocals])⟩

theorem Counts.step (h : Counts S base natives m) (hh : host.Harmless) (hsound : Sound 1 base m)
    (hx : step host m = .ok .running m') : Counts S base natives m' := by
  obtain ⟨i, next, s, size, k, hu⟩ := h.upcoming
  have he := h.effect hu hh hsound hx
  have hv := h.varies hu he
  -- Most instructions leave the variables alone, or change the value of one of them.
  have hquiet {t : Nat} (hr : Rests (S.Owns base m'.store.cells.size) base (m.movedTo next) t m')
      (ht : Targets next t i.op i.args) := h.still hu hv hr rfl rfl ht rfl rfl rfl fun _ => rfl
  obtain ⟨op, args⟩ := i
  cases op with
  | pushClosure => exact h.pushClosure hu hv he
  | defLocal => exact h.defLocal hu hv he
  | defGlobal => exact h.defGlobal hu hv he
  | popLocal | closeUpvalue =>
    obtain ⟨-, -, hr⟩ := he
    obtain ⟨p, u, -, -, hn, -⟩ := hu.does
    exact h.drop hu hv hn hr rfl fun p u hd => ⟨p, hd.2.2⟩
  | popnLocal =>
    obtain ⟨-, -, hr⟩ := he
    obtain ⟨p, u, -, -, hn, -⟩ := hu.does
    exact h.drop hu hv hn hr rfl fun p u hd => ⟨p, hd.2.2⟩
  | «return» | returnVoid =>
    rcases Effect.leaves next he with ⟨-, ⟨⟩, -⟩ | ⟨frame, callers, hc, -, hr⟩
    exact h.leave hu hv hc hr
  | call =>
    obtain ⟨-, hr | hr⟩ := he
    · exact hquiet hr rfl fun p u hd => ⟨p, hd.2, id⟩
    · exact h.enter hu hv (.inl rfl) hr
  | callProperty =>
    obtain ⟨-, hr | hr⟩ := he
    · exact hquiet hr rfl fun p u hd => ⟨p, hd.2, id⟩
    · exact h.enter hu hv (.inr rfl) hr
  | exitSuccess => cases he.1
  | setLocal =>
    obtain ⟨-, v, -, -, hr⟩ := he
    exact h.still hu hv hr rfl rfl rfl (Array.size_setIfInBounds ..) rfl rfl (fun _ => rfl)
      fun p u hd => ⟨p, hd.2.2, id⟩
  | setUpvalue =>
    obtain ⟨-, ref, v, -, -, -, hr⟩ := he
    exact h.still hu hv hr written_frame written_callers rfl size_locals_written
      (by rw [written_globals]) openCells_written (fun _ => slot_written.1) fun p u hd => ⟨p, hd.2, id⟩
  | setGlobal =>
    obtain ⟨-, v, -, -, hr⟩ := he
    exact h.still hu hv hr rfl rfl rfl rfl (Array.size_setIfInBounds ..) rfl (fun _ => rfl)
      fun p u hd => ⟨p, hd.2.2, id⟩
  | getGlobal =>
    obtain ⟨-, v, -, -, hr⟩ := he
    exact hquiet hr rfl fun p u hd => ⟨p, hd.2.2, id⟩
  | getUpvalue =>
    obtain ⟨-, ref, v, -, -, -, hr⟩ := he
    exact hquiet hr rfl fun p u hd => ⟨p, hd.2, id⟩
  | getLocal =>
    obtain ⟨-, t, ht, hr⟩ := he
    exact hquiet hr ht fun p u hd => ⟨p, hd.2.2, id⟩
  | pushConst =>
    obtain ⟨-, t, ht, hr⟩ := he
    refine hquiet hr ht fun p u hd => ?_
    obtain ⟨rfl, p', rfl⟩ := hd
    exact ⟨p', rfl, nofun⟩
  | appendMethods =>
    obtain ⟨-, t, ht, hr⟩ := he
    exact hquiet hr ht fun p u hd => ⟨p, hd, id⟩
  | _ =>
    obtain ⟨-, t, ht, hr⟩ := he
    exact hquiet hr ht fun p u hd => ⟨p, hd.2, id⟩

/-- When a program ends, all of its cells are closed. -/
theorem Counts.finish (h : Counts S base natives m) (hh : host.Harmless) (hsound : Sound 1 base m)
    (hx : Machine.step host m = .ok .finished m') : m'.Tracks base ∧ m'.openCells = [] := by
  obtain ⟨i, next, s, size, k, hu⟩ := h.upcoming
  have he := h.effect hu hh hsound hx
  have htracks : (m.movedTo next).Tracks base := { h.tracks with }
  refine ⟨((h.varies hu he).traces htracks).tracks, ?_⟩
  obtain ⟨p, u, hp, hdoes⟩ := hu.does
  obtain ⟨op, args⟩ := i
  cases op with
  | exitSuccess =>
    obtain ⟨hs, -⟩ : (⟨size, p, k⟩ : Tally) = ⟨0, false, some S.limits.globals⟩ ∧ u = none := hdoes
    obtain ⟨rfl, rfl, rfl⟩ : size = 0 ∧ p = false ∧ k = some S.limits.globals := by simpa using hs
    have hc : m.callers = [] := by
      by_contra hne
      cases hu.inside.2 hne
    have hsize : m.locals.size = 0 := by rw [← hu.height, hu.outermost hc]
    rw [he.2.openCells]
    refine List.eq_nil_iff_forall_not_mem.2 fun ref hr => ?_
    have hlt := hp ref hr
    rw [hsize] at hlt
    cases hlt
  | «return» | returnVoid =>
    obtain ⟨-, hd, -⟩ : p = false ∧ k = none ∧ u = none := hdoes
    rcases Effect.leaves next he with ⟨hc, -, -⟩ | ⟨frame, callers, -, ⟨⟩, -⟩
    exact absurd hc (hu.inside.1 hd)
  | _ => cases he.1

/-- At the beginning there are no closures. -/
theorem kept_start (store : Store) (natives : List Native) (chunk : Chunk Value)
    (Q : Value.Code → Prop) : (start store natives chunk).Kept Q store := by
  refine ⟨nofun, by simp [start], fun v hv => ?_, Store.within_self _ _, nofun, ?_⟩
  · obtain ⟨native, -, rfl⟩ : ∃ native ∈ natives, Value.native native = v := by simpa [start] using hv
    trivial
  · intro f hf' ref hr
    obtain rfl := List.mem_singleton.1 hf'
    cases hr

/-- A machine counts its variables at the beginning. -/
theorem counts_start (store : Store) (natives : List Native) (chunk : Chunk Value)
    (hf : S.function = ⟨0, chunk⟩) : Counts S store natives.length (start store natives chunk) := by
  have hclosure : (start store natives chunk).frame.closure = ⟨S.function, []⟩ := by
    rw [hf]
    rfl
  have hlevel : Level S ⟨0, false, some S.first⟩ (start store natives chunk).Below 0 (some S.first)
      (start store natives chunk).frame := by
    refine ⟨?_, Nat.zero_le _, fun T _ h0 => ⟨false, nofun, h0⟩⟩
    rw [hclosure]
    exact S.sourced
  refine ⟨kept_start store natives chunk _,
    ⟨nofun, nofun, nofun, fun ref hb hlt => absurd hb (Nat.not_le.2 hlt), .nil⟩, ?_, Nat.zero_lt_succ _,
    S.first, .program hclosure rfl hlevel, ?_⟩
  · intro f hf' ref hr
    obtain rfl := List.mem_singleton.1 hf'
    cases hr
  · simp [start, Nat.add_comm]

/-- A machine counts its variables all the time. -/
theorem Counts.run {n : Nat} (h : Counts S base natives m) (hh : host.Harmless)
    (he : Endures base m) (hx : Machine.run host n m = (.unfinished, m')) : Counts S base natives m' := by
  induction n generalizing m with
  | zero =>
    cases hx
    exact h
  | succ n ih =>
    cases hs : Machine.step host m with
    | ok status m₁ =>
      cases status with
      | running =>
        have hrun := endures_run hh he 1
        rw [run_succ hs] at hx hrun
        exact ih (h.step hh (he 1) hs) hrun hx
      | finished =>
        rw [Machine.run, hs] at hx
        cases hx
    | error e m₁ =>
      rw [Machine.run, hs] at hx
      cases hx

end Machine

end StackScript
