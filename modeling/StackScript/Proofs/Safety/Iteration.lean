import StackScript.Proofs.Safety.Carrying

/-!
# Fresh variables

Closures that are made in different turns of a loop share nothing, and a closure that outlives its
turn reads what has been stored last into the variable of that turn. A loop with an update goes on
with the value that the variable of the last turn has had at its end.
-/

namespace StackScript

open Lowering Fragment

theorem Round.slot?_name (r : Round) :
    (r.turn.inside r.context).frame.scope.slot? r.turn.id.name = some r.slot := by
  have hadds := adds_addLocal r.turn.id.name (modifyScope Scope.enter r.context).2
  exact hadds.slot?_head

/-- The loop of a statement over a range, in a function of a program. -/
def Lowering.rangeRound (strip : Bool) (path : List Making) (o : Nat) (c : Context) (id : Ident)
    (iterable : Expr) (body : Stmt) (span : Span) : Round :=
  let i := expression strip iterable c
  ⟨path, o + i.1.size + 18, i.2, ⟨id, { depth := i.2.frame.scope.depth }, body, span⟩, o + i.1.size + 6⟩

theorem Stmt.mem_spots_forIn (strip : Bool) (loop : Option (Loop × Nat)) (path : List Making) (o : Nat)
    (c : Context) (id : Ident) (iterable : Expr) (body : Stmt) (span : Span) :
    (rangeRound strip path o c id iterable body span).spot ∈
      (Stmt.forIn id iterable body span).spots strip loop o c := by
  simp only [Stmt.spots]
  exact List.mem_cons_of_mem _ (List.mem_append_right _ (List.mem_cons_self ..))

namespace Machine

variable {program : Program} {options : Options} {host : Host} {m₀ : Machine} {S : Script} {base : Store}
  {natives : Nat}

theorem Begun.sound (hb : Begun program options S base natives host m₀) {path : List Making}
    (hp : program.Path options path) :
    ∀ spot ∈ (program.innermost options path).spots options.strip, spot.Sound S.limits options.strip := by
  induction hp with
  | nil =>
    obtain ⟨more, T, hloaded⟩ := hb.loaded
    exact hloaded.inner
  | @cons s path hpath hs ih =>
    cases (ih s.spot hs).closure s.routine s.before s.after rfl with
    | mk _ _ _ _ hinner hfits => exact fun spot hmem => ⟨hinner spot hmem, hfits spot hmem⟩

section

variable (program : Program) (options : Options) (host : Host) (m₀ : Machine)

/-- The variable of a loop is a new one in each turn. -/
structure FreshVariables : Prop where
  /-- Whatever is executed is a function of the program. -/
  visits : ∀ n m, run host n m₀ = (.unfinished, m) → ∃ path, Visits program options host m₀ n m path
  /-- A loop over a range goes through its body in turns. -/
  overRange : ∀ path, program.Path options path →
    ∀ spot ∈ (program.innermost options path).spots options.strip, ∀ loop id iterable body span,
    spot.phrase = .statement loop (.forIn id iterable body span) →
    ∃ r : Round, r.In program options ∧ r.path = path ∧ r.turn.id = id ∧ r.turn.body = body ∧
      r.turn.loop.carry = none
  /-- A loop with an update goes through its body in turns. Between the turns the name means the variable
  that is carried over, in the update and in the test. -/
  withUpdate : ∀ path, program.Path options path →
    ∀ o c loop id init test update body span,
    ⟨o, c, .statement loop (.for id init test update body span)⟩ ∈
      (program.innermost options path).spots options.strip →
    ∀ q, carrying options.strip o c id init test update span = q → q.Fits id ∧
      (q.round path id body span).In program options ∧
      Expr.optionSpots options.strip (q.head + 6) q.update update ⊆
        (program.innermost options path).spots options.strip ∧
      Expr.optionSpots options.strip q.testOffset q.test test ⊆
        (program.innermost options path).spots options.strip
  /-- In the body the name means the variable of the turn. -/
  sight : ∀ r : Round, r.In program options →
    (r.turn.inside r.context).frame.scope.slot? r.turn.id.name = some r.slot
  /-- A turn begins with the definition of its variable, which is the next local. -/
  begins : ∀ r n m m', Begins program options host m₀ r n m →
    run host (n + 2) m₀ = (.unfinished, m') →
    m.locals.size = m.frame.localsBase + r.slot ∧ SameCall m m' ∧ m'.frame.ip = r.start ∧
      ∃ v, m'.locals = m.locals.push v ∧ ∀ outer inner, r.turn.loop.carry = some (outer, inner) →
        m.locals[m.frame.localsBase + outer.toNat]? = some v
  /-- Where the body finds its variable, it is in a turn, and the variable is the one of this turn. -/
  belongs : ∀ r t m, r.In program options → Visits program options host m₀ t m r.path →
    r.start ≤ m.frame.ip → m.frame.ip < r.stop options.strip →
    m.frame.localsBase + r.slot < m.locals.size →
    ∃ n m₁, Begins program options host m₀ r n m₁ ∧ SameCall m₁ m ∧
      Persists host m₀ m₁.locals.size n t
  /-- Where the body makes a closure, it is in a turn, and the closure captures the variable of this
  turn. -/
  makes : ∀ r t m captures refs, r.In program options → Visits program options host m₀ t m r.path →
    r.start ≤ m.frame.ip → m.frame.ip < r.stop options.strip → m.MakesClosure host captures refs →
    ∃ n m₁, Begins program options host m₀ r n m₁ ∧ SameCall m₁ m ∧
      Persists host m₀ m₁.locals.size n t ∧ ∀ c ref, (c, ref) ∈ captures.zip refs →
        c.fromLocal = true → c.index.toNat = r.slot → Captured host m₀ m₁.locals.size n (t + 1) ref
  /-- While the variable of a turn is there, its call is inside of the turn. -/
  inside : ∀ r n m t m', Begins program options host m₀ r n m →
    Persists host m₀ m.locals.size n t → run host t m₀ = (.unfinished, m') →
    m'.frame.localsBase ≤ m.locals.size →
    SameCall m m' ∧ r.start ≤ m'.frame.ip ∧ m'.frame.ip < r.stop options.strip
  /-- Closures have the variables of turns in common exactly if it is one turn. -/
  fresh : ∀ r₁ r₂ n₁ n₂ m₁ m₂ t₁ t₂ ref₁ ref₂, Begins program options host m₀ r₁ n₁ m₁ →
    Begins program options host m₀ r₂ n₂ m₂ → Captured host m₀ m₁.locals.size n₁ t₁ ref₁ →
    Captured host m₀ m₂.locals.size n₂ t₂ ref₂ → (ref₁ = ref₂ ↔ n₁ = n₂)
  /-- At any time the variable of a turn, while it is there, and the cell that closures have of it hold
  what has been stored last. -/
  value : ∀ r n m t m', Begins program options host m₀ r n m → n + 2 ≤ t →
    run host t m₀ = (.unfinished, m') → ∃ v, Contains host m₀ m.locals.size n t m' v ∧
      ∀ v', LastStored host m₀ m.locals.size n t v' ↔ v' = v
  /-- A closure reads the variable of the turn in which it has captured it. -/
  reads : ∀ r n m t m' index next ref, Begins program options host m₀ r n m →
    run host t m₀ = (.unfinished, m') →
    fetch m'.frame.closure.function.chunk m'.frame.ip = .ok (⟨.getUpvalue, index⟩, next) →
    m'.frame.closure.captures[index.toNat]? = some ref → Captured host m₀ m.locals.size n t ref →
    ∃ v, LastStored host m₀ m.locals.size n t v ∧
      step host m' = .ok .running { m'.movedTo next with stack := v :: m'.stack }
  /-- When a turn goes on with the next one, the update and the test find the value that the variable of
  the turn has had. -/
  carried : ∀ path t m o c loop id init test update body span q,
    Visits program options host m₀ t m path →
    ⟨o, c, .statement loop (.for id init test update body span)⟩ ∈
      (program.innermost options path).spots options.strip →
    carrying options.strip o c id init test update span = q →
    GoesOn options.strip (q.round path id body span) m →
    ∃ n m₁ v k m', Begins program options host m₀ (q.round path id body span) n m₁ ∧ SameCall m₁ m ∧
      Persists host m₀ m₁.locals.size n t ∧ LastStored host m₀ m₁.locals.size n t v ∧
      run host (t + k) m₀ = (.unfinished, m') ∧
      Copies m (q.head + 6) m.stack (m.frame.localsBase + q.slot.toNat) v m' ∧
      m'.locals.size = m.frame.localsBase + q.slot.toNat + 1

end

theorem Begun.freshVariables (hb : Begun program options S base natives host m₀) :
    FreshVariables program options host m₀ where
  visits n m hr := by
    obtain ⟨path, _, he⟩ := hb.executes hr
    exact ⟨path, he.visits⟩
  overRange path hp spot hs loop id iterable body span hphrase := by
    obtain ⟨o, c, phrase⟩ := spot
    cases hphrase
    exact ⟨rangeRound options.strip path o c id iterable body span,
      (hp.good hb.good).traversed.parts _ hs (Stmt.mem_spots_forIn ..), rfl, rfl, rfl, rfl⟩
  withUpdate path hp o c loop id init test update body span hs q hq := by
    have hparts := (hp.good hb.good).traversed.parts _ hs
    obtain ⟨hupdate, htest, hround⟩ := Stmt.mem_spots_for loop body hq
    exact ⟨hq ▸ (hb.sound hp _ hs).statement _ _ rfl, hparts hround, List.Subset.trans hupdate hparts,
      List.Subset.trans htest hparts⟩
  sight r _ := r.slot?_name
  begins r n m m' h hr := by
    obtain ⟨hsame, hip, -, v, -, -, -, -, hlocals, -⟩ := h.defined hb hr
    refine ⟨(h.size hb).1, hsame, hip, v, hlocals, fun outer inner hcarry => ?_⟩
    obtain ⟨v', hv', hlocals'⟩ := h.copies hb hcarry hr
    rw [Array.push_eq_push.1 (hlocals.symm.trans hlocals') |>.1]
    exact hv'
  belongs r t m hr hv hstart hstop hq := hv.belongs hb hr hstart hstop hq
  makes r t m captures refs hr hv hstart hstop hm := by
    obtain ⟨n, m₁, hbegins, hsame, hp⟩ := hv.takes hb hr hstart hstop hm
    refine ⟨n, m₁, hbegins, hsame, hp, fun c ref hmem hl hslot => ?_⟩
    refine ⟨t, Nat.lt_succ_self t, hp, m, captures, refs, c, hv.run, hm, hmem, hl, ?_⟩
    rw [hslot, (hbegins.size hb).1, hsame.localsBase]
  inside r n m t m' h hp hr hbelow := h.inside hb hp hr hbelow
  fresh r₁ r₂ n₁ n₂ m₁ m₂ t₁ t₂ ref₁ ref₂ h₁ h₂ hc₁ hc₂ := by
    obtain ⟨w₁, -, hp₁, htakes₁⟩ := hc₁
    obtain ⟨w₂, -, hp₂, htakes₂⟩ := hc₂
    exact h₁.cell_eq_iff hb h₂ hp₁ hp₂ htakes₁ htakes₂
  value r n m t m' h ht hr := by
    obtain ⟨v, hlast, hcontains⟩ := h.exists_lastStored hb ht hr
    refine ⟨v, hcontains, fun v' => ⟨fun h' => h'.unique hlast, ?_⟩⟩
    rintro rfl
    exact hlast
  reads r n m t m' index next ref h hr hf href hc := h.reads hb hr hf href hc
  carried path t m o c loop id init test update body span q hv hs hq hgoes :=
    hv.hands_over hb hs hq hgoes

/-- Loop variables are fresh in each turn, in every run of a compiled program in which declarations stand
in blocks only. The bound lets the positions of all locals fit into cells. -/
theorem freshVariables_run {chunk : Chunk Constant} (hcompile : program.compile options = .ok chunk)
    (htidy : program.isTidy = true) (hroom : maxFrames * (program.size + 1) ≤ 2 ^ 32)
    (hh : host.Harmless) (store : Store) (natives : List Native) :
    FreshVariables program options host
      (start (chunk.load store).2 natives (chunk.load store).1) := by
  obtain ⟨S, hb⟩ := exists_begun hcompile htidy hroom hh store natives
  exact hb.freshVariables

end Machine

/-- A program with a closure that captures the variable of a turn. The turn changes its variable and goes
on with the next one, and the closure is called behind the loop. -/
def collector : Program :=
  ⟨[.function ⟨"main", {}⟩ [] [
    .variable ⟨"tell", {}⟩ (.literal .nil {}) {},
    .for ⟨"i", {}⟩ (.literal (.int 0) {})
      (some (.binary .less (.name ⟨"i", {}⟩ {}) (.literal (.int 3) {}) {}))
      (some (.assign (.name ⟨"i", {}⟩ {})
        (.binary (.arithmetic .add) (.name ⟨"i", {}⟩ {}) (.literal (.int 1) {}) {}) {}))
      (.block [.cond (.binary .equal (.name ⟨"i", {}⟩ {}) (.literal (.int 0) {}) {})
        (.block [
          .expression (.assign (.name ⟨"tell", {}⟩ {}) (.arrow [] (.name ⟨"i", {}⟩ {}) {}) {}) {},
          .expression (.assign (.name ⟨"i", {}⟩ {}) (.literal (.int 1) {}) {}) {},
          .exit .continue {}] {}) none {}] {}) {},
    .return (some (.call (.name ⟨"tell", {}⟩ {}) [] {})) {}] {}]⟩

theorem Machine.freshVariables_run_collector : ∃ chunk, collector.compile {} = .ok chunk ∧
    collector.isTidy = true ∧ maxFrames * (collector.size + 1) ≤ 2 ^ 32 ∧
    ({} : Services).host.Harmless ∧ FreshVariables collector {} ({} : Services).host
      (start (chunk.load {}).2 [] (chunk.load {}).1) := by
  obtain ⟨chunk, h⟩ := collector.exists_chunk {} (by cbv)
  have hroom : maxFrames * (collector.size + 1) ≤ 2 ^ 32 := by decide
  have hh := Services.harmless_host {}
  exact ⟨chunk, h, rfl, hroom, hh, freshVariables_run h rfl hroom hh {} []⟩

end StackScript
