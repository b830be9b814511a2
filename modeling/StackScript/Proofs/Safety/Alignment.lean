import StackScript.Proofs.Safety.Carrying

/-!
# Where variables are

A call has as many locals as are in sight where it is, so that no instruction looks for a local that
is not there. Globals come into being in the order of their slots, the host functions first. But the
compiler counts host functions of one name once, and so each name that is repeated moves the globals
of a program away from their slots by one.
-/

namespace StackScript

open Lowering

/-- How many host functions have a name that one before them has. -/
def Options.repeated (options : Options) : Nat :=
  options.natives.length - (Globals.ofNatives options.natives).entries.length

theorem Globals.length_entries_foldl_le (names : List String) (g : Globals) :
    (names.foldl (fun g name => g.declare name true) g).entries.length ≤
      g.entries.length + names.length := by
  induction names generalizing g with
  | nil => exact Nat.le_refl _
  | cons name names ih =>
    refine Nat.le_trans (ih (g.declare name true)) ?_
    rw [List.length_cons, ← Nat.succ_add_eq_add_succ]
    refine Nat.add_le_add_right ?_ _
    by_cases h : name ∈ g.names
    · rw [Globals.declare_of_mem h]
      exact Nat.le_succ _
    · rw [Globals.declare_of_not_mem h, List.length_append]
      exact Nat.le_refl _

theorem Options.repeated_add (options : Options) :
    options.repeated + (Globals.ofNatives options.natives).entries.length = options.natives.length := by
  refine Nat.sub_add_cancel ?_
  have := Globals.length_entries_foldl_le options.natives {}
  rwa [List.length_nil, Nat.zero_add] at this

theorem Options.repeated_of_nodup {options : Options} (h : options.natives.Nodup) :
    options.repeated = 0 := by
  have hlength := congrArg List.length (names_ofNatives h)
  rw [Globals.names, List.length_map] at hlength
  have := options.repeated_add
  omega

theorem Program.slot?_native {program : Program} {options : Options} {chunk : Chunk Constant}
    (h : program.compile options = .ok chunk) (ht : program.isTidy = true)
    (hn : options.natives.Nodup) {name : String} {i : Nat} (hi : options.natives[i]? = some name) :
    (hoist options program).slot? name = some i := by
  obtain ⟨hnames, hnodup⟩ := names_hoist h ht hn
  rw [Globals.slot?_eq_findIdx?, hnames]
  have hi' : (options.natives ++ Stmt.declaredNames program.body)[i]? = some name := by
    rw [List.getElem?_append_left (List.getElem?_eq_some_iff.1 hi).1, hi]
  obtain ⟨hlt, rfl⟩ := List.getElem?_eq_some_iff.1 hi'
  refine List.findIdx?_eq_some_iff_getElem.2 ⟨hlt, by simp, fun j hj he => ?_⟩
  exact Nat.ne_of_lt hj (hnodup.getElem_inj_iff.1 (by simpa using he))

theorem Stmt.mem_declaredNames_of_definitions {strip : Bool} {ss : List Stmt} {o : Nat} {c : Context}
    {d : Ident × Nat} (hd : d ∈ Stmt.definitions strip o c ss) : d.1.name ∈ Stmt.declaredNames ss := by
  induction ss generalizing o c with
  | nil => cases hd
  | cons s ss ih =>
    rcases List.mem_append.1 hd with hd | hd
    · obtain ⟨id, hid, rfl⟩ := Option.map_eq_some_iff.1 (Option.mem_toList.1 hd)
      exact Stmt.mem_declaredNames_head hid ss
    · exact Stmt.mem_declaredNames_tail s (ih hd)

namespace Machine

variable {S : Script} {base : Store} {natives n : Nat} {m m' : Machine} {host : Host}

/-! ## Variables that are not there -/

theorem Live.captured {ref : CellRef} (h : Live S base natives m) (hbelow : m.Below false)
    (href : ref ∈ m.frame.closure.captures) (v : Value) (next : Nat) :
    (∃ w, m.denoted ref = some w) ∧ ∃ m', writeCell ref v (m.movedTo next) = .ok () m' := by
  -- as long as its cell is open, the variable is a local that is there
  have hlocal (hopen : (m.store.cell ref).closed = none) :
      (m.store.cell ref).slot.toNat < m.locals.size := by
    have hyoung := h.counts.kept.frames m.frame (List.mem_cons_self ..) ref href
    have hlt := h.counts.captures m.frame (List.mem_cons_self ..) ref href
    exact hbelow ref (h.counts.tracks.listed ref hyoung hlt hopen)
  unfold denoted
  cases hc : (m.store.cell ref).closed with
  | some w => exact ⟨⟨w, rfl⟩, _, writeCell_of_closed (m := m.movedTo next) hc⟩
  | none =>
    exact ⟨⟨_, Array.getElem?_eq_getElem (hlocal hc)⟩, _,
      (writeCell_of_open (m := m.movedTo next) hc).trans (setLocal_of_lt (hlocal hc))⟩

/-- No instruction misses a local. -/
theorem Live.ne_invalidLocal (h : Live S base natives m) (hh : host.Harmless) (slot : Nat) :
    step host m ≠ .error (.invalidLocal slot) m' := by
  intro hx
  obtain ⟨⟨op, args⟩, next, hf, hfails⟩ := (h.endures 1).step hh
  rw [hx] at hfails
  obtain ⟨s, size, k, hu⟩ := h.upcoming hf
  obtain ⟨p, u, hp, hdoes⟩ := hu.does
  rw [step_of_fetch hf] at hx
  -- if there were no value on the stack, or no cell, the fault would be another one
  cases op with
  | getLocal =>
    have hlt := h.slot_lt_size hf (.inl rfl)
    rw [← step_of_fetch hf, step_getLocal host hf (Array.getElem?_eq_getElem hlt)] at hx
    cases hx
  | setLocal =>
    have hlt := h.slot_lt_size hf (.inr rfl)
    have hslot : localSlot args (m.movedTo next) =
        .ok (m.frame.localsBase + args.toNat) (m.movedTo next) := rfl
    rcases peek_cases (m.movedTo next) with ⟨v, -, hpeek⟩ | hpeek
    · have hset := setLocal_of_lt (m := m.movedTo next) (v := v) hlt
      cases ((bind_ok hpeek).trans ((bind_ok hslot).trans (bind_ok hset))).symm.trans hx
    · cases (bind_error hpeek).symm.trans hx
  | getUpvalue =>
    rcases capturedCell_cases args (m.movedTo next) with ⟨ref, href, -⟩ | hcell
    · obtain ⟨rfl, -⟩ := hdoes
      obtain ⟨⟨w, hw⟩, -⟩ := h.captured hp (List.mem_of_getElem? href) .nil next
      rw [← step_of_fetch hf, step_getUpvalue hf href hw] at hx
      cases hx
    · cases (bind_error hcell).symm.trans hx
  | setUpvalue =>
    rcases capturedCell_cases args (m.movedTo next) with ⟨ref, href, hcell⟩ | hcell
    · rcases peek_cases (m.movedTo next) with ⟨v, -, hpeek⟩ | hpeek
      · obtain ⟨rfl, -⟩ := hdoes
        obtain ⟨-, m₁, hw⟩ := h.captured hp (List.mem_of_getElem? href) v next
        cases ((bind_ok hcell).trans ((bind_ok hpeek).trans (bind_ok hw))).symm.trans hx
      · cases ((bind_ok hcell).trans (bind_error hpeek)).symm.trans hx
    · cases (bind_error hcell).symm.trans hx
  | _ => cases hfails

/-- No instruction drops a local that is not there. -/
theorem Live.ne_stackUnderflow (h : Live S base natives m) (hh : host.Harmless) :
    step host m ≠ .error .stackUnderflow m' := by
  intro hx
  obtain ⟨i, next, hf, hfails⟩ := (h.endures 1).step hh
  rw [hx] at hfails
  obtain ⟨m₁, hdrops, -⟩ := h.step_drops host hf hfails
  rw [hdrops] at hx
  cases hx

theorem Live.undefinedGlobal {slot : UInt32} (h : Live S base natives m) (hh : host.Harmless)
    (hx : step host m = .error (.undefinedGlobal slot) m') :
    m.globals.size ≤ slot.toNat ∧ slot.toNat < S.limits.globals := by
  obtain ⟨⟨op, args⟩, next, hf, hfails⟩ := (h.endures 1).step hh
  rw [hx] at hfails
  obtain ⟨s, size, k, hu⟩ := h.upcoming hf
  obtain ⟨p, u, -, hdoes⟩ := hu.does
  rw [step_of_fetch hf] at hx
  cases op with
  | getGlobal =>
    rcases getGlobal_cases args (m.movedTo next) with ⟨v, -, hget⟩ | ⟨hle, hget⟩
    · cases (bind_ok hget).symm.trans hx
    · cases (bind_error hget).symm.trans hx
      exact ⟨hle, hdoes.2.1⟩
  | setGlobal =>
    rcases peek_cases (m.movedTo next) with ⟨v, -, hpeek⟩ | hpeek
    · by_cases hlt : args.toNat < m.globals.size
      · cases ((bind_ok hpeek).trans (bind_ok (if_pos hlt))).symm.trans hx
      · cases ((bind_ok hpeek).trans (bind_error (if_neg hlt))).symm.trans hx
        exact ⟨Nat.not_lt.1 hlt, hdoes.2.1⟩
    · cases (bind_error hpeek).symm.trans hx
  | _ => cases hfails

/-- A run fails at its last step. -/
theorem exists_step_of_failed {f : Fault} (h : run host n m = (.failed f, m')) :
    ∃ k m₁, run host k m = (.unfinished, m₁) ∧ step host m₁ = .error f m' := by
  induction n generalizing m with
  | zero => cases h
  | succ n ih =>
    cases hx : step host m with
    | error e m₁ =>
      rw [run, hx] at h
      cases h
      exact ⟨0, m, rfl, hx⟩
    | ok status m₁ =>
      cases status with
      | running =>
        rw [run_succ hx] at h
        obtain ⟨k, m₂, hk, hs⟩ := ih h
        exact ⟨k + 1, m₂, (run_succ hx).trans hk, hs⟩
      | finished =>
        rw [run, hx] at h
        cases h

/-! ## Globals -/

theorem Live.changesGlobals {i : Instruction} {next : Nat} (h : Live S base natives m)
    (hh : host.Harmless) (hf : fetch m.chunk m.frame.ip = .ok (i, next))
    (hx : step host m = .ok .running m') : ChangesGlobals i m m' := by
  rcases (h.frames_step hf (h.effect hh hf hx)).2 with hstays | hcalls | hreturns
  · exact hstays.globals
  · exact .inl hcalls.globals
  · exact .inl hreturns.globals

/-- No global goes away. -/
theorem Live.globals_le (h : Live S base natives m) (hh : host.Harmless)
    (hr : run host n m = (.unfinished, m')) : m.globals.size ≤ m'.globals.size := by
  induction n generalizing m' with
  | zero =>
    cases hr
    exact Nat.le_refl _
  | succ n ih =>
    obtain ⟨m₁, hm₁, hs⟩ := run_succ_iff.1 hr
    refine Nat.le_trans (ih hm₁) ?_
    have h₁ := h.afterRun hh hm₁
    obtain ⟨i, next, hf⟩ := h₁.exists_fetch
    rcases h₁.changesGlobals hh hf hs with he | ⟨-, v, -, he⟩ | ⟨slot, v, -, -, he⟩
    · rw [he]
    · rw [he, Array.size_push]
      exact Nat.le_succ _
    · rw [he, Array.size_setIfInBounds]

/-! ## Whole runs -/

section

variable (program : Program) (options : Options) (host : Host) (m₀ : Machine)

/-- The locals of a run are those in sight. -/
structure AlignsLocals : Prop where
  /-- Whatever is executed is the innermost function of a path. -/
  executes : ∀ n m, run host n m₀ = (.unfinished, m) →
    ∃ path steps, Executes program options host m₀ n m path steps
  /-- A call has as many locals as are in sight where it is. -/
  height : ∀ n m path steps, Executes program options host m₀ n m path steps →
    ∀ spot ∈ (program.innermost options path).spots options.strip, m.frame.ip = spot.offset →
    m.locals.size = m.frame.localsBase + (spot.tally none).locals
  /-- No instruction looks for a local that is not there, or drops one. -/
  present : ∀ n f m, run host n m₀ = (.failed f, m) →
    (∀ slot, f ≠ .invalidLocal slot) ∧ f ≠ .stackUnderflow

/-- The globals of a run are in their slots, but for the host functions that are there again. -/
structure AlignsGlobals (natives : List Native) : Prop where
  /-- If the host functions have distinct names, none is repeated, and they are in the slots of their
  names. -/
  distinct : options.natives.Nodup → options.repeated = 0 ∧
    ∀ (i : Nat) native, natives[i]? = some native →
      (hoist options program).slot? native.name = some i ∧ m₀.globals[i]? = some (.native native)
  /-- A declaration at the top level defines the global in the slot of its name. -/
  definition : ∀ n m, run host n m₀ = (.unfinished, m) → m.callers = [] →
    ∀ d ∈ program.definitions options, m.frame.ip = d.2 →
    fetch m.chunk m.frame.ip = .ok (⟨.defGlobal, ()⟩, d.2 + 1) ∧
      ∃ slot, (hoist options program).slot? d.1.name = some slot ∧
        m.globals.size = slot + options.repeated
  /-- Afterwards a global changes only if it is assigned to. -/
  changes : ∀ n m m' i next, run host n m₀ = (.unfinished, m) → step host m = .ok .running m' →
    fetch m.chunk m.frame.ip = .ok (i, next) → ∀ j < m.globals.size,
    m'.globals[j]? = m.globals[j]? ∨ ∃ slot, i = ⟨.setGlobal, slot⟩ ∧ slot.toNat = j ∧
      m'.globals[j]? = m.stack.head?
  /-- When the function that the program starts with is about to be called, all globals are defined. -/
  entry : ∀ n m, run host n m₀ = (.unfinished, m) → m.callers = [] →
    m.frame.ip = program.callOffset options →
    (∃ slot next, (hoist options program).slot? options.entry = some slot ∧
      fetch m.chunk m.frame.ip = .ok (⟨.getGlobal, slot.toUInt32⟩, next)) ∧
    m.globals.size = (hoist options program).entries.length + options.repeated ∧
    ∀ k f m', run host k m = (.failed f, m') → ∀ slot, f ≠ .undefinedGlobal slot

end

variable {program : Program} {options : Options} {chunk : Chunk Constant} {m₀ : Machine}

theorem Begun.alignsLocals (hb : Begun program options S base natives host m₀) :
    AlignsLocals program options host m₀ where
  executes _ _ hr := hb.executes hr
  height n m path steps he spot hs hip := (he.made.align hb he.run he.outermost hs hip).1
  present n f m hr := by
    obtain ⟨k, m₁, hk, hx⟩ := exists_step_of_failed hr
    have h₁ := hb.live.afterRun hb.harmless hk
    constructor
    · rintro slot rfl
      exact h₁.ne_invalidLocal hb.harmless slot hx
    · rintro rfl
      exact h₁.ne_stackUnderflow hb.harmless hx

/-- What a table says of the outermost call. -/
theorem Live.outermost {T : Nat → Tally → Prop} (h : Live S base natives m) (hc : m.callers = [])
    (hT : S.function.chunk.code.Table (Tally.moves S.limits) T) (h0 : T 0 ⟨0, false, some S.first⟩) :
    m.chunk = S.function.chunk ∧ ∃ size p defined, T m.frame.ip ⟨size, p, some defined⟩ ∧
      m.globals.size + S.first = defined + natives := by
  obtain ⟨defined, hlevels, hglobals⟩ := h.counts.levels
  rw [hc] at hlevels
  generalize m.locals.size = top at hlevels
  cases hlevels with
  | program hclosure hbase hlevel =>
    have hcode : m.frame.closure.function = S.function := by rw [hclosure]
    obtain ⟨p, -, hmark⟩ := hlevel.marked T (by rwa [hcode]) h0
    exact ⟨congrArg Function.chunk hcode, top, p, defined, hmark, hglobals⟩

theorem Live.changes {i : Instruction} {next j : Nat} (h : Live S base natives m) (hh : host.Harmless)
    (hx : step host m = .ok .running m') (hf : fetch m.chunk m.frame.ip = .ok (i, next))
    (hj : j < m.globals.size) : m'.globals[j]? = m.globals[j]? ∨
      ∃ slot, i = ⟨.setGlobal, slot⟩ ∧ slot.toNat = j ∧ m'.globals[j]? = m.stack.head? := by
  rcases h.changesGlobals hh hf hx with he | ⟨-, v, -, he⟩ | ⟨slot, v, hi, hv, he⟩
  · exact .inl (by rw [he])
  · exact .inl (by rw [he, Array.getElem?_push_lt hj, Array.getElem?_eq_getElem hj])
  · by_cases hslot : slot.toNat = j
    · refine .inr ⟨slot, hi, hslot, ?_⟩
      rw [he, hslot, hv, Array.getElem?_setIfInBounds_self_of_lt hj]
    · exact .inl (by rw [he, Array.getElem?_setIfInBounds_ne hslot])

theorem alignsLocals_run (hcompile : program.compile options = .ok chunk)
    (htidy : program.isTidy = true) (hroom : maxFrames * (program.size + 1) ≤ 2 ^ 32)
    (hh : host.Harmless) (store : Store) (natives : List Native) :
    AlignsLocals program options host (start (chunk.load store).2 natives (chunk.load store).1) := by
  obtain ⟨S, hb⟩ := exists_begun hcompile htidy hroom hh store natives
  exact hb.alignsLocals

theorem alignsLocals_run_relay : ∃ chunk, relay.compile {} = .ok chunk ∧
    relay.isTidy = true ∧ maxFrames * (relay.size + 1) ≤ 2 ^ 32 ∧ ({} : Services).host.Harmless ∧
    AlignsLocals relay {} ({} : Services).host (start (chunk.load {}).2 [] (chunk.load {}).1) := by
  obtain ⟨chunk, h⟩ := relay.exists_chunk {} (by cbv)
  have hroom : maxFrames * (relay.size + 1) ≤ 2 ^ 32 := by decide
  have hh := Services.harmless_host {}
  exact ⟨chunk, h, rfl, hroom, hh, alignsLocals_run h rfl hroom hh {} []⟩

theorem alignsGlobals_run (hcompile : program.compile options = .ok chunk)
    (htidy : program.isTidy = true) (hroom : maxFrames * (program.size + 1) ≤ 2 ^ 32)
    (hh : host.Harmless) (store : Store) (natives : List Native)
    (hnames : natives.map Native.name = options.natives) :
    AlignsGlobals program options host (start (chunk.load store).2 natives (chunk.load store).1)
      natives := by
  obtain ⟨S, T, hcensus, hlimit, hfunction, hfirst⟩ :=
    Program.exists_script hcompile htidy hroom store
  have hlive := live_start (S := S) hcompile hroom store natives hfunction
  have hcode : S.function.chunk.code = chunk.code := by
    rw [hfunction]
    exact (chunk.loads_load store).code
  have hlength : natives.length = options.natives.length := by
    rw [← hnames, List.length_map]
  have hrepeated := options.repeated_add
  have htable : S.function.chunk.code.Table (Tally.moves S.limits) T := hcode ▸ hcensus.table
  have hstart : T 0 ⟨0, false, some S.first⟩ := hfirst ▸ hcensus.start
  refine ⟨fun hnodup => ⟨Options.repeated_of_nodup hnodup, fun i native hi => ⟨?_, ?_⟩⟩, ?_, ?_, ?_⟩
  · refine Program.slot?_native hcompile htidy hnodup ?_
    rw [← hnames, List.getElem?_map, hi]
    rfl
  · simp [start, hi]
  · intro n m hr hc d hd hip
    have hm := hlive.afterRun hh hr
    obtain ⟨hchunk, size, p, defined, hmark, hglobals⟩ := hm.outermost hc htable hstart
    obtain ⟨hall, -⟩ := names_hoist_eq hcompile htidy
    obtain ⟨slot, hslot⟩ : ∃ slot, (hoist options program).slot? d.1.name = some slot :=
      Globals.slot?_isSome_iff.2 (by
        rw [hall]
        exact List.mem_append_right _ (Stmt.mem_declaredNames_of_definitions hd))
    rw [hip] at hmark ⊢
    have hdefined : defined = slot := by
      cases hcensus.definitions d hd slot hslot _ hmark
      rfl
    refine ⟨hcensus.defines d hd _ (by rw [hchunk, hcode]), slot, hslot, ?_⟩
    omega
  · intro n m m' i next hr hx hf j hj
    exact (hlive.afterRun hh hr).changes hh hx hf hj
  · intro n m hr hc hip
    have hm := hlive.afterRun hh hr
    obtain ⟨hchunk, size, p, defined, hmark, hglobals⟩ := hm.outermost hc htable hstart
    obtain ⟨slot, hslot, hfetch⟩ := hcensus.entry
    obtain ⟨next, hfetch⟩ := hfetch m.chunk (by rw [hchunk, hcode])
    rw [hip] at hmark ⊢
    have hdefined : defined = S.limits.globals := by
      cases hcensus.call _ hmark
      rfl
    refine ⟨⟨slot, next, hslot, hfetch⟩, by omega, ?_⟩
    rintro k f m' hfailed slot' rfl
    obtain ⟨k', m₁, hk', hx⟩ := exists_step_of_failed hfailed
    have hle := hm.globals_le hh hk'
    obtain ⟨hmissing, hlt⟩ := (hm.afterRun hh hk').undefinedGlobal hh hx
    omega

/-- A host function that is there twice. -/
def twice : Options := { natives := ["print", "print"] }

theorem alignsGlobals_run_twice : ∃ chunk, relay.compile twice = .ok chunk ∧
    relay.isTidy = true ∧ maxFrames * (relay.size + 1) ≤ 2 ^ 32 ∧ ({} : Services).host.Harmless ∧
    twice.repeated = 1 ∧ AlignsGlobals relay twice ({} : Services).host
      (start (chunk.load {}).2 [⟨0, "print", 1⟩, ⟨1, "print", 1⟩] (chunk.load {}).1)
      [⟨0, "print", 1⟩, ⟨1, "print", 1⟩] := by
  obtain ⟨chunk, h⟩ := relay.exists_chunk twice (by cbv)
  have hroom : maxFrames * (relay.size + 1) ≤ 2 ^ 32 := by decide
  have hh := Services.harmless_host {}
  exact ⟨chunk, h, rfl, hroom, hh, rfl, alignsGlobals_run h rfl hroom hh {} _ rfl⟩

end Machine

end StackScript
