import StackScript.Proofs.Lowering.Enclosure
import StackScript.Proofs.Safety.Captures

/-!
# Where closures come from

Every closure of a run has been made at a place of the program, by a call of the function around,
which has been made at a place of its own, and so on up to the program. On this path, a variable
that the compiler has found in a function around is a local of the very call of that function which
made the next closure.
-/

namespace StackScript

open Lowering Fragment

/-! ## Parts at run time -/

/-- The function is what has become of a part: it has its code, with some more behind, and its constants.
Whenever control is at a spot, there are as many locals as are in sight. -/
structure Part.Loaded (limits : Limits) (strip : Bool) (p : Part) (first : Tally) (g : Function Value)
    (more : Fragment) (T : Nat → Tally → Prop) : Prop where
  inert : more.Inert
  placed : Placed g.chunk.code 0 ((p.lower strip).1 ++ more)
  size : g.chunk.code.size = ((p.lower strip).1 ++ more).size
  constants : LoadsAll (p.lower strip).2.frame.constants g.chunk.constants
  table : g.chunk.code.Table (Tally.moves limits) T
  start : T 0 first
  spots : ∀ spot ∈ p.spots strip, ∃ k, spot.Holds limits strip k g.chunk.code T
  begins : ∀ o s, T o s → ((p.lower strip).1 ++ more).Begins o
  inner : ∀ spot ∈ p.spots strip, spot.Sound limits strip

theorem size_code_toChunk {α : Type} (f : Fragment) (name : Option String) (constants : List α) :
    (f.toChunk name constants).code.size = f.size := by
  rw [← length_bytes, ← code_toChunk f name constants, Array.length_toList]

section

variable {limits : Limits} {strip : Bool} {p : Part} {first : Tally} {g : Function Value}
  {more : Fragment} {T : Nat → Tally → Prop} {s : Making}

theorem Part.Loaded.fetch (h : p.Loaded limits strip first g more T) (hp : p.Good strip)
    (hs : s.spot ∈ p.spots strip) : ∃ index next f, Machine.fetch g.chunk s.offset =
        .ok (⟨.pushClosure, (index, s.part.captures strip)⟩, next) ∧
      g.chunk.constants[index.toNat]? = some (.function f) ∧
      (s.routine.compiled strip s.context).Loads f.body := by
  obtain ⟨index, hcode, hconstant⟩ := hp.instruction hs
  obtain ⟨v, hv, hloads⟩ := h.constants.get hconstant
  obtain ⟨key, f, rfl, hf⟩ := hloads.of_function
  have hplaced : Placed g.chunk.code s.offset ((s.routine.lower strip s.context).1) :=
    (hp.traversed.stands g.chunk.code nofun h.placed.left s.spot hs).placed
  rw [hcode] at hplaced
  exact ⟨index, _, ⟨key, f⟩, hplaced.fetch (i := ⟨.pushClosure, (index, s.part.captures strip)⟩)
    (hp.making hs).length_captures, hv, hf⟩

/-- Closures are made nowhere else. -/
theorem Part.Loaded.exists_making (h : p.Loaded limits strip first g more T) (hp : p.Good strip)
    {o next : Nat} {t : Tally} {args : UInt32 × List Capture} (ht : T o t)
    (hf : Machine.fetch g.chunk o = .ok (⟨.pushClosure, args⟩, next)) :
    ∃ s : Making, s.spot ∈ p.spots strip ∧ s.offset = o := by
  obtain ⟨f₁, q, f₂, hcode, rfl⟩ := h.begins o t ht
  have hplaced := h.placed
  rw [hcode] at hplaced
  have hclosures : ((p.lower strip).1 ++ more).closures 0 = (p.lower strip).1.closures 0 := by
    rw [closures_append, h.inert.closures, List.append_nil]
  have hright (x : Nat × UInt32 × List Capture) (hx : x ∈ closures (0 + f₁.size) (q :: f₂)) :
      x ∈ (p.lower strip).1.closures 0 := by
    rw [← hclosures, hcode, closures_append]
    exact List.mem_append_right _ hx
  have hsize : 0 < Fragment.size (q :: f₂) := by
    have hlt : f₁.size < g.chunk.code.size := by
      refine Nat.lt_of_not_le fun hle => ?_
      have hnone : g.chunk.code[f₁.size]? = none := Array.getElem?_eq_none hle
      rw [Machine.fetch, hnone] at hf
      cases hf
    rw [h.size, hcode, size_append] at hlt
    omega
  rw [← Nat.zero_add f₁.size] at hf
  have hmem := mem_closures_of_fetch hplaced.right hsize (fun x hx => ?_) hf
  · obtain ⟨s, hs, ho, -⟩ := hp.exists_making (hright _ hmem)
    exact ⟨s, hs, by rw [ho, Nat.zero_add]⟩
  · obtain ⟨s, hs, -, hargs⟩ := hp.exists_making (hright x hx)
    rw [hargs]
    exact (hp.making hs).length_captures

theorem Part.Loaded.making (h : p.Loaded limits strip first g more T) (hp : p.Good strip)
    (hs : s.spot ∈ p.spots strip) {f : Function Value}
    (hf : (s.routine.compiled strip s.context).Loads f) :
    ∃ more T, s.part.Loaded limits strip f.firstTally f more T := by
  have hmeasured := (h.inner s.spot hs).closure s.routine s.before s.after rfl
  obtain ⟨hfar, -⟩ := Making.lower_eq ((hp.spans hs).clean hp)
  have hfirst : f.firstTally = (s.routine.compiled strip s.context).firstTally := by
    rw [Function.firstTally, hf.arity, Function.firstTally]
  obtain ⟨more, hmore, hcode⟩ : ∃ more, Inert more ∧
      s.routine.code strip s.context = (s.part.lower strip).1 ++ more := by
    show ∃ more, Inert more ∧ returning (s.part.lower strip).1 s.routine.span = _
    unfold returning
    split
    · exact ⟨[], inert_nil, (List.append_nil _).symm⟩
    · exact ⟨_, inert_emit rfl _, rfl⟩
  have hcompiled : (s.routine.compiled strip s.context).chunk =
      ((s.part.lower strip).1 ++ more).toChunk (some s.routine.name)
        (s.part.lower strip).2.frame.constants := by
    rw [← hcode]
    rfl
  cases hmeasured with
  | @mk _ _ T hT hstart hspots hbegins hinner hfits =>
    refine ⟨more, T, hmore, ?_, ?_, ?_, ?_, ?_, ?_, ?_, ?_⟩
    · rw [hf.code, hcompiled]
      refine placed_toChunk ?_ _ _
      rw [← hcode]
      exact hfar
    · rw [hf.code, hcompiled, size_code_toChunk]
    · have := hf.constants
      rwa [hcompiled, constants_toChunk] at this
    · rwa [hf.code]
    · rwa [hfirst]
    · rw [hf.code]
      exact fun spot hmem => ⟨none, hspots spot hmem⟩
    · rw [← hcode]
      exact hbegins
    · exact fun spot hmem => ⟨hinner spot hmem, hfits spot hmem⟩

end

theorem Program.loaded_part {program : Program} {options : Options} {chunk : Chunk Constant}
    {limits : Limits} {T : Nat → Tally → Prop} (h : program.compile options = .ok chunk)
    (hc : program.Census options limits chunk T) (store : Store) :
    ∃ more, (program.part options).Loaded limits options.strip
      ⟨0, false, some (Globals.ofNatives options.natives).entries.length⟩ ⟨0, (chunk.load store).1⟩ more T := by
  obtain ⟨slot, -, hslot, hfar, rfl⟩ := compile_eq_ok h
  set r := (program.part options).lower options.strip
  have hcode : program.code options = r.1 ++ startCode slot.toUInt32 := by
    show r.1 ++ startCode ((r.2.globals.slot? options.entry).getD 0).toUInt32 = _
    rw [show r.2.globals.slot? options.entry = some slot from hslot, Option.getD_some]
  have hinert : (startCode slot.toUInt32).Inert :=
    (((inert_emit rfl _).append (inert_emit rfl _)).append (inert_emit rfl _)).append (inert_emit rfl _)
  have hloads := Chunk.loads_load ((r.1 ++ startCode slot.toUInt32).toChunk none r.2.frame.constants) store
  refine ⟨startCode slot.toUInt32, hinert, ?_, ?_, ?_, ?_, hc.start, ?_, ?_, hc.inner⟩
  · exact hloads.code ▸ placed_toChunk hfar none r.2.frame.constants
  · exact hloads.code ▸ size_code_toChunk _ none r.2.frame.constants
  · have := hloads.constants
    rwa [constants_toChunk] at this
  · exact hloads.code ▸ hc.table
  · exact hloads.code ▸ hc.spots
  · rw [← hcode]
    exact hc.begins

namespace Machine

/-! ## The path of a closure -/

/-- A closure is made, with its captures. -/
def MakesCode (host : Host) (m : Machine) (captures : List Capture) (code : Value.Code) : Prop :=
  ∃ index next m' key,
    fetch m.frame.closure.function.chunk m.frame.ip = .ok (⟨.pushClosure, (index, captures)⟩, next) ∧
    step host m = .ok .running m' ∧ m'.stack = .closure ⟨key, code⟩ :: m.stack

section

variable (program : Program) (options : Options) (host : Host) (m₀ : Machine)

/-- The closure has been made before a step of the run: it is the one of the program, or it has been made
at the first place of the path and the first of the given steps, while a closure was executed that has been
made at the rest of them. The program is the outermost call. -/
inductive Made : Nat → Value.Code → List Making → List Nat → Prop
  | program {n : Nat} : Made n m₀.frame.closure [] []
  | closure {n t : Nat} {m : Machine} {s : Making} {path : List Making} {steps : List Nat}
      {captures : List Capture} {code : Value.Code} : t < n → run host t m₀ = (.unfinished, m) →
      Made t m.frame.closure path steps → (m.callers = [] ↔ path = []) →
      s.spot ∈ (program.innermost options path).spots options.strip → m.frame.ip = s.offset →
      m.MakesCode host captures code → Made n code (s :: path) (t :: steps)

/-- At a step of the run a closure is executed that has been made along the path, at the given steps. -/
structure Executes (n : Nat) (m : Machine) (path : List Making) (steps : List Nat) : Prop where
  run : run host n m₀ = (.unfinished, m)
  made : Made program options host m₀ n m.frame.closure path steps
  outermost : m.callers = [] ↔ path = []

end

variable {program : Program} {options : Options} {host : Host} {m₀ m m' : Machine} {n n' : Nat}
  {code : Value.Code} {path : List Making} {steps : List Nat} {S : Script} {base : Store} {natives : Nat}

theorem Made.mono (h : Made program options host m₀ n code path steps) (hn : n ≤ n') :
    Made program options host m₀ n' code path steps := by
  cases h with
  | program => exact .program
  | closure ht hr hm ho hs hip hc => exact .closure (Nat.lt_of_lt_of_le ht hn) hr hm ho hs hip hc

theorem Made.isPath (h : Made program options host m₀ n code path steps) :
    program.Path options path := by
  induction h with
  | program => exact .nil
  | closure _ _ _ _ hs _ _ ih => exact .cons ih hs

/-- The tally at the beginning of a closure of the path. -/
def firstTally (S : Script) (code : Value.Code) : List Making → Tally
  | [] => ⟨0, false, some S.first⟩
  | _ :: _ => code.function.firstTally

/-- What is known of a run from its beginning on. -/
structure Begun (program : Program) (options : Options) (S : Script) (base : Store) (natives : Nat)
    (host : Host) (m₀ : Machine) : Prop where
  good : (program.part options).Good options.strip
  loaded : ∃ more T, (program.part options).Loaded S.limits options.strip
    ⟨0, false, some S.first⟩ S.function more T
  closure : m₀.frame.closure = ⟨S.function, []⟩
  callers : m₀.callers = []
  ip : m₀.frame.ip = 0
  cells : m₀.store.cells.size = base.cells.size
  kept : ∀ Q, m₀.Kept Q base
  live : Live S base natives m₀
  harmless : host.Harmless

variable (hb : Begun program options S base natives host m₀)

include hb

theorem Made.loaded (h : Made program options host m₀ n code path steps) :
    ∃ more T, (program.innermost options path).Loaded S.limits options.strip
      (firstTally S code path) code.function more T := by
  induction h with
  | program =>
    rw [hb.closure]
    exact hb.loaded
  | @closure n t m s path steps captures code ht hr hm ho hs hip hmakes ih =>
    obtain ⟨more, T, hloaded⟩ := ih
    have hgood := hm.isPath.good hb.good
    obtain ⟨index, next, f, hfetch, hconstant, hloads⟩ := hloaded.fetch hgood hs
    obtain ⟨index', next', m', key, hfetch', hx, hstack⟩ := hmakes
    rw [hip, hfetch] at hfetch'
    cases hfetch'
    have hlive := hb.live.afterRun hb.harmless hr
    obtain ⟨-, f', refs, m₁, key', hconstant', -, hstack', -⟩ :=
      hlive.effect hb.harmless (hip ▸ hfetch) hx
    obtain ⟨rfl⟩ : f = f' := by
      have := hconstant.symm.trans hconstant'
      simpa using this
    obtain rfl : code = ⟨f.body, refs⟩ := by
      have htop := hstack.symm.trans hstack'
      simp only [List.cons.injEq, Value.closure.injEq, Object.mk.injEq] at htop
      exact htop.1.2
    exact hloaded.making hgood hs hloads

theorem Made.captures_eq {s : Making} {captures : List Capture}
    (h : Made program options host m₀ n m.frame.closure path steps)
    (hs : s.spot ∈ (program.innermost options path).spots options.strip)
    (hip : m.frame.ip = s.offset) (hmakes : m.MakesCode host captures code) :
    captures = s.part.captures options.strip := by
  obtain ⟨more, T, hloaded⟩ := h.loaded hb
  obtain ⟨index, next, f, hfetch, -⟩ := hloaded.fetch (h.isPath.good hb.good) hs
  obtain ⟨index', next', m', key, hfetch', -⟩ := hmakes
  rw [hip, hfetch] at hfetch'
  cases hfetch'
  rfl

/-- A closure has captured what its function captures. -/
theorem Made.length_captures (h : Made program options host m₀ n code path steps) :
    ((program.innermost options path).captures options.strip).length = code.captures.length := by
  cases h with
  | program =>
    -- the program captures nothing
    have hstep := (evolves_body options.strip (.block program.body) {}).step _ hb.good.clean
    have hlinked : Linked _ _ := hstep.linked hb.good.linked
    rw [List.forall₂_nil_left_iff.1 hstep.enclosing] at hlinked
    have hnone : (program.innermost options []).captures options.strip = [] := hlinked
    rw [hnone, hb.closure]
    rfl
  | @closure _ t m s path steps captures _ ht hr hm houter hs hip hmakes =>
    obtain rfl := hm.captures_eq hb hs hip hmakes
    obtain ⟨index, next, m', key, hfetch, hstep, hstack⟩ := hmakes
    obtain ⟨_, -, -, hlength, -⟩ := (hb.live.afterRun hb.harmless hr).makesClosure hb.harmless
      ⟨index, next, m', key, code.function, hfetch, hstep, hstack⟩
    exact hlength

theorem Made.captured (h : Made program options host m₀ n code path steps) {i k slot : Nat} {x : Capture}
    (hx : ((program.innermost options path).captures options.strip)[i]? = some x)
    (ho : x.origin? (program.chain options path) = some (k, slot)) :
    ∃ ref t m s, code.captures[i]? = some ref ∧ steps[k]? = some t ∧ t < n ∧ path[k]? = some s ∧
      Executes program options host m₀ t m (path.drop (k + 1)) (steps.drop (k + 1)) ∧
      m.frame.ip = s.offset ∧ TakesLocal host m₀ t (m.frame.localsBase + slot) ref := by
  obtain ⟨ref, href⟩ : ∃ ref, code.captures[i]? = some ref :=
    ⟨_, List.getElem?_eq_getElem (h.length_captures hb ▸ (List.getElem?_eq_some_iff.1 hx).1)⟩
  induction h generalizing i k slot x ref with
  | program =>
    rw [hb.closure] at href
    cases href
  | @closure n t m s path steps captures code ht hr hm houter hs hip hmakes ih =>
    obtain rfl := hm.captures_eq hb hs hip hmakes
    obtain ⟨index, next, m', key, hfetch, hstep, hstack⟩ := hmakes
    obtain ⟨f, refs⟩ := code
    have hclosure : m.MakesClosure host (s.part.captures options.strip) refs :=
      ⟨index, next, m', key, f, hfetch, hstep, hstack⟩
    obtain ⟨_, -, -, -, htakes⟩ :=
      (hb.live.afterRun hb.harmless hr).makesClosure hb.harmless hclosure
    have hx : (s.part.captures options.strip)[i]? = some x := hx
    have hmem : (x, ref) ∈ (s.part.captures options.strip).zip refs :=
      List.mem_of_getElem? (List.getElem?_zip_eq_some.2 ⟨hx, href⟩)
    cases hl : x.fromLocal with
    | true =>
      rw [Capture.origin?_of_fromLocal hl] at ho
      cases ho
      exact ⟨ref, t, m, s, href, rfl, ht, rfl, ⟨hr, hm, houter⟩, hip,
        m, s.part.captures options.strip, refs, x, hr, hclosure, hmem, hl, rfl⟩
    | false =>
      have hpass := (htakes x ref hmem).2 hl
      have ho : (if x.fromLocal = true then some (0, x.index.toNat) else
          (((program.innermost options path).captures options.strip)[x.index.toNat]?).bind fun y =>
            (y.origin? (program.chain options path)).map fun p => (p.1 + 1, p.2)) = some (k, slot) := ho
      rw [if_neg (by rw [hl]; nofun)] at ho
      obtain ⟨y, hy, ho⟩ := Option.bind_eq_some_iff.1 ho
      obtain ⟨⟨j, slot'⟩, hj, he⟩ := Option.map_eq_some_iff.1 ho
      cases he
      obtain ⟨ref', t', m₁, s', href', hstep', ht', hrest⟩ := ih hy hj ref hpass
      obtain rfl : ref = ref' := Option.some.inj (hpass.symm.trans href')
      exact ⟨ref, t', m₁, s', href, hstep', Nat.lt_trans ht' ht, hrest⟩

/-! ## Running closures -/

theorem Begun.level (hr : run host n m₀ = (.unfinished, m)) (houter : m.callers = [] ↔ path = []) :
    ∃ size k, m.frame.localsBase + size = m.locals.size ∧
      Level S (firstTally S m.frame.closure path) m.Below size k m.frame := by
  obtain ⟨defined, hlevels, -⟩ := (hb.live.afterRun hb.harmless hr).counts.levels
  cases hc : m.callers with
  | nil =>
    obtain rfl := houter.1 hc
    rw [hc] at hlevels
    generalize htop : m.locals.size = top at hlevels
    cases hlevels with
    | program hclosure hbase hlevel => exact ⟨top, _, by rw [hbase, Nat.zero_add], hlevel⟩
  | cons caller callers =>
    rw [hc] at hlevels houter
    generalize htop : m.locals.size = top at hlevels
    cases hlevels with
    | @call _ size _ _ _ hknown hlevel htail =>
      refine ⟨size, none, rfl, ?_⟩
      cases path with
      | nil => cases houter.2 rfl
      | cons s path => exact hlevel

theorem Made.align (h : Made program options host m₀ n' m.frame.closure path steps)
    (hr : run host n m₀ = (.unfinished, m)) (houter : m.callers = [] ↔ path = []) {spot : Spot}
    (hs : spot ∈ (program.innermost options path).spots options.strip)
    (hip : m.frame.ip = spot.offset) :
    m.locals.size = m.frame.localsBase + (spot.tally none).locals ∧
      m.Below (spot.tally none).pending := by
  obtain ⟨size, k, hsize, hlevel⟩ := hb.level hr houter
  obtain ⟨more, T, hloaded⟩ := h.loaded hb
  obtain ⟨p, hp, hmark⟩ := hlevel.marked T hloaded.table hloaded.start
  obtain ⟨k', hk'⟩ := hloaded.spots spot hs
  rw [hip] at hmark
  have htally : spot.tally none = ⟨size, p, none⟩ := by
    have := hk'.tally_eq hmark
    obtain ⟨o, c, phrase⟩ := spot
    cases phrase <;> cases this <;> rfl
  rw [htally]
  exact ⟨hsize.symm, hp⟩

omit hb

/-- The closures of the active calls, the innermost first. -/
def closures (m : Machine) : List Value.Code := (m.frame :: m.callers).map Frame.closure

theorem Live.closures_step {Q : Value.Code → Prop} {i : Instruction} {next : Nat}
    (h : Live S base natives m) (hf : fetch m.chunk m.frame.ip = .ok (i, next))
    (he : Effect Q base (m.movedTo next) next i.op i.args .running m') :
    m'.Kept Q base ∧ (m'.closures = m.closures ∨ (∃ c, Q c ∧ m'.closures = c :: m.closures) ∨
      ∃ c, m.closures = c :: m'.closures) := by
  obtain ⟨hkept, hstays | hcalls | hreturns⟩ := h.frames_step hf he
  · obtain ⟨ip, -, hframe⟩ := hstays.frame
    refine ⟨hkept, .inl ?_⟩
    rw [closures, closures, hframe, hstays.callers]
    rfl
  · refine ⟨hkept, .inr (.inl ⟨_, hcalls.callee, ?_⟩)⟩
    rw [closures, closures, hcalls.callers]
    rfl
  · refine ⟨hkept, .inr (.inr ⟨m.frame.closure, ?_⟩)⟩
    rw [closures, closures, hreturns.callers]
    rfl

/-- All closures that there are at a step of a run have been made before. -/
structure Traced (program : Program) (options : Options) (host : Host) (base : Store) (m₀ : Machine)
    (n : Nat) (m : Machine) : Prop where
  kept : m.Kept (fun c => (∃ s path steps, Made program options host m₀ n c (s :: path) steps) ∧
    ∀ ref ∈ c.captures, base.cells.size ≤ ref.index) base
  calls : ∀ c ∈ m.closures.dropLast, ∃ s path steps, Made program options host m₀ n c (s :: path) steps

include hb

theorem Traced.exists_path (h : Traced program options host base m₀ n m)
    (hr : run host n m₀ = (.unfinished, m)) :
    ∃ path steps, Executes program options host m₀ n m path steps := by
  cases hc : m.callers with
  | nil =>
    obtain ⟨defined, hlevels, -⟩ := (hb.live.afterRun hb.harmless hr).counts.levels
    rw [hc] at hlevels
    generalize htop : m.locals.size = top at hlevels
    cases hlevels with
    | program hclosure =>
      refine ⟨[], [], hr, ?_, iff_of_true hc rfl⟩
      rw [hclosure, ← hb.closure]
      exact .program
  | cons caller callers =>
    obtain ⟨s, path, steps, hmade⟩ := h.calls m.frame.closure (by simp [closures, hc])
    exact ⟨s :: path, steps, hr, hmade, iff_of_false (by rw [hc]; nofun) nofun⟩

/-- A closure that is made has a path. -/
theorem Executes.makes {index : UInt32} {captures : List Capture} {next : Nat}
    {f : Object (Function Value)} {refs : List CellRef} {m₁ : Machine}
    (h : Executes program options host m₀ n m path steps)
    (hf : fetch m.chunk m.frame.ip = .ok (⟨.pushClosure, (index, captures)⟩, next))
    (hx : step host m = .ok .running m')
    (hconstant : m.chunk.constants[index.toNat]? = some (.function f))
    (hcells : captureCells 0 captures (m.movedTo next) = .ok refs m₁) :
    ∃ s steps', Made program options host m₀ (n + 1) ⟨f.body, refs⟩ (s :: path) steps' := by
  obtain ⟨size, k, -, hlevel⟩ := hb.level h.run h.outermost
  obtain ⟨more, T, hloaded⟩ := h.made.loaded hb
  obtain ⟨p, -, hmark⟩ := hlevel.marked T hloaded.table hloaded.start
  obtain ⟨s, hs, ho⟩ := hloaded.exists_making (h.made.isPath.good hb.good) hmark hf
  obtain ⟨-, f', refs', m₂, key, hconstant', hcells', hstack, -⟩ :=
    (hb.live.afterRun hb.harmless h.run).effect hb.harmless hf hx
  obtain rfl : f = f' := by simpa using hconstant.symm.trans hconstant'
  obtain ⟨rfl, -⟩ : refs = refs' ∧ m₁ = m₂ := by simpa using hcells.symm.trans hcells'
  exact ⟨s, _, .closure (Nat.lt_succ_self n) h.run h.made h.outermost hs ho.symm
    ⟨index, next, m', key, hf, hx, hstack⟩⟩

theorem Traced.step (h : Traced program options host base m₀ n m)
    (hr : run host n m₀ = (.unfinished, m)) (hx : step host m = .ok .running m') :
    Traced program options host base m₀ (n + 1) m' := by
  obtain ⟨path, steps, hexecutes⟩ := h.exists_path hb hr
  have hlive := hb.live.afterRun hb.harmless hr
  obtain ⟨i, next, hf⟩ := hlive.exists_fetch
  have hmono {c : Value.Code} : (∃ s path steps, Made program options host m₀ n c (s :: path) steps) →
      ∃ s path steps, Made program options host m₀ (n + 1) c (s :: path) steps :=
    fun ⟨s, path, steps, hc⟩ => ⟨s, path, steps, hc.mono (Nat.le_succ n)⟩
  have he := step_effect (Q := fun c =>
      (∃ s path steps, Made program options host m₀ (n + 1) c (s :: path) steps) ∧ ∀ ref ∈ c.captures, base.cells.size ≤ ref.index) hb.harmless (fun _ hc => hc.2)
    (h.kept.mono fun c hc => ⟨hmono hc.1, hc.2⟩) (hlive.endures 1) hf
    (fun index captures hi f refs m₁ hconstant hcells _ hyoung => by
      subst hi
      obtain ⟨s, steps', hs⟩ := hexecutes.makes hb hf hx hconstant hcells
      exact ⟨⟨s, path, steps', hs⟩, hyoung⟩) hx
  obtain ⟨hkept, hclosures⟩ := hlive.closures_step hf he
  refine ⟨hkept, fun c hc => ?_⟩
  rcases hclosures with hsame | ⟨c', hc', hmore⟩ | ⟨c', hless⟩
  · exact hmono (h.calls c (hsame ▸ hc))
  · rw [hmore, List.dropLast_cons_of_ne_nil (by simp [closures])] at hc
    rcases List.mem_cons.1 hc with rfl | hc
    · exact hc'.1
    · exact hmono (h.calls c hc)
  · refine hmono (h.calls c ?_)
    rw [hless, List.dropLast_cons_of_ne_nil (by simp [closures])]
    exact List.mem_cons_of_mem _ hc

/-- Whatever is executed has a path. -/
theorem Begun.executes (hr : run host n m₀ = (.unfinished, m)) :
    ∃ path steps, Executes program options host m₀ n m path steps := by
  suffices h : Traced program options host base m₀ n m from h.exists_path hb hr
  induction n generalizing m with
  | zero =>
    cases hr
    exact ⟨hb.kept _, by simp [closures, hb.callers]⟩
  | succ n ih =>
    obtain ⟨m₁, hm₁, hs⟩ := run_succ_iff.1 hr
    exact (ih hm₁).step hb hm₁ hs

omit hb

/-! ## Captured variables -/

section

variable (program : Program) (options : Options) (host : Host) (m₀ : Machine)

/-- Before a step of the run, the cell has been taken for a local of the function that is `k` functions
outside of the innermost one on the path: by the call of it that made, at its step of those at which the
closure and the closures around it were made, the next closure on the path. The locals of this call were
those in sight at the place, but for the one that the closure is for. -/
def CellOf (n : Nat) (path : List Making) (steps : List Nat) (k slot : Nat) (ref : CellRef) : Prop :=
  ∃ t m s, steps[k]? = some t ∧ t < n ∧ path[k]? = some s ∧
    Executes program options host m₀ t m (path.drop (k + 1)) (steps.drop (k + 1)) ∧ m.frame.ip = s.offset ∧ TakesLocal host m₀ t (m.frame.localsBase + slot) ref ∧
    m.locals.size + s.after.toNat = m.frame.localsBase + s.context.frame.scope.locals.length

/-- What names mean in a program is what they mean in its runs. -/
structure ResolvesNames : Prop where
  /-- Where names are resolved there is room, and no function captures a variable twice. -/
  reachable : ∀ path, program.Path options path →
    ∀ spot ∈ (program.innermost options path).spots options.strip, ∀ id c,
    (id, c) ∈ spot.uses options.strip → c.Room (2 ^ 32) 1 ∧ Distinct c.frame c.enclosing
  /-- Whatever is executed is the innermost function of a path, and was made at some steps. -/
  executes : ∀ n m, run host n m₀ = (.unfinished, m) →
    ∃ path steps, Executes program options host m₀ n m path steps
  /-- A name that means a captured variable means the nearest local around, and the cell that the closure
  has for it is the one of this local. -/
  captured : ∀ n m path steps, Executes program options host m₀ n m path steps →
    ∀ spot ∈ (program.innermost options path).spots options.strip, ∀ id c,
    (id, c) ∈ spot.uses options.strip → ∀ i, (resolve id c).1 = some (.captured i) →
    ∃ ref k slot, m.frame.closure.captures[i.toNat]? = some ref ∧ Nearest path c id.name k slot ∧
      CellOf program options host m₀ n path steps k slot ref

end

theorem Begun.resolvesNames (hb : Begun program options S base natives host m₀) :
    ResolvesNames program options host m₀ where
  reachable path hp spot hs id c hu := by
    have hgood := hp.good hb.good
    have hspans := hgood.spans_use hs hu
    exact ⟨(hspans.room hgood).mono (Nat.le_succ 1), hspans.distinct hgood⟩
  executes _ _ hr := hb.executes hr
  captured n m path steps he spot hs id c hu i hi := by
    obtain ⟨x, k, slot, hx, ho, hnearest⟩ := he.made.isPath.exists_origin hb.good hs hu hi
    obtain ⟨ref, t, m₁, s, href, hstep, ht, hk, he₁, hip, htakes⟩ := he.made.captured hb hx ho
    refine ⟨ref, k, slot, href, hnearest, t, m₁, s, hstep, ht, hk, he₁, hip, htakes, ?_⟩
    obtain ⟨s', hs', hnewest⟩ := hnearest.nearest
    obtain rfl : s = s' := Option.some.inj (hk.symm.trans hs')
    have halign := (he₁.made.align hb he₁.run he₁.outermost (he.made.isPath.mem_spots hk) hip).1
    have htally : (s.spot.tally none).locals = s.context.frame.scope.locals.length - s.after.toNat := rfl
    have hone : s.after.toNat ≤ 1 := Bool.toNat_le s.after
    have hlt := hnewest.lt
    omega

theorem exists_begun {chunk : Chunk Constant} (hcompile : program.compile options = .ok chunk)
    (htidy : program.isTidy = true) (hroom : maxFrames * (program.size + 1) ≤ 2 ^ 32)
    (hh : host.Harmless) (store : Store) (natives : List Native) :
    ∃ S, Begun program options S (chunk.load store).2 natives.length host
      (start (chunk.load store).2 natives (chunk.load store).1) := by
  obtain ⟨S, T, hcensus, -, hfunction, hfirst⟩ := Program.exists_script hcompile htidy hroom store
  have hsize : program.size + 1 < 2 ^ 32 := by
    have : 2 * (program.size + 1) ≤ maxFrames * (program.size + 1) := Nat.mul_le_mul_right _ (by decide)
    omega
  obtain ⟨more, hloaded⟩ := Program.loaded_part hcompile hcensus store
  refine ⟨S, Program.good_part hcompile hsize, ⟨more, T, ?_⟩, ?_, rfl, rfl, rfl, kept_start _ _ _,
    live_start hcompile hroom store natives hfunction, hh⟩
  · rw [hfunction, hfirst]
    exact hloaded
  · rw [hfunction]
    rfl

/-- Names are resolved lexically. At every point of a compilation `resolve` finds what a name means, and
in every run of a compiled program in which declarations stand in blocks only, the captured variable that
it has found is the variable itself. The bound lets the positions of all locals fit into cells. -/
theorem resolvesNames_run {chunk : Chunk Constant} (hcompile : program.compile options = .ok chunk)
    (htidy : program.isTidy = true) (hroom : maxFrames * (program.size + 1) ≤ 2 ^ 32)
    (hh : host.Harmless) (store : Store) (natives : List Native) :
    (∀ id c, c.Room (2 ^ 32) 1 → c.globals.entries.length < 2 ^ 32 → Resolution id c) ∧
      ResolvesNames program options host
        (start (chunk.load store).2 natives (chunk.load store).1) := by
  obtain ⟨S, hb⟩ := exists_begun hcompile htidy hroom hh store natives
  exact ⟨fun _ _ => resolution, hb.resolvesNames⟩

end Machine

/-- A program in which a function hands a variable of the function around on to a function inside. -/
def relay : Program :=
  ⟨[.function ⟨"main", {}⟩ [] [
    .variable ⟨"count", {}⟩ (.literal (.int 0) {}) {},
    .variable ⟨"outer", {}⟩ (.lambda [] [
      .return (some (.arrow [] (.name ⟨"count", {}⟩ {}) {})) {}] {}) {},
    .return (some (.call (.call (.name ⟨"outer", {}⟩ {}) [] {}) [] {})) {}] {}]⟩

theorem Machine.resolvesNames_run_relay : ∃ chunk, relay.compile {} = .ok chunk ∧
    relay.isTidy = true ∧ maxFrames * (relay.size + 1) ≤ 2 ^ 32 ∧
    ({} : Services).host.Harmless ∧
    (∀ id c, c.Room (2 ^ 32) 1 → c.globals.entries.length < 2 ^ 32 → Resolution id c) ∧
    ResolvesNames relay {} ({} : Services).host (start (chunk.load {}).2 [] (chunk.load {}).1) := by
  obtain ⟨chunk, h⟩ := relay.exists_chunk {} (by cbv)
  have hroom : maxFrames * (relay.size + 1) ≤ 2 ^ 32 := by decide
  have hh := Services.harmless_host {}
  exact ⟨chunk, h, rfl, hroom, hh, resolvesNames_run h rfl hroom hh {} []⟩

end StackScript
