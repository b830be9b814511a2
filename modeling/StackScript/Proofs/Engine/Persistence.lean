import StackScript.Engine
import StackScript.Proofs.Engine.Saving
import StackScript.Proofs.Machine.Agreement
import StackScript.Proofs.Machine.Depth
import StackScript.Proofs.Semantics.Evaluation

/-!
# Programs in images

A program that is read from an image has other objects than the one that was written, with new keys.
Nothing of this can be seen when it runs: the keys that loading gives correspond to each other one
by one, and so do those of the objects that the two runs make.
-/

namespace StackScript

variable {P : String → Prop} {chunk : Chunk Constant}

/-! ## Loading a program twice -/

/-- Live constants that have become of the same constant, with keys that correspond. -/
inductive Value.Alike (K : Nat → Nat → Prop) : Value → Value → Prop
  | scalar {v : Value} : v.isScalar = true → Alike K v v
  | record {k k' : Nat} (name : String) (fields : List String) : K k k' →
      Alike K (.record ⟨k, name, fields, []⟩) (.record ⟨k', name, fields, []⟩)
  | function {k k' : Nat} {f f' : Function Value} : K k k' → f.arity = f'.arity →
      f.chunk.name = f'.chunk.name → f.chunk.code = f'.chunk.code →
      List.Forall₂ (Alike K) f.chunk.constants f'.chunk.constants →
      Alike K (.function ⟨k, f⟩) (.function ⟨k', f'⟩)

/-- Live functions that have become of the same function. -/
structure Function.Alike (K : Nat → Nat → Prop) (f f' : Function Value) : Prop where
  arity : f.arity = f'.arity
  name : f.chunk.name = f'.chunk.name
  code : f.chunk.code = f'.chunk.code
  constants : List.Forall₂ (Value.Alike K) f.chunk.constants f'.chunk.constants

/-- Loading makes the same number of objects in any store, and nothing else. -/
structure LoadsAlike {α : Type} (R : (Nat → Nat → Prop) → α → α → Prop) (x : StateM Store α)
    (s s' : Store) (n : Nat) : Prop where
  left : (x s).2 = { s with fresh := s.fresh + n }
  right : (x s').2 = { s' with fresh := s'.fresh + n }
  alike : ∀ K : Nat → Nat → Prop, (∀ j < n, K (s.fresh + j) (s'.fresh + j)) → R K (x s).1 (x s').1

mutual

theorem loadsAlike_load (s s' : Store) : (k : Constant) → k.Ordinary P →
    ∃ n, LoadsAlike Value.Alike k.load s s' n
  | ⟨.int n⟩, _ => ⟨0, rfl, rfl, fun _ _ => .scalar rfl⟩
  | ⟨.float x⟩, _ => ⟨0, rfl, rfl, fun _ _ => .scalar rfl⟩
  | ⟨.string t⟩, _ => ⟨0, rfl, rfl, fun _ _ => .scalar rfl⟩
  | ⟨.char c⟩, _ => ⟨0, rfl, rfl, fun _ _ => .scalar rfl⟩
  | ⟨.record ⟨name, fields, []⟩⟩, _ =>
    ⟨1, rfl, rfl, fun _ hK => .record name fields (hK 0 Nat.one_pos)⟩
  | ⟨.function ⟨arity, ⟨name, code, constants, marks⟩⟩⟩, .function _ _ _ h => by
    obtain ⟨n, hl, hr, ha⟩ := loadsAlike_loadAll s s' constants h
    have he (t : Store) : Constant.load ⟨.function ⟨arity, ⟨name, code, constants, marks⟩⟩⟩ t =
        (.function ⟨(loadAll constants t).2.fresh, arity, name, code, (loadAll constants t).1, marks⟩,
          { (loadAll constants t).2 with fresh := (loadAll constants t).2.fresh + 1 }) := rfl
    refine ⟨n + 1, ?_, ?_, fun K hK => ?_⟩
    · rw [he, hl]
      rfl
    · rw [he, hr]
      rfl
    · rw [he, he, hl, hr]
      exact .function (hK n (Nat.lt_succ_self n)) rfl rfl rfl
        (ha K fun j hj => hK j (Nat.lt_succ_of_lt hj))

theorem loadsAlike_loadAll (s s' : Store) : (ks : List Constant) →
    (∀ k ∈ ks, k.Ordinary P) → ∃ n, LoadsAlike (List.Forall₂ <| Value.Alike ·) (loadAll ks) s s' n
  | [], _ => ⟨0, rfl, rfl, fun _ _ => .nil⟩
  | k :: ks, h => by
    rw [List.forall_mem_cons] at h
    obtain ⟨n, hl, hr, ha⟩ := loadsAlike_load s s' k h.1
    obtain ⟨n', hl', hr', ha'⟩ := loadsAlike_loadAll (k.load s).2 (k.load s').2 ks h.2
    have he (t : Store) : loadAll (k :: ks) t =
        ((k.load t).1 :: (loadAll ks (k.load t).2).1, (loadAll ks (k.load t).2).2) := rfl
    refine ⟨n + n', ?_, ?_, fun K hK => ?_⟩
    · rw [he, hl', hl, ← Nat.add_assoc]
    · rw [he, hr', hr, ← Nat.add_assoc]
    · rw [he, he]
      refine .cons (ha K fun j hj => hK j (Nat.lt_add_right n' hj)) (ha' K fun j hj => ?_)
      rw [hl, hr]
      show K (s.fresh + n + j) (s'.fresh + n + j)
      rw [Nat.add_assoc, Nat.add_assoc]
      exact hK (n + j) (Nat.add_lt_add_left hj n)

end

/-- Loading a compiled program in two stores. -/
theorem loadsAlike_chunk (h : ∀ k ∈ chunk.constants, k.Ordinary P) (s s' : Store) :
    ∃ n, LoadsAlike (fun K c c' => Function.Alike K ⟨0, c⟩ ⟨0, c'⟩) chunk.load s s' n := by
  obtain ⟨n, hl, hr, ha⟩ := loadsAlike_loadAll s s' chunk.constants h
  exact ⟨n, hl, hr, fun K hK => ⟨rfl, rfl, rfl, ha K hK⟩⟩

/-! ## Matching machines -/

namespace Matching

variable {K : Nat → Nat → Prop}

/-- The matching of two runs of the same program that begin with the given stores: objects correspond
by the order in which they are made. -/
def reloaded (K : Nat → Nat → Prop) (hK : ∀ {k k' l l'}, K k k' → K l l' → (k = l ↔ k' = l'))
    (s s' : Store) : Matching where
  key := K
  cell r r' := ∃ n, r = ⟨s.cells.size + n⟩ ∧ r' = ⟨s'.cells.size + n⟩
  inst r r' := ∃ n, r = ⟨s.instances.size + n⟩ ∧ r' = ⟨s'.instances.size + n⟩
  function := Function.Alike K
  record _ _ := True
  key_iff := hK
  cell_iff := by
    rintro _ _ _ _ ⟨n, rfl, rfl⟩ ⟨k, rfl, rfl⟩
    simp
  inst_iff := by
    rintro _ _ _ _ ⟨n, rfl, rfl⟩ ⟨k, rfl, rfl⟩
    simp
  arity h := h.arity
  name {f f'} h := by
    show f.chunk.title = f'.chunk.title
    unfold Chunk.title
    rw [h.name]

variable {hK : ∀ {k k' l l'}, K k k' → K l l' → (k = l ↔ k' = l')} {s s' : Store}

theorem matches_of_alike {v v' : Value} (h : v.Alike K v') : (reloaded K hK s s').Matches v v' := by
  cases h with
  | scalar hv => exact .scalar hv
  | record name fields hk => exact .record ⟨hk, rfl, rfl, .nil, trivial⟩
  | function hk ha hn hc hs => exact .function hk ⟨ha, hn, hc, hs⟩

theorem sameCode_reloaded : (reloaded K hK s s').SameCode where
  code h := h.code
  title h := by
    unfold Chunk.title
    rw [h.name]
  constants h := h.constants.imp fun _ _ => matches_of_alike

theorem matchesStore_reloaded (hf : ∀ n, K (s.fresh + n) (s'.fresh + n)) :
    (reloaded K hK s s').MatchesStore s s' where
  fresh := hf
  newRecords _ _ _ := trivial
  newCells n := ⟨n, rfl, rfl⟩
  newInstances n := ⟨n, rfl, rfl⟩
  cells := by
    rintro _ _ ⟨n, rfl, rfl⟩
    rw [Array.getElem?_eq_none (Nat.le_add_right ..), Array.getElem?_eq_none (Nat.le_add_right ..)]
    exact .none
  instances := by
    rintro _ _ ⟨n, rfl, rfl⟩
    show Option.Rel _ s.instances[_]? s'.instances[_]?
    rw [Array.getElem?_eq_none (Nat.le_add_right ..), Array.getElem?_eq_none (Nat.le_add_right ..)]
    exact .none

theorem matchesMachine_start {A : Matching} (hs : A.MatchesStore s s') (natives : List Native)
    {chunk chunk' : Chunk Value} (hc : A.function ⟨0, chunk⟩ ⟨0, chunk'⟩) :
    A.MatchesMachine (.start s natives chunk) (.start s' natives chunk') where
  store := hs
  stack := .nil
  locals := .nil
  globals := by
    show List.Forall₂ _ (natives.map Value.native) (natives.map Value.native)
    refine List.forall₂_same.2 fun v hv => ?_
    obtain ⟨n, -, rfl⟩ := List.mem_map.1 hv
    exact .native n
  frame := ⟨⟨hc, .nil⟩, rfl, rfl, rfl⟩
  callers := .nil
  openCells := .nil
  calls := rfl

end Matching

/-! ## Hosts -/

/-- The host functions fail or reply with a literal value or with one of their arguments, as it is
determined by their arguments as they are shown and the recorded calls. -/
def Host.Determined (host : Host) : Prop :=
  ∃ reply : List HostCall → Native → List Shown → Semantics.Reply, ∀ calls native store arguments,
    host.answer calls native store arguments =
      (reply calls native (arguments.map store.shown)).answer id arguments

namespace Matching

variable {A : Matching}

theorem rel_getD {vs vs' : List Value} (h : List.Forall₂ A.Matches vs vs') (position : Nat) :
    A.Matches (vs.getD position .nil) (vs'.getD position .nil) := by
  rw [List.getD_eq_getElem?_getD, List.getD_eq_getElem?_getD]
  have hv := rel_getElem? h position
  generalize vs[position]? = v at hv ⊢
  generalize vs'[position]? = v' at hv ⊢
  cases hv with
  | none => exact .scalar rfl
  | some hv => exact hv

theorem hosts_of_determined {host : Host} (h : host.Determined) : A.Hosts host host := by
  obtain ⟨reply, hreply⟩ := h
  refine ⟨fun _ => rfl, fun calls native {s s' vs vs'} hs hvs => ?_⟩
  rw [hreply, hreply, map_eq_of_forall₂ (fun _ _ hv => hs.shown hv) hvs]
  cases reply calls native (vs'.map s'.shown) with
  | value l => exact .inr ⟨_, _, rfl, rfl, .scalar (by cases l <;> rfl)⟩
  | argument position => exact .inr ⟨_, _, rfl, rfl, rel_getD hvs position⟩
  | failure message => exact .inl ⟨message, rfl, rfl⟩

theorem Matches.isCallable {v v' : Value} (h : A.Matches v v') : v.isCallable = v'.isCallable := by
  cases h <;> rfl

/-- The services of an engine do the same. -/
theorem hosts_services (services : Services) : A.Hosts services.host services.host := by
  refine ⟨fun _ => rfl, fun calls native {s s' vs vs'} hs hvs => ?_⟩
  have hfirst : A.Matches (vs.headD .nil) (vs'.headD .nil) := by
    cases hvs with
    | nil => exact .scalar rfl
    | cons hv _ => exact hv
  show (∃ message, (services.get native).answer s vs = _ ∧ (services.get native).answer s' vs' = _) ∨
    ∃ v v', (services.get native).answer s vs = _ ∧ (services.get native).answer s' vs' = _ ∧ _
  cases services.get native with
  | print | silent => exact .inr ⟨_, _, rfl, rfl, .scalar rfl⟩
  | first => exact .inr ⟨_, _, rfl, rfl, hfirst⟩
  | kindName =>
    refine .inr ⟨_, _, rfl, rfl, ?_⟩
    rw [hfirst.kind]
    exact .scalar rfl
  | text =>
    refine .inr ⟨_, _, rfl, rfl, ?_⟩
    rw [hs.fullText hfirst]
    exact .scalar rfl
  | callable =>
    refine .inr ⟨_, _, rfl, rfl, ?_⟩
    rw [hfirst.isCallable]
    exact .scalar rfl
  | count =>
    refine .inr ⟨_, _, rfl, rfl, ?_⟩
    rw [hvs.length_eq]
    exact .scalar rfl
  | fail =>
    refine .inl ⟨_, rfl, ?_⟩
    rw [hvs.length_eq]
    rfl

end Matching

/-! ## Running an image -/

/-- What can be seen of a machine after a run: how the run has ended, the recorded calls of host
functions, the globals and the stack. -/
structure Machine.Sight where
  outcome : Machine.Outcome
  calls : List HostCall
  globals : List Shown
  stack : List Shown
  deriving DecidableEq

/-- What can be seen of a machine after a number of steps. -/
def Machine.sight (host : Host) (steps : Nat) (m : Machine) : Machine.Sight :=
  let r := m.run host steps
  ⟨r.1, r.2.calls, r.2.globals.toList.map r.2.store.shown, r.2.stack.map r.2.store.shown⟩

theorem Matching.SameCode.sight_eq {A : Matching} (hA : A.SameCode) {host host' : Host}
    (hh : A.Hosts host host') {m m' : Machine} (h : A.MatchesMachine m m') (steps : Nat) :
    m.sight host steps = m'.sight host' steps := by
  obtain ⟨hout, hm⟩ := hA.run hh steps h
  simp only [Machine.sight]
  rw [hout, hm.calls, Matching.map_eq_of_forall₂ (fun _ _ hv => hm.store.shown hv) hm.globals,
    Matching.map_eq_of_forall₂ (fun _ _ hv => hm.store.shown hv) hm.stack]

theorem Matching.exists_reloaded (hk : ∀ k ∈ chunk.constants, k.Ordinary P) {s₀ s : Store}
    (hs : (chunk.load s₀).2.fresh ≤ s.fresh) (t : Store) (natives : List Native) :
    ∃ A : Matching, A.SameCode ∧ A.MatchesMachine (.start s natives (chunk.load s₀).1)
      (.start (chunk.load t).2 natives (chunk.load t).1) := by
  obtain ⟨n, hl, hr, ha⟩ := loadsAlike_chunk hk s₀ t
  rw [hl] at hs
  -- the keys of the loaded objects, and from there on those of the objects that the runs make
  let K : Nat → Nat → Prop := fun k k' => (∃ j < n, k = s₀.fresh + j ∧ k' = t.fresh + j) ∨
    ∃ j, k = s.fresh + j ∧ k' = t.fresh + n + j
  have hK {k k' l l' : Nat} (h : K k k') (h' : K l l') : k = l ↔ k' = l' := by
    have hs : s₀.fresh + n ≤ s.fresh := hs
    rcases h with ⟨i, hi, rfl, rfl⟩ | ⟨i, rfl, rfl⟩ <;>
      rcases h' with ⟨j, hj, rfl, rfl⟩ | ⟨j, rfl, rfl⟩ <;> omega
  rw [hr]
  refine ⟨reloaded K hK s _, sameCode_reloaded, matchesMachine_start (matchesStore_reloaded fun j => ?_) natives
    (ha K fun j hj => .inl ⟨j, hj, rfl, rfl⟩)⟩
  exact .inr ⟨j, rfl, rfl⟩

namespace Engine

variable {e : Engine}

/-- What can be seen of an engine after running something: how the run has ended, the recorded calls
of host functions, the globals and the stack. -/
def sight (r : Except Error Unit × Engine) :
    Except Error Unit × List HostCall × List Shown × List Shown :=
  (r.1, r.2.calls, r.2.shownGlobals, r.2.shownStack)

theorem sight_runChunk (e : Engine) (chunk : Chunk Value) :
    let seen := Machine.sight e.services.host maxSteps (.start e.store e.natives chunk)
    sight (e.runChunk chunk) = ((match seen.outcome with
      | .finished => .ok ()
      | .failed f => .error (.fault f)
      | .unfinished => .error .unfinished), e.calls ++ seen.calls.reverse, seen.globals,
      seen.stack.reverse) := by
  simp only [runChunk, sight, Machine.sight, shownGlobals, shownStack]
  rcases Machine.run e.services.host maxSteps (.start e.store e.natives chunk) with ⟨outcome, m⟩
  cases outcome <;> simp

theorem sight_runChunk_congr {e : Engine} {store : Store} {chunk chunk' : Chunk Value}
    (h : Machine.sight e.services.host maxSteps (.start e.store e.natives chunk) =
      Machine.sight e.services.host maxSteps (.start store e.natives chunk')) :
    sight (e.runChunk chunk) = sight ({ e with store }.runChunk chunk') := by
  rw [sight_runChunk, sight_runChunk, h]

theorem compile_options {program : Program} {chunk : Chunk Constant}
    (h : e.compile program = .ok chunk) : program.compile e.options = .ok chunk := by
  unfold compile at h
  cases hc : program.compile e.options with
  | ok c =>
    rw [hc] at h
    cases h
    rfl
  | error ds =>
    rw [hc] at h
    cases h

/-- A program that is read from its image runs like the live program that was written: the run ends in
the same way, with the same calls of host functions, globals and stack. The live program may have been
loaded at any time before. The same holds of a machine with any other host functions that reply with
literal values or arguments as their shown arguments determine. -/
theorem sight_runImage {e : Engine} {program : Program} {chunk : Chunk Constant}
    {image : Array UInt8} {s : Store} (hcompile : e.compile program = .ok chunk)
    (hnames : "" ∉ program.functionNames) (hencode : Image.encode chunk = .ok image)
    (hlive : (chunk.load s).2.fresh ≤ e.store.fresh) :
    sight (e.runImage image.toList) = sight (e.runChunk (chunk.load s).1) ∧
      ∃ decoded, Image.decode image.toList = .ok decoded ∧
        ∀ (host : Host) (steps : Nat), host.Determined →
          Machine.sight host steps
              (.start (decoded.load e.store).2 e.natives (decoded.load e.store).1) =
            Machine.sight host steps (.start e.store e.natives (chunk.load s).1) := by
  have hprogram := compile_options hcompile
  obtain ⟨hname, hk⟩ := Program.ordinary_of_compile (P := (· ≠ ""))
    (fun name h he => hnames (he ▸ h)) hprogram
  have hdecode := Image.decode_of_ordinary hname hk hencode
  obtain ⟨A, hA, hstart⟩ := Matching.exists_reloaded hk hlive e.store e.natives
  constructor
  · rw [sight_runChunk_congr
      (hA.sight_eq (Matching.hosts_services e.services) hstart maxSteps)]
    unfold runImage
    rw [hdecode]
    rfl
  · refine ⟨chunk, hdecode, fun host steps hhost => ?_⟩
    exact (hA.sight_eq (Matching.hosts_of_determined hhost) hstart steps).symm

/-- A program that compares a record with itself and with a function, and prints the results. -/
def recordAndMain : Program :=
  let name (id : String) : Expr := .name ⟨id, {}⟩ {}
  let print (id : String) : Stmt :=
    .expression (.call (name "print") [.binary .equal (name "R") (name id) {}] {}) {}
  ⟨[.record ⟨"R", {}⟩ [] [] {}, .function ⟨"main", {}⟩ [] [print "R", print "main"] {}]⟩

set_option maxRecDepth 100000 in
theorem sight_runImage_recordAndMain :
    let e := (new {}).define "print" 1 .print
    ∃ chunk image, e.compile recordAndMain = .ok chunk ∧ "" ∉ recordAndMain.functionNames ∧
      Image.encode chunk = .ok image ∧
      let e' := { e with store := (chunk.load e.store).2 }
      let seen := sight (e'.runImage image.toList)
      seen = sight (e'.runChunk (chunk.load e.store).1) ∧
        e.services.printed seen.2.1 = [⟨.bool, "true"⟩, ⟨.bool, "false"⟩] := by
  intro e
  obtain ⟨chunk, image, hc, -, hi⟩ := recordAndMain.exists_image e.options (n := 3)
    (by cbv) (by decide)
  have hcompile : e.compile recordAndMain = .ok chunk := by
    rw [compile, hc]
    rfl
  have hnames : "" ∉ recordAndMain.functionNames := by decide +kernel
  refine ⟨chunk, image, hcompile, hnames, hi, ?_⟩
  intro e' seen
  have hseen : seen = sight (e'.runChunk (chunk.load e.store).1) :=
    (sight_runImage (e := e') hcompile hnames hi (Nat.le_refl _)).1
  refine ⟨hseen, ?_⟩
  have hprinted : (recordAndMain.compile e.options).toOption.map (fun chunk => e.services.printed
      (sight ({ e with store := (chunk.load e.store).2 }.runChunk (chunk.load e.store).1)).2.1) =
      some [⟨.bool, "true"⟩, ⟨.bool, "false"⟩] := by cbv
  rw [hc] at hprinted
  rw [hseen]
  exact Option.some.inj hprinted

end Engine

end StackScript
