import StackScript.Proofs.Engine.Persistence
import StackScript.Proofs.Machine.Aging

/-!
# Programs are not changed by running

A live program shares its functions and records with the machine that runs it, and still no run
changes any of them. A record that gets methods is a new one, so every record that a machine can get
at is one from the pools, as it was loaded, or has a key that is not used there.

What an engine did before leaves no trace in a run: a program runs as it would have run on an engine
without a past, however often, and its image stays the same.
-/

namespace StackScript

/-! ## What a program owns -/

namespace Chunk

variable {v : Value}

/-- The objects in the pools of a live program: its constants, and those of the functions among
them. -/
inductive Owns (chunk : Chunk Value) : Value → Prop
  | constant {v : Value} : v ∈ chunk.constants → Owns chunk v
  | inside {f : Object (Function Value)} {v : Value} : Owns chunk (.function f) →
      v ∈ f.body.chunk.constants → Owns chunk v

/-- The functions of a live program: the program itself and those in its pools. -/
def OwnsFunction (chunk : Chunk Value) (f : Function Value) : Prop :=
  f = ⟨0, chunk⟩ ∨ ∃ key, chunk.Owns (.function ⟨key, f⟩)

variable {chunk : Chunk Value}

theorem OwnsFunction.owns {f : Function Value} (h : chunk.OwnsFunction f)
    (hv : v ∈ f.chunk.constants) : chunk.Owns v := by
  rcases h with rfl | ⟨key, h⟩
  · exact .constant hv
  · exact .inside h hv

theorem Owns.alike {K : Nat → Nat → Prop} (h : Function.Alike K ⟨0, chunk⟩ ⟨0, chunk⟩)
    (hv : chunk.Owns v) : v.Alike K v := by
  induction hv with
  | constant hv => exact List.forall₂_same.1 h.constants _ hv
  | inside _ hv ih =>
    cases ih with
    | scalar hs => cases hs
    | function _ _ _ _ hconstants => exact List.forall₂_same.1 hconstants _ hv

end Chunk

/-! ## What a machine can get at -/

namespace Machine

/-- The values that a machine can get at. -/
inductive Sees (m : Machine) : Value → Prop
  | stack {v : Value} : v ∈ m.stack → Sees m v
  | locals {v : Value} : v ∈ m.locals → Sees m v
  | globals {v : Value} : v ∈ m.globals → Sees m v
  | running {f : Frame} {ref : CellRef} {v : Value} : f ∈ m.frame :: m.callers →
      ref ∈ f.closure.captures → (m.store.cell ref).closed = some v → Sees m v
  | captured {c : Value.Method} {ref : CellRef} {v : Value} : Sees m (.closure c) →
      ref ∈ c.body.captures → (m.store.cell ref).closed = some v → Sees m v
  | method {r : Value.RecordType} {c : Value.Method} : Sees m (.record r) → c ∈ r.body.methods →
      Sees m (.closure c)
  | field {ref : InstanceRef} {i : Instance} {v : Value} : Sees m (.instanceOf ref) →
      m.store.instance? ref = some i → v ∈ i.fields → Sees m v
  | type {ref : InstanceRef} {i : Instance} : Sees m (.instanceOf ref) →
      m.store.instance? ref = some i → Sees m (.record i.record)
  | receiver {v : Value} {c : Value.Method} : Sees m (.bound v c) → Sees m v
  | bound {v : Value} {c : Value.Method} : Sees m (.bound v c) → Sees m (.closure c)

/-- All that a machine can get at leaves the objects of a program as they are: a record is one of the
program as it was loaded, or another one, and every closure is made of a function of the program. -/
structure Spares (m : Machine) (chunk : Chunk Value) : Prop where
  records : ∀ r, m.Sees (.record r) →
    chunk.Owns (.record r) ∨ ∀ r', chunk.Owns (.record r') → r'.key ≠ r.key
  closures : ∀ c, m.Sees (.closure c) → chunk.OwnsFunction c.body.function
  frames : ∀ f ∈ m.frame :: m.callers, chunk.OwnsFunction f.closure.function

end Machine

/-! ## Machines that match themselves -/

namespace Matching

variable {v : Value} {A : Matching} {K : Nat → Nat → Prop} {s : Store}

/-- The matching of a machine with itself, as long as it runs a program on a store: all functions are
of the program, and all records are of the program or new. -/
def keeping (chunk : Chunk Value) (base : Store) : Matching where
  key k k' := k = k'
  cell r r' := r = r' ∧ base.cells.size ≤ r.index
  inst r r' := r = r' ∧ base.instances.size ≤ r.index
  function f f' := f = f' ∧ chunk.OwnsFunction f
  record r _ := chunk.Owns (.record r) ∨ base.fresh ≤ r.key
  key_iff := by
    rintro k _ l _ rfl rfl
    exact Iff.rfl
  cell_iff := by
    rintro r _ q _ ⟨rfl, -⟩ ⟨rfl, -⟩
    exact Iff.rfl
  inst_iff := by
    rintro r _ q _ ⟨rfl, -⟩ ⟨rfl, -⟩
    exact Iff.rfl
  arity h := by rw [h.1]
  name h := by rw [h.1]

variable {chunk : Chunk Value} {base : Store}

theorem matches_of_owns (hc : Function.Alike K ⟨0, chunk⟩ ⟨0, chunk⟩) (hv : chunk.Owns v) :
    (keeping chunk base).Matches v v := by
  have ha := hv.alike hc
  cases ha with
  | scalar hs => exact .scalar hs
  | record name fields _ => exact .record ⟨rfl, rfl, rfl, .nil, .inl hv⟩
  | function => exact .function rfl ⟨rfl, .inr ⟨_, hv⟩⟩

theorem sameCode_keeping (hc : Function.Alike K ⟨0, chunk⟩ ⟨0, chunk⟩) :
    (keeping chunk base).SameCode where
  code h := by rw [h.1]
  title h := by rw [h.1]
  constants := by
    rintro f _ ⟨rfl, hf⟩
    exact List.forall₂_same.2 fun v hv => matches_of_owns hc (hf.owns hv)

theorem matchesStore_keeping (chunk : Chunk Value) (base : Store) :
    (keeping chunk base).MatchesStore base base where
  fresh _ := rfl
  newRecords n _ _ := .inr (Nat.le_add_right base.fresh n)
  newCells n := ⟨rfl, Nat.le_add_right base.cells.size n⟩
  newInstances n := ⟨rfl, Nat.le_add_right base.instances.size n⟩
  cells := by
    rintro r _ ⟨rfl, hr⟩
    rw [Array.getElem?_eq_none hr]
    exact .none
  instances := by
    rintro r _ ⟨rfl, hr⟩
    show Option.Rel _ base.instances[_]? base.instances[_]?
    rw [Array.getElem?_eq_none hr]
    exact .none

theorem matches_closed (hs : A.MatchesStore s s) {refs : List CellRef}
    (hrefs : List.Forall₂ A.cell refs refs) {ref : CellRef} (hr : ref ∈ refs)
    (hv : (s.cell ref).closed = some v) : A.Matches v v := by
  have hc := (hs.cell (List.forall₂_same.1 hrefs ref hr)).closed
  rw [hv] at hc
  cases hc with
  | some h => exact h

theorem matches_fields (hs : A.MatchesStore s s) {ref : InstanceRef}
    (hr : A.Matches (.instanceOf ref) (.instanceOf ref)) {i : Instance}
    (hi : s.instance? ref = some i) : A.MatchesInstance i i := by
  cases hr with
  | scalar h => cases h
  | instanceOf hr =>
    have h := hs.instances hr
    rw [hi] at h
    cases h with
    | some h => exact h

theorem matches_of_sees {m : Machine} (h : A.MatchesMachine m m) (hv : m.Sees v) :
    A.Matches v v := by
  induction hv with
  | stack hv => exact List.forall₂_same.1 h.stack _ hv
  | locals hv => exact List.forall₂_same.1 h.locals _ (Array.mem_toList_iff.2 hv)
  | globals hv => exact List.forall₂_same.1 h.globals _ (Array.mem_toList_iff.2 hv)
  | running hf hr hv =>
    have hframe := List.forall₂_same.1 (.cons h.frame h.callers) _ hf
    exact matches_closed h.store hframe.closure.captures hr hv
  | captured _ hr hv ih =>
    cases ih with
    | scalar hs => cases hs
    | closure hc => exact matches_closed h.store hc.body.captures hr hv
  | method _ hc ih =>
    cases ih with
    | scalar hs => cases hs
    | record hr => exact .closure (List.forall₂_same.1 hr.methods _ hc)
  | field _ hi hv ih => exact List.forall₂_same.1 (matches_fields h.store ih hi).fields _ hv
  | type _ hi ih => exact .record (matches_fields h.store ih hi).record
  | receiver _ ih =>
    cases ih with
    | scalar hs => cases hs
    | bound hv _ => exact hv
  | bound _ ih =>
    cases ih with
    | scalar hs => cases hs
    | bound _ hm => exact .closure hm

end Matching

/-! ## Hosts -/

/-- The answers of the host depend on the arguments and what can be reached from them, and on nothing
else: matching arguments get matching answers. -/
def Host.Faithful (host : Host) : Prop := ∀ A : Matching, A.Hosts host host

/-- All services of an engine answer so. -/
theorem Services.faithful (services : Services) : services.host.Faithful :=
  fun _ => Matching.hosts_services services

theorem Machine.spares_run {K : Nat → Nat → Prop} {chunk : Chunk Value} {base : Store}
    (hc : Function.Alike K ⟨0, chunk⟩ ⟨0, chunk⟩) (hK : ∀ k k', K k k' → k < base.fresh)
    {host : Host} (hhost : host.Faithful) (natives : List Native) (steps : Nat) :
    (run host steps (.start base natives chunk)).2.Spares chunk := by
  have hrun := ((Matching.sameCode_keeping hc).run (hhost _) steps
    (Matching.matchesMachine_start (Matching.matchesStore_keeping chunk base) natives ⟨rfl, .inl rfl⟩)).2
  constructor
  · intro r hr
    cases Matching.matches_of_sees hrun hr with
    | scalar hs => cases hs
    | record hr =>
      rcases hr.known with howns | hnew
      · exact .inl howns
      · right
        intro r' hr' hkey
        cases hr'.alike hc with
        | scalar hs => cases hs
        | record name fields hk =>
          have hlt := hK _ _ hk
          rw [← hkey] at hnew
          exact absurd hlt (Nat.not_lt.2 hnew)
  · intro c hc
    cases Matching.matches_of_sees hrun hc with
    | scalar hs => cases hs
    | closure hc => exact hc.body.function.2
  · intro f hf
    exact (List.forall₂_same.1 (.cons hrun.frame hrun.callers) f hf).closure.function.2

/-! ## Images of live programs -/

namespace Image.Writer

theorem forM_congr {α β : Type} {item : α → Writer} {item' : β → Writer} {items : List α}
    {items' : List β} (h : List.Forall₂ (fun a b => item a = item' b) items items') :
    items.forM item = items'.forM item' := by
  induction h with
  | nil => rfl
  | cons hab _ ih =>
    show (do item _; List.forM _ item) = (do item' _; List.forM _ item')
    rw [hab, ih]

theorem chunk_congr {α β : Type} {value : α → Writer} {value' : β → Writer} (name : Option String)
    (code : Code) (marks : Array Span) {constants : List α} {constants' : List β}
    (h : List.Forall₂ (fun a b => value a = value' b) constants constants') :
    chunk value ⟨name, code, constants, marks⟩ = chunk value' ⟨name, code, constants', marks⟩ := by
  unfold chunk list
  rw [forM_congr h, h.length_eq]

mutual

theorem value_load {P : String → Prop} (s t : Store) : (k : Constant) → k.Ordinary P → (depth : Nat) →
    value t.node depth (k.load s).1 = value Constant.node depth k
  | _, _, 0 => rfl
  | ⟨.int n⟩, _, depth + 1 | ⟨.float x⟩, _, depth + 1 | ⟨.string x⟩, _, depth + 1
  | ⟨.char c⟩, _, depth + 1 | ⟨.record ⟨name, fields, []⟩⟩, _, depth + 1 => rfl
  | ⟨.function ⟨arity, ⟨name, code, constants, marks⟩⟩⟩, .function _ _ _ h, depth + 1 => by
    have hc := chunk_congr name code marks (forall₂_load s t constants h depth)
    show (do tag .function; word arity; chunk _ ⟨name, code, (loadAll constants s).1, marks⟩) =
      (do tag .function; word arity; chunk _ ⟨name, code, constants, marks⟩ : Writer)
    rw [hc]

theorem forall₂_load {P : String → Prop} (s t : Store) : (ks : List Constant) →
    (∀ k ∈ ks, k.Ordinary P) → (depth : Nat) → List.Forall₂
      (fun v k => value t.node depth v = value Constant.node depth k) (loadAll ks s).1 ks
  | [], _, _ => .nil
  | k :: ks, h, depth =>
    .cons (value_load s t k (h k (List.mem_cons_self ..)) depth)
      (forall₂_load (k.load s).2 t ks (fun k' hk' => h k' (List.mem_cons_of_mem _ hk')) depth)

end

end Image.Writer

theorem Image.encodeWith_load {P : String → Prop} {chunk : Chunk Constant}
    (h : ∀ k ∈ chunk.constants, k.Ordinary P) (s t : Store) :
    Image.encodeWith t.node (chunk.load s).1 = Image.encode chunk := by
  have hc := Writer.chunk_congr chunk.name chunk.code chunk.marks
    (Writer.forall₂_load s t chunk.constants h maxDepth)
  have hload : (chunk.load s).1 =
      ⟨chunk.name, chunk.code, (loadAll chunk.constants s).1, chunk.marks⟩ := rfl
  unfold encode encodeWith write
  rw [hload, hc]

/-! ## What an engine does -/

namespace Engine

/-- Something that an engine is asked to do. -/
inductive Deed where
  /-- To compile and run a program. -/
  | run (program : Program)
  /-- To read and run an image. -/
  | runImage (image : List UInt8)
  /-- To run a live chunk. -/
  | runChunk (chunk : Chunk Value)

/-- The engine after it has done something, with success or not. -/
def after (e : Engine) : Deed → Engine
  | .run program => (e.run program).2
  | .runImage image => (e.runImage image).2
  | .runChunk chunk => (e.runChunk chunk).2

/-- The engine after it has done several things. -/
def afterAll (e : Engine) (history : List Deed) : Engine := history.foldl after e

/-- What an engine keeps and what only grows, whatever it does. -/
structure Precedes (e e' : Engine) : Prop where
  natives : e'.natives = e.natives
  services : e'.services = e.services
  fresh : e.store.fresh ≤ e'.store.fresh

theorem Precedes.refl (e : Engine) : e.Precedes e := ⟨rfl, rfl, Nat.le_refl _⟩

theorem Precedes.trans {e e' e'' : Engine} (h : e.Precedes e') (h' : e'.Precedes e'') :
    e.Precedes e'' :=
  ⟨h'.natives.trans h.natives, h'.services.trans h.services, Nat.le_trans h.fresh h'.fresh⟩

theorem precedes_runChunk (e : Engine) (chunk : Chunk Value) : e.Precedes (e.runChunk chunk).2 := by
  have hfresh := Machine.fresh_le_run e.services.host maxSteps (.start e.store e.natives chunk)
  unfold runChunk
  generalize Machine.run e.services.host maxSteps (.start e.store e.natives chunk) = r at hfresh ⊢
  obtain ⟨outcome, m⟩ := r
  cases outcome <;> exact ⟨rfl, rfl, hfresh⟩

theorem precedes_load (e : Engine) (chunk : Chunk Constant) :
    e.Precedes { e with store := (chunk.load e.store).2 } :=
  ⟨rfl, rfl, fresh_le_loadAll chunk.constants e.store⟩

theorem precedes_runConstant (e : Engine) (chunk : Chunk Constant) :
    e.Precedes (e.runConstant chunk).2 :=
  (e.precedes_load chunk).trans (precedes_runChunk _ _)

theorem precedes_after (e : Engine) (deed : Deed) : e.Precedes (e.after deed) := by
  cases deed with
  | run program =>
    show e.Precedes (e.run program).2
    unfold run
    cases e.compile program with
    | ok chunk => exact precedes_runConstant e chunk
    | error err => exact .refl e
  | runImage image =>
    show e.Precedes (e.runImage image).2
    unfold runImage
    cases Image.decode image with
    | ok chunk => exact precedes_runConstant e chunk
    | error err => exact .refl e
  | runChunk chunk => exact precedes_runChunk e chunk

theorem precedes_afterAll (e : Engine) (history : List Deed) : e.Precedes (e.afterAll history) := by
  induction history generalizing e with
  | nil => exact .refl e
  | cons deed history ih => exact (precedes_after e deed).trans (ih (e.after deed))

/-- What can be seen of a run on an engine: how it has ended, the calls of host functions that it has
added to the recorded ones, the globals and the stack. -/
def report (e : Engine) (r : Except Error Unit × Engine) :
    Except Error Unit × List HostCall × List Shown × List Shown :=
  (r.1, r.2.calls.drop e.calls.length, r.2.shownGlobals, r.2.shownStack)

theorem report_runChunk_congr (e e' : Engine) {chunk chunk' : Chunk Value}
    (h : Machine.sight e.services.host maxSteps (.start e.store e.natives chunk) =
      Machine.sight e'.services.host maxSteps (.start e'.store e'.natives chunk')) :
    e.report (e.runChunk chunk) = e'.report (e'.runChunk chunk') := by
  have hreport (e : Engine) (r : Except Error Unit × Engine) :
      e.report r = ((sight r).1, (sight r).2.1.drop e.calls.length, (sight r).2.2) := rfl
  rw [hreport, hreport, sight_runChunk, sight_runChunk, h]
  simp

/-- A program that was compiled runs as on an engine that has done nothing before: whatever the engine
has done before the program was loaded and since then, the run ends in the same way, with the same calls
of host functions, globals and stack. Afterwards the program has the same image, and no run has changed
an object of its pools. The same holds of machines with other host functions that answer from their
arguments alone, on any store that has given out the keys of the program. -/
theorem report_afterAll {e : Engine} {program : Program} {chunk : Chunk Constant}
    (hcompile : e.compile program = .ok chunk) (before since : List Deed) :
    let e₁ := e.afterAll before
    let live := (chunk.load e₁.store).1
    let e₂ := { e₁ with store := (chunk.load e₁.store).2 }.afterAll since
    e₂.report (e₂.runChunk live) = e.report (e.runConstant chunk) ∧
      (∀ s : Store, Image.encodeWith s.node live = Image.encode chunk) ∧
      ∀ (host : Host) (s : Store) (steps : Nat), host.Faithful →
        (chunk.load e₁.store).2.fresh ≤ s.fresh →
        Machine.sight host steps (.start s e.natives live) = Machine.sight host steps
            (.start (chunk.load e.store).2 e.natives (chunk.load e.store).1) ∧
          (Machine.run host steps (.start s e.natives live)).2.Spares live := by
  intro e₁ live e₂
  obtain ⟨-, hk⟩ := Program.ordinary_of_compile (P := fun _ => True) (fun _ _ => trivial)
    (compile_options hcompile)
  have hmachine (host : Host) (s : Store) (steps : Nat) (hhost : host.Faithful)
      (hs : (chunk.load e₁.store).2.fresh ≤ s.fresh) :
      Machine.sight host steps (.start s e.natives live) = Machine.sight host steps
        (.start (chunk.load e.store).2 e.natives (chunk.load e.store).1) := by
    obtain ⟨A, hA, hstart⟩ := Matching.exists_reloaded hk hs e.store e.natives
    exact hA.sight_eq (hhost A) hstart steps
  refine ⟨?_, fun s => Image.encodeWith_load hk e₁.store s, fun host s steps hhost hs => ?_⟩
  · have h₁ := e.precedes_afterAll before
    have h₂ := precedes_afterAll { e₁ with store := (chunk.load e₁.store).2 } since
    have hseen := hmachine e.services.host e₂.store maxSteps (Services.faithful _) h₂.fresh
    refine (report_runChunk_congr e₂ { e with store := (chunk.load e.store).2 } ?_).trans rfl
    rw [h₂.services, h₂.natives, show e₁.services = e.services from h₁.services,
      show e₁.natives = e.natives from h₁.natives]
    exact hseen
  · refine ⟨hmachine host s steps hhost hs, ?_⟩
    obtain ⟨n, hl, -, ha⟩ := loadsAlike_chunk hk e₁.store e₁.store
    rw [hl] at hs
    have hs : e₁.store.fresh + n ≤ s.fresh := hs
    refine Machine.spares_run (K := fun k _ => k < s.fresh) (ha _ fun j hj => ?_)
      (fun _ _ h => h) hhost e.natives steps
    omega

/-- A program whose record gets a method. -/
def methodAndMain : Program :=
  ⟨[.record ⟨"R", {}⟩ [] [⟨⟨"m", {}⟩, [], []⟩] {}, .function ⟨"main", {}⟩ [] [] {}]⟩

set_option maxRecDepth 100000 in
theorem report_afterAll_methodAndMain :
    let e := (new {}).define "print" 1 .print
    ∃ chunk, e.compile methodAndMain = .ok chunk ∧
      -- a run of the program and an image that cannot be read, and then two runs of the live program
      let e₁ := e.afterAll [.run methodAndMain, .runImage [0]]
      let live := (chunk.load e₁.store).1
      let e₂ := { e₁ with store := (chunk.load e₁.store).2 }.afterAll [.runChunk live, .runChunk live]
      e₂.report (e₂.runChunk live) = e.report (e.runConstant chunk) ∧
        Image.encodeWith e₂.store.node live = Image.encode chunk := by
  have hsome : (((new {}).define "print" 1 .print).compile methodAndMain).toOption.isSome = true := by
    cbv
  intro e
  cases hc : e.compile methodAndMain with
  | error err =>
    rw [hc] at hsome
    cases hsome
  | ok chunk =>
    refine ⟨chunk, rfl, ?_⟩
    intro e₁ live e₂
    have h := report_afterAll hc [.run methodAndMain, .runImage [0]] [.runChunk live, .runChunk live]
    exact ⟨h.1, h.2.1 e₂.store⟩

end Engine

end StackScript
