import StackScript.Proofs.Code.WellFormed

/-!
# What the instructions of compiled code refer to

Compiling a part of any program only adds to the constants and the captured variables of the
function it is in, and to no more constants than the code has bytes. The operands of the
instructions lead to constants and captured variables that are there, and functions become constants
whose chunks are well-formed, as long as all chunks are small enough for operands to reach.
-/

namespace StackScript

open Fragment

/-- All code in the chunk is small enough for operands to reach. -/
def Chunk.IsSmall (c : Chunk Constant) : Prop := ∀ c', c.Contains c' → c'.code.size < 2 ^ 32

/-- A function whose chunks are well-formed if they are small. -/
def Constant.Good (k : Constant) : Prop :=
  ∀ f, k = ⟨.function f⟩ → f.chunk.IsSmall → ∀ c, f.chunk.Contains c → c.WellFormed

theorem Chunk.Contains.cases_head {a c : Chunk Constant} (h : a.Contains c) :
    c = a ∨ ∃ f, ⟨.function f⟩ ∈ a.constants ∧ f.chunk.Contains c := by
  induction h with
  | self => exact .inl rfl
  | function _ hf ih =>
    rcases ih with rfl | ⟨g, hg, h⟩
    · exact .inr ⟨_, hf, .self⟩
    · exact .inr ⟨g, hg, h.function hf⟩

theorem Chunk.IsSmall.function {c : Chunk Constant} {f : Function Constant} (h : c.IsSmall)
    (hf : ⟨.function f⟩ ∈ c.constants) : f.chunk.IsSmall :=
  fun c' hc' => h c' ((Contains.self.function hf).trans hc')

/-- The operations without an operand that leads to a constant, a captured variable or an
instruction. -/
def Opcode.isFree : Opcode → Bool
  | .pushConst | .pushClosure | .getProperty | .setProperty | .callProperty | .getUpvalue
  | .setUpvalue | .jump | .jumpTrue | .jumpFalse | .jumpHasNoNext | .loop => false
  | _ => true

/-- The operands of an instruction suit a function with the given constants and a number of captured
variables. -/
structure Instruction.Fits (constants : List Constant) (captures : Nat) (i : Instruction) : Prop where
  straight : i.op.format ≠ .jump
  refers : i.Refers constants
  below : i.CapturesBelow captures
  provides : (∀ f, ⟨.function f⟩ ∈ constants → f.chunk.IsSmall) → i.Provides constants

theorem getElem?_of_isPrefix {α : Type} {l l' : List α} {n : Nat} {a : α} (h : l <+: l')
    (ha : l[n]? = some a) : l'[n]? = some a := by
  obtain ⟨rest, rfl⟩ := h
  rwa [List.getElem?_append_left (List.getElem?_eq_some_iff.1 ha).1]

namespace Instruction

variable {i : Instruction} {ks ks' : List Constant}
variable {m n : Nat}

theorem fits_of_isFree (h : i.op.isFree = true) (ks : List Constant) (n : Nat) : i.Fits ks n := by
  obtain ⟨op, args⟩ := i
  cases op <;> cases h <;> exact ⟨nofun, trivial, trivial, fun _ => trivial⟩

theorem CapturesBelow.mono (h : i.CapturesBelow n) (hm : n ≤ m) : i.CapturesBelow m := by
  obtain ⟨op, args⟩ := i
  cases op with
  | getUpvalue | setUpvalue => exact Nat.lt_of_lt_of_le h hm
  | pushClosure => exact fun c hc hl => Nat.lt_of_lt_of_le (h c hc hl) hm
  | _ => trivial

theorem Refers.mono (h : i.Refers ks) (hk : ks <+: ks') : i.Refers ks' := by
  obtain ⟨op, args⟩ := i
  have hget {n : Nat} {k : Constant} (h : ks[n]? = some k) : ks'[n]? = some k :=
    getElem?_of_isPrefix hk h
  cases op with
  | pushConst =>
    obtain ⟨k, hk, hf⟩ := h
    exact ⟨k, hget hk, hf⟩
  | pushClosure | getProperty | setProperty | callProperty =>
    obtain ⟨x, hx⟩ := h
    exact ⟨x, hget hx⟩
  | _ => trivial

theorem Provides.mono (h : i.Provides ks) (hr : i.Refers ks) (hk : ks <+: ks') :
    i.Provides ks' := by
  obtain ⟨op, args⟩ := i
  cases op with
  | pushClosure =>
    -- the index leads to the same function as before
    obtain ⟨f, hf⟩ := hr
    intro g hg
    obtain rfl : f = g := by
      rw [getElem?_of_isPrefix hk hf] at hg
      simpa using hg
    exact h f hf
  | _ => trivial

theorem Fits.mono (h : i.Fits ks n) (hk : ks <+: ks') (hn : n ≤ m) : i.Fits ks' m where
  straight := h.straight
  refers := h.refers.mono hk
  below := h.below.mono hn
  provides hs := (h.provides fun f hf => hs f (hk.subset hf)).mono h.refers hk

end Instruction

namespace Lowering


variable {span : Span} {c c' : Context} {i : Instruction} {code f : Fragment} {α : Type}
variable {cause : Diagnostic.Cause} {ks : List Constant} {name : String} {β : Type} {n : Nat}
  {b : Branch} {strip : Bool} {loop : Option Loop}

/-- The instructions of the fragment that refer to something. -/
def referring (f : Fragment) : Fragment := f.filter fun p =>
  match p with
  | .instruction i _ => !i.op.isFree
  | _ => false

theorem mem_referring :
    .instruction i span ∈ referring f ↔ .instruction i span ∈ f ∧ i.op.isFree = false := by
  simp [referring]

@[simp] theorem referring_nil : referring [] = [] := rfl

@[simp] theorem referring_append (f g : Fragment) : referring (f ++ g) = referring f ++ referring g :=
  List.filter_append ..

theorem referring_append_of_nil {g : Fragment} (hf : referring f = []) (hg : referring g = []) :
    referring (f ++ g) = [] := by
  rw [referring_append, hf, hg]
  rfl

@[simp] theorem referring_emit :
    referring (emit i span) = if i.op.isFree then [] else emit i span := by
  cases h : i.op.isFree <;> simp [referring, emit, h]

@[simp] theorem referring_pop : referring (pop span) = [] := rfl

@[simp] theorem referring_jump {d : Nat} : referring (.jump b d span :: f) = referring f := rfl

@[simp] theorem referring_landing : referring [.landing] = [] := rfl

@[simp] theorem referring_linkFrom : referring (linkFrom n f) = referring f := by
  induction f generalizing n with
  | nil => rfl
  | cons p f ih =>
    cases p with
    | instruction i span =>
      show referring ([.instruction i span] ++ _) = referring ([.instruction i span] ++ f)
      rw [referring_append, referring_append, ih]
    | _ => exact ih

theorem referring_releaseAfter (n : Nat) (span : Span) (ls : List Local) :
    referring (releaseAfter n span ls) = [] :=
  releaseAfter_induction (P := (referring · = [])) rfl referring_append_of_nil rfl (fun _ => rfl) rfl n ls

@[simp] theorem referring_define (b : Option Binding) (span : Span) : referring (define b span) = [] := by
  rcases b with _ | _ | _ | _ <;> rfl

/-- No message is about a jump that is too far. -/
def Context.Plain (c : Context) : Prop := ∀ d ∈ c.messages, ∀ n, d.cause ≠ .jumpTooFar n

/-- From one point of the compilation to a later one, the code has been made. -/
structure Emits (c : Context) (code : Fragment) (c' : Context) : Prop where
  constants : c.frame.constants <+: c'.frame.constants
  captures : c.frame.captures <+: c'.frame.captures
  enclosing : List.Forall₂ Frame.Passes c.enclosing c'.enclosing
  linked : Linked c.frame c.enclosing → Linked c'.frame c'.enclosing
  count : c'.frame.constants.length ≤ c.frame.constants.length + code.size
  fits : Linked c.frame c.enclosing → c'.frame.constants.length ≤ 2 ^ 32 →
    ∀ i span, .instruction i span ∈ code →
      i.Fits c'.frame.constants c'.frame.captures.length
  good : Linked c.frame c.enclosing → (∀ k ∈ c.frame.constants, k.Good) →
    ∀ k ∈ c'.frame.constants, k.Good
  fatal : c.fatal = none → c'.fatal = none ∨
    ∃ f, ⟨.function f⟩ ∈ c'.frame.constants ∧ ¬ f.chunk.IsSmall
  plain : c.Plain → c'.Plain

namespace Emits

variable {c c' c'' : Context} {f g : Fragment}

theorem refl (c : Context) : Emits c [] c where
  constants := List.prefix_refl _
  captures := List.prefix_refl _
  enclosing := List.forall₂_same.2 fun f _ => .refl f
  linked h := h
  count := Nat.le_refl _
  fits _ _ _ _ h := by cases h
  good _ h := h
  fatal h := .inl h
  plain h := h

theorem trans (h : Emits c f c') (h' : Emits c' g c'') : Emits c (f ++ g) c'' where
  constants := h.constants.trans h'.constants
  captures := h.captures.trans h'.captures
  enclosing := Context.forall₂_passes_trans h.enclosing h'.enclosing
  linked hl := h'.linked (h.linked hl)
  count := by
    have := h.count
    have := h'.count
    rw [size_append]
    omega
  fits hl hk i span hi := by
    rcases List.mem_append.1 hi with hi | hi
    · exact (h.fits hl (Nat.le_trans h'.constants.length_le hk) i span hi).mono h'.constants
        h'.captures.length_le
    · exact h'.fits (h.linked hl) hk i span hi
  good hl hc := h'.good (h.linked hl) (h.good hl hc)
  fatal hf := by
    rcases h.fatal hf with hf | ⟨g, hg, hs⟩
    · exact h'.fatal hf
    · exact .inr ⟨g, h'.constants.subset hg, hs⟩
  plain hp := h'.plain (h.plain hp)

/-- A step that makes no code may follow. -/
theorem trans_nil (h : Emits c f c') (h' : Emits c' [] c'') : Emits c f c'' :=
  List.append_nil f ▸ h.trans h'

theorem reshape (h : Emits c f c') (hg : referring g = referring f) (hs : f.size ≤ g.size) :
    Emits c g c' :=
  { h with
    count := Nat.le_trans h.count (Nat.add_le_add_left hs _)
    fits := fun hl hk i span hi => by
      cases hf : i.op.isFree with
      | true => exact Instruction.fits_of_isFree hf _ _
      | false => exact h.fits hl hk i span (mem_referring.1 (hg ▸ mem_referring.2 ⟨hi, hf⟩)).1 }

/-- Instructions that refer to nothing may be added. -/
theorem free (h : Emits c [] c') (hf : referring f = []) : Emits c f c' :=
  h.reshape hf (Nat.zero_le _)

theorem emit {i : Instruction} {span : Span} (hi : i.op.isFree = true) : Emits c (emit i span) c :=
  (refl c).free (by simp [hi])

/-- A part that makes no code and adds no constants. -/
theorem ofFrame (hk : c'.frame.constants = c.frame.constants)
    (hc : c'.frame.captures = c.frame.captures) (he : c'.enclosing = c.enclosing)
    (hf : c'.fatal = c.fatal) (hm : c.Plain → c'.Plain) : Emits c [] c' where
  constants := hk ▸ List.prefix_refl _
  captures := hc ▸ List.prefix_refl _
  enclosing := he ▸ List.forall₂_same.2 fun f _ => .refl f
  linked h := he ▸ h.congr hc
  count := Nat.le_of_eq (congrArg List.length hk)
  fits _ _ _ _ h := by cases h
  good _ h := hk ▸ h
  fatal h := .inl (hf.trans h)
  plain := hm

end Emits

/-- A part of the compilation that makes the code it gives. -/
def Emitting (x : Lower Fragment) : Prop := ∀ c, Emits c (x c).1 (x c).2

/-- A part of the compilation that makes no code. -/
def Silent {α : Type} (x : Lower α) : Prop := ∀ c, Emits c [] (x c).2

theorem plain_report (hc : ∀ n, cause ≠ .jumpTooFar n) (h : c.Plain) :
    (report cause span c).2.Plain := by
  rw [report_eq]
  split
  · exact h
  · intro d hd
    rcases List.mem_append.1 hd with hd | hd
    · exact h d hd
    · cases List.mem_singleton.1 hd
      exact hc

theorem silent_report (hc : ∀ n, cause ≠ .jumpTooFar n) : Silent (report cause span) := by
  intro c
  refine .ofFrame ?_ ?_ ?_ ?_ (plain_report hc) <;>
  · rw [report_eq]
    split <;> rfl

theorem silent_modifyScope (f : Scope → Scope) : Silent (modifyScope f) := fun _ =>
  .ofFrame rfl rfl rfl rfl id

theorem silent_addLocal (name : String) : Silent (addLocal name) := fun _ =>
  .ofFrame rfl rfl rfl rfl id

theorem mem_intern {k k' : Constant} (h : k' ∈ (Chunk.intern ks k).2) : k' ∈ ks ∨ k' = k := by
  unfold Chunk.intern at h
  split at h
  · exact .inl h
  · simpa using h

/-- What is emitted with a constant refers to it. -/
theorem emits_constant {k : Constant} (hgood : (∀ k ∈ c.frame.constants, k.Good) → k.Good)
    (hi : (constant k c).2.frame.constants.length ≤ 2 ^ 32 →
      (constant k c).2.frame.constants[(constant k c).1.toNat]? = some k →
      i.Fits (constant k c).2.frame.constants c.frame.captures.length) :
    Emits c (emit i span) (constant k c).2 := by
  obtain ⟨hgrows, hcount, hget⟩ := intern_spec c.frame.constants k
  refine ⟨hgrows, List.prefix_refl _, List.forall₂_same.2 fun f _ => .refl f,
    fun h => h.congr rfl, ?_, ?_, ?_, .inl, id⟩
  · have : 0 < i.size := i.size_pos
    show (Chunk.intern c.frame.constants k).2.length ≤ _
    rw [size_emit]
    omega
  · intro _ hlen j span' hj
    cases List.mem_singleton.1 hj
    have hlt : (Chunk.intern c.frame.constants k).1 < 2 ^ 32 :=
      Nat.lt_of_lt_of_le (List.getElem?_eq_some_iff.1 hget).1 hlen
    refine hi hlen ?_
    show (Chunk.intern c.frame.constants k).2[(Chunk.intern c.frame.constants k).1.toUInt32.toNat]? = _
    rwa [Word.toNat_toUInt32 hlt]
  · intro _ h k' hk'
    rcases mem_intern hk' with hk' | rfl
    · exact h k' hk'
    · exact hgood h

theorem emitting_pushConstant {k : Constant} (hk : k.kind ≠ .function) (span : Span) :
    Emitting (pushConstant k span) := fun _ =>
  emits_constant (fun _ f hf => by
    rw [hf] at hk
    exact absurd rfl hk)
    fun _ hget => ⟨nofun, ⟨k, hget, hk⟩, trivial, fun _ => trivial⟩

theorem emitting_literal (l : Literal) (span : Span) : Emitting (literal l span) := by
  cases l with
  | bool b => cases b <;> exact fun c => .emit rfl
  | nil | void => exact fun c => .emit rfl
  | _ => exact emitting_pushConstant (by simp [Constant.kind, Constant.node, Node.kind]) span

/-- An instruction with a name among its operands. -/
theorem emits_name {i : UInt32 → Instruction} (c : Context)
    (hi : ∀ index ks n, ks[index.toNat]? = some ⟨.string name⟩ → (i index).Fits ks n) :
    Emits c (emit (i (nameConstant name c).1) span) (nameConstant name c).2 :=
  emits_constant (fun _ f hf => by cases hf) fun _ hget => hi _ _ _ hget

/-- A name is resolved to what is there. -/
theorem emits_resolve (id : Ident) (c : Context) : Emits c [] (resolve id c).2 := by
  rcases resolve_cases id c with ⟨_, -, he⟩ | ⟨-, i, f, gs, hf, he⟩ | ⟨-, -, _, -, -, he⟩ |
    ⟨cause, ⟨-, -, hcause⟩, he⟩
  · rw [he]
    exact .refl c
  · rw [he]
    obtain ⟨hcap, hpasses, -⟩ := captureFrom_spec hf
    exact ⟨hcap.constants ▸ List.prefix_refl _, hcap.captures, hpasses, linked_captureFrom hf,
      Nat.le_of_eq (congrArg List.length hcap.constants), (fun _ _ _ _ h => by cases h),
      fun _ h k hk => h k (hcap.constants ▸ hk), .inl, fun h => h⟩
  · rw [he]
    exact .refl c
  · rw [he]
    refine silent_report ?_ c
    rcases hcause with ⟨-, rfl⟩ | ⟨_, -, -, -, rfl⟩ <;> exact nofun

/-- Code that reads or writes a variable. -/
theorem emits_access {id : Ident} {b : Binding} (hb : resolve id c = (some b, c'))
    (hcode : code = b.get span ∨ code = b.set span) : Emits c code c' := by
  obtain ⟨hb, rfl⟩ := Prod.ext_iff.1 hb
  have hr := emits_resolve id c
  rcases hcode with rfl | rfl <;> cases b with
  | «local» | global => exact hr.trans (.emit rfl)
  | captured index =>
    exact { hr with
      count := Nat.le_trans hr.count (Nat.le_add_right _ _)
      fits := fun _ _ i span' hi => by
        cases List.mem_singleton.1 hi
        exact ⟨nofun, trivial, captured_lt hb, fun _ => trivial⟩ }

/-! ## Declarations and releasing locals -/

theorem Silent.bind {x : Lower α} {f : α → Lower β} (hx : Silent x) (hf : ∀ a, Silent (f a)) :
    Silent (x >>= f) := fun c => (hx c).trans (hf _ _)

theorem Silent.pure (a : α) : Silent (pure a : Lower α) := fun c => .refl c

theorem Silent.andReturn {x : Lower α} (hx : Silent x) (f : α → β) :
    Silent (x >>= fun a => Pure.pure (f a)) := hx.bind fun _ => .pure _

theorem silent_declareGlobal (id : Ident) : Silent (declareGlobal id) := by
  intro c
  rcases declareGlobal_cases id c with ⟨_, -, -, he⟩ | ⟨-, he⟩ | ⟨_, -, -, he⟩
  · rw [he]
    exact .ofFrame rfl rfl rfl rfl fun h => h
  · rw [he]
    exact .ofFrame rfl rfl rfl rfl fun h => h
  · rw [he]
    exact silent_report (by simp) c

theorem silent_declareLocal (id : Ident) : Silent (declareLocal id) := by
  refine Silent.bind (fun c => .refl c) fun scope => ?_
  split
  · exact (silent_report (by simp)).andReturn _
  · exact (silent_addLocal id.name).andReturn _

theorem silent_declare (id : Ident) : Silent (declare id) := by
  refine Silent.bind (fun c => .refl c) fun top => ?_
  split
  · exact silent_declareGlobal id
  · exact silent_declareLocal id

theorem silent_declareParams (ids : List Ident) : Silent (declareParams ids) := by
  induction ids with
  | nil => exact .pure ()
  | cons id ids ih =>
    have hadd : Silent (do let _ ← addLocal id.name; declareParams ids) :=
      (silent_addLocal id.name).bind fun _ => ih
    refine Silent.bind (fun c => .refl c) fun scope => ?_
    split
    · exact (silent_report (by simp)).bind fun _ => hadd
    · exact hadd

theorem silent_reportRepeated (seen : List String) (ids : List Ident) :
    Silent (reportRepeated seen ids) := by
  induction ids generalizing seen with
  | nil => exact .pure ()
  | cons id ids ih =>
    unfold reportRepeated
    split
    · exact silent_report (by simp)
    · exact ih _

theorem emitting_leaveScope (span : Span) : Emitting (leaveScope span) := fun c =>
  (silent_modifyScope Scope.leave c).free (referring_releaseAfter _ _ _)

/-! ## Functions -/

theorem code_size_toChunk (f : Fragment) (name : Option String) (ks : List α) :
    (f.toChunk name ks).code.size = f.size := by
  rw [← Array.length_toList, code_toChunk, length_bytes]

theorem wellFormed_of_fits {f f' : Fragment} {i : Instruction} {span : Span} {name : Option String}
    {ks : List Constant} {n : Nat} (h : f.Sealed) (hf : f = f' ++ [.instruction i span])
    (hi : i.op = .return ∨ i.op = .returnVoid ∨ i.op = .exitSuccess)
    (hfits : ks.length ≤ 2 ^ 32 → ∀ i span, .instruction i span ∈ f → i.Fits ks n)
    (hcount : ks.length ≤ f.size) (hgood : ∀ k ∈ ks, k.Good)
    (hsmall : (f.toChunk name ks).IsSmall) :
    (∀ l ∈ (f.toChunk name ks).instructions, l.instruction.CapturesBelow n) ∧
      ∀ c, (f.toChunk name ks).Contains c → c.WellFormed := by
  have hsize : f.size < 2 ^ 32 := by
    rw [← code_size_toChunk f name ks]
    exact hsmall _ .self
  have hfits := hfits (by omega)
  have hfunction (g : Function Constant) (hg : ⟨.function g⟩ ∈ ks) : g.chunk.IsSmall :=
    hsmall.function (by rwa [constants_toChunk])
  constructor
  · intro l hl
    rw [(instructions_toChunk name ks fun i span hm => countable_of_size
      (Nat.lt_of_le_of_lt (size_le_of_mem hm) hsize)).2] at hl
    rcases h.located_cases hl with ⟨span, hm⟩ | ⟨f₁, b, d, span, f₂, -, rfl⟩
    · exact (hfits _ span hm).below
    · cases b <;> trivial
  · intro c hc
    rcases hc.cases_head with rfl | ⟨g, hg, hc⟩
    · exact wellFormed_toChunk h hsize (fun i span hm =>
        ⟨(hfits i span hm).straight, (hfits i span hm).refers, (hfits i span hm).provides hfunction⟩)
        hf hi
    · rw [constants_toChunk] at hg
      exact hgood _ hg g rfl (hfunction g hg) c hc

theorem follows_returning (code : Fragment) (span : Span) :
    ∃ g, returning code span = code ++ g ∧ code.Follows g := by
  cases hr : code.endsInReturn with
  | true => exact ⟨[], by simp [returning, hr], .inl ⟨rfl, hr⟩⟩
  | false =>
    refine ⟨emit ⟨.returnVoid, ()⟩ span, by simp [returning, hr], .inr ⟨List.cons_ne_nil _ _, ?_⟩⟩
    intro p hp
    exact ⟨_, _, List.mem_singleton.1 hp⟩

theorem sealed_returning (h : Lands false code) (span : Span) : (returning code span).Sealed := by
  obtain ⟨g, hg, hf⟩ := follows_returning code span
  rw [hg]
  exact sealed_of_lands h hf

theorem exists_return (code : Fragment) (span : Span) :
    ∃ (f : Fragment) (i : Instruction) (span' : Span),
      returning code span = f ++ [.instruction i span'] ∧ (i.op = .return ∨ i.op = .returnVoid) := by
  cases hr : code.endsInReturn with
  | true =>
    rw [returning, if_pos hr]
    rcases List.eq_nil_or_concat code with rfl | ⟨f, p, rfl⟩
    · cases hr
    · rw [List.concat_eq_append, endsInReturn,
        List.getLast?_append_of_ne_nil _ (List.cons_ne_nil p [])] at hr
      cases p with
      | instruction i span' =>
        exact ⟨f, i, span', List.concat_eq_append, by simpa using hr⟩
      | _ => cases hr
  | false =>
    rw [returning, if_neg (by simp [hr])]
    exact ⟨code, _, span, rfl, .inr rfl⟩

theorem checkJumps_eq (c : Context) (h : ∀ b d span, .jump b d span ∈ code → d ≤ code.size) :
    ∃ fatal, (checkJumps code c).2 = { c with fatal } ∧
      (fatal = c.fatal ∨ 2 ^ 32 ≤ code.size) := by
  unfold checkJumps
  cases hj : code.farJump? 0 with
  | none => exact ⟨c.fatal, rfl, .inl rfl⟩
  | some j =>
    refine ⟨(abort (.jumpTooFar j.1) j.2 c).2.fatal, ?_, .inr ?_⟩
    · show (if c.fatal.isSome then c else { c with fatal := some _ }) = _
      have : (abort (.jumpTooFar j.1) j.2 c).2.fatal =
        (if c.fatal.isSome then c else { c with fatal := some ⟨.jumpTooFar j.1, j.2⟩ }).fatal := rfl
      rw [this]
      split <;> rfl
    · by_contra hs
      rw [farJump?_of_near fun b d span hm =>
        Nat.lt_of_le_of_lt (h b d span hm) (by omega)] at hj
      cases hj

theorem Emits.returning (h : Emits c code c') (span : Span) :
    Emits c (Lowering.returning code span) c' := by
  unfold Lowering.returning
  split
  · exact h
  · exact h.trans (.emit rfl)

theorem emitting_function {self : String} {params : List Ident} {body : Lower Fragment}
    (hb : Emitting body) (hl : Gives (Lands false) body) :
    Emitting (function name self params span body) := by
  intro c
  rw [function_eq]
  set r := withParams params body (c.inside self)
  set code := returning r.1 span
  have hin : Emits (c.inside self) code r.2 :=
    ((silent_declareParams params _).trans (hb _)).returning span
  have hsealed : code.Sealed := sealed_returning (hl (declareParams params (c.inside self)).2) span
  obtain ⟨fatal, hcheck, hfatal⟩ := checkJumps_eq r.2 fun _ _ _ => hsealed.distance_le
  show Emits c (close name params span code (checkJumps code r.2).2).1
    (close name params span code (checkJumps code r.2).2).2
  rw [hcheck]
  obtain ⟨g, gs, hg, hgs, hframes⟩ := List.forall₂_cons_left_iff.1 hin.enclosing
  set chunk := code.toChunk (some name) r.2.frame.constants with hchunk
  set k : Constant := ⟨.function ⟨params.length.toUInt32, chunk⟩⟩ with hk
  -- the function around, once the inner one is left
  set outer : Context := { r.2 with frame := g, enclosing := gs, fatal } with houter
  have hclose : close name params span code { r.2 with fatal } =
      (emit ⟨.pushClosure, ((constant k outer).1, r.2.frame.captures)⟩ span, (constant k outer).2) := by
    simp only [close, Context.outside, hframes, List.headD_cons, List.tail_cons, ← hchunk, ← hk, houter]
  rw [hclose]
  have hlinked (h : Linked c.frame c.enclosing) : Linked r.2.frame (g :: gs) := by
    rw [← hframes]
    exact hin.linked ⟨(by rintro _ ⟨⟩), h⟩
  obtain ⟨f', i, span', hf', hi⟩ := exists_return r.1 span
  have hwell (h : Linked c.frame c.enclosing) (hs : chunk.IsSmall) :=
    wellFormed_of_fits hsealed hf' (hi.imp_right .inl) (hin.fits ⟨(by rintro _ ⟨⟩), h⟩)
      (by simpa [Context.inside] using hin.count) (hin.good ⟨(by rintro _ ⟨⟩), h⟩ (by rintro _ ⟨⟩)) hs
  have hsmall : c.fatal = none → fatal = none ∨ ¬ chunk.IsSmall := by
    intro hc
    rcases hfatal with rfl | hsize
    · refine (hin.fatal hc).imp_right ?_
      rintro ⟨f, hf, hs⟩ hchunk
      refine hs (hchunk.function ?_)
      rwa [constants_toChunk]
    · refine .inr fun hs => ?_
      have := hs _ .self
      rw [code_size_toChunk] at this
      omega
  have hfunction (f : Function Constant) (hf : k = ⟨.function f⟩) : f.chunk = chunk := by
    rw [← Node.function.inj (Constant.mk.inj hf)]
  have hmake (h : Linked c.frame c.enclosing) : Emits outer
      (emit ⟨.pushClosure, ((constant k outer).1, r.2.frame.captures)⟩ span) (constant k outer).2 := by
    refine emits_constant (fun _ f hf => ?_) fun _ hget => ⟨(by rintro ⟨⟩), ⟨_, hget⟩, ?_, fun hs f hf => ?_⟩
    · rw [hfunction f hf]
      exact fun hs => (hwell h hs).2
    · intro x hx hlocal
      have := (hlinked h).1 x hx
      rwa [hlocal] at this
    · rw [hfunction f (Option.some.inj (hget.symm.trans hf))]
      exact (hwell h (hs _ (List.mem_of_getElem? hget))).1
  obtain ⟨hgrows, hcount, hget⟩ := intern_spec g.constants k
  refine ⟨hg.constants ▸ hgrows, hg.captures, hgs, fun h => (hmake h).linked (hlinked h).2, ?_,
    fun h => (hmake h).fits (hlinked h).2, fun h hgood => (hmake h).good (hlinked h).2 ?_, ?_, hin.plain⟩
  · rw [← hg.constants]
    exact Nat.le_trans hcount (Nat.add_le_add_left (by simp [Instruction.size]; omega) _)
  · show ∀ k ∈ g.constants, k.Good
    rwa [hg.constants]
  · intro hc
    exact (hsmall hc).imp_right fun hs => ⟨_, List.mem_of_getElem? hget, hs⟩

/-! ## Control structures -/

section

variable {c c' : Context} {t k a r : Fragment} {span : Span}

theorem Emits.logical (h : Emits c (t ++ k) c') :
    Emits c (t ++ skip b (pop span ++ k) span ++ Fragment.emit ⟨.assertBool, ()⟩ span) c' := by
  refine (h.reshape (by simp [skip]) ?_).trans (.emit rfl)
  simp only [skip, size_append, size_cons]
  omega

theorem Emits.condCode (h : Emits c (t ++ (k ++ a)) c') :
    Emits c (Lowering.condCode t k a span) c' := by
  refine h.reshape (by simp [Lowering.condCode, skip]) ?_
  rw [size_condCode, size_append, size_append]
  omega

theorem Emits.loopCode {round : Fragment} (h : Emits c (f ++ round) c') :
    Emits c (Lowering.loopCode f round span) c' := by
  refine h.reshape (by simp [loopCode_eq]) ?_
  rw [size_loopCode, size_append]
  omega

theorem Emits.whileRound (h : Emits c (t ++ k) c') : Emits c (Lowering.whileRound t k span) c' := by
  refine h.reshape (by simp [Lowering.whileRound, again]) ?_
  rw [size_whileRound, size_append]
  omega

theorem Emits.jump {d : Nat} (h : Emits c k c') : Emits c (k ++ [.jump b d span]) c' := by
  refine h.reshape (by simp) ?_
  rw [size_append]
  omega

theorem Emits.forInRound {b : Option Binding} (h : Emits c (k ++ r) c') :
    Emits c (Fragment.emit ⟨.advance, ()⟩ span ++ Lowering.forInRound b k r span) c' := by
  refine h.reshape (by simp [Lowering.forInRound, Opcode.isFree]) ?_
  rw [size_append, size_append, size_forInRound]
  omega

theorem Emits.forTurn {outer inner : UInt32} (h : Emits c (k ++ r) c') :
    Emits c (Lowering.forTurn outer inner k r span) c' := by
  refine h.reshape (by simp [Lowering.forTurn, Opcode.isFree]) ?_
  rw [size_forTurn, size_append]
  omega

theorem Emits.forTest {test : Option Fragment} {turn : Fragment}
    (h : Emits c (test.getD [] ++ turn) c') : Emits c (Lowering.forTest test turn span) c' := by
  cases test with
  | none => exact h
  | some t =>
    refine h.reshape (by simp [Lowering.forTest]) ?_
    rw [size_forTest_some, Option.getD_some, size_append]
    omega

theorem Emits.forUpdate {update : Option Fragment} (h : Emits c (update.getD []) c') :
    Emits c (Lowering.forUpdate update span) c' := by
  cases update with
  | none => exact h
  | some u => exact h.trans (.emit rfl)

end

/-! ## Expressions and statements -/

theorem emitting_exitLoop (loop : Option Loop) (how : LoopExit) (span : Span) :
    Emitting (exitLoop loop how span) := by
  cases loop with
  | none => exact silent_report (by simp)
  | some loop =>
    intro c
    have hr := referring_releaseAfter 0 span (c.frame.scope.above loop.depth)
    obtain ⟨depth, carry⟩ := loop
    refine (Emits.refl c).free (referring_append_of_nil (referring_append_of_nil ?_ ?_) rfl)
    · cases how <;> rcases carry with _ | ⟨outer, inner⟩
      case «continue».some =>
        exact referring_append_of_nil (referring_append_of_nil (referring_append_of_nil rfl hr) rfl) rfl
      all_goals exact hr
    · cases how <;> rfl

/-- The expression is compiled, if there is one. -/
def EmittingOption (x : Lower (Option Fragment)) : Prop := ∀ c, Emits c ((x c).1.getD []) (x c).2

theorem emitting_for {init : Expr} {test update : Option Expr} {body : Stmt} (id : Ident)
    (hi : Emitting (expression strip init)) (ht : EmittingOption (optionalExpression strip test))
    (hu : EmittingOption (optionalExpression strip update))
    (hb : ∀ loop, Emitting (statement strip loop body)) :
    Emitting (statement strip loop (.for id init test update body span)) := by
  intro c
  set c₁ := (modifyScope Scope.enter c).2
  set c₂ := (expression strip init c₁).2
  set c₃ := (addLocal id.name c₂).2
  set outer := (addLocal id.name c₂).1
  set c₄ := (optionalExpression strip update c₃).2
  set c₅ := (optionalExpression strip test c₄).2
  set c₆ := (modifyScope Scope.enter c₅).2
  set c₇ := (addLocal id.name c₆).2
  set inner := (addLocal id.name c₆).1
  set l : Loop := { depth := c₁.frame.scope.depth, carry := some (outer, inner) }
  set k := (statement strip (some l) body c₇).1
  set c₈ := (statement strip (some l) body c₇).2
  set r := (leaveScope span c₈).1
  set c₉ := (leaveScope span c₈).2
  set u := forUpdate (optionalExpression strip update c₃).1 span
  set round := forTest (optionalExpression strip test c₄).1 (forTurn outer inner k r span) span
  have hcode : statement strip loop (.for id init test update body span) c =
      ((expression strip init c₁).1 ++ emit ⟨.defLocal, ()⟩ span ++ loopCode u (round ++ [.jump .back
        (Piece.jumpSize + (pop span).size + u.size + round.size + Piece.jumpSize) span]) span ++
        (leaveScope span c₉).1, (leaveScope span c₉).2) := rfl
  rw [hcode]
  have hbefore : Emits c ((expression strip init c₁).1 ++ emit ⟨.defLocal, ()⟩ span) c₃ :=
    (silent_modifyScope Scope.enter c).trans
      (((hi c₁).trans (.emit rfl)).trans_nil (silent_addLocal id.name c₂))
  have hturn : Emits c₅ (forTurn outer inner k r span) c₉ :=
    (silent_modifyScope Scope.enter c₅).trans ((silent_addLocal id.name c₆).trans
      ((hb (some l) c₇).trans (emitting_leaveScope span c₈)).forTurn)
  exact (hbefore.trans ((hu c₃).forUpdate.trans ((ht c₄).trans hturn).forTest.jump).loopCode).trans
    (emitting_leaveScope span c₉)

theorem emitting_return {strip : Bool} {loop : Option Loop} {value : Option Expr}
    (hv : EmittingOption (optionalExpression strip value)) :
    Emitting (statement strip loop (.return value span)) := by
  intro c
  rw [statement_return]
  split
  · exact silent_report (by simp) c
  · cases value with
    | none => exact .emit rfl
    | some e => exact (hv c).trans (.emit rfl)

mutual

theorem emitting_expression (strip : Bool) : (e : Expr) → Emitting (expression strip e)
  | .literal l span => emitting_literal l span
  | .name id span => fun c => by
    have hr := emits_resolve id c
    rcases hb : resolve id c with ⟨_ | b, c'⟩ <;> rw [hb] at hr <;>
      simp only [expression, bind, StateT.bind, hb]
    · exact hr.free rfl
    · exact emits_access hb (.inl rfl)
  | .binary op left right span => fun c =>
    ((emitting_expression strip left c).trans (emitting_expression strip right _)).trans
      (.emit (by cases op with
        | arithmetic op => cases op <;> rfl
        | _ => rfl))
  | .logical op left right span => fun c =>
    ((emitting_expression strip left c).trans (emitting_expression strip right _)).logical
  | .unary op operand span => fun c =>
    (emitting_expression strip operand c).trans (.emit (by cases op <;> rfl))
  | .assign target value span => by
    have hv := emitting_expression strip value
    cases target with
    | name id _ =>
      intro c
      have hv := hv c
      rcases he : expression strip value c with ⟨code, c₁⟩
      have hr := emits_resolve id c₁
      rcases hb : resolve id c₁ with ⟨_ | b, c₂⟩ <;> rw [hb] at hr <;> rw [he] at hv <;>
        simp only [expression, bind, StateT.bind, he, hb]
      · exact hv.trans_nil hr
      · exact hv.trans (emits_access hb (.inr rfl))
    | member object property _ =>
      exact fun c => ((emitting_expression strip object c).trans (hv _)).trans
        (emits_name _ fun index ks n hk => ⟨nofun, ⟨_, hk⟩, trivial, fun _ => trivial⟩)
    | _ => exact fun c => (silent_report (by simp) c).trans (hv _)
  | .call callee arguments span => by
    have ha := emitting_expressions strip arguments
    have hc := emitting_expression strip callee
    cases callee with
    | member object property _ =>
      exact fun c => ((emitting_expression strip object c).trans (ha _)).trans
        (emits_name (i := fun index => ⟨.callProperty, (index, _)⟩) _ fun index ks n hk =>
          ⟨nofun, ⟨_, hk⟩, trivial, fun _ => trivial⟩)
    | _ => exact fun c => ((hc c).trans (ha _)).trans (.emit rfl)
  | .member object property span => fun c => (emitting_expression strip object c).trans
      (emits_name _ fun index ks n hk => ⟨nofun, ⟨_, hk⟩, trivial, fun _ => trivial⟩)
  | .range first last inclusive span => fun c =>
    ((emitting_expression strip first c).trans (emitting_expression strip last _)).trans
      (.emit (by cases inclusive <;> rfl))
  | .arrow params body span =>
    emitting_function (fun c => (emitting_expression strip body c).trans (.emit rfl))
      ((gives_lands_expression strip body).bind fun _ h => .pure (h.append (lands_emit _ _)))
  | .lambda params body span =>
    emitting_function (emitting_statements strip none body) (gives_lands_statements strip none body)

theorem emitting_expressions (strip : Bool) : (es : List Expr) → Emitting (expressions strip es)
  | [] => fun c => .refl c
  | e :: es => fun c => (emitting_expression strip e c).trans (emitting_expressions strip es _)

theorem emitting_statement (strip : Bool) :
    (loop : Option Loop) → (s : Stmt) → Emitting (statement strip loop s)
  | _, .variable id init span => fun c =>
    (emitting_expression strip init c).trans ((silent_declare id _).free (referring_define _ span))
  | _, .function id params body span => fun c => by
    have hf : Emitting (function id.name "" params span (statements strip none body)) :=
      emitting_function (emitting_statements strip none body) (gives_lands_statements strip none body)
    cases ht : (atTopLevel c).1 with
    | true =>
      have he : atTopLevel c = (true, c) := Prod.ext ht rfl
      simp only [statement, bind, StateT.bind, he]
      exact (hf c).trans ((silent_declare id _).free (referring_define _ span))
    | false =>
      have he : atTopLevel c = (false, c) := Prod.ext ht rfl
      simp only [statement, bind, StateT.bind, he]
      exact (silent_declare id c).trans ((hf _).trans ((Emits.refl _).free (referring_define _ span)))
  | _, .record id fields methods span => fun c => by
    have hm := emitting_methodClosures strip span methods
    have hk : Emitting (pushConstant ⟨.record ⟨id.name, fields.map Ident.name, []⟩⟩ span) :=
      emitting_pushConstant (by simp [Constant.kind, Constant.node, Node.kind]) span
    have ha : referring (if methods.isEmpty then []
        else emit ⟨.appendMethods, methods.length.toUInt32⟩ span) = [] := by split <;> rfl
    have hs := (silent_reportRepeated [] fields).bind fun _ =>
      silent_reportRepeated [] (methods.map Method.id)
    cases ht : (atTopLevel c).1 with
    | true =>
      have he : atTopLevel c = (true, c) := Prod.ext ht rfl
      simp only [statement, bind, StateT.bind, he]
      exact (hs c).trans ((((hk _).trans (hm _)).trans ((Emits.refl _).free ha)).trans
        ((silent_declare id _).free (referring_define _ span)))
    | false =>
      have he : atTopLevel c = (false, c) := Prod.ext ht rfl
      simp only [statement, bind, StateT.bind, he]
      exact (silent_declare id c).trans ((hs _).trans ((((hk _).trans (hm _)).trans
        ((Emits.refl _).free ha)).trans ((Emits.refl _).free (referring_define _ span))))
  | _, .expression e span => by
    have he := emitting_expression strip e
    cases e with
    | literal l literalSpan =>
      unfold statement
      split
      · exact fun c => .refl c
      · exact fun c => (emitting_literal l literalSpan c).trans (.emit rfl)
    | name id nameSpan =>
      intro c
      have hr := emits_resolve id c
      rcases hb : resolve id c with ⟨_ | b, c'⟩ <;> rw [hb] at hr <;>
        simp only [statement, bind, StateT.bind, hb] <;> cases strip
      · exact hr.free rfl
      · exact hr
      · exact (emits_access hb (.inl rfl)).trans (.emit rfl)
      · exact hr
    | _ => exact fun c => (he c).trans (.emit rfl)
  | loop, .block body span => fun c =>
    (silent_modifyScope Scope.enter c).trans
      ((emitting_statements strip loop body _).trans (emitting_leaveScope span _))
  | loop, .cond test consequent alternate span => fun c =>
    ((emitting_expression strip test c).trans ((emitting_statement strip loop consequent _).trans
      (emitting_optionalStatement strip loop alternate _))).condCode
  | _, .while test body span => fun c =>
    have hround := ((emitting_expression strip test c).trans
      (emitting_statement strip (some _) body _)).whileRound
    Emits.loopCode (f := []) hround
  | _, .loop body span => fun c =>
    Emits.loopCode (f := []) (emitting_statement strip (some _) body c).jump
  | _, .forIn id iterable body span => fun c =>
    (((emitting_expression strip iterable c).trans (.emit rfl)).trans
      ((silent_modifyScope Scope.enter _).trans ((silent_declare id _).trans
        ((emitting_statement strip (some _) body _).trans
          (emitting_leaveScope span _)).forInRound.loopCode))).trans (.emit rfl)
  | _, .for id init test update body span =>
    emitting_for id (emitting_expression strip init) (emitting_optionalExpression strip test)
      (emitting_optionalExpression strip update) fun loop => emitting_statement strip loop body
  | _, .return value span => emitting_return (emitting_optionalExpression strip value)
  | loop, .exit how span => emitting_exitLoop loop how span

theorem emitting_statements (strip : Bool) :
    (loop : Option Loop) → (ss : List Stmt) → Emitting (statements strip loop ss)
  | _, [] => fun c => .refl c
  | loop, s :: ss => fun c =>
    (emitting_statement strip loop s c).trans (emitting_statements strip loop ss _)

theorem emitting_optionalStatement (strip : Bool) :
    (loop : Option Loop) → (s : Option Stmt) → Emitting (optionalStatement strip loop s)
  | _, none => fun c => .refl c
  | loop, some s => emitting_statement strip loop s

theorem emitting_optionalExpression (strip : Bool) :
    (e : Option Expr) → EmittingOption (optionalExpression strip e)
  | none => fun c => .refl c
  | some e => fun c => emitting_expression strip e c

theorem emitting_methodClosures (strip : Bool) (span : Span) :
    (ms : List Method) → Emitting (methodClosures strip span ms)
  | [] => fun c => .refl c
  | ⟨_, _, body⟩ :: ms => fun c =>
    (emitting_function (emitting_statements strip none body) (gives_lands_statements strip none body)
      c).trans (emitting_methodClosures strip span ms _)

end

end Lowering

end StackScript
