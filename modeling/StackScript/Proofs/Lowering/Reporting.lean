import StackScript.Proofs.Lowering.Hoisting
import StackScript.Proofs.Lowering.Output
import StackScript.Proofs.Lowering.Violations

/-!
# What is reported

Compiling a part of a program reports the first of its violations, unless the current statement at
the top level has been reported before. What later violations declare is declared nevertheless, so
that the statements behind them are judged like any others.

Each part leads from a context that sees its outlook to one that sees the outlook behind it, and
adds nothing to the names of the functions around.
-/

namespace StackScript

namespace Globals

variable {g : Globals} {name name' : String} {initialized : Bool} {ns : List String}

theorem isFree_markInitialized_iff {slot : Nat} (hs : g.slot? name = some slot)
    (hf : g.isInitialized slot = false) :
    (g.markInitialized slot).IsFree name' ↔ name' ≠ name ∧ g.IsFree name' := by
  refine ⟨fun h => isFree_of_markInitialized hs h hf, fun ⟨hne, h⟩ i hi => ?_⟩
  rw [slot?_markInitialized] at hi
  have hslot : slot ≠ i := by
    rintro rfl
    obtain ⟨_, hname, -⟩ := List.findIdx?_eq_some_iff_getElem.1 hs
    obtain ⟨_, hname', -⟩ := List.findIdx?_eq_some_iff_getElem.1 hi
    exact hne ((of_decide_eq_true hname').symm.trans (of_decide_eq_true hname))
  rw [isInitialized_markInitialized_of_ne hslot]
  exact h i hi

/-- A new global is added behind the others. -/
theorem isFree_append_iff (hs : name ∉ g.names) :
    (Globals.mk (g.entries ++ [⟨name, initialized⟩])).IsFree name' ↔
      (name' = name → initialized = false) ∧ g.IsFree name' := by
  have hslot : (Globals.mk (g.entries ++ [⟨name, initialized⟩])).slot? name' =
      (g.slot? name').or (if name = name' then some g.entries.length else none) := by
    unfold slot?
    rw [List.findIdx?_append]
    by_cases h : name = name' <;> simp [h]
  have hold {i : Nat} (hi : i < g.entries.length) :
      (Globals.mk (g.entries ++ [⟨name, initialized⟩])).isInitialized i = g.isInitialized i := by
    simp only [isInitialized, get?]
    rw [List.getElem?_append_left hi]
  have hlt {i : Nat} (hi : g.slot? name' = some i) : i < g.entries.length :=
    (List.findIdx?_eq_some_iff_getElem.1 hi).1
  unfold IsFree
  rw [hslot]
  cases hg : g.slot? name' with
  | some i =>
    have hne : name' ≠ name := fun h => hs (h ▸ slot?_isSome_iff.1 ⟨i, hg⟩)
    simp [hne, hold (hlt hg)]
  | none =>
    by_cases h : name = name'
    · simp [h, isInitialized, get?]
    · simp [h, Ne.symm h]

theorem mem_names_declare_iff :
    name' ∈ (g.declare name initialized).names ↔ name' ∈ g.names ∨ name' = name := by
  by_cases h : name ∈ g.names
  · rw [declare_of_mem h]
    exact (or_iff_left_of_imp fun he => he ▸ h).symm
  · rw [declare_of_not_mem h]
    simp [names]

theorem mem_names_foldl_iff :
    name ∈ (ns.foldl (fun g name => g.declare name initialized) g).names ↔
      name ∈ g.names ∨ name ∈ ns := by
  induction ns generalizing g with
  | nil => simp
  | cons n ns ih => rw [List.foldl_cons, ih, mem_names_declare_iff, List.mem_cons, or_assoc]

theorem isFree_declare_iff :
    (g.declare name initialized).IsFree name' ↔
      (name' = name → initialized = true → name ∈ g.names) ∧ g.IsFree name' := by
  by_cases h : name ∈ g.names
  · rw [declare_of_mem h]
    exact (and_iff_right fun _ _ => h).symm
  · rw [declare_of_not_mem h, isFree_append_iff h]
    simp [h]

theorem isFree_foldl_false_iff :
    (ns.foldl (fun g name => g.declare name false) g).IsFree name ↔ g.IsFree name := by
  induction ns generalizing g with
  | nil => exact Iff.rfl
  | cons n ns ih =>
    rw [List.foldl_cons, ih, isFree_declare_iff]
    simp

theorem isFree_foldl_true_iff :
    (ns.foldl (fun g name => g.declare name true) g).IsFree name ↔
      (name ∈ ns → name ∈ g.names) ∧ g.IsFree name := by
  induction ns generalizing g with
  | nil => simp
  | cons n ns ih =>
    rw [List.foldl_cons, ih, isFree_declare_iff, mem_names_declare_iff, List.mem_cons]
    constructor
    · rintro ⟨h, h', hf⟩
      refine ⟨?_, hf⟩
      rintro (rfl | hm)
      · exact h' rfl rfl
      · exact (h hm).elim id fun he => he ▸ h' he rfl
    · rintro ⟨h, hf⟩
      exact ⟨fun hm => .inl (h (.inr hm)), fun he _ => he ▸ h (.inl he), hf⟩

end Globals

namespace Scope

theorem mem_labels_iff_slot? {s : Scope} {name : String} :
    (∃ slot, s.slot? name = some slot) ↔ name ∈ s.labels.map Prod.fst := by
  unfold slot? labels
  induction s.locals with
  | nil => simp [slotIn?]
  | cons l ls ih =>
    unfold slotIn?
    by_cases h : l.name = name
    · simp [h, Local.label]
    · rw [if_neg h, ih]
      simp [Local.label, Ne.symm h]

theorem declares_iff {s : Scope} {name : String} :
    s.declares name = true ↔ name ∈ (s.labels.takeWhile (s.depth ≤ ·.2)).map Prod.fst := by
  unfold declares innermost labels
  rw [List.takeWhile_map, List.map_map]
  simp only [List.any_eq_true, decide_eq_true_eq, List.mem_map, Function.comp_apply]
  rfl

end Scope

namespace Lowering

variable {c : Context} {name : String} {id : Ident} {vs : List Diagnostic} {o' : Outlook}

/-! ## Messages -/

namespace Context

variable {c c' c'' : Context} {vs ws : List Diagnostic} {o : Outlook}

/-- The messages once the violations have been found. -/
def heard (c : Context) (vs : List Diagnostic) : List Diagnostic :=
  c.messages ++ if c.muted then [] else vs.head?.toList

/-- From one point of the compilation to a later one the violations have been found. Only a jump that
is too far stops the compilation. -/
structure Told (vs : List Diagnostic) (c c' : Context) : Prop where
  halted : c.fatal ≠ none → c'.fatal = c.fatal ∧ c'.messages = c.messages
  heard : c.fatal = none → c'.fatal = none →
    c'.messages = c.heard vs ∧ c'.muted = (c.muted || !vs.isEmpty)
  stopped : c.fatal = none → ∀ d, c'.fatal = some d →
    (∃ n, d.cause = .jumpTooFar n) ∧ c'.messages <+: c.heard vs

theorem heard_nil (c : Context) : c.heard [] = c.messages := by
  unfold heard
  split <;> simp

theorem heard_isPrefix (c : Context) (vs ws : List Diagnostic) : c.heard vs <+: c.heard (vs ++ ws) := by
  unfold heard
  cases vs with
  | nil => exact (List.prefix_append_right_inj _).2 (by split <;> simp)
  | cons v vs => exact List.prefix_refl _

/-- What is heard after the first violations are known. -/
theorem heard_append (hm : c'.messages = c.heard vs) (hmuted : c'.muted = (c.muted || !vs.isEmpty))
    (ws : List Diagnostic) : c'.heard ws = c.heard (vs ++ ws) := by
  unfold heard at hm ⊢
  rw [hm, hmuted]
  cases vs with
  | nil => cases c.muted <;> simp
  | cons v vs => cases c.muted <;> simp

theorem Told.trans (h : Told vs c c') (h' : Told ws c' c'') : Told (vs ++ ws) c c'' where
  halted hc := by
    obtain ⟨hf, hm⟩ := h.halted hc
    obtain ⟨hf', hm'⟩ := h'.halted (hf ▸ hc)
    exact ⟨hf'.trans hf, hm'.trans hm⟩
  heard hc hc'' := by
    have hc' : c'.fatal = none := by
      by_contra hne
      exact hne ((h'.halted hne).1.symm.trans hc'')
    obtain ⟨hm, hmuted⟩ := h.heard hc hc'
    obtain ⟨hm', hmuted'⟩ := h'.heard hc' hc''
    refine ⟨hm'.trans (heard_append hm hmuted ws), ?_⟩
    rw [hmuted', hmuted]
    cases vs <;> simp
  stopped hc d hd := by
    cases hc' : c'.fatal with
    | none =>
      obtain ⟨hm, hmuted⟩ := h.heard hc hc'
      obtain ⟨hn, hp⟩ := h'.stopped hc' d hd
      exact ⟨hn, heard_append hm hmuted ws ▸ hp⟩
    | some d' =>
      obtain ⟨hf, hm⟩ := h'.halted (by rw [hc']; simp)
      obtain ⟨hn, hp⟩ := h.stopped hc d (hf ▸ hd)
      rw [hm]
      exact ⟨hn, hp.trans (heard_isPrefix c vs ws)⟩

/-- Only the first violation matters. -/
theorem Told.of_head (h : Told vs c c') (hv : vs.head? = ws.head?) : Told ws c c' := by
  have hh : c.heard vs = c.heard ws := by
    unfold Context.heard
    rw [hv]
  have he : vs.isEmpty = ws.isEmpty := by
    cases vs <;> cases ws <;> first | rfl | cases hv
  refine ⟨h.halted, ?_, ?_⟩
  · rw [← hh, ← he]
    exact h.heard
  · rw [← hh]
    exact h.stopped

/-- What concerns no messages tells nothing. -/
theorem Told.of_eq (hm : c'.messages = c.messages) (hmuted : c'.muted = c.muted)
    (hf : c'.fatal = c.fatal) : Told [] c c' where
  halted _ := ⟨hf, hm⟩
  heard _ _ := ⟨hm.trans (heard_nil c).symm, by simp [hmuted]⟩
  stopped hc d hd := by
    rw [hf, hc] at hd
    cases hd

theorem told_report (cause : Diagnostic.Cause) (span : Span) (c : Context) :
    Told [⟨cause, span⟩] c (report cause span c).2 := by
  rw [report_eq]
  split
  · rename_i h
    refine ⟨fun _ => ⟨rfl, rfl⟩, fun hc _ => ?_, fun hc d hd => ?_⟩
    · have hmuted : c.muted = true := by simpa [hc] using h
      simp [Context.heard, hmuted]
    · rw [hc] at hd
      cases hd
  · rename_i h
    simp only [Bool.or_eq_true, not_or, Bool.not_eq_true, Option.isSome_eq_false_iff,
      Option.isNone_iff_eq_none] at h
    refine ⟨fun hc => absurd h.2 hc, fun _ _ => ?_, fun _ d hd => ?_⟩
    · simp [Context.heard, h.1]
    · rw [show c.fatal = some d from hd] at h
      cases h.2

theorem told_checkJumps (code : Fragment) (c : Context) : Told [] c (checkJumps code c).2 := by
  unfold checkJumps
  cases code.farJump? 0 with
  | none => exact .of_eq rfl rfl rfl
  | some j =>
    have he : (abort (.jumpTooFar j.1) j.2 c).2 =
      if c.fatal.isSome then c else { c with fatal := some ⟨.jumpTooFar j.1, j.2⟩ } := rfl
    show Told [] c (abort (.jumpTooFar j.1) j.2 c).2
    rw [he]
    split
    · exact .of_eq rfl rfl rfl
    · rename_i h
      refine ⟨fun hc => absurd (by simpa using h) hc, fun _ hf => ?_, fun _ d hd => ?_⟩
      · cases hf
      · cases hd
        exact ⟨⟨j.1, rfl⟩, by simp [heard_nil]⟩

/-! ## What is in sight -/

/-- The context sees what the outlook says. -/
structure Sees (c : Context) (o : Outlook) : Prop where
  scope : c.isTop = false → ∀ name, c.frame.scope.declares name = true ↔ name ∈ o.scope
  locals : ∀ name, name ∈ namesOf (c.frame :: c.enclosing) ↔ name ∈ o.locals
  globals : ∀ name, name ∈ c.globals.names ↔ name ∈ o.globals
  ready : ∀ name, c.globals.IsFree name ↔ name ∉ o.ready
  isTop : c.isTop = o.isTop
  inFunction : c.enclosing.isEmpty = !o.inFunction

/-- From one point of the compilation to a later one the innermost scope has got more locals and
nothing else has changed that can be seen from a function. -/
structure Extends (c c' : Context) : Prop where
  depth : c'.frame.scope.depth = c.frame.scope.depth
  labels : ∃ added, c'.frame.scope.labels = added ++ c.frame.scope.labels ∧
    ∀ l ∈ added, l.2 = c.frame.scope.depth
  enclosing : List.Forall₂ Frame.Passes c.enclosing c'.enclosing
  globals : c.isTop = false → c'.globals = c.globals

/-- The same is in sight. -/
structure SameSight (c c' : Context) : Prop where
  depth : c'.frame.scope.depth = c.frame.scope.depth
  labels : c'.frame.scope.labels = c.frame.scope.labels
  enclosing : List.Forall₂ Frame.Passes c.enclosing c'.enclosing
  globals : c'.globals = c.globals

theorem isEmpty_of_passes {fs gs : List Frame} (h : List.Forall₂ Frame.Passes fs gs) :
    gs.isEmpty = fs.isEmpty := by
  cases h <;> rfl

theorem passes_refl (fs : List Frame) : List.Forall₂ Frame.Passes fs fs :=
  List.forall₂_same.2 fun f _ => .refl f

theorem SameSight.extends (h : SameSight c c') : c.Extends c' :=
  ⟨h.depth, ⟨[], h.labels, nofun⟩, h.enclosing, fun _ => h.globals⟩

theorem SameSight.refl (c : Context) : SameSight c c := ⟨rfl, rfl, passes_refl _, rfl⟩

theorem Extends.isTop (h : c.Extends c') : c'.isTop = c.isTop := by
  unfold Context.isTop
  rw [isEmpty_of_passes h.enclosing, h.depth]

theorem Extends.bounded (h : c.Extends c') (hb : c.frame.scope.Bounded) :
    c'.frame.scope.Bounded := by
  obtain ⟨added, hl, ha⟩ := h.labels
  intro l hm
  rw [hl] at hm
  rw [h.depth]
  rcases List.mem_append.1 hm with hm | hm
  · exact Nat.le_of_eq (ha l hm)
  · exact hb l hm

theorem Extends.trans (h : c.Extends c') (h' : c'.Extends c'') : c.Extends c'' := by
  obtain ⟨added, hl, ha⟩ := h.labels
  obtain ⟨added', hl', ha'⟩ := h'.labels
  refine ⟨h'.depth.trans h.depth, ⟨added' ++ added, ?_, ?_⟩,
    forall₂_passes_trans h.enclosing h'.enclosing,
    fun ht => (h'.globals (h.isTop.trans ht)).trans (h.globals ht)⟩
  · rw [hl', hl, List.append_assoc]
  · intro l hm
    rcases List.mem_append.1 hm with hm | hm
    · rw [ha' l hm, h.depth]
    · exact ha l hm

theorem Sees.congr (h : c.Sees o) (hs : SameSight c c') :
    c'.Sees o where
  scope ht name := by
    rw [Scope.declares_iff, hs.labels, hs.depth, ← Scope.declares_iff]
    exact h.scope (hs.extends.isTop.symm.trans ht) name
  locals name := by
    rw [namesOf_cons, hs.labels, namesOf_passes hs.enclosing]
    exact h.locals name
  globals name := by
    rw [hs.globals]
    exact h.globals name
  ready name := by
    rw [hs.globals]
    exact h.ready name
  isTop := hs.extends.isTop.trans h.isTop
  inFunction := (isEmpty_of_passes hs.enclosing).trans h.inFunction

/-- A part of the compilation leads from one place of the program to another and finds the violations
in between. -/
structure Walks (vs : List Diagnostic) (o' : Outlook) (c c' : Context) : Prop where
  sees : c'.Sees o'
  extends' : c.Extends c'
  told : c.Told vs c'

theorem Walks.trans {o' : Outlook} (h : Walks vs o c c') (h' : Walks ws o' c' c'') :
    Walks (vs ++ ws) o' c c'' :=
  ⟨h'.sees, h.extends'.trans h'.extends', h.told.trans h'.told⟩

theorem Walks.of_sameSight (h : c.Sees o) (hs : SameSight c c') (ht : c.Told vs c') :
    Walks vs o c c' := ⟨h.congr hs, hs.extends, ht⟩

end Context

/-- A part of the compilation, begun where the first outlook is seen, finds the violations and ends
where the second outlook is seen. -/
def Reports {α : Type} (o : Outlook) (vs : List Diagnostic) (o' : Outlook) (x : Lower α) : Prop :=
  ∀ c : Context, c.Sees o → c.frame.scope.Bounded → Context.Walks vs o' c (x c).2

namespace Reports

variable {α β : Type} {o o' o'' : Outlook} {vs ws : List Diagnostic}

theorem pure (a : α) : Reports o [] o (pure a : Lower α) := fun c hc _ =>
  .of_sameSight hc (.refl c) (.of_eq rfl rfl rfl)

theorem bind {x : Lower α} {f : α → Lower β} (hx : Reports o vs o' x)
    (hf : ∀ a, Reports o' ws o'' (f a)) : Reports o (vs ++ ws) o'' (x >>= f) := fun c hc hb => by
  have h := hx c hc hb
  exact h.trans (hf _ _ h.sees (h.extends'.bounded hb))

/-- A part without violations may follow. -/
theorem andThen {x : Lower α} {f : α → Lower β} (hx : Reports o vs o' x)
    (hf : ∀ a, Reports o' [] o'' (f a)) : Reports o vs o'' (x >>= f) :=
  List.append_nil vs ▸ hx.bind hf

theorem andReturn {x : Lower α} (hx : Reports o vs o' x) (f : α → β) :
    Reports o vs o' (x >>= fun a => Pure.pure (f a)) := hx.andThen fun a => pure (f a)

/-- What is looked at is known from the outlook. -/
theorem look {x : Lower α} {f : α → Lower β} {a : α} (hx : ∀ c : Context, c.Sees o → x c = (a, c))
    (hf : Reports o vs o' (f a)) : Reports o vs o' (x >>= f) := fun c hc hb => by
  have he : (x >>= f) c = f a c := by
    show f (x c).1 (x c).2 = _
    rw [hx c hc]
  rw [he]
  exact hf c hc hb

/-- What is looked at does not matter. -/
theorem read {x : Lower α} {f : α → Lower β} (hx : ∀ c, (x c).2 = c)
    (hf : ∀ a, Reports o vs o' (f a)) : Reports o vs o' (x >>= f) := fun c hc hb => by
  have he : (x >>= f) c = f (x c).1 c := by
    show f (x c).1 (x c).2 = _
    rw [hx c]
  rw [he]
  exact hf _ c hc hb

end Reports

section

variable {o : Outlook}

theorem reports_report (cause : Diagnostic.Cause) (span : Span) :
    Reports o [⟨cause, span⟩] o (report cause span) := fun c hc _ => by
  refine .of_sameSight hc ?_ (Context.told_report cause span c)
  rw [report_eq]
  split
  · exact .refl c
  · exact ⟨rfl, rfl, Context.passes_refl _, rfl⟩

theorem reports_constant (k : Constant) : Reports o [] o (constant k) := fun _ hc _ =>
  .of_sameSight hc ⟨rfl, rfl, Context.passes_refl _, rfl⟩ (.of_eq rfl rfl rfl)

theorem reports_pushConstant (k : Constant) (span : Span) : Reports o [] o (pushConstant k span) :=
  (reports_constant k).andReturn _

theorem reports_literal (l : Literal) (span : Span) : Reports o [] o (literal l span) := by
  cases l with
  | bool b => cases b <;> exact .pure _
  | nil | void => exact .pure _
  | _ => exact reports_pushConstant _ span

theorem mem_namesOf_iff {fs : List Frame} :
    name ∈ namesOf fs ↔ (namesOf fs).findIdx? (· = name) ≠ none := by
  rw [Ne, List.findIdx?_eq_none_iff]
  simp

theorem not_mem_namesOf (hl : c.frame.scope.slot? name = none)
    (hf : captureFrom name c.frame c.enclosing = none) :
    name ∉ namesOf (c.frame :: c.enclosing) := by
  rw [mem_namesOf_iff, not_not, findIdx?_namesOf_cons, hl, findIdx?_of_captureFrom_none hf]
  rfl

theorem mem_namesOf_of_captureFrom {f f' : Frame} {gs gs' : List Frame} {i : Nat}
    (h : captureFrom name f gs = some (i, f', gs')) : name ∈ namesOf gs := by
  induction gs generalizing f f' gs' i with
  | nil => cases h
  | cons g gs ih =>
    rw [namesOf_cons, List.mem_append]
    rcases captureFrom_cons h with ⟨slot, hs, -⟩ | ⟨-, _, _, _, hrec, -⟩
    · exact .inl (Scope.mem_labels_iff_slot?.1 ⟨slot, hs⟩)
    · exact .inr (ih hrec)

/-- A name that means nothing is reported. -/
theorem reports_resolve (id : Ident) : Reports o (o.misuse id) o (resolve id) := by
  intro c hc hb
  have hin {name : String} (h : name ∈ namesOf (c.frame :: c.enclosing)) :
      name ∈ o.locals := (hc.locals name).1 h
  unfold Outlook.misuse
  rcases resolve_cases id c with ⟨slot, hs, he⟩ | ⟨-, i, f, gs, hf, he⟩ |
    ⟨hl, hf, slot, hs, hi, he⟩ | ⟨cause, ⟨hl, hf, hcause⟩, he⟩
  · rw [if_pos (hin (List.mem_append_left _ (Scope.mem_labels_iff_slot?.1 ⟨slot, hs⟩))), he]
    exact .of_sameSight hc (.refl c) (.of_eq rfl rfl rfl)
  · rw [if_pos (hin (List.mem_append_right _ (mem_namesOf_of_captureFrom hf))), he]
    obtain ⟨hcap, hpasses, -⟩ := captureFrom_spec hf
    exact .of_sameSight hc ⟨congrArg Scope.depth hcap.scope, congrArg Scope.labels hcap.scope,
      hpasses, rfl⟩ (.of_eq rfl rfl rfl)
  all_goals rw [if_neg fun h => not_mem_namesOf hl hf ((hc.locals id.name).2 h), he]
  · have hknown : id.name ∈ o.globals :=
      (hc.globals id.name).1 (Globals.slot?_isSome_iff.1 ⟨slot, hs⟩)
    have hready : ¬ (o.isTop = true ∧ id.name ∉ o.ready) := by
      rintro ⟨ht, hr⟩
      have hfree := (hc.ready id.name).2 hr slot hs
      rcases hi with hi | hi
      · rw [hfree] at hi
        cases hi
      · exact absurd (hc.isTop.trans ht) (by rw [show c.isTop = false from hi]; simp)
    rw [if_neg (not_not.2 hknown), if_neg hready]
    exact .of_sameSight hc (.refl c) (.of_eq rfl rfl rfl)
  · rcases hcause with ⟨hs, rfl⟩ | ⟨slot, hs, hi, ht, rfl⟩
    · have hknown : id.name ∉ o.globals := by
        intro h
        obtain ⟨slot, h⟩ := Globals.slot?_isSome_iff.2 ((hc.globals id.name).2 h)
        rw [hs] at h
        cases h
      rw [if_pos hknown]
      exact reports_report _ _ c hc hb
    · have hknown : id.name ∈ o.globals :=
        (hc.globals id.name).1 (Globals.slot?_isSome_iff.1 ⟨slot, hs⟩)
      have hready : id.name ∉ o.ready := (hc.ready id.name).1 fun i hi' => by
        rw [hs] at hi'
        cases hi'
        exact hi
      rw [if_neg (not_not.2 hknown), if_pos ⟨hc.isTop.symm.trans ht, hready⟩]
      exact reports_report _ _ c hc hb

/-! ## Declarations -/

theorem walks_addLocal (id : Ident) (hc : c.Sees o) (ht : o.isTop = false) :
    Context.Walks [] (o.declare id) c (addLocal id.name c).2 := by
  have htop : c.isTop = false := hc.isTop.trans ht
  rw [Outlook.declare_of_not_isTop ht]
  refine ⟨⟨fun _ name => ?_, fun name => ?_, hc.globals, hc.ready, htop.trans ht.symm,
    hc.inFunction⟩, ⟨rfl, ⟨[(id.name, c.frame.scope.depth)], rfl, ?_⟩, Context.passes_refl _,
    fun _ => rfl⟩, .of_eq rfl rfl rfl⟩
  · rw [Scope.declares_iff]
    show name ∈ (((id.name, c.frame.scope.depth) :: c.frame.scope.labels).takeWhile
      (c.frame.scope.depth ≤ ·.2)).map Prod.fst ↔ _
    rw [List.takeWhile_cons_of_pos (by simp), List.map_cons, List.mem_cons, ← Scope.declares_iff,
      hc.scope htop, List.mem_cons]
  · show name ∈ id.name :: namesOf (c.frame :: c.enclosing) ↔ name ∈ id.name :: o.locals
    rw [List.mem_cons, hc.locals, List.mem_cons]
  · intro l hl
    rw [List.mem_singleton.1 hl]

theorem sees_declare_of_mem_ready (hc : c.Sees o) (ht : o.isTop = true) (h : id.name ∈ o.ready) :
    c.Sees (o.declare id) := by
  have hknown : id.name ∈ o.globals := by
    refine (hc.globals id.name).1 ?_
    by_contra hno
    exact (hc.ready id.name).1 (fun slot hs =>
      absurd (Globals.slot?_isSome_iff.1 ⟨slot, hs⟩) hno) h
  rw [Outlook.declare_of_isTop ht]
  refine ⟨hc.scope, hc.locals, fun name => ?_, fun name => ?_, hc.isTop, hc.inFunction⟩
  · rw [hc.globals, List.mem_cons, or_iff_right_of_imp fun h => h ▸ hknown]
  · rw [hc.ready, List.mem_cons, or_iff_right_of_imp fun h' => h' ▸ h]

theorem sees_declare_of_mem_scope (hc : c.Sees o) (ht : o.isTop = false) (h : id.name ∈ o.scope) :
    c.Sees (o.declare id) := by
  have htop : c.isTop = false := hc.isTop.trans ht
  have hlocal : id.name ∈ o.locals := by
    refine (hc.locals id.name).1 (List.mem_append_left _ ?_)
    have := Scope.declares_iff.1 ((hc.scope htop id.name).2 h)
    exact List.map_subset _ (List.takeWhile_subset _) this
  rw [Outlook.declare_of_not_isTop ht]
  refine ⟨fun _ name => ?_, fun name => ?_, hc.globals, hc.ready, hc.isTop, hc.inFunction⟩
  · rw [hc.scope htop, List.mem_cons, or_iff_right_of_imp fun h' => h' ▸ h]
  · rw [hc.locals, List.mem_cons, or_iff_right_of_imp fun h => h ▸ hlocal]

/-- A global that is declared can be used from now on. -/
theorem walks_declareGlobal (id : Ident) (hc : c.Sees o) (ht : o.isTop = true)
    (hb : c.frame.scope.Bounded) :
    Context.Walks (o.clash id) (o.declare id) c (declareGlobal id c).2 := by
  have hnot {g : Globals} : c.isTop = false → g = c.globals := fun h => by
    rw [hc.isTop, ht] at h
    cases h
  have hfree (h : ∀ slot, c.globals.slot? id.name = some slot → c.globals.isInitialized slot = false) :
      id.name ∉ o.ready := (hc.ready id.name).1 h
  rw [Outlook.clash_of_isTop ht]
  rcases declareGlobal_cases id c with ⟨slot, hs, hi, he⟩ | ⟨hs, he⟩ | ⟨slot, hs, hi, he⟩
  · have hknown : id.name ∈ o.globals :=
      (hc.globals id.name).1 (Globals.slot?_isSome_iff.1 ⟨slot, hs⟩)
    rw [if_neg (hfree fun i h => by cases hs.symm.trans h; exact hi), he, Outlook.declare_of_isTop ht]
    refine ⟨⟨hc.scope, hc.locals, fun name => ?_, fun name => ?_, hc.isTop, hc.inFunction⟩,
      ⟨rfl, ⟨[], rfl, nofun⟩, Context.passes_refl _, hnot⟩, .of_eq rfl rfl rfl⟩
    · rw [Globals.names_markInitialized, hc.globals, List.mem_cons,
        or_iff_right_of_imp fun h => h ▸ hknown]
    · rw [Globals.isFree_markInitialized_iff hs hi, hc.ready, List.mem_cons, not_or]
  · have hno : id.name ∉ c.globals.names := fun h => by
      obtain ⟨slot, h⟩ := Globals.slot?_isSome_iff.2 h
      cases hs.symm.trans h
    rw [if_neg (hfree fun i h => by cases hs.symm.trans h), he, Outlook.declare_of_isTop ht]
    refine ⟨⟨hc.scope, hc.locals, fun name => ?_, fun name => ?_, hc.isTop, hc.inFunction⟩,
      ⟨rfl, ⟨[], rfl, nofun⟩, Context.passes_refl _, hnot⟩, .of_eq rfl rfl rfl⟩
    · have hmem : name ∈ (Globals.mk (c.globals.entries ++ [⟨id.name, true⟩])).names ↔
          name ∈ c.globals.names ∨ name = id.name := by
        simp [Globals.names]
      rw [hmem, hc.globals, List.mem_cons, or_comm]
    · rw [Globals.isFree_append_iff hno, hc.ready, List.mem_cons, not_or]
      simp
  · have hready : id.name ∈ o.ready := by
      by_contra h
      have := (hc.ready id.name).2 h slot hs
      rw [hi] at this
      cases this
    rw [if_pos hready, he]
    have hw := reports_report (.redeclared id.name) id.span c hc hb
    exact ⟨sees_declare_of_mem_ready hw.sees ht hready, hw.extends', hw.told⟩

theorem walks_declareLocal (id : Ident) (hc : c.Sees o) (ht : o.isTop = false)
    (hb : c.frame.scope.Bounded) :
    Context.Walks (o.clash id) (o.declare id) c (declareLocal id c).2 := by
  have htop : c.isTop = false := hc.isTop.trans ht
  rw [declareLocal_eq, Outlook.clash_of_not_isTop ht]
  by_cases hm : id.name ∈ o.scope
  · rw [if_pos hm, if_pos ((hc.scope htop id.name).2 hm)]
    have hw := reports_report (.redeclared id.name) id.span c hc hb
    exact ⟨sees_declare_of_mem_scope hw.sees ht hm, hw.extends', hw.told⟩
  · rw [if_neg hm, if_neg fun h => hm ((hc.scope htop id.name).1 h)]
    exact walks_addLocal id hc ht

theorem reports_declare (id : Ident) : Reports o (o.clash id) (o.declare id) (declare id) := by
  intro c hc hb
  have he : declare id c = (if c.isTop then declareGlobal id else declareLocal id) c := rfl
  rw [he, hc.isTop]
  cases ht : o.isTop with
  | true => exact walks_declareGlobal id hc ht hb
  | false => exact walks_declareLocal id hc ht hb

theorem reports_declareParams {ids : List Ident} (ht : o.isTop = false) :
    Reports o (o.clashes ids) (o.declareAll ids) (declareParams ids) := by
  induction ids generalizing o with
  | nil => exact .pure ()
  | cons id ids ih =>
    have hadd : Reports o ((o.declare id).clashes ids) (o.declareAll (id :: ids)) (do
        let _ ← addLocal id.name
        declareParams ids) :=
      Reports.bind (fun c hc _ => walks_addLocal id hc ht)
        fun _ => ih (o := o.declare id) (Outlook.isTop_declare.trans ht)
    intro c hc hb
    rw [declareParams_cons, Outlook.clashes, Outlook.clash_of_not_isTop ht]
    have hscope := hc.scope (hc.isTop.trans ht) id.name
    by_cases hm : id.name ∈ o.scope
    · rw [if_pos hm, if_pos (hscope.2 hm)]
      exact (reports_report (.redeclared id.name) id.span).bind (fun _ => hadd) c hc hb
    · rw [if_neg hm, if_neg fun h => hm (hscope.1 h)]
      exact hadd c hc hb

theorem reports_reportRepeated {p : Outlook} {seen : List String} {ids : List Ident}
    (hp : p.isTop = false) (hseen : ∀ name, name ∈ seen ↔ name ∈ p.scope) :
    Reports o (p.clashes ids) o (reportRepeated seen ids) := by
  induction ids generalizing p seen with
  | nil => exact .pure ()
  | cons id ids ih =>
    unfold reportRepeated Outlook.clashes
    rw [Outlook.clash_of_not_isTop hp]
    by_cases hm : id.name ∈ seen
    · rw [if_pos (List.contains_iff_mem.2 hm), if_pos ((hseen id.name).1 hm)]
      intro c hc hb
      have hw := reports_report (.redeclared id.name) id.span c hc hb
      exact ⟨hw.sees, hw.extends', hw.told.of_head rfl⟩
    · rw [if_neg fun h => hm (List.contains_iff_mem.1 h), if_neg fun h => hm ((hseen id.name).2 h)]
      refine ih (Outlook.isTop_declare.trans hp) fun name => ?_
      rw [Outlook.declare_of_not_isTop hp, List.mem_cons, List.mem_cons, hseen]

/-! ## Scopes and functions -/

theorem sees_enter (hc : c.Sees o) (hb : c.frame.scope.Bounded) :
    (modifyScope Scope.enter c).2.Sees o.enter where
  scope _ name := by
    have hnone : c.frame.scope.labels.takeWhile (c.frame.scope.depth + 1 ≤ ·.2) = [] := by
      cases hl : c.frame.scope.labels with
      | nil => rfl
      | cons l ls =>
        have : l.2 ≤ c.frame.scope.depth := hb l (by rw [hl]; exact List.mem_cons_self ..)
        exact List.takeWhile_cons_of_neg (by simpa using Nat.lt_succ_of_le this)
    rw [Scope.declares_iff]
    show name ∈ (c.frame.scope.labels.takeWhile (c.frame.scope.depth + 1 ≤ ·.2)).map Prod.fst ↔ _
    rw [hnone]
    exact Iff.rfl
  locals := hc.locals
  globals := hc.globals
  ready := hc.ready
  isTop := isTop_enter c
  inFunction := hc.inFunction

/-- Behind a scope the same is in sight as before it. -/
theorem walks_leaveScope {c' : Context} (span : Span) (hc : c.Sees o) (hb : c.frame.scope.Bounded)
    (h : Context.Walks vs o' (modifyScope Scope.enter c).2 c') :
    Context.Walks vs o c (leaveScope span c').2 := by
  obtain ⟨added, hl, ha⟩ := h.extends'.labels
  have hd : c'.frame.scope.depth = c.frame.scope.depth + 1 := h.extends'.depth
  refine .of_sameSight hc ⟨?_, ?_, h.extends'.enclosing, h.extends'.globals (isTop_enter c)⟩
    ⟨h.told.halted, h.told.heard, h.told.stopped⟩
  · show c'.frame.scope.depth - 1 = _
    rw [hd]
    rfl
  · refine Scope.labels_leave_of_append (s := c'.frame.scope) hl (fun l hm => ?_) fun l hm => ?_
    · exact Nat.le_of_eq (hd.trans (ha l hm).symm)
    · rw [hd]
      exact Nat.lt_succ_of_le (hb l hm)

theorem sees_inside (hc : c.Sees o) (self : String) :
    (c.inside self).Sees (o.inside self) where
  scope _ name := by
    rw [Scope.declares_iff]
    show name ∈ ([(self, c.frame.scope.depth + 1)].takeWhile
      (c.frame.scope.depth + 1 ≤ ·.2)).map Prod.fst ↔ _
    rw [List.takeWhile_cons_of_pos (by simp)]
    exact Iff.rfl
  locals name := by
    show name ∈ self :: namesOf (c.frame :: c.enclosing) ↔ name ∈ self :: o.locals
    rw [List.mem_cons, hc.locals, List.mem_cons]
  globals := hc.globals
  ready := hc.ready
  isTop := rfl
  inFunction := rfl

/-- Behind a function the same is in sight as before it. -/
theorem reports_function {self : String} {params : List Ident} {span : Span} {body : Lower Fragment}
    (hbody : Reports ((o.inside self).declareAll params) vs o' body) :
    Reports o ((o.inside self).clashes params ++ vs) o (function name self params span body) := by
  intro c hc hb
  rw [function_eq]
  have hw : Context.Walks _ o' (c.inside self) (withParams params body (c.inside self)).2 :=
    (reports_declareParams (o := o.inside self) rfl).bind (fun _ => hbody) _ (sees_inside hc self)
      (bounded_inside c self)
  set r := withParams params body (c.inside self)
  set c' := (checkJumps (returning r.1 span) r.2).2 with hc'
  have htold : Context.Told ((o.inside self).clashes params ++ vs ++ []) (c.inside self) c' :=
    hw.told.trans (Context.told_checkJumps (returning r.1 span) r.2)
  have hsame : c'.frame = r.2.frame ∧ c'.enclosing = r.2.enclosing ∧ c'.globals = r.2.globals := by
    rw [hc']
    unfold checkJumps
    cases (returning r.1 span).farJump? 0 with
    | none => exact ⟨rfl, rfl, rfl⟩
    | some j =>
      have he : (abort (.jumpTooFar j.1) j.2 r.2).2 =
        if r.2.fatal.isSome then r.2 else { r.2 with fatal := some ⟨.jumpTooFar j.1, j.2⟩ } := rfl
      show (abort (.jumpTooFar j.1) j.2 r.2).2.frame = _ ∧ _ ∧ _
      rw [he]
      split <;> exact ⟨rfl, rfl, rfl⟩
  obtain ⟨g, gs, hg, hgs, hframes⟩ := List.forall₂_cons_left_iff.1 hw.extends'.enclosing
  rw [List.append_nil] at htold
  show Context.Walks _ o c (close name params span (returning r.1 span) c').2
  refine .of_sameSight hc ⟨?_, ?_, ?_, ?_⟩ ⟨htold.halted, htold.heard, htold.stopped⟩
  · show (c'.enclosing.headD {}).scope.depth = _
    rw [hsame.2.1, hframes]
    exact hg.scope.depth
  · show (c'.enclosing.headD {}).scope.labels = _
    rw [hsame.2.1, hframes]
    exact hg.scope.labels
  · show List.Forall₂ _ c.enclosing c'.enclosing.tail
    rw [hsame.2.1, hframes]
    exact hgs
  · show c'.globals = c.globals
    rw [hsame.2.2]
    exact hw.extends'.globals rfl

/-! ## Expressions and statements -/

theorem reports_atTopLevel {α : Type} {f : Bool → Lower α} (h : Reports o vs o' (f o.isTop)) :
    Reports o vs o' (atTopLevel >>= f) :=
  .look (fun _ hc => Prod.ext hc.isTop rfl) h

theorem reports_exitLoop (loop : Option Loop) (how : LoopExit) (span : Span) :
    Reports o (Stmt.violations o loop.isSome (.exit how span)) o (exitLoop loop how span) := by
  cases loop with
  | none => exact (reports_report _ _).andReturn _
  | some loop => exact .read (fun _ => rfl) fun _ => .pure _

theorem reports_around {x y : Lower Fragment}
    (hx : o.isTop = true → Reports o (vs ++ o.clash id) (o.declare id) x)
    (hy : o.isTop = false → Reports o (o.clash id ++ vs) (o.declare id) y) :
    Reports o (if o.isTop then vs ++ o.clash id else o.clash id ++ vs) (o.declare id) (do
      if ← atTopLevel then x else y) := by
  refine reports_atTopLevel ?_
  cases ht : o.isTop with
  | true => exact hx ht
  | false => exact hy ht

theorem reports_for {strip : Bool} {init : Expr} {test update : Option Expr} {body : Stmt}
    {span : Span} (loop : Option Loop)
    (hi : Reports o.enter (init.violations o.enter) o.enter (expression strip init)) (hu : Reports
    (o.enter.declare id) (Expr.violationsOption (o.enter.declare id) update) (o.enter.declare id)
    (optionalExpression strip update)) (ht : Reports (o.enter.declare id) (Expr.violationsOption
    (o.enter.declare id) test) (o.enter.declare id) (optionalExpression strip test)) (hbody : ∀ loop
    : Loop, ∃ o', Reports ((o.enter.declare id).enter.declare id) (body.violations ((o.enter.declare
    id).enter.declare id) true) o' (statement strip (some loop) body)) :
    Reports o (Stmt.violations o loop.isSome (.for id init test update body span)) o
      (statement strip loop (.for id init test update body span)) := by
  intro c hc hb
  set c₁ := (modifyScope Scope.enter c).2
  have hc₁ : c₁.Sees o.enter := sees_enter hc hb
  have hb₁ : c₁.frame.scope.Bounded := bounded_enter hb
  have hinit := hi c₁ hc₁ hb₁
  set c₂ := (expression strip init c₁).2
  have houter := hinit.trans (walks_addLocal id hinit.sees rfl)
  set c₃ := (addLocal id.name c₂).2
  have hupdate := houter.trans (hu c₃ houter.sees (houter.extends'.bounded hb₁))
  set c₄ := (optionalExpression strip update c₃).2
  have htest := hupdate.trans (ht c₄ hupdate.sees (hupdate.extends'.bounded hb₁))
  set c₅ := (optionalExpression strip test c₄).2
  have hb₅ := htest.extends'.bounded hb₁
  set c₆ := (modifyScope Scope.enter c₅).2
  have hc₆ : c₆.Sees (o.enter.declare id).enter := sees_enter htest.sees hb₅
  have hinner := walks_addLocal id hc₆ rfl
  set c₇ := (addLocal id.name c₆).2
  set l : Loop := { depth := c₁.frame.scope.depth
                    carry := some ((addLocal id.name c₂).1, (addLocal id.name c₆).1) }
  obtain ⟨o', hrun⟩ := hbody l
  have hround := hinner.trans (hrun c₇ hinner.sees (hinner.extends'.bounded (bounded_enter hb₅)))
  have hleft := htest.trans (walks_leaveScope span htest.sees hb₅ hround)
  have hdone := walks_leaveScope span hc hb hleft
  simp only [List.append_nil, List.nil_append, List.append_assoc] at hdone
  have hcode : (statement strip loop (.for id init test update body span) c).2 =
    (leaveScope span (leaveScope span (statement strip (some l) body c₇).2).2).2 := rfl
  rw [hcode, Stmt.violations, List.append_assoc, List.append_assoc]
  exact hdone

end

mutual

theorem reports_expression (strip : Bool) : (e : Expr) → (o : Outlook) →
    Reports o (e.violations o) o (expression strip e)
  | .literal l span, o => by
    rw [Expr.violations]
    exact reports_literal l span
  | .name id span, o => by
    rw [Expr.violations]
    refine (reports_resolve id).andThen fun b => ?_
    cases b <;> exact .pure _
  | .binary op left right span, o | .logical op left right span, o => by
    rw [Expr.violations]
    exact (reports_expression strip left o).bind fun _ =>
      (reports_expression strip right o).andReturn _
  | .unary op operand span, o => by
    rw [Expr.violations]
    exact (reports_expression strip operand o).andReturn _
  | .assign target value span, o => by
    have hv := reports_expression strip value o
    cases target with
    | name id _ =>
      rw [Expr.violations]
      refine hv.bind fun _ => (reports_resolve id).andThen fun b => ?_
      cases b <;> exact .pure _
    | member object property _ =>
      rw [Expr.violations]
      exact (reports_expression strip object o).bind fun _ => hv.andThen fun _ =>
        (reports_constant _).andReturn _
    | _ =>
      rw [Expr.violations]
      · exact (reports_report _ _).bind fun _ => hv
      all_goals exact nofun
  | .call callee arguments span, o => by
    have ha := reports_expressions strip arguments o
    have hc := reports_expression strip callee o
    rw [Expr.violations]
    cases callee with
    | member object property _ =>
      rw [Expr.violations]
      exact (reports_expression strip object o).bind fun _ => ha.andThen fun _ =>
        (reports_constant _).andReturn _
    | _ => exact hc.bind fun _ => ha.andReturn _
  | .member object property span, o => by
    rw [Expr.violations]
    exact (reports_expression strip object o).andThen fun _ => (reports_constant _).andReturn _
  | .range first last inclusive span, o => by
    rw [Expr.violations]
    exact (reports_expression strip first o).bind fun _ =>
      (reports_expression strip last o).andReturn _
  | .arrow params body span, o => by
    rw [Expr.violations]
    exact reports_function ((reports_expression strip body _).andReturn _)
  | .lambda params body span, o => by
    rw [Expr.violations]
    obtain ⟨o', h⟩ := reports_statements strip none body ((o.inside "").declareAll params)
    exact reports_function h

theorem reports_expressions (strip : Bool) : (es : List Expr) → (o : Outlook) →
    Reports o (Expr.violationsAll o es) o (expressions strip es)
  | [], o => by
    rw [Expr.violationsAll]
    exact .pure _
  | e :: es, o => by
    rw [Expr.violationsAll]
    exact (reports_expression strip e o).bind fun _ => (reports_expressions strip es o).andReturn _

theorem reports_statement (strip : Bool) : (loop : Option Loop) → (s : Stmt) → (o : Outlook) →
    Reports o (s.violations o loop.isSome) (s.after o) (statement strip loop s)
  | loop, .variable id init span, o => by
    rw [Stmt.violations, Stmt.after]
    exact (reports_expression strip init o).bind fun _ => (reports_declare id).andReturn _
  | loop, .function id params body span, o => by
    have hf (p : Outlook) : Reports p ((p.inside "").clashes params ++
        Stmt.violationsAll ((p.inside "").declareAll params) false body) p
        (function id.name "" params span (statements strip none body)) := by
      obtain ⟨o', h⟩ := reports_statements strip none body ((p.inside "").declareAll params)
      exact reports_function h
    rw [Stmt.violations, Stmt.after]
    refine reports_around (fun ht => ?_) fun ht => ?_
    · rw [if_pos ht]
      exact (hf o).bind fun _ => (reports_declare id).andReturn _
    · rw [if_neg (by simp [ht])]
      exact (reports_declare id).bind fun _ => (hf _).andReturn _
  | loop, .record id fields methods span, o => by
    have hm (p : Outlook) := reports_methodClosures strip span methods p
    have hr (p : Outlook) (ids : List Ident) : Reports p (o.enter.clashes ids) p
        (reportRepeated [] ids) := reports_reportRepeated rfl fun _ => Iff.rfl
    have hk (p : Outlook) := reports_pushConstant (o := p)
      ⟨.record ⟨id.name, fields.map Ident.name, []⟩⟩ span
    rw [Stmt.violations, Stmt.after]
    refine reports_atTopLevel ?_
    cases ht : o.isTop with
    | true =>
      rw [if_pos rfl, if_pos rfl, List.append_assoc, List.append_assoc]
      exact .look (fun _ _ => rfl) ((hr o fields).bind fun _ => (hr o _).bind fun _ =>
        (hk o).bind fun _ => (hm o).bind fun _ => (reports_declare id).andReturn _)
    | false =>
      rw [if_neg Bool.false_ne_true, if_neg Bool.false_ne_true, List.append_assoc]
      exact Reports.bind (reports_declare id) fun b => (hr _ fields).bind fun _ =>
        (hr _ _).bind fun _ => (hk _).bind fun _ => (hm _).andThen fun _ => (Reports.pure b).andReturn _
  | loop, .expression e span, o => by
    have he := reports_expression strip e o
    rw [Stmt.violations, Stmt.after]
    cases e with
    | literal l literalSpan =>
      rw [Expr.violations]
      unfold statement
      split
      · exact .pure _
      · exact (reports_literal l literalSpan).andReturn _
    | name id nameSpan =>
      rw [Expr.violations]
      refine (reports_resolve id).andThen fun b => ?_
      cases b <;> exact .pure _
    | _ => exact he.andReturn _
  | loop, .block body span, o => by
    rw [Stmt.violations, Stmt.after]
    intro c hc hb
    obtain ⟨o', h⟩ := reports_statements strip loop body o.enter
    exact walks_leaveScope span hc hb (h _ (sees_enter hc hb) (bounded_enter hb))
  | loop, .cond test consequent alternate span, o => by
    rw [Stmt.violations, Stmt.after, List.append_assoc]
    exact (reports_expression strip test o).bind fun _ =>
      (reports_statement strip loop consequent o).bind fun _ =>
        (reports_optionalStatement strip loop alternate _).andReturn _
  | loop, .while test body span, o => by
    rw [Stmt.violations, Stmt.after]
    exact (reports_expression strip test o).bind fun _ => .read (fun _ => rfl) fun _ =>
      (reports_statement strip (some _) body o).andReturn _
  | loop, .loop body span, o => by
    rw [Stmt.violations, Stmt.after]
    exact .read (fun _ => rfl) fun _ => (reports_statement strip (some _) body o).andReturn _
  | loop, .forIn id iterable body span, o => by
    rw [Stmt.violations, Stmt.after]
    refine (reports_expression strip iterable o).bind fun _ => .read (fun _ => rfl) fun scope => ?_
    intro c hc hb
    have hc' := sees_enter hc hb
    have hd := reports_declare id _ hc' (bounded_enter hb)
    have hw := hd.trans (reports_statement strip (some { depth := scope.depth }) body _ _ hd.sees
      (hd.extends'.bounded (bounded_enter hb)))
    exact walks_leaveScope span hc hb hw
  | loop, .for id init test update body span, o => by
    rw [Stmt.after]
    exact reports_for loop (reports_expression strip init _)
      (reports_optionalExpression strip update _) (reports_optionalExpression strip test _)
      fun loop => ⟨_, reports_statement strip (some loop) body _⟩
  | loop, .return value span, o => by
    rw [Stmt.violations, Stmt.after]
    intro c hc hb
    rw [statement_return, hc.inFunction]
    cases o.inFunction with
    | false => exact ((reports_report _ _).andReturn _) c hc hb
    | true =>
      refine (reports_optionalExpression strip value o).andThen (fun value => ?_) c hc hb
      cases value <;> exact .pure _
  | loop, .exit how span, o => reports_exitLoop loop how span

theorem reports_statements (strip : Bool) : (loop : Option Loop) → (ss : List Stmt) →
    (o : Outlook) → ∃ o', Reports o (Stmt.violationsAll o loop.isSome ss) o' (statements strip loop ss)
  | _, [], o => by
    rw [Stmt.violationsAll]
    exact ⟨o, .pure _⟩
  | loop, s :: ss, o => by
    obtain ⟨o', h⟩ := reports_statements strip loop ss (s.after o)
    rw [Stmt.violationsAll]
    exact ⟨o', (reports_statement strip loop s o).bind fun _ => h.andReturn _⟩

theorem reports_optionalStatement (strip : Bool) : (loop : Option Loop) → (s : Option Stmt) →
    (o : Outlook) → Reports o (Stmt.violationsOption o loop.isSome s) (Stmt.afterOption o s)
      (optionalStatement strip loop s)
  | _, none, o => by
    rw [Stmt.violationsOption, Stmt.afterOption]
    exact .pure _
  | loop, some s, o => by
    rw [Stmt.violationsOption, Stmt.afterOption]
    exact reports_statement strip loop s o

theorem reports_optionalExpression (strip : Bool) : (e : Option Expr) → (o : Outlook) →
    Reports o (Expr.violationsOption o e) o (optionalExpression strip e)
  | none, o => by
    rw [Expr.violationsOption]
    exact .pure _
  | some e, o => by
    rw [Expr.violationsOption]
    exact (reports_expression strip e o).andReturn _

theorem reports_methodClosures (strip : Bool) (span : Span) : (ms : List Method) → (o : Outlook) →
    Reports o (Method.violationsAll o ms) o (methodClosures strip span ms)
  | [], o => by
    rw [Method.violationsAll]
    exact .pure _
  | ⟨id, params, body⟩ :: ms, o => by
    rw [Method.violationsAll]
    obtain ⟨o', h⟩ := reports_statements strip none body ((o.inside "self").declareAll params)
    exact (reports_function h).bind fun _ => (reports_methodClosures strip span ms o).andReturn _

end

/-! ## Programs -/

namespace Context

variable {c : Context}

/-- From one point of the compilation to a later one exactly the given messages have been added, unless
a jump that is too far has stopped the compilation. -/
structure Records (ds : List Diagnostic) (c c' : Context) : Prop where
  halted : c.fatal ≠ none → c'.fatal = c.fatal ∧ c'.messages = c.messages
  added : c.fatal = none → c'.fatal = none → c'.messages = c.messages ++ ds
  stopped : c.fatal = none → ∀ d, c'.fatal = some d →
    (∃ n, d.cause = .jumpTooFar n) ∧ c'.messages <+: c.messages ++ ds

theorem Records.trans {ds ds' : List Diagnostic} {c' c'' : Context} (h : Records ds c c')
    (h' : Records ds' c' c'') : Records (ds ++ ds') c c'' where
  halted hc := by
    obtain ⟨hf, hm⟩ := h.halted hc
    obtain ⟨hf', hm'⟩ := h'.halted (hf ▸ hc)
    exact ⟨hf'.trans hf, hm'.trans hm⟩
  added hc hc'' := by
    have hc' : c'.fatal = none := by
      by_contra hne
      exact hne ((h'.halted hne).1.symm.trans hc'')
    rw [h'.added hc' hc'', h.added hc hc', List.append_assoc]
  stopped hc d hd := by
    rw [← List.append_assoc]
    cases hc' : c'.fatal with
    | none => exact h.added hc hc' ▸ h'.stopped hc' d hd
    | some d' =>
      obtain ⟨hf, hm⟩ := h'.halted (by rw [hc']; simp)
      obtain ⟨hn, hp⟩ := h.stopped hc d (hf ▸ hd)
      rw [hm]
      exact ⟨hn, hp.trans (List.prefix_append _ _)⟩

/-- What is told while no statement has been reported. -/
theorem Told.records {vs : List Diagnostic} {c' : Context} (h : Told vs (unmute c).2 c') :
    Records vs.head?.toList c c' :=
  ⟨h.halted, fun hc hc' => (h.heard hc hc').1, h.stopped⟩

theorem Sees.unmute {o : Outlook} (h : c.Sees o) : (unmute c).2.Sees o :=
  { h with }

end Context

theorem records_topLevel (strip : Bool) (ss : List Stmt) {o : Outlook} (hc : c.Sees o)
    (hb : c.frame.scope.Bounded) :
    Context.Records (Stmt.firstViolations o ss) c (topLevel strip ss c).2 ∧
      ∀ name ∈ o.globals, name ∈ (topLevel strip ss c).2.globals.names := by
  induction ss generalizing o c with
  | nil =>
    refine ⟨⟨fun _ => ⟨rfl, rfl⟩, fun _ _ => (List.append_nil _).symm, fun h d hd => ?_⟩,
      fun name => (hc.globals name).2⟩
    cases h.symm.trans hd
  | cons s ss ih =>
    have hw := reports_statement strip none s o _ hc.unmute hb
    obtain ⟨hr, hg⟩ := ih hw.sees (hw.extends'.bounded hb)
    exact ⟨(Context.Told.records hw.told).trans hr,
      fun name h => hg name (s.globals_subset_after o h)⟩

theorem mem_names_hoist {program : Program} {options : Options} :
    name ∈ (hoist options program).names ↔
      name ∈ options.natives ∨ name ∈ Stmt.declaredNames program.body := by
  rw [hoist_eq, Globals.mem_names_foldl_iff, Globals.ofNatives, Globals.mem_names_foldl_iff]
  simp [Globals.names]

theorem sees_start (program : Program) (options : Options) :
    Context.Sees { globals := hoist options program } (program.outlook options) where
  scope h := by cases h
  locals _ := Iff.rfl
  globals name := by
    rw [mem_names_hoist]
    exact List.mem_append.symm
  ready name := by
    show (hoist options program).IsFree name ↔ name ∉ options.natives
    rw [hoist_eq, Globals.isFree_foldl_false_iff, Globals.ofNatives, Globals.isFree_foldl_true_iff]
    constructor
    · exact fun h hm => absurd (h.1 hm) List.not_mem_nil
    · exact fun h => ⟨fun hm => absurd hm h, (by rintro _ ⟨⟩)⟩
  isTop := rfl
  inFunction := rfl

/-- A declared function is among the declarations. -/
theorem mem_declaredNames_of_function {ss : List Stmt}
    (h : name ∈ (ss.filterMap Stmt.function?).map Ident.name) : name ∈ Stmt.declaredNames ss := by
  obtain ⟨id, hid, rfl⟩ := List.mem_map.1 h
  obtain ⟨s, hs, hf⟩ := List.mem_filterMap.1 hid
  refine List.mem_map.2 ⟨id, List.mem_filterMap.2 ⟨s, hs, ?_⟩, rfl⟩
  cases s <;> cases hf
  rfl

theorem records_entryCall (entry : String) {program : Program}
    (h : ∀ name ∈ (program.body.filterMap Stmt.function?).map Ident.name, name ∈ c.globals.names) :
    Context.Records (if entry ∈ (program.body.filterMap Stmt.function?).map Ident.name then []
      else [⟨.missingEntry entry, {}⟩]) c (entryCall entry program c).2 := by
  have hany : (program.body.filterMap Stmt.function?).any (·.name = entry) = true ↔
      entry ∈ (program.body.filterMap Stmt.function?).map Ident.name := by
    simp only [List.any_eq_true, decide_eq_true_eq, List.mem_map]
  rcases entryCall_cases entry program c with ⟨slot, -, ha, he⟩ | ⟨hmissing, he⟩
  · rw [he, if_pos (hany.1 ha)]
    exact (Context.Told.of_eq rfl rfl rfl).records
  · have hm : entry ∉ (program.body.filterMap Stmt.function?).map Ident.name := by
      intro hm
      rcases hmissing with hs | ha
      · obtain ⟨slot, hslot⟩ := Globals.slot?_isSome_iff.2 (h entry hm)
        rw [hs] at hslot
        cases hslot
      · rw [hany.2 hm] at ha
        cases ha
    rw [he, if_neg hm]
    exact (Context.told_report (.missingEntry entry) {} (unmute c).2).records

end Lowering

namespace Program

variable (program : Program) (options : Options)

theorem records_script : Lowering.Context.Records (program.violations options)
    { globals := Lowering.hoist options program }
    (Lowering.script options program { globals := Lowering.hoist options program }).2 := by
  set c : Lowering.Context := { globals := Lowering.hoist options program }
  obtain ⟨htop, hglobals⟩ := Lowering.records_topLevel options.strip program.body
    (Lowering.sees_start program options) (fun _ h => absurd h List.not_mem_nil)
  set t := Lowering.topLevel options.strip program.body c
  have hcall := Lowering.records_entryCall options.entry fun name hn => hglobals name
    (List.mem_append_right options.natives (Lowering.mem_declaredNames_of_function hn))
  set e := Lowering.entryCall options.entry program t.2
  have hjumps := Lowering.Context.told_checkJumps (t.1 ++ e.1) e.2
  have hcheck : Lowering.Context.Records [] e.2 (Lowering.checkJumps (t.1 ++ e.1) e.2).2 := by
    refine ⟨hjumps.halted, fun h h' => ?_, fun h d hd => ?_⟩
    · rw [(hjumps.heard h h').1, Lowering.Context.heard_nil, List.append_nil]
    · have := hjumps.stopped h d hd
      rwa [Lowering.Context.heard_nil, ← List.append_nil e.2.messages] at this
  have hs : Lowering.script options program c =
      (t.1 ++ e.1, (Lowering.checkJumps (t.1 ++ e.1) e.2).2) := by
    rw [Lowering.script_eq]
    rfl
  rw [hs]
  have := (htop.trans hcall).trans hcheck
  rwa [List.append_nil] at this

variable {program options}

/-- A program that is compiled keeps the static rules. -/
theorem violations_of_compile {chunk : Chunk Constant} (h : program.compile options = .ok chunk) :
    program.violations options = [] := by
  rw [Lowering.compile_eq options program] at h
  split at h
  · rename_i hm
    obtain ⟨hm, hf⟩ := List.append_eq_nil_iff.1 (List.isEmpty_iff.1 hm)
    exact ((records_script program options).added rfl (by simpa using hf)).symm.trans hm
  · cases h

/-- What is reported for a program that is rejected. -/
theorem errors_of_compile {ds : List Diagnostic} (h : program.compile options = .error ds) :
    ds = program.violations options ∨
      ¬ (program.draft options).IsSmall ∧ ∃ before offset span,
        before <+: program.violations options ∧ ds = before ++ [⟨.jumpTooFar offset, span⟩] := by
  have hr := records_script program options
  have hds := messages_of_compile h
  set r := Lowering.script options program { globals := Lowering.hoist options program }
  cases hf : r.2.fatal with
  | none =>
    refine .inl ?_
    rw [hds, hf]
    exact (List.append_nil _).trans (hr.added rfl hf)
  | some d =>
    obtain ⟨⟨n, hn⟩, hp⟩ := hr.stopped rfl d hf
    have hd : ds = r.2.messages ++ [⟨.jumpTooFar n, d.span⟩] := by
      rw [hds, hf, ← hn]
      rfl
    refine .inr ⟨fun hsmall => ?_, r.2.messages, n, d.span, hp, hd⟩
    exact near_of_compile h hsmall ⟨.jumpTooFar n, d.span⟩ (by rw [hd]; simp) n rfl

theorem compile_of_isSmall (hsmall : (program.draft options).IsSmall) : program.compile options =
    if (program.violations options).isEmpty then .ok (program.draft options)
    else .error (program.violations options) := by
  cases h : program.compile options with
  | ok chunk =>
    rw [violations_of_compile h, ← draft_of_compile h]
    rfl
  | error ds =>
    rcases errors_of_compile h with rfl | ⟨hlarge, -⟩
    · cases hv : program.violations options with
      | nil =>
        rw [hv, Lowering.compile_eq options program] at h
        split at h
        · cases h
        · rename_i hne
          exact absurd (List.isEmpty_iff.2 (Except.error.inj h)) hne
      | cons v vs => rfl
    · exact absurd hsmall hlarge

variable (program options)

/-- A program is compiled exactly if it keeps the static rules, and otherwise the first violation in
each of its statements at the top level is reported. The only other cause for a program to be rejected
is code so large that a jump is too far; then the violations that were found before are reported. -/
theorem compile_eq_violations :
    (∀ chunk, program.compile options = .ok chunk → program.violations options = []) ∧
    (∀ ds, program.compile options = .error ds → ds = program.violations options ∨
      ¬ (program.draft options).IsSmall ∧ ∃ before offset span,
        before <+: program.violations options ∧ ds = before ++ [⟨.jumpTooFar offset, span⟩]) ∧
    ((program.draft options).IsSmall → program.compile options =
      if (program.violations options).isEmpty then .ok (program.draft options)
      else .error (program.violations options)) :=
  ⟨fun _ => violations_of_compile, fun _ => errors_of_compile, compile_of_isSmall⟩

/-- A loop whose test and update use names that are not declared. -/
def faultyFor : Program :=
  ⟨[.function ⟨"main", {}⟩ [] [.for ⟨"i", {}⟩ (.literal (.int 0) {}) (some (.name ⟨"t", ⟨10, 1⟩⟩ {}))
    (some (.name ⟨"u", ⟨20, 1⟩⟩ {})) (.block [] {}) {}] {}]⟩

/-- The violation in the test stands before the one in the update, but the latter is reported. -/
theorem compile_faultyFor :
    ⟨.undeclared "t", ⟨10, 1⟩⟩ ∈
      faultyFor.body.flatMap (Stmt.violations (faultyFor.outlook {}) false) ∧
    faultyFor.compile {} = .error [⟨.undeclared "u", ⟨20, 1⟩⟩] :=
  ⟨by decide +kernel, by cbv⟩

end Program

end StackScript
