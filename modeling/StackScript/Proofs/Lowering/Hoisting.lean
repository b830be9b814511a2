import StackScript.Proofs.Lowering.Scoping
import StackScript.Proofs.Lowering.Script

/-!
# The globals of a program

All names that are declared at the top level are known from the beginning, behind those of the host
functions. A declaration marks its name as initialized and fails if it is so already, so in a
program without messages no name is declared twice, and the slots are numbered in the order of the
declarations.
-/

namespace StackScript

namespace Globals

variable {g : Globals} {name : String} {slot : Nat}

theorem slot?_eq_findIdx? (g : Globals) (name : String) :
    g.slot? name = g.names.findIdx? (· = name) := by
  unfold slot? names
  rw [List.findIdx?_map]
  rfl

theorem slot?_isSome_iff : (∃ slot, g.slot? name = some slot) ↔ name ∈ g.names := by
  rw [← Option.isSome_iff_exists, slot?_eq_findIdx?, List.findIdx?_isSome]
  simp

theorem declare_of_mem (h : name ∈ g.names) (initialized : Bool) :
    g.declare name initialized = g := by
  obtain ⟨slot, hs⟩ := slot?_isSome_iff.2 h
  simp [declare, declare?, hs]

theorem declare_of_not_mem (h : name ∉ g.names) (initialized : Bool) :
    g.declare name initialized = ⟨g.entries ++ [⟨name, initialized⟩]⟩ := by
  have hs : g.slot? name = none := by
    cases hs : g.slot? name with
    | none => rfl
    | some slot => exact absurd (slot?_isSome_iff.1 ⟨slot, hs⟩) h
  simp [declare, declare?, hs]

theorem entries_isPrefix_declare (g : Globals) (name : String) (initialized : Bool) :
    g.entries <+: (g.declare name initialized).entries := by
  by_cases h : name ∈ g.names
  · exact (declare_of_mem h initialized).symm ▸ List.prefix_refl _
  · exact (declare_of_not_mem h initialized).symm ▸ List.prefix_append _ _

theorem mem_names_declare (g : Globals) (name : String) (initialized : Bool) :
    name ∈ (g.declare name initialized).names := by
  by_cases h : name ∈ g.names
  · rwa [declare_of_mem h]
  · rw [declare_of_not_mem h]
    simp [names]

section Declaring

variable {g : Globals} {ns : List String} (initialized : Bool)

theorem entries_isPrefix_foldl :
    g.entries <+: (ns.foldl (fun g name => g.declare name initialized) g).entries := by
  induction ns generalizing g with
  | nil => exact List.prefix_refl _
  | cons name ns ih => exact (entries_isPrefix_declare g name initialized).trans ih

theorem names_isPrefix_foldl :
    g.names <+: (ns.foldl (fun g name => g.declare name initialized) g).names :=
  (entries_isPrefix_foldl initialized).map _

theorem mem_names_foldl (h : name ∈ ns) :
    name ∈ (ns.foldl (fun g name => g.declare name initialized) g).names := by
  induction ns generalizing g with
  | nil => cases h
  | cons n ns ih =>
    rcases List.mem_cons.1 h with rfl | h
    · have hp : (g.declare name initialized).names <+:
          (ns.foldl (fun g name => g.declare name initialized) (g.declare name initialized)).names :=
        names_isPrefix_foldl initialized
      exact hp.subset (mem_names_declare g name initialized)
    · exact ih h

/-- New names come behind the others. -/
theorem entries_foldl_of_nodup (h : (g.names ++ ns).Nodup) :
    (ns.foldl (fun g name => g.declare name initialized) g).entries =
      g.entries ++ ns.map fun name => ⟨name, initialized⟩ := by
  induction ns generalizing g with
  | nil => simp
  | cons name ns ih =>
    have hnot : name ∉ g.names := fun hm =>
      (List.nodup_append.1 h).2.2 name hm name (List.mem_cons_self ..) rfl
    rw [List.foldl_cons, declare_of_not_mem hnot, ih]
    · simp
    · simpa [names, List.append_assoc] using h

theorem names_foldl_of_nodup (h : (g.names ++ ns).Nodup) :
    (ns.foldl (fun g name => g.declare name initialized) g).names = g.names ++ ns := by
  unfold names
  rw [entries_foldl_of_nodup initialized h, List.map_append, List.map_map]
  exact congrArg _ (List.map_id ns)

end Declaring

/-- A name that has no initialized global may still be declared. -/
def IsFree (g : Globals) (name : String) : Prop :=
  ∀ slot, g.slot? name = some slot → g.isInitialized slot = false

theorem isInitialized_markInitialized (h : slot < g.entries.length) :
    (g.markInitialized slot).isInitialized slot = true := by
  simp [isInitialized, get?, markInitialized, List.getElem?_eq_getElem h]

theorem isInitialized_markInitialized_of_ne {i : Nat} (h : slot ≠ i) :
    (g.markInitialized slot).isInitialized i = g.isInitialized i := by
  simp [isInitialized, get?, markInitialized, h]

theorem slot?_markInitialized (g : Globals) (slot : Nat) (name : String) :
    (g.markInitialized slot).slot? name = g.slot? name := by
  rw [slot?_eq_findIdx?, slot?_eq_findIdx?, names_markInitialized]

theorem isFree_of_markInitialized {name' : String} (hs : g.slot? name = some slot)
    (h : (g.markInitialized slot).IsFree name') (hf : g.isInitialized slot = false) :
    name' ≠ name ∧ g.IsFree name' := by
  have hlt : slot < g.entries.length := by
    have := (List.findIdx?_eq_some_iff_getElem.1 hs).1
    exact this
  constructor
  · rintro rfl
    have := h slot (by rw [slot?_markInitialized, hs])
    rw [isInitialized_markInitialized hlt] at this
    cases this
  · intro i hi
    by_cases hne : slot = i
    · rwa [← hne]
    · rw [← isInitialized_markInitialized_of_ne hne]
      exact h i (by rw [slot?_markInitialized, hi])

end Globals

/-- The names that statements declare at the top level. -/
def Stmt.declaredNames (ss : List Stmt) : List String := (ss.filterMap Stmt.declared?).map Ident.name

theorem Stmt.declaredNames_cons (s : Stmt) (ss : List Stmt) : Stmt.declaredNames (s :: ss) =
    (s.declared?.map Ident.name).toList ++ Stmt.declaredNames ss := by
  unfold Stmt.declaredNames
  cases h : s.declared? <;> simp [h]

theorem Stmt.mem_declaredNames_head {s : Stmt} {id : Ident} (h : id ∈ s.declared?) (ss : List Stmt) :
    id.name ∈ Stmt.declaredNames (s :: ss) := by
  rw [declaredNames_cons, Option.mem_def.1 h]
  exact List.mem_cons_self ..

theorem Stmt.mem_declaredNames_tail (s : Stmt) {ss : List Stmt} {name : String}
    (h : name ∈ Stmt.declaredNames ss) : name ∈ Stmt.declaredNames (s :: ss) := by
  rw [declaredNames_cons]
  exact List.mem_append_right _ h

namespace Lowering

open Fragment (emit)

variable {ss : List Stmt}

/-! ## Declarations at the top level -/

section TopLevel

variable {strip : Bool} {loop : Option Loop} {id : Ident} {s : Stmt} {c : Context}

/-- The code of the value that a declaration defines. -/
def valueCode (strip : Bool) : Stmt → Lower Fragment
  | .variable _ init _ => expression strip init
  | .function id params body span => function id.name "" params span (statements strip none body)
  | .record id fields methods span => recordParts strip id fields methods span
  | _ => return []

def declaredAt : Stmt → Span
  | .variable _ _ span | .function _ _ _ span | .record _ _ _ span => span
  | _ => {}

theorem evolves_valueCode (strip : Bool) (s : Stmt) : ∃ n, Evolves n (valueCode strip s) := by
  cases s with
  | «variable» id init span => exact ⟨_, evolves_expression strip init⟩
  | function id params body span => exact ⟨_, evolves_function (evolves_statements strip none body)⟩
  | record id fields methods span => exact ⟨_, evolves_recordParts id fields methods⟩
  | _ => exact ⟨0, .pure _⟩

theorem stays_valueCode (h : s.isTidy = true) : Stays (valueCode strip s) := by
  cases s with
  | «variable» id init span => exact stays_of_isTidy strip init h
  | function id params body span => exact (statementsAdd_of_areTidy strip body h).function
  | record id fields methods span => exact stays_recordParts (stays_methodClosures strip methods h)
  | _ => exact .pure _

theorem statement_of_top (htop : c.isTop = true) (hd : s.declared? = some id) :
    statement strip loop s c = (do
      let code ← valueCode strip s
      let declared ← declare id
      return code ++ define declared (declaredAt s)) c := by
  cases s with
  | «variable» id' init span =>
    obtain rfl := Option.some.inj hd
    rfl
  | function id' params body span =>
    obtain rfl := Option.some.inj hd
    rw [statement_function_eq, htop]
    rfl
  | record id' fields methods span =>
    obtain rfl := Option.some.inj hd
    rw [statement_record_eq, htop]
    rfl
  | _ => cases hd

theorem declare_of_top (htop : c.isTop = true) : declare id c = declareGlobal id c := by
  have he : declare id c = (if c.isTop then declareGlobal id else declareLocal id) c := rfl
  rw [he, htop]
  rfl

theorem top_declaration (hs : s.isTidy = true) (htop : c.isTop = true) (hd : s.declared? = some id)
    (hclean : (statement strip loop s c).2.Clean) (hknown : id.name ∈ c.globals.names) :
    ∃ slot, c.Adds [] (valueCode strip s c).2 ∧ (valueCode strip s c).2.Clean ∧
      c.globals.slot? id.name = some slot ∧ c.globals.isInitialized slot = false ∧
      statement strip loop s c = ((valueCode strip s c).1 ++ emit ⟨.defGlobal, ()⟩ (declaredAt s),
        { (valueCode strip s c).2 with globals := c.globals.markInitialized slot }) := by
  obtain ⟨n, hev⟩ := evolves_valueCode strip s
  set c₁ := (valueCode strip s c).2
  have he : statement strip loop s c = ((valueCode strip s c).1 ++
      define (declare id c₁).1 (declaredAt s), (declare id c₁).2) := by
    rw [statement_of_top htop hd]
    rfl
  rw [he] at hclean ⊢
  have hclean₁ : c₁.Clean := (evolves_declare id).clean _ hclean
  have hadds : c.Adds [] c₁ := stays_valueCode hs c hclean₁
  have htop₁ : c₁.isTop = true := (hadds.isTop (hev.step c hclean₁)).trans htop
  rw [declare_of_top htop₁] at hclean ⊢
  rw [← hadds.globals] at hknown
  obtain ⟨slot, hslot⟩ := Globals.slot?_isSome_iff.2 hknown
  rcases declareGlobal_cases id c₁ with ⟨slot', hs', hi, hd'⟩ | ⟨hnone, -⟩ | ⟨_, -, -, hr⟩
  · rw [hadds.globals] at hs' hi hd'
    refine ⟨slot', hadds, hclean₁, hs', hi, ?_⟩
    rw [hd']
    rfl
  · rw [hnone] at hslot
    cases hslot
  · rw [hr] at hclean
    exact absurd hclean (not_clean_report _ _ c₁)

theorem top_statement (hs : s.isTidy = true) (hd : s.declared? = none)
    (hb : c.frame.scope.Bounded) (hclean : (statement strip loop s c).2.Clean) :
    c.Adds [] (statement strip loop s c).2 := by
  have hdecl : s.isDeclaration = false := by
    unfold Stmt.isDeclaration
    rw [hd]
    rfl
  exact (statementAdds_of_isTidy strip s hs).quiet hdecl hclean hb

/-- The top level never has locals. -/
structure Context.Bare (c : Context) : Prop where
  top : c.isTop = true
  labels : c.frame.scope.labels = []

theorem Context.Bare.bounded (h : c.Bare) : c.frame.scope.Bounded := by
  intro l hl
  rw [h.labels] at hl
  cases hl

theorem Context.Bare.of_adds {n : Nat} {c' : Context} (h : c.Bare) (ha : c.Adds [] c')
    (hs : c.Step n c') : c'.Bare :=
  ⟨(ha.isTop hs).trans h.top, by rw [ha.labels, h.labels]; rfl⟩

theorem Context.Bare.statement (h : c.Bare) (hs : s.isTidy = true)
    (hclean : (Lowering.statement strip loop s c).2.Clean)
    (hknown : ∀ id ∈ s.declared?, id.name ∈ c.globals.names) :
    (Lowering.statement strip loop s c).2.Bare ∧
      (Lowering.statement strip loop s c).2.globals.names = c.globals.names ∧
      ∀ name, (Lowering.statement strip loop s c).2.globals.IsFree name →
        c.globals.IsFree name ∧ ∀ id ∈ s.declared?, name ≠ id.name := by
  cases hd : s.declared? with
  | none =>
    have hadds := top_statement hs hd h.bounded hclean
    refine ⟨h.of_adds hadds ((evolves_statement strip loop s).step c hclean), ?_, fun name hn => ?_⟩
    · rw [hadds.globals]
    · rw [hadds.globals] at hn
      exact ⟨hn, nofun⟩
  | some id =>
    obtain ⟨slot, hadds, hclean₁, hslot, hi, he⟩ :=
      top_declaration hs h.top hd hclean (hknown id hd)
    obtain ⟨n, hev⟩ := evolves_valueCode strip s
    have hbare := h.of_adds hadds (hev.step c hclean₁)
    rw [he]
    refine ⟨⟨hbare.top, hbare.labels⟩, Globals.names_markInitialized _ _, fun name hn => ?_⟩
    obtain ⟨hne, hfree⟩ := Globals.isFree_of_markInitialized hslot hn hi
    refine ⟨hfree, ?_⟩
    rintro _ ⟨⟩
    exact hne

theorem Context.Bare.statements (h : c.Bare) (hs : Stmt.areTidy ss = true)
    (hclean : (Lowering.statements strip loop ss c).2.Clean)
    (hknown : ∀ name ∈ Stmt.declaredNames ss, name ∈ c.globals.names) :
    (Lowering.statements strip loop ss c).2.Bare ∧
      (Lowering.statements strip loop ss c).2.globals.names = c.globals.names ∧
      (Stmt.declaredNames ss).Nodup ∧ ∀ name ∈ Stmt.declaredNames ss, c.globals.IsFree name := by
  induction ss generalizing c with
  | nil => exact ⟨h, rfl, List.nodup_nil, nofun⟩
  | cons s ss ih =>
    obtain ⟨hs₁, hs₂⟩ := (Bool.and_eq_true ..).mp hs
    have hclean₂ : (Lowering.statements strip loop ss (Lowering.statement strip loop s c).2).2.Clean :=
      hclean
    have hclean₁ := (evolves_statements strip loop ss).clean _ hclean₂
    have hknown₁ : ∀ id ∈ s.declared?, id.name ∈ c.globals.names := fun id hid =>
      hknown _ (Stmt.mem_declaredNames_head hid ss)
    obtain ⟨hbare, hnames, hfree⟩ := h.statement hs₁ hclean₁ hknown₁
    obtain ⟨hbare₂, hnames₂, hnodup, hall⟩ := ih hbare hs₂ hclean₂ fun name hn => by
      rw [hnames]
      exact hknown name (Stmt.mem_declaredNames_tail s hn)
    refine ⟨hbare₂, hnames₂.trans hnames, ?_⟩
    cases hd : s.declared? with
    | none =>
      rw [Stmt.declaredNames_cons, hd]
      exact ⟨hnodup, fun name hn => (hfree name (hall name hn)).1⟩
    | some id =>
      obtain ⟨slot, -, -, hslot, hi, -⟩ := top_declaration hs₁ h.top hd hclean₁ (hknown₁ id hd)
      rw [Stmt.declaredNames_cons, hd]
      refine ⟨List.nodup_cons.2 ⟨fun hm => (hfree _ (hall _ hm)).2 id hd rfl, hnodup⟩, ?_⟩
      intro name hn
      rcases List.mem_cons.1 hn with rfl | hn
      · intro slot' hslot'
        obtain rfl := Option.some.inj (hslot.symm.trans hslot')
        exact hi
      · exact (hfree name (hall name hn)).1

end TopLevel

/-! ## Whole programs -/

section Programs

variable {program : Program} {options : Options} {chunk : Chunk Constant}

theorem hoist_eq (options : Options) (program : Program) : hoist options program =
    (Stmt.declaredNames program.body).foldl (fun g name => g.declare name false)
      (Globals.ofNatives options.natives) := by
  unfold hoist Stmt.declaredNames
  rw [List.foldl_map]

theorem ofNatives_spec (natives : List String) : (Globals.ofNatives natives).names.Nodup ∧
    ∀ x ∈ (Globals.ofNatives natives).entries, x.initialized = true := by
  suffices hstep : ∀ (ns : List String) (g : Globals),
      g.names.Nodup ∧ (∀ x ∈ g.entries, x.initialized = true) →
      (ns.foldl (fun g name => g.declare name true) g).names.Nodup ∧
        ∀ x ∈ (ns.foldl (fun g name => g.declare name true) g).entries, x.initialized = true from
    hstep natives {} ⟨List.nodup_nil, nofun⟩
  intro ns
  induction ns with
  | nil => exact fun _ h => h
  | cons name ns ih =>
    intro g hg
    refine ih (g.declare name true) ?_
    by_cases h : name ∈ g.names
    · rwa [Globals.declare_of_mem h]
    · rw [Globals.declare_of_not_mem h]
      constructor
      · rw [Globals.names, List.map_append]
        refine List.nodup_append.2 ⟨hg.1, by simp, fun a ha b hb hab => h ?_⟩
        rw [show name = a from ((List.mem_singleton.1 hb).symm.trans hab.symm)]
        exact ha
      · intro x hx
        rcases List.mem_append.1 hx with hx | hx
        · exact hg.2 x hx
        · rw [List.mem_singleton.1 hx]

theorem names_ofNatives {natives : List String} (h : natives.Nodup) :
    (Globals.ofNatives natives).names = natives := by
  unfold Globals.ofNatives
  rw [Globals.names_foldl_of_nodup true (by simpa [Globals.names] using h)]
  rfl

/-- The names of host functions are not free. -/
theorem not_isFree_of_native {name : String} (h : name ∈ (Globals.ofNatives options.natives).names) :
    ¬ (hoist options program).IsFree name := by
  intro hfree
  have hprefix : (Globals.ofNatives options.natives).entries <+: (hoist options program).entries := by
    rw [hoist_eq]
    exact Globals.entries_isPrefix_foldl false
  obtain ⟨rest, hrest⟩ := hprefix
  obtain ⟨slot, hslot⟩ := Globals.slot?_isSome_iff.2 h
  have hlt : slot < (Globals.ofNatives options.natives).entries.length :=
    (List.findIdx?_eq_some_iff_getElem.1 hslot).1
  have hi := hfree slot (by
    unfold Globals.slot? at hslot ⊢
    rw [← hrest, List.findIdx?_append, hslot]
    rfl)
  unfold Globals.isInitialized Globals.get? at hi
  rw [← hrest, List.getElem?_append_left hlt, List.getElem?_eq_getElem hlt] at hi
  have := (ofNatives_spec options.natives).2 _ (List.getElem_mem hlt)
  rw [Option.any_some, this] at hi
  cases hi

theorem names_hoist_eq (h : program.compile options = .ok chunk) (ht : program.isTidy = true) :
    (hoist options program).names =
        (Globals.ofNatives options.natives).names ++ Stmt.declaredNames program.body ∧
      ((Globals.ofNatives options.natives).names ++ Stmt.declaredNames program.body).Nodup := by
  obtain ⟨slot, hclean, -⟩ := compile_eq_ok h
  have hbare : Context.Bare { globals := hoist options program } := ⟨rfl, rfl⟩
  have hknown : ∀ name ∈ Stmt.declaredNames program.body, name ∈ (hoist options program).names := by
    intro name hname
    rw [hoist_eq]
    exact Globals.mem_names_foldl false hname
  obtain ⟨-, -, hnodup, hfree⟩ := hbare.statements ht hclean hknown
  have hdisjoint : ((Globals.ofNatives options.natives).names ++
      Stmt.declaredNames program.body).Nodup :=
    List.nodup_append.2 ⟨(ofNatives_spec options.natives).1, hnodup, fun a ha b hb hab =>
      not_isFree_of_native ha (hab ▸ hfree b hb)⟩
  refine ⟨?_, hdisjoint⟩
  rw [hoist_eq, Globals.names_foldl_of_nodup false hdisjoint]

theorem names_hoist (h : program.compile options = .ok chunk) (ht : program.isTidy = true)
    (hn : options.natives.Nodup) :
    (hoist options program).names = options.natives ++ Stmt.declaredNames program.body ∧
      (options.natives ++ Stmt.declaredNames program.body).Nodup := by
  have := names_hoist_eq h ht
  rwa [names_ofNatives hn] at this

end Programs

end Lowering

end StackScript
