import StackScript.Proofs.Lowering.Scoping

/-!
# What a name means

A name means the newest local of that name in the innermost function that has one, and otherwise a
global. A local of a function around is reached through a chain of captured variables, one for each
function in between (`Capture.origin?`). `resolve` finds what a name means, only adds to the
captured variables of functions, and marks the local at the end of the chain as captured.
-/

namespace StackScript

/-! ## Scopes -/

namespace Scope

variable {s s' : Scope} {name : String} {slot : Nat}

/-- The local in a slot. -/
def at? (s : Scope) (slot : Nat) : Option Local := s.locals.reverse[slot]?

/-- The local in the slot is the last one that was declared with the name. -/
structure Newest (s : Scope) (name : String) (slot : Nat) : Prop where
  named : ∃ l, s.at? slot = some l ∧ l.name = name
  last : ∀ later l, slot < later → s.at? later = some l → l.name ≠ name

/-- No local has the name. -/
def Lacks (s : Scope) (name : String) : Prop := ∀ l ∈ s.locals, l.name ≠ name

theorem at?_cons (l : Local) (ls : List Local) (depth slot : Nat) :
    at? ⟨l :: ls, depth⟩ slot = if slot = ls.length then some l else at? ⟨ls, depth⟩ slot := by
  unfold at?
  simp only [List.reverse_cons]
  by_cases h : slot = ls.length
  · rw [if_pos h, h, List.getElem?_append_right (by simp)]
    simp
  · rw [if_neg h]
    by_cases hlt : slot < ls.length
    · rw [List.getElem?_append_left (by simpa using hlt)]
    · rw [List.getElem?_eq_none, List.getElem?_eq_none]
      · simp only [List.length_reverse]
        omega
      · simp only [List.length_append, List.length_reverse, List.length_singleton]
        omega

theorem Newest.lt (h : s.Newest name slot) : slot < s.locals.length := by
  obtain ⟨l, hl, -⟩ := h.named
  simpa using (List.getElem?_eq_some_iff.1 hl).1

theorem newest_of_slotIn? {ls : List Local} {depth : Nat} (h : slotIn? name ls = some slot) :
    Newest ⟨ls, depth⟩ name slot := by
  induction ls with
  | nil => cases h
  | cons l ls ih =>
    unfold slotIn? at h
    split at h
    · rename_i hl
      obtain rfl := Option.some.inj h
      refine ⟨⟨l, by rw [at?_cons, if_pos rfl], hl⟩, fun later l' hlt hat => ?_⟩
      -- there is no later slot
      have : at? ⟨l :: ls, depth⟩ later = none := by
        unfold at?
        rw [List.getElem?_eq_none]
        simp only [List.length_reverse, List.length_cons]
        omega
      rw [this] at hat
      cases hat
    · rename_i hl
      obtain ⟨⟨l', hat, hname⟩, hlast⟩ := ih h
      have hlt := Lowering.slotIn?_lt h
      refine ⟨⟨l', ?_, hname⟩, fun later l'' hlater hat' => ?_⟩
      · rw [at?_cons, if_neg (by omega), hat]
      · rw [at?_cons] at hat'
        split at hat'
        · obtain rfl := Option.some.inj hat'
          exact hl
        · exact hlast later l'' hlater hat'

theorem newest_of_slot? (h : s.slot? name = some slot) : s.Newest name slot := newest_of_slotIn? h

theorem lacks_of_slot? (h : s.slot? name = none) : s.Lacks name := by
  obtain ⟨ls, depth⟩ := s
  change slotIn? name ls = none at h
  change ∀ l ∈ ls, l.name ≠ name
  induction ls with
  | nil => nofun
  | cons l ls ih =>
    unfold slotIn? at h
    split at h
    · cases h
    · exact List.forall_mem_cons.2 ⟨‹_›, ih h⟩

/-- A local that is captured is marked. -/
theorem at?_capture {l : Local} (h : s.at? slot = some l) :
    (s.capture slot).at? slot = some { l with captured := true } := by
  obtain ⟨ls, depth⟩ := s
  show at? ⟨captureIn slot ls, depth⟩ slot = _
  induction ls with
  | nil => cases h
  | cons l' ls ih =>
    rw [at?_cons] at h
    unfold captureIn
    by_cases hs : ls.length = slot
    · rw [if_pos hs.symm] at h
      obtain rfl := Option.some.inj h
      rw [if_pos hs, at?_cons, if_pos hs.symm]
    · have hlen : (captureIn slot ls).length = ls.length := by
        simpa using congrArg List.length (map_label_captureIn slot ls)
      rw [if_neg (Ne.symm hs)] at h
      rw [if_neg hs, at?_cons, hlen, if_neg (Ne.symm hs), ih h]

theorem Alike.map_name_at? (h : s.Alike s') (slot : Nat) :
    (s'.at? slot).map Local.name = (s.at? slot).map Local.name := by
  have hnames : s'.locals.map Local.name = s.locals.map Local.name := by
    have := congrArg (List.map Prod.fst) h.labels
    simpa [Scope.labels, Local.label, Function.comp_def] using this
  unfold at?
  rw [← List.getElem?_map, ← List.getElem?_map, List.map_reverse, List.map_reverse, hnames]

/-- Marks do not matter for what a name means. -/
theorem Newest.of_alike (h : s'.Newest name slot) (ha : s.Alike s') : s.Newest name slot := by
  obtain ⟨⟨l, hl, hname⟩, hlast⟩ := h
  have hat := ha.map_name_at? slot
  rw [hl, Option.map_some, hname] at hat
  obtain ⟨l', hl', hname'⟩ := Option.map_eq_some_iff.1 hat.symm
  refine ⟨⟨l', hl', hname'⟩, fun later l₁ hlt hl₁ => ?_⟩
  have hlater := ha.map_name_at? later
  rw [hl₁, Option.map_some] at hlater
  obtain ⟨l₂, hl₂, hname₂⟩ := Option.map_eq_some_iff.1 hlater
  rw [← hname₂]
  exact hlast later l₂ hlt hl₂

theorem Lacks.of_alike (h : s'.Lacks name) (ha : s.Alike s') : s.Lacks name := by
  intro l hl hname
  have hmem : (l.name, l.depth) ∈ s'.labels := by
    rw [ha.labels]
    exact List.mem_map_of_mem hl
  obtain ⟨l', hl', he⟩ := List.mem_map.1 hmem
  refine h l' hl' ?_
  rw [← hname]
  exact congrArg Prod.fst he

end Scope

/-! ## Captured variables -/

/-- Where a captured variable comes from, given the captured variables of the functions around, from the
inside to the outside: how many functions are passed on the way, and the slot of the local. -/
def Capture.origin? : List (List Capture) → Capture → Option (Nat × Nat)
  | [], x => if x.fromLocal then some (0, x.index.toNat) else none
  | captures :: outer, x =>
    if x.fromLocal then some (0, x.index.toNat)
    else (captures[x.index.toNat]?).bind fun y => (origin? outer y).map fun p => (p.1 + 1, p.2)

theorem Capture.origin?_of_fromLocal {outer : List (List Capture)} {x : Capture}
    (h : x.fromLocal = true) : x.origin? outer = some (0, x.index.toNat) := by
  cases outer <;> exact if_pos h

theorem Capture.origin?_prefix {outer outer' : List (List Capture)} {x : Capture} {p : Nat × Nat}
    (h : List.Forall₂ (· <+: ·) outer outer') (hx : x.origin? outer = some p) :
    x.origin? outer' = some p := by
  induction h generalizing x p with
  | nil => exact hx
  | cons hc _ ih =>
    by_cases hl : x.fromLocal = true
    · rw [origin?_of_fromLocal hl] at hx ⊢
      exact hx
    · unfold origin? at hx ⊢
      rw [if_neg hl] at hx ⊢
      obtain ⟨y, hy, hx⟩ := Option.bind_eq_some_iff.1 hx
      obtain ⟨q, hq, rfl⟩ := Option.map_eq_some_iff.1 hx
      obtain ⟨rest, rfl⟩ := hc
      rw [List.getElem?_append_left (List.getElem?_eq_some_iff.1 hy).1, hy, Option.bind_some, ih hq,
        Option.map_some]

namespace Lowering

variable {f : Frame} {gs : List Frame} {id : Ident} {c : Context}

/-- A name that is found in a function around is the newest local in the nearest function that has it, and
the captured variable leads there. -/
structure Reaches (name : String) (gs gs' : List Frame) (x : Capture) (k slot : Nat) : Prop where
  nearest : ∃ g, gs[k]? = some g ∧ g.scope.Newest name slot
  nearer : ∀ j g, j < k → gs[j]? = some g → g.scope.Lacks name
  origin : x.origin? (gs'.map Frame.captures) = some (k, slot)
  marked : ∃ g' l, gs'[k]? = some g' ∧ g'.scope.at? slot = some l ∧ l.captured = true

theorem captureFrom_reaches {name : String} {f' : Frame} {gs' : List Frame} {i : Nat}
    (h : captureFrom name f gs = some (i, f', gs')) (hr : ∀ g ∈ gs, g.Room (2 ^ 32) 1) :
    ∃ x k slot, f'.captures[i]? = some x ∧ Reaches name gs gs' x k slot := by
  induction gs generalizing f f' gs' i with
  | nil => simp [captureFrom] at h
  | cons g gs ih =>
    have hroom := hr g (List.mem_cons_self ..)
    rcases captureFrom_cons h with
      ⟨slot, hslot, rfl, rfl, rfl⟩ | ⟨hslot, j, g₁, gs₁, hrec, rfl, rfl, rfl⟩
    · have hfit : slot.toUInt32.toNat = slot := by
        have hlt : slot < g.scope.locals.length := slotIn?_lt hslot
        have := hroom.locals
        exact Word.toNat_toUInt32 (by omega)
      have hnewest := Scope.newest_of_slot? hslot
      obtain ⟨l, hl, -⟩ := hnewest.named
      refine ⟨_, 0, slot, (f.captured_capture _).2, ⟨g, rfl, hnewest⟩, (by rintro _ _ ⟨⟩), ?_, ?_⟩
      · rw [Capture.origin?_of_fromLocal rfl, hfit]
      · exact ⟨_, _, rfl, Scope.at?_capture hl, rfl⟩
    · obtain ⟨hg, -, -⟩ := captureFrom_spec hrec
      obtain ⟨y, k, slot, hy, hreach⟩ := ih hrec fun g' hg' => hr g' (List.mem_cons_of_mem g hg')
      have hfit : j.toUInt32.toNat = j := by
        have h₁ := hg.index
        have h₂ := hg.count
        have h₃ := hroom.captures
        exact Word.toNat_toUInt32 (by omega)
      refine ⟨_, k + 1, slot, (f.captured_capture _).2, hreach.nearest, ?_, ?_, hreach.marked⟩
      · intro i g' hi hg'
        cases i with
        | zero =>
          obtain rfl := Option.some.inj hg'
          exact Scope.lacks_of_slot? hslot
        | succ i => exact hreach.nearer i g' (Nat.lt_of_succ_lt_succ hi) hg'
      · show (if false = true then _ else (g₁.captures[j.toUInt32.toNat]?).bind _) = _
        rw [if_neg (by rintro ⟨⟩), hfit, hy, Option.bind_some, hreach.origin, Option.map_some]

theorem lacks_of_captureFrom_none {name : String} (h : captureFrom name f gs = none) :
    ∀ g ∈ gs, g.scope.Lacks name := by
  induction gs generalizing f with
  | nil => nofun
  | cons g gs ih =>
    unfold captureFrom at h
    split at h
    · cases h
    · rename_i hslot
      split at h
      · cases h
      · exact List.forall_mem_cons.2 ⟨Scope.lacks_of_slot? hslot, ih ‹_›⟩

/-- Why a name that no local has is not usable. -/
def Context.cause? (c : Context) (name : String) : Option Diagnostic.Cause :=
  match c.globals.slot? name with
  | none => some (.undeclared name)
  | some slot => if !c.globals.isInitialized slot && c.isTop then some (.uninitialized name) else none

/-- What a name means at a point of the compilation. The context behind has the chain that leads to the
local of a function around, or the message. -/
inductive Context.Finds (c c' : Context) (id : Ident) : Option Binding → Prop
  | local {slot : UInt32} : c.frame.scope.Newest id.name slot.toNat → c.Finds c' id (some (.local slot))
  | captured {i : UInt32} {x : Capture} {k slot : Nat} : c.frame.scope.Lacks id.name →
      c'.frame.captures[i.toNat]? = some x → Reaches id.name c.enclosing c'.enclosing x k slot →
      c.Finds c' id (some (.captured i))
  | global {slot : UInt32} : (∀ f ∈ c.frame :: c.enclosing, f.scope.Lacks id.name) →
      c.cause? id.name = none → c.globals.slot? id.name = some slot.toNat →
      c.Finds c' id (some (.global slot))
  | none {cause : Diagnostic.Cause} : (∀ f ∈ c.frame :: c.enclosing, f.scope.Lacks id.name) →
      c.cause? id.name = some cause → c' = (report cause id.span c).2 → c.Finds c' id none

/-- What resolving a name does. -/
structure Resolution (id : Ident) (c : Context) : Prop where
  finds : c.Finds (resolve id c).2 id (resolve id c).1
  /-- Captured variables are added at the end, and the locals are what they are but for their marks. -/
  passes : List.Forall₂ Frame.Passes (c.frame :: c.enclosing)
    ((resolve id c).2.frame :: (resolve id c).2.enclosing)
  distinct : Distinct c.frame c.enclosing →
    Distinct (resolve id c).2.frame (resolve id c).2.enclosing

theorem frames_report (cause : Diagnostic.Cause) (span : Span) (c : Context) :
    (report cause span c).2.frame = c.frame ∧ (report cause span c).2.enclosing = c.enclosing := by
  rw [report_eq]
  split <;> exact ⟨rfl, rfl⟩

/-- A name that is found in a function around. -/
theorem finds_captured {i : Nat} (hr : c.Room (2 ^ 32) 1) (hl : c.frame.scope.slot? id.name = none)
    (hf : captureFrom id.name c.frame c.enclosing = some (i, f, gs)) :
    c.Finds { c with frame := f, enclosing := gs } id (some (.captured i.toUInt32)) := by
  obtain ⟨hcaptured, -⟩ := captureFrom_spec hf
  obtain ⟨x, k, slot, hx, hreach⟩ := captureFrom_reaches hf hr.enclosing
  have hfit : i.toUInt32.toNat = i := by
    have h₁ := hcaptured.index
    have h₂ := hcaptured.count
    have h₃ := hr.frame.captures
    exact Word.toNat_toUInt32 (by omega)
  exact .captured (Scope.lacks_of_slot? hl) (by rw [hfit]; exact hx) hreach

theorem finds_of_resolve {i : UInt32} (hr : c.Room (2 ^ 32) 1)
    (h : (resolve id c).1 = some (.captured i)) :
    c.Finds (resolve id c).2 id (some (.captured i)) := by
  rcases resolve_cases id c with ⟨slot, -, he⟩ | ⟨hl, j, f, gs, hf, he⟩ | ⟨-, -, slot, -, -, he⟩ |
    ⟨cause, -, he⟩
  · rw [he] at h
    cases h
  · rw [he] at h ⊢
    cases h
    exact finds_captured hr hl hf
  · rw [he] at h
    cases h
  · rw [he] at h
    cases h

theorem resolution (hr : c.Room (2 ^ 32) 1) (hg : c.globals.entries.length < 2 ^ 32) :
    Resolution id c := by
  have hsame : List.Forall₂ Frame.Passes (c.frame :: c.enclosing) (c.frame :: c.enclosing) :=
    List.forall₂_same.2 fun f _ => .refl f
  have hglobal {slot : Nat} (h : c.globals.slot? id.name = some slot) : slot.toUInt32.toNat = slot := by
    have := (List.findIdx?_eq_some_iff_getElem.1 h).1
    exact Word.toNat_toUInt32 (by omega)
  have hlacks (hl : c.frame.scope.slot? id.name = none)
      (hf : captureFrom id.name c.frame c.enclosing = none) :
      ∀ f ∈ c.frame :: c.enclosing, f.scope.Lacks id.name :=
    List.forall_mem_cons.2 ⟨Scope.lacks_of_slot? hl, lacks_of_captureFrom_none hf⟩
  rcases resolve_cases id c with ⟨slot, hs, he⟩ | ⟨hl, i, f, gs, hf, he⟩ | ⟨hl, hf, slot, hs, hi, he⟩ |
    ⟨cause, ⟨hl, hf, hcause⟩, he⟩
  · have hfit : slot.toUInt32.toNat = slot := by
      have hlt : slot < c.frame.scope.locals.length := slotIn?_lt hs
      have := hr.frame.locals
      exact Word.toNat_toUInt32 (by omega)
    rw [← hfit] at hs
    exact ⟨by rw [he]; exact .local (Scope.newest_of_slot? hs), by rwa [he], by rw [he]; exact fun hd => hd⟩
  · obtain ⟨hcaptured, hgs, -⟩ := captureFrom_spec hf
    refine ⟨?_, ?_, ?_⟩
    · rw [he]
      exact finds_captured hr hl hf
    · rw [he]
      exact .cons hcaptured.passes hgs
    · rw [he]
      exact distinct_captureFrom hf
  · refine ⟨?_, by rwa [he], by rw [he]; exact fun hd => hd⟩
    rw [he]
    refine .global (hlacks hl hf) ?_ (by rw [hs, hglobal hs])
    have htop : (atTopLevel c).1 = c.isTop := rfl
    rw [Context.cause?, hs]
    rcases hi with hi | hi
    · simp [hi]
    · rw [htop] at hi
      simp [hi]
  · obtain ⟨hframe, henclosing⟩ := frames_report cause id.span c
    refine ⟨?_, by rwa [he, hframe, henclosing], by rw [he, hframe, henclosing]; exact fun hd => hd⟩
    rw [he]
    refine .none (hlacks hl hf) ?_ rfl
    rw [Context.cause?]
    rcases hcause with ⟨hs, rfl⟩ | ⟨slot, hs, hi, htop, rfl⟩
    · rw [hs]
    · have htop : c.isTop = true := htop
      simp [hs, hi, htop]

end Lowering

end StackScript
