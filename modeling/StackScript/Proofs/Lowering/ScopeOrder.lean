import Mathlib.Data.List.Induction
import StackScript.Proofs.Lowering.Resolution
import StackScript.Proofs.Machine.Releasing

/-!
# The order of the locals of a scope

Scans of a scope look at the newest locals and stop early. They find what they should because the
locals stand in the order of their depths, whatever was done with the scope. A name stands for the
last of its declarations that no `leave` has undone.
-/

namespace StackScript.Scope

/-- What can be done with a scope. -/
inductive Edit
  | enter
  | leave
  | declare (name : String)
  | capture (slot : Nat)

def edit (s : Scope) : Edit → Scope
  | .enter => s.enter
  | .leave => s.leave
  | .declare name => (s.declare name).2
  | .capture slot => s.capture slot

def edited (s : Scope) (es : List Edit) : Scope := es.foldl edit s

variable {s : Scope} {es before after : List Edit} {e : Edit} {name : String} {slot depth : Nat}

theorem edited_snoc (s : Scope) (es : List Edit) (e : Edit) :
    s.edited (es ++ [e]) = (s.edited es).edit e :=
  List.foldl_concat ..

theorem reachable_edited (depth : Nat) (es : List Edit) : Reachable (edited ⟨[], depth⟩ es) := by
  induction es using List.reverseRecOn with
  | nil => exact .start depth
  | append_singleton es e ih =>
    rw [edited_snoc]
    cases e with
    | enter => exact ih.enter
    | leave => exact ih.leave
    | declare name => exact ih.declare name
    | capture slot => exact ih.capture slot

/-! ## Scans -/

/-- The locals are in order, and each scan finds what it is for. -/
structure IsSorted (s : Scope) : Prop where
  increasing : (s.locals.reverse.map Local.depth).Pairwise (· ≤ ·)
  bounded : ∀ l ∈ s.locals, l.depth ≤ s.depth
  declares_iff : ∀ name, s.declares name ↔ ∃ l ∈ s.locals, l.name = name ∧ l.depth = s.depth
  above_eq : ∀ depth, s.above depth = s.locals.filter (depth < ·.depth)
  innermost_eq : s.innermost = s.locals.filter (·.depth = s.depth)
  innermost_append : s.innermost ++ s.leave.locals = s.locals
  at?_leave : ∀ slot l, s.leave.at? slot = some l ↔ s.at? slot = some l ∧ l.depth ≠ s.depth

theorem mem_of_at? {l : Local} (h : s.at? slot = some l) : l ∈ s.locals :=
  List.mem_reverse.1 (List.mem_of_getElem? h)

theorem Ordered.depth_le (h : s.Ordered) : ∀ l ∈ s.locals, l.depth ≤ s.depth :=
  fun _ hl => (List.pairwise_cons.1 h).1 _ (List.mem_map_of_mem hl)

theorem Ordered.scan (h : s.Ordered) {p : Nat → Bool} (hp : ∀ i j, i ≤ j → p i = true → p j = true) :
    s.locals.takeWhile (p ·.depth) = s.locals.filter (p ·.depth) ∧
      ∀ l ∈ s.locals.dropWhile (p ·.depth), p l.depth = false :=
  takeWhile_eq_filter (List.pairwise_cons.1 h).2 hp

theorem Ordered.innermost_eq (h : s.Ordered) : s.innermost = s.locals.filter (·.depth = s.depth) := by
  refine (h.scan (p := (s.depth ≤ ·)) fun i j hij hi => ?_).1.trans (List.filter_congr fun l hl => ?_)
  · simp only [decide_eq_true_eq] at *
    omega
  · have := h.depth_le l hl
    rw [decide_eq_decide]
    omega

theorem innermost_append_leave (s : Scope) : s.innermost ++ s.leave.locals = s.locals :=
  List.takeWhile_append_dropWhile

theorem Ordered.depth_lt_of_mem_leave (h : s.Ordered) : ∀ l ∈ s.leave.locals, l.depth < s.depth := by
  intro l hl
  have := (h.scan (p := (s.depth ≤ ·)) fun i j hij hi => ?_).2 l hl
  · simpa using this
  · simp only [decide_eq_true_eq] at *
    omega

theorem Ordered.at?_leave (h : s.Ordered) (slot : Nat) (l : Local) :
    s.leave.at? slot = some l ↔ s.at? slot = some l ∧ l.depth ≠ s.depth := by
  have hlow := h.depth_lt_of_mem_leave
  unfold at?
  rw [← innermost_append_leave s, List.reverse_append]
  by_cases hlt : slot < s.leave.locals.reverse.length
  · rw [List.getElem?_append_left hlt, iff_self_and]
    intro hl
    exact Nat.ne_of_lt (hlow l (List.mem_reverse.1 (List.mem_of_getElem? hl)))
  · rw [List.getElem?_eq_none (by omega), List.getElem?_append_right (by omega)]
    refine ⟨nofun, fun ⟨hl, hne⟩ => absurd ?_ hne⟩
    have hmem := List.mem_reverse.1 (List.mem_of_getElem? hl)
    rw [h.innermost_eq] at hmem
    simpa using (List.mem_filter.1 hmem).2

theorem Ordered.isSorted (h : s.Ordered) : s.IsSorted where
  increasing := by
    rw [List.map_reverse]
    exact List.pairwise_reverse.2 (List.pairwise_cons.1 h).2
  bounded := h.depth_le
  declares_iff name := by
    rw [declares, h.innermost_eq, List.any_eq_true]
    simp only [List.mem_filter, decide_eq_true_eq, and_assoc, and_comm (a := Local.depth _ = _)]
  above_eq depth := by
    refine (h.scan (p := (depth < ·)) fun i j hij hi => ?_).1
    simp only [decide_eq_true_eq] at *
    omega
  innermost_eq := h.innermost_eq
  innermost_append := innermost_append_leave s
  at?_leave := h.at?_leave

/-! ## Declarations -/

/-- Each scope that is left after the declaration was entered after it. -/
def Survives (s : Scope) (before : List Edit) (name : String) (after : List Edit) : Prop :=
  ∀ done rest, after = done ++ .leave :: rest →
    (s.edited before).depth < (s.edited (before ++ .declare name :: done)).depth

theorem survives_nil : s.Survives before name [] := by
  intro done rest h
  cases done <;> cases h

theorem survives_snoc : s.Survives before name (after ++ [e]) ↔ s.Survives before name after ∧
    (e = .leave → (s.edited before).depth < (s.edited (before ++ .declare name :: after)).depth) := by
  refine ⟨fun h => ⟨fun done rest hs => h done (rest ++ [e]) (by simp [hs]), fun he => ?_⟩,
    fun ⟨h, he⟩ done rest hs => ?_⟩
  · exact h after [] (by rw [he])
  · rcases List.eq_nil_or_concat rest with rfl | ⟨rest, e', rfl⟩
    · obtain ⟨rfl, he'⟩ := List.append_inj' hs rfl
      exact he (List.cons.inj he').1
    · rw [List.concat_eq_append, ← List.cons_append, ← List.append_assoc] at hs
      exact h done rest (List.append_inj' hs rfl).1

/-- A slot holds a local that was declared with the name at the depth. -/
def Holds (s : Scope) (slot : Nat) (name : String) (depth : Nat) : Prop :=
  (s.at? slot).map Local.label = some (name, depth)

theorem Holds.lt (h : s.Holds slot name depth) : slot < s.locals.length := by
  obtain ⟨l, hl, -⟩ := Option.map_eq_some_iff.1 h
  simpa using (List.getElem?_eq_some_iff.1 hl).1

theorem holds_leave (h : s.Ordered) :
    s.leave.Holds slot name depth ↔ s.Holds slot name depth ∧ depth < s.depth := by
  simp only [Holds, Option.map_eq_some_iff, h.at?_leave]
  constructor
  · rintro ⟨l, ⟨hl, hne⟩, hlabel⟩
    obtain ⟨rfl, rfl⟩ := Prod.mk.inj hlabel
    exact ⟨⟨l, hl, rfl⟩, Nat.lt_of_le_of_ne (h.depth_le l (mem_of_at? hl)) hne⟩
  · rintro ⟨⟨l, hl, hlabel⟩, hlt⟩
    obtain ⟨rfl, rfl⟩ := Prod.mk.inj hlabel
    exact ⟨l, ⟨hl, Nat.ne_of_lt hlt⟩, rfl⟩

theorem holds_declare (s : Scope) (name' : String) : (s.declare name').2.Holds slot name depth ↔
    name' = name ∧ slot = s.locals.length ∧ depth = s.depth ∨ s.Holds slot name depth := by
  show (at? ⟨_ :: s.locals, _⟩ slot).map _ = _ ↔ _
  rw [at?_cons]
  by_cases hslot : slot = s.locals.length
  · have hnot : ¬s.Holds slot name depth := fun h => Nat.ne_of_lt h.lt hslot
    simp [hslot ▸ hnot, hslot, Local.label, eq_comm (a := depth)]
  · rw [if_neg hslot]
    simp only [hslot, false_and, and_false, false_or]
    rfl

theorem holds_capture (s : Scope) (slot' : Nat) :
    (s.capture slot').Holds slot name depth ↔ s.Holds slot name depth := by
  unfold Holds at? capture
  rw [← List.getElem?_map, ← List.getElem?_map, List.map_reverse, List.map_reverse,
    map_label_captureIn]

/-- What one edit does to a slot. -/
theorem holds_edit (h : s.Ordered) : (s.edit e).Holds slot name depth ↔
    e = .declare name ∧ slot = s.locals.length ∧ depth = s.depth ∨
      s.Holds slot name depth ∧ (e = .leave → depth < s.depth) := by
  cases e with
  | enter => simp [edit, enter, Holds, at?]
  | leave => simp [edit, holds_leave h]
  | declare name' => simp [edit, holds_declare]
  | capture slot' => simp [edit, holds_capture]

theorem holds_edited {start : Nat} : (edited ⟨[], start⟩ es).Holds slot name depth ↔
    ∃ before after, es = before ++ .declare name :: after ∧ Survives ⟨[], start⟩ before name after ∧
      slot = (edited ⟨[], start⟩ before).locals.length ∧ depth = (edited ⟨[], start⟩ before).depth := by
  induction es using List.reverseRecOn with
  | nil => simp [edited, Holds, at?]
  | append_singleton es e ih =>
    rw [edited_snoc, holds_edit (reachable_edited start es).ordered, ih]
    constructor
    · rintro (⟨rfl, hslot, hdepth⟩ | ⟨⟨before, after, rfl, hs, hslot, rfl⟩, he⟩)
      · exact ⟨es, [], rfl, survives_nil, hslot, hdepth⟩
      · exact ⟨before, after ++ [e], by simp, survives_snoc.2 ⟨hs, he⟩, hslot, rfl⟩
    · rintro ⟨before, after, hes, hs, hslot, rfl⟩
      rcases List.eq_nil_or_concat after with rfl | ⟨after, e', rfl⟩
      · obtain ⟨rfl, he⟩ := List.append_inj' hes rfl
        exact .inl ⟨(List.cons.inj he).1, hslot, rfl⟩
      · rw [List.concat_eq_append] at hes hs
        rw [← List.cons_append, ← List.append_assoc] at hes
        obtain ⟨rfl, he⟩ := List.append_inj' hes rfl
        obtain rfl := (List.cons.inj he).1
        obtain ⟨hs, he⟩ := survives_snoc.1 hs
        exact .inr ⟨⟨before, after, rfl, hs, hslot, rfl⟩, he⟩

/-- The last declaration of a name that survives. -/
structure IsLast (s : Scope) (es : List Edit) (name : String) (before : List Edit) : Prop where
  survives : ∃ after, es = before ++ .declare name :: after ∧ s.Survives before name after
  last : ∀ before' after', es = before' ++ .declare name :: after' →
    s.Survives before' name after' → before'.length ≤ before.length

theorem Survives.of_append (h : s.Survives before name (after ++ es)) :
    s.Survives before name after :=
  fun done rest hafter => h done (rest ++ es) (by simp [hafter])

theorem length_lt_of_survives {name' : String} {before' after' : List Edit}
    (h : before ++ .declare name :: after = before' ++ .declare name' :: after')
    (hs : Survives ⟨[], depth⟩ before name after) (hlt : before.length < before'.length) :
    (edited ⟨[], depth⟩ before).locals.length < (edited ⟨[], depth⟩ before').locals.length := by
  obtain ⟨mid, rfl, hmid⟩ | ⟨mid, rfl, -⟩ := List.append_eq_append_iff.1 h
  · cases mid with
    | nil => simp at hlt
    | cons e mid =>
      obtain ⟨rfl, rfl⟩ := List.cons.inj hmid
      exact (holds_edited.2 ⟨before, mid, rfl, hs.of_append, rfl, rfl⟩).lt
  · rw [List.length_append] at hlt
    omega

theorem Newest.slot?_eq (h : s.Newest name slot) : s.slot? name = some slot := by
  obtain ⟨l, hl, hname⟩ := h.named
  cases hs : s.slot? name with
  | none => exact absurd hname (lacks_of_slot? hs l (mem_of_at? hl))
  | some slot' =>
    obtain ⟨⟨l', hl', hname'⟩, hlast'⟩ := newest_of_slot? hs
    have hge : ¬slot < slot' := fun hlt => h.last slot' l' hlt hl' hname'
    have hle : ¬slot' < slot := fun hlt => hlast' slot l hlt hl hname
    rw [Nat.le_antisymm (Nat.not_lt.1 hge) (Nat.not_lt.1 hle)]

theorem slot?_edited : (edited ⟨[], depth⟩ es).slot? name = some slot ↔
    ∃ before, IsLast ⟨[], depth⟩ es name before ∧
      slot = (edited ⟨[], depth⟩ before).locals.length := by
  constructor
  · intro h
    obtain ⟨⟨l, hl, rfl⟩, hlast⟩ := newest_of_slot? h
    obtain ⟨before, after, rfl, hs, rfl, -⟩ := holds_edited.1 (congrArg (Option.map Local.label) hl)
    refine ⟨before, ⟨⟨after, rfl, hs⟩, fun before' after' hes' hs' => ?_⟩, rfl⟩
    by_contra hlt
    obtain ⟨l', hl', hlabel⟩ := Option.map_eq_some_iff.1
      (holds_edited.2 ⟨before', after', hes', hs', rfl, rfl⟩)
    exact hlast _ l' (length_lt_of_survives hes' hs (by omega)) hl' (congrArg Prod.fst hlabel)
  · rintro ⟨before, ⟨⟨after, rfl, hs⟩, hlast⟩, rfl⟩
    obtain ⟨l, hl, hlabel⟩ := Option.map_eq_some_iff.1
      (holds_edited.2 ⟨before, after, rfl, hs, rfl, rfl⟩)
    refine Newest.slot?_eq ⟨⟨l, hl, congrArg Prod.fst hlabel⟩, fun later l' hlt hl' hname => ?_⟩
    subst hname
    obtain ⟨before', after', hes', hs', rfl, -⟩ :=
      holds_edited.1 (congrArg (Option.map Local.label) hl')
    have hle := hlast before' after' hes' hs'
    rcases Nat.lt_or_eq_of_le hle with hshort | heq
    · exact Nat.lt_asymm hlt (length_lt_of_survives hes'.symm hs' hshort)
    · rw [(List.append_inj hes' heq.symm).1] at hlt
      exact Nat.lt_irrefl _ hlt

/-- Whatever is done with a scope, its locals are in order, and a name stands for the last of its
declarations that survive. -/
theorem sorted_and_resolved (depth : Nat) (es : List Edit) :
    (edited ⟨[], depth⟩ es).IsSorted ∧
      ∀ name slot, (edited ⟨[], depth⟩ es).slot? name = some slot ↔
        ∃ before, IsLast ⟨[], depth⟩ es name before ∧
          slot = ((edited ⟨[], depth⟩ before).declare name).1 :=
  ⟨(reachable_edited depth es).ordered.isSorted, fun _ _ => slot?_edited⟩

example : let s := edited ⟨[], 0⟩ [.declare "a", .leave, .declare "b", .enter, .declare "b"]
    s.slot? "a" = none ∧ s.slot? "b" = some 1 ∧ s.leave.slot? "b" = some 0 := by decide

end StackScript.Scope
