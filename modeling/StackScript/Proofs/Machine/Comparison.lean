import Mathlib.Data.List.Forall2
import StackScript.Store

/-!
# Comparing live values

A comparison locks the captured variables whose contents it compares. Its answer is always right: it
says whether the trees agree that the values stand for (`Store.same_eq_some`). But there need not be
one, since a variable can lie on the way on both sides, and then the comparison waits for itself.

This happens only to values that differ. Of two values with the same tree, the contents of a
variable are smaller than all that is locked around it (`Store.same_of_alike`). Having the same
contents is therefore an equivalence of the values whose layers end.
-/

namespace StackScript

namespace Store

/-- The values can be opened without meeting others, those that are identical are the same, and the
instances among them exist. -/
structure Keyed (s : Store) (V : Value → Prop) : Prop where
  parts : ∀ v, V v → ∀ w ∈ (s.node v).parts, V w
  eq : ∀ v w, V v → V w → v.identical w = true → v = w
  present : ∀ ref, V (.instanceOf ref) → (s.instance? ref).isSome = true

/-- The layers of the value end at the depth. -/
def Ends (s : Store) : (depth : Nat) → Value → Prop
  | 0, _ => False
  | depth + 1, v => ∀ w ∈ (s.node v).parts, s.Ends depth w

/-- The values stand for the same tree, however deep one looks. -/
def Alike (s : Store) (v w : Value) : Prop := ∀ depth, s.snapshot depth v = s.snapshot depth w

/-- The comparison of the values says that they have the same contents, however deep it looks. -/
def Equal (s : Store) (v w : Value) : Prop := ∀ depth, s.same depth [] v w = some true

variable {s : Store} {V P Q : Value → Prop} {v w : Value} {d : Nat} {locked : List CellRef}

/-! ## What has to agree -/

variable (s d) in
/-- What is checked agrees, as far as the trees down to a depth show. -/
def Check.Holds : Check → Prop
  | .settled agrees => agrees = true
  | .values v w => s.snapshot d v = s.snapshot d w
  | .cells a b => (s.cell a).map (s.snapshot d) = (s.cell b).map (s.snapshot d)

@[simp] theorem holds_settled {agrees : Bool} : (Check.settled agrees).Holds s d ↔ agrees = true := Iff.rfl

@[simp] theorem holds_values : (Check.values v w).Holds s d ↔ s.snapshot d v = s.snapshot d w := Iff.rfl

@[simp] theorem holds_cells {a b : CellRef} : (Check.cells a b).Holds s d ↔
    (s.cell a).map (s.snapshot d) = (s.cell b).map (s.snapshot d) := Iff.rfl

variable (s P Q) in
/-- The values that are checked have one property on the left and another on the right. -/
def Check.Inside : Check → Prop
  | .settled _ => True
  | .values v w => P v ∧ Q w
  | .cells a b => (∀ v, (s.cell a).closed = some v → P v) ∧ ∀ w, (s.cell b).closed = some w → Q w

theorem map_eq_map_iff {α β : Type} (f : α → β) (l m : List α) :
    l.map f = m.map f ↔ l.length = m.length ∧ ∀ p ∈ l.zip m, f p.1 = f p.2 := by
  rw [← List.forall₂_eq_eq_eq, List.forall₂_map_left_iff, List.forall₂_map_right_iff,
    List.forall₂_iff_zip]
  simp only [Prod.forall]

theorem functionChecks_iff (f g : Function Value) :
    (∀ c ∈ functionChecks f g, c.Holds s d) ↔ f.map (s.snapshot d) = g.map (s.snapshot d) := by
  obtain ⟨arity, name, code, constants, marks⟩ := f
  obtain ⟨arity', name', code', constants', marks'⟩ := g
  simp only [functionChecks, List.cons_append, List.forall_mem_cons, List.forall_mem_append,
    List.forall_mem_map, holds_settled, holds_values, Bool.and_eq_true, beq_iff_eq, Function.map,
    Chunk.map, Function.mk.injEq, Chunk.mk.injEq, map_eq_map_iff]
  tauto

theorem closureChecks_iff (c c' : Value.Code) : (∀ x ∈ closureChecks c c', x.Holds s d) ↔
    (s.closureNode c).mapValues (s.snapshot d) = (s.closureNode c').mapValues (s.snapshot d) := by
  simp only [closureChecks, List.forall_mem_append, List.forall_mem_cons, List.forall_mem_map,
    functionChecks_iff, holds_settled, holds_cells, beq_iff_eq, closureNode, Closure.mapValues, Closure.map,
    Closure.mk.injEq, List.map_map, map_eq_map_iff, Function.comp_apply]

theorem recordChecks_iff (r q : Record Value.Method) : (∀ c ∈ recordChecks r q, c.Holds s d) ↔
    (s.recordNode r).map (Closure.mapValues (s.snapshot d)) =
      (s.recordNode q).map (Closure.mapValues (s.snapshot d)) := by
  have hmethods : (∀ c ∈ (r.methods.zip q.methods).flatMap fun p => closureChecks p.1.body p.2.body,
      c.Holds s d) ↔ ∀ p ∈ r.methods.zip q.methods,
        (s.closureNode p.1.body).mapValues (s.snapshot d) =
          (s.closureNode p.2.body).mapValues (s.snapshot d) := by
    simp only [← closureChecks_iff, List.mem_flatMap, forall_exists_index, and_imp]
    exact ⟨fun h p hp c hc => h c p hp hc, fun h c p hp hc => h p hp c hc⟩
  simp only [recordChecks, List.forall_mem_cons, hmethods, holds_settled, Bool.and_eq_true, beq_iff_eq,
    recordNode, Record.map, Record.mk.injEq, List.map_map, map_eq_map_iff, Function.comp_apply, and_assoc]

theorem Keyed.kind_eq (h : s.Keyed V) (hv : V v) (f : Value → Constant) :
    ((s.node v).map f).kind = v.kind := by
  cases v with
  | instanceOf ref =>
    obtain ⟨i, hi⟩ := Option.isSome_iff_exists.1 (h.present ref hv)
    simp only [node, hi]
    rfl
  | _ => rfl

theorem checks_iff (h : s.Keyed V) (hv : V v) (hw : V w) (hid : v.identical w = false) :
    (∀ c ∈ s.checks v w, c.Holds s d) ↔ s.snapshot (d + 1) v = s.snapshot (d + 1) w := by
  have hfalse : (∀ c ∈ [Check.settled false], c.Holds s d) ↔ False := by simp
  rw [snapshot, snapshot, Constant.mk.injEq]
  have hkind (he : (s.node v).map (s.snapshot d) = (s.node w).map (s.snapshot d)) : v.kind = w.kind := by
    rw [← h.kind_eq hv (s.snapshot d), ← h.kind_eq hw (s.snapshot d), he]
  cases v <;> cases w
  case function.function f g =>
    simp only [checks, node, Node.map, Node.function.injEq, functionChecks_iff]
  case closure.closure c d => simp only [checks, node, Node.map, Node.closure.injEq, closureChecks_iff]
  case record.record r q => simp only [checks, node, Node.map, Node.record.injEq, recordChecks_iff]
  case instanceOf.instanceOf a b =>
    obtain ⟨i, hi⟩ := Option.isSome_iff_exists.1 (h.present a hv)
    obtain ⟨j, hj⟩ := Option.isSome_iff_exists.1 (h.present b hw)
    simp only [checks, node, hi, hj, Node.map, Node.instanceOf.injEq, List.forall_mem_append,
      List.forall_mem_cons, List.forall_mem_map, recordChecks_iff, holds_settled, holds_values, beq_iff_eq,
      map_eq_map_iff]
    exact And.comm
  case bound.bound a m b n =>
    simp only [checks, node, Node.map, Node.bound.injEq, List.forall_mem_cons, closureChecks_iff,
      holds_values]
  all_goals
    refine hfalse.trans (iff_of_false id fun he => ?_)
    first
    | (cases hkind he; done)
    | simp_all [node, Node.map, Value.identical]

theorem functionChecks_inside {f g : Function Value} (hP : ∀ v ∈ f.parts, P v) (hQ : ∀ v ∈ g.parts, Q v) :
    ∀ c ∈ functionChecks f g, c.Inside s P Q := by
  simp only [functionChecks, List.cons_append, List.forall_mem_cons, List.forall_mem_append,
    List.forall_mem_map]
  exact ⟨trivial, fun p hp => ⟨hP _ (List.of_mem_zip hp).1, hQ _ (List.of_mem_zip hp).2⟩, trivial, nofun⟩

theorem closureChecks_inside {c c' : Value.Code} (hP : ∀ v ∈ (s.closureNode c).parts, P v)
    (hQ : ∀ v ∈ (s.closureNode c').parts, Q v) : ∀ x ∈ closureChecks c c', x.Inside s P Q := by
  have hcell {c : Value.Code} {r : CellRef} {v : Value} (hr : r ∈ c.captures)
      (hv : (s.cell r).closed = some v) : v ∈ (s.closureNode c).parts := by
    refine List.mem_append_right _ (List.mem_flatMap.2 ⟨_, List.mem_map_of_mem hr, ?_⟩)
    rw [hv]
    exact List.mem_singleton_self v
  simp only [closureChecks, List.forall_mem_append, List.forall_mem_cons, List.forall_mem_map]
  refine ⟨functionChecks_inside (fun v hv => hP v (List.mem_append_left _ hv))
    fun v hv => hQ v (List.mem_append_left _ hv), trivial, fun p hp => ?_⟩
  exact ⟨fun v hv => hP v (hcell (List.of_mem_zip hp).1 hv), fun v hv => hQ v (hcell (List.of_mem_zip hp).2 hv)⟩

theorem recordChecks_inside {r q : Record Value.Method} (hP : ∀ v ∈ (s.recordNode r).parts, P v)
    (hQ : ∀ v ∈ (s.recordNode q).parts, Q v) : ∀ c ∈ recordChecks r q, c.Inside s P Q := by
  have hmethod {r : Record Value.Method} {m : Value.Method} {v : Value} (hm : m ∈ r.methods)
      (hv : v ∈ (s.closureNode m.body).parts) : v ∈ (s.recordNode r).parts :=
    List.mem_flatMap.2 ⟨_, List.mem_map_of_mem hm, hv⟩
  simp only [recordChecks, List.forall_mem_cons, List.mem_flatMap]
  refine ⟨trivial, ?_⟩
  rintro c ⟨p, hp, hc⟩
  exact closureChecks_inside (fun v hv => hP v (hmethod (List.of_mem_zip hp).1 hv))
    (fun v hv => hQ v (hmethod (List.of_mem_zip hp).2 hv)) c hc

/-- Only values directly inside of the two are checked. -/
theorem checks_inside (v w : Value) :
    ∀ c ∈ s.checks v w, c.Inside s (· ∈ (s.node v).parts) (· ∈ (s.node w).parts) := by
  unfold checks
  split
  · exact functionChecks_inside (fun _ => id) fun _ => id
  · exact closureChecks_inside (fun _ => id) fun _ => id
  · exact recordChecks_inside (fun _ => id) fun _ => id
  · split
    · rename_i i j hi hj
      simp only [node, hi, hj, Node.parts, List.forall_mem_append, List.forall_mem_cons, List.forall_mem_map]
      refine ⟨recordChecks_inside (fun v hv => List.mem_append_left _ hv)
        fun v hv => List.mem_append_left _ hv, trivial, fun p hp => ?_⟩
      exact ⟨List.mem_append_right _ (List.of_mem_zip hp).1, List.mem_append_right _ (List.of_mem_zip hp).2⟩
    · exact List.forall_mem_singleton.2 trivial
  · refine List.forall_mem_cons.2 ⟨⟨List.mem_cons_self .., List.mem_cons_self ..⟩, ?_⟩
    exact closureChecks_inside (fun v hv => List.mem_cons_of_mem _ hv) fun v hv => List.mem_cons_of_mem _ hv
  · exact List.forall_mem_singleton.2 trivial

/-! ## Answers -/

section Answers

variable {α : Type} {p : α → Option Bool} {l : List α}

theorem allM_eq_some {b : Bool} (h : l.allM p = some b) :
    if b then ∀ a ∈ l, p a = some true else ∃ a ∈ l, p a = some false := by
  induction l with
  | nil =>
    cases h
    exact nofun
  | cons a l ih =>
    rw [List.allM] at h
    cases hp : p a with
    | none =>
      rw [hp] at h
      cases h
    | some x =>
      rw [hp] at h
      cases x with
      | false =>
        cases h
        exact ⟨a, List.mem_cons_self .., hp⟩
      | true =>
        have := ih h
        cases b with
        | true => exact List.forall_mem_cons.2 ⟨hp, this⟩
        | false =>
          obtain ⟨c, hc, hf⟩ := this
          exact ⟨c, List.mem_cons_of_mem _ hc, hf⟩

theorem allM_of_forall (h : ∀ a ∈ l, p a = some true) : l.allM p = some true := by
  induction l with
  | nil => rfl
  | cons a l ih =>
    rw [List.forall_mem_cons] at h
    rw [List.allM, h.1]
    exact ih h.2

theorem allM_isSome (h : ∀ a ∈ l, (p a).isSome = true) : (l.allM p).isSome = true := by
  induction l with
  | nil => rfl
  | cons a l ih =>
    rw [List.forall_mem_cons] at h
    obtain ⟨x, hx⟩ := Option.isSome_iff_exists.1 h.1
    rw [List.allM, hx]
    cases x with
    | false => rfl
    | true => exact ih h.2

end Answers

theorem identical_self : (v : Value) → v.identical v = true
  | .bound a m => by simp [Value.identical, identical_self a]
  | .int _ | .float _ | .string _ | .char _ | .bool _ | .nil | .void | .function _ | .closure _
  | .native _ | .range _ | .record _ | .instanceOf _ => by simp [Value.identical]

theorem Check.answer_eq_some {compare : List CellRef → Value → Value → Option Bool} {c : Check} {b : Bool}
    (hc : c.Inside s P Q) (hcompare : ∀ locked v w b, P v → Q w → compare locked v w = some b →
      (b = true ↔ s.snapshot d v = s.snapshot d w)) (h : c.answer s compare locked = some b) :
    b = true ↔ c.Holds s d := by
  cases c with
  | settled agrees =>
    cases h
    exact Iff.rfl
  | values v w => exact hcompare locked v w b hc.1 hc.2 h
  | cells r r' =>
    simp only [answer] at h
    rw [holds_cells]
    by_cases he : r = r'
    · rw [if_pos he] at h
      cases h
      exact iff_of_true rfl (by rw [he])
    rw [if_neg he] at h
    by_cases hl : r ∈ locked ∨ r' ∈ locked
    · rw [if_pos hl] at h
      cases h
    rw [if_neg hl] at h
    obtain ⟨hin, hin'⟩ := hc
    generalize s.cell r = x at h hin ⊢
    generalize s.cell r' = x' at h hin' ⊢
    obtain ⟨slot, position, closed⟩ := x
    obtain ⟨slot', position', closed'⟩ := x'
    simp only [Cell.map, Cell.mk.injEq, ← and_assoc]
    by_cases heq : slot = slot' ∧ position = position'
    · rw [if_pos heq] at h
      rw [and_iff_right heq]
      cases closed <;> cases closed'
      case some.some v w => rw [hcompare _ v w b (hin v rfl) (hin' w rfl) h, Option.map, Option.map, Option.some.injEq]
      all_goals
        cases h
        simp
    · rw [if_neg heq] at h
      cases h
      exact iff_of_false Bool.false_ne_true fun h' => heq h'.1

theorem same_eq_some (h : s.Keyed V) (hv : V v) (hw : V w) {b : Bool}
    (hsame : s.same d locked v w = some b) : b = true ↔ s.snapshot d v = s.snapshot d w := by
  induction d generalizing v w locked b with
  | zero =>
    cases hsame
    exact iff_of_true rfl rfl
  | succ d ih =>
    rw [same] at hsame
    by_cases hid : v.identical w = true
    · rw [if_pos hid] at hsame
      cases hsame
      exact iff_of_true rfl (by rw [h.eq v w hv hw hid])
    rw [if_neg hid] at hsame
    rw [← checks_iff h hv hw (by simpa using hid)]
    have hanswer (c : Check) (hc : c ∈ s.checks v w) {b : Bool}
        (ha : c.answer s (s.same d) locked = some b) : b = true ↔ c.Holds s d :=
      Check.answer_eq_some (checks_inside v w c hc) (fun _ a a' _ hin hin' =>
        ih (h.parts v hv a hin) (h.parts w hw a' hin')) ha
    have hall := allM_eq_some hsame
    cases b with
    | true => exact iff_of_true rfl fun c hc => (hanswer c hc (hall c hc)).1 rfl
    | false =>
      obtain ⟨c, hc, ha⟩ := hall
      exact iff_of_false Bool.false_ne_true fun hholds => Bool.noConfusion ((hanswer c hc ha).2 (hholds c hc))

/-! ## Values whose layers end -/

theorem shape_map {α β : Type} (f : α → β) (n : Node α) : (n.map f).shape = n.shape := by
  have hclosure (c : Closure α (Cell α)) :
      (c.mapValues f).mapValues (fun _ => ()) = c.mapValues fun _ => () := by
    simp [Closure.mapValues, Closure.map, Function.map, Chunk.map, Cell.map, Function.comp_def]
  cases n <;> simp [Node.shape, Node.map, Function.map, Chunk.map, Record.map, hclosure,
    Function.comp_def]

theorem snapshot_succ_iff : s.snapshot (d + 1) v = s.snapshot (d + 1) w ↔
    (s.node v).shape = (s.node w).shape ∧ List.Forall₂ (fun a b => s.snapshot d a = s.snapshot d b)
      (s.node v).parts (s.node w).parts := by
  have hparts : List.Forall₂ (fun a b => s.snapshot d a = s.snapshot d b) (s.node v).parts
      (s.node w).parts ↔ ((s.node v).map (s.snapshot d)).parts = ((s.node w).map (s.snapshot d)).parts := by
    rw [Node.parts_map, Node.parts_map, ← List.forall₂_eq_eq_eq, List.forall₂_map_left_iff,
      List.forall₂_map_right_iff]
  rw [snapshot, snapshot, Constant.mk.injEq, hparts, ← shape_map (s.snapshot d) (s.node v),
    ← shape_map (s.snapshot d) (s.node w)]
  exact ⟨fun he => he ▸ ⟨rfl, rfl⟩, fun ⟨hs, hp⟩ => Node.eq_of_shape_parts hs hp⟩

theorem alike_of_ends (hends : s.Ends d v) (h : s.snapshot d v = s.snapshot d w) : s.Alike v w := by
  intro d'
  induction d' generalizing v w d with
  | zero => rfl
  | succ d' ih =>
    cases d with
    | zero => exact hends.elim
    | succ d =>
      rw [snapshot_succ_iff] at h ⊢
      refine ⟨h.1, List.forall₂_iff_zip.2 ⟨h.2.length_eq, fun {a b} hab => ?_⟩⟩
      exact ih (hends a (List.of_mem_zip hab).1) ((List.forall₂_iff_zip.1 h.2).2 hab)

theorem Alike.parts (h : s.Alike v w) : List.Forall₂ s.Alike (s.node v).parts (s.node w).parts := by
  have hparts (d : Nat) := List.forall₂_iff_zip.1 (snapshot_succ_iff.1 (h (d + 1))).2
  exact List.forall₂_iff_zip.2 ⟨(hparts 0).1, fun hab d => (hparts d).2 hab⟩

theorem Alike.ends (h : s.Alike v w) (hends : s.Ends d v) : s.Ends d w := by
  induction d generalizing v w with
  | zero => exact hends
  | succ d ih =>
    intro b hb
    obtain ⟨hl, hget⟩ := List.forall₂_iff_get.1 h.parts
    obtain ⟨i, hi, rfl⟩ := List.mem_iff_getElem.1 hb
    exact ih (hget i (hl ▸ hi) hi) (hends _ (List.get_mem ..))

theorem Ends.succ (h : s.Ends d v) : s.Ends (d + 1) v := by
  induction d generalizing v with
  | zero => exact h.elim
  | succ d ih => exact fun w hw => ih (h w hw)

theorem Ends.part (h : s.Ends d v) (hw : w ∈ (s.node v).parts) : s.Ends d w := by
  cases d with
  | zero => exact h.elim
  | succ d => exact (h w hw).succ

theorem not_ends_of_le {x : Value} (hbelow : ∀ n, s.Ends (n + 1) v → s.Ends n x)
    (hle : ∀ n, s.Ends n x → s.Ends n v) : ¬s.Ends d v := by
  induction d with
  | zero => exact id
  | succ d ih => exact fun h => ih (hle d (hbelow d h))

theorem same_of_alike (h : s.Keyed V) (hv : V v) (hw : V w) {k : Nat} (hends : s.Ends k v)
    (halike : s.Alike v w) (hlocked : ∀ r ∈ locked, ∃ x, (s.cell r).closed = some x ∧
      ∀ n, s.Ends n x → s.Ends n v) (d : Nat) : s.same d locked v w = some true := by
  induction d generalizing v w locked k with
  | zero => rfl
  | succ d ih =>
    rw [same]
    by_cases hid : v.identical w = true
    · rw [if_pos hid]
    rw [if_neg hid]
    refine allM_of_forall fun c hc => ?_
    have hholds (n : Nat) : c.Holds s n :=
      (checks_iff h hv hw (by simpa using hid)).2 (halike (n + 1)) c hc
    have hinside := checks_inside v w c hc
    cases c with
    | settled agrees => exact congrArg some (hholds 0)
    | values a b =>
      refine ih (h.parts v hv a hinside.1) (h.parts w hw b hinside.2) (hends.part hinside.1) hholds
        fun r hr => ?_
      obtain ⟨x, hx, hle⟩ := hlocked r hr
      exact ⟨x, hx, fun n hn => (hle n hn).part hinside.1⟩
    | cells r r' =>
      simp only [Check.answer]
      by_cases he : r = r'
      · rw [if_pos he]
      -- what is locked is too high to be inside of either value
      have hfree : ¬(r ∈ locked ∨ r' ∈ locked) := by
        rintro (hr | hr) <;> obtain ⟨x, hx, hle⟩ := hlocked _ hr
        · exact not_ends_of_le (fun n hn => hn x (hinside.1 x hx)) hle hends
        · exact not_ends_of_le (fun n hn => halike.ends hn x (hinside.2 x hx)) hle hends
      have hclosed (n : Nat) : (s.cell r).closed.map (s.snapshot n) =
          (s.cell r').closed.map (s.snapshot n) := congrArg Cell.closed (hholds n)
      have hcell := hholds 0
      simp only [holds_cells, Cell.map, Cell.mk.injEq] at hcell
      rw [if_neg he, if_neg hfree, if_pos ⟨hcell.1, hcell.2.1⟩]
      cases hx : (s.cell r).closed <;> cases hy : (s.cell r').closed
      case none.none => rfl
      all_goals rw [hx, hy] at hclosed
      case some.some x y =>
        have hxy : s.Alike x y := fun n => Option.some.inj (hclosed n)
        have hxv := hinside.1 x hx
        refine ih (h.parts v hv x hxv) (h.parts w hw y (hinside.2 y hy)) (hends.part hxv) hxy fun q hq => ?_
        rcases List.mem_cons.1 hq with rfl | hq
        · exact ⟨x, hx, fun _ => id⟩
        rcases List.mem_cons.1 hq with rfl | hq
        · exact ⟨y, hy, fun _ => Alike.ends fun n => (hxy n).symm⟩
        · obtain ⟨z, hz, hle⟩ := hlocked q hq
          exact ⟨z, hz, fun n hn => (hle n hn).part hxv⟩
      all_goals cases hclosed 0

theorem equal_iff_alike (h : s.Keyed V) (hv : V v) (hw : V w) (hends : s.Ends d v) :
    s.Equal v w ↔ s.Alike v w :=
  ⟨fun he n => (same_eq_some h hv hw (he n)).1 rfl,
    fun ha n => same_of_alike h hv hw hends ha (List.forall_mem_nil _) n⟩

theorem Keyed.equivalence (h : s.Keyed V) :
    Equivalence fun v w : {v // V v ∧ ∃ d, s.Ends d v} => s.Equal v w := by
  have hiff (v w : {v // V v ∧ ∃ d, s.Ends d v}) : s.Equal v w ↔ s.Alike v w := by
    obtain ⟨hv, d, hends⟩ := v.2
    exact equal_iff_alike h hv w.2.1 hends
  simp only [hiff]
  exact ⟨fun _ _ => rfl, fun h n => (h n).symm, fun h h' n => (h n).trans (h' n)⟩

theorem equal_iff_same (h : s.Keyed V) (hv : V v) (hw : V w) (hends : s.Ends d v) :
    s.Equal v w ↔ s.same d [] v w = some true := by
  refine ⟨fun he => he d, fun hs => (equal_iff_alike h hv hw hends).2 ?_⟩
  exact alike_of_ends hends ((same_eq_some h hv hw hs).1 rfl)

end Store

end StackScript
