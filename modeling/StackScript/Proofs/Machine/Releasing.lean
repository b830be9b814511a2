import StackScript.Lowering.Context
import StackScript.Proofs.Code.Placement
import StackScript.Proofs.Machine.Cells

/-!
# Releasing locals

Code that leaves a scope drops its locals from the newest on: captured ones one by one, the others
in runs. The machine ends as if they had been dropped all at once, each captured variable closed
over the value that it had before.
-/

namespace StackScript

open Lowering

/-! ## Scopes of the compiler -/

namespace Scope

/-- The scopes that exist while a function is compiled. -/
inductive Reachable : Scope → Prop
  | start (depth : Nat) : Reachable ⟨[], depth⟩
  | enter {s : Scope} : Reachable s → Reachable s.enter
  | leave {s : Scope} : Reachable s → Reachable s.leave
  | declare {s : Scope} (name : String) : Reachable s → Reachable (s.declare name).2
  | capture {s : Scope} (slot : Nat) : Reachable s → Reachable (s.capture slot)

/-- Newer locals are declared at least as deep as older ones, and none deeper than the scope is. -/
def Ordered (s : Scope) : Prop :=
  (s.depth :: s.locals.map Local.depth).Pairwise fun new old => old ≤ new

theorem takeWhile_eq_filter {ls : List Local} {p : Nat → Bool}
    (h : (ls.map Local.depth).Pairwise fun new old => old ≤ new)
    (hp : ∀ i j, i ≤ j → p i = true → p j = true) :
    ls.takeWhile (p ·.depth) = ls.filter (p ·.depth) ∧
      ∀ l ∈ ls.dropWhile (p ·.depth), p l.depth = false := by
  induction ls with
  | nil => exact ⟨rfl, nofun⟩
  | cons l ls ih =>
    obtain ⟨hl, hls⟩ := List.pairwise_cons.1 h
    cases hpl : p l.depth with
    | true =>
      simp only [List.takeWhile_cons, List.filter_cons, List.dropWhile_cons, hpl, if_true]
      exact ⟨by rw [(ih hls).1], (ih hls).2⟩
    | false =>
      have hold (l' : Local) (hl' : l' ∈ ls) : p l'.depth = false := by
        by_contra hpl'
        rw [hp _ _ (hl _ (List.mem_map_of_mem hl')) (by simpa using hpl')] at hpl
        cases hpl
      simp only [List.takeWhile_cons, List.filter_cons, List.dropWhile_cons, hpl, Bool.false_eq_true,
        if_false]
      exact ⟨(List.filter_eq_nil_iff.2 fun l' hl' => by simp [hold l' hl']).symm,
        List.forall_mem_cons.2 ⟨hpl, hold⟩⟩

theorem map_depth_captureIn (slot : Nat) (ls : List Local) :
    (captureIn slot ls).map Local.depth = ls.map Local.depth := by
  induction ls with
  | nil => rfl
  | cons l ls ih =>
    rw [captureIn]
    split
    · rfl
    · rw [List.map_cons, ih, List.map_cons]

theorem Reachable.ordered {s : Scope} (h : Reachable s) : s.Ordered := by
  unfold Ordered
  induction h with
  | start depth => exact List.pairwise_singleton _ _
  | enter _ ih =>
    obtain ⟨hle, hlocals⟩ := List.pairwise_cons.1 ih
    exact .cons (fun d hd => Nat.le_succ_of_le (hle d hd)) hlocals
  | @leave s _ ih =>
    obtain ⟨-, hlocals⟩ := List.pairwise_cons.1 ih
    have hleft := (takeWhile_eq_filter (p := (s.depth ≤ ·)) hlocals fun i j hij hi => by
      simp only [decide_eq_true_eq] at *
      omega).2
    refine .cons (fun d hd => ?_) (hlocals.sublist ((List.dropWhile_sublist _).map _))
    obtain ⟨l, hl, rfl⟩ := List.mem_map.1 hd
    have := hleft l hl
    simp only [decide_eq_false_iff_not] at this
    show l.depth ≤ s.depth - 1
    omega
  | @declare s name _ ih =>
    exact .cons (List.forall_mem_cons.2 ⟨Nat.le_refl _, (List.pairwise_cons.1 ih).1⟩) ih
  | @capture s slot _ ih =>
    show (s.depth :: (captureIn slot s.locals).map Local.depth).Pairwise _
    rwa [map_depth_captureIn]

theorem Reachable.length_above {s : Scope} (h : s.Reachable) (depth : Nat) :
    (s.above depth).length = s.locals.countP (depth < ·.depth) := by
  rw [List.countP_eq_length_filter]
  refine congrArg _ (takeWhile_eq_filter (p := (depth < ·)) (List.pairwise_cons.1 h.ordered).2
    fun i j hij hi => ?_).1
  simp only [decide_eq_true_eq] at *
  omega

end Scope

/-! ## One truncation after another -/

namespace Machine

variable {m : Machine} {a b : Nat}

/-- A cell after the locals from a position on have been dropped. -/
def closedAbove (m : Machine) (size i : Nat) (c : Cell Value) : Cell Value :=
  if ⟨i⟩ ∈ m.openCells ∧ size ≤ c.slot.toNat then
    { c with closed := some (m.locals[c.slot.toNat]?.getD .nil) }
  else c

theorem closeCells_eq (locals : Array Value) (refs : List CellRef) (s : Store) :
    refs.foldl (closeCell locals) s = { s with
      cells := s.cells.mapIdx fun i c =>
        if ⟨i⟩ ∈ refs then { c with closed := some (locals[c.slot.toNat]?.getD .nil) } else c } := by
  induction refs generalizing s with
  | nil =>
    have : s.cells.mapIdx (fun _ c => c) = s.cells := Array.ext (by simp) (by simp)
    simp [this]
  | cons r refs ih =>
    rw [List.foldl_cons, ih]
    show Store.mk _ _ _ = Store.mk _ _ _
    congr 1
    refine Array.ext (by simp [closeCell, Store.setCell]) fun i h₁ h₂ => ?_
    simp only [Array.size_mapIdx] at h₂
    simp only [closeCell, Store.setCell, Store.cell, Array.getElem_mapIdx,
      Array.getElem_setIfInBounds h₂, List.mem_cons]
    by_cases hi : r.index = i
    · subst hi
      simp [h₂]
    · have hne : (⟨i⟩ : CellRef) ≠ r := fun he => hi (by rw [← he])
      simp [hi, hne]

/-- The machine after locals have been dropped. -/
theorem truncated_eq (size : Nat) (m : Machine) : m.truncated size = { m with
    store := { m.store with cells := m.store.cells.mapIdx (m.closedAbove size) }
    openCells := m.openCells.filter fun r => (m.store.cell r).slot.toNat < size
    locals := m.locals.shrink size } := by
  unfold truncated
  rw [List.partition_eq_filter_filter, closeCells_eq]
  have hcells : m.store.cells.mapIdx (fun i c => if (⟨i⟩ : CellRef) ∈ m.openCells.filter
        (not ∘ fun r => decide ((m.store.cell r).slot.toNat < size)) then
        { c with closed := some (m.locals[c.slot.toNat]?.getD .nil) } else c) =
      m.store.cells.mapIdx (m.closedAbove size) := by
    refine Array.ext (by simp) fun i h₁ h₂ => ?_
    simp only [Array.size_mapIdx] at h₂
    simp [closedAbove, Store.cell, h₂]
  rw [hcells]

theorem slot_closedAbove (size i : Nat) (c : Cell Value) : (m.closedAbove size i c).slot = c.slot := by
  unfold closedAbove
  split <;> rfl

/-- Dropping locals moves no cell to another local. -/
theorem slot_truncated (size : Nat) (r : CellRef) :
    ((m.truncated size).store.cell r).slot = (m.store.cell r).slot := by
  rw [truncated_eq]
  by_cases h : r.index < m.store.cells.size
  · simp [Store.cell, h, slot_closedAbove]
  · simp [Store.cell, h]

theorem truncated_truncated (hb : b ≤ a) (ha : a ≤ m.locals.size) :
    (m.truncated a).truncated b = m.truncated b := by
  have hopen : (m.truncated a).openCells.filter
        (fun r => ((m.truncated a).store.cell r).slot.toNat < b) =
      m.openCells.filter fun r => (m.store.cell r).slot.toNat < b := by
    simp only [slot_truncated]
    rw [truncated_eq, List.filter_filter]
    refine List.filter_congr fun r _ => ?_
    simp only [← Bool.decide_and, decide_eq_decide]
    omega
  have hlocals : (m.truncated a).locals.shrink b = m.locals.shrink b := by
    refine Array.ext (by simp [truncated]; omega) fun i h₁ h₂ => ?_
    simp [truncated]
  have hcells : (m.truncated a).store.cells.mapIdx ((m.truncated a).closedAbove b) =
      m.store.cells.mapIdx (m.closedAbove b) := by
    refine Array.ext_getElem? fun i => ?_
    have hi : (m.truncated a).store.cells[i]? = m.store.cells[i]?.map (m.closedAbove a i) := by
      rw [truncated_eq, Array.getElem?_mapIdx]
    rw [Array.getElem?_mapIdx, Array.getElem?_mapIdx, hi, Option.map_map]
    refine Option.map_congr fun c hc => ?_
    have hcell : m.store.cell ⟨i⟩ = c := by simp [Store.cell, hc]
    -- A cell is closed the first time if its local is dropped then, and at most once.
    have hmem : ⟨i⟩ ∈ (m.truncated a).openCells ↔ ⟨i⟩ ∈ m.openCells ∧ c.slot.toNat < a := by
      rw [mem_openCells_truncated, hcell]
    simp only [Function.comp_apply, closedAbove, hmem]
    by_cases hopen : (⟨i⟩ : CellRef) ∈ m.openCells
    · by_cases hslot : a ≤ c.slot.toNat
      · simp [hopen, hslot, Nat.not_lt.2 hslot, Nat.le_trans hb hslot]
      · have hlocal : (m.truncated a).locals[c.slot.toNat]? = m.locals[c.slot.toNat]? :=
          getElem?_shrink (by simp; omega)
        simp [hopen, hslot, Nat.lt_of_not_le hslot, hlocal]
    · simp [hopen]
  rw [truncated_eq b (m.truncated a), truncated_eq b m, hopen, hlocals, hcells, truncated_eq a m]

/-- Where no local is dropped, nothing is closed. -/
theorem truncated_self (h : ∀ r ∈ m.openCells, (m.store.cell r).slot.toNat < m.locals.size) :
    m.truncated m.locals.size = m := by
  unfold truncated
  have hstay : m.openCells.filter (fun r => (m.store.cell r).slot.toNat < m.locals.size) =
      m.openCells := List.filter_eq_self.2 fun r hr => by simpa using h r hr
  have hclose : m.openCells.filter (not ∘ fun r => (m.store.cell r).slot.toNat < m.locals.size) =
      [] := List.filter_eq_nil_iff.2 fun r hr => by simpa using h r hr
  rw [List.partition_eq_filter_filter, hstay, hclose]
  have hshrink : m.locals.shrink m.locals.size = m.locals := Array.ext (by simp) (by simp)
  rw [hshrink]
  rfl

/-! ## Running the code -/

variable {host : Host} {span : Span} {next n : Nat}

/-- The machine gets to an offset of its code, where it has dropped some locals and nothing else. -/
def Releases (host : Host) (m : Machine) (n next : Nat) : Prop :=
  ∃ t, run host t m = (.unfinished, (m.truncated (m.locals.size - n)).movedTo next)

theorem size_truncated (m : Machine) (n : Nat) :
    (m.truncated (m.locals.size - n)).locals.size = m.locals.size - n :=
  Array.size_shrink.trans (Nat.min_eq_left (Nat.sub_le ..))

theorem Releases.trans {k next' : Nat} (h : m.Releases host n next) (hk : n + k ≤ m.locals.size)
    (h' : ((m.truncated (m.locals.size - n)).movedTo next).Releases host k next') :
    m.Releases host (n + k) next' := by
  obtain ⟨t, ht⟩ := h
  obtain ⟨t', ht'⟩ := h'
  refine ⟨t + t', ?_⟩
  rw [run_add ht, ht']
  show (_, ((m.truncated (m.locals.size - n)).truncated
    ((m.truncated (m.locals.size - n)).locals.size - k)).movedTo next') = _
  rw [size_truncated, truncated_truncated (by omega) (by omega), Nat.sub_sub]

theorem releases_of_fetch (host : Host) {i : Instruction}
    (hf : fetch m.chunk m.frame.ip = .ok (i, next))
    (hi : ∀ m' : Machine, execute host m.frame.ip next i.op i.args m' =
      (dropLocals n >>= fun _ => pure .running : Exec Status) m')
    (hm : n ≤ m.locals.size) : m.Releases host n next := by
  have hdrop : dropLocals n (m.movedTo next) =
      .ok () ((m.truncated (m.locals.size - n)).movedTo next) := by
    rw [dropLocals_eq, if_pos hm]
    rfl
  refine ⟨1, run_succ ?_⟩
  rw [step_of_fetch hf, hi, bind_ok hdrop]
  rfl

/-- Every open cell belongs to a local that exists. -/
def CellsBelow (m : Machine) : Prop := ∀ r ∈ m.openCells, (m.store.cell r).slot.toNat < m.locals.size

theorem cellsBelow_truncated (m : Machine) (n : Nat) :
    (m.truncated (m.locals.size - n)).CellsBelow := fun r hr => by
  rw [slot_truncated, size_truncated]
  exact (mem_openCells_truncated.1 hr).2

/-- The code for a run of locals drops them. -/
theorem releases_dropLocals (host : Host) (hn : n < 2 ^ 32) (hm : n ≤ m.locals.size) (hbelow : m.CellsBelow)
    (hp : Fragment.Placed m.chunk.code m.frame.ip (Lowering.dropLocals n span)) :
    m.Releases host n (m.frame.ip + (Lowering.dropLocals n span).size) := by
  rcases n with _ | _ | n
  · refine ⟨0, ?_⟩
    rw [Nat.sub_zero, truncated_self hbelow]
    rfl
  · exact releases_of_fetch host (hp.fetch trivial) (fun _ => rfl) hm
  · have hk : (n + 2).toUInt32.toNat = n + 2 := Word.toNat_toUInt32 hn
    have hreleases := releases_of_fetch host (n := (n + 2).toUInt32.toNat)
      (hp.fetch trivial) (fun _ => rfl) (by omega)
    rwa [hk] at hreleases

theorem releases_releaseAfter (host : Host) {ls : List Local} (hn : n + ls.length < 2 ^ 32)
    (hm : n + ls.length ≤ m.locals.size) (hbelow : m.CellsBelow)
    (hp : Fragment.Placed m.chunk.code m.frame.ip
      (releaseAfter n span ls)) :
    m.Releases host (n + ls.length) (m.frame.ip + (releaseAfter n span ls).size) := by
  induction ls generalizing n m with
  | nil => exact releases_dropLocals host hn hm hbelow hp
  | cons l ls ih =>
    rw [List.length_cons] at hn hm ⊢
    unfold releaseAfter at hp ⊢
    split at hp
    · rename_i hl
      rw [if_pos hl]
      -- First the run is dropped, then the captured local is closed, then come the others.
      have hrun := releases_dropLocals host (by omega) (by omega) hbelow hp.left.left
      have hclosed := hrun.trans (by omega) (releases_of_fetch host (hp.left.right.fetch trivial)
        (fun _ => rfl) (by rw [size_truncated]; omega))
      rw [Nat.add_assoc, ← Fragment.size_emit _ span, ← Fragment.size_append] at hclosed
      have hrest := ih (n := 0) (m := (m.truncated (m.locals.size - (n + 1))).movedTo (m.frame.ip +
          (Lowering.dropLocals n span ++ .emit ⟨.closeUpvalue, ()⟩ span).size))
        (by omega) (by rw [size_truncated]; omega) (cellsBelow_truncated m (n + 1)) hp.right
      rw [Fragment.size_append, ← Nat.add_assoc m.frame.ip,
        show n + (ls.length + 1) = n + 1 + (0 + ls.length) by omega]
      exact hclosed.trans (by omega) hrest
    · rw [if_neg ‹_›, show n + (ls.length + 1) = n + 1 + ls.length by omega]
      exact ih (by omega) (by omega) hbelow hp

theorem cell_truncated (size : Nat) {r : CellRef} (h : r.index < m.store.cells.size) :
    (m.truncated size).store.cell r = m.closedAbove size r.index (m.store.cell r) := by
  rw [truncated_eq]
  simp [Store.cell, h]

/-- Where code that releases the locals below a depth stands, it has the effect of one truncation: as
many locals are dropped as are declared deeper, each open cell of one of them is closed over the value
that its local had at the beginning, and the other cells and the stack stay as they are. -/
theorem release_eq_truncateLocals (host : Host) {c : Context}
    (hs : c.frame.scope.Reachable)
    (hlocals : c.frame.scope.locals.length < 2 ^ 32) (depth : Nat)
    (hm : c.frame.scope.locals.countP (depth < ·.depth) ≤ m.locals.size)
    (hbelow : ∀ r ∈ m.openCells, (m.store.cell r).slot.toNat < m.locals.size)
    (hp : Fragment.Placed m.frame.closure.function.chunk.code m.frame.ip
      (release depth span c).1) :
    let height := m.locals.size - c.frame.scope.locals.countP (depth < ·.depth)
    ∃ t m', truncateLocals height m = .ok () m' ∧
      run host t m =
        (.unfinished, m'.movedTo (m.frame.ip + (release depth span c).1.size)) ∧
      m'.locals = m.locals.extract 0 height ∧ m'.locals.size = height ∧ m'.stack = m.stack ∧
      (∀ r, r ∈ m'.openCells ↔ r ∈ m.openCells ∧ (m.store.cell r).slot.toNat < height) ∧
      ∀ r, r.index < m.store.cells.size → m'.store.cell r =
        if r ∈ m.openCells ∧ height ≤ (m.store.cell r).slot.toNat then
          { m.store.cell r with closed := m.locals[(m.store.cell r).slot.toNat]? }
        else m.store.cell r := by
  intro height
  have hcount := hs.length_above depth
  have hle : c.frame.scope.locals.countP (depth < ·.depth) ≤ c.frame.scope.locals.length :=
    List.countP_le_length
  obtain ⟨t, ht⟩ := releases_releaseAfter host (by omega) (by omega) hbelow hp
  rw [Nat.zero_add, hcount] at ht
  refine ⟨t, m.truncated height, rfl, ht, ?_, size_truncated m _, rfl,
    fun r => mem_openCells_truncated, fun r hr => ?_⟩
  · exact Array.ext (by simp [truncated]) (by simp [truncated])
  · rw [cell_truncated height hr, closedAbove]
    split
    · rename_i hclosed
      rw [Array.getElem?_eq_getElem (hbelow r hclosed.1)]
      rfl
    · rfl

/-- A point of the compilation with four locals, of which the third is captured. -/
def mixedLocals : Context :=
  { frame := { scope := ⟨[⟨"c", 1, false⟩, ⟨"b", 1, true⟩, ⟨"a", 1, false⟩, ⟨"f", 0, false⟩], 1⟩ } }

/-- A machine that is about to release the three inner ones, where one cell of each is open. -/
def mixedMachine : Machine :=
  { store := { cells := #[⟨3, 0, none⟩, ⟨0, 0, none⟩, ⟨2, 1, none⟩] }
    locals := #[.int 1, .int 2, .int 3, .int 4]
    openCells := [⟨0⟩, ⟨1⟩, ⟨2⟩]
    frame := { closure := ⟨⟨0, (release 0 {} mixedLocals).1.toChunk none []⟩, []⟩ } }

theorem release_eq_truncateLocals_mixed :
    ∃ t m', run ⟨fun _ _ _ _ => .error "", fun _ => false⟩ t mixedMachine = (.unfinished, m') ∧
      m'.locals = #[.int 1] ∧ (m'.store.cell ⟨0⟩).closed = some (.int 4) ∧
      (m'.store.cell ⟨1⟩).closed = none ∧ (m'.store.cell ⟨2⟩).closed = some (.int 3) := by
  have hs : mixedLocals.frame.scope.Reachable := (((((Scope.Reachable.start 0).declare "f").enter.declare
    "a").declare "b").capture 2).declare "c"
  have hcode : (release 0 {} mixedLocals).1 = [.instruction ⟨.popLocal, ()⟩ {},
    .instruction ⟨.closeUpvalue, ()⟩ {}, .instruction ⟨.popLocal, ()⟩ {}] := rfl
  have hp : Fragment.Placed mixedMachine.frame.closure.function.chunk.code mixedMachine.frame.ip
      (release 0 {} mixedLocals).1 :=
    ⟨⟨[], [], by rw [List.append_nil]; exact Fragment.code_toChunk .., rfl⟩, fun _ _ _ hmem => by
      rw [hcode] at hmem
      simp at hmem⟩
  obtain ⟨t, m', -, ht, hlocals, -, -, -, hcell⟩ := release_eq_truncateLocals
    ⟨fun _ _ _ _ => .error "", fun _ => false⟩ hs (by decide) 0 (by decide) (by decide) hp
  exact ⟨t, _, ht, hlocals, by rw [hcell ⟨0⟩ (by decide)]; rfl, by rw [hcell ⟨1⟩ (by decide)]; rfl,
    by rw [hcell ⟨2⟩ (by decide)]; rfl⟩

end Machine

end StackScript
