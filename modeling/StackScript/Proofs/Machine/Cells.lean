import Mathlib.Data.List.Forall2
import Mathlib.Data.List.Pairwise
import StackScript.Proofs.Machine.Effects

/-!
# The cells of captured variables

`Tracks` says that the list of open cells of a machine is right: it has exactly the open cells of
the run, and for each local at most one. Then a cell stands for one variable: what it denotes does
not change when locals are dropped, and writing a variable changes no other one.
-/

namespace StackScript.Machine

variable {ref : CellRef} {position slot : Nat}

/-- The list of open cells is right. The cells that are older than the run do not matter. -/
structure Tracks (base : Store) (m : Machine) : Prop where
  young : ∀ ref ∈ m.openCells, base.cells.size ≤ ref.index
  exists_cell : ∀ ref ∈ m.openCells, ref.index < m.store.cells.size
  isOpen : ∀ ref ∈ m.openCells, (m.store.cell ref).closed = none
  listed : ∀ ref : CellRef, base.cells.size ≤ ref.index → ref.index < m.store.cells.size →
    (m.store.cell ref).closed = none → ref ∈ m.openCells
  distinct : m.openCells.Pairwise fun r s => (m.store.cell r).slot ≠ (m.store.cell s).slot

variable {base : Store} {m m' m'' : Machine}

/-- Open cells of one variable are the same. -/
theorem Tracks.eq_of_slot (h : m.Tracks base) {r s : CellRef} (hr : r ∈ m.openCells)
    (hs : s ∈ m.openCells) (he : (m.store.cell r).slot = (m.store.cell s).slot) : r = s := by
  by_contra hne
  have : Std.Symm fun r s : CellRef => (m.store.cell r).slot ≠ (m.store.cell s).slot :=
    ⟨fun _ _ hab => hab.symm⟩
  exact h.distinct.forall hr hs hne he

/-! ## Opening cells -/

/-- Cells may have been added, and all else is the same. -/
structure Grows (m m' : Machine) : Prop where
  frame : m'.frame = m.frame
  callers : m'.callers = m.callers
  globals : m'.globals = m.globals
  locals : m'.locals = m.locals
  cells : ∃ added, m'.store.cells = m.store.cells ++ added
  openCells : ∃ added, m'.openCells = m.openCells ++ added
  fresh : ∀ ref : CellRef, m.store.cells.size ≤ ref.index → ref.index < m'.store.cells.size →
    ref ∈ m'.openCells

theorem Grows.refl (m : Machine) : m.Grows m :=
  ⟨rfl, rfl, rfl, rfl, ⟨#[], by simp⟩, ⟨[], by simp⟩, fun _ hle hlt => absurd hle (Nat.not_le.2 hlt)⟩

theorem Grows.trans (h : m.Grows m') (h' : m'.Grows m'') : m.Grows m'' := by
  obtain ⟨a, ha⟩ := h.cells
  obtain ⟨b, hb⟩ := h'.cells
  obtain ⟨c, hc⟩ := h.openCells
  obtain ⟨d, hd⟩ := h'.openCells
  refine ⟨h'.frame.trans h.frame, h'.callers.trans h.callers, h'.globals.trans h.globals,
    h'.locals.trans h.locals, ⟨a ++ b, by rw [hb, ha, Array.append_assoc]⟩,
    ⟨c ++ d, by rw [hd, hc, List.append_assoc]⟩, fun ref hle hlt => ?_⟩
  by_cases hlt' : ref.index < m'.store.cells.size
  · rw [hd]
    exact List.mem_append_left _ (h.fresh ref hle hlt')
  · exact h'.fresh ref (Nat.le_of_not_lt hlt') hlt

theorem Grows.size_le (h : m.Grows m') : m.store.cells.size ≤ m'.store.cells.size := by
  obtain ⟨added, ha⟩ := h.cells
  rw [ha, Array.size_append]
  exact Nat.le_add_right _ _

theorem Grows.cell (h : m.Grows m') (hr : ref.index < m.store.cells.size) :
    m'.store.cell ref = m.store.cell ref := by
  obtain ⟨added, ha⟩ := h.cells
  unfold Store.cell
  rw [ha, Array.getD_eq_getD_getElem?, Array.getD_eq_getD_getElem?, Array.getElem?_append_left hr]

theorem Grows.mem_openCells (h : m.Grows m') (hr : ref ∈ m.openCells) : ref ∈ m'.openCells := by
  obtain ⟨added, ha⟩ := h.openCells
  rw [ha]
  exact List.mem_append_left _ hr

theorem Grows.denoted (h : m.Grows m') (hr : ref.index < m.store.cells.size) :
    m'.denoted ref = m.denoted ref := by
  unfold Machine.denoted
  rw [h.cell hr, h.locals]

/-- The machine with a new open cell for the local at a position. -/
def withCell (slot position : Nat) (m : Machine) : Machine :=
  { m with
    store := { m.store with cells := m.store.cells.push ⟨slot.toUInt32, position.toUInt32, none⟩ }
    openCells := m.openCells ++ [⟨m.store.cells.size⟩] }

theorem openCell_eq (slot position : Nat) (m : Machine) :
    (∃ ref ∈ m.openCells, (m.store.cell ref).slot.toNat = slot ∧ openCell slot position m = .ok ref m) ∨
      (∀ r ∈ m.openCells, (m.store.cell r).slot.toNat ≠ slot) ∧
        openCell slot position m = .ok ⟨m.store.cells.size⟩ (m.withCell slot position) := by
  cases hf : m.openCells.find? fun ref => (m.store.cell ref).slot.toNat = slot with
  | some r =>
    exact .inl ⟨r, List.mem_of_find?_eq_some hf, by simpa using List.find?_some hf, openCell_of_find hf⟩
  | none =>
    exact .inr ⟨fun r hr => by simpa using List.find?_eq_none.1 hf r hr, openCell_of_find_none hf⟩

theorem cell_withCell_of_lt (hr : ref.index < m.store.cells.size) :
    (m.withCell slot position).store.cell ref = m.store.cell ref :=
  (Store.cell_push ..).trans (if_neg (Nat.ne_of_lt hr))

theorem cell_withCell_new :
    (m.withCell slot position).store.cell ⟨m.store.cells.size⟩ =
      ⟨slot.toUInt32, position.toUInt32, none⟩ :=
  (Store.cell_push ..).trans (if_pos rfl)

theorem grows_withCell : m.Grows (m.withCell slot position) := by
  refine ⟨rfl, rfl, rfl, rfl, ⟨#[_], Array.push_eq_append⟩, ⟨_, rfl⟩, fun ref hle hlt => ?_⟩
  have hsize : (m.withCell slot position).store.cells.size = m.store.cells.size + 1 :=
    Array.size_push ..
  have hindex : ref.index = m.store.cells.size := by omega
  refine List.mem_append_right _ (List.mem_singleton.2 ?_)
  cases ref
  exact congrArg _ hindex

theorem Tracks.withCell (h : m.Tracks base) (hb : base.cells.size ≤ m.store.cells.size)
    (hs : slot < 2 ^ 32) (hn : ∀ r ∈ m.openCells, (m.store.cell r).slot.toNat ≠ slot) :
    (m.withCell slot position).Tracks base := by
  have hold {r : CellRef} (hr : r ∈ m.openCells) :
      (m.withCell slot position).store.cell r = m.store.cell r :=
    cell_withCell_of_lt (h.exists_cell r hr)
  have hsize : (m.withCell slot position).store.cells.size = m.store.cells.size + 1 :=
    Array.size_push ..
  refine ⟨?_, ?_, ?_, ?_, ?_⟩
  · intro ref hr
    rcases List.mem_append.1 hr with hr | hr
    · exact h.young ref hr
    · rw [List.mem_singleton.1 hr]
      exact hb
  · intro ref hr
    rw [hsize]
    rcases List.mem_append.1 hr with hr | hr
    · exact Nat.lt_succ_of_lt (h.exists_cell ref hr)
    · rw [List.mem_singleton.1 hr]
      exact Nat.lt_succ_self _
  · intro ref hr
    rcases List.mem_append.1 hr with hr | hr
    · rw [hold hr]
      exact h.isOpen ref hr
    · rw [List.mem_singleton.1 hr, cell_withCell_new]
  · intro ref hb hlt hopen
    rw [hsize] at hlt
    rcases Nat.lt_or_eq_of_le (Nat.le_of_lt_succ hlt) with hlt | heq
    · rw [cell_withCell_of_lt hlt] at hopen
      exact List.mem_append_left _ (h.listed ref hb hlt hopen)
    · refine List.mem_append_right _ (List.mem_singleton.2 ?_)
      cases ref
      exact congrArg _ heq
  · refine List.pairwise_append.2 ⟨?_, List.pairwise_singleton _ _, ?_⟩
    · refine h.distinct.imp_of_mem fun hr hs hne => ?_
      rwa [hold hr, hold hs]
    · intro r hr new hnew
      rw [List.mem_singleton.1 hnew, cell_withCell_new, hold hr]
      intro he
      refine hn r hr ?_
      rw [he]
      exact Word.toNat_toUInt32 hs

/-- The cell that a capture takes: the open one of a local, or one of the running closure. -/
def Takes (m : Machine) (c : Capture) (ref : CellRef) : Prop :=
  if c.fromLocal then
    ref ∈ m.openCells ∧ (m.store.cell ref).slot.toNat = m.frame.localsBase + c.index.toNat
  else m.frame.closure.captures[c.index.toNat]? = some ref

theorem Takes.grows {c : Capture} (h : m.Takes c ref) (ht : m.Tracks base) (hg : m.Grows m') :
    m'.Takes c ref := by
  unfold Takes at h ⊢
  rw [hg.frame]
  split
  · rename_i hl
    rw [if_pos hl] at h
    exact ⟨hg.mem_openCells h.1, by rw [hg.cell (ht.exists_cell ref h.1), h.2]⟩
  · rename_i hl
    rwa [if_neg hl] at h

/-- What opening the cell of a local does. -/
theorem openCell_takes {c : Capture} (hl : c.fromLocal = true)
    (h : openCell (m.frame.localsBase + c.index.toNat) position m = .ok ref m') (ht : m.Tracks base)
    (hb : base.cells.size ≤ m.store.cells.size) (hs : m.frame.localsBase + c.index.toNat < 2 ^ 32) :
    m'.Tracks base ∧ m.Grows m' ∧ m'.Takes c ref ∧ ∀ r ∈ m'.openCells, r ∉ m.openCells → r = ref := by
  unfold Takes
  rw [if_pos hl]
  rcases openCell_eq _ position m with ⟨_, hr, hslot, he⟩ | ⟨hn, he⟩ <;> cases he.symm.trans h
  · exact ⟨ht, .refl _, ⟨hr, hslot⟩, fun r hr hnot => absurd hr hnot⟩
  · refine ⟨ht.withCell hb hs hn, grows_withCell, ⟨?_, ?_⟩, fun r hr hnot => ?_⟩
    · exact List.mem_append_right _ (List.mem_singleton.2 rfl)
    · rw [cell_withCell_new]
      exact Word.toNat_toUInt32 hs
    · exact List.mem_singleton.1 ((List.mem_append.1 hr).resolve_left hnot)

theorem captureCells_takes {cs : List Capture} {refs : List CellRef}
    (h : captureCells position cs m = .ok refs m') (ht : m.Tracks base)
    (hb : base.cells.size ≤ m.store.cells.size)
    (hs : ∀ c ∈ cs, c.fromLocal = true → m.frame.localsBase + c.index.toNat < 2 ^ 32) :
    m'.Tracks base ∧ m.Grows m' ∧ List.Forall₂ m'.Takes cs refs ∧
      ∀ ref ∈ m'.openCells, ref ∉ m.openCells → ∃ c ∈ cs, c.fromLocal = true ∧ m'.Takes c ref := by
  induction cs generalizing position m refs with
  | nil =>
    cases h
    exact ⟨ht, .refl _, .nil, fun ref hr hnot => absurd hr hnot⟩
  | cons c cs ih =>
    have hrest {ref : CellRef} {m₁ : Machine} (ht₁ : m₁.Tracks base) (hg₁ : m.Grows m₁)
        (hc : m₁.Takes c ref)
        (hopen : ∀ r ∈ m₁.openCells, r ∉ m.openCells → c.fromLocal = true ∧ r = ref)
        (hx : (captureCells (position + 1) cs >>= fun refs => pure (ref :: refs)) m₁ = .ok refs m') :
        m'.Tracks base ∧ m.Grows m' ∧ List.Forall₂ m'.Takes (c :: cs) refs ∧
          ∀ ref ∈ m'.openCells, ref ∉ m.openCells →
            ∃ c' ∈ c :: cs, c'.fromLocal = true ∧ m'.Takes c' ref := by
      obtain ⟨refs', m₂, hrefs, hx⟩ := exists_of_bind_ok hx
      cases hx
      obtain ⟨ht₂, hg₂, htakes, hnew⟩ := ih hrefs ht₁ (Nat.le_trans hb hg₁.size_le) fun c' hc' hl => by
        rw [hg₁.frame]
        exact hs c' (List.mem_cons_of_mem _ hc') hl
      refine ⟨ht₂, hg₁.trans hg₂, .cons (hc.grows ht₁ hg₂) htakes, fun r hr hnot => ?_⟩
      by_cases hr₁ : r ∈ m₁.openCells
      · obtain ⟨hl, rfl⟩ := hopen r hr₁ hnot
        exact ⟨c, List.mem_cons_self .., hl, hc.grows ht₁ hg₂⟩
      · obtain ⟨c', hc', hl, htake⟩ := hnew r hr hr₁
        exact ⟨c', List.mem_cons_of_mem _ hc', hl, htake⟩
    rw [captureCells_cons] at h
    split at h
    · rename_i hl
      obtain ⟨slot, m₀, hslot, h⟩ := exists_of_bind_ok h
      cases hslot
      obtain ⟨ref, m₁, href, h⟩ := exists_of_bind_ok h
      obtain ⟨ht₁, hg₁, hc, hopen⟩ := openCell_takes hl href ht hb (hs c (List.mem_cons_self ..) hl)
      exact hrest ht₁ hg₁ hc (fun r hr hnot => ⟨hl, hopen r hr hnot⟩) h
    · rename_i hl
      obtain ⟨ref, m₁, href, hx⟩ := exists_of_bind_ok h
      obtain ⟨hcaptured, rfl⟩ := capturedCell_ok href
      refine hrest ht (.refl _) ?_ (fun r hr hnot => absurd hr hnot) hx
      unfold Takes
      rwa [if_neg hl]

/-! ## Following cells -/

/-- The list of open cells is right afterwards, no cell has moved to another local, and what was closed
is closed. -/
structure Traces (base : Store) (m m' : Machine) : Prop where
  tracks : m'.Tracks base
  cells_le : m.store.cells.size ≤ m'.store.cells.size
  cell {r : CellRef} : r.index < m.store.cells.size →
    (m'.store.cell r).slot = (m.store.cell r).slot ∧
      ((m'.store.cell r).closed = none → (m.store.cell r).closed = none)

theorem Traces.trans (h : m.Traces base m') (h' : m'.Traces base m'') : m.Traces base m'' := by
  refine ⟨h'.tracks, Nat.le_trans h.cells_le h'.cells_le, fun hr => ?_⟩
  obtain ⟨hslot, hclosed⟩ := h.cell hr
  obtain ⟨hslot', hclosed'⟩ := h'.cell (Nat.lt_of_lt_of_le hr h.cells_le)
  exact ⟨hslot'.trans hslot, fun hc => hclosed (hclosed' hc)⟩

theorem Grows.traces (h : m.Grows m') (ht : m'.Tracks base) : m.Traces base m' := by
  refine ⟨ht, h.size_le, fun hr => ?_⟩
  rw [h.cell hr]
  exact ⟨rfl, id⟩

theorem Tracks.congr (h : m.Tracks base) (hsize : m'.store.cells.size = m.store.cells.size)
    (hopen : m'.openCells = m.openCells)
    (hcell : ∀ r, (m'.store.cell r).slot = (m.store.cell r).slot ∧
      ((m'.store.cell r).closed = none ↔ (m.store.cell r).closed = none)) : m'.Tracks base := by
  refine ⟨?_, ?_, ?_, ?_, ?_⟩
  · rw [hopen]
    exact h.young
  · rw [hopen, hsize]
    exact h.exists_cell
  · rw [hopen]
    exact fun r hr => (hcell r).2.2 (h.isOpen r hr)
  · rw [hopen, hsize]
    exact fun r hb hlt hc => h.listed r hb hlt ((hcell r).2.1 hc)
  · rw [hopen]
    refine h.distinct.imp fun {r s} hne => ?_
    rwa [(hcell r).1, (hcell s).1]

theorem Tracks.same (h : m.Tracks base) (hcells : m'.store.cells = m.store.cells)
    (hopen : m'.openCells = m.openCells) : m.Traces base m' := by
  have hcell (r : CellRef) : m'.store.cell r = m.store.cell r := by
    unfold Store.cell
    rw [hcells]
  refine ⟨h.congr (by rw [hcells]) hopen fun r => ?_, Nat.le_of_eq (by rw [hcells]), fun {r} _ => ?_⟩
  · rw [hcell]
    exact ⟨rfl, .rfl⟩
  · rw [hcell]
    exact ⟨rfl, id⟩

/-! ## Closing cells -/

variable {ref r : CellRef} {size : Nat} {v : Value}

theorem mem_openCells_truncated : r ∈ (m.truncated size).openCells ↔
    r ∈ m.openCells ∧ (m.store.cell r).slot.toNat < size := by
  show r ∈ (m.openCells.partition _).1 ↔ _
  simp [List.partition_eq_filter_filter]

/-- The cells after locals have been dropped. -/
theorem Tracks.cell_truncated (h : m.Tracks base) (size : Nat) :
    (m.truncated size).store.cells.size = m.store.cells.size ∧
      ∀ r, (m.truncated size).store.cell r =
        if r ∈ m.openCells ∧ size ≤ (m.store.cell r).slot.toNat then
          { m.store.cell r with
            closed := some (m.locals[(m.store.cell r).slot.toNat]?.getD .nil) }
        else m.store.cell r := by
  have htruncated : (m.truncated size).store = (m.openCells.filter fun ref =>
      !decide ((m.store.cell ref).slot.toNat < size)).foldl (closeCell m.locals) m.store := by
    show (m.openCells.partition _).2.foldl _ _ = _
    rw [List.partition_eq_filter_filter]
    rfl
  rw [htruncated]
  refine ⟨size_closeCells .., fun r => ?_⟩
  rw [cell_closeCells m.locals fun ref hr => h.exists_cell ref (List.mem_filter.1 hr).1]
  simp [List.mem_filter]

theorem Tracks.truncated (h : m.Tracks base) (size : Nat) : m.Traces base (m.truncated size) := by
  obtain ⟨hsize, hcell⟩ := h.cell_truncated size
  have hstay {r : CellRef} (hr : r ∈ (m.truncated size).openCells) :
      r ∈ m.openCells ∧ (m.truncated size).store.cell r = m.store.cell r := by
    obtain ⟨hr, hlt⟩ := mem_openCells_truncated.1 hr
    exact ⟨hr, by rw [hcell, if_neg fun hle => Nat.not_le.2 hlt hle.2]⟩
  refine ⟨⟨fun r hr => h.young r (hstay hr).1, fun r hr => ?_, fun r hr => ?_, ?_, ?_⟩,
    Nat.le_of_eq hsize.symm, fun {r} _ => ?_⟩
  · rw [hsize]
    exact h.exists_cell r (hstay hr).1
  · rw [(hstay hr).2]
    exact h.isOpen r (hstay hr).1
  · intro r hb hlt hopen
    rw [hsize] at hlt
    rw [hcell] at hopen
    split at hopen
    · cases hopen
    · rename_i hnot
      have hr := h.listed r hb hlt hopen
      exact mem_openCells_truncated.2 ⟨hr, Nat.lt_of_not_le fun hle => hnot ⟨hr, hle⟩⟩
  · have hsub : (m.truncated size).openCells.Sublist m.openCells := by
      show (m.openCells.partition _).1.Sublist _
      rw [List.partition_eq_filter_filter]
      exact List.filter_sublist
    refine (h.distinct.sublist hsub).imp_of_mem fun hr hs hne => ?_
    rwa [(hstay hr).2, (hstay hs).2]
  · rw [hcell]
    split
    · exact ⟨rfl, fun hc => by cases hc⟩
    · exact ⟨rfl, id⟩

/-- Dropping locals changes no captured variable. -/
theorem Tracks.denoted_truncated (h : m.Tracks base)
    (hbelow : ∀ r ∈ m.openCells, (m.store.cell r).slot.toNat < m.locals.size)
    (hb : base.cells.size ≤ r.index) (hr : r.index < m.store.cells.size) :
    (m.truncated size).denoted r = m.denoted r := by
  unfold denoted
  rw [(h.cell_truncated size).2 r]
  cases hc : (m.store.cell r).closed with
  | some w =>
    rw [if_neg fun hopen => by
      rw [h.isOpen r hopen.1] at hc
      cases hc]
    simp only [hc]
  | none =>
    have hmem := h.listed r hb hr hc
    by_cases hle : size ≤ (m.store.cell r).slot.toNat
    · rw [if_pos ⟨hmem, hle⟩]
      simp [Array.getElem?_eq_getElem (hbelow r hmem)]
    · rw [if_neg fun hopen => hle hopen.2]
      simp only [hc]
      show (m.locals.shrink size)[_]? = _
      rw [← Array.getElem?_toList, Array.toList_shrink,
        List.getElem?_take_of_lt (Nat.lt_of_not_le hle), Array.getElem?_toList]

/-! ## Writing variables -/

theorem exists_cell_of_closed (hc : (m.store.cell r).closed = some v) :
    r.index < m.store.cells.size := by
  by_contra hlt
  have : m.store.cell r = ⟨0, 0, none⟩ := by
    show m.store.cells.getD r.index _ = _
    rw [Array.getD_eq_getD_getElem?, Array.getElem?_eq_none (Nat.le_of_not_lt hlt)]
    rfl
  rw [this] at hc
  cases hc

theorem denoted_withLocal {p : Nat} (hp : p < m.locals.size)
    (hc : (m.store.cell r).closed = none) (hs : (m.store.cell r).slot.toNat = p) :
    ({ m with locals := m.locals.setIfInBounds p v } : Machine).denoted r = some v := by
  unfold denoted
  simp only [hc, hs, Array.getElem?_setIfInBounds, if_pos hp, if_true]

/-- Assigning to a local changes no other variable. -/
theorem denoted_withLocal_of_ne {p : Nat}
    (hr : (m.store.cell r).closed = none → (m.store.cell r).slot.toNat ≠ p) :
    ({ m with locals := m.locals.setIfInBounds p v } : Machine).denoted r = m.denoted r := by
  unfold denoted
  cases hc : (m.store.cell r).closed with
  | some w => rfl
  | none =>
    simp only [Array.getElem?_setIfInBounds]
    rw [if_neg (hr hc).symm]

theorem denoted_written
    (hlt : (m.store.cell ref).closed = none → (m.store.cell ref).slot.toNat < m.locals.size) :
    (m.written ref v).denoted ref = some v := by
  unfold written
  split
  · rename_i w hc
    unfold denoted
    simp only [Store.cell_setCell _ _ _ _ (exists_cell_of_closed hc), if_true]
  · rename_i hc
    exact denoted_withLocal (hlt hc) hc rfl

theorem Tracks.denoted_written_of_ne (h : m.Tracks base) (hb : base.cells.size ≤ ref.index)
    (hlt : ref.index < m.store.cells.size) (hb' : base.cells.size ≤ r.index)
    (hlt' : r.index < m.store.cells.size) (hne : r ≠ ref) :
    (m.written ref v).denoted r = m.denoted r := by
  unfold written
  split
  · rename_i w hc
    unfold denoted
    simp only [Store.cell_setCell _ _ _ _ (exists_cell_of_closed hc), if_neg hne]
  · rename_i hc
    refine denoted_withLocal_of_ne fun hc' hs => hne ?_
    exact h.eq_of_slot (h.listed r hb' hlt' hc') (h.listed ref hb hlt hc) (UInt32.toNat_inj.1 hs)

theorem size_cells_written : (m.written ref v).store.cells.size = m.store.cells.size := by
  unfold written
  split
  · exact Array.size_setIfInBounds
  · rfl

theorem slot_written : ((m.written ref v).store.cell r).slot = (m.store.cell r).slot ∧
    (((m.written ref v).store.cell r).closed = none ↔ (m.store.cell r).closed = none) := by
  unfold written
  split
  · rename_i w hc
    simp only [Store.cell_setCell _ _ _ _ (exists_cell_of_closed hc)]
    split
    · rename_i he
      rw [he]
      simp [hc]
    · exact ⟨rfl, .rfl⟩
  · exact ⟨rfl, .rfl⟩

theorem openCells_written : (m.written ref v).openCells = m.openCells := by
  unfold Machine.written
  split <;> rfl

theorem size_locals_written : (m.written ref v).locals.size = m.locals.size := by
  unfold Machine.written
  split
  · rfl
  · exact Array.size_setIfInBounds

theorem Tracks.written (h : m.Tracks base) : m.Traces base (m.written ref v) :=
  ⟨h.congr size_cells_written openCells_written fun _ => slot_written,
    Nat.le_of_eq size_cells_written.symm, fun _ => ⟨slot_written.1, slot_written.2.1⟩⟩

/-! ## What steps do to variables -/

/-- The machines have the same locals and cells. -/
structure SameVariables (m m' : Machine) : Prop where
  locals : m'.locals = m.locals
  cells : m'.store.cells = m.store.cells
  openCells : m'.openCells = m.openCells

theorem SameVariables.cell (h : m.SameVariables m') (r : CellRef) : m'.store.cell r = m.store.cell r := by
  unfold Store.cell
  rw [h.cells]

theorem SameVariables.denoted (h : m.SameVariables m') (r : CellRef) : m'.denoted r = m.denoted r :=
  denoted_congr h.cells h.locals r

theorem Rests.sameVariables {Q : Value.Code → Prop} {ip : Nat} (h : Rests Q base m ip m') :
    m.SameVariables m' := ⟨h.locals, h.cells, h.openCells⟩

/-- The open cells are those of locals that exist; with `p` also of the one that is defined next. -/
def Below (m : Machine) (p : Bool) : Prop :=
  ∀ ref ∈ m.openCells, (m.store.cell ref).slot.toNat < m.locals.size + p.toNat

theorem Tracks.below_truncated (h : m.Tracks base) (hle : size ≤ m.locals.size) :
    (m.truncated size).Below false := by
  intro r hr
  obtain ⟨-, hlt⟩ := mem_openCells_truncated.1 hr
  have hsize : (m.truncated size).locals.size = size :=
    Array.size_shrink.trans (Nat.min_eq_left hle)
  rw [(h.cell_truncated size).2 r, hsize]
  split <;> exact hlt

/-- The ways in which an instruction can change locals and cells. -/
inductive Varies (base : Store) (op : Opcode) (m m' : Machine) : Prop
  /-- Nothing is changed. -/
  | rests : op ≠ .defLocal → m.SameVariables m' → m.Varies base op m'
  /-- Cells are opened. -/
  | opens {m₁ : Machine} : op = .pushClosure → m.Grows m₁ → m₁.Tracks base →
      m₁.SameVariables m' → m.Varies base op m'
  /-- A local is defined. -/
  | defines {v : Value} : op = .defLocal → m.stack.head? = some v →
      ({ m with locals := m.locals.push v } : Machine).SameVariables m' → m.Varies base op m'
  /-- A call begins, with its locals. -/
  | enters {vs : Array Value} : m.Below false →
      ({ m with locals := m.locals ++ vs } : Machine).SameVariables m' → m.Varies base op m'
  /-- A local is changed. -/
  | assigns {p : Nat} {v : Value} : op = .setLocal → p < m.locals.size →
      ({ m with locals := m.locals.setIfInBounds p v } : Machine).SameVariables m' →
      m.Varies base op m'
  /-- A captured variable is changed. -/
  | writes {ref : CellRef} {v : Value} : op = .setUpvalue →
      (m.written ref v).SameVariables m' → m.Varies base op m'
  /-- Locals are dropped. -/
  | drops {size : Nat} : size ≤ m.locals.size → m.Below false →
      (m.truncated size).SameVariables m' → m.Varies base op m'

namespace Varies

variable {op : Opcode}

theorem traces (h : m.Varies base op m') (ht : m.Tracks base) : m.Traces base m' := by
  cases h with
  | opens _ hg ht₁ hs => exact (hg.traces ht₁).trans (ht₁.same hs.cells hs.openCells)
  | rests _ hs | defines _ _ hs | enters _ hs | assigns _ _ hs => exact ht.same hs.cells hs.openCells
  | writes _ hs => exact ht.written.trans (ht.written.tracks.same hs.cells hs.openCells)
  | drops _ _ hs =>
    exact (ht.truncated _).trans ((ht.truncated _).tracks.same hs.cells hs.openCells)

/-- Only making closures adds cells, and they are open. -/
theorem fresh (h : m.Varies base op m') (ht : m.Tracks base) (hle : m.store.cells.size ≤ r.index)
    (hlt : r.index < m'.store.cells.size) : op = .pushClosure ∧ r ∈ m'.openCells := by
  have hsame (hs : m'.store.cells.size = m.store.cells.size) :
      op = .pushClosure ∧ r ∈ m'.openCells := absurd hle (by omega)
  cases h with
  | opens hop hg _ hs =>
    rw [hs.cells] at hlt
    exact ⟨hop, hs.openCells ▸ hg.fresh r hle hlt⟩
  | rests _ hs | defines _ _ hs | enters _ hs | assigns _ _ hs =>
    exact hsame (congrArg Array.size hs.cells)
  | writes _ hs => exact hsame (hs.cells ▸ size_cells_written)
  | drops _ _ hs => exact hsame (hs.cells ▸ (ht.cell_truncated _).1)

theorem not_mem_openCells_iff (h : m.Varies base op m') (hr : r ∈ m.openCells) :
    r ∉ m'.openCells ↔ (m.store.cell r).slot.toNat < m.locals.size ∧
      m'.locals.size ≤ (m.store.cell r).slot.toNat := by
  have hstays (hmem : r ∈ m'.openCells) (hsize : m.locals.size ≤ m'.locals.size) :
      r ∉ m'.openCells ↔ (m.store.cell r).slot.toNat < m.locals.size ∧
        m'.locals.size ≤ (m.store.cell r).slot.toNat := by
    refine ⟨fun hnot => absurd hmem hnot, fun hlt => absurd hlt.2 ?_⟩
    exact Nat.not_le.2 (Nat.lt_of_lt_of_le hlt.1 hsize)
  cases h with
  | rests _ hs => exact hstays (hs.openCells ▸ hr) (Nat.le_of_eq (by rw [hs.locals]))
  | opens _ hg _ hs =>
    refine hstays (hs.openCells ▸ hg.mem_openCells hr) (Nat.le_of_eq ?_)
    rw [hs.locals, hg.locals]
  | defines _ _ hs =>
    refine hstays (hs.openCells ▸ hr) ?_
    rw [hs.locals, Array.size_push]
    exact Nat.le_succ _
  | enters _ hs =>
    refine hstays (hs.openCells ▸ hr) ?_
    rw [hs.locals, Array.size_append]
    exact Nat.le_add_right _ _
  | assigns _ _ hs =>
    refine hstays (hs.openCells ▸ hr) (Nat.le_of_eq ?_)
    rw [hs.locals, Array.size_setIfInBounds]
  | writes _ hs =>
    refine hstays (hs.openCells ▸ ?_) (Nat.le_of_eq ?_)
    · rwa [openCells_written]
    · rw [hs.locals, size_locals_written]
  | drops hle hbelow hs =>
    rename_i size
    have hsize : m'.locals.size = min size m.locals.size := by
      rw [hs.locals]
      exact Array.size_shrink
    rw [hs.openCells, mem_openCells_truncated, hsize, Nat.min_eq_left hle]
    have := hbelow r hr
    simp only [Bool.toNat_false, Nat.add_zero] at this
    simp [hr, this]

theorem denoted (h : m.Varies base op m') (ht : m.Tracks base)
    (hop : op ≠ .setUpvalue ∧ op ≠ .setLocal ∧ op ≠ .defLocal) (hb : base.cells.size ≤ r.index)
    (hr : r.index < m.store.cells.size) : m'.denoted r = m.denoted r := by
  cases h with
  | rests _ hs => exact hs.denoted r
  | opens _ hg _ hs => rw [hs.denoted, hg.denoted hr]
  | defines he => exact absurd he hop.2.2
  | assigns he => exact absurd he hop.2.1
  | writes he => exact absurd he hop.1
  | enters hbelow hs =>
    rw [hs.denoted]
    unfold Machine.denoted
    cases hc : (m.store.cell r).closed with
    | some w => rfl
    | none => exact Array.getElem?_append_left (hbelow r (ht.listed r hb hr hc))
  | drops _ hbelow hs => rw [hs.denoted, ht.denoted_truncated hbelow hb hr]

end Varies

end StackScript.Machine
