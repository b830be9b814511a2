import StackScript.Proofs.Machine.Trends
import StackScript.Proofs.Safety.Captures

/-!
# Cells of arbitrary programs

Nothing is assumed of the program here. A cell remembers the position of its local in 32 bits. As
long as the positions fit, no two open cells stand for the same local, and an open cell stands for
the local that was captured (`Machine.cell_stands_for_local`); otherwise it stands for another one
(`Machine.cells_of_far_local`).
-/

namespace StackScript.Machine

/-- Cells can be followed as long as the positions of their locals fit into a word. -/
def tracing (base : Store) : Trend where
  holds m m' := m.Tracks base → base.cells.size ≤ m.store.cells.size → m.Traces base m'
  opensFor slot := slot < 2 ^ 32
  trans h h' ht hb :=
    (h ht hb).trans (h' (h ht hb).tracks (Nat.le_trans hb (h ht hb).cells_le))
  stays hcells hopen _ ht _ := ht.same hcells hopen
  opens position m hs ht hb := by
    rcases openCell_eq _ position m with ⟨_, -, -, he⟩ | ⟨hn, he⟩ <;> rw [he]
    · exact ht.same rfl rfl
    · exact grows_withCell.traces (ht.withCell hb hs hn)
  writes ref v m ht _ := by
    cases hc : (m.store.cell ref).closed with
    | some w =>
      have h : m.Traces base (m.written ref v) := ht.written
      unfold written at h
      rw [hc] at h
      rwa [writeCell_of_closed hc]
    | none =>
      rw [writeCell_of_open hc, setLocal]
      split <;> exact ht.same rfl rfl
  drops size _ ht _ := ht.truncated size

variable {base : Store} {m : Machine} {host : Host} {j q : Nat} {ref : CellRef}

theorem Tracks.takesLocal {captures : List Capture} {refs : List CellRef} {c : Capture}
    (ht : m.Tracks base) (hb : base.cells.size ≤ m.store.cells.size)
    (hfit : m.CapturesOnly (· < 2 ^ 32)) (hm : m.MakesClosure host captures refs)
    (hc : (c, ref) ∈ captures.zip refs) (hl : c.fromLocal = true) :
    ∃ m', step host m = .ok .running m' ∧ ref.index < m'.store.cells.size ∧
      (m'.store.cell ref).slot.toNat = m.frame.localsBase + c.index.toNat := by
  obtain ⟨index, next, m', key, f, hf, hx, hstack⟩ := hm
  refine ⟨m', hx, ?_⟩
  rw [step_of_fetch hf] at hx
  obtain ⟨_, m₁, hmade, hx⟩ := exists_of_bind_ok hx
  cases hx
  obtain ⟨f, cells, m₁, -, hcells, hx⟩ := makeClosure_ok hmade
  cases hx
  cases (List.cons.inj hstack).1
  obtain ⟨ht₁, hg, htakes, -⟩ := captureCells_takes hcells { ht with } hb (hfit _ _ _ hf)
  have htake := (List.forall₂_iff_zip.1 htakes).2 hc
  unfold Takes at htake
  rw [if_pos hl, hg.frame] at htake
  exact ⟨ht₁.exists_cell ref htake.1, htake.2⟩

theorem tracks_start (store : Store) (natives : List Native) (chunk : Chunk Value) :
    (start store natives chunk).Tracks store :=
  ⟨by rintro _ ⟨⟩, by rintro _ ⟨⟩, by rintro _ ⟨⟩, fun _ hle hlt => absurd hle (Nat.not_le.2 hlt), .nil⟩

theorem cell_stands_for_local (host : Host) (store : Store) (natives : List Native)
    (chunk : Chunk Value) (n : Nat)
    (hfit : ∀ j < n, ∀ m, run host j (start store natives chunk) = (.unfinished, m) →
      m.CapturesOnly (· < 2 ^ 32)) :
    let m := (run host n (start store natives chunk)).2
    (m.openCells.Pairwise fun r s => (m.store.cell r).slot ≠ (m.store.cell s).slot) ∧
    ∀ j < n, ∀ q ref, TakesLocal host (start store natives chunk) j q ref →
      (m.store.cell ref).closed = none →
        readCell ref m = getLocal q m ∧ ∀ v, writeCell ref v m = setLocal q v m := by
  intro m
  have htraces {k : Nat} (hk : k ≤ n) := holds_run (T := tracing store)
    (fun j hj => hfit j (Nat.lt_of_lt_of_le hj hk)) (tracks_start store natives chunk) (Nat.le_refl _)
  refine ⟨(htraces (Nat.le_refl n)).tracks.distinct, ?_⟩
  rintro j hj q ref ⟨mⱼ, captures, refs, c, hreach, hmakes, hc, hl, rfl⟩ hopen
  have hbefore := htraces (Nat.le_of_lt hj)
  rw [hreach] at hbefore
  obtain ⟨m', hstep, hlt, hslot⟩ :=
    hbefore.tracks.takesLocal hbefore.cells_le (hfit j hj mⱼ hreach) hmakes hc hl
  have hnext : run host (j + 1) (start store natives chunk) = (.unfinished, m') :=
    (run_add hreach).trans (run_succ hstep)
  have hafter := htraces hj
  rw [Nat.succ_eq_add_one, hnext] at hafter
  obtain ⟨hsame, -⟩ :=
    (holds_later (T := tracing store) hfit hnext hj hafter.tracks hafter.cells_le).cell hlt
  rw [← hslot, ← hsame]
  exact ⟨readCell_of_open hopen, fun v => writeCell_of_open hopen⟩

/-- Code that makes a closure, which captures twice the local whose index consists of four equal
bytes. -/
def capturing (b : UInt8) : Chunk Value where
  name := none
  code := #[1, 0, 0, 0, 0, 2, 0, 0, 0, 1, b, b, b, b, 1, b, b, b, b]
  constants := [.function ⟨0, ⟨0, { name := none }⟩⟩]

theorem fetch_capturing : fetch (capturing 0) 0 =
    .ok (⟨.pushClosure, (0, [⟨true, 0⟩, ⟨true, 0⟩])⟩, 19) := rfl

/-- The only cell of a local that does not exist. -/
theorem cell_stands_for_missing_local :
    let s := start {} [] (capturing 0)
    (∀ j < 1, ∀ m, run (Services.host {}) j s = (.unfinished, m) → m.CapturesOnly (· < 2 ^ 32)) ∧
    let m := (run (Services.host {}) 1 s).2
    m.openCells = [⟨0⟩] ∧ readCell ⟨0⟩ m = .error (.invalidLocal 0) m := by
  intro s
  have hfit : ∀ j < 1, ∀ m, run (Services.host {}) j s = (.unfinished, m) →
      m.CapturesOnly (· < 2 ^ 32) := by
    intro j hj m hm index captures next hf c hc _
    obtain rfl : j = 0 := by omega
    cases hm
    cases fetch_capturing.symm.trans hf
    have hzero : c = ⟨true, 0⟩ := List.eq_of_mem_replicate (n := 2) hc
    cases hzero
    decide
  have hstep : step (Services.host {}) s = _ := step_of_fetch fetch_capturing
  have htakes : TakesLocal (Services.host {}) s 0 0 ⟨0⟩ := ⟨_, [⟨true, 0⟩, ⟨true, 0⟩], [⟨0⟩, ⟨0⟩], _, rfl,
    ⟨0, 19, _, _, _, fetch_capturing, hstep.trans rfl, rfl⟩, List.mem_cons_self .., rfl, rfl⟩
  obtain ⟨-, hcell⟩ := cell_stands_for_local (Services.host {}) {} [] (capturing 0) 1 hfit
  refine ⟨hfit, by decide +kernel, ?_⟩
  exact (hcell 0 (by decide) 0 ⟨0⟩ htakes (by decide +kernel)).1

theorem cells_of_far_local :
    let m := (run (Services.host {}) 5 (start {} []
      ⟨none, #[0, 0, 0, 0, 0, 7, 0, 1, 0, 0, 0, 20, 0, 0, 0, 0],
        [.string "A", .function ⟨0, ⟨0, capturing 255⟩⟩], #[]⟩)).2
    m.frame.localsBase = 1 ∧ m.openCells.map (fun r => (m.store.cell r).slot) = [0, 0] := by
  decide +kernel

end StackScript.Machine
