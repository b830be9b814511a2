import StackScript.Proofs.Machine.Contents
import StackScript.Proofs.Machine.Trends

/-!
# Keys are given out once

A store gives every new object the next key, and no operation of a machine takes a key back, whether
it succeeds or fails. So an object that exists before a run shares its key with none that the run
makes.
-/

namespace StackScript.Machine

/-- No key that was given out before is free behind. -/
def aging : Trend where
  holds m m' := m.store.fresh ≤ m'.store.fresh
  opensFor _ := True
  trans := Nat.le_trans
  stays _ _ h := h
  opens position m _ := by
    rcases openCell_eq _ position m with ⟨_, -, -, he⟩ | ⟨-, he⟩ <;> rw [he] <;> exact Nat.le_refl _
  writes ref v m := by
    cases hc : (m.store.cell ref).closed with
    | some w => rw [writeCell_of_closed hc]; exact Nat.le_refl _
    | none =>
      rw [writeCell_of_open hc, setLocal]
      split <;> exact Nat.le_refl _
  drops _ m := Nat.le_of_eq (fresh_closeCells m.locals _ m.store).symm

/-- A run gives no key out twice. -/
theorem fresh_le_run (host : Host) (steps : Nat) (m : Machine) :
    m.store.fresh ≤ (run host steps m).2.store.fresh :=
  holds_run (T := aging) fun _ _ _ _ _ _ _ _ _ _ _ => trivial

end StackScript.Machine

namespace StackScript

/-! ## Bringing trees to life -/

mutual

theorem fresh_le_load : (k : Constant) → (s : Store) → s.fresh ≤ (k.load s).2.fresh
  | ⟨.int _⟩, _ | ⟨.float _⟩, _ | ⟨.string _⟩, _ | ⟨.char _⟩, _ | ⟨.bool _⟩, _ | ⟨.nil⟩, _
  | ⟨.void⟩, _ | ⟨.native _⟩, _ | ⟨.range _⟩, _ => Nat.le_refl _
  | ⟨.function f⟩, s => Nat.le_succ_of_le (fresh_le_loadFunction f s)
  | ⟨.closure c⟩, s => Nat.le_succ_of_le (fresh_le_loadClosure c s)
  | ⟨.record r⟩, s => Nat.le_succ_of_le (fresh_le_loadRecord r s)
  | ⟨.instanceOf fields r⟩, s =>
    Nat.le_succ_of_le (Nat.le_trans (fresh_le_loadAll fields s) (fresh_le_loadRecord r _))
  | ⟨.bound receiver method⟩, s =>
    Nat.le_succ_of_le (Nat.le_trans (fresh_le_load receiver s) (fresh_le_loadClosure method _))

theorem fresh_le_loadAll : (ks : List Constant) → (s : Store) → s.fresh ≤ (loadAll ks s).2.fresh
  | [], _ => Nat.le_refl _
  | k :: ks, s => Nat.le_trans (fresh_le_load k s) (fresh_le_loadAll ks _)

theorem fresh_le_loadClosed : (k : Option Constant) → (s : Store) →
    s.fresh ≤ (loadClosed k s).2.fresh
  | none, _ => Nat.le_refl _
  | some k, s => fresh_le_load k s

theorem fresh_le_loadFunction : (f : Function Constant) → (s : Store) →
    s.fresh ≤ (loadFunction f s).2.fresh
  | ⟨_, ⟨_, _, constants, _⟩⟩, s => fresh_le_loadAll constants s

theorem fresh_le_loadCells : (cells : List (Cell Constant)) → (s : Store) →
    s.fresh ≤ (loadCells cells s).2.fresh
  | [], _ => Nat.le_refl _
  | ⟨slot, position, closed⟩ :: cells, s =>
    let r := loadClosed closed s
    Nat.le_trans (fresh_le_loadClosed closed s)
      (fresh_le_loadCells cells (Store.newCell ⟨slot, position, r.1⟩ r.2).2)

theorem fresh_le_loadClosure : (c : Closure Constant (Cell Constant)) → (s : Store) →
    s.fresh ≤ (loadClosure c s).2.fresh
  | ⟨function, captures⟩, s =>
    Nat.le_trans (fresh_le_loadFunction function s) (fresh_le_loadCells captures _)

theorem fresh_le_loadMethods : (cs : List (Closure Constant (Cell Constant))) → (s : Store) →
    s.fresh ≤ (loadMethods cs s).2.fresh
  | [], _ => Nat.le_refl _
  | c :: cs, s =>
    let r := loadClosure c s
    Nat.le_trans (Nat.le_succ_of_le (fresh_le_loadClosure c s))
      (fresh_le_loadMethods cs (Store.newObject r.1 r.2).2)

theorem fresh_le_loadRecord : (r : Record (Closure Constant (Cell Constant))) → (s : Store) →
    s.fresh ≤ (loadRecord r s).2.fresh
  | ⟨_, _, methods⟩, s => fresh_le_loadMethods methods s

end

end StackScript
