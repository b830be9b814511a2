import Mathlib.Data.Finset.Card
import StackScript.Proofs.Machine.Matching

/-!
# How deeply instances nest

An instance that leads back to itself is nested without end, and every other one has a depth: a
value with more levels of instances below it than the store has instances leads back to one of them.
The whole text of a value therefore depends only on what can be reached from it.
-/

namespace StackScript.Store

variable {s : Store} {v : Value} {d n : Nat}

theorem isDeep_succ : s.isDeep (d + 1) v = true ↔ ∃ w ∈ (s.node v).fields, s.isDeep d w = true := by
  rw [isDeep, List.any_eq_true]

/-- Only instances that exist have fields. -/
theorem exists_of_mem_fields {w : Value} (h : w ∈ (s.node v).fields) :
    ∃ ref : InstanceRef, v = .instanceOf ref ∧ ref.index < s.instances.size := by
  cases v with
  | instanceOf ref =>
    refine ⟨ref, rfl, ?_⟩
    by_cases hlt : ref.index < s.instances.size
    · exact hlt
    · have hnone : s.instance? ref = none := Array.getElem?_eq_none (Nat.le_of_not_lt hlt)
      rw [Matching.node_instanceOf, hnone] at h
      cases h
  | _ => cases h

theorem isDeep_anti (h : s.isDeep (d + 1) v = true) : s.isDeep d v = true := by
  induction d generalizing v with
  | zero =>
    obtain ⟨w, hw, -⟩ := isDeep_succ.1 h
    obtain ⟨ref, rfl, -⟩ := exists_of_mem_fields hw
    rfl
  | succ d ih =>
    obtain ⟨w, hw, hd⟩ := isDeep_succ.1 h
    exact isDeep_succ.2 ⟨w, hw, ih hd⟩

theorem isDeep_of_le (h : s.isDeep n v = true) (hd : d ≤ n) : s.isDeep d v = true := by
  induction hd with
  | refl => exact h
  | step _ ih => exact ih (isDeep_anti h)

theorem text_of_not_isDeep (h : s.isDeep d v = false) (hd : d < n) : s.text n v = s.text (d + 1) v := by
  induction d generalizing v n with
  | zero =>
    obtain ⟨n, rfl⟩ : ∃ k, n = k + 1 := ⟨n - 1, by omega⟩
    have hnone : (s.node v).fields = [] := by
      rw [List.eq_nil_iff_forall_not_mem]
      intro w hw
      obtain ⟨ref, rfl, -⟩ := exists_of_mem_fields hw
      cases h
    simp only [text, hnone, List.map_nil]
  | succ d ih =>
    obtain ⟨n, rfl⟩ : ∃ k, n = k + 1 := ⟨n - 1, by omega⟩
    have hfields : (s.node v).fields.map (s.text n) = (s.node v).fields.map (s.text (d + 1)) := by
      apply List.map_congr_left
      intro w hw
      apply ih
      · by_cases hw' : s.isDeep d w = true
        · rw [isDeep_succ.2 ⟨w, hw, hw'⟩] at h
          cases h
        · simpa using hw'
      · omega
    rw [text, text, hfields]

/-! ## Endless nesting -/

/-- The instances of a store with more than a number of levels below them. -/
def deepInstances (s : Store) (d : Nat) : Finset Nat :=
  (Finset.range s.instances.size).filter fun i => s.isDeep (d + 1) (.instanceOf ⟨i⟩)

theorem mem_deepInstances {i : Nat} :
    i ∈ s.deepInstances d ↔ i < s.instances.size ∧ s.isDeep (d + 1) (.instanceOf ⟨i⟩) = true := by
  simp [deepInstances]

theorem deepInstances_anti : s.deepInstances (d + 1) ⊆ s.deepInstances d := by
  intro i hi
  rw [mem_deepInstances] at hi ⊢
  exact ⟨hi.1, isDeep_anti hi.2⟩

theorem exists_of_isDeep (h : s.isDeep (d + 1) v = true) :
    ∃ i ∈ s.deepInstances d, v = .instanceOf ⟨i⟩ := by
  obtain ⟨w, hw, -⟩ := isDeep_succ.1 h
  obtain ⟨⟨i⟩, rfl, hi⟩ := exists_of_mem_fields hw
  exact ⟨i, mem_deepInstances.2 ⟨hi, h⟩, rfl⟩

theorem isDeep_of_deepInstances_eq (h : s.deepInstances (d + 1) = s.deepInstances d)
    (hv : s.isDeep (d + 1) v = true) (n : Nat) : s.isDeep (d + n) v = true := by
  induction n generalizing v with
  | zero => exact isDeep_anti hv
  | succ n ih =>
    obtain ⟨i, hi, rfl⟩ := exists_of_isDeep hv
    rw [← h, mem_deepInstances] at hi
    obtain ⟨w, hw, hd⟩ := isDeep_succ.1 hi.2
    exact isDeep_succ.2 ⟨w, hw, ih hd⟩

theorem card_deepInstances (h : ∀ i < d, s.deepInstances (i + 1) ≠ s.deepInstances i) :
    (s.deepInstances d).card + d ≤ s.instances.size := by
  induction d with
  | zero =>
    have hcard := Finset.card_filter_le (Finset.range s.instances.size)
      fun i => s.isDeep 1 (.instanceOf ⟨i⟩)
    rwa [Finset.card_range] at hcard
  | succ d ih =>
    have hlt : (s.deepInstances (d + 1)).card < (s.deepInstances d).card := by
      apply Finset.card_lt_card
      exact Finset.ssubset_iff_subset_ne.2 ⟨deepInstances_anti, h d (Nat.lt_succ_self d)⟩
    have := ih fun i hi => h i (Nat.lt_succ_of_lt hi)
    omega

theorem isDeep_of_endless (h : s.isDeep (s.instances.size + 1) v = true) (n : Nat) :
    s.isDeep n v = true := by
  obtain ⟨d, hd, heq⟩ : ∃ d < s.instances.size, s.deepInstances (d + 1) = s.deepInstances d := by
    by_contra hnone
    push Not at hnone
    obtain ⟨i, hi, -⟩ := exists_of_isDeep h
    have hpos := Finset.card_pos.2 ⟨i, hi⟩
    have := card_deepInstances hnone
    omega
  have hv := isDeep_of_deepInstances_eq heq (isDeep_of_le h (by omega)) n
  exact isDeep_of_le hv (Nat.le_add_left n d)

end StackScript.Store

namespace StackScript.Matching

variable {A : Matching} {s s' : Store} {v v' : Value}

/-- Matching values have the same whole text. -/
theorem MatchesStore.fullText (hs : A.MatchesStore s s') (h : A.Matches v v') :
    s.fullText v = s'.fullText v' := by
  unfold Store.fullText
  rw [← hs.isDeep _ h, ← hs.text _ h]
  by_cases hv : s.isDeep (s.instances.size + 1) v = true
  · rw [if_pos hv, if_pos (Store.isDeep_of_endless hv _)]
  · by_cases hv' : s.isDeep (s'.instances.size + 1) v = true
    · rw [hs.isDeep _ h] at hv'
      have := Store.isDeep_of_endless hv' (s.instances.size + 1)
      rw [← hs.isDeep _ h] at this
      exact absurd this hv
    · rw [if_neg hv, if_neg hv']
      rw [Bool.not_eq_true] at hv hv'
      -- both texts are those at the greater of the two depths
      rw [← Store.text_of_not_isDeep hv (n := s.instances.size + s'.instances.size + 2) (by omega),
        ← Store.text_of_not_isDeep hv' (n := s.instances.size + s'.instances.size + 2) (by omega)]

end StackScript.Matching
