import Mathlib.Logic.Function.Iterate
import Mathlib.Tactic.Set
import StackScript.Proofs.Machine.Running

/-!
# Ranges

Advancing a range visits the integers from its first to its last end one by one, in either direction,
and does not overflow where the last one is a limit of the integers. A loop tests, reads and advances a
range that is on the stack.
-/

namespace StackScript

namespace Range

/-- The direction in which a range counts. -/
def direction (first last : Int64) : Int := if last < first then -1 else 1

/-- The number of elements of a range. -/
def count (first last : Int64) (inclusive : Bool) : Nat :=
  (last.toInt - first.toInt).natAbs + inclusive.toNat

variable {first last : Int64} {inclusive : Bool}

theorem toInt_step (first last : Int64) (inclusive : Bool) :
    (between first last inclusive).step.toInt = direction first last := by
  unfold between direction
  split <;> rfl

theorem direction_cases (first last : Int64) :
    direction first last = 1 ∧ first.toInt ≤ last.toInt ∨
      direction first last = -1 ∧ last.toInt < first.toInt := by
  unfold direction
  by_cases h : last < first
  · exact .inr ⟨if_pos h, Int64.lt_iff_toInt_lt.1 h⟩
  · exact .inl ⟨if_neg h, Int.not_lt.1 fun h' => h (Int64.lt_iff_toInt_lt.2 h')⟩

/-- What advancing does to the cursor. -/
theorem advance_cases (r : Range) :
    r.advance = { r with next := r.advance.next, exhausted := r.advance.exhausted } ∧
    let i := r.next.toInt + r.step.toInt
    ((-2 ^ 63 ≤ i ∧ i < 2 ^ 63) ∧ r.advance.next.toInt = i ∧ r.advance.exhausted = r.exhausted ∨
      ¬ (-2 ^ 63 ≤ i ∧ i < 2 ^ 63) ∧ r.advance.next = r.next ∧ r.advance.exhausted = true) := by
  have hfit (i : Int) : Integer.fit? i =
      if -2 ^ 63 ≤ i ∧ i < 2 ^ 63 then some (Int64.ofInt i) else none := by
    rw [Integer.fit?, Int64.toInt_minValue, Int64.toInt_maxValue]
    exact if_congr (and_congr_right fun _ => by omega) rfl rfl
  by_cases h : -2 ^ 63 ≤ r.next.toInt + r.step.toInt ∧ r.next.toInt + r.step.toInt < 2 ^ 63
  · have he : r.advance = { r with next := Int64.ofInt (r.next.toInt + r.step.toInt) } := by
      rw [advance, hfit, if_pos h]
    rw [he]
    exact ⟨rfl, .inl ⟨h, Int64.toInt_ofInt_of_le h.1 h.2, rfl⟩⟩
  · have he : r.advance = { r with exhausted := true } := by
      rw [advance, hfit, if_neg h]
    rw [he]
    exact ⟨rfl, .inr ⟨h, rfl, rfl⟩⟩

theorem advance_iterate (first last : Int64) (inclusive : Bool) (n : Nat) :
    let r := between first last inclusive
    let i := first.toInt + n * direction first last
    (advance^[n] r).next.toInt = max (-2 ^ 63) (min i (2 ^ 63 - 1)) ∧
      ((advance^[n] r).exhausted = true ↔ i < -2 ^ 63 ∨ 2 ^ 63 ≤ i) ∧
      advance^[n] r = { r with
        next := (advance^[n] r).next, exhausted := (advance^[n] r).exhausted } := by
  intro r i
  have hmin := first.le_toInt
  have hmax := first.toInt_lt
  have hd : direction first last = 1 ∨ direction first last = -1 :=
    (direction_cases first last).imp And.left And.left
  have hstep := toInt_step first last inclusive
  simp only [i]
  clear i
  generalize direction first last = d at hd hstep ⊢
  induction n with
  | zero =>
    have hfirst : r.next.toInt = first.toInt := rfl
    have hfresh : r.exhausted = false := rfl
    simp only [Function.iterate_zero, id, Int.natCast_zero, Int.zero_mul, hfirst, hfresh]
    exact ⟨by omega, iff_of_false nofun (by omega), rfl⟩
  | succ n ih =>
    obtain ⟨hnext, hexhausted, hrest⟩ := ih
    rw [Function.iterate_succ_apply']
    set s := advance^[n] r
    -- The cursor has moved away from the first end, to the side to which it counts.
    have hside : (d = 1 → first.toInt ≤ first.toInt + n * d) ∧ (d = -1 → first.toInt + n * d ≤ first.toInt) :=
      ⟨by rintro rfl; omega, by rintro rfl; omega⟩
    have hsucc : first.toInt + (n + 1 : Nat) * d = first.toInt + n * d + d := by
      rw [Int.natCast_add, Int.add_mul, Int.natCast_one, Int.one_mul, Int.add_assoc]
    rw [hsucc]
    generalize first.toInt + n * d = i at *
    obtain ⟨heq, hadvance⟩ := advance_cases s
    rw [show s.step = r.step by rw [hrest], hstep, hnext] at hadvance
    refine ⟨?_, ?_, ?_⟩
    · rcases hadvance with ⟨hfit, hn, -⟩ | ⟨hfit, hn, -⟩ <;> rw [hn] <;> omega
    · rcases hadvance with ⟨hfit, -, he⟩ | ⟨hfit, -, he⟩ <;> rw [he]
      · rw [hexhausted]
        omega
      · exact iff_of_true rfl (by omega)
    · rw [heq, hrest]

/-- When there is a next element, in numbers. -/
theorem hasNext_iff (r : Range) : r.hasNext = true ↔ r.exhausted = false ∧
    (0 ≤ r.step.toInt ∧ r.next.toInt < r.bound.toInt + r.inclusive.toNat ∨
      r.step.toInt < 0 ∧ r.bound.toInt - r.inclusive.toNat < r.next.toInt) := by
  have hstep : 0 ≤ r.step ↔ 0 ≤ r.step.toInt := Int64.le_iff_toInt_le
  unfold hasNext
  rw [Bool.and_eq_true, Bool.not_eq_true']
  refine and_congr_right fun _ => ?_
  by_cases hs : 0 ≤ r.step
  · rw [if_pos hs]
    rw [hstep] at hs
    cases r.inclusive <;> simp [Int64.le_iff_toInt_le, Int64.lt_iff_toInt_lt] <;> omega
  · rw [if_neg hs]
    rw [hstep] at hs
    cases r.inclusive <;> simp [Int64.le_iff_toInt_le, Int64.lt_iff_toInt_lt] <;> omega

/-- A range has its elements one by one, and no more. -/
theorem hasNext_iterate (first last : Int64) (inclusive : Bool) (n : Nat) :
    let r := between first last inclusive
    ((advance^[n] r).hasNext = true ↔ n < count first last inclusive) ∧
      (n < count first last inclusive →
        (advance^[n] r).next.toInt = first.toInt + n * direction first last) := by
  intro r
  obtain ⟨hnext, hexhausted, hrest⟩ := advance_iterate first last inclusive n
  have hbound : (advance^[n] r).bound = last := by rw [hrest]; rfl
  have hinclusive : (advance^[n] r).inclusive = inclusive := by rw [hrest]; rfl
  have hstep : (advance^[n] r).step.toInt = direction first last := by
    rw [hrest]
    exact toInt_step first last inclusive
  have := first.le_toInt
  have := first.toInt_lt
  have := last.le_toInt
  have := last.toInt_lt
  have := inclusive.toNat_le
  rw [hasNext_iff, ← Bool.not_eq_true, hexhausted, hbound, hinclusive, hstep, hnext, count]
  clear hnext hexhausted hrest hstep
  rcases direction_cases first last with ⟨hd, hle⟩ | ⟨hd, hlt⟩
  · rw [hd]
    omega
  · rw [hd]
    omega

end Range

namespace Machine

variable {host : Host} {m : Machine} {next : Nat} {v : Value} {st : List Value} {r : Range}

/-! ## Steps -/

theorem peek_range {α : Type} {op : Opcode} {expected : String} {f : Range → Exec α}
    (hst : m.stack = .range r :: st) :
    (peek >>= fun v => expectRange op expected v >>= f) m = f r m := by
  rw [bind_ok (peek_of_stack hst)]
  rfl

theorem step_jumpHasNoNext {distance : UInt32}
    (hf : fetch m.frame.closure.function.chunk m.frame.ip = .ok (⟨.jumpHasNoNext, distance⟩, next))
    (hst : m.stack = .range r :: st) : step host m =
      .ok .running (m.movedTo (if r.hasNext = true then next else next + distance.toNat)) := by
  refine (step_of_fetch hf).trans ((peek_range (m := m.movedTo next) hst).trans ?_)
  cases h : r.hasNext <;> simp <;> rfl

theorem step_getNext (host : Host)
    (hf : fetch m.frame.closure.function.chunk m.frame.ip = .ok (⟨.getNext, ()⟩, next))
    (hst : m.stack = .range r :: st) :
    step host m = .ok .running { m.movedTo next with stack := .int r.next :: m.stack } :=
  (step_of_fetch hf).trans (peek_range (m := m.movedTo next) hst)

theorem step_advance (host : Host)
    (hf : fetch m.frame.closure.function.chunk m.frame.ip = .ok (⟨.advance, ()⟩, next))
    (hst : m.stack = .range r :: st) :
    step host m = .ok .running { m.movedTo next with stack := .range r.advance :: st } := by
  refine (step_of_fetch hf).trans ((peek_range (m := m.movedTo next) hst).trans ?_)
  rw [bind_ok (show replace 0 _ (m.movedTo next) = .ok () { m.movedTo next with
    stack := m.stack.set 0 _ } from rfl), hst]
  rfl

theorem step_defLocal (host : Host)
    (hf : fetch m.frame.closure.function.chunk m.frame.ip = .ok (⟨.defLocal, ()⟩, next))
    (hst : m.stack = v :: st) : step host m =
      .ok .running { m.movedTo next with stack := st, locals := m.locals.push v } :=
  (step_of_fetch hf).trans (bind_ok (pop_of_stack (m := m.movedTo next) hst))

end Machine

end StackScript
