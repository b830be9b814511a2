import StackScript.Host
import StackScript.Lowering.Statement
import StackScript.Proofs.Machine.Running

/-!
# Integer arithmetic

The operators on integers give the exact result or fail: a sum, a difference or a product where it
is no word of 64 bits, a quotient and its remainder where the divisor is zero or the quotient no
word. An instruction on integers replaces them by the result and, if there is none, only takes them
from the stack.
-/

namespace StackScript

namespace Integer

/-- The values of words. -/
def InRange (i : Int) : Prop := Int64.minValue.toInt ≤ i ∧ i ≤ Int64.maxValue.toInt

theorem inRange_iff {i : Int} : InRange i ↔ -2 ^ 63 ≤ i ∧ i < 2 ^ 63 := by
  rw [InRange, Int64.toInt_minValue, Int64.toInt_maxValue]
  omega

theorem inRange_toInt (a : Int64) : InRange a.toInt := inRange_iff.2 ⟨a.le_toInt, a.toInt_lt⟩

/-- The result is the word with the given value, or the overflow of `op` where there is none. -/
structure Answers (op : Arithmetic) (result : Except Failure Int64) (i : Int) : Prop where
  ok : ∀ r, result = .ok r ↔ r.toInt = i
  error : ∀ e, result = .error e ↔ e = .overflow op ∧ ¬ InRange i

theorem exact_of_inRange {op : Arithmetic} {i : Int} (h : InRange i) :
    exact op i = .ok (Int64.ofInt i) := by
  unfold exact fit?
  rw [if_pos (show _ ∧ _ from h)]

theorem toInt_ofInt {i : Int} (h : InRange i) : (Int64.ofInt i).toInt = i :=
  Int64.toInt_ofInt_of_le (inRange_iff.1 h).1 (inRange_iff.1 h).2

theorem exact_of_not_inRange {op : Arithmetic} {i : Int} (h : ¬ InRange i) :
    exact op i = .error (.overflow op) := by
  unfold exact fit?
  rw [if_neg (show ¬ (_ ∧ _) from h)]

theorem answers_exact (op : Arithmetic) (i : Int) : Answers op (exact op i) i := by
  by_cases h : InRange i
  · rw [exact_of_inRange h]
    refine ⟨fun r => ⟨?_, fun hr => ?_⟩, fun e => ⟨nofun, fun he => absurd h he.2⟩⟩
    · rintro ⟨⟩
      exact toInt_ofInt h
    · rw [← hr, Int64.ofInt_toInt]
  · rw [exact_of_not_inRange h]
    refine ⟨fun r => ⟨nofun, fun hr => absurd (hr ▸ inRange_toInt r) h⟩, fun e => ⟨?_, ?_⟩⟩
    · rintro ⟨⟩
      exact ⟨rfl, h⟩
    · rintro ⟨rfl, -⟩
      rfl

theorem exact_ne_divisionByZero (op : Arithmetic) (i : Int) :
    exact op i ≠ .error .divisionByZero :=
  fun h => nomatch (((answers_exact op i).error _).1 h).1

/-! ## Division -/

/-- The quotient and the remainder of a division that rounds toward zero. -/
structure Division (a b q r : Int) : Prop where
  sum : a = q * b + r
  small : r.natAbs < b.natAbs
  sign : r = 0 ∨ r.sign = a.sign

theorem division_tdiv (a : Int) {b : Int} (hb : b ≠ 0) : Division a b (a.tdiv b) (a.tmod b) := by
  refine ⟨(Int.tdiv_mul_add_tmod a b).symm, ?_, ?_⟩
  · rw [Int.natAbs_tmod]
    exact Nat.mod_lt _ (Int.natAbs_pos.2 hb)
  · by_cases hd : b ∣ a
    · exact .inl (Int.tmod_eq_zero_of_dvd hd)
    · exact .inr (by rw [Int.sign_tmod, if_neg hd])

variable {a b : Int64}

theorem toInt_ne_zero (hb : b ≠ 0) : b.toInt ≠ 0 := fun h => hb (Int64.toInt_inj.1 h)

/-- Only one quotient is no word. -/
theorem inRange_tdiv_iff (hb : b ≠ 0) :
    InRange (a.toInt.tdiv b.toInt) ↔ ¬ (a = Int64.minValue ∧ b = -1) := by
  constructor
  · rintro h ⟨rfl, rfl⟩
    exact absurd (inRange_iff.1 h).2 (by decide)
  · intro h
    obtain ⟨hsum, hsmall, -⟩ := division_tdiv a.toInt (toInt_ne_zero hb)
    have ha := inRange_iff.1 (inRange_toInt a)
    have hb := inRange_iff.1 (inRange_toInt b)
    have hle := Int.natAbs_tdiv_le_natAbs a.toInt b.toInt
    by_cases hq : a.toInt.tdiv b.toInt = 2 ^ 63
    · -- then the dividend is the least integer, and nothing is divided off
      rw [hq] at hsum
      have hmin : a.toInt = Int64.minValue.toInt := by
        rw [Int64.toInt_minValue]
        omega
      have hone : b.toInt = (-1 : Int64).toInt := by
        show b.toInt = -1
        omega
      exact absurd ⟨Int64.toInt_inj.1 hmin, Int64.toInt_inj.1 hone⟩ h
    · exact inRange_iff.2 (by omega)

theorem inRange_tmod (hb : b ≠ 0) : InRange (a.toInt.tmod b.toInt) := by
  have hsmall := (division_tdiv a.toInt (toInt_ne_zero hb)).small
  have hb := inRange_iff.1 (inRange_toInt b)
  exact inRange_iff.2 (by omega)

theorem apply_div (hb : b ≠ 0) : apply .div a b = exact .div (a.toInt.tdiv b.toInt) := if_neg hb

theorem apply_mod (hb : b ≠ 0) : apply .mod a b =
    (exact .mod (a.toInt.tdiv b.toInt)).bind fun _ => exact .mod (a.toInt.tmod b.toInt) := if_neg hb

theorem inRange_neg_iff : InRange (-a.toInt) ↔ a ≠ Int64.minValue := by
  have ha := inRange_iff.1 (inRange_toInt a)
  rw [ne_eq, ← Int64.toInt_inj, Int64.toInt_minValue, inRange_iff]
  omega

/-- What the operators give on two integers. -/
structure IsExact (a b : Int64) : Prop where
  add : Answers .add (apply .add a b) (a.toInt + b.toInt)
  sub : Answers .sub (apply .sub a b) (a.toInt - b.toInt)
  mul : Answers .mul (apply .mul a b) (a.toInt * b.toInt)
  divisionByZero : ∀ op, apply op a b = .error .divisionByZero ↔ (op = .div ∨ op = .mod) ∧ b = 0
  division : b ≠ 0 → ¬ (a = Int64.minValue ∧ b = -1) → ∃ q r, apply .div a b = .ok q ∧
    apply .mod a b = .ok r ∧ Division a.toInt b.toInt q.toInt r.toInt
  overflow : a = Int64.minValue → b = -1 →
    apply .div a b = .error (.overflow .div) ∧ apply .mod a b = .error (.overflow .mod)
  opposite : a ≠ Int64.minValue → ∃ r, negate a = .ok r ∧ r.toInt = -a.toInt
  noOpposite : a = Int64.minValue → negate a = .error (.overflow .sub)

theorem isExact (a b : Int64) : IsExact a b where
  add := answers_exact ..
  sub := answers_exact ..
  mul := answers_exact ..
  divisionByZero op := by
    cases op with
    | add | sub | mul => simp [apply, exact_ne_divisionByZero]
    | div => by_cases hb : b = 0 <;> simp [apply, hb, exact_ne_divisionByZero]
    | mod =>
      by_cases hb : b = 0
      · simp [apply, hb]
      · rw [apply_mod hb]
        cases hq : exact .mod (a.toInt.tdiv b.toInt) with
        | ok q => simp [Except.bind, hb, exact_ne_divisionByZero]
        | error e => simpa [Except.bind, hb, hq] using exact_ne_divisionByZero .mod (a.toInt.tdiv b.toInt)
  division hb h := by
    have hq := (inRange_tdiv_iff hb).2 h
    have hr := inRange_tmod (a := a) hb
    refine ⟨.ofInt (a.toInt.tdiv b.toInt), .ofInt (a.toInt.tmod b.toInt), ?_, ?_, ?_⟩
    · rw [apply_div hb, exact_of_inRange hq]
    · rw [apply_mod hb, exact_of_inRange hq, exact_of_inRange hr]
      rfl
    · rw [toInt_ofInt hq, toInt_ofInt hr]
      exact division_tdiv a.toInt (toInt_ne_zero hb)
  overflow ha hb := by
    have hne : b ≠ 0 := hb ▸ by decide
    have hq := fun h => (inRange_tdiv_iff hne).1 h ⟨ha, hb⟩
    rw [apply_div hne, apply_mod hne, exact_of_not_inRange hq, exact_of_not_inRange hq]
    exact ⟨rfl, rfl⟩
  opposite h := ⟨_, exact_of_inRange (inRange_neg_iff.2 h), toInt_ofInt (inRange_neg_iff.2 h)⟩
  noOpposite h := exact_of_not_inRange fun hn => inRange_neg_iff.1 hn h

end Integer

namespace Machine

open Lowering (binaryInstruction unaryInstruction)

/-- The machine behind an instruction on integers, with the rest of the stack given. -/
def answered (m : Machine) (next : Nat) (rest : List Value) :
    Except Integer.Failure Int64 → EStateM.Result Fault Machine Status
  | .ok r => .ok .running { m.movedTo next with stack := .int r :: rest }
  | .error e => .error (.ofInteger e) { m.movedTo next with stack := rest }

variable {host : Host} {m : Machine} {a b : Int64} {next : Nat} {rest : List Value}

theorem answered_of {x : Exec Unit} {r : Except Integer.Failure Int64}
    (h : x (m.movedTo next) = (match (r.map Value.int).mapError Fault.ofInteger with
      | .ok v => push v
      | .error e => throw e : Exec Unit) { m.movedTo next with stack := rest }) :
    (x >>= fun _ => pure .running) (m.movedTo next) = m.answered next rest r := by
  cases r with
  | ok r => exact bind_ok h
  | error e => exact bind_error h

theorem step_arithmetic {op : Arithmetic}
    (hf : fetch m.chunk m.frame.ip = .ok (binaryInstruction (.arithmetic op), next))
    (hs : m.stack = .int b :: .int a :: rest) :
    step host m = m.answered next rest (Integer.apply op a b) := by
  have hstep : step host m = (binary (arithmetic op) >>= fun _ => pure .running) (m.movedTo next) := by
    rw [step_of_fetch hf]
    cases op <;> rfl
  have happly : arithmetic op (.int a) (.int b) =
      ((Integer.apply op a b).map Value.int).mapError .ofInteger := by cases op <;> rfl
  rw [hstep]
  refine answered_of ?_
  rw [← happly]
  exact (bind_ok (pop_of_stack (m := m.movedTo next) hs)).trans (bind_ok (pop_of_stack rfl))

theorem step_neg (hf : fetch m.chunk m.frame.ip = .ok (unaryInstruction .negate, next))
    (hs : m.stack = .int a :: rest) :
    step host m = m.answered next rest (Integer.negate a) := by
  rw [step_of_fetch hf]
  exact answered_of (bind_ok (pop_of_stack (m := m.movedTo next) hs))

/-- Integer arithmetic is exact or fails, and the instructions for it touch nothing but their
operands. -/
theorem exact_arithmetic (host : Host) (m : Machine) (a b : Int64) (next : Nat) (rest : List Value) :
    Integer.IsExact a b ∧
      (∀ op, fetch m.chunk m.frame.ip = .ok (binaryInstruction (.arithmetic op), next) →
        m.stack = .int b :: .int a :: rest →
        step host m = m.answered next rest (Integer.apply op a b)) ∧
      (fetch m.chunk m.frame.ip = .ok (unaryInstruction .negate, next) → m.stack = .int a :: rest →
        step host m = m.answered next rest (Integer.negate a)) :=
  ⟨Integer.isExact a b, fun _ => step_arithmetic, step_neg⟩

/-- A machine that is about to add one to the greatest integer. -/
def summing : Machine where
  store := {}
  stack := [.int 1, .int Int64.maxValue, .nil]
  frame := { closure := ⟨⟨0, { name := none, code := (Instruction.bytes ⟨.add, ()⟩).toArray }⟩, []⟩ }

theorem exact_arithmetic_summing : step (Services.host {}) summing =
    .error (.integerOverflow .add) { summing.movedTo 1 with stack := [.nil] } :=
  (exact_arithmetic (Services.host {}) summing Int64.maxValue 1 1 [.nil]).2.1 .add rfl rfl

end Machine

end StackScript
