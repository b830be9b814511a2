import Mathlib
import StackScript.Proofs.Code.Reading
import StackScript.Proofs.Machine.Running

/-!
# What the machine fetches is what is read

The machine first computes from the width of the operands and the number of captures where an
instruction ends, and then looks up each operand by its index; the reader of listings goes through
the operands one after the other and stops where the code does. Both find the same instruction, or
the same reason why there is none (`Machine.fetch_eq_read`), and the machine goes on where the
reader says.
-/

namespace StackScript

variable {code : Code} {ip : Nat}

theorem Format.size_closure {index : UInt32} {captures : List Capture}
    (h : Format.closure.readAt? code ip = some (index, captures)) :
    ∃ count, code.wordAt? (ip + wordWidth) = some count ∧ count.toNat = captures.length := by
  simp only [readAt?, Option.bind_eq_bind, Option.bind_eq_some_iff, Option.pure_def,
    Option.some.injEq, Prod.mk.injEq] at h
  obtain ⟨index', -, count, hcount, captures', hcaptures, rfl, rfl⟩ := h
  have hhead : ip + 2 * wordWidth ≤ code.size := by
    have := (Code.wordAt?_eq_some_iff.1 hcount).le_size
    rw [Word.length_bytes32] at this
    omega
  exact ⟨count, hcount, (Capture.holds_flatMap_iff hhead hcaptures).1.symm⟩

namespace Machine

/-- The fault of a machine that finds no instruction. -/
def faultOf : Instruction.Malformed → Fault
  | .unknownOpcode offset byte => .invalidOpcode byte offset
  | .truncated offset _ => .truncated offset

theorem fetch_eq_read {chunk : Chunk Value} {byte : UInt8} (h : chunk.code[ip]? = some byte) :
    fetch chunk ip = match Instruction.read chunk.code ip byte with
      | .ok i => .ok (i, ip + i.size)
      | .error e => .error (faultOf e) := by
  have hlt : ip < chunk.code.size := (Array.getElem?_eq_some_iff.1 h).1
  cases hread : Instruction.read chunk.code ip byte with
  | ok i =>
    have hend := (Instruction.holds_iff h hread).1
    unfold Instruction.read at hread
    cases hop : Opcode.ofByte? byte with
    | none => simp [hop] at hread
    | some op =>
      cases hargs : op.format.readAt? chunk.code (ip + 1) with
      | none => simp [hop, hargs] at hread
      | some args =>
        simp only [hop, hargs, Except.ok.injEq] at hread
        subst hread
        unfold fetch
        simp only [h, hop, operandsAt?_eq_readAt?, hargs]
        by_cases hclosure : op = .pushClosure
        · subst hclosure
          obtain ⟨index, captures⟩ := args
          obtain ⟨count, hcount, hlength⟩ := Format.size_closure hargs
          rw [Instruction.size_pushClosure] at hend ⊢
          have hnext : ip + 1 + Opcode.pushClosure.width + captures.length * captureWidth =
              ip + (1 + 2 * wordWidth + captures.length * captureWidth) := by
            show ip + 1 + 2 * wordWidth + _ = _
            omega
          simp only [if_true, operandAt?, Nat.one_mul, hcount, hlength, hnext]
          rw [if_neg (Nat.not_lt.2 hend)]
        · rw [Instruction.size_of_ne hclosure] at hend ⊢
          have hnext : ip + 1 + op.width + UInt32.toNat 0 * captureWidth = ip + (1 + op.width) := by
            show ip + 1 + op.width + 0 * captureWidth = _
            omega
          simp only [if_neg hclosure, hnext]
          rw [if_neg (Nat.not_lt.2 hend)]
  | error e =>
    unfold Instruction.read at hread
    cases hop : Opcode.ofByte? byte with
    | none =>
      simp only [hop, Except.error.injEq] at hread
      subst hread
      unfold fetch
      simp only [h, hop, faultOf]
    | some op =>
      cases hargs : op.format.readAt? chunk.code (ip + 1) with
      | some args => simp [hop, hargs] at hread
      | none =>
        simp only [hop, hargs, Except.error.injEq] at hread
        subst hread
        -- whichever test notices it, the answer is the same
        unfold fetch
        simp only [h, hop, operandsAt?_eq_readAt?, hargs, faultOf]
        split
        · rfl
        · split <;> rfl

/-! ## Jumps -/

/-- The machine takes the jump of an operation. A jump that looks at the top of the stack is taken for
one outcome only. -/
def TakesJump (m : Machine) : Opcode → Prop
  | .jump | .loop => True
  | .jumpTrue => m.stack.head? = some (.bool true)
  | .jumpFalse => m.stack.head? = some (.bool false)
  | .jumpHasNoNext => ∃ r, m.stack.head? = some (.range r) ∧ r.hasNext = false
  | _ => False

variable {host : Host} {m : Machine} {i : Instruction}

open Instruction (Located)

/-- A test of the top of the stack looks at a boolean. -/
theorem jumpIf_eq (op : Opcode) (wanted : Bool) (target : Nat) (m : Machine) :
    jumpIf op wanted target m = match m.stack.head? with
      | some (.bool b) => .ok () (if b = wanted then m.movedTo target else m)
      | some v => .error (.unexpectedType op.mnemonic "bool" v.kind) m
      | none => .error .stackUnderflow m := by
  obtain ⟨store, stack, locals, globals, frame, callers, openCells, calls⟩ := m
  cases stack with
  | nil => rfl
  | cons v stack =>
    cases v with
    | bool b =>
      by_cases hb : b = wanted
      · subst hb
        simp [jumpIf, bind, EStateM.bind, peek, expectBool, pure, EStateM.pure, jumpTo, modify,
          modifyGet, MonadStateOf.modifyGet, EStateM.modifyGet]
      · simp [jumpIf, bind, EStateM.bind, peek, expectBool, pure, EStateM.pure, hb]
    | _ => rfl

theorem jumpIf_of_wanted {op : Opcode} {wanted : Bool} {target : Nat}
    (h : m.stack.head? = some (.bool wanted)) :
    jumpIf op wanted target m = .ok () (m.movedTo target) := by
  rw [jumpIf_eq, h]
  simp only [if_true]

theorem jumpIf_of_unwanted {op : Opcode} {wanted : Bool} {target : Nat} {m' : Machine}
    (h : m.stack.head? ≠ some (.bool wanted)) (hx : jumpIf op wanted target m = .ok () m') :
    m' = m := by
  rw [jumpIf_eq] at hx
  split at hx
  · next b hb =>
    have hne : b ≠ wanted := fun he => h (he ▸ hb)
    rw [if_neg hne] at hx
    cases hx
    rfl
  · cases hx
  · cases hx

theorem execute_jumpHasNoNext (ip next : Nat) (distance : UInt32) (m : Machine) :
    execute host ip next .jumpHasNoNext distance m = match m.stack.head? with
      | some (.range r) =>
        .ok .running (if r.hasNext = false then m.movedTo (next + distance.toNat) else m)
      | some v => .error (.unexpectedType Opcode.jumpHasNoNext.mnemonic "iterator" v.kind) m
      | none => .error .stackUnderflow m := by
  obtain ⟨store, stack, locals, globals, frame, callers, openCells, calls⟩ := m
  cases stack with
  | nil => rfl
  | cons v stack =>
    cases v with
    | range r =>
      cases hr : r.hasNext with
      | true =>
        simp [execute, bind, EStateM.bind, peek, expectRange, pure, EStateM.pure, hr]
      | false =>
        simp [execute, bind, EStateM.bind, peek, expectRange, pure, EStateM.pure, hr, jumpTo, modify,
          modifyGet, MonadStateOf.modifyGet, EStateM.modifyGet]
    | _ => rfl

theorem execute_loop (ip : Nat) (distance : UInt32) (m : Machine) :
    execute host ip (Located.next ⟨ip, ⟨.loop, distance⟩⟩) .loop distance m =
      match Located.target? ⟨ip, ⟨.loop, distance⟩⟩ with
      | some t => .ok .running (m.movedTo t)
      | none => .error (.invalidJump ip) m := by
  have htarget : Located.target? ⟨ip, ⟨.loop, distance⟩⟩ =
      if distance.toNat ≤ Located.next ⟨ip, ⟨.loop, distance⟩⟩ then
        some (Located.next ⟨ip, ⟨.loop, distance⟩⟩ - distance.toNat) else none := rfl
  rw [htarget]
  by_cases hd : distance.toNat ≤ Located.next ⟨ip, ⟨.loop, distance⟩⟩
  · simp only [execute, if_pos hd]
    rfl
  · simp only [execute, if_neg hd]
    rfl

/-- A jump that is taken goes on at its target. -/
theorem execute_of_takesJump {t : Nat} (ht : Located.target? ⟨ip, i⟩ = some t)
    (hj : m.TakesJump i.op) :
    execute host ip (Located.next ⟨ip, i⟩) i.op i.args m =
      .ok .running (m.movedTo t) := by
  obtain ⟨op, distance⟩ := i
  -- a jump forward has its target at its distance behind the instruction
  cases op with
  | jump =>
    obtain rfl := Option.some.inj ht
    rfl
  | jumpTrue | jumpFalse =>
    obtain rfl := Option.some.inj ht
    exact bind_ok (jumpIf_of_wanted hj)
  | jumpHasNoNext =>
    obtain rfl := Option.some.inj ht
    obtain ⟨r, hr, hn⟩ := hj
    rw [execute_jumpHasNoNext, hr]
    simp only [hn, if_true]
  | loop => rw [execute_loop, ht]
  | _ => exact hj.elim

theorem execute_of_not_takesJump {next : Nat} {status : Status} {m' : Machine}
    (hop : i.op.isJump = true) (hj : ¬ m.TakesJump i.op)
    (hx : execute host ip next i.op i.args m = .ok status m') : status = .running ∧ m' = m := by
  obtain ⟨op, distance⟩ := i
  cases op with
  | jump | loop => exact absurd trivial hj
  | jumpTrue | jumpFalse =>
    obtain ⟨_, m₁, hjump, hend⟩ := exists_of_bind_ok hx
    obtain rfl := jumpIf_of_unwanted hj hjump
    cases hend
    exact ⟨rfl, rfl⟩
  | jumpHasNoNext =>
    have hx' := (execute_jumpHasNoNext ip next distance m).symm.trans hx
    split at hx'
    · next r hr =>
      have hn : ¬ r.hasNext = false := fun hn => hj ⟨r, hr, hn⟩
      rw [if_neg hn] at hx'
      cases hx'
      exact ⟨rfl, rfl⟩
    · cases hx'
    · cases hx'
  | _ => cases hop

/-! ## Agreement -/

/-- At every offset of any code, the machine fetches what is read there. There is no opcode for the one
where there is none for the other, and the code is too short for the one where it is too short for the
other. Otherwise the machine executes the operation that is read with the operands that are read, and
goes on where the instruction ends; a jump that is taken leads to the target that is read, any other
jump behind the instruction, and a jump backward fails for want of a target exactly where there is
none. -/
theorem fetch_agrees {chunk : Chunk Value} {byte : UInt8} (h : chunk.code[ip]? = some byte) :
    let reading := Instruction.read chunk.code ip byte
    (∀ b o, fetch chunk ip = .error (.invalidOpcode b o) ↔ reading = .error (.unknownOpcode o b)) ∧
    (∀ o, fetch chunk ip = .error (.truncated o) ↔ ∃ op, reading = .error (.truncated o op)) ∧
    (∀ i next, fetch chunk ip = .ok (i, next) ↔ reading = .ok i ∧ next = Located.next ⟨ip, i⟩) ∧
    ∀ i, reading = .ok i → ∀ (host : Host) (m : Machine),
      m.frame.closure.function.chunk = chunk → m.frame.ip = ip →
      let l : Located := ⟨ip, i⟩
      step host m = execute host ip l.next i.op i.args (m.movedTo l.next) ∧
      (m.TakesJump i.op → ∀ t, l.target? = some t → step host m = .ok .running (m.movedTo t)) ∧
      (i.op.isJump = true → ¬ m.TakesJump i.op → ∀ status m', step host m = .ok status m' →
        status = .running ∧ m' = m.movedTo l.next) ∧
      (i.op = .loop → ((∃ o m', step host m = .error (.invalidJump o) m') ↔ l.target? = none)) := by
  intro reading
  have hfetch : fetch chunk ip = match reading with
      | .ok i => .ok (i, ip + i.size)
      | .error e => .error (faultOf e) := fetch_eq_read h
  refine ⟨?_, ?_, ?_, ?_⟩
  · intro b o
    rw [hfetch]
    cases reading with
    | ok i => simp
    | error e => cases e <;> simp [faultOf, and_comm]
  · intro o
    rw [hfetch]
    cases reading with
    | ok i => simp
    | error e => cases e <;> simp [faultOf]
  · intro i next
    rw [hfetch]
    cases reading with
    | ok i' =>
      simp only [Except.ok.injEq, Prod.mk.injEq]
      constructor
      · rintro ⟨rfl, rfl⟩
        exact ⟨rfl, rfl⟩
      · rintro ⟨rfl, rfl⟩
        exact ⟨rfl, rfl⟩
    | error e => simp
  · rintro i hreading host m rfl rfl l
    rw [hreading] at hfetch
    have hstep : step host m = execute host m.frame.ip l.next i.op i.args (m.movedTo l.next) :=
      step_of_fetch hfetch
    refine ⟨hstep, ?_, ?_, ?_⟩
    · intro hj t ht
      rw [hstep]
      exact execute_of_takesJump ht hj
    · intro hop hj status m' hx
      rw [hstep] at hx
      exact execute_of_not_takesJump hop hj hx
    · intro hop
      obtain ⟨op, distance⟩ := i
      obtain rfl : op = .loop := hop
      have hloop := @execute_loop host m.frame.ip distance (m.movedTo l.next)
      rw [hstep]
      constructor
      · rintro ⟨o, m', hx⟩
        cases ht : l.target? with
        | none => rfl
        | some t =>
          rw [show Located.target? _ = some t from ht] at hloop
          cases hloop.symm.trans hx
      · intro ht
        rw [show Located.target? _ = none from ht] at hloop
        exact ⟨_, _, hloop⟩

/-- Code that makes a closure with one capture. Its flag byte is not as it is written. -/
def capturingCode : Code := #[1, 3, 0, 0, 0, 1, 0, 0, 0, 7, 2, 0, 0, 0]

theorem fetch_agrees_capturingCode : capturingCode[0]? = some 1 ∧
    fetch { name := none, code := capturingCode } 0 =
      .ok (⟨.pushClosure, (3, [⟨true, 2⟩])⟩, 14) := by
  have hbyte : capturingCode[0]? = some 1 := rfl
  refine ⟨hbyte, ?_⟩
  have hagrees := @fetch_agrees 0 { name := none, code := capturingCode } 1 hbyte
  exact (hagrees.2.2.1 _ _).2 ⟨rfl, rfl⟩

end Machine

end StackScript
