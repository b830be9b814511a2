import Mathlib.Data.List.Basic
import StackScript.Fragment
import StackScript.Machine.Step

/-!
# Code in its place

A fragment is `Placed` in the code of a function when its bytes stand there from an offset on and
all its jumps fit into operands. A machine that comes to that offset runs it piece by piece.
-/

namespace StackScript

variable {code : Code} {offset : Nat}

namespace Code

variable {bs : List UInt8}
variable {as : List UInt8} {b : UInt8}

/-- The bytes stand in the code from an offset on. -/
def Holds (code : Code) (offset : Nat) (bs : List UInt8) : Prop :=
  ∃ before after, code.toList = before ++ bs ++ after ∧ before.length = offset

variable {code : Code} {offset : Nat}

theorem Holds.left (h : code.Holds offset (as ++ bs)) : code.Holds offset as := by
  obtain ⟨before, after, he, hl⟩ := h
  exact ⟨before, bs ++ after, by simp [he], hl⟩

theorem Holds.right (h : code.Holds offset (as ++ bs)) : code.Holds (offset + as.length) bs := by
  obtain ⟨before, after, he, hl⟩ := h
  exact ⟨before ++ as, after, by simp [he], by simp [hl]⟩

theorem Holds.head (h : code.Holds offset (b :: bs)) : code[offset]? = some b := by
  obtain ⟨before, after, he, rfl⟩ := h
  rw [← Array.getElem?_toList, he]
  simp

theorem Holds.tail (h : code.Holds offset (b :: bs)) : code.Holds (offset + 1) bs := by
  have h' : code.Holds offset ([b] ++ bs) := h
  exact h'.right

theorem Holds.le_size (h : code.Holds offset bs) : offset + bs.length ≤ code.size := by
  obtain ⟨before, after, he, rfl⟩ := h
  have := congrArg List.length he
  simp only [Array.length_toList, List.length_append] at this
  omega

theorem word_toBytes (n : UInt32) :
    ∃ a b c d, Word.bytes32 n = [a, b, c, d] ∧ word a b c d = n := by
  refine ⟨_, _, _, _, rfl, ?_⟩
  rw [word_eq_ofBytes]
  show (Word.ofBytes (Word.toBytes 4 n.toNat)).toUInt32 = n
  rw [Word.ofBytes_toBytes, Nat.mod_eq_of_lt (show n.toNat < 256 ^ 4 from n.toNat_lt),
    Word.toUInt32_toNat]

/-- A word that stands in the code is read back. -/
theorem Holds.wordAt? {n : UInt32} (h : code.Holds offset (Word.bytes32 n)) :
    code.wordAt? offset = some n := by
  obtain ⟨a, b, c, d, hb, rfl⟩ := word_toBytes n
  rw [hb] at h
  have ha := h.head
  have hb := h.tail.head
  have hc := h.tail.tail.head
  have hd := h.tail.tail.tail.head
  simp only [Nat.add_assoc, Nat.reduceAdd] at hb hc hd
  simp [Code.wordAt?, ha, hb, hc, hd]

end Code

/-! ## Instructions -/

theorem Word.length_bytes32 (n : UInt32) : (Word.bytes32 n).length = wordWidth :=
  Word.length_toBytes 4 n.toNat

theorem Capture.length_bytes (c : Capture) : c.bytes.length = captureWidth := by
  simp only [Capture.bytes, List.length_cons, Word.length_bytes32, captureWidth]
  omega

theorem Capture.length_flatMap_bytes (cs : List Capture) :
    (cs.flatMap Capture.bytes).length = cs.length * captureWidth := by
  induction cs with
  | nil => simp
  | cons c cs ih =>
    rw [List.flatMap_cons, List.length_append, ih, Capture.length_bytes, List.length_cons,
      Nat.succ_mul, Nat.add_comm]

theorem Instruction.size_pushClosure (index : UInt32) (captures : List Capture) :
    (⟨.pushClosure, (index, captures)⟩ : Instruction).size =
      1 + 2 * wordWidth + captures.length * captureWidth := by
  show 1 + 2 * wordWidth + List.countP _ (_ :: _ :: captures.map Operand.capture) * captureWidth = _
  rw [List.countP_cons_of_neg (by simp), List.countP_cons_of_neg (by simp), List.countP_map]
  show _ + List.countP (fun _ => true) captures * _ = _
  rw [List.countP_true]

theorem Instruction.size_of_ne {op : Opcode} (h : op ≠ .pushClosure) (args : op.format.Args) :
    (⟨op, args⟩ : Instruction).size = 1 + op.width := by
  cases op <;> first | rfl | exact absurd rfl h

/-- An instruction is as long as its bytes. -/
theorem Instruction.length_bytes (i : Instruction) : i.bytes.length = i.size := by
  obtain ⟨op, args⟩ := i
  by_cases hop : op = .pushClosure
  · subst hop
    obtain ⟨index, captures⟩ := args
    show (_ :: (_ ++ _ ++ captures.flatMap Capture.bytes)).length = _
    rw [size_pushClosure, List.length_cons, List.length_append, List.length_append,
      Word.length_bytes32, Word.length_bytes32, Capture.length_flatMap_bytes]
    omega
  · cases op <;> first | rfl | exact absurd rfl hop

/-- The captures among the operands can be counted by an operand. -/
def Format.Countable : (f : Format) → f.Args → Prop
  | .closure, (_, captures) => captures.length < 2 ^ 32
  | _, _ => True

theorem Capture.readAt?_of_holds {c : Capture} (h : code.Holds offset c.bytes) :
    Capture.readAt? code offset = some c := by
  obtain ⟨fromLocal, index⟩ := c
  have hw : code.wordAt? (offset + 1) = some index := h.tail.wordAt?
  have hb := h.head
  simp only [Capture.readAt?, hb, hw]
  cases fromLocal <;> rfl

theorem Capture.readMany?_of_holds {cs : List Capture}
    (h : code.Holds offset (cs.flatMap Capture.bytes)) :
    Capture.readMany? code cs.length offset = some cs := by
  induction cs generalizing offset with
  | nil => rfl
  | cons c cs ih =>
    rw [List.flatMap_cons] at h
    have hc := Capture.readAt?_of_holds h.left
    have hcs := h.right
    rw [Capture.length_bytes] at hcs
    simp [Capture.readMany?, hc, ih hcs]

/-- Operands that stand in the code are read back. -/
theorem Format.readAt?_of_holds :
    (f : Format) → (args : f.Args) → f.Countable args → code.Holds offset (f.bytes args) →
      f.readAt? code offset = some args
  | .plain, (), _, _ => rfl
  | .constant, _, _, h | .slot, _, _, h | .count, _, _, h | .jump, _, _, h => h.wordAt?
  | .invoke, (name, argc), _, h => by
    have hn : code.wordAt? offset = some name := h.left.wordAt?
    have ha := h.right
    rw [Word.length_bytes32] at ha
    simp only [Format.readAt?, hn, ha.wordAt?]
    rfl
  | .closure, (index, captures), hc, h => by
    have hi : code.wordAt? offset = some index := h.left.left.wordAt?
    have hn := h.left.right
    rw [Word.length_bytes32] at hn
    have hcs := h.right
    rw [List.length_append, Word.length_bytes32, Word.length_bytes32, ← Nat.two_mul] at hcs
    have hl : captures.length.toUInt32.toNat = captures.length := Word.toNat_toUInt32 hc
    simp only [Format.readAt?, hi, hn.wordAt?, bind, Option.bind, hl,
      Capture.readMany?_of_holds hcs]
    rfl

theorem Machine.mapM_captureAt? (code : Code) (ip count first : Nat) :
    (List.range' first count).mapM (captureAt? code ip) =
      Capture.readMany? code count (ip + 1 + 2 * wordWidth + first * captureWidth) := by
  induction count generalizing first with
  | zero => rfl
  | succ count ih =>
    have hplace : ip + 1 + 2 * wordWidth + (first + 1) * captureWidth =
        ip + 1 + 2 * wordWidth + first * captureWidth + captureWidth := by
      rw [Nat.add_mul, Nat.one_mul]
      omega
    rw [List.range'_succ, List.mapM_cons, ih, hplace]
    rfl

theorem Machine.operandsAt?_eq_readAt? (code : Code) (ip : Nat) (f : Format) :
    operandsAt? code ip f = f.readAt? code (ip + 1) := by
  have hfirst : operandAt? code ip 0 = code.wordAt? (ip + 1) := by
    rw [operandAt?, Nat.zero_mul, Nat.add_zero]
  have hsecond : operandAt? code ip 1 = code.wordAt? (ip + 1 + wordWidth) := by
    rw [operandAt?, Nat.one_mul]
  cases f with
  | plain => rfl
  | constant | slot | count | jump => exact hfirst
  | invoke => simp only [operandsAt?, Format.readAt?, hfirst, hsecond]
  | closure =>
    simp only [operandsAt?, Format.readAt?, hfirst, hsecond, List.range_eq_range', mapM_captureAt?,
      Nat.zero_mul, Nat.add_zero]

/-- An instruction that stands in the code is fetched. -/
theorem Machine.fetch_of_holds {chunk : Chunk Value} {ip : Nat} {i : Instruction}
    (hc : i.op.format.Countable i.args) (h : chunk.code.Holds ip i.bytes) :
    Machine.fetch chunk ip = .ok (i, ip + i.size) := by
  obtain ⟨op, args⟩ := i
  have hbyte : chunk.code[ip]? = some op.byte := h.head
  have hargs : chunk.code.Holds (ip + 1) (op.format.bytes args) := h.tail
  have hread := Format.readAt?_of_holds _ _ hc hargs
  rw [← operandsAt?_eq_readAt?] at hread
  have hsize := h.le_size
  rw [Instruction.length_bytes] at hsize
  by_cases hop : op = .pushClosure
  · subst hop
    obtain ⟨index, captures⟩ := args
    have hcount := hargs.left.right.wordAt?
    rw [Word.length_bytes32, ← Nat.one_mul wordWidth] at hcount
    have hl : captures.length.toUInt32.toNat = captures.length := Word.toNat_toUInt32 hc
    rw [Instruction.size_pushClosure] at hsize ⊢
    have hnext : ip + 1 + Opcode.pushClosure.width + captures.length * captureWidth =
        ip + (1 + 2 * wordWidth + captures.length * captureWidth) := by
      show ip + 1 + 2 * wordWidth + _ = _
      omega
    simp only [Machine.fetch, hbyte, Opcode.ofByte?_byte, if_true, operandAt?, hcount, hl, hnext]
    rw [if_neg (Nat.not_lt.2 hsize)]
    simp only [hread]
  · rw [Instruction.size_of_ne hop] at hsize ⊢
    have hnext : ip + 1 + op.width + UInt32.toNat 0 * captureWidth = ip + (1 + op.width) := by
      show ip + 1 + op.width + 0 * captureWidth = _
      omega
    simp only [Machine.fetch, hbyte, Opcode.ofByte?_byte, if_neg hop, hnext]
    rw [if_neg (Nat.not_lt.2 hsize)]
    simp only [hread]

/-! ## Fragments -/

theorem Branch.size_instruction (b : Branch) (distance : UInt32) :
    (b.instruction distance).size = Piece.jumpSize := by
  cases b <;> rfl

theorem Piece.length_bytes (p : Piece) : p.bytes.length = p.size := by
  cases p with
  | instruction i span => exact i.length_bytes
  | jump b distance span =>
    show (b.instruction distance.toUInt32).bytes.length = Piece.jumpSize
    rw [Instruction.length_bytes, Branch.size_instruction]
  | exit span => rfl
  | landing => rfl

namespace Fragment

variable {f g : Fragment} {off : Nat}
variable {p : Piece} {chunk : Chunk Value} {span : Span}

def bytes (f : Fragment) : List UInt8 := f.flatMap Piece.bytes

@[simp] theorem bytes_append (f g : Fragment) : bytes (f ++ g) = f.bytes ++ g.bytes := by
  simp [bytes]

theorem bytes_cons (p : Piece) (f : Fragment) : bytes (p :: f) = p.bytes ++ f.bytes := by
  simp [bytes]

theorem length_bytes (f : Fragment) : f.bytes.length = f.size := by
  induction f with
  | nil => rfl
  | cons p f ih => rw [bytes_cons, List.length_append, ih, Piece.length_bytes, size_cons]

@[simp] theorem size_emit (i : Instruction) (span : Span) : (emit i span).size = i.size := by
  simp [emit, Piece.size]

section Chunk

variable {α : Type} (f : Fragment) (name : Option String) (constants : List α)

theorem foldl_append (c : Chunk α) :
    let c' := f.foldl (fun c p => c.append p.bytes p.span) c
    c'.name = c.name ∧ c'.constants = c.constants ∧ c'.code.toList = c.code.toList ++ f.bytes := by
  induction f generalizing c with
  | nil => simp [bytes]
  | cons p f ih =>
    obtain ⟨hn, hk, hc⟩ := ih (c.append p.bytes p.span)
    refine ⟨hn, hk, ?_⟩
    rw [List.foldl_cons, hc, bytes_cons]
    simp [Chunk.append]

theorem name_toChunk : (f.toChunk name constants).name = name :=
  (f.foldl_append { name, constants }).1

theorem constants_toChunk : (f.toChunk name constants).constants = constants :=
  (f.foldl_append { name, constants }).2.1

theorem code_toChunk : (f.toChunk name constants).code.toList = f.bytes := by
  have := (f.foldl_append { name, constants }).2.2
  simpa [toChunk] using this

end Chunk

/-! ## Placement -/

/-- The fragment stands in the code from an offset on, and its jumps fit into operands. -/
structure Placed (code : Code) (offset : Nat) (f : Fragment) : Prop where
  bytes : code.Holds offset f.bytes
  near : ∀ b distance span, Piece.jump b distance span ∈ f → distance < 2 ^ 32

variable {code : Code} {o : Nat}

theorem Placed.left (h : Placed code o (f ++ g)) : Placed code o f := by
  refine ⟨?_, fun b d s hm => h.near b d s (List.mem_append_left g hm)⟩
  have := h.bytes
  rw [bytes_append] at this
  exact this.left

theorem Placed.right (h : Placed code o (f ++ g)) : Placed code (o + f.size) g := by
  refine ⟨?_, fun b d s hm => h.near b d s (List.mem_append_right f hm)⟩
  have := h.bytes
  rw [bytes_append] at this
  rw [← length_bytes]
  exact this.right

theorem Placed.tail (h : Placed code o (p :: f)) : Placed code (o + p.size) f := by
  have := Placed.right (f := [p]) h
  rwa [size_cons, size_nil, Nat.add_zero] at this

theorem Placed.fetch {i : Instruction} (h : Placed chunk.code o (.instruction i span :: f))
    (hc : i.op.format.Countable i.args) : Machine.fetch chunk o = .ok (i, o + i.size) := by
  have := h.bytes
  rw [bytes_cons] at this
  exact Machine.fetch_of_holds hc this.left

theorem Placed.fetch_jump {b : Branch} {distance : Nat}
    (h : Placed chunk.code o (.jump b distance span :: f)) :
    Machine.fetch chunk o = .ok (b.instruction distance.toUInt32, o + Piece.jumpSize) ∧
      distance.toUInt32.toNat = distance := by
  have hb := h.bytes
  rw [bytes_cons] at hb
  have hc : (b.instruction distance.toUInt32).op.format.Countable
      (b.instruction distance.toUInt32).args := by
    cases b <;> trivial
  refine ⟨?_, Word.toNat_toUInt32 (h.near b distance span (List.mem_cons_self ..))⟩
  rw [← Branch.size_instruction b distance.toUInt32]
  exact Machine.fetch_of_holds hc hb.left

/-- Code without a jump that is too far. -/
theorem near_of_farJump? (h : f.farJump? o = none) (b : Branch) (distance : Nat) (span : Span)
    (hm : Piece.jump b distance span ∈ f) : distance < 2 ^ 32 := by
  induction f generalizing o with
  | nil => cases hm
  | cons p f ih =>
    rcases List.mem_cons.1 hm with rfl | hf
    · unfold farJump? at h
      split at h
      · assumption
      · cases h
    · cases p with
      | jump b' d' s' =>
        unfold farJump? at h
        split at h
        · exact ih h hf
        · cases h
      | instruction i s => exact ih h hf
      | exit s => exact ih h hf
      | landing => exact ih h hf

/-- The code of a compiled function stands in its chunk. -/
theorem placed_toChunk {α : Type} (h : f.farJump? 0 = none) (name : Option String)
    (constants : List α) : Placed (f.toChunk name constants).code 0 f :=
  ⟨⟨[], [], by simp [code_toChunk], rfl⟩, near_of_farJump? h⟩

/-! ## Linking -/

theorem size_linkFrom (n : Nat) (f : Fragment) : (linkFrom n f).size = f.size := by
  induction f generalizing n with
  | nil => rfl
  | cons p f ih => cases p <;> simp [linkFrom, ih, Piece.size]

theorem linkFrom_append (n : Nat) (f g : Fragment) :
    linkFrom n (f ++ g) = linkFrom n f ++ linkFrom (n + f.size) g := by
  induction f generalizing n with
  | nil => simp [linkFrom]
  | cons p f ih => cases p <;> simp [linkFrom, ih, Piece.size, Nat.add_assoc]

/-- A fragment without open ends. -/
def Closed (f : Fragment) : Prop := ∀ n, linkFrom n f = f

theorem Closed.placed (hf : f.Closed) (h : Placed code o (linkFrom off f)) : Placed code o f := by
  rwa [hf off] at h

theorem Placed.linkLeft (h : Placed code o (linkFrom off (f ++ g))) :
    Placed code o (linkFrom off f) := by
  rw [linkFrom_append] at h
  exact h.left

theorem Placed.linkRight (h : Placed code o (linkFrom off (f ++ g))) :
    Placed code (o + f.size) (linkFrom (off + f.size) g) := by
  rw [linkFrom_append] at h
  have hr := h.right
  rwa [size_linkFrom] at hr

theorem Placed.linkTail (h : Placed code o (linkFrom off (p :: f))) :
    Placed code (o + p.size) (linkFrom (off + p.size) f) := by
  have hr := Placed.linkRight (f := [p]) h
  rwa [size_cons, size_nil, Nat.add_zero] at hr

theorem closed_nil : Closed [] := fun _ => rfl

theorem Closed.append (hf : f.Closed) (hg : g.Closed) : (f ++ g).Closed := by
  intro n
  rw [linkFrom_append, hf, hg]

theorem closed_linkFrom (n : Nat) (f : Fragment) : (linkFrom n f).Closed := by
  intro m
  induction f generalizing n m with
  | nil => rfl
  | cons p f ih => cases p <;> simp [linkFrom, ih]

theorem closed_emit (i : Instruction) (span : Span) : (emit i span).Closed := fun _ => rfl

theorem Closed.cons_jump (h : f.Closed) (b : Branch) (distance : Nat) (span : Span) :
    Closed (.jump b distance span :: f) := by
  intro n
  simp [linkFrom, h _]

/-- Linking changes open ends only. -/
theorem closed_of_forall (h : ∀ p ∈ f, ∀ span, p ≠ .exit span) : f.Closed := by
  intro n
  induction f generalizing n with
  | nil => rfl
  | cons p f ih =>
    rw [List.forall_mem_cons] at h
    cases p with
    | exit span => exact absurd rfl (h.1 span)
    | _ => simp [linkFrom, ih h.2]

end Fragment

end StackScript
