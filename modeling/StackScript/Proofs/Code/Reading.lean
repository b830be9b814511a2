import StackScript.Proofs.Code.Placement

/-!
# Code read from its first byte to its last

What is read at an offset, written again, gives the bytes that were read, but for one byte of a
capture: it says whether the captured variable is a local, and every byte but zero says yes. So the
instructions of a function lie side by side, from the first byte of its code to the last or to the
one place where none can be read (`Instruction.scan_tiles`).
-/

namespace StackScript

namespace Code

variable {code : Code} {offset : Nat}
variable {as bs : List UInt8} {b : UInt8}

theorem Holds.nil (h : offset ≤ code.size) : code.Holds offset [] :=
  ⟨code.toList.take offset, code.toList.drop offset, by simp, by simp [h]⟩

theorem Holds.append (ha : code.Holds offset as) (hb : code.Holds (offset + as.length) bs) :
    code.Holds offset (as ++ bs) := by
  obtain ⟨before, after, he, rfl⟩ := ha
  obtain ⟨before', after', he', hl⟩ := hb
  rw [he, List.append_assoc before'] at he'
  obtain ⟨-, hafter⟩ := List.append_inj he' (by rw [List.length_append, hl])
  exact ⟨before, after', by simp [he, hafter], rfl⟩

theorem holds_append_iff :
    code.Holds offset (as ++ bs) ↔ code.Holds offset as ∧ code.Holds (offset + as.length) bs :=
  ⟨fun h => ⟨h.left, h.right⟩, fun h => h.1.append h.2⟩

theorem holds_singleton_iff : code.Holds offset [b] ↔ code[offset]? = some b := by
  constructor
  · exact Holds.head
  · intro h
    obtain ⟨hlt, rfl⟩ := Array.getElem?_eq_some_iff.1 h
    refine ⟨code.toList.take offset, code.toList.drop (offset + 1), ?_, ?_⟩
    · rw [List.append_assoc]
      have hdrop := List.drop_eq_getElem_cons (l := code.toList) (i := offset) (by simpa using hlt)
      rw [show [code[offset]] ++ code.toList.drop (offset + 1) = code.toList.drop offset by
        rw [hdrop]
        rfl]
      exact (List.take_append_drop _ _).symm
    · simp [Nat.le_of_lt hlt]

theorem holds_cons_iff :
    code.Holds offset (b :: bs) ↔ code[offset]? = some b ∧ code.Holds (offset + 1) bs := by
  rw [← holds_singleton_iff, ← List.singleton_append, holds_append_iff, List.length_singleton]

theorem holds_zero_iff : code.Holds 0 bs ↔ bs = code.toList.take bs.length := by
  constructor
  · rintro ⟨before, after, he, hl⟩
    obtain rfl := List.eq_nil_of_length_eq_zero hl
    simp [he]
  · intro h
    refine ⟨[], code.toList.drop bs.length, ?_, rfl⟩
    calc code.toList = code.toList.take bs.length ++ code.toList.drop bs.length :=
          (List.take_append_drop _ _).symm
      _ = [] ++ bs ++ code.toList.drop bs.length := by rw [← h, List.nil_append]

theorem bytes_word (a b c d : UInt8) : Word.bytes32 (word a b c d) = [a, b, c, d] := by
  have hlt : Word.ofBytes [a, b, c, d] < 256 ^ 4 := Word.ofBytes_lt [a, b, c, d]
  rw [word_eq_ofBytes, Word.bytes32, Word.toNat_toUInt32 hlt]
  exact Word.toBytes_ofBytes [a, b, c, d]

/-- A word is read exactly where its bytes stand. -/
theorem wordAt?_eq_some_iff {n : UInt32} :
    code.wordAt? offset = some n ↔ code.Holds offset (Word.bytes32 n) := by
  constructor
  · intro h
    simp only [wordAt?, Option.bind_eq_bind, Option.bind_eq_some_iff, Option.pure_def,
      Option.some.injEq] at h
    obtain ⟨a, ha, b, hb, c, hc, d, hd, rfl⟩ := h
    rw [bytes_word, holds_cons_iff, holds_cons_iff, holds_cons_iff, holds_singleton_iff]
    exact ⟨ha, hb, hc, hd⟩
  · exact Holds.wordAt?

/-- A byte as it is written for a flag stands at the offset. -/
def HasFlag (code : Code) (offset : Nat) : Prop := code[offset]? = some 0 ∨ code[offset]? = some 1

end Code

/-! ## Operands -/

variable {code : Code} {offset : Nat}

theorem Capture.holds_iff {c : Capture} (h : Capture.readAt? code offset = some c) :
    offset + captureWidth ≤ code.size ∧
      (code.Holds offset c.bytes ↔ code.HasFlag offset) := by
  simp only [readAt?, Option.bind_eq_bind, Option.bind_eq_some_iff, Option.pure_def,
    Option.some.injEq] at h
  obtain ⟨flag, hflag, index, hindex, rfl⟩ := h
  have hword := Code.wordAt?_eq_some_iff.1 hindex
  have hsize := hword.le_size
  rw [Word.length_bytes32] at hsize
  refine ⟨by unfold captureWidth; omega, ?_⟩
  rw [bytes, Code.holds_cons_iff, Code.HasFlag, hflag]
  simp only [hword, and_true, Option.some.injEq, bne_iff_ne, ne_eq, ite_not]
  by_cases hzero : flag = 0
  · simp [hzero]
  · simp [hzero]

/-- So do captures that are read one after the other. -/
theorem Capture.holds_flatMap_iff {count : Nat} {cs : List Capture} (ho : offset ≤ code.size)
    (h : Capture.readMany? code count offset = some cs) :
    cs.length = count ∧ offset + count * captureWidth ≤ code.size ∧
      (code.Holds offset (cs.flatMap Capture.bytes) ↔
        ∀ k < count, code.HasFlag (offset + k * captureWidth)) := by
  induction count generalizing offset cs with
  | zero =>
    obtain rfl : cs = [] := by simpa [readMany?, eq_comm] using h
    exact ⟨rfl, by omega, by simpa using Code.Holds.nil ho⟩
  | succ count ih =>
    simp only [readMany?, Option.bind_eq_bind, Option.bind_eq_some_iff, Option.pure_def,
      Option.some.injEq] at h
    obtain ⟨c, hc, cs, hcs, rfl⟩ := h
    obtain ⟨hsize, hone⟩ := Capture.holds_iff hc
    obtain ⟨hlength, hend, hmany⟩ := ih hsize hcs
    have hplace (k : Nat) : offset + captureWidth + k * captureWidth =
        offset + (k + 1) * captureWidth := by
      rw [Nat.add_mul, Nat.one_mul]
      omega
    refine ⟨by rw [List.length_cons, hlength], hplace count ▸ hend, ?_⟩
    rw [List.flatMap_cons, Code.holds_append_iff, Capture.length_bytes, hone, hmany]
    simp only [hplace]
    constructor
    · rintro ⟨hfirst, hrest⟩ k hk
      cases k with
      | zero => simpa using hfirst
      | succ k => exact hrest k (by omega)
    · intro hall
      exact ⟨by simpa using hall 0 (by omega), fun k hk => hall (k + 1) (by omega)⟩

def Format.captures : (f : Format) → f.Args → List Capture
  | .closure, (_, captures) => captures
  | _, _ => []

theorem Format.holds_iff {f : Format} {args : f.Args} (ho : offset ≤ code.size)
    (h : f.readAt? code offset = some args) :
    f.Countable args ∧ offset + (f.bytes args).length ≤ code.size ∧
      (code.Holds offset (f.bytes args) ↔ ∀ k < (f.captures args).length,
        code.HasFlag (offset + 2 * wordWidth + k * captureWidth)) := by
  -- a single word has no flag, and the bytes of its operands are its own
  have hword {n : UInt32} (hn : code.wordAt? offset = some n) :
      offset + (Word.bytes32 n).length ≤ code.size ∧ code.Holds offset (Word.bytes32 n) :=
    ⟨(Code.wordAt?_eq_some_iff.1 hn).le_size, Code.wordAt?_eq_some_iff.1 hn⟩
  cases f with
  | plain => exact ⟨trivial, ho, fun _ _ hk => absurd hk (Nat.not_lt_zero _), fun _ => .nil ho⟩
  | constant | slot | count | jump =>
    obtain ⟨hsize, hholds⟩ := hword h
    exact ⟨trivial, hsize, fun _ _ hk => absurd hk (Nat.not_lt_zero _), fun _ => hholds⟩
  | invoke =>
    simp only [readAt?, Option.bind_eq_bind, Option.bind_eq_some_iff, Option.pure_def,
      Option.some.injEq] at h
    obtain ⟨name, hname, argc, hargc, rfl⟩ := h
    have hholds : code.Holds offset (Word.bytes32 name ++ Word.bytes32 argc) := by
      rw [Code.holds_append_iff, Word.length_bytes32]
      exact ⟨(hword hname).2, Code.wordAt?_eq_some_iff.1 hargc⟩
    exact ⟨trivial, hholds.le_size, fun _ _ hk => absurd hk (Nat.not_lt_zero _), fun _ => hholds⟩
  | closure =>
    simp only [readAt?, Option.bind_eq_bind, Option.bind_eq_some_iff, Option.pure_def,
      Option.some.injEq] at h
    obtain ⟨index, hindex, count, hcount, captures, hcaptures, rfl⟩ := h
    have hholds : code.Holds offset (Word.bytes32 index ++ Word.bytes32 count) := by
      rw [Code.holds_append_iff, Word.length_bytes32]
      exact ⟨(hword hindex).2, Code.wordAt?_eq_some_iff.1 hcount⟩
    have hplace : offset + (Word.bytes32 index ++ Word.bytes32 count).length =
        offset + 2 * wordWidth := by
      rw [List.length_append, Word.length_bytes32, Word.length_bytes32, Nat.two_mul]
    obtain ⟨hlength, hend, hmany⟩ :=
      Capture.holds_flatMap_iff (hplace ▸ hholds.le_size) hcaptures
    -- the number that was read is the number of captures, so it is written back
    have hwritten : captures.length.toUInt32 = count := by rw [hlength, Word.toUInt32_toNat]
    refine ⟨?_, ?_, ?_⟩
    · show captures.length < 2 ^ 32
      rw [hlength]
      exact count.toNat_lt
    · simp only [bytes]
      rw [List.length_append, ← Nat.add_assoc, hwritten, hplace, Capture.length_flatMap_bytes,
        hlength]
      exact hend
    · show _ ↔ ∀ k < captures.length, _
      simp only [bytes]
      rw [Code.holds_append_iff, hwritten, hplace, hmany, hlength]
      exact and_iff_right hholds

/-! ## Instructions -/

namespace Instruction

variable {byte : UInt8}

theorem holds_iff {i : Instruction} (hbyte : code[offset]? = some byte)
    (h : read code offset byte = .ok i) :
    offset + i.size ≤ code.size ∧
      (code.Holds offset i.bytes ↔ ∀ k < (i.op.format.captures i.args).length,
        code.HasFlag (offset + 1 + 2 * wordWidth + k * captureWidth)) := by
  have hlt : offset < code.size := (Array.getElem?_eq_some_iff.1 hbyte).1
  unfold read at h
  cases hop : Opcode.ofByte? byte with
  | none => simp [hop] at h
  | some op =>
    cases hargs : op.format.readAt? code (offset + 1) with
    | none => simp [hop, hargs] at h
    | some args =>
      simp only [hop, hargs, Except.ok.injEq] at h
      subst h
      obtain ⟨-, hend, hholds⟩ := Format.holds_iff hlt hargs
      have hfirst : op.byte = byte := Opcode.byte_of_ofByte? hop
      constructor
      · show offset + size ⟨op, args⟩ ≤ _
        rw [← length_bytes, bytes, List.length_cons, Nat.add_comm _ 1, ← Nat.add_assoc]
        exact hend
      · rw [bytes, Code.holds_cons_iff, hfirst, and_iff_right hbyte]
        exact hholds

/-- The offset at which no instruction can be read. -/
def Malformed.place : Malformed → Nat
  | .unknownOpcode offset _ => offset
  | .truncated offset _ => offset

theorem place_of_read {e : Malformed} (h : read code offset byte = .error e) :
    e.place = offset := by
  unfold read at h
  split at h
  · cases h
    rfl
  · split at h
    · cases h
      rfl
    · cases h

/-! ## The instructions of a function -/

namespace Located

variable {start stop : Nat} {ls : List Located}

/-- The instruction is the one that is read where it begins. -/
def IsReadFrom (l : Located) (code : Code) : Prop :=
  ∃ byte, code[l.offset]? = some byte ∧ read code l.offset byte = .ok l.instruction

/-- The flags of the captures are as they are written. -/
def HasFlags (l : Located) (code : Code) : Prop :=
  ∀ k < (l.instruction.op.format.captures l.instruction.args).length,
    code.HasFlag (l.offset + 1 + 2 * wordWidth + k * captureWidth)

/-- Instructions that lie side by side: the first begins at one offset, each other one where the one
before it ends, and the last ends at another offset. -/
def Cover : (start stop : Nat) → List Located → Prop
  | start, stop, [] => start = stop
  | start, stop, l :: ls => l.offset = start ∧ Cover l.next stop ls

theorem Cover.length_bytes (h : Cover start stop ls) :
    start + (ls.flatMap (·.instruction.bytes)).length = stop := by
  induction ls generalizing start with
  | nil => exact h
  | cons l ls ih =>
    obtain ⟨rfl, hrest⟩ := h
    rw [List.flatMap_cons, List.length_append, Instruction.length_bytes, ← Nat.add_assoc]
    exact ih hrest

theorem Cover.holds_iff (h : Cover start stop ls) (hread : ∀ l ∈ ls, l.IsReadFrom code)
    (hstart : start ≤ code.size) :
    code.Holds start (ls.flatMap (·.instruction.bytes)) ↔ ∀ l ∈ ls, l.HasFlags code := by
  induction ls generalizing start with
  | nil => simpa using Code.Holds.nil hstart
  | cons l ls ih =>
    obtain ⟨rfl, hrest⟩ := h
    rw [List.forall_mem_cons] at hread
    obtain ⟨⟨byte, hbyte, hl⟩, hls⟩ := hread
    obtain ⟨hend, hholds⟩ := Instruction.holds_iff hbyte hl
    rw [List.flatMap_cons, Code.holds_append_iff, Instruction.length_bytes, List.forall_mem_cons,
      hholds]
    exact and_congr_right fun _ => ih hrest hls hend

end Located

theorem scanFrom_tiles (h : offset ≤ code.size) :
    ∃ ls stop, Located.Cover offset stop ls ∧ (∀ l ∈ ls, l.IsReadFrom code) ∧
      (scanFrom code offset = ls.map .ok ∧ stop = code.size ∨
        ∃ byte e, scanFrom code offset = ls.map .ok ++ [.error e] ∧ code[stop]? = some byte ∧
          read code stop byte = .error e) ∧
      offset + (scanFrom code offset).length ≤ code.size := by
  fun_induction scanFrom code offset with
  | case1 o hlt i hread ih =>
    have hbyte : code[o]? = some code[o] := Array.getElem?_eq_getElem hlt
    have hend := (holds_iff hbyte hread).1
    obtain ⟨ls, stop, hcover, hall, hitems, hlength⟩ := ih hend
    have hpos := i.size_pos
    refine ⟨⟨o, i⟩ :: ls, stop, ⟨rfl, hcover⟩, ?_, ?_, ?_⟩
    · exact List.forall_mem_cons.2 ⟨⟨_, hbyte, hread⟩, hall⟩
    · rcases hitems with ⟨hitems, hstop⟩ | ⟨byte, e, hitems, hrest⟩
      · exact .inl ⟨by rw [hitems, List.map_cons], hstop⟩
      · exact .inr ⟨byte, e, by rw [hitems, List.map_cons, List.cons_append], hrest⟩
    · rw [List.length_cons]
      omega
  | case2 o hlt e hread =>
    have hbyte : code[o]? = some code[o] := Array.getElem?_eq_getElem hlt
    exact ⟨[], o, rfl, List.forall_mem_nil _, .inr ⟨_, e, rfl, hbyte, hread⟩, hlt⟩
  | case3 o hge =>
    have hstop : o = code.size := by omega
    exact ⟨[], code.size, hstop, List.forall_mem_nil _, .inl ⟨rfl, rfl⟩, h⟩

/-- The instructions of any code begin at its first byte and lie side by side, up to its end or to the
one place where none can be read, which comes last. There are no more of them than bytes. Written
again, they give the code that was read exactly when all flags of their captures are zero or one. -/
theorem scan_tiles (code : Code) :
    ∃ ls stop, Located.Cover 0 stop ls ∧ (∀ l ∈ ls, l.IsReadFrom code) ∧
      (scan code = ls.map .ok ∧ stop = code.size ∨
        ∃ byte e, scan code = ls.map .ok ++ [.error e] ∧ e.place = stop ∧
          code[stop]? = some byte ∧ read code stop byte = .error e) ∧
      (scan code).length ≤ code.size ∧
      (ls.flatMap (·.instruction.bytes) = code.toList.take stop ↔
        ∀ l ∈ ls, l.HasFlags code) := by
  obtain ⟨ls, stop, hcover, hall, hitems, hlength⟩ := scanFrom_tiles (Nat.zero_le code.size)
  rw [Nat.zero_add] at hlength
  refine ⟨ls, stop, hcover, hall, ?_, hlength, ?_⟩
  · rcases hitems with hitems | ⟨byte, e, hitems, hbyte, hread⟩
    · exact .inl hitems
    · exact .inr ⟨byte, e, hitems, place_of_read hread, hbyte, hread⟩
  · have hbytes := hcover.length_bytes
    rw [Nat.zero_add] at hbytes
    rw [← hcover.holds_iff hall (Nat.zero_le _), Code.holds_zero_iff, hbytes]

end Instruction

end StackScript
