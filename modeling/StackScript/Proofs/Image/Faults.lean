import StackScript.Proofs.Image.Stream

/-!
# The first fault of a writer

A stream fails where the first of its parts fails, so what goes wrong in writing a value can be
followed through its layers without a look at the bytes. Where all lengths of a layer fit, only what
is inside can go wrong: a chunk fails if it lacks source positions, and otherwise where the first of
its constants does.
-/

namespace StackScript

variable {α : Type}

/-! ## Lengths -/

/-- The lengths that are written of a chunk itself. -/
def Chunk.lengths (c : Chunk α) : List Nat :=
  [(c.name.getD "").utf8ByteSize, c.code.size, c.constants.length, c.marks.size]

/-- The lengths that are written of a closure itself. -/
def Closure.lengths (c : Closure α (Cell α)) : List Nat :=
  c.captures.length :: c.function.chunk.lengths

/-- The lengths that are written of a record itself. -/
def Record.lengths (r : Record (Closure α (Cell α))) : List Nat :=
  r.name.utf8ByteSize :: r.fields.length :: r.methods.length ::
    (r.fields.map String.utf8ByteSize ++ r.methods.flatMap Closure.lengths)

/-- The lengths that are written of a layer, those of its parts apart. -/
def Node.lengths : Node α → List Nat
  | .string s => [s.utf8ByteSize]
  | .function f => f.chunk.lengths
  | .closure c => c.lengths
  | .record r => r.lengths
  | .instanceOf fields r => fields.length :: r.lengths
  | .bound _ method => method.lengths
  | _ => []

/-- All lengths fit into a word of an image. -/
def AreWords (lengths : List Nat) : Prop := ∀ n ∈ lengths, n < 2 ^ 32

namespace Image.Writer

/-- The error with which a writer fails if there is room enough. -/
def fault (w : Writer) : Option Error :=
  match w {} with
  | .ok _ _ => none
  | .error e _ => some e

/-! ## Sequences -/

theorem fault_writer (s : Stream) : s.writer.fault = s.error := by
  obtain ⟨p, o⟩ := s
  cases o with
  | none =>
    rw [writer_of_none]
    rfl
  | some e => rfl

theorem fault_bind {w v : Writer} (hw : IsStream w) (hv : IsStream v) :
    fault (do w; v) = w.fault.or v.fault := by
  obtain ⟨⟨p, o⟩, -, rfl⟩ := hw
  obtain ⟨t, -, rfl⟩ := hv
  cases o with
  | none =>
    rw [writer_bind_of_none, fault_writer, fault_writer, fault_writer]
    rfl
  | some e =>
    rw [writer_bind_of_some, fault_writer]
    rfl

theorem fault_bytes (p : List UInt8) : (bytes p).fault = none := rfl

/-- Bytes cannot fail, so what comes behind them does. -/
theorem fault_behind {p : List UInt8} {v : Writer} (hv : IsStream v) :
    fault (do bytes p; v) = v.fault :=
  fault_bind (isStream_bytes p) hv

/-- A list fails where its first member does that fails. -/
theorem fault_forM {item : α → Writer} (hi : ∀ a, IsStream (item a)) (items : List α) :
    fault (items.forM item) = items.findSome? fun a => (item a).fault := by
  induction items with
  | nil => rfl
  | cons a as ih =>
    show fault (do item a; as.forM item) = _
    rw [fault_bind (hi a) (.forM as fun b _ => hi b), ih, List.findSome?_cons]
    cases (item a).fault <;> rfl

/-! ## Lengths, strings and lists -/

/-- The fault of a length that does not fit. -/
def lengthFault (part : Part) (n : Nat) : Option Error :=
  if n < 2 ^ 32 then none else some (.tooLarge part)

theorem lengthFault_of_lt {part : Part} {n : Nat} (h : n < 2 ^ 32) : lengthFault part n = none :=
  if_pos h

theorem fault_length_eq (part : Part) (n : Nat) : (length part n).fault = lengthFault part n := by
  unfold length lengthFault
  split
  · rfl
  · rfl

theorem fault_string_eq (s : String) : (string s).fault = lengthFault .string s.utf8ByteSize := by
  unfold string
  rw [fault_bind (isStream_length _ _) (isStream_bytes _), fault_length_eq, fault_bytes,
    Option.or_none]

theorem fault_list_eq (part : Part) {item : α → Writer} (hi : ∀ a, IsStream (item a))
    (items : List α) : (list part item items).fault =
      (lengthFault part items.length).or (items.findSome? fun a => (item a).fault) := by
  unfold list
  rw [fault_bind (isStream_length _ _) (.forM items fun a _ => hi a), fault_length_eq, fault_forM hi]

theorem fault_mark (m : Span) : (mark m).fault = none := rfl

/-! ## Layers -/

section Layers

variable {value : α → Writer} (hv : ∀ a, IsStream (value a))
include hv

theorem fault_chunk_eq (c : Chunk α) : (chunk value c).fault =
    (if c.marks.size = c.code.size then none
      else some (.marksMismatch c.code.size c.marks.size)).or
    ((lengthFault .string (c.name.getD "").utf8ByteSize).or
    ((lengthFault .code c.code.size).or
    ((lengthFault .constants c.constants.length).or
    ((c.constants.findSome? fun a => (value a).fault).or
    (lengthFault .marks c.marks.size))))) := by
  have hm : IsStream (list .marks mark c.marks.toList) := isStream_list _ isStream_mark _
  have hk : IsStream (do list .constants value c.constants; list .marks mark c.marks.toList) :=
    (isStream_list _ hv _).bind hm
  have hb : IsStream (do
      bytes c.code.toList
      list .constants value c.constants
      list .marks mark c.marks.toList) := (isStream_bytes _).bind hk
  have hmarks : (c.marks.toList.findSome? fun m => (mark m).fault) = none :=
    List.findSome?_eq_none_iff.2 fun m _ => fault_mark m
  unfold chunk
  by_cases hc : c.marks.size = c.code.size
  · simp only [hc, ne_eq, not_true_eq_false, if_false, if_true, Option.none_or]
    show fault (do
      string (c.name.getD "")
      length .code c.code.size
      bytes c.code.toList
      list .constants value c.constants
      list .marks mark c.marks.toList) = _
    rw [fault_bind (isStream_string _) ((isStream_length _ _).bind hb),
      fault_bind (isStream_length _ _) hb, fault_bind (isStream_bytes _) hk,
      fault_bind (isStream_list _ hv _) hm, fault_list_eq _ hv, fault_list_eq _ isStream_mark,
      fault_string_eq, fault_length_eq, fault_bytes, hmarks, Option.none_or, Option.or_none,
      Option.or_assoc, Array.length_toList, hc]
  · simp only [hc, ne_eq, not_false_eq_true, if_true, if_false, Option.some_or]
    rfl

theorem fault_function_eq (f : Function α) : (function value f).fault = (chunk value f.chunk).fault :=
  fault_behind (isStream_chunk hv _)

theorem fault_chunk {c : Chunk α} (hc : c.IsMarked) (hl : AreWords c.lengths) :
    (chunk value c).fault = c.constants.findSome? fun a => (value a).fault := by
  have hname : (c.name.getD "").utf8ByteSize < 2 ^ 32 := hl _ (by simp [Chunk.lengths])
  have hcode : c.code.size < 2 ^ 32 := hl _ (by simp [Chunk.lengths])
  have hconstants : c.constants.length < 2 ^ 32 := hl _ (by simp [Chunk.lengths])
  have hmarks : c.marks.size < 2 ^ 32 := hl _ (by simp [Chunk.lengths])
  rw [fault_chunk_eq hv, if_pos (show c.marks.size = c.code.size from hc), lengthFault_of_lt hname,
    lengthFault_of_lt hcode, lengthFault_of_lt hconstants, lengthFault_of_lt hmarks, Option.none_or, Option.none_or,
    Option.none_or, Option.none_or, Option.or_none]

/-- A function fails where its chunk does. -/
theorem fault_function {f : Function α} (hc : f.chunk.IsMarked) (hl : AreWords f.chunk.lengths) :
    (node value (.function f)).fault = f.chunk.constants.findSome? fun a => (value a).fault := by
  refine (fault_behind (isStream_function hv f)).trans ?_
  rw [fault_function_eq hv, fault_chunk hv hc hl]

end Layers

/-- A record without methods has nothing inside. -/
theorem fault_record {value : α → Writer} {name : String} {fields : List String}
    (hl : AreWords (Node.lengths (.record ⟨name, fields, []⟩ : Node α))) :
    (node value (.record ⟨name, fields, []⟩)).fault = none := by
  have hname : name.utf8ByteSize < 2 ^ 32 := hl _ (by simp [Node.lengths, Record.lengths])
  have hlength : fields.length < 2 ^ 32 := hl _ (by simp [Node.lengths, Record.lengths])
  have hfields : (fields.findSome? fun s => (string s).fault) = none := by
    refine List.findSome?_eq_none_iff.2 fun s hs => ?_
    rw [fault_string_eq]
    refine lengthFault_of_lt (hl _ ?_)
    simp only [Node.lengths, Record.lengths, List.mem_cons, List.mem_append, List.mem_map]
    exact .inr (.inr (.inr (.inl ⟨s, hs, rfl⟩)))
  have hf : IsStream (list .fieldNames string fields) := isStream_list _ isStream_string _
  have hm : IsStream (length .methods 0) := isStream_length _ _
  refine (fault_behind ((isStream_string name).bind (hf.bind (hm.bind isStream_pure)))).trans ?_
  rw [fault_bind (isStream_string _) (hf.bind (hm.bind isStream_pure)), fault_string_eq,
    lengthFault_of_lt hname, fault_bind hf (hm.bind isStream_pure), fault_list_eq _ isStream_string,
    lengthFault_of_lt hlength, hfields]
  rfl

end Image.Writer

theorem Image.encodeWith_eq_error_iff {view : α → Node α} {c : Chunk α} {e : Image.Error} :
    Image.encodeWith view c = .error e ↔
      (Writer.chunk (Writer.value view maxDepth) c).fault = some e := by
  unfold Image.encodeWith Image.write Writer.fault
  cases Writer.chunk (Writer.value view maxDepth) c {} with
  | ok u sink => simp
  | error e' sink => simp

end StackScript
