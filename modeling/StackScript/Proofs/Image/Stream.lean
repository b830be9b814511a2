import StackScript.Image.Writer

/-!
# Writers as streams

Every writer of the format writes a fixed sequence of bytes and then ends, well or with a fixed
error, whatever sink it is given; the sink only decides how many of these bytes arrive. Such a
writer is a *stream*. `Writes w p` says that `w` is one that ends well with the bytes `p`, and for a
sequence it can be taken apart (`writes_bind_iff`).
-/

namespace StackScript.Image

/-- What a writer does to any sink: the bytes that it writes, and the error with which it ends. -/
structure Stream where
  /-- The bytes, in the order in which they are written. -/
  bytes : List UInt8
  /-- The error behind the last byte, if writing fails there. -/
  error : Option Error := none

/-- The writer of a stream. -/
def Stream.writer (s : Stream) : Writer := do
  Writer.bytes s.bytes
  match s.error with
  | none => pure ()
  | some e => throw e

namespace Writer

variable {α : Type}
variable {v w : Writer} {p r : List UInt8} {e : Error}

/-- The writer does the same whatever sink it is given. The error of a full sink is never its own. -/
def IsStream (w : Writer) : Prop := ∃ s : Stream, s.error ≠ some .sinkFull ∧ w = s.writer

/-- The writer writes the given bytes and ends well. -/
def Writes (w : Writer) (p : List UInt8) : Prop := w = bytes p

/-! ## Sequences of streams -/

theorem bytes_nil : bytes [] = pure () := by
  funext ⟨room, acc⟩
  cases room <;> simp [bytes, pure, EStateM.pure]

theorem bytes_append (p q : List UInt8) : (do bytes p; bytes q) = bytes (p ++ q) := by
  funext ⟨room, acc⟩
  cases room with
  | none => simp [bytes, bind, EStateM.bind]
  | some n =>
    by_cases hp : p.length ≤ n
    · by_cases hq : q.length ≤ n - p.length
      · have hpq : p.length + q.length ≤ n := by omega
        simp [bytes, bind, EStateM.bind, hp, hq, hpq, List.take_of_length_le, Nat.sub_sub]
      · have hpq : ¬ p.length + q.length ≤ n := by omega
        simp [bytes, bind, EStateM.bind, hp, hq, hpq, List.take_append, List.take_of_length_le,
          Nat.sub_sub]
    · have hpq : ¬ p.length + q.length ≤ n := by omega
      have hn : n - (p.length + q.length) = n - p.length := by omega
      have ht : n - p.length = 0 := by omega
      simp [bytes, bind, EStateM.bind, hp, hpq, hn, ht, List.take_append]

theorem writer_of_none (p : List UInt8) : Stream.writer ⟨p, none⟩ = bytes p := by
  funext sink
  simp only [Stream.writer, bind, EStateM.bind]
  cases bytes p sink <;> rfl

/-- Behind a stream that ends well the next one goes on. -/
theorem writer_bind_of_none (p : List UInt8) (s : Stream) :
    (do Stream.writer ⟨p, none⟩; s.writer) = Stream.writer ⟨p ++ s.bytes, s.error⟩ := by
  rw [writer_of_none]
  simp only [Stream.writer]
  rw [← bytes_append, bind_assoc]

/-- Behind a stream that fails nothing is written. -/
theorem writer_bind_of_some (p : List UInt8) (e : Error) (w : Writer) :
    (do Stream.writer ⟨p, some e⟩; w) = Stream.writer ⟨p, some e⟩ := by
  funext sink
  simp only [Stream.writer, bind, EStateM.bind]
  cases bytes p sink <;> rfl

theorem isStream_bytes (p : List UInt8) : IsStream (bytes p) :=
  ⟨⟨p, none⟩, nofun, (writer_of_none p).symm⟩

theorem isStream_pure : IsStream (pure ()) := bytes_nil ▸ isStream_bytes []

theorem isStream_throw (h : e ≠ .sinkFull) : IsStream (throw e) := by
  refine ⟨⟨[], some e⟩, fun he => h (Option.some.inj he), ?_⟩
  simp only [Stream.writer, bytes_nil]
  rfl

theorem IsStream.bind (hw : IsStream w) (hv : IsStream v) : IsStream (do w; v) := by
  obtain ⟨⟨p, o⟩, ho, rfl⟩ := hw
  obtain ⟨t, ht, rfl⟩ := hv
  cases o with
  | none => exact ⟨⟨p ++ t.bytes, t.error⟩, ht, writer_bind_of_none p t⟩
  | some e => exact ⟨_, ho, writer_bind_of_some p e _⟩

theorem IsStream.forM {item : α → Writer} (items : List α) (h : ∀ a ∈ items, IsStream (item a)) :
    IsStream (items.forM item) := by
  induction items with
  | nil => exact isStream_pure
  | cons a as ih =>
    show IsStream (do item a; as.forM item)
    exact (h a (by simp)).bind (ih fun b hb => h b (by simp [hb]))

/-! ## Streams that end well -/

theorem bytes_unlimited (p : List UInt8) (acc : Array UInt8) :
    bytes p ⟨none, acc⟩ = .ok () ⟨none, acc ++ p.toArray⟩ := rfl

theorem writes_of_ok (hw : IsStream w) {acc : Array UInt8} {sink : Sink}
    (h : w ⟨none, acc⟩ = .ok () sink) : ∃ p, Writes w p ∧ sink = ⟨none, acc ++ p.toArray⟩ := by
  obtain ⟨⟨p, o⟩, -, rfl⟩ := hw
  cases o with
  | none =>
    refine ⟨p, writer_of_none p, ?_⟩
    rw [writer_of_none, bytes_unlimited] at h
    cases h
    rfl
  | some e => cases h

theorem writes_bytes_iff {q : List UInt8} : Writes (bytes p) q ↔ q = p := by
  constructor
  · intro h
    have h' := congrFun h ⟨none, #[]⟩
    rw [bytes_unlimited, bytes_unlimited] at h'
    cases p <;> cases q <;> simp_all
  · rintro rfl
    rfl

theorem writes_pure_iff : Writes (pure ()) p ↔ p = [] := by
  rw [← bytes_nil, writes_bytes_iff]

theorem not_writes_throw : ¬ Writes (throw e) p := by
  intro h
  have h' := congrFun h ⟨none, #[]⟩
  cases h'

theorem Writes.seq {q : List UInt8} (hw : Writes w p) (hv : Writes v q) : Writes (do w; v) (p ++ q) := by
  rw [Writes, show w = bytes p from hw, show v = bytes q from hv, bytes_append]

theorem writes_bind_iff (hw : IsStream w) (hv : IsStream v) :
    Writes (do w; v) r ↔ ∃ p q, r = p ++ q ∧ Writes w p ∧ Writes v q := by
  constructor
  · intro h
    have h' : (do w; v) ⟨none, #[]⟩ = .ok () ⟨none, #[] ++ r.toArray⟩ := by
      rw [show (do w; v) = bytes r from h, bytes_unlimited]
    obtain ⟨⟨p, o⟩, -, rfl⟩ := hw
    obtain ⟨⟨q, o'⟩, -, rfl⟩ := hv
    cases o with
    | some e => cases h'
    | none =>
      cases o' with
      | some e => cases h'
      | none =>
        refine ⟨p, q, ?_, writer_of_none p, writer_of_none q⟩
        rw [writer_bind_of_none, writer_of_none] at h
        exact writes_bytes_iff.1 h
  · rintro ⟨p, q, rfl, hp, hq⟩
    exact hp.seq hq

theorem writes_behind (hv : IsStream v) (h : Writes (do bytes p; v) r) :
    ∃ q, r = p ++ q ∧ Writes v q := by
  obtain ⟨_, q, rfl, hp, hq⟩ := (writes_bind_iff (isStream_bytes p) hv).1 h
  obtain rfl := writes_bytes_iff.1 hp
  exact ⟨q, rfl, hq⟩

/-! ## The writers of the format -/

theorem isStream_word (n : UInt32) : IsStream (word n) := isStream_bytes _

theorem isStream_long (n : UInt64) : IsStream (long n) := isStream_bytes _

theorem isStream_flag (b : Bool) : IsStream (flag b) := isStream_bytes _

theorem isStream_tag (t : Tag) : IsStream (tag t) := isStream_bytes _

theorem isStream_length (part : Part) (n : Nat) : IsStream (length part n) := by
  unfold length
  split
  · exact isStream_word _
  · exact isStream_throw nofun

theorem isStream_list (part : Part) {item : α → Writer} (hi : ∀ a, IsStream (item a))
    (items : List α) : IsStream (list part item items) :=
  (isStream_length _ _).bind (.forM items fun a _ => hi a)

theorem isStream_string (s : String) : IsStream (string s) :=
  (isStream_length _ _).bind (isStream_bytes _)

theorem isStream_mark (m : Span) : IsStream (mark m) := (isStream_word _).bind (isStream_word _)

section Layers

variable {value : α → Writer} (hv : ∀ a, IsStream (value a))
include hv

theorem isStream_chunk (c : Chunk α) : IsStream (chunk value c) := by
  unfold chunk
  split
  · exact (isStream_throw (e := .marksMismatch ..) nofun).bind
      ((isStream_string _).bind ((isStream_length _ _).bind ((isStream_bytes _).bind
        ((isStream_list _ hv _).bind (isStream_list _ isStream_mark _)))))
  · exact (isStream_string _).bind ((isStream_length _ _).bind ((isStream_bytes _).bind
      ((isStream_list _ hv _).bind (isStream_list _ isStream_mark _))))

theorem isStream_function (f : Function α) : IsStream (function value f) :=
  (isStream_word _).bind (isStream_chunk hv _)

theorem isStream_cell (c : Cell α) : IsStream (cell value c) := by
  refine (isStream_word _).bind ((isStream_word _).bind ?_)
  cases c.closed with
  | none => exact isStream_flag _
  | some v => exact (isStream_flag _).bind (hv v)

theorem isStream_closure (c : Closure α (Cell α)) : IsStream (closure value c) :=
  (isStream_function hv _).bind (isStream_list _ (isStream_cell hv) _)

theorem isStream_record (r : Record (Closure α (Cell α))) : IsStream (record value r) :=
  (isStream_string _).bind
    ((isStream_list _ isStream_string _).bind (isStream_list _ (isStream_closure hv) _))

theorem isStream_node (n : Node α) : IsStream (node value n) := by
  cases n with
  | int n => exact (isStream_tag _).bind (isStream_long _)
  | float x => exact (isStream_tag _).bind (isStream_long _)
  | string s => exact (isStream_tag _).bind (isStream_string _)
  | char c => exact (isStream_tag _).bind (isStream_word _)
  | bool b => exact (isStream_tag _).bind (isStream_flag _)
  | nil => exact isStream_tag _
  | void => exact isStream_tag _
  | function f => exact (isStream_tag _).bind (isStream_function hv _)
  | closure c => exact (isStream_tag _).bind (isStream_closure hv _)
  | native n => exact isStream_throw nofun
  | range r =>
    exact (isStream_tag _).bind ((isStream_long _).bind ((isStream_long _).bind
      ((isStream_long _).bind ((isStream_flag _).bind (isStream_flag _)))))
  | record r => exact (isStream_tag _).bind (isStream_record hv _)
  | instanceOf fields r =>
    exact (isStream_tag _).bind ((isStream_list _ hv _).bind (isStream_record hv _))
  | bound receiver method =>
    exact (isStream_tag _).bind ((hv _).bind (isStream_closure hv _))

end Layers

theorem isStream_value (view : α → Node α) (depth : Nat) (v : α) :
    IsStream (value view depth v) := by
  induction depth generalizing v with
  | zero => exact isStream_throw nofun
  | succ depth ih => exact isStream_node ih _

end Writer

theorem encodeWith_eq_ok_iff {α : Type} {view : α → Node α} {c : Chunk α} {image : Array UInt8} :
    encodeWith view c = .ok image ↔
      (Writer.chunk (Writer.value view maxDepth) c).Writes image.toList := by
  have hs := Writer.isStream_chunk (Writer.isStream_value view maxDepth) c
  unfold encodeWith write
  constructor
  · intro h
    cases hw : Writer.chunk (Writer.value view maxDepth) c {} with
    | error e sink => simp [hw] at h
    | ok u sink =>
      obtain ⟨p, hp, rfl⟩ := Writer.writes_of_ok hs hw
      simp only [hw, Except.ok.injEq] at h
      subst h
      simpa using hp
  · intro h
    have hw : Writer.chunk (Writer.value view maxDepth) c {} = Writer.bytes image.toList {} :=
      congrFun h {}
    rw [hw, Writer.bytes_unlimited]
    simp

/-! ## Sinks with limited room -/

theorem Stream.writer_limited (s : Stream) (n : Nat) :
    s.writer ⟨some n, #[]⟩ =
      match if s.bytes.length ≤ n then s.error else some .sinkFull with
      | none => .ok () ⟨some (n - s.bytes.length), (s.bytes.take n).toArray⟩
      | some e => .error e ⟨some (n - s.bytes.length), (s.bytes.take n).toArray⟩ := by
  obtain ⟨p, o⟩ := s
  by_cases hp : p.length ≤ n
  · cases o <;> simp [Stream.writer, Writer.bytes, bind, EStateM.bind, hp] <;> rfl
  · simp [Stream.writer, Writer.bytes, bind, EStateM.bind, hp]

/-- The image of a chunk is a fixed sequence of bytes that ends well or with a fixed error, never that
of a full sink. A sink with room for `n` bytes gets the first `n` of them, and it reports that it is full
exactly if there are more. -/
theorem write_limited {α : Type} (view : α → Node α) (c : Chunk α) :
    ∃ (p : List UInt8) (o : Option Error), o ≠ some .sinkFull ∧
      (∀ n, (write view c ⟨some n, #[]⟩).1 = (if p.length ≤ n then o else some .sinkFull) ∧
        (write view c ⟨some n, #[]⟩).2.bytes.toList = p.take n) ∧
      write view c {} = (o, ⟨none, p.toArray⟩) ∧
      encodeWith view c = match o with
        | none => .ok p.toArray
        | some e => .error e := by
  obtain ⟨s, hs, hw⟩ := Writer.isStream_chunk (Writer.isStream_value view maxDepth) c
  have hfree : write view c {} = (s.error, ⟨none, s.bytes.toArray⟩) := by
    unfold write
    rw [hw]
    obtain ⟨p, _ | e⟩ := s <;> simp [Stream.writer, Writer.bytes, bind, EStateM.bind] <;> rfl
  refine ⟨s.bytes, s.error, hs, fun n => ?_, hfree, ?_⟩
  · unfold write
    rw [hw, s.writer_limited n]
    cases (if s.bytes.length ≤ n then s.error else some .sinkFull) <;> exact ⟨rfl, rfl⟩
  · unfold encodeWith
    rw [hfree]
    cases s.error <;> rfl

end StackScript.Image
