import StackScript.Proofs.Image.RoundTrip

/-!
# Images are self-delimiting

A reader looks at how many bytes are left only to find that they do not suffice. So bytes added at
the end of an image change nothing in what has been read, nor in any error but that of running out
of bytes: such a reader is *steady*, and all readers of the format are.

It follows that an image that is cut short is only ever refused for its end, and that of an image
with bytes behind it exactly these bytes remain.
-/

namespace StackScript.Image

variable {α β : Type}

/-- The error is that of running out of bytes. -/
def Error.IsEnd (e : Error) : Prop := ∃ offset needed, e = .unexpectedEnd offset needed

namespace Reader

/-- Bytes behind those that are left change nothing: what is read from them is read again, and an error
arises again unless it was that of running out of bytes. -/
structure Steady (r : Reader α) : Prop where
  ok : ∀ {offset p a offset' q}, r ⟨offset, p⟩ = .ok (a, ⟨offset', q⟩) →
    ∀ x, r ⟨offset, p ++ x⟩ = .ok (a, ⟨offset', q ++ x⟩)
  error : ∀ {offset p e}, r ⟨offset, p⟩ = .error e → ¬ e.IsEnd →
    ∀ x, r ⟨offset, p ++ x⟩ = .error e

/-! ## Sequences of readers -/

theorem steady_pure (a : α) : Steady (pure a) where
  ok h x := by
    cases h
    rfl
  error h := nomatch h

theorem steady_throw (e : Error) : Steady (throw e : Reader α) where
  ok h := nomatch h
  error h _ x := by
    cases h
    rfl

theorem bind_of_ok {r : Reader α} {f : α → Reader β} {cursor cursor' : Cursor} {a : α}
    (h : r cursor = .ok (a, cursor')) : (r >>= f) cursor = f a cursor' := by
  simp only [Bind.bind, StateT.bind, h, Except.bind]

theorem bind_of_error {r : Reader α} {f : α → Reader β} {cursor : Cursor} {e : Error}
    (h : r cursor = .error e) : (r >>= f) cursor = .error e := by
  simp only [Bind.bind, StateT.bind, h, Except.bind]

theorem Steady.bind {r : Reader α} {f : α → Reader β} (hr : r.Steady) (hf : ∀ a, (f a).Steady) :
    (r >>= f).Steady := by
  constructor
  · intro offset p b offset' q h x
    cases hp : r ⟨offset, p⟩ with
    | error e =>
      rw [bind_of_error hp] at h
      cases h
    | ok y =>
      obtain ⟨a, o, rest⟩ := y
      rw [bind_of_ok hp] at h
      rw [bind_of_ok (hr.ok hp x)]
      exact (hf a).ok h x
  · intro offset p e h he x
    cases hp : r ⟨offset, p⟩ with
    | error e' =>
      rw [bind_of_error hp] at h
      cases h
      exact bind_of_error (hr.error hp he x)
    | ok y =>
      obtain ⟨a, o, rest⟩ := y
      rw [bind_of_ok hp] at h
      rw [bind_of_ok (hr.ok hp x)]
      exact (hf a).error h he x

/-- A result is changed without reading anything. -/
theorem Steady.map {r : Reader α} (hr : r.Steady) (g : α → β) : Steady (do return g (← r)) :=
  hr.bind fun _ => steady_pure _

theorem steady_times {r : Reader α} (hr : r.Steady) (n : Nat) : (times r n).Steady := by
  induction n with
  | zero => exact steady_pure []
  | succ n ih => exact hr.bind fun _ => ih.map _

/-! ## Numbers, flags and tags -/

theorem steady_position : position.Steady where
  ok h x := by
    cases h
    rfl
  error h := nomatch h

theorem steady_bytes (n : Nat) : (bytes n).Steady := by
  constructor
  · intro offset p bs offset' q h x
    unfold bytes at h ⊢
    by_cases hn : (p.take n).length = n
    · have hle : n ≤ p.length := by
        rw [List.length_take] at hn
        omega
      simp only [hn, if_true, Except.ok.injEq, Prod.mk.injEq, Cursor.mk.injEq] at h
      obtain ⟨rfl, rfl, rfl⟩ := h
      simp only [List.take_append_of_le_length hle, List.drop_append_of_le_length hle, hn, if_true]
    · simp only [hn, if_false, reduceCtorEq] at h
  · intro offset p e h he
    unfold bytes at h
    by_cases hn : (p.take n).length = n
    · simp only [hn, if_true, reduceCtorEq] at h
    · simp only [hn, if_false, Except.error.injEq] at h
      exact absurd ⟨_, _, h.symm⟩ he

theorem steady_byte : byte.Steady := (steady_bytes 1).map _

theorem steady_word : word.Steady := (steady_bytes 4).map _

theorem steady_long : long.Steady := (steady_bytes 8).map _

theorem steady_integer : integer.Steady := steady_long.map _

theorem steady_flag : flag.Steady := by
  apply steady_position.bind
  intro offset
  apply steady_byte.bind
  intro b
  split
  · exact steady_pure _
  · split
    · exact steady_pure _
    · exact steady_throw _

theorem steady_tag : tag.Steady := by
  apply steady_position.bind
  intro offset
  apply steady_byte.bind
  intro b
  cases Tag.ofByte? b with
  | some t => exact steady_pure t
  | none => exact steady_throw _

/-- The members that are announced must fit into the bytes that are left. -/
def fits (part : Part) (offset n : Nat) : Reader Nat := do
  if n * part.least > (← get).rest.length then
    throw (.unexpectedEnd offset (n * part.least))
  return n

theorem fits_eq (part : Part) (offset n : Nat) (cursor : Cursor) :
    fits part offset n cursor = if n * part.least > cursor.rest.length then
      .error (.unexpectedEnd offset (n * part.least)) else .ok (n, cursor) := by
  show (if n * part.least > cursor.rest.length then _ else _ : Reader Nat) cursor = _
  split <;> rfl

theorem steady_fits (part : Part) (offset n : Nat) : (fits part offset n).Steady := by
  constructor
  · intro o p k o' q h x
    rw [fits_eq] at h ⊢
    by_cases hn : n * part.least > p.length
    · simp only [hn, if_true, reduceCtorEq] at h
    · simp only [hn, if_false, Except.ok.injEq, Prod.mk.injEq, Cursor.mk.injEq] at h
      obtain ⟨rfl, rfl, rfl⟩ := h
      have hx : ¬ n * part.least > (p ++ x).length := by
        rw [List.length_append]
        omega
      simp only [hx, if_false]
  · intro o p e h he
    rw [fits_eq] at h
    by_cases hn : n * part.least > p.length
    · simp only [hn, if_true, Except.error.injEq] at h
      exact absurd ⟨_, _, h.symm⟩ he
    · simp only [hn, if_false, reduceCtorEq] at h

theorem steady_length (part : Part) : (length part).Steady := by
  apply steady_position.bind
  intro offset
  apply steady_word.bind
  intro n
  exact steady_fits part offset n.toNat

theorem steady_list (part : Part) {r : Reader α} (hr : r.Steady) : (list part r).Steady :=
  (steady_length part).bind fun n => steady_times hr n

theorem steady_string : string.Steady := by
  apply steady_word.bind
  intro n
  apply steady_position.bind
  intro offset
  apply (steady_bytes n.toNat).bind
  intro bs
  cases String.fromUTF8? ⟨bs.toArray⟩ with
  | some s => exact steady_pure s
  | none => exact steady_throw _

theorem steady_char : char.Steady := by
  apply steady_word.bind
  intro n
  split
  · exact steady_pure _
  · exact steady_throw _

theorem steady_mark : mark.Steady := steady_word.bind fun _ => steady_word.map _

/-! ## Layers -/

section Layers

variable {r : Reader α} (hr : r.Steady)
include hr

theorem steady_chunk : (chunk r).Steady := by
  apply steady_string.bind
  intro name
  apply steady_word.bind
  intro n
  apply (steady_bytes n.toNat).bind
  intro code
  apply (steady_list .constants hr).bind
  intro constants
  apply (steady_length .marks).bind
  intro count
  dsimp only
  split
  · exact (steady_throw _).bind fun _ => (steady_times steady_mark count).map _
  · exact (steady_times steady_mark count).map _

theorem steady_function : (function r).Steady := steady_word.bind fun _ => (steady_chunk hr).map _

theorem steady_cell : (cell r).Steady := by
  apply steady_word.bind
  intro slot
  apply steady_word.bind
  intro position
  apply steady_flag.bind
  intro closed
  cases closed with
  | false => exact (steady_pure none).map _
  | true => exact (hr.map some).map _

theorem steady_closure : (closure r).Steady :=
  (steady_function hr).bind fun _ => (steady_list .captures (steady_cell hr)).map _

theorem steady_record : (record r).Steady := by
  apply steady_string.bind
  intro name
  apply (steady_list .fieldNames steady_string).bind
  intro fields
  exact (steady_list .methods (steady_closure hr)).map _

theorem steady_node : (node r).Steady := by
  apply steady_tag.bind
  intro t
  cases t with
  | int => exact steady_integer.map _
  | float => exact steady_long.map _
  | string => exact steady_string.map _
  | char => exact steady_char.map _
  | bool => exact steady_flag.map _
  | nil => exact steady_pure _
  | void => exact steady_pure _
  | function => exact (steady_function hr).map _
  | closure => exact (steady_closure hr).map _
  | range =>
    apply steady_integer.bind
    intro next
    apply steady_integer.bind
    intro bound
    apply steady_integer.bind
    intro step
    apply steady_flag.bind
    intro inclusive
    exact steady_flag.map _
  | record => exact (steady_record hr).map _
  | instanceOf => exact (steady_list .fields hr).bind fun _ => (steady_record hr).map _
  | bound => exact hr.bind fun _ => (steady_closure hr).map _

end Layers

theorem steady_value (depth : Nat) : (value depth).Steady := by
  induction depth with
  | zero => exact steady_throw _
  | succ depth ih => exact (steady_node ih).map _

end Reader

/-! ## Images -/

/-- Bytes behind an image are what remains of it. -/
theorem decode_append {image : List UInt8} {c : Chunk Constant} (h : decode image = .ok c)
    {x : List UInt8} (hx : x ≠ []) : decode (image ++ x) = .error (.trailing x.length) := by
  have hr := Reader.steady_chunk (Reader.steady_value maxDepth)
  cases hi : Reader.chunk (Reader.value maxDepth) ⟨0, image⟩ with
  | error e => simp [decode, hi, Bind.bind, Except.bind] at h
  | ok y =>
    obtain ⟨d, offset, rest⟩ := y
    by_cases hrest : rest = []
    · subst hrest
      simp [decode, hr.ok hi x, hx, Bind.bind, Except.bind, throw, throwThe, MonadExceptOf.throw]
    · simp [decode, hi, hrest, Bind.bind, Except.bind, throw, throwThe, MonadExceptOf.throw] at h

theorem decode_of_append {p x : List UInt8} {c : Chunk Constant} (h : decode (p ++ x) = .ok c)
    (hx : x ≠ []) : ∃ offset needed, decode p = .error (.unexpectedEnd offset needed) := by
  have hr := Reader.steady_chunk (Reader.steady_value maxDepth)
  cases hp : Reader.chunk (Reader.value maxDepth) ⟨0, p⟩ with
  | ok y =>
    -- What remains of the cut image and what was cut off would both remain of the whole one.
    obtain ⟨d, offset, rest⟩ := y
    simp [decode, hr.ok hp x, hx, Bind.bind, Except.bind, throw, throwThe, MonadExceptOf.throw] at h
  | error e =>
    by_cases he : e.IsEnd
    · obtain ⟨offset, needed, rfl⟩ := he
      exact ⟨offset, needed, by simp only [decode, hp, Bind.bind, Except.bind]⟩
    · simp [decode, hr.error hp he x, Bind.bind, Except.bind] at h

/-- The tree that a value is seen as, down to the given depth and without empty names. -/
def tree (view : α → Node α) : (depth : Nat) → α → Constant
  | 0, _ => ⟨.nil⟩
  | depth + 1, v => ⟨((view v).map (tree view depth)).proper⟩

/-- Every image can be read. -/
theorem exists_decode {view : α → Node α} {c : Chunk α} {image : Array UInt8}
    (h : encodeWith view c = .ok image) : ∃ d, decode image.toList = .ok d :=
  ⟨_, decode_of_encodeWith (tree view) (fun _ _ => rfl) h⟩

/-- Images are self-delimiting: of an image that is cut short, wherever this is, reading fails because
the bytes end; of an image with further bytes behind it, it fails because of these bytes. So no image
is the beginning of another. -/
theorem self_delimiting {view : α → Node α} {c : Chunk α} {image : Array UInt8}
    (h : encodeWith view c = .ok image) :
    (∀ p, p <+: image.toList → p ≠ image.toList →
      ∃ offset needed, decode p = .error (.unexpectedEnd offset needed)) ∧
    (∀ x, x ≠ [] → decode (image.toList ++ x) = .error (.trailing x.length)) ∧
    (∀ {β : Type} {view' : β → Node β} {c' : Chunk β} {image' : Array UInt8},
      encodeWith view' c' = .ok image' → image.toList <+: image'.toList → image = image') := by
  obtain ⟨d, hd⟩ := exists_decode h
  refine ⟨?_, fun x hx => decode_append hd hx, ?_⟩
  · rintro p ⟨x, hx⟩ hp
    rw [← hx] at hd
    apply decode_of_append hd
    rintro rfl
    exact hp (by simpa using hx)
  · intro β view' c' image' h' hprefix
    obtain ⟨d', hd'⟩ := exists_decode h'
    obtain ⟨x, hx⟩ := hprefix
    by_cases hne : x = []
    · subst hne
      exact Array.toList_inj.1 (by simpa using hx)
    · rw [← hx, decode_append hd hne] at hd'
      cases hd'

/-- The image of a program with one constant, a string of two bytes that are one character. -/
theorem self_delimiting_string :
    let c : Chunk Constant := ⟨none, #[], [⟨.string "é"⟩], #[]⟩
    ∃ image, encode c = .ok image ∧
      (∀ p, p <+: image.toList → p ≠ image.toList →
        ∃ offset needed, decode p = .error (.unexpectedEnd offset needed)) ∧
      ∀ x, x ≠ [] → decode (image.toList ++ x) = .error (.trailing x.length) := by
  have h : encode ⟨none, #[], [⟨.string "é"⟩], #[]⟩ =
      .ok #[0, 0, 0, 0, 0, 0, 0, 0, 1, 0, 0, 0, 2, 2, 0, 0, 0, 195, 169, 0, 0, 0, 0] := by
    cbv
  have hd := self_delimiting h
  exact ⟨_, h, hd.1, hd.2.1⟩

end StackScript.Image
