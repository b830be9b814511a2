import StackScript.Inspection
import StackScript.Proofs.Image.RoundTrip

/-!
# Images are canonical

Whatever a reader takes from the front of an image is what the writer of the same name writes of the
result. So no two byte strings are read as the same chunk, and a file that can be read is the image
of its contents. The lemmas follow the layers of the format, with the reader and the writer of the
values inside as parameters (`Keeps`).
-/

namespace StackScript.Image

open Writer (Writes)

variable {α β : Type}

/-- What the reader takes from the front of an image is such as a condition on the result says. -/
def Reader.Takes (r : Reader α) (P : α → List UInt8 → Prop) : Prop :=
  ∀ cursor a cursor', r cursor = .ok (a, cursor') → ∃ p, cursor.rest = p ++ cursor'.rest ∧ P a p

/-- What the reader takes from the front of an image is what the writer writes of the result. -/
def Keeps (r : Reader α) (w : α → Writer) : Prop := r.Takes fun a => Writes (w a)

namespace Reader

variable {r : Reader α} {P : α → List UInt8 → Prop} {Q : β → List UInt8 → Prop} {n : Nat}

/-! ## Sequences of readers -/

theorem Takes.bind {f : α → Reader β} (hr : r.Takes P)
    (hf : ∀ a p, P a p → (f a).Takes fun b q => Q b (p ++ q)) : (r >>= f).Takes Q := by
  intro cursor b cursor'' h
  cases hc : r cursor with
  | error e => simp [Bind.bind, StateT.bind, hc, Except.bind] at h
  | ok x =>
    obtain ⟨p, hp, ha⟩ := hr _ _ _ hc
    obtain ⟨q, hq, hb⟩ := hf x.1 p ha x.2 b cursor'' (by
      simpa [Bind.bind, StateT.bind, hc, Except.bind] using h)
    exact ⟨p ++ q, by rw [hp, hq, List.append_assoc], hb⟩

theorem takes_pure {a : α} (h : P a []) : Takes (pure a) P := by
  intro cursor _ _ he
  cases he
  exact ⟨[], rfl, h⟩

theorem takes_throw {e : Error} : Takes (throw e) P := by
  rintro _ _ _ ⟨⟩

/-- A result is changed without reading anything. -/
theorem Takes.map {g : α → β} (hr : r.Takes P) (hg : ∀ a p, P a p → Q (g a) p) :
    Takes (do return g (← r)) Q :=
  hr.bind fun a p hp => takes_pure (by rw [List.append_nil]; exact hg a p hp)

/-! ## Numbers, flags and tags -/

theorem takes_position : position.Takes fun _ p => p = [] := by
  intro cursor _ _ h
  cases h
  exact ⟨[], rfl, rfl⟩

theorem takes_bytes : (bytes n).Takes fun bs p => p = bs ∧ bs.length = n := by
  intro cursor bs cursor' h
  unfold bytes at h
  by_cases hl : (cursor.rest.take n).length = n
  · simp only [hl, if_true, Except.ok.injEq, Prod.mk.injEq] at h
    obtain ⟨rfl, rfl⟩ := h
    exact ⟨_, (List.take_append_drop n cursor.rest).symm, rfl, hl⟩
  · simp only [hl, if_false, reduceCtorEq] at h

theorem takes_byte : byte.Takes fun b p => p = [b] := by
  refine takes_bytes.map ?_
  rintro _ bs ⟨rfl, hl⟩
  obtain ⟨x, rfl⟩ := List.length_eq_one_iff.1 hl
  rfl

end Reader

open Reader (takes_pure takes_throw takes_position takes_bytes takes_byte)

theorem keeps_word : Keeps Reader.word Writer.word := by
  refine takes_bytes.map ?_
  rintro _ bs ⟨rfl, hl⟩
  have hlt : Word.ofBytes bs < 2 ^ 32 := by simpa [hl] using Word.ofBytes_lt bs
  have ht := Word.toBytes_ofBytes bs
  rw [hl] at ht
  show Writes (Writer.bytes (Word.bytes32 _)) bs
  rw [Word.bytes32, Nat.toUInt32, UInt32.toNat_ofNat_of_lt' hlt, ht]
  rfl

theorem keeps_long : Keeps Reader.long Writer.long := by
  refine takes_bytes.map ?_
  rintro _ bs ⟨rfl, hl⟩
  have hlt : Word.ofBytes bs < 2 ^ 64 := by simpa [hl] using Word.ofBytes_lt bs
  have ht := Word.toBytes_ofBytes bs
  rw [hl] at ht
  show Writes (Writer.bytes (Word.bytes64 _)) bs
  rw [Word.bytes64, Nat.toUInt64, UInt64.toNat_ofNat_of_lt' hlt, ht]
  rfl

theorem keeps_integer : Keeps Reader.integer fun n => Writer.long n.toUInt64 :=
  keeps_long.map fun _ _ h => by simpa using h

theorem keeps_flag : Keeps Reader.flag Writer.flag := by
  refine takes_position.bind ?_
  rintro offset _ rfl
  refine takes_byte.bind ?_
  rintro b _ rfl
  split
  · subst b
    exact takes_pure rfl
  · split
    · subst b
      exact takes_pure rfl
    · exact takes_throw

theorem keeps_tag : Keeps Reader.tag Writer.tag := by
  refine takes_position.bind ?_
  rintro offset _ rfl
  refine takes_byte.bind ?_
  rintro b _ rfl
  cases ht : Tag.ofByte? b with
  | none => exact takes_throw
  | some t =>
    refine takes_pure ?_
    rw [← Tag.byte_of_ofByte? ht]
    rfl

/-! ## Lengths, strings and lists -/

theorem Writer.writes_length {part : Part} {n : UInt32} {p : List UInt8} (h : Writes (word n) p) :
    Writes (length part n.toNat) p := by
  rw [length, if_pos n.toNat_lt, Word.toUInt32_toNat]
  exact h

/-- A length is kept, whatever is held against it. -/
theorem keeps_length (part : Part) : Keeps (Reader.length part) (Writer.length part) := by
  refine takes_position.bind ?_
  rintro offset _ rfl
  refine keeps_word.bind fun n p hn => ?_
  refine Reader.Takes.bind (P := fun _ q => q = []) ?_ ?_
  · intro cursor _ _ h
    cases h
    exact ⟨[], rfl, rfl⟩
  rintro cursor _ rfl
  dsimp only
  split
  · exact takes_throw.bind (P := fun _ _ => False) fun _ _ h => h.elim
  · refine takes_pure ?_
    rw [List.append_nil, List.append_nil]
    exact Writer.writes_length hn

theorem keeps_string : Keeps Reader.string Writer.string := by
  refine keeps_word.bind fun n p hn => takes_position.bind ?_
  rintro offset _ rfl
  refine takes_bytes.bind ?_
  rintro _ bs ⟨rfl, hl⟩
  by_cases hv : (⟨bs.toArray⟩ : ByteArray).IsValidUTF8
  · have hu : String.fromUTF8? ⟨bs.toArray⟩ = some (String.fromUTF8 ⟨bs.toArray⟩ hv) := dif_pos hv
    simp only [hu]
    have hbytes : (String.fromUTF8 ⟨bs.toArray⟩ hv).toUTF8.toList = bs := by
      rw [Writer.byteArray_toList]
      rfl
    have hsize : (String.fromUTF8 ⟨bs.toArray⟩ hv).utf8ByteSize = n.toNat := by
      rw [← Writer.length_utf8, hbytes, hl]
    refine takes_pure ?_
    rw [List.nil_append, List.append_nil, Writer.string, hbytes, hsize]
    exact (Writer.writes_length hn).seq rfl
  · have hu : String.fromUTF8? ⟨bs.toArray⟩ = none := dif_neg hv
    simp only [hu]
    exact takes_throw

theorem keeps_char : Keeps Reader.char fun c => Writer.word c.val := by
  refine keeps_word.bind fun n p hn => ?_
  split
  · refine takes_pure ?_
    rw [List.append_nil]
    exact hn
  · exact takes_throw

theorem keeps_mark : Keeps Reader.mark Writer.mark :=
  keeps_word.bind fun _ _ ha => keeps_word.map fun _ _ hb => ha.seq hb

section Layers

variable {r : Reader α} {w : α → Writer} (hr : Keeps r w)
include hr

theorem takes_times (n : Nat) :
    (Reader.times r n).Takes fun as p => as.length = n ∧ Writes (as.forM w) p := by
  induction n with
  | zero => exact takes_pure ⟨rfl, Writer.writes_pure_iff.2 rfl⟩
  | succ n ih =>
    refine hr.bind fun a p ha => ih.map fun as q has => ⟨?_, ha.seq has.2⟩
    rw [List.length_cons, has.1]

theorem keeps_list (part : Part) : Keeps (Reader.list part r) (Writer.list part w) := by
  refine (keeps_length part).bind fun n p hn cursor as cursor' h => ?_
  obtain ⟨q, hq, rfl, hw⟩ := takes_times hr n cursor as cursor' h
  exact ⟨q, hq, hn.seq hw⟩

/-! ## Layers -/

theorem keeps_chunk : Keeps (Reader.chunk r) (Writer.chunk w) := by
  refine keeps_string.bind fun name a ha => keeps_word.bind fun n b hb => takes_bytes.bind ?_
  rintro _ code ⟨rfl, hcode⟩
  refine (keeps_list hr .constants).bind fun constants k hk =>
    (keeps_length .marks).bind fun count c hc => ?_
  dsimp only
  split
  · exact takes_throw.bind (P := fun _ _ => False) fun _ _ h => h.elim
  rename_i hsize
  refine (takes_times keeps_mark count).map ?_
  rintro marks m ⟨rfl, hm⟩
  have hname : (if name.isEmpty then none else some name).getD "" = name := by
    by_cases he : name.isEmpty
    · rw [if_pos he, String.isEmpty_iff.1 he]
      rfl
    · rw [if_neg he]
      rfl
  show Writes (Writer.chunk w ⟨_, code.toArray, constants, marks.toArray⟩) _
  unfold Writer.chunk
  rw [if_neg (by simpa using hsize), hname, List.size_toArray, hcode]
  exact ha.seq ((Writer.writes_length hb).seq (Writes.seq rfl (hk.seq (hc.seq hm))))

theorem keeps_function : Keeps (Reader.function r) (Writer.function w) :=
  keeps_word.bind fun _ _ ha => (keeps_chunk hr).map fun _ _ hk => ha.seq hk

theorem keeps_cell : Keeps (Reader.cell r) (Writer.cell w) := by
  refine keeps_word.bind fun slot p hs => keeps_word.bind fun position q hp =>
    keeps_flag.bind fun b s hb => ?_
  cases b with
  | false =>
    refine Reader.Takes.map (takes_pure (P := fun v t => v = none ∧ t = []) ⟨rfl, rfl⟩) ?_
    rintro _ _ ⟨rfl, rfl⟩
    rw [List.append_nil]
    exact hs.seq (hp.seq hb)
  | true =>
    refine Reader.Takes.map (P := fun v t => ∃ u, v = some u ∧ Writes (w u) t)
      (Reader.Takes.map (r := r) hr fun u t hu => ⟨u, rfl, hu⟩) ?_
    rintro _ t ⟨u, rfl, hu⟩
    exact hs.seq (hp.seq (hb.seq hu))

theorem keeps_closure : Keeps (Reader.closure r) (Writer.closure w) :=
  (keeps_function hr).bind fun _ _ hf => (keeps_list (keeps_cell hr) .captures).map fun _ _ hc =>
    hf.seq hc

theorem keeps_record : Keeps (Reader.record r) (Writer.record w) :=
  keeps_string.bind fun _ _ hn => (keeps_list keeps_string .fieldNames).bind fun _ _ hf =>
    (keeps_list (keeps_closure hr) .methods).map fun _ _ hm => hn.seq (hf.seq hm)

theorem keeps_node : Keeps (Reader.node r) (Writer.node w) := by
  refine keeps_tag.bind fun t p ht => ?_
  cases t with
  | int => exact keeps_integer.map fun _ _ h => ht.seq h
  | float => exact keeps_long.map fun _ _ h => ht.seq h
  | string => exact keeps_string.map fun _ _ h => ht.seq h
  | char => exact keeps_char.map fun _ _ h => ht.seq h
  | bool => exact keeps_flag.map fun _ _ h => ht.seq h
  | nil | void =>
    refine takes_pure ?_
    rw [List.append_nil]
    exact ht
  | function => exact (keeps_function hr).map fun _ _ h => ht.seq h
  | closure => exact (keeps_closure hr).map fun _ _ h => ht.seq h
  | range =>
    exact keeps_integer.bind fun _ _ hn => keeps_integer.bind fun _ _ hb => keeps_integer.bind
      fun _ _ hs => keeps_flag.bind fun _ _ hi => keeps_flag.map fun _ _ he =>
        ht.seq (hn.seq (hb.seq (hs.seq (hi.seq he))))
  | record => exact (keeps_record hr).map fun _ _ h => ht.seq h
  | instanceOf =>
    exact (keeps_list hr .fields).bind fun _ _ hf => (keeps_record hr).map fun _ _ h =>
      ht.seq (hf.seq h)
  | bound => exact hr.bind fun _ _ hv => (keeps_closure hr).map fun _ _ h => ht.seq (hv.seq h)

end Layers

/-! ## Values and chunks -/

theorem keeps_value (depth : Nat) :
    Keeps (Reader.value depth) (Writer.value Constant.node depth) := by
  induction depth with
  | zero => exact takes_throw
  | succ depth ih => exact (keeps_node ih).map fun _ _ h => h

theorem encode_of_decode {image : List UInt8} {c : Chunk Constant} (h : decode image = .ok c) :
    encode c = .ok image.toArray := by
  unfold decode at h
  cases hr : Reader.chunk (Reader.value maxDepth) ⟨0, image⟩ with
  | error e => simp [hr, Bind.bind, Except.bind] at h
  | ok x =>
    obtain ⟨d, cursor⟩ := x
    simp only [hr, Bind.bind, Except.bind] at h
    obtain ⟨p, hp, hpw⟩ := keeps_chunk (keeps_value maxDepth) _ _ _ hr
    by_cases he : cursor.rest.isEmpty
    · simp only [he, if_true] at h
      cases h
      rw [List.isEmpty_iff.1 he, List.append_nil] at hp
      rw [encode, encodeWith_eq_ok_iff]
      have himage : image = p := hp
      rw [himage]
      exact hpw
    · simp only [he] at h
      cases h

end StackScript.Image

namespace StackScript.Inspection

theorem output_verify_of_decode {image : List UInt8} {c : Chunk Constant}
    (h : Image.decode image = .ok c) (path : String) :
    output .verify path image =
      .ok (bold (green "ok") ++ " " ++ path ++ " (" ++ toString image.length ++ " bytes)\n") := by
  simp only [output, h, Image.encode_of_decode h, Bind.bind, Except.bind, Except.mapError, if_true,
    String.append_assoc]
  rfl

theorem output_verify_of_error {image : List UInt8} {e : Image.Error}
    (h : Image.decode image = .error e) (path : String) :
    output .verify path image = .error (.invalid e) := by
  simp only [output, h, Bind.bind, Except.bind, Except.mapError]

/-- The format is canonical: a chunk that is read from some bytes is written as these bytes. So the
verification of a file succeeds exactly when the file holds an image, and when it fails, it does so
because the file could not be read: what was read can be written, and the result is never
different. -/
theorem canonical_and_verified (image : List UInt8) :
    (∀ c, Image.decode image = .ok c → Image.encode c = .ok image.toArray) ∧
    (∀ path, (report .verify path (.ok image)).code = 0 ↔ ∃ c, Image.decode image = .ok c) ∧
    (∀ path, (∃ out, output .verify path image = .ok out) ↔ ∃ c, Image.decode image = .ok c) ∧
    (∀ path e, output .verify path image = .error e →
      ∃ e', Image.decode image = .error e' ∧ e = .invalid e') := by
  refine ⟨fun c h => Image.encode_of_decode h, ?_⟩
  cases h : Image.decode image with
  | ok c =>
    have ho := output_verify_of_decode h
    refine ⟨fun path => ⟨fun _ => ⟨c, rfl⟩, fun _ => ?_⟩, fun path => ⟨fun _ => ⟨c, rfl⟩, fun _ => ?_⟩,
      fun path e he => ?_⟩
    · simp only [report, Except.mapError, Bind.bind, Except.bind, ho]
    · exact ⟨_, ho path⟩
    · rw [ho] at he
      cases he
  | error e =>
    have ho := output_verify_of_error h
    refine ⟨fun path => ⟨fun hc => ?_, ?_⟩, fun path => ⟨?_, ?_⟩, fun path e' he => ?_⟩
    · simp [report, Except.mapError, Bind.bind, Except.bind, ho] at hc
    · rintro ⟨c, ⟨⟩⟩
    · rintro ⟨out, hout⟩
      rw [ho] at hout
      cases hout
    · rintro ⟨c, ⟨⟩⟩
    · rw [ho] at he
      cases he
      exact ⟨e, rfl, rfl⟩

end StackScript.Inspection
