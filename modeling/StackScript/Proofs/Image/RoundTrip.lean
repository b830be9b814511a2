import Mathlib
import StackScript.Image.Reader
import StackScript.Proofs.Image.Stream

/-!
# Reading undoes writing

What a writer of the format has written, the reader of the same name takes from the front of an
image and gives back. The one thing that is not kept is the difference between an empty name and
none; `Chunk.proper` and `Constant.proper` forget it.

The lemmas follow the layers of the format: how the values inside are written and read, and what
becomes of them, is a parameter of `Undoes`. A list is read after its length has been held against
the bytes that are left, so `Undoes` also says how many bytes are written at least.
-/

namespace StackScript

/-! ## Forgetting empty names -/

/-- A name, where an empty one counts as none. -/
def properName (name : Option String) : Option String := name.filter fun s => !s.isEmpty

theorem properName_eq (name : Option String) :
    properName name = if (name.getD "").isEmpty then none else some (name.getD "") := by
  cases name with
  | none => rfl
  | some s =>
    unfold properName
    rw [Option.filter_some, Option.getD_some]
    cases s.isEmpty <;> rfl

variable {α β : Type}

/-- The chunk without its name, if the name is empty. -/
def Chunk.proper (c : Chunk α) : Chunk α := { c with name := properName c.name }

/-- The function without its name, if the name is empty. -/
def Function.proper (f : Function α) : Function α := { f with chunk := f.chunk.proper }

/-- The closure without its name, if the name is empty. -/
def Closure.proper (c : Closure α β) : Closure α β := { c with function := c.function.proper }

/-- The record with methods without empty names. -/
def Record.proper (r : Record (Closure α β)) : Record (Closure α β) := r.map Closure.proper

/-- A layer of a value without empty names. -/
def Node.proper : Node α → Node α
  | .function f => .function f.proper
  | .closure c => .closure c.proper
  | .record r => .record r.proper
  | .instanceOf fields r => .instanceOf fields r.proper
  | .bound receiver method => .bound receiver method.proper
  | n => n

mutual

/-- A constant with every empty name of a chunk in it, at any depth, replaced by none. -/
def Constant.proper : Constant → Constant
  | ⟨.function f⟩ => ⟨.function (properFunction f)⟩
  | ⟨.closure c⟩ => ⟨.closure (properClosure c)⟩
  | ⟨.record ⟨name, fields, methods⟩⟩ => ⟨.record ⟨name, fields, properClosures methods⟩⟩
  | ⟨.instanceOf values ⟨name, fields, methods⟩⟩ =>
    ⟨.instanceOf (properConstants values) ⟨name, fields, properClosures methods⟩⟩
  | ⟨.bound receiver method⟩ => ⟨.bound receiver.proper (properClosure method)⟩
  | ⟨.int n⟩ => ⟨.int n⟩
  | ⟨.float x⟩ => ⟨.float x⟩
  | ⟨.string s⟩ => ⟨.string s⟩
  | ⟨.char c⟩ => ⟨.char c⟩
  | ⟨.bool b⟩ => ⟨.bool b⟩
  | ⟨.nil⟩ => ⟨.nil⟩
  | ⟨.void⟩ => ⟨.void⟩
  | ⟨.native n⟩ => ⟨.native n⟩
  | ⟨.range r⟩ => ⟨.range r⟩

def properConstants : List Constant → List Constant
  | [] => []
  | c :: cs => c.proper :: properConstants cs

/-- A function without empty names, its own and those in its constants. -/
def properFunction : Function Constant → Function Constant
  | ⟨arity, ⟨name, code, constants, marks⟩⟩ =>
    ⟨arity, ⟨properName name, code, properConstants constants, marks⟩⟩

def properClosed : Option Constant → Option Constant
  | none => none
  | some c => some c.proper

def properCells : List (Cell Constant) → List (Cell Constant)
  | [] => []
  | ⟨slot, position, closed⟩ :: cells => ⟨slot, position, properClosed closed⟩ :: properCells cells

def properClosure : Closure Constant (Cell Constant) → Closure Constant (Cell Constant)
  | ⟨function, captures⟩ => ⟨properFunction function, properCells captures⟩

def properClosures :
    List (Closure Constant (Cell Constant)) → List (Closure Constant (Cell Constant))
  | [] => []
  | c :: cs => properClosure c :: properClosures cs

end

theorem properConstants_eq_map (cs : List Constant) : properConstants cs = cs.map .proper := by
  induction cs with
  | nil => rfl
  | cons c cs ih => rw [properConstants, ih, List.map_cons]

theorem properFunction_eq (f : Function Constant) :
    properFunction f = (f.map Constant.proper).proper := by
  obtain ⟨arity, name, code, constants, marks⟩ := f
  rw [properFunction, properConstants_eq_map]
  rfl

theorem properCells_eq_map (cells : List (Cell Constant)) :
    properCells cells = cells.map (Cell.map Constant.proper) := by
  induction cells with
  | nil => rfl
  | cons c cells ih =>
    obtain ⟨slot, position, closed⟩ := c
    rw [properCells, ih, List.map_cons]
    cases closed <;> simp [Cell.map, properClosed]

theorem properClosure_eq (c : Closure Constant (Cell Constant)) :
    properClosure c = (c.mapValues Constant.proper).proper := by
  obtain ⟨function, captures⟩ := c
  rw [properClosure, properFunction_eq, properCells_eq_map]
  rfl

theorem properClosures_eq_map (cs : List (Closure Constant (Cell Constant))) :
    properClosures cs = (cs.map (Closure.mapValues Constant.proper)).map .proper := by
  induction cs with
  | nil => rfl
  | cons c cs ih => rw [properClosures, ih, properClosure_eq, List.map_cons, List.map_cons]

/-- A constant loses its empty names layer by layer. -/
theorem Constant.proper_eq (c : Constant) : c.proper = ⟨(c.node.map Constant.proper).proper⟩ := by
  obtain ⟨n⟩ := c
  cases n with
  | function f => rw [Constant.proper, properFunction_eq]; rfl
  | closure c => rw [Constant.proper, properClosure_eq]; rfl
  | record r => rw [Constant.proper, properClosures_eq_map]; rfl
  | instanceOf values r =>
    rw [Constant.proper, properClosures_eq_map, properConstants_eq_map]; rfl
  | bound receiver method => rw [Constant.proper, properClosure_eq]; rfl
  | _ => rw [Constant.proper]; rfl

namespace Image

open Writer (Writes IsStream isStream_word isStream_throw not_writes_throw writes_behind)

/-! ## Reading what stands at the front -/

/-- The reader takes the given bytes from the front of any image that begins with them, and gives
the given result. -/
def Reader.Reads (r : Reader α) (p : List UInt8) (a : α) : Prop :=
  ∀ offset rest, r ⟨offset, p ++ rest⟩ = .ok (a, ⟨offset + p.length, rest⟩)

/-- The reader gives the result for what the writer writes, which is at least a number of bytes. -/
structure Undoes (r : Reader α) (w : Writer) (a : α) (least : Nat) : Prop where
  stream : IsStream w
  reads : ∀ p, Writes w p → r.Reads p a
  le : ∀ p, Writes w p → least ≤ p.length

namespace Reader

variable {p : List UInt8}

theorem reads_pure (a : α) : Reads (pure a) [] a := fun _ _ => rfl

theorem Reads.bind {r : Reader α} {f : α → Reader β} {q : List UInt8} {a : α} {b : β}
    (hr : r.Reads p a) (hf : (f a).Reads q b) : (r >>= f).Reads (p ++ q) b := by
  intro offset rest
  have h : (r >>= f) ⟨offset, p ++ (q ++ rest)⟩ = f a ⟨offset + p.length, q ++ rest⟩ := by
    simp only [Bind.bind, StateT.bind, hr offset (q ++ rest), Except.bind]
  rw [List.append_assoc, h, hf, List.length_append, Nat.add_assoc]

/-- Nothing is read behind a result. -/
theorem Reads.andThen {r : Reader α} {f : α → Reader β} {a : α} {b : β} (hr : r.Reads p a)
    (hf : f a = pure b) : (r >>= f).Reads p b := by
  have h := hr.bind (f := f) (hf ▸ reads_pure b)
  rwa [List.append_nil] at h

/-- A result is changed without reading anything. -/
theorem Reads.map {r : Reader α} {a : α} (hr : r.Reads p a) (g : α → β) :
    Reads (do return g (← r)) p (g a) := hr.andThen rfl

theorem reads_bytes {n : Nat} (h : p.length = n) : Reads (bytes n) p p := by
  subst h
  intro offset rest
  simp [bytes]

theorem reads_byte (b : UInt8) : Reads byte [b] b := (reads_bytes (p := [b]) rfl).map _

theorem reads_word (n : UInt32) : Reads word (Word.bytes32 n) n := by
  have h := (reads_bytes (Word.length_toBytes 4 n.toNat)).map fun bs => (Word.ofBytes bs).toUInt32
  rw [Word.ofBytes_toBytes, Nat.mod_eq_of_lt (by simpa using n.toNat_lt)] at h
  simpa [word, Word.bytes32] using h

theorem reads_long (n : UInt64) : Reads long (Word.bytes64 n) n := by
  have h := (reads_bytes (Word.length_toBytes 8 n.toNat)).map fun bs => (Word.ofBytes bs).toUInt64
  rw [Word.ofBytes_toBytes, Nat.mod_eq_of_lt (by simpa using n.toNat_lt)] at h
  simpa [long, Word.bytes64] using h

theorem reads_flag (b : Bool) : Reads flag [if b then 1 else 0] b := by
  intro offset rest
  cases b <;> rfl

theorem reads_tag (t : Tag) : Reads tag [t.byte] t := by
  intro offset rest
  have h : byte ⟨offset, [t.byte] ++ rest⟩ = .ok (t.byte, ⟨offset + 1, rest⟩) :=
    reads_byte t.byte offset rest
  simp only [tag, position, Bind.bind, StateT.bind, Except.bind, get, getThe, MonadStateOf.get,
    StateT.get, pure, StateT.pure, Except.pure, h, Tag.ofByte?_byte]
  rfl

theorem length_ok {part : Part} {n : Nat} {q : List UInt8} (hn : n < 2 ^ 32)
    (hq : n * part.least ≤ q.length) (offset : Nat) :
    length part ⟨offset, Word.bytes32 n.toUInt32 ++ q⟩ = .ok (n, ⟨offset + 4, q⟩) := by
  have hw := reads_word n.toUInt32 offset q
  have hl : (Word.bytes32 n.toUInt32).length = 4 := Word.length_toBytes 4 _
  have hm : n.toUInt32.toNat = n := Word.toNat_toUInt32 hn
  have hc : ¬ n * part.least > q.length := by omega
  rw [hl] at hw
  simp only [length, position, Bind.bind, StateT.bind, Except.bind, get, getThe, MonadStateOf.get,
    StateT.get, pure, StateT.pure, Except.pure, hw, hm, hc, if_false]

end Reader

/-! ## Sequences -/

section

variable {r : Reader α} {f : α → Reader β} {w v : Writer} {a : α} {b : β} {m n : Nat}

theorem Undoes.bind (hr : Undoes r w a m) (hf : Undoes (f a) v b n) :
    Undoes (r >>= f) (do w; v) b (n + m) where
  stream := hr.stream.bind hf.stream
  reads p hp := by
    obtain ⟨q, s, rfl, hq, hs⟩ := (Writer.writes_bind_iff hr.stream hf.stream).1 hp
    exact (hr.reads q hq).bind (hf.reads s hs)
  le p hp := by
    obtain ⟨q, s, rfl, hq, hs⟩ := (Writer.writes_bind_iff hr.stream hf.stream).1 hp
    rw [List.length_append, Nat.add_comm]
    exact Nat.add_le_add (hr.le q hq) (hf.le s hs)

theorem Undoes.andThen (hr : Undoes r w a n) (hf : f a = pure b) : Undoes (r >>= f) w b n :=
  ⟨hr.stream, fun p hp => (hr.reads p hp).andThen hf, hr.le⟩

theorem Undoes.map (hr : Undoes r w a n) (g : α → β) : Undoes (do return g (← r)) w (g a) n :=
  hr.andThen rfl

theorem Undoes.mono (h : Undoes r w a m) (hn : n ≤ m) : Undoes r w a n :=
  { h with le := fun p hp => Nat.le_trans hn (h.le p hp) }

/-- Nothing has to be read where writing fails. -/
theorem undoes_throw {e : Error} (he : e ≠ .sinkFull) : Undoes r (throw e) a n :=
  ⟨isStream_throw he, fun _ h => absurd h not_writes_throw, fun _ h => absurd h not_writes_throw⟩

theorem undoes_bytes {p : List UInt8} (h : r.Reads p a) (hn : p.length = n) :
    Undoes r (Writer.bytes p) a n := by
  refine ⟨Writer.isStream_bytes p, fun q hq => ?_, fun q hq => ?_⟩
  · rwa [Writer.writes_bytes_iff.1 hq]
  · rw [Writer.writes_bytes_iff.1 hq, hn]

theorem undoes_pure : Undoes (pure a) (pure ()) a 0 :=
  Writer.bytes_nil ▸ undoes_bytes (Reader.reads_pure a) rfl

theorem undoes_word (n : UInt32) : Undoes Reader.word (Writer.word n) n 4 :=
  undoes_bytes (Reader.reads_word n) (Word.length_toBytes 4 _)

theorem undoes_long (n : UInt64) : Undoes Reader.long (Writer.long n) n 8 :=
  undoes_bytes (Reader.reads_long n) (Word.length_toBytes 8 _)

theorem undoes_integer (n : Int64) : Undoes Reader.integer (Writer.long n.toUInt64) n 8 := by
  simpa [Reader.integer] using (undoes_long n.toUInt64).map UInt64.toInt64

theorem undoes_flag (b : Bool) : Undoes Reader.flag (Writer.flag b) b 1 :=
  undoes_bytes (Reader.reads_flag b) rfl

theorem undoes_tag (t : Tag) : Undoes Reader.tag (Writer.tag t) t 1 :=
  undoes_bytes (Reader.reads_tag t) rfl

end

/-! ## Lengths, strings and lists -/

section

variable {r : Reader β} {k : Nat → Reader β} {v : Writer} {b : β} {m n : Nat} (part : Part)

/-- A length that is read as a word. -/
theorem undoes_size {k : UInt32 → Reader β} (hk : n < 2 ^ 32 → Undoes (k n.toUInt32) v b m) :
    Undoes (Reader.word >>= k) (do Writer.length part n; v) b (m + 4) := by
  unfold Writer.length
  by_cases hn : n < 2 ^ 32
  · rw [if_pos hn]
    exact (undoes_word _).bind (hk hn)
  · rw [if_neg hn]
    exact undoes_throw (e := .tooLarge part) nofun

theorem undoes_length (hk : Undoes (k n) v b m) (hm : n * part.least ≤ m) :
    Undoes (Reader.length part >>= k) (do Writer.length part n; v) b (m + 4) := by
  have hword := undoes_size (n := n) (k := fun _ => k n) part fun _ => hk
  refine { hword with reads := fun p hp => ?_ }
  unfold Writer.length at hp
  by_cases hn : n < 2 ^ 32
  · rw [if_pos hn] at hp
    obtain ⟨q, rfl, hq⟩ := writes_behind hk.stream hp
    intro offset rest
    have hle : n * part.least ≤ (q ++ rest).length := by
      have := hk.le q hq
      rw [List.length_append]
      omega
    rw [List.append_assoc, List.length_append, Word.bytes32, Word.length_toBytes, ← Word.bytes32,
      ← Nat.add_assoc, ← hk.reads q hq (offset + 4) rest]
    simp only [Bind.bind, StateT.bind, Except.bind, Reader.length_ok hn hle]
  · rw [if_neg hn] at hp
    exact absurd hp (not_writes_throw (e := .tooLarge part))

variable {w : α → Writer} {f : α → β}

theorem undoes_times (items : List α) (h : ∀ a, Undoes r (w a) (f a) n) :
    Undoes (Reader.times r items.length) (items.forM w) (items.map f) (items.length * n) := by
  induction items with
  | nil => exact (undoes_pure (a := [])).mono (Nat.le_of_eq (Nat.zero_mul n))
  | cons a as ih =>
    rw [List.length_cons, Nat.succ_mul]
    exact (h a).bind (ih.map (f a :: ·))

theorem undoes_list (items : List α) (h : ∀ a, Undoes r (w a) (f a) part.least) :
    Undoes (Reader.list part r) (Writer.list part w items) (items.map f) 4 :=
  (undoes_length part (undoes_times items h) (Nat.le_refl _)).mono (Nat.le_add_left 4 _)

end

namespace Writer

theorem byteArray_toList (bs : ByteArray) : bs.toList = bs.data.toList := by
  have walk (i : Nat) (r : List UInt8) :
      ByteArray.toList.loop bs i r = r.reverse ++ bs.data.toList.drop i := by
    fun_induction ByteArray.toList.loop bs i r with
    | case1 i r h ih =>
      have hi : i < bs.data.toList.length := h
      have hb : bs.get! i = bs.data.toList[i] := getElem!_pos bs.data i h
      rw [ih, hb, List.drop_eq_getElem_cons hi, List.reverse_cons, List.append_assoc]
      rfl
    | case2 i r h =>
      have hi : bs.data.toList.length ≤ i := Nat.le_of_not_lt h
      rw [List.drop_of_length_le hi, List.append_nil]
  exact walk 0 []

theorem length_utf8 (s : String) : s.toUTF8.toList.length = s.utf8ByteSize := by
  rw [byteArray_toList]
  rfl

end Writer

theorem undoes_string (s : String) : Undoes Reader.string (Writer.string s) s 4 := by
  refine (undoes_size .string fun hn => undoes_bytes ?_ rfl).mono (Nat.le_add_left 4 _)
  have hm : s.utf8ByteSize.toUInt32.toNat = s.utf8ByteSize := Word.toNat_toUInt32 hn
  have ha : (⟨s.toUTF8.toList.toArray⟩ : ByteArray) = s.toByteArray := by
    rw [Writer.byteArray_toList]
    rfl
  have hu : String.fromUTF8? ⟨s.toUTF8.toList.toArray⟩ = some s := by
    rw [ha, String.fromUTF8?, dif_pos s.isValidUTF8]
    rfl
  intro offset rest
  have hb := Reader.reads_bytes (Writer.length_utf8 s) offset rest
  simp only [Reader.position, Bind.bind, StateT.bind, Except.bind, get, getThe, MonadStateOf.get,
    StateT.get, pure, StateT.pure, Except.pure, hm, hb, hu]

theorem undoes_char (c : Char) : Undoes Reader.char (Writer.word c.val) c 4 :=
  (undoes_word c.val).andThen (dif_pos c.valid)

theorem undoes_mark (m : Span) : Undoes Reader.mark (Writer.mark m) m 8 :=
  (undoes_word _).bind ((undoes_word _).map _)

/-! ## Layers -/

section Layers

variable {r : Reader β} {w : α → Writer} {f : α → β} (h : ∀ a, Undoes r (w a) (f a) 1)
include h

theorem undoes_chunk (c : Chunk α) :
    Undoes (Reader.chunk r) (Writer.chunk w c) (c.map f).proper 0 := by
  unfold Writer.chunk
  by_cases hs : c.marks.size = c.code.size
  · rw [if_neg (not_not_intro hs)]
    have hcode (hc : c.code.size < 2 ^ 32) : c.code.toList.length = c.code.size.toUInt32.toNat :=
      (Word.toNat_toUInt32 hc).symm
    have hmarks : ¬ c.marks.toList.length ≠ c.code.toList.length := by simpa using hs
    have hchunk : (c.map f).proper = ⟨if (c.name.getD "").isEmpty then none else some (c.name.getD ""),
        c.code.toList.toArray, c.constants.map f, (c.marks.toList.map id).toArray⟩ := by
      simp [Chunk.proper, Chunk.map, properName_eq]
    rw [hchunk]
    refine Undoes.mono ((undoes_string _).bind (undoes_size .code fun hc =>
      (undoes_bytes (Reader.reads_bytes (hcode hc)) rfl).bind ((undoes_list .constants _ h).bind
        (undoes_length .marks ?_ (Nat.le_refl _))))) (Nat.zero_le _)
    rw [if_neg hmarks]
    exact (undoes_times c.marks.toList undoes_mark).map _
  · rw [if_pos hs]
    exact undoes_throw (e := .marksMismatch ..) (by rintro ⟨⟩)

theorem undoes_function (x : Function α) :
    Undoes (Reader.function r) (Writer.function w x) (x.map f).proper 4 :=
  (undoes_word _).bind ((undoes_chunk h _).map _)

theorem undoes_cell (c : Cell α) : Undoes (Reader.cell r) (Writer.cell w c) (c.map f) 9 := by
  obtain ⟨slot, position, closed⟩ := c
  cases closed with
  | none => exact (undoes_word _).bind ((undoes_word _).bind ((undoes_flag false).andThen rfl))
  | some v =>
    exact Undoes.mono ((undoes_word _).bind ((undoes_word _).bind ((undoes_flag true).bind
      (((h v).map some).map _)))) (by decide)

theorem undoes_closure (c : Closure α (Cell α)) :
    Undoes (Reader.closure r) (Writer.closure w c) (c.mapValues f).proper 4 :=
  ((undoes_function h _).bind ((undoes_list .captures _ (undoes_cell h)).map _)).mono (by decide)

theorem undoes_record (x : Record (Closure α (Cell α))) :
    Undoes (Reader.record r) (Writer.record w x) (x.map (Closure.mapValues f)).proper 4 := by
  have hx : (x.map (Closure.mapValues f)).proper =
      ⟨x.name, x.fields.map id, x.methods.map fun c => (c.mapValues f).proper⟩ := by
    simp [Record.proper, Record.map]
  rw [hx]
  exact ((undoes_string _).bind ((undoes_list .fieldNames _ undoes_string).bind
    ((undoes_list .methods _ (undoes_closure h)).map _))).mono (by decide)

theorem undoes_node (n : Node α) : Undoes (Reader.node r) (Writer.node w n) (n.map f).proper 1 := by
  -- After the tag, the reader goes on as the tag tells it.
  have tagged {k : Tag → Reader (Node β)} {v : Writer} {b : Node β} {m : Nat} (t : Tag)
      (hk : Undoes (k t) v b m) : Undoes (Reader.tag >>= k) (do Writer.tag t; v) b 1 :=
    ((undoes_tag t).bind hk).mono (Nat.le_add_left 1 m)
  cases n with
  | int n => exact tagged .int ((undoes_integer n).map _)
  | float x => exact tagged .float ((undoes_long x.bits).map _)
  | string s => exact tagged .string ((undoes_string s).map _)
  | char c => exact tagged .char ((undoes_char c).map _)
  | bool b => exact tagged .bool ((undoes_flag b).map _)
  | nil => exact (undoes_tag .nil).andThen rfl
  | void => exact (undoes_tag .void).andThen rfl
  | function g => exact tagged .function ((undoes_function h g).map _)
  | closure c => exact tagged .closure ((undoes_closure h c).map _)
  | native n => exact undoes_throw nofun
  | range x =>
    exact tagged .range ((undoes_integer _).bind ((undoes_integer _).bind ((undoes_integer _).bind
      ((undoes_flag _).bind ((undoes_flag _).map _)))))
  | record x => exact tagged .record ((undoes_record h x).map _)
  | instanceOf fields x =>
    exact tagged .instanceOf ((undoes_list .fields fields h).bind ((undoes_record h x).map _))
  | bound receiver method =>
    exact tagged .bound ((h receiver).bind ((undoes_closure h method).map _))

end Layers

/-! ## Values and chunks -/

theorem undoes_value (view : α → Node α) (f : Nat → α → Constant)
    (hf : ∀ depth v, f (depth + 1) v = ⟨((view v).map (f depth)).proper⟩) (depth : Nat) (v : α) :
    Undoes (Reader.value depth) (Writer.value view depth v) (f depth v) 1 := by
  induction depth generalizing v with
  | zero => exact undoes_throw nofun
  | succ depth ih =>
    rw [hf]
    exact (undoes_node ih (view v)).map Constant.mk

theorem decode_of_encodeWith {view : α → Node α} (f : Nat → α → Constant)
    (hf : ∀ depth v, f (depth + 1) v = ⟨((view v).map (f depth)).proper⟩) {c : Chunk α}
    {image : Array UInt8} (h : encodeWith view c = .ok image) :
    decode image.toList = .ok (c.map (f maxDepth)).proper := by
  have hr := (undoes_chunk (undoes_value view f hf maxDepth) c).reads _ (encodeWith_eq_ok_iff.1 h) 0 []
  rw [List.append_nil] at hr
  simp only [decode, hr, Bind.bind, Except.bind]
  rfl

end Image

/-- Reading an image gives the chunk that was written, at any depth but for empty names, which are
read as none. -/
theorem Image.decode_encode {c : Chunk Constant} {image : Array UInt8}
    (h : Image.encode c = .ok image) :
    Image.decode image.toList = .ok (c.map Constant.proper).proper :=
  Image.decode_of_encodeWith (fun _ => Constant.proper) (fun _ => Constant.proper_eq) h

/-- A chunk with an empty name, whose constant is a closure of a function with an empty name over an
open and a closed variable: both names are read as none. -/
theorem Image.decode_encode_closure : ∃ image,
    Image.encode ⟨some "", #[], [⟨.closure ⟨⟨0, ⟨some "", #[], [⟨.int 7⟩], #[]⟩⟩,
      [⟨3, 0, none⟩, ⟨4, 1, some ⟨.bool true⟩⟩]⟩⟩], #[]⟩ = .ok image ∧
    Image.decode image.toList = .ok ⟨none, #[], [⟨.closure ⟨⟨0, ⟨none, #[], [⟨.int 7⟩], #[]⟩⟩,
      [⟨3, 0, none⟩, ⟨4, 1, some ⟨.bool true⟩⟩]⟩⟩], #[]⟩ := by
  have h : Image.encode ⟨some "", #[], [⟨.closure ⟨⟨0, ⟨some "", #[], [⟨.int 7⟩], #[]⟩⟩,
        [⟨3, 0, none⟩, ⟨4, 1, some ⟨.bool true⟩⟩]⟩⟩], #[]⟩ =
      .ok #[0, 0, 0, 0, 0, 0, 0, 0, 1, 0, 0, 0, 8, 0, 0, 0, 0, 0, 0, 0, 0, 0, 0, 0, 0, 1, 0, 0, 0,
        0, 7, 0, 0, 0, 0, 0, 0, 0, 0, 0, 0, 0, 2, 0, 0, 0, 3, 0, 0, 0, 0, 0, 0, 0, 0, 4, 0, 0, 0,
        1, 0, 0, 0, 1, 4, 1, 0, 0, 0, 0] := by
    cbv
  exact ⟨_, h, Image.decode_encode h⟩

end StackScript
