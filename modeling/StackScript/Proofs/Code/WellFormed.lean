import StackScript.Constant
import StackScript.Proofs.Lowering.Landing

/-!
# Well-formed chunks

In a well-formed chunk every byte has a source position, every jump arrives at an instruction, every
index of a constant leads to one of the kind that the instruction needs, functions find the
variables they have captured, and control does not run off the end. A chunk made from a fragment is
well-formed if the pieces of the fragment are.
-/

namespace StackScript

variable {i : Instruction} {p : Piece}

/-- What the operands of an instruction say about the constants. -/
def Instruction.Refers (constants : List Constant) (i : Instruction) : Prop :=
  match i with
  | ⟨.pushConst, index⟩ => ∃ k, constants[index.toNat]? = some k ∧ k.kind ≠ .function
  | ⟨.pushClosure, (index, _)⟩ => ∃ f, constants[index.toNat]? = some ⟨.function f⟩
  | ⟨.getProperty, index⟩ | ⟨.setProperty, index⟩ | ⟨.callProperty, (index, _)⟩ =>
    ∃ name, constants[index.toNat]? = some ⟨.string name⟩
  | _ => True

/-- The instruction needs no more than `n` captured variables. -/
def Instruction.CapturesBelow (n : Nat) (i : Instruction) : Prop :=
  match i with
  | ⟨.getUpvalue, index⟩ | ⟨.setUpvalue, index⟩ => index.toNat < n
  | ⟨.pushClosure, (_, captures)⟩ => ∀ c ∈ captures, c.fromLocal = false → c.index.toNat < n
  | _ => True

/-- The instructions of a chunk, as far as they can be read. -/
def Chunk.instructions {α : Type} (c : Chunk α) : List Instruction.Located :=
  (Instruction.scan c.code).filterMap Except.toOption

/-- An instruction that makes a closure gives the function all the captured variables it needs. -/
def Instruction.Provides (constants : List Constant) (i : Instruction) : Prop :=
  match i with
  | ⟨.pushClosure, (index, captures)⟩ => ∀ f, constants[index.toNat]? = some ⟨.function f⟩ →
    ∀ l ∈ f.chunk.instructions, l.instruction.CapturesBelow captures.length
  | _ => True

namespace Chunk

/-- The chunk itself, the chunks of the functions among its constants, and so on. -/
inductive Contains (root : Chunk Constant) : Chunk Constant → Prop
  | self : Contains root root
  | function {c : Chunk Constant} {f : Function Constant} :
      Contains root c → ⟨.function f⟩ ∈ c.constants → Contains root f.chunk

/-- The chunk can be run without going wrong by its code. -/
structure WellFormed (c : Chunk Constant) : Prop where
  marked : c.IsMarked
  reads : Instruction.scan c.code = c.instructions.map .ok
  jumps : ∀ l ∈ c.instructions, l.instruction.op.format = .jump →
    ∃ l' ∈ c.instructions, l.target? = some l'.offset
  constants : ∀ l ∈ c.instructions, l.instruction.Refers c.constants
  captures : ∀ l ∈ c.instructions, l.instruction.Provides c.constants
  ends : ∃ l, c.instructions.getLast? = some l ∧
    (l.instruction.op = .return ∨ l.instruction.op = .returnVoid ∨ l.instruction.op = .exitSuccess)

theorem Contains.trans {a b c : Chunk Constant} (h : a.Contains b) (h' : b.Contains c) :
    a.Contains c := by
  induction h' with
  | self => exact h
  | function _ hf ih => exact ih.function hf

end Chunk

/-! ## Reading fragments back -/

theorem Instruction.read_of_holds {code : Code} {o : Nat} (hc : i.op.format.Countable i.args)
    (h : code.Holds o i.bytes) : Instruction.read code o i.op.byte = .ok i := by
  have hargs : code.Holds (o + 1) (i.op.format.bytes i.args) := h.tail
  rw [read, Opcode.ofByte?_byte]
  simp only [Format.readAt?_of_holds _ _ hc hargs]

/-- The instruction that a piece becomes. -/
def Piece.instruction? : Piece → Option Instruction
  | .instruction i _ => some i
  | .jump b d _ => some (b.instruction d.toUInt32)
  | .exit _ => some (Branch.back.instruction 0)
  | .landing => none

theorem Piece.bytes_of_instruction? (h : p.instruction? = some i) :
    p.bytes = i.bytes ∧ p.size = i.size := by
  have hb : p.bytes = i.bytes := by
    cases p <;> cases h <;> rfl
  exact ⟨hb, by rw [← Piece.length_bytes, hb, Instruction.length_bytes]⟩

theorem Piece.exists_instruction (h : p ≠ .landing) : ∃ i, p.instruction? = some i := by
  cases p with
  | landing => exact absurd rfl h
  | _ => exact ⟨_, rfl⟩

/-- The jump over the distance `d` at an offset leads to `t`. -/
def Branch.Reaches (b : Branch) (o d t : Nat) : Prop :=
  match b with
  | .back => t + d = o + 5
  | _ => t = o + 5 + d

namespace Fragment

variable {f : Fragment} {o : Nat}
variable {span : Span} {b : Branch} {d : Nat} {l : Instruction.Located} {α : Type} {i : Instruction}

/-- The instructions of a fragment at an offset. -/
def located (o : Nat) : Fragment → List Instruction.Located
  | [] => []
  | p :: f => (p.instruction?.map (⟨o, ·⟩)).toList ++ located (o + p.size) f

theorem mem_located :
    l ∈ located o f ↔ ∃ (f₁ : Fragment) (p : Piece) (f₂ : Fragment), f = f₁ ++ p :: f₂ ∧
      p.instruction? = some l.instruction ∧ l.offset = o + f₁.size := by
  induction f generalizing o with
  | nil => simp [located]
  | cons q f ih =>
    rw [located, List.mem_append, ih]
    constructor
    · rintro (h | ⟨f₁, p, f₂, rfl, hp, hl⟩)
      · rw [Option.mem_toList, Option.map_eq_some_iff] at h
        obtain ⟨i, hi, rfl⟩ := h
        exact ⟨[], q, f, rfl, hi, rfl⟩
      · exact ⟨q :: f₁, p, f₂, rfl, hp, by rw [hl, size_cons, Nat.add_assoc]⟩
    · rintro ⟨f₁, p, f₂, h, hp, hl⟩
      cases f₁ with
      | nil =>
        obtain ⟨rfl, rfl⟩ := List.cons.inj h
        left
        rw [hp, Option.mem_toList, Option.map_some]
        exact congrArg some (by cases l; simp_all)
      | cons q' f₁ =>
        obtain ⟨rfl, rfl⟩ := List.cons.inj h
        exact .inr ⟨f₁, p, f₂, rfl, hp, by rw [hl, size_cons, Nat.add_assoc]⟩

theorem located_append (f g : Fragment) :
    located o (f ++ g) = located o f ++ located (o + f.size) g := by
  induction f generalizing o with
  | nil => rfl
  | cons p f ih => simp [located, ih, Nat.add_assoc]

theorem scanFrom_of_bytes {code : Code} {before : List UInt8}
    (h : code.toList = before ++ f.bytes)
    (hc : ∀ i span, Piece.instruction i span ∈ f → i.op.format.Countable i.args) :
    Instruction.scanFrom code before.length = (located before.length f).map .ok := by
  induction f generalizing before with
  | nil =>
    have hsize : code.size = before.length := by
      rw [← Array.length_toList, h]
      simp [bytes]
    rw [Instruction.scanFrom, dif_neg (by omega)]
    rfl
  | cons p f ih =>
    rw [bytes_cons, ← List.append_assoc] at h
    have ih := ih h fun i span hi => hc i span (List.mem_cons_of_mem _ hi)
    rw [List.length_append, Piece.length_bytes] at ih
    rw [located, List.map_append, ← ih]
    cases hp : p.instruction? with
    | none =>
      cases p <;> cases hp
      rfl
    | some i =>
      obtain ⟨hbytes, hsize⟩ := Piece.bytes_of_instruction? hp
      have hcount : i.op.format.Countable i.args := by
        cases p <;> cases hp
        · exact hc _ _ List.mem_cons_self
        · rename_i b d _
          cases b <;> trivial
        · trivial
      have hholds : code.Holds before.length i.bytes := ⟨before, bytes f, by rw [h, hbytes], rfl⟩
      have hbyte : code[before.length]? = some i.op.byte := hholds.head
      obtain ⟨hlt, hget⟩ := Array.getElem?_eq_some_iff.1 hbyte
      rw [Instruction.scanFrom, dif_pos hlt, hget, Instruction.read_of_holds hcount hholds, hsize]
      rfl

theorem instructions_toChunk (name : Option String) (constants : List α)
    (hc : ∀ i span, Piece.instruction i span ∈ f → i.op.format.Countable i.args) :
    Instruction.scan (f.toChunk name constants).code = (located 0 f).map .ok ∧
      (f.toChunk name constants).instructions = located 0 f := by
  have hbytes : (f.toChunk name constants).code.toList = [] ++ f.bytes := f.code_toChunk name constants
  have hscan : Instruction.scan (f.toChunk name constants).code = (located 0 f).map .ok :=
    scanFrom_of_bytes hbytes hc
  refine ⟨hscan, ?_⟩
  rw [Chunk.instructions, hscan, List.filterMap_map]
  exact List.filterMap_some

/-! ## Jumps -/

/-- Every jump leads to an instruction of the fragment, and there are no open ends. -/
structure Sealed (f : Fragment) : Prop where
  jumps : ∀ (f₁ : Fragment) b d span f₂, f = f₁ ++ .jump b d span :: f₂ →
    ∃ (g₁ : Fragment) (p : Piece) (g₂ : Fragment), f = g₁ ++ p :: g₂ ∧ p ≠ .landing ∧
      b.Reaches f₁.size d g₁.size
  closed : ∀ span, Piece.exit span ∉ f

/-- Behind code whose jumps land comes a return, or code that begins with an instruction. -/
def Follows (f g : Fragment) : Prop :=
  g = [] ∧ f.endsInReturn = true ∨
    g ≠ [] ∧ ∀ p ∈ g, ∃ i span, p = Piece.instruction i span

theorem sealed_of_lands {g : Fragment} (hf : Lowering.Lands false f) (hg : Follows f g) :
    Sealed (f ++ g) := by
  obtain ⟨T, hT, -⟩ := hf 0 0 (fun _ _ => False) (by rintro ⟨⟩)
  have hplace (x : Nat) (h : T x ()) : ∃ (g₁ : Fragment) (p : Piece) (g₂ : Fragment),
      f ++ g = g₁ ++ p :: g₂ ∧ p ≠ .landing ∧ x = g₁.size := by
    rcases hT.within x () h with ⟨hx, -, hr⟩ | ⟨f₁, p, f₂, rfl, hx, hp⟩
    · rcases hg with ⟨-, hr'⟩ | ⟨hne, hg⟩
      · rw [hr] at hr'
        cases hr'
      · obtain ⟨q, g', rfl⟩ := List.exists_cons_of_ne_nil hne
        obtain ⟨i, span, rfl⟩ := hg q List.mem_cons_self
        exact ⟨f, _, g', rfl, (by rintro ⟨⟩), by rw [hx, Nat.zero_add]⟩
    · exact ⟨f₁, p, f₂ ++ g, by simp, hp.ne_landing, by rw [hx, Nat.zero_add]⟩
  have hinstruction {p : Piece} (hp : p ∈ g) : ∃ i span, p = .instruction i span := by
    rcases hg with ⟨rfl, -⟩ | ⟨-, hg⟩
    · cases hp
    · exact hg p hp
  constructor
  · intro f₁ b d span f₂ h
    -- the jump stands in the first part, since the second has instructions only
    have hsplit : ∃ f₃, f = f₁ ++ .jump b d span :: f₃ := by
      rcases List.append_eq_append_iff.1 h with ⟨g₁, rfl, hg'⟩ | ⟨f₃, rfl, hf'⟩
      · obtain ⟨i, _, ⟨⟩⟩ := hinstruction (p := .jump b d span) (by simp [hg'])
      · cases f₃ with
        | nil =>
          have hmem : .jump b d span ∈ g := by
            rw [show g = .jump b d span :: f₂ from hf'.symm]
            exact List.mem_cons_self
          obtain ⟨i, _, ⟨⟩⟩ := hinstruction hmem
        | cons q f₃ =>
          obtain ⟨rfl, -⟩ := List.cons.inj hf'
          exact ⟨f₃, rfl⟩
    obtain ⟨f₃, hf₃⟩ := hsplit
    obtain ⟨⟨⟩, hgoes⟩ := hT.covers f₁ _ f₃ hf₃ (by rintro ⟨⟩)
    rw [Nat.zero_add] at hgoes
    have hT' {x : Nat} (h : T x () ∨ False) : T x () := h.resolve_right id
    cases b with
    | always =>
      obtain ⟨g₁, p, g₂, hg₁, hp, hx⟩ := hplace _ (hT' hgoes.2)
      exact ⟨g₁, p, g₂, hg₁, hp, hx.symm⟩
    | back =>
      obtain ⟨g₁, p, g₂, hg₁, hp, hx⟩ := hplace _ (hT' hgoes.2.2)
      have hd := hgoes.2.1
      exact ⟨g₁, p, g₂, hg₁, hp, show g₁.size + d = f₁.size + 5 by omega⟩
    | ifFalse | ifTrue | ifDone =>
      obtain ⟨g₁, p, g₂, hg₁, hp, hx⟩ := hplace _ (hT' hgoes.2.2)
      exact ⟨g₁, p, g₂, hg₁, hp, hx.symm⟩
  · intro span h
    rcases List.mem_append.1 h with h | h
    · obtain ⟨f₁, f₂, hf₁⟩ := List.append_of_mem h
      obtain ⟨⟨⟩, -, _, ⟨⟩, _⟩ := hT.covers f₁ _ f₂ hf₁ (by rintro ⟨⟩)
    · obtain ⟨i, _, ⟨⟩⟩ := hinstruction h

/-- A jump of a fragment is no longer than the fragment. -/
theorem Sealed.distance_le (h : Sealed f) (hm : .jump b d span ∈ f) : d ≤ f.size := by
  obtain ⟨f₁, f₂, hf⟩ := List.append_of_mem hm
  obtain ⟨g₁, p, g₂, hg, -, hr⟩ := h.jumps f₁ b d span f₂ hf
  have h₁ := congrArg size hf
  have h₂ := congrArg size hg
  simp only [size_append, size_cons, Lowering.size_jump] at h₁ h₂
  cases b <;> simp only [Branch.Reaches] at hr <;> omega

theorem distance_le_of_lands (h : Lowering.Lands false f) (hm : .jump b d span ∈ f) :
    d ≤ f.size := by
  -- whatever follows, the jump leads no further than to its beginning
  have hs : Sealed (f ++ emit ⟨.returnVoid, ()⟩ {}) :=
    sealed_of_lands h (.inr ⟨List.cons_ne_nil _ _, fun p hp => ⟨_, _, List.mem_singleton.1 hp⟩⟩)
  obtain ⟨f₁, f₂, hf⟩ := List.append_of_mem hm
  obtain ⟨g₁, p, g₂, hg, hp, hr⟩ := hs.jumps f₁ b d span (f₂ ++ emit ⟨.returnVoid, ()⟩ {}) (by simp [hf])
  have h₁ := congrArg size hf
  have h₂ := congrArg size hg
  have hone : (emit ⟨.returnVoid, ()⟩ {}).size = 1 := rfl
  simp only [size_append, size_cons, Lowering.size_jump, hone] at h₁ h₂
  cases b <;> simp only [Branch.Reaches] at hr <;> omega

theorem farJump?_of_near (h : ∀ b d span, .jump b d span ∈ f → d < 2 ^ 32) : f.farJump? o = none := by
  induction f generalizing o with
  | nil => rfl
  | cons p f ih =>
    have ih {o : Nat} : farJump? o f = none := ih fun b d span hm => h b d span (List.mem_cons_of_mem _ hm)
    cases p with
    | jump b d span => rw [farJump?, if_pos (h b d span List.mem_cons_self), ih]
    | _ => exact ih

/-! ## Chunks from fragments -/

theorem Sealed.target {f₁ f₂ : Fragment} (h : Sealed f) (hs : f.size < 2 ^ 32)
    (hf : f = f₁ ++ .jump b d span :: f₂) :
    ∃ l ∈ located 0 f, Instruction.Located.target? ⟨f₁.size, b.instruction d.toUInt32⟩ =
      some l.offset := by
  obtain ⟨g₁, p, g₂, hg, hp, hr⟩ := h.jumps f₁ b d span f₂ hf
  obtain ⟨i, hi⟩ := Piece.exists_instruction hp
  refine ⟨⟨g₁.size, i⟩, mem_located.2 ⟨g₁, p, g₂, hg, hi, by simp⟩, ?_⟩
  have hmem : .jump b d span ∈ f := by
    rw [hf]
    simp
  have hd : d.toUInt32.toNat = d := Word.toNat_toUInt32 (Nat.lt_of_le_of_lt (h.distance_le hmem) hs)
  have hnext : Instruction.Located.next ⟨f₁.size, b.instruction d.toUInt32⟩ = f₁.size + 5 := by
    show f₁.size + (b.instruction d.toUInt32).size = f₁.size + 5
    rw [Branch.size_instruction]
    rfl
  cases b with
  | back =>
    have hr : g₁.size + d = f₁.size + 5 := hr
    show (if d.toUInt32.toNat ≤ Instruction.Located.next _ then
      some (Instruction.Located.next _ - d.toUInt32.toNat) else none) = _
    rw [hnext, hd, if_pos (by omega), show f₁.size + 5 - d = g₁.size by omega]
  | _ =>
    show some (Instruction.Located.next _ + d.toUInt32.toNat) = _
    rw [hnext, hd]
    exact congrArg some hr.symm

theorem Sealed.located_cases (h : Sealed f) (hl : l ∈ located 0 f) :
    (∃ span, .instruction l.instruction span ∈ f) ∨
      ∃ (f₁ : Fragment) (b : Branch) (d : Nat) (span : Span) (f₂ : Fragment),
        f = f₁ ++ .jump b d span :: f₂ ∧ l = ⟨f₁.size, b.instruction d.toUInt32⟩ := by
  obtain ⟨f₁, p, f₂, rfl, hp, ho⟩ := mem_located.1 hl
  obtain ⟨o, i⟩ := l
  rw [Nat.zero_add] at ho
  obtain rfl : o = f₁.size := ho
  cases p with
  | instruction j span => exact .inl ⟨span, by rw [← Option.some.inj hp]; simp⟩
  | jump b d span =>
    obtain rfl : b.instruction d.toUInt32 = i := Option.some.inj hp
    exact .inr ⟨f₁, b, d, span, f₂, rfl, rfl⟩
  | exit span => exact absurd (by simp) (h.closed span)
  | landing => cases hp

theorem isMarked_toChunk (f : Fragment) (name : Option String) (constants : List α) :
    (f.toChunk name constants).IsMarked := by
  have hfold (c : Chunk α) (h : c.IsMarked) :
      (f.foldl (fun c p => c.append p.bytes p.span) c).IsMarked := by
    induction f generalizing c with
    | nil => exact h
    | cons p f ih => exact ih _ (h.append _ _)
  exact hfold _ rfl

theorem size_le_of_mem {p : Piece} (h : p ∈ f) : p.size ≤ f.size := by
  obtain ⟨f₁, f₂, rfl⟩ := List.append_of_mem h
  rw [size_append, size_cons]
  omega

theorem countable_of_size (h : i.size < 2 ^ 32) : i.op.format.Countable i.args := by
  obtain ⟨op, args⟩ := i
  cases op with
  | pushClosure =>
    obtain ⟨index, captures⟩ := args
    rw [Instruction.size_pushClosure] at h
    show captures.length < 2 ^ 32
    simp only [captureWidth, wordWidth] at h
    omega
  | _ => trivial

theorem wellFormed_toChunk {name : Option String} {constants : List Constant} (h : Sealed f)
    (hs : f.size < 2 ^ 32)
    (hfits : ∀ i span, .instruction i span ∈ f → i.op.format ≠ .jump ∧ i.Refers constants ∧
      i.Provides constants)
    {f' : Fragment} {i : Instruction} {span : Span} (hf : f = f' ++ [.instruction i span])
    (hi : i.op = .return ∨ i.op = .returnVoid ∨ i.op = .exitSuccess) :
    (f.toChunk name constants).WellFormed := by
  obtain ⟨hscan, hinstructions⟩ := instructions_toChunk name constants fun i span hm =>
    countable_of_size (Nat.lt_of_le_of_lt (size_le_of_mem hm) hs)
  refine ⟨isMarked_toChunk f name constants, by rw [hinstructions, hscan], ?_, ?_, ?_, ?_⟩
  · intro l hl hjump
    rw [hinstructions] at hl ⊢
    rcases h.located_cases hl with ⟨span, hm⟩ | ⟨f₁, b, d, span, f₂, hf, rfl⟩
    · exact absurd hjump (hfits _ span hm).1
    · exact h.target hs hf
  · intro l hl
    rw [hinstructions] at hl
    rw [constants_toChunk]
    rcases h.located_cases hl with ⟨span, hm⟩ | ⟨f₁, b, d, span, f₂, -, rfl⟩
    · exact (hfits _ span hm).2.1
    · cases b <;> trivial
  · intro l hl
    rw [hinstructions] at hl
    rw [constants_toChunk]
    rcases h.located_cases hl with ⟨span, hm⟩ | ⟨f₁, b, d, span, f₂, -, rfl⟩
    · exact (hfits _ span hm).2.2
    · cases b <;> trivial
  · rw [hinstructions, hf, located_append]
    exact ⟨⟨0 + f'.size, i⟩, by simp [located, Piece.instruction?], hi⟩

end Fragment

end StackScript
