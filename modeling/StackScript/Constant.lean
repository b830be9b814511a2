import StackScript.Node

/-!
# Constants

A constant is a value that is a finite tree: nothing in it is shared, nothing changes, nothing
leads back to itself. Constants are what the compiler puts into a chunk and what an image can hold.

Equality of constants is equality of trees. It is decided layer by layer, by shape and parts
(`Constant.same`), and it is what makes a chunk store equal constants only once. Floating-point
numbers are compared as bit patterns, so that the two zeros are different constants and a pattern
that is not a number equals itself.
-/

namespace StackScript

/-! ## The values inside a layer are smaller than the layer -/

section SizeOf

variable {α : Type} [SizeOf α]

theorem Function.sizeOf_lt_of_mem_parts {f : Function α} {a : α} (h : a ∈ f.parts) :
    sizeOf a < sizeOf f := by
  obtain ⟨n, m, c, k, p⟩ := f
  have : sizeOf a < sizeOf k := List.sizeOf_lt_of_mem h
  simp only [Function.mk.sizeOf_spec, Chunk.mk.sizeOf_spec]
  omega

theorem Closure.sizeOf_lt_of_mem_parts {c : Closure α (Cell α)} {a : α} (h : a ∈ c.parts) :
    sizeOf a < sizeOf c := by
  obtain ⟨f, k⟩ := c
  simp only [Closure.parts, List.mem_append, List.mem_flatMap, Option.mem_toList] at h
  simp only [Closure.mk.sizeOf_spec]
  rcases h with h | ⟨⟨s, p, v⟩, hk, hv⟩
  · have := Function.sizeOf_lt_of_mem_parts h
    omega
  · have := List.sizeOf_lt_of_mem hk
    have : v = some a := hv
    subst this
    simp only [Cell.mk.sizeOf_spec, Option.some.sizeOf_spec] at *
    omega

theorem Record.sizeOf_lt_of_mem_parts {r : Record (Closure α (Cell α))} {a : α} (h : a ∈ r.parts) :
    sizeOf a < sizeOf r := by
  obtain ⟨n, f, m⟩ := r
  simp only [Record.parts, List.mem_flatMap] at h
  obtain ⟨c, hc, ha⟩ := h
  have := List.sizeOf_lt_of_mem hc
  have := Closure.sizeOf_lt_of_mem_parts ha
  simp only [Record.mk.sizeOf_spec]
  omega

theorem Node.sizeOf_lt_of_mem_parts {n : Node α} {a : α} (h : a ∈ n.parts) :
    sizeOf a < sizeOf n := by
  cases n <;> simp only [parts, List.not_mem_nil, List.mem_append, List.mem_cons] at h
  case function f =>
    have := Function.sizeOf_lt_of_mem_parts h
    simp only [Node.function.sizeOf_spec]
    omega
  case closure c =>
    have := Closure.sizeOf_lt_of_mem_parts h
    simp only [Node.closure.sizeOf_spec]
    omega
  case record r =>
    have := Record.sizeOf_lt_of_mem_parts h
    simp only [Node.record.sizeOf_spec]
    omega
  case instanceOf f r =>
    simp only [Node.instanceOf.sizeOf_spec]
    rcases h with h | h
    · have := Record.sizeOf_lt_of_mem_parts h
      omega
    · have := List.sizeOf_lt_of_mem h
      omega
  case bound b c =>
    simp only [Node.bound.sizeOf_spec]
    rcases h with rfl | h
    · omega
    · have := Closure.sizeOf_lt_of_mem_parts h
      omega

end SizeOf

theorem Node.mem_parts_of_mem_fields {α : Type} {n : Node α} {a : α} (h : a ∈ n.fields) :
    a ∈ n.parts := by
  cases n <;> simp_all [fields, parts]

/-! ## Constants -/

/-- A value that is a finite tree. -/
inductive Constant where
  | mk (node : Node Constant)

namespace Constant

def node : Constant → Node Constant
  | ⟨n⟩ => n

/-- A part of the outermost layer is smaller than the constant. -/
theorem sizeOf_lt_of_mem_parts {n : Node Constant} {a : Constant} (h : a ∈ n.parts) :
    sizeOf a < 1 + sizeOf n := by
  have := Node.sizeOf_lt_of_mem_parts h
  omega

def kind (c : Constant) : Kind := c.node.kind

def text : Constant → String
  | ⟨n⟩ => n.text (n.fields.attach.map fun ⟨c, h⟩ =>
      have := sizeOf_lt_of_mem_parts (Node.mem_parts_of_mem_fields h)
      text c)
termination_by c => c
decreasing_by
  simp only [mk.sizeOf_spec]
  omega

/-- Equality of trees: the same shape and, one by one, the same parts. -/
def same : Constant → Constant → Bool
  | ⟨n⟩, ⟨m⟩ =>
    n.shape == m.shape && (n.parts.zip m.parts).attach.all fun ⟨(a, b), h⟩ =>
      have := sizeOf_lt_of_mem_parts (List.of_mem_zip h).1
      same a b
termination_by c => c

theorem same_mk (n m : Node Constant) :
    same ⟨n⟩ ⟨m⟩ = (n.shape == m.shape && (n.parts.zip m.parts).all fun p => same p.1 p.2) := by
  rw [same]
  congr 1
  rw [Bool.eq_iff_iff]
  simp [List.all_eq_true]

/-- Constants are found equal exactly when they are the same tree. -/
theorem same_iff (a b : Constant) : same a b = true ↔ a = b := by
  obtain ⟨n⟩ := a
  obtain ⟨m⟩ := b
  rw [same_mk]
  simp only [Bool.and_eq_true, beq_iff_eq, List.all_eq_true, Prod.forall, mk.injEq]
  constructor
  · rintro ⟨hs, hp⟩
    apply Node.eq_of_shape_parts hs
    have hl : n.parts.length = m.parts.length := by
      have := congrArg (fun x => x.parts.length) hs
      simpa [Node.shape, Node.parts_map] using this
    apply List.ext_getElem hl
    intro i h₁ h₂
    have hz : (n.parts[i], m.parts[i]) ∈ n.parts.zip m.parts := by
      rw [← List.getElem_zip (h := by simp; omega)]
      exact List.getElem_mem _
    have := sizeOf_lt_of_mem_parts (List.of_mem_zip hz).1
    exact (same_iff _ _).1 (hp _ _ hz)
  · rintro rfl
    refine ⟨rfl, fun x y h => ?_⟩
    obtain ⟨i, hi, he⟩ := List.getElem_of_mem h
    simp only [List.getElem_zip, Prod.mk.injEq] at he
    have := sizeOf_lt_of_mem_parts (List.of_mem_zip h).1
    exact (same_iff x y).2 (he.1.symm.trans he.2)
termination_by a

instance : BEq Constant := ⟨same⟩

instance : DecidableEq Constant := fun a b => decidable_of_iff _ (same_iff a b)

instance : LawfulBEq Constant where
  eq_of_beq h := (same_iff _ _).1 h
  rfl := (same_iff _ _).2 rfl

end Constant

end StackScript
