import StackScript.Proofs.Code.Placement
import StackScript.Proofs.Machine.Contents
import StackScript.Proofs.Machine.Loading

/-!
# The flow of stack types

What a function has on the stack above its base is described, from the top down, by a list of slots.
For each instruction, `Flow` says which stack types it can be executed on and which types its
successors must then accept. An offset is `Safe` for a number of steps when the instruction there
can be executed and all successors are safe for one step less. So also backward jumps can be
followed, and no table of types for all offsets is needed.
-/

namespace StackScript

variable {site : Site} {τ : List Slot} {ip n : Nat}

/-- What is known of a value on the stack. -/
inductive Slot where
  /-- Any value. -/
  | any
  /-- A boolean. -/
  | bool
  /-- A range. -/
  | range
  /-- A closure. -/
  | closure
  /-- A record. -/
  | record
  deriving DecidableEq, Repr

/-- The value is as the slot says. -/
def Slot.admits : Slot → Value → Prop
  | .any, _ => True
  | .bool, v => ∃ b, v = .bool b
  | .range, v => ∃ r, v = .range r
  | .closure, v => ∃ c, v = .closure c
  | .record, v => ∃ r, v = .record r

/-- A function at work: its code, the number of variables it has captured, and whether it is the
program itself. -/
structure Site where
  function : Function Value
  captures : Nat
  isProgram : Bool

abbrev Site.code (site : Site) : Code := site.function.chunk.code

/-- The constant with an index is a name. -/
def Site.HasName (site : Site) (index : UInt32) : Prop :=
  ∃ name, site.function.chunk.constants[index.toNat]? = some (.string name)

/-- The instruction can be executed on a stack of the given type, and leads to places where `S`
holds; the functions that it makes closures of satisfy `E`. -/
def Flow (site : Site) (S : Nat → List Slot → Prop) (E : Site → Prop) (next : Nat) :
    (op : Opcode) → op.format.Args → List Slot → Prop
  | .pushConst, index, τ => ∃ v s, site.function.chunk.constants[index.toNat]? = some v ∧
      v.isDatum = true ∧ s.admits v ∧ S next (s :: τ)
  | .pushClosure, (index, captures), τ =>
      ∃ f, site.function.chunk.constants[index.toNat]? = some (.function f) ∧
        (∀ c ∈ captures, c.fromLocal = false → c.index.toNat < site.captures) ∧
        E ⟨f.body, captures.length, false⟩ ∧ (S next (.any :: τ) ∨ S next (.closure :: τ))
  | .pushTrue, _, τ | .pushFalse, _, τ => S next (.any :: τ) ∨ S next (.bool :: τ)
  | .pushNil, _, τ | .pushVoid, _, τ | .getLocal, _, τ | .getGlobal, _, τ => S next (.any :: τ)
  | .pop, _, τ | .defLocal, _, τ | .defGlobal, _, τ => ∃ s σ, τ = s :: σ ∧ S next σ
  | .popLocal, _, τ | .popnLocal, _, τ | .closeUpvalue, _, τ => S next τ
  | .getUpvalue, index, τ => index.toNat < site.captures ∧ S next (.any :: τ)
  | .setUpvalue, index, τ => index.toNat < site.captures ∧ ∃ s σ, τ = s :: σ ∧ S next (.any :: σ)
  | .setLocal, _, τ | .setGlobal, _, τ | .neg, _, τ | .not, _, τ | .assertBool, _, τ =>
      ∃ s σ, τ = s :: σ ∧ S next (.any :: σ)
  | .getProperty, index, τ => site.HasName index ∧ ∃ s σ, τ = s :: σ ∧ S next (.any :: σ)
  | .setProperty, index, τ => site.HasName index ∧ ∃ s t σ, τ = s :: t :: σ ∧ S next (.any :: σ)
  | .call, argc, τ => ∃ args s σ, τ = args ++ s :: σ ∧ args.length = argc.toNat ∧
      S next (.any :: σ)
  | .callProperty, (index, argc), τ => site.HasName index ∧
      ∃ args s σ, τ = args ++ s :: σ ∧ args.length = argc.toNat ∧ S next (.any :: σ)
  | .appendMethods, n, τ =>
      ∃ σ, τ = List.replicate n.toNat .closure ++ .record :: σ ∧ S next (.any :: σ)
  | .jump, distance, τ => S (next + distance.toNat) τ
  | .jumpTrue, distance, τ | .jumpFalse, distance, τ =>
      ∃ s σ, τ = s :: σ ∧ (s = .any ∨ s = .bool) ∧ S next (.any :: σ) ∧
        S (next + distance.toNat) (.any :: σ)
  | .jumpHasNoNext, distance, τ => ∃ σ, τ = .range :: σ ∧ S next τ ∧ S (next + distance.toNat) τ
  | .loop, distance, τ => distance.toNat ≤ next ∧ τ.head? ≠ some .any ∧ S (next - distance.toNat) τ
  | .add, _, τ | .sub, _, τ | .mul, _, τ | .div, _, τ | .mod, _, τ | .eq, _, τ | .ne, _, τ
  | .lt, _, τ | .le, _, τ | .gt, _, τ | .ge, _, τ | .and, _, τ | .or, _, τ | .makeRange, _, τ
  | .makeInclRange, _, τ => ∃ s t σ, τ = s :: t :: σ ∧ S next (.any :: σ)
  | .makeIterator, _, τ => ∃ s σ, τ = s :: σ ∧ S next (.range :: σ)
  | .getNext, _, τ => ∃ σ, τ = .range :: σ ∧ S next (.any :: τ)
  | .advance, _, τ => ∃ σ, τ = .range :: σ ∧ S next τ
  | .return, _, τ => ∃ s σ, τ = s :: σ
  | .returnVoid, _, _ => True
  | .exitSuccess, _, τ => site.isProgram = true ∧ τ = []

/-- From the offset on, with a stack of the given type, the function can be run for a number of
steps. -/
def Safe : (n : Nat) → (site : Site) → (ip : Nat) → List Slot → Prop
  | 0, _, _, _ => True
  | n + 1, site, ip, τ => ∃ i next, Machine.fetch site.function.chunk ip = .ok (i, next) ∧
      Flow site (Safe n site) (fun site' => Safe n site' 0 []) next i.op i.args τ

theorem Safe.flow {i : Instruction} {next : Nat} (h : Safe (n + 1) site ip τ)
    (hf : Machine.fetch site.function.chunk ip = .ok (i, next)) :
    Flow site (Safe n site) (fun site' => Safe n site' 0 []) next i.op i.args τ := by
  obtain ⟨i', next', hf', hflow⟩ := h
  rw [hf] at hf'
  cases hf'
  exact hflow

theorem Flow.mono {S S' : Nat → List Slot → Prop} {E E' : Site → Prop} {next : Nat} {op : Opcode}
    {args : op.format.Args} (hS : ∀ ip σ, S ip σ → S' ip σ) (hE : ∀ site', E site' → E' site')
    (h : Flow site S E next op args τ) : Flow site S' E' next op args τ := by
  cases op <;> simp only [Flow] at h ⊢ <;> grind

/-- What is safe for more steps is safe for fewer. -/
theorem Safe.pred (h : Safe (n + 1) site ip τ) : Safe n site ip τ := by
  induction n generalizing site ip τ with
  | zero => trivial
  | succ n ih =>
    obtain ⟨i, next, hf, hflow⟩ := h
    exact ⟨i, next, hf, hflow.mono (fun _ _ => ih) fun _ => ih⟩

theorem Safe.anti {m : Nat} (h : Safe n site ip τ) (hm : m ≤ n) : Safe m site ip τ := by
  induction n with
  | zero =>
    obtain rfl : m = 0 := by omega
    exact h
  | succ n ih =>
    rcases Nat.lt_or_ge n m with hn | hn
    · obtain rfl : m = n + 1 := by omega
      exact h
    · exact ih h.pred hn

end StackScript
