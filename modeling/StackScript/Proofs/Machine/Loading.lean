import StackScript.Store

/-!
# Constants in a running program

`Constant.Loads` says what is known of the live value that a constant has become: a number or a text
is itself, a record without methods is an object with the same fields, and a function is an object
with the same code whose constants have been loaded in turn. Other constants do not occur in
compiled programs.
-/

namespace StackScript

variable {v : Value} {ks : List Constant} {vs : List Value} {k : Constant}

namespace Constant

/-- Constants that compiled programs do not contain. -/
def isForeign : Constant → Bool
  | ⟨.int _⟩ | ⟨.float _⟩ | ⟨.string _⟩ | ⟨.char _⟩ | ⟨.function _⟩ => false
  | ⟨.record r⟩ => !r.methods.isEmpty
  | _ => true

/-- The live value is what the constant becomes. -/
inductive Loads : Constant → Value → Prop
  | int (n : Int64) : Loads ⟨.int n⟩ (.int n)
  | float (x : Double) : Loads ⟨.float x⟩ (.float x)
  | string (s : String) : Loads ⟨.string s⟩ (.string s)
  | char (c : Char) : Loads ⟨.char c⟩ (.char c)
  | record (key : Nat) (name : String) (fields : List String) :
      Loads ⟨.record ⟨name, fields, []⟩⟩ (.record ⟨key, ⟨name, fields, []⟩⟩)
  | function (key : Nat) (f : Function Constant) (g : Function Value) :
      g.arity = f.arity → g.chunk.name = f.chunk.name → g.chunk.code = f.chunk.code →
      g.chunk.constants.length = f.chunk.constants.length →
      (∀ (i : Nat) (k : Constant) (v : Value), f.chunk.constants[i]? = some k →
        g.chunk.constants[i]? = some v → Loads k v) →
      Loads ⟨.function f⟩ (.function ⟨key, g⟩)
  | foreign {k : Constant} {v : Value} : k.isForeign = true → Loads k v

end Constant

/-- The live constants are what the constants become, one by one. -/
structure LoadsAll (ks : List Constant) (vs : List Value) : Prop where
  length : vs.length = ks.length
  loads : ∀ (i : Nat) (k : Constant) (v : Value), ks[i]? = some k → vs[i]? = some v → k.Loads v

/-- A constant that is there has become a value. -/
theorem LoadsAll.get (h : LoadsAll ks vs) {i : Nat} (hk : ks[i]? = some k) :
    ∃ v, vs[i]? = some v ∧ k.Loads v := by
  have hi : i < vs.length := by
    rw [h.length]
    exact (List.getElem?_eq_some_iff.1 hk).1
  exact ⟨vs[i], List.getElem?_eq_getElem hi, h.loads i k _ hk (List.getElem?_eq_getElem hi)⟩

theorem LoadsAll.nil : LoadsAll [] [] := ⟨rfl, fun _ _ _ h _ => by simp at h⟩

theorem LoadsAll.cons (h : k.Loads v) (hs : LoadsAll ks vs) : LoadsAll (k :: ks) (v :: vs) := by
  refine ⟨by simp [hs.length], fun i k' v' hk hv => ?_⟩
  cases i with
  | zero =>
    obtain rfl : k = k' := by simpa using hk
    obtain rfl : v = v' := by simpa using hv
    exact h
  | succ i => exact hs.loads i k' v' (by simpa using hk) (by simpa using hv)

/-- The live function has the code of the function, and its constants are loaded. -/
structure Function.Loads (f : Function Constant) (g : Function Value) : Prop where
  arity : g.arity = f.arity
  name : g.chunk.name = f.chunk.name
  code : g.chunk.code = f.chunk.code
  constants : LoadsAll f.chunk.constants g.chunk.constants

theorem Constant.Loads.of_function {f : Function Constant} (h : Constant.Loads ⟨.function f⟩ v) :
    ∃ key g, v = .function ⟨key, g⟩ ∧ f.Loads g := by
  cases h with
  | function key _ g ha hn hc hl hk => exact ⟨key, g, rfl, ha, hn, hc, hl, hk⟩
  | foreign h => simp [Constant.isForeign] at h

theorem Constant.Loads.of_record {name : String} {fields : List String}
    (h : Constant.Loads ⟨.record ⟨name, fields, []⟩⟩ v) :
    ∃ r, v = .record r ∧ r.body.methods.isEmpty = true := by
  cases h with
  | record key => exact ⟨_, rfl, rfl⟩
  | foreign h => simp [Constant.isForeign] at h

mutual

/-- Loading a constant gives what it becomes. -/
theorem Constant.loads_load : (k : Constant) → (s : Store) → k.Loads (k.load s).1
  | ⟨.int n⟩, _ => .int n
  | ⟨.float x⟩, _ => .float x
  | ⟨.string t⟩, _ => .string t
  | ⟨.char c⟩, _ => .char c
  | ⟨.function ⟨arity, ⟨name, code, constants, marks⟩⟩⟩, s => by
    have h := loadsAll_loadAll constants s
    exact .function _ _ ⟨arity, ⟨name, code, (loadAll constants s).1, marks⟩⟩ rfl rfl rfl h.length
      h.loads
  | ⟨.record ⟨name, fields, []⟩⟩, s => .record s.fresh name fields
  | ⟨.record ⟨_, _, _ :: _⟩⟩, _ => .foreign rfl
  | ⟨.bool _⟩, _ | ⟨.nil⟩, _ | ⟨.void⟩, _ | ⟨.closure _⟩, _ | ⟨.native _⟩, _ | ⟨.range _⟩, _
  | ⟨.instanceOf _ _⟩, _ | ⟨.bound _ _⟩, _ => .foreign rfl

theorem loadsAll_loadAll : (ks : List Constant) → (s : Store) → LoadsAll ks (loadAll ks s).1
  | [], _ => .nil
  | k :: ks, s => .cons (k.loads_load s) (loadsAll_loadAll ks _)

end

theorem Chunk.loads_load (chunk : Chunk Constant) (s : Store) :
    Function.Loads ⟨0, chunk⟩ ⟨0, (chunk.load s).1⟩ :=
  ⟨rfl, rfl, rfl, loadsAll_loadAll chunk.constants s⟩

end StackScript
