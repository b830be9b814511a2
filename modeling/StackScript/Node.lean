import StackScript.Chunk
import StackScript.Number.Decimal
import StackScript.Range

/-!
# One layer of a value

The values of the language contain each other. `Node α` describes a single layer of a value, with
the values directly inside it of type `α`. Two types of values are made of such layers: the finite
trees of `Constant`, and the live values of a store, where a layer is looked up and may lead back to
itself.

The values directly inside a layer are its `parts`, listed in the order in which images store them,
and what remains when they are blanked out is its `shape`. A layer is determined by the two
(`Node.eq_of_shape_parts`).
-/

namespace StackScript

/-- The kinds of values. -/
inductive Kind where
  | int
  | float
  | string
  | char
  | bool
  | nil
  /-- The result of a function that returns nothing. -/
  | void
  /-- Compiled functions that are not yet closed over their surroundings. -/
  | function
  | closure
  | native
  | range
  | record
  | instanceOf
  | bound
  deriving DecidableEq, Repr

def Kind.name : Kind → String
  | .int => "int"
  | .float => "float"
  | .string => "string"
  | .char => "char"
  | .bool => "bool"
  | .nil => "nil"
  | .void => "void"
  | .function => "function"
  | .closure => "closure"
  | .native => "native function"
  | .range => "range"
  | .record => "record"
  | .instanceOf => "instance"
  | .bound => "bound method"

/-! ## What layers are made of -/

/-- A compiled function. -/
structure Function (α : Type) where
  arity : UInt32
  chunk : Chunk α
  deriving DecidableEq

/-- A captured variable. While it is open, the variable lives among the locals of the machine; once
it is closed, the cell holds its value. -/
structure Cell (α : Type) where
  /-- The slot of the variable among all locals, while the cell is open. -/
  slot : UInt32
  /-- The position of the cell among the captures of the closure that made it. -/
  position : UInt32
  /-- The value of the variable, once the cell is closed. -/
  closed : Option α := none
  deriving DecidableEq

/-- A function together with its captured variables, which are of type `κ`. -/
structure Closure (α κ : Type) where
  function : Function α
  /-- The captured variables, in the order in which the code refers to them. -/
  captures : List κ
  deriving DecidableEq

/-- A record type with methods of type `μ`. -/
structure Record (μ : Type) where
  name : String
  /-- The names of the fields, in the order in which they are given to a new instance. -/
  fields : List String
  methods : List μ
  deriving DecidableEq

/-- A function of the host. Its key tells it apart from every other host function; what it does is
known to the host alone. -/
structure Native where
  key : Nat
  name : String
  arity : UInt32
  deriving DecidableEq

/-- One layer of a value. -/
inductive Node (α : Type) where
  | int (n : Int64)
  | float (x : Double)
  | string (s : String)
  | char (c : Char)
  | bool (b : Bool)
  | nil
  | void
  | function (f : Function α)
  | closure (c : Closure α (Cell α))
  | native (n : Native)
  | range (r : Range)
  | record (r : Record (Closure α (Cell α)))
  /-- An instance: the values of its fields and its record. -/
  | instanceOf (fields : List α) (r : Record (Closure α (Cell α)))
  | bound (receiver : α) (method : Closure α (Cell α))
  deriving DecidableEq

variable {α β κ κ' μ μ' : Type}

/-! ## Names and fields -/

/-- The name of a function; one without a name is the body of a program. -/
def Function.name (f : Function α) : String := f.chunk.title

/-- The name of a closure is that of its function. -/
def Closure.name (c : Closure α κ) : String := c.function.name

/-- The position of a field. Where a name occurs more than once, its last position counts. -/
def Record.slot? (r : Record μ) (name : String) : Option Nat :=
  (r.fields.reverse.findIdx? (· == name)).map (r.fields.length - 1 - ·)

/-! ## Replacing the values inside -/

def Function.map (f : α → β) (x : Function α) : Function β := { x with chunk := x.chunk.map f }

def Cell.map (f : α → β) (x : Cell α) : Cell β := { x with closed := x.closed.map f }

/-- A closure with other constants and other captures. -/
def Closure.map (f : α → β) (g : κ → κ') (x : Closure α κ) : Closure β κ' :=
  ⟨x.function.map f, x.captures.map g⟩

def Record.map (f : μ → μ') (x : Record μ) : Record μ' := { x with methods := x.methods.map f }

/-- A closure over cells with other values inside. -/
def Closure.mapValues (f : α → β) : Closure α (Cell α) → Closure β (Cell β) := map f (Cell.map f)

def Node.map (f : α → β) : Node α → Node β
  | .int n => .int n
  | .float x => .float x
  | .string s => .string s
  | .char c => .char c
  | .bool b => .bool b
  | .nil => .nil
  | .void => .void
  | .function g => .function (g.map f)
  | .closure c => .closure (c.mapValues f)
  | .native n => .native n
  | .range r => .range r
  | .record r => .record (r.map (Closure.mapValues f))
  | .instanceOf fields r => .instanceOf (fields.map f) (r.map (Closure.mapValues f))
  | .bound receiver method => .bound (f receiver) (method.mapValues f)

/-! ## Parts and shape -/

/-- The values directly inside a function: its constants. -/
def Function.parts (x : Function α) : List α := x.chunk.constants

/-- The values directly inside a closure: those of its function, then those of its closed cells. -/
def Closure.parts (x : Closure α (Cell α)) : List α :=
  x.function.parts ++ x.captures.flatMap (·.closed.toList)

/-- The values directly inside a record: those of its methods. -/
def Record.parts (x : Record (Closure α (Cell α))) : List α := x.methods.flatMap Closure.parts

namespace Node

/-- The values directly inside a layer. Those of an instance are the values inside its record, then
those of its fields. -/
def parts : Node α → List α
  | .function f => f.parts
  | .closure c => c.parts
  | .record r => r.parts
  | .instanceOf fields r => r.parts ++ fields
  | .bound receiver method => receiver :: method.parts
  | _ => []

def shape (n : Node α) : Node Unit := n.map fun _ => ()

/-- The values of the fields of an instance; other layers have none. -/
def fields : Node α → List α
  | .instanceOf fields _ => fields
  | _ => []

def kind : Node α → Kind
  | .int _ => .int
  | .float _ => .float
  | .string _ => .string
  | .char _ => .char
  | .bool _ => .bool
  | .nil => .nil
  | .void => .void
  | .function _ => .function
  | .closure _ => .closure
  | .native _ => .native
  | .range _ => .range
  | .record _ => .record
  | .instanceOf .. => .instanceOf
  | .bound .. => .bound

/-- The text of a layer, given the texts of its fields. A field without a name or a name without a
field is not shown. -/
def text (n : Node α) (fields : List String) : String :=
  match n with
  | .int n => toString n.toInt
  | .float x => x.text
  | .string s => s
  | .char c => c.toString
  | .bool b => if b then "true" else "false"
  | .nil => "nil"
  | .void => "void"
  | .function f => "<fn " ++ f.name ++ ">"
  | .closure c => "<fn " ++ c.name ++ ">"
  | .native n => "<native fn " ++ n.name ++ ">"
  | .range r => r.text
  | .record r => "<record " ++ r.name ++ ">"
  | .instanceOf _ r =>
    let entries := List.zipWith (fun name value => " " ++ name ++ ": " ++ value) r.fields fields
    r.name ++ " \x7b" ++ String.intercalate "," entries ++ " \x7d"
  | .bound _ method => "<bound method " ++ method.name ++ ">"

end Node

/-! ## Parts under a map -/

theorem Function.parts_map (f : α → β) (x : Function α) : (x.map f).parts = x.parts.map f := rfl

theorem Closure.parts_mapValues (f : α → β) (x : Closure α (Cell α)) :
    (x.mapValues f).parts = x.parts.map f := by
  have hc (c : Cell α) : (c.map f).closed.toList = c.closed.toList.map f := by
    cases h : c.closed <;> simp [Cell.map, h]
  simp [parts, mapValues, map, Function.parts_map, List.flatMap_map, List.map_flatMap, hc]

theorem Record.parts_map (f : α → β) (x : Record (Closure α (Cell α))) :
    (x.map (Closure.mapValues f)).parts = x.parts.map f := by
  simp [parts, map, List.flatMap_map, List.map_flatMap, Closure.parts_mapValues]

/-- Replacing the values inside a layer replaces its parts. -/
theorem Node.parts_map (f : α → β) (n : Node α) : (n.map f).parts = n.parts.map f := by
  cases n <;>
    simp [map, parts, Function.parts_map, Closure.parts_mapValues, Record.parts_map]

/-! ## A layer is determined by its shape and its parts

Each lemma lets a list of further values follow the parts, so that it applies where several things
with parts stand side by side. -/

private theorem list_eq_of_blank {l m : List α} {r s : List α}
    (hs : l.map (fun _ => ()) = m.map (fun _ => ())) (hp : l ++ r = m ++ s) : l = m ∧ r = s := by
  have hl : l.length = m.length := by simpa using congrArg List.length hs
  exact List.append_inj hp hl

theorem Function.eq_of_shape_parts {x y : Function α} {r s : List α}
    (hs : x.map (fun _ => ()) = y.map (fun _ => ())) (hp : x.parts ++ r = y.parts ++ s) :
    x = y ∧ r = s := by
  obtain ⟨a, n, c, k, m⟩ := x
  obtain ⟨a', n', c', k', m'⟩ := y
  simp only [Function.map, Chunk.map, Function.mk.injEq, Chunk.mk.injEq] at hs
  obtain ⟨rfl, rfl, rfl, hk, rfl⟩ := hs
  obtain ⟨rfl, rfl⟩ := list_eq_of_blank hk hp
  exact ⟨rfl, rfl⟩

theorem Cell.eq_of_shape_parts {x y : Cell α} {r s : List α}
    (hs : x.map (fun _ => ()) = y.map (fun _ => ()))
    (hp : x.closed.toList ++ r = y.closed.toList ++ s) : x = y ∧ r = s := by
  obtain ⟨a, b, c⟩ := x
  obtain ⟨a', b', c'⟩ := y
  simp only [Cell.map, Cell.mk.injEq] at hs
  obtain ⟨rfl, rfl, hc⟩ := hs
  cases c <;> cases c' <;> simp_all

/-- What holds of the members of two lists, one by one, holds of the lists. -/
private theorem list_eq_of_shape_parts {τ σ : Type} {f : τ → σ} {p : τ → List α}
    (one : ∀ {x y : τ} {r s : List α}, f x = f y → p x ++ r = p y ++ s → x = y ∧ r = s)
    {l m : List τ} {r s : List α} (hs : l.map f = m.map f)
    (hp : l.flatMap p ++ r = m.flatMap p ++ s) : l = m ∧ r = s := by
  induction l generalizing m with
  | nil => cases m <;> simp_all
  | cons x l ih =>
    cases m with
    | nil => simp at hs
    | cons y m =>
      simp only [List.map_cons, List.cons.injEq] at hs
      simp only [List.flatMap_cons, List.append_assoc] at hp
      obtain ⟨rfl, hp'⟩ := one hs.1 hp
      obtain ⟨rfl, rfl⟩ := ih hs.2 hp'
      exact ⟨rfl, rfl⟩

theorem Closure.eq_of_shape_parts {x y : Closure α (Cell α)} {r s : List α}
    (hs : x.mapValues (fun _ => ()) = y.mapValues (fun _ => ()))
    (hp : x.parts ++ r = y.parts ++ s) : x = y ∧ r = s := by
  obtain ⟨f, c⟩ := x
  obtain ⟨f', c'⟩ := y
  simp only [Closure.mapValues, Closure.map, Closure.mk.injEq] at hs
  simp only [Closure.parts, List.append_assoc] at hp
  obtain ⟨rfl, hp'⟩ := Function.eq_of_shape_parts hs.1 hp
  obtain ⟨rfl, rfl⟩ := list_eq_of_shape_parts Cell.eq_of_shape_parts hs.2 hp'
  exact ⟨rfl, rfl⟩

theorem Record.eq_of_shape_parts {x y : Record (Closure α (Cell α))} {r s : List α}
    (hs : x.map (Closure.mapValues fun _ => ()) = y.map (Closure.mapValues fun _ => ()))
    (hp : x.parts ++ r = y.parts ++ s) : x = y ∧ r = s := by
  obtain ⟨n, f, m⟩ := x
  obtain ⟨n', f', m'⟩ := y
  simp only [Record.map, Record.mk.injEq] at hs
  obtain ⟨rfl, rfl, hm⟩ := hs
  obtain ⟨rfl, rfl⟩ := list_eq_of_shape_parts Closure.eq_of_shape_parts hm hp
  exact ⟨rfl, rfl⟩

/-- Two layers with the same shape and the same parts are the same. -/
theorem Node.eq_of_shape_parts {n m : Node α} (hs : n.shape = m.shape) (hp : n.parts = m.parts) :
    n = m := by
  cases n <;> cases m <;> simp only [shape, map, reduceCtorEq] at hs
  case function f g =>
    have := Function.eq_of_shape_parts (r := []) (s := []) (Node.function.inj hs)
      (by simpa [parts] using hp)
    rw [this.1]
  case closure f g =>
    have := Closure.eq_of_shape_parts (r := []) (s := []) (Node.closure.inj hs)
      (by simpa [parts] using hp)
    rw [this.1]
  case record f g =>
    have := Record.eq_of_shape_parts (r := []) (s := []) (Node.record.inj hs)
      (by simpa [parts] using hp)
    rw [this.1]
  case instanceOf f x g y =>
    obtain ⟨hf, hr⟩ := Node.instanceOf.inj hs
    obtain ⟨rfl, rfl⟩ := Record.eq_of_shape_parts hr hp
    rfl
  case bound a x b y =>
    simp only [parts, List.cons.injEq] at hp
    have := Closure.eq_of_shape_parts (r := []) (s := []) (Node.bound.inj hs).2
      (by simpa using hp.2)
    rw [hp.1, this.1]
  all_goals simp_all

end StackScript
