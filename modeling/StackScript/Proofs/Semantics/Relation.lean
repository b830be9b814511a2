import Mathlib.Data.List.Nodup
import StackScript.Proofs.Lowering.Scoping
import StackScript.Proofs.Safety.Soundness

/-!
# A machine beside an evaluation

A machine keeps variables in slots and cells, evaluation in places. Two lists that exist for the
proof alone say which belongs to which: `L` has the place of every local of the machine, and `γ` the
place of every cell that was made since the start. When a captured local is dropped its cell is
closed, and the place of the variable is then in `γ` only.

A closure of the machine matches a function of the evaluation when it was compiled from its text and
its cells lead to the places of the variables that the text can see.
-/

namespace StackScript

namespace Store

theorem shown_of_fields {s : Store} {v : Value} (h : (s.node v).fields = []) :
    s.shown v = ⟨v.kind, (s.node v).text []⟩ := by
  have hdeep : s.isDeep showDepth v = false := by
    show (s.node v).fields.any (s.isDeep 63) = false
    rw [h]
    rfl
  have htext : s.text (showDepth + 1) v = (s.node v).text [] := by
    show (s.node v).text ((s.node v).fields.map (s.text showDepth)) = _
    rw [h]
    rfl
  unfold shown
  rw [hdeep, htext]
  rfl

end Store

namespace Semantics

open Lowering
open Fragment (emit)

/-! ## Functions and their code -/

def Body.size : Body → Nat
  | .block body => Stmt.sizes body
  | .value e => e.size

def Body.isPlain : Body → Bool
  | .block body => Stmt.arePlain body
  | .value e => e.isPlain

def Body.lower (strip : Bool) (span : Span) : Body → Lower Fragment
  | .block body => Lowering.statements strip none body
  | .value e => do
    let code ← Lowering.expression strip e
    return code ++ emit ⟨.return, ()⟩ span

theorem Body.evolves_lower (strip : Bool) (span : Span) (body : Body) :
    Evolves body.size (body.lower strip span) := by
  cases body with
  | block body => exact evolves_statements strip none body
  | value e => exact (evolves_expression strip e).andReturn _

/-- The code of a function behind its parameters, and the context at its end, where it is compiled
in a context. -/
def Lambda.compiled (code : Lambda) (strip : Bool) (span : Span) (c : Context) : Fragment × Context :=
  withParams code.params (code.body.lower strip span) (c.inside "")

/-- The code that makes a closure of a function. -/
def Lambda.lower (code : Lambda) (strip : Bool) (span : Span) : Lower Fragment :=
  function code.name "" code.params span (code.body.lower strip span)

/-- The constant that a function becomes. -/
def Lambda.constant (code : Lambda) (strip : Bool) (span : Span) (c : Context) : Function Constant :=
  ⟨code.params.length.toUInt32, (returning (code.compiled strip span c).1 span).toChunk
    (some code.name) (code.compiled strip span c).2.frame.constants⟩

/-! ## Values -/

/-- A host and a setting that describes it, with the bounds that make all numbers of locals, of
constants and of globals fit into operands. Cells from `base` on are made by the program, and its
functions have keys that are greater by `shift` in the machine. -/
structure Pairing where
  host : Host
  setting : Setting
  limit : Nat
  base : Nat
  shift : Nat
  describes : setting.host.Describes host
  distinct : setting.globals.Nodup
  small : Machine.maxFrames * limit ≤ 2 ^ 32
  countable : setting.globals.length ≤ 2 ^ 32

namespace Pairing

/-- Whether statements without effect are left out. -/
abbrev strip (A : Pairing) : Bool := A.setting.strip

variable (A : Pairing) (γ L : List Nat)
variable {ref : CellRef} {p : Nat} {γ' : List Nat}

/-- The cell belongs to the place. -/
def Leads (ref : CellRef) (place : Nat) : Prop :=
  A.base ≤ ref.index ∧ γ[ref.index - A.base]? = some place

/-- The live function is compiled from the text in a context. -/
structure Compiled (code : Lambda) (g : Function Value) (c : Context) (span : Span) : Prop where
  clean : (code.compiled A.strip span c).2.Clean
  room : (c.inside "").Room A.limit (code.params.length + code.body.size)
  linked : Linked c.frame c.enclosing
  near : (returning (code.compiled A.strip span c).1 span).farJump? 0 = none
  loads : (code.constant A.strip span c).Loads g
  names : c.globals.names = A.setting.globals
  plain : code.body.isPlain = true

/-- The cells belong to the places of the captured variables. -/
structure Captured (refs : List CellRef) (captures : List Capture) (enclosing : List Lowering.Frame)
    (env : Env) : Prop where
  names : env.map Prod.fst = namesOf enclosing
  cells : ∀ (i : Nat) (x : Capture), captures[i]? = some x → ∃ ref p e, refs[i]? = some ref ∧
    target enclosing x = some p ∧ env[p]? = some e ∧ A.Leads γ ref e.2

/-- The value of the machine matches that of the evaluation. -/
def Matches (v : Value) : Val → Prop
  | .datum u => v = u ∧ (u.isScalar = true ∨ ∃ native, u = .native native)
  | .closure key code env => ∃ g refs c span, v = .closure ⟨key + A.shift, ⟨g, refs⟩⟩ ∧
    A.Compiled code g c span ∧
    A.Captured γ refs (code.compiled A.strip span c).2.frame.captures
      (code.compiled A.strip span c).2.enclosing env

variable {A γ L}

theorem Leads.mono (h : A.Leads γ ref p) (hγ : γ <+: γ') : A.Leads γ' ref p := by
  obtain ⟨rest, rfl⟩ := hγ
  refine ⟨h.1, ?_⟩
  rw [List.getElem?_append_left (List.getElem?_eq_some_iff.1 h.2).1]
  exact h.2

theorem Leads.mem (h : A.Leads γ ref p) : p ∈ γ :=
  List.mem_of_getElem? h.2

theorem Captured.mono {refs : List CellRef} {captures : List Capture}
    {enclosing : List Lowering.Frame} {env : Env} (h : A.Captured γ refs captures enclosing env)
    (hγ : γ <+: γ') : A.Captured γ' refs captures enclosing env := by
  refine ⟨h.names, fun i x hx => ?_⟩
  obtain ⟨ref, p, e, hr, ht, he, hl⟩ := h.cells i x hx
  exact ⟨ref, p, e, hr, ht, he, hl.mono hγ⟩

theorem Matches.mono {v : Value} {x : Val} (h : A.Matches γ v x) (hγ : γ <+: γ') :
    A.Matches γ' v x := by
  cases x with
  | datum u => exact h
  | closure key code env =>
    obtain ⟨g, refs, c, span, hv, hc, hl⟩ := h
    exact ⟨g, refs, c, span, hv, hc, hl.mono hγ⟩

theorem matches_scalar {u : Value} (h : u.isScalar = true) : A.Matches γ u (.datum u) :=
  ⟨rfl, .inl h⟩

/-! ## What operators see -/

theorem Compiled.name_eq {code : Lambda} {g : Function Value} {c : Context} {span : Span}
    (h : A.Compiled code g c span) : g.name = code.name := by
  have hname : g.chunk.name = some code.name := by
    rw [h.loads.name]
    exact Fragment.name_toChunk _ _ _
  unfold Function.name Chunk.title
  rw [hname]
  rfl

section View

variable {v v' : Value} {x x' : Val}

theorem Matches.view (h : A.Matches γ v x) : (v = x.view ∧ v.kind ≠ .closure) ∨
    ∃ a b, v = .closure a ∧ x.view = .closure b ∧ a.key = b.key + A.shift ∧
      a.body.name = b.body.name := by
  cases x with
  | datum u =>
    obtain ⟨rfl, hu⟩ := h
    refine .inl ⟨rfl, ?_⟩
    rcases hu with hu | ⟨native, rfl⟩
    · intro hk
      cases v <;> first | (cases hk; done) | cases hu
    · nofun
  | closure key code env =>
    obtain ⟨g, refs, c, span, rfl, hc, -⟩ := h
    exact .inr ⟨_, _, rfl, rfl, rfl, hc.name_eq⟩

theorem Matches.kind (h : A.Matches γ v x) : v.kind = x.view.kind := by
  rcases h.view with ⟨rfl, -⟩ | ⟨a, b, rfl, hx, -⟩
  · rfl
  · rw [hx]
    rfl

theorem Matches.asBool? (h : A.Matches γ v x) : v.asBool? = x.view.asBool? := by
  rcases h.view with ⟨rfl, -⟩ | ⟨a, b, rfl, hx, -⟩
  · rfl
  · rw [hx]
    rfl

theorem Matches.shown (h : A.Matches γ v x) (s : Store) : s.shown v = x.shown := by
  cases x with
  | datum u =>
    obtain ⟨rfl, hu⟩ := h
    have hnode : s.node v = Store.node {} v ∧ (s.node v).fields = [] := by
      rcases hu with hu | ⟨native, rfl⟩
      · cases v <;> first | exact ⟨rfl, rfl⟩ | cases hu
      · exact ⟨rfl, rfl⟩
    show s.shown v = Store.shown {} v
    rw [Store.shown_of_fields hnode.2, Store.shown_of_fields (by rw [← hnode.1]; exact hnode.2), hnode.1]
  | closure key code env =>
    obtain ⟨g, refs, c, span, rfl, hc, -⟩ := h
    have hname : (⟨g, refs⟩ : Value.Code).name = code.name := hc.name_eq
    unfold Val.shown
    rw [Store.shown_of_fields rfl, Store.shown_of_fields rfl]
    show (⟨Kind.closure, "<fn " ++ (⟨g, refs⟩ : Value.Code).name ++ ">"⟩ : Shown) = _
    rw [hname]
    rfl

theorem Matches.refused {f : Value → Value → Except Fault Value} (what : String)
    (hleft : ∀ a u, f (.closure a) u = .error (.typeMismatch what .closure u.kind))
    (hright : ∀ u a, f u (.closure a) = .error (.typeMismatch what u.kind .closure))
    (h : A.Matches γ v x) (h' : A.Matches γ v' x') : f v v' = f x.view x'.view := by
  rcases h.view with ⟨hv, -⟩ | ⟨a, b, hv, hx, -⟩
  · rcases h'.view with ⟨hv', -⟩ | ⟨a', b', hv', hx', -⟩
    · rw [hv, hv']
    · rw [hv', hx', hright, hright, hv]
  · rw [hv, hx, hleft, hleft, h'.kind]

theorem Matches.arithmetic (h : A.Matches γ v x) (h' : A.Matches γ v' x') (op : Arithmetic) :
    Machine.arithmetic op v v' = Machine.arithmetic op x.view x'.view := by
  refine h.refused op.symbol (fun a u => ?_) (fun u a => ?_) h'
  · cases op <;> rfl
  · cases u <;> cases op <;> rfl

theorem Matches.equals (h : A.Matches γ v x) (h' : A.Matches γ v' x') :
    v.equals v' = x.view.equals x'.view := by
  have hleft (a : Value.Method) {u : Value} (hu : u.kind ≠ .closure) :
      Value.equals (.closure a) u = false := by
    cases u <;> first | rfl | exact absurd rfl hu
  have hright (a : Value.Method) {u : Value} (hu : u.kind ≠ .closure) :
      Value.equals u (.closure a) = false := by
    cases u <;> first | rfl | exact absurd rfl hu
  rcases h.view with ⟨hv, hk⟩ | ⟨a, b, hv, hx, hkey, -⟩
  · rcases h'.view with ⟨hv', -⟩ | ⟨a', b', hv', hx', -⟩
    · rw [hv, hv']
    · rw [hv', hx', hright a' hk, hright b' (by rwa [← hv])]
  · rcases h'.view with ⟨hv', hk'⟩ | ⟨a', b', hv', hx', hkey', -⟩
    · rw [hv, hx, hleft a hk', hleft b (by rwa [← hv'])]
    · rw [hv, hx, hv', hx']
      show (a.key == a'.key) = (b.key == b'.key)
      rw [hkey, hkey']
      simp

theorem Matches.compared (h : A.Matches γ v x) (h' : A.Matches γ v' x') (op : Opcode)
    (accept : Ordering → Bool) :
    Machine.compared op accept v v' = Machine.compared op accept x.view x'.view :=
  h.refused op.mnemonic (fun _ u => by cases u <;> rfl) (fun u _ => by cases u <;> rfl) h'

theorem Matches.connected (h : A.Matches γ v x) (h' : A.Matches γ v' x') (op : Opcode)
    (f : Bool → Bool → Bool) :
    Semantics.connected op f v v' = Semantics.connected op f x.view x'.view := by
  unfold Semantics.connected
  rw [h.asBool?, h'.asBool?, h.kind, h'.kind]

theorem Matches.ranged (h : A.Matches γ v x) (h' : A.Matches γ v' x') (inclusive : Bool) :
    Semantics.ranged inclusive v v' = Semantics.ranged inclusive x.view x'.view :=
  h.refused (if inclusive then Opcode.makeInclRange else .makeRange).mnemonic
    (fun _ u => by cases u <;> rfl) (fun u _ => by cases u <;> rfl) h'

/-- Operators on two values see no difference. -/
theorem Matches.binary (h : A.Matches γ v x) (h' : A.Matches γ v' x') (op : BinaryOp) :
    Semantics.binary op v v' = Semantics.binary op x.view x'.view := by
  cases op with
  | arithmetic op => exact h.arithmetic h' op
  | equal | notEqual =>
    simp only [Semantics.binary]
    rw [h.equals h']
  | less | lessEqual | greater | greaterEqual => exact h.compared h' _ _
  | and | or => exact h.connected h' _ _

/-- Operators on one value see no difference. -/
theorem Matches.unary (h : A.Matches γ v x) (op : UnaryOp) :
    Semantics.unary op v = Semantics.unary op x.view := by
  cases op with
  | negate =>
    rcases h.view with ⟨hv, -⟩ | ⟨a, b, hv, hx, -⟩
    · rw [hv]
    · rw [hv, hx]
      rfl
  | not =>
    simp only [Semantics.unary]
    rw [h.asBool?, h.kind]

end View

/-! ## States -/

variable (A γ L)

/-- The variables, the globals and the recorded calls of a machine are those of an evaluation. The
last place of `L` may be that of a local that the machine is about to add. -/
structure Rel (s : Store) (ls gs : Array Value) (os : List CellRef) (cs : List HostCall)
    (w : World) : Prop where
  locals : ∀ (i : Nat) (v : Value) (p : Nat), ls[i]? = some v → L[i]? = some p →
    ∃ x, w.places[p]? = some x ∧ A.Matches γ v x
  size : ls.size ≤ L.length
  distinct : L.Nodup
  bound : ∀ p ∈ L, p < w.places.length
  cells : s.cells.size = A.base + γ.length
  cellsDistinct : γ.Nodup
  cellsBound : ∀ p ∈ γ, p < w.places.length
  closed : ∀ ref p v, A.Leads γ ref p → (s.cell ref).closed = some v →
    p ∉ L ∧ ∃ x, w.places[p]? = some x ∧ A.Matches γ v x
  opened : ∀ ref p, A.Leads γ ref p → (s.cell ref).closed = none →
    ref ∈ os ∧ L[(s.cell ref).slot.toNat]? = some p
  openCells : ∀ ref ∈ os, ∃ p, A.Leads γ ref p ∧ (s.cell ref).closed = none
  globals : ∀ (i : Nat) (v : Value) (g : String × Val), gs[i]? = some v →
    w.globals[i]? = some g → A.Matches γ v g.2
  count : gs.size = w.globals.length
  names : w.globals.map Prod.fst <+: A.setting.globals
  fresh : s.fresh = w.fresh + A.shift
  calls : cs = w.calls

variable {A γ L} {s : Store} {ls gs : Array Value} {os : List CellRef} {cs : List HostCall} {w : World}

theorem Leads.lt (h : A.Leads γ ref p) (hr : A.Rel γ L s ls gs os cs w) :
    ref.index < s.cells.size := by
  have hi := (List.getElem?_eq_some_iff.1 h.2).1
  have hb := h.1
  rw [hr.cells]
  omega

/-- Different cells belong to different places. -/
theorem Leads.unique {ref' : CellRef} (h : A.Leads γ ref p) (h' : A.Leads γ ref' p) (hd : γ.Nodup) :
    ref = ref' := by
  obtain ⟨hi, hp⟩ := List.getElem?_eq_some_iff.1 h.2
  obtain ⟨hi', hp'⟩ := List.getElem?_eq_some_iff.1 h'.2
  have he := (hd.getElem_inj_iff).1 (hp.trans hp'.symm)
  have hb := h.1
  have hb' := h'.1
  obtain ⟨i⟩ := ref
  obtain ⟨j⟩ := ref'
  simp only [CellRef.mk.injEq]
  simp only at he hb hb'
  omega

namespace Rel

variable {p slot : Nat} {v : Value} {x : Val} {name : String}

/-- The index of a place among the locals is unique. -/
theorem index_unique (h : A.Rel γ L s ls gs os cs w) {i j : Nat} (hi : L[i]? = some p)
    (hj : L[j]? = some p) : i = j := by
  obtain ⟨hi, hpi⟩ := List.getElem?_eq_some_iff.1 hi
  obtain ⟨hj, hpj⟩ := List.getElem?_eq_some_iff.1 hj
  exact (h.distinct.getElem_inj_iff).1 (hpi.trans hpj.symm)

/-- A new place can be that of the local to come. -/
theorem reserve (h : A.Rel γ L s ls gs os cs w) (hsize : ls.size = L.length) (x : Val) :
    A.Rel γ (L ++ [w.places.length]) s ls gs os cs { w with places := w.places ++ [x] } := by
  have hkeep {p : Nat} {y : Val} (hy : w.places[p]? = some y) : (w.places ++ [x])[p]? = some y := by
    rw [List.getElem?_append_left (List.getElem?_eq_some_iff.1 hy).1]
    exact hy
  have hlt {p : Nat} (hp : p < w.places.length) : p < (w.places ++ [x]).length := by
    rw [List.length_append]
    exact Nat.lt_add_right _ hp
  exact
    { h with
      locals := by
        intro i v p hv hp
        have hi : i < ls.size := (Array.getElem?_eq_some_iff.1 hv).1
        rw [List.getElem?_append_left (by omega)] at hp
        obtain ⟨y, hy, hm⟩ := h.locals i v p hv hp
        exact ⟨y, hkeep hy, hm⟩
      size := by
        rw [List.length_append]
        exact Nat.le_add_right_of_le h.size
      distinct := by
        refine List.nodup_append.2 ⟨h.distinct, List.nodup_singleton _, fun p hp q hq => ?_⟩
        rw [List.mem_singleton.1 hq]
        exact Nat.ne_of_lt (h.bound p hp)
      bound := by
        intro p hp
        rcases List.mem_append.1 hp with hp | hp
        · exact hlt (h.bound p hp)
        · rw [List.mem_singleton.1 hp]
          simp
      cellsBound := fun p hp => hlt (h.cellsBound p hp)
      closed := by
        intro ref p v hl hc
        obtain ⟨hp, y, hy, hm⟩ := h.closed ref p v hl hc
        refine ⟨fun hmem => ?_, y, hkeep hy, hm⟩
        rcases List.mem_append.1 hmem with hmem | hmem
        · exact hp hmem
        · exact Nat.ne_of_lt (h.cellsBound p hl.mem) (List.mem_singleton.1 hmem)
      opened := by
        intro ref p hl hc
        obtain ⟨ho, hs⟩ := h.opened ref p hl hc
        refine ⟨ho, ?_⟩
        rw [List.getElem?_append_left (List.getElem?_eq_some_iff.1 hs).1]
        exact hs }

/-- The local to come is added. -/
theorem fill (h : A.Rel γ L s ls gs os cs w) (hp : L[ls.size]? = some p)
    (hx : w.places[p]? = some x) (hv : A.Matches γ v x) : A.Rel γ L s (ls.push v) gs os cs w := by
  refine { h with locals := ?_, size := ?_ }
  · intro i u q hu hq
    rw [Array.getElem?_push] at hu
    split at hu
    · rename_i hi
      subst hi
      obtain rfl := Option.some.inj hu
      obtain rfl := Option.some.inj (hp.symm.trans hq)
      exact ⟨x, hx, hv⟩
    · exact h.locals i u q hu hq
  · rw [Array.size_push]
    exact (List.getElem?_eq_some_iff.1 hp).1

/-- A local and its place get a new value. -/
theorem assign (h : A.Rel γ L s ls gs os cs w) {i : Nat} (hp : L[i]? = some p)
    (hv : A.Matches γ v x) :
    A.Rel γ L s (ls.setIfInBounds i v) gs os cs { w with places := w.places.set p x } := by
  have hpb := h.bound p (List.mem_of_getElem? hp)
  have hkeep {q : Nat} (hne : q ≠ p) := List.getElem?_set_ne (l := w.places) (a := x) hne.symm
  exact
    { h with
      locals := by
        intro j u q hu hq
        rw [Array.getElem?_setIfInBounds] at hu
        split at hu
        · rename_i hij
          subst hij
          split at hu
          · obtain rfl := Option.some.inj hu
            obtain rfl := Option.some.inj (hp.symm.trans hq)
            exact ⟨x, by rw [List.getElem?_set_self hpb], hv⟩
          · cases hu
        · rename_i hij
          obtain ⟨y, hy, hm⟩ := h.locals j u q hu hq
          refine ⟨y, (hkeep fun hqp => hij ?_).trans hy, hm⟩
          subst hqp
          exact h.index_unique hp hq
      size := by
        rw [Array.size_setIfInBounds]
        exact h.size
      bound := by
        intro q hq
        rw [List.length_set]
        exact h.bound q hq
      cellsBound := by
        intro q hq
        rw [List.length_set]
        exact h.cellsBound q hq
      closed := by
        intro ref q u hl hc
        obtain ⟨hq, y, hy, hm⟩ := h.closed ref q u hl hc
        refine ⟨hq, y, (hkeep fun hqp => hq ?_).trans hy, hm⟩
        rw [hqp]
        exact List.mem_of_getElem? hp }

/-- A closed cell and its place get a new value. -/
theorem assignCell (h : A.Rel γ L s ls gs os cs w) {ref : CellRef} {u : Value}
    (hl : A.Leads γ ref p) (hc : (s.cell ref).closed = some u) (hv : A.Matches γ v x) :
    A.Rel γ L (s.setCell ref { s.cell ref with closed := some v }) ls gs os cs
      { w with places := w.places.set p x } := by
  have hcell (ref' : CellRef) := s.cell_setCell ref ref' { s.cell ref with closed := some v } (hl.lt h)
  obtain ⟨hpL, -⟩ := h.closed ref p u hl hc
  have hpb := h.cellsBound p hl.mem
  have hkeep {q : Nat} (hne : q ≠ p) := List.getElem?_set_ne (l := w.places) (a := x) hne.symm
  exact
    { h with
      locals := by
        intro j a q ha hq
        obtain ⟨y, hy, hm⟩ := h.locals j a q ha hq
        refine ⟨y, (hkeep fun hqp => hpL ?_).trans hy, hm⟩
        rw [← hqp]
        exact List.mem_of_getElem? hq
      bound := by
        intro q hq
        rw [List.length_set]
        exact h.bound q hq
      cells := by
        rw [← h.cells]
        simp [Store.setCell]
      cellsBound := by
        intro q hq
        rw [List.length_set]
        exact h.cellsBound q hq
      closed := by
        intro ref' q a hl' ha
        rw [hcell] at ha
        by_cases he : ref' = ref
        · subst he
          rw [if_pos rfl] at ha
          obtain rfl := Option.some.inj ha
          obtain rfl := Option.some.inj (hl.2.symm.trans hl'.2)
          exact ⟨hpL, x, by rw [List.getElem?_set_self hpb], hv⟩
        · rw [if_neg he] at ha
          obtain ⟨hq, y, hy, hm⟩ := h.closed ref' q a hl' ha
          refine ⟨hq, y, (hkeep fun hqp => he ?_).trans hy, hm⟩
          subst hqp
          exact hl'.unique hl h.cellsDistinct
      opened := by
        intro ref' q hl' ha
        rw [hcell] at ha ⊢
        by_cases he : ref' = ref
        · rw [if_pos he] at ha
          cases ha
        · rw [if_neg he] at ha ⊢
          exact h.opened ref' q hl' ha
      openCells := by
        intro ref' hr
        obtain ⟨q, hq, ho⟩ := h.openCells ref' hr
        refine ⟨q, hq, ?_⟩
        rw [hcell]
        by_cases he : ref' = ref
        · subst he
          rw [hc] at ho
          cases ho
        · rw [if_neg he]
          exact ho }

theorem truncate (h : A.Rel γ L s ls gs os cs w) (hsize : ls.size = L.length) (n : Nat) :
    A.Rel γ (L.take n)
      ((os.partition fun ref => (s.cell ref).slot.toNat < n).2.foldl (Machine.closeCell ls) s)
      (ls.shrink n) gs (os.partition fun ref => (s.cell ref).slot.toNat < n).1 cs w := by
  rw [List.partition_eq_filter_filter]
  set closing := os.filter (not ∘ fun ref => decide ((s.cell ref).slot.toNat < n)) with hclosing
  have hmem (ref : CellRef) : ref ∈ closing ↔ ref ∈ os ∧ n ≤ (s.cell ref).slot.toNat := by
    rw [hclosing, List.mem_filter]
    simp
  have hbound : ∀ ref ∈ closing, ref.index < s.cells.size := by
    intro ref hr
    obtain ⟨p, hp, -⟩ := h.openCells ref ((hmem ref).1 hr).1
    exact hp.lt h
  have hcell := Machine.cell_closeCells ls hbound
  have htake {i p : Nat} (hp : (L.take n)[i]? = some p) : L[i]? = some p ∧ i < n := by
    have hi := (List.getElem?_eq_some_iff.1 hp).1
    rw [List.length_take] at hi
    rw [List.getElem?_take_of_lt (by omega)] at hp
    exact ⟨hp, by omega⟩
  exact
    { h with
      locals := by
        intro i v p hv hp
        obtain ⟨hp, hi⟩ := htake hp
        refine h.locals i v p ?_ hp
        rw [← Array.getElem?_toList, Array.toList_shrink, List.getElem?_take_of_lt hi] at hv
        rwa [← Array.getElem?_toList]
      size := by
        simp only [Array.size_shrink, List.length_take, hsize, Nat.le_refl]
      distinct := h.distinct.sublist (List.take_sublist n L)
      bound := fun p hp => h.bound p (List.mem_of_mem_take hp)
      cells := by
        rw [Machine.size_closeCells]
        exact h.cells
      closed := by
        intro ref p v hl hv
        rw [hcell] at hv
        split at hv
        · rename_i hr
          obtain ⟨hopen, hn⟩ := (hmem ref).1 hr
          obtain ⟨q, hq, ho⟩ := h.openCells ref hopen
          obtain rfl := Option.some.inj (hl.2.symm.trans hq.2)
          have hslot := (h.opened ref p hl ho).2
          have hlt := (List.getElem?_eq_some_iff.1 hslot).1
          have hget : ls[(s.cell ref).slot.toNat]? = some _ :=
            Array.getElem?_eq_getElem (by omega)
          rw [hget] at hv
          obtain rfl := Option.some.inj hv
          refine ⟨fun hp => ?_, h.locals _ _ p hget hslot⟩
          obtain ⟨j, hj⟩ := List.mem_iff_getElem?.1 hp
          obtain ⟨hj, hjn⟩ := htake hj
          have := h.index_unique hslot hj
          omega
        · obtain ⟨hp, y, hy, hm⟩ := h.closed ref p v hl hv
          exact ⟨fun hmem => hp (List.mem_of_mem_take hmem), y, hy, hm⟩
      opened := by
        intro ref p hl hv
        rw [hcell] at hv ⊢
        split at hv
        · cases hv
        · rename_i hr
          rw [if_neg hr]
          obtain ⟨ho, hs⟩ := h.opened ref p hl hv
          have hn : (s.cell ref).slot.toNat < n := by
            by_contra hn
            exact hr ((hmem ref).2 ⟨ho, Nat.not_lt.1 hn⟩)
          refine ⟨List.mem_filter.2 ⟨ho, decide_eq_true hn⟩, ?_⟩
          rw [List.getElem?_take_of_lt hn]
          exact hs
      openCells := by
        intro ref hr
        obtain ⟨hr, hn⟩ := List.mem_filter.1 hr
        obtain ⟨p, hp, ho⟩ := h.openCells ref hr
        refine ⟨p, hp, ?_⟩
        have hnot : ref ∉ closing := fun hm => by
          have := ((hmem ref).1 hm).2
          have := of_decide_eq_true hn
          omega
        rw [hcell, if_neg hnot]
        exact ho
      fresh := by
        rw [Machine.fresh_closeCells]
        exact h.fresh }

/-- A local without a cell gets an open one. -/
theorem newCell (h : A.Rel γ L s ls gs os cs w) (position : UInt32) (hp : L[slot]? = some p)
    (hslot : slot < 2 ^ 32) (hnone : ∀ ref ∈ os, (s.cell ref).slot.toNat ≠ slot) :
    A.Rel (γ ++ [p]) L { s with cells := s.cells.push ⟨slot.toUInt32, position, none⟩ } ls gs
      (os ++ [⟨s.cells.size⟩]) cs w ∧ A.Leads (γ ++ [p]) ⟨s.cells.size⟩ p := by
  have hnew : A.Leads (γ ++ [p]) ⟨s.cells.size⟩ p := by
    refine ⟨by rw [h.cells]; exact Nat.le_add_right _ _, ?_⟩
    show (γ ++ [p])[s.cells.size - A.base]? = some p
    rw [h.cells, Nat.add_sub_cancel_left]
    simp
  have hmono : γ <+: γ ++ [p] := List.prefix_append _ _
  have hold {ref : CellRef} {q : Nat} (hl : A.Leads (γ ++ [p]) ref q)
      (hne : ref.index ≠ s.cells.size) : A.Leads γ ref q := by
    refine ⟨hl.1, ?_⟩
    have hi := (List.getElem?_eq_some_iff.1 hl.2).1
    have hb := hl.1
    have hc := h.cells
    rw [List.length_append, List.length_singleton] at hi
    have := hl.2
    rwa [List.getElem?_append_left (by omega)] at this
  have hq {ref : CellRef} {q : Nat} (hl : A.Leads (γ ++ [p]) ref q)
      (he : ref.index = s.cells.size) : q = p := by
    have := hl.2
    rw [he, h.cells, Nat.add_sub_cancel_left] at this
    simpa using this.symm
  have hcell (ref : CellRef) := s.cell_push ⟨slot.toUInt32, position, none⟩ ref
  -- A cell of the same place would be closed, though its local exists, or open in the same slot.
  have hfresh : p ∉ γ := by
    intro hmem
    obtain ⟨i, hi⟩ := List.mem_iff_getElem?.1 hmem
    have hl : A.Leads γ ⟨A.base + i⟩ p := ⟨Nat.le_add_right _ _, by rwa [Nat.add_sub_cancel_left]⟩
    cases hc : (s.cell ⟨A.base + i⟩).closed with
    | some v => exact (h.closed _ p v hl hc).1 (List.mem_of_getElem? hp)
    | none =>
      obtain ⟨ho, hs⟩ := h.opened _ p hl hc
      exact hnone _ ho (h.index_unique hs hp)
  refine ⟨?_, hnew⟩
  exact
    { h with
      locals := by
        intro i v q hv hq
        obtain ⟨y, hy, hm⟩ := h.locals i v q hv hq
        exact ⟨y, hy, hm.mono hmono⟩
      cells := by
        show (s.cells.push _).size = _
        rw [Array.size_push, h.cells, List.length_append]
        rfl
      cellsDistinct := by
        refine List.nodup_append.2 ⟨h.cellsDistinct, List.nodup_singleton _, fun a ha b hb => ?_⟩
        rw [List.mem_singleton.1 hb]
        rintro rfl
        exact hfresh ha
      cellsBound := by
        intro q hq
        rcases List.mem_append.1 hq with hq | hq
        · exact h.cellsBound q hq
        · rw [List.mem_singleton.1 hq]
          exact h.bound p (List.mem_of_getElem? hp)
      closed := by
        intro ref q v hl hv
        rw [hcell] at hv
        by_cases he : ref.index = s.cells.size
        · rw [if_pos he] at hv
          cases hv
        · rw [if_neg he] at hv
          obtain ⟨hn, y, hy, hm⟩ := h.closed ref q v (hold hl he) hv
          exact ⟨hn, y, hy, hm.mono hmono⟩
      opened := by
        intro ref q hl hv
        rw [hcell] at hv ⊢
        by_cases he : ref.index = s.cells.size
        · rw [if_pos he]
          obtain ⟨i⟩ := ref
          obtain rfl : i = s.cells.size := he
          rw [hq hl rfl]
          refine ⟨List.mem_append_right _ (List.mem_singleton_self _), ?_⟩
          show L[slot.toUInt32.toNat]? = some p
          rw [Word.toNat_toUInt32 hslot]
          exact hp
        · rw [if_neg he] at hv ⊢
          obtain ⟨ho, hs⟩ := h.opened ref q (hold hl he) hv
          exact ⟨List.mem_append_left _ ho, hs⟩
      openCells := by
        intro ref hr
        rcases List.mem_append.1 hr with hr | hr
        · obtain ⟨q, hl, ho⟩ := h.openCells ref hr
          refine ⟨q, hl.mono hmono, ?_⟩
          rw [hcell, if_neg (Nat.ne_of_lt (hl.lt h))]
          exact ho
        · rw [List.mem_singleton.1 hr]
          refine ⟨p, hnew, ?_⟩
          rw [hcell, if_pos rfl]
      globals := fun i v g hv hg => (h.globals i v g hv hg).mono hmono }

/-- Both sides make a function. -/
theorem newObject (h : A.Rel γ L s ls gs os cs w) :
    A.Rel γ L { s with fresh := s.fresh + 1 } ls gs os cs { w with fresh := w.fresh + 1 } := by
  refine { h with fresh := ?_ }
  show s.fresh + 1 = w.fresh + 1 + A.shift
  rw [h.fresh]
  omega

theorem record (h : A.Rel γ L s ls gs os cs w) (call : HostCall) :
    A.Rel γ L s ls gs os (call :: cs) { w with calls := call :: w.calls } := by
  refine { h with calls := ?_ }
  show call :: cs = call :: w.calls
  rw [h.calls]

/-! ## Globals -/

theorem lookup_global (h : A.Rel γ L s ls gs os cs w)
    (hs : A.setting.globals.findIdx? (· = name) = some slot) :
    (∃ v x, gs[slot]? = some v ∧ w.globals[slot]? = some (name, x) ∧ w.globals.lookup name = some x ∧
      A.Matches γ v x) ∨ (gs[slot]? = none ∧ w.globals.lookup name = none) := by
  obtain ⟨hlt, hname, hfirst⟩ := List.findIdx?_eq_some_iff_getElem.1 hs
  obtain ⟨rest, hrest⟩ := h.names
  have hget {i : Nat} {g : String × Val} (hg : w.globals[i]? = some g) :
      A.setting.globals[i]? = some g.1 := by
    rw [← hrest, List.getElem?_append_left, List.getElem?_map, hg]
    · rfl
    · rw [List.length_map]
      exact (List.getElem?_eq_some_iff.1 hg).1
  have hbefore {i : Nat} {g : String × Val} (hg : w.globals[i]? = some g) (he : g.1 = name) :
      i = slot := by
    obtain ⟨hi, hgi⟩ := List.getElem?_eq_some_iff.1 (hget hg)
    have hsame : A.setting.globals[i] = A.setting.globals[slot] := by
      rw [hgi, he, of_decide_eq_true hname]
    exact (A.distinct.getElem_inj_iff).1 hsame
  have hlookup : w.globals.lookup name = none ∨ ∃ x, w.globals.lookup name = some x ∧
      w.globals[slot]? = some (name, x) := by
    cases hl : w.globals.lookup name with
    | none => exact .inl rfl
    | some x =>
      obtain ⟨l₁, l₂, he, -⟩ := List.lookup_eq_some_iff.1 hl
      have hi : w.globals[l₁.length]? = some (name, x) := by
        rw [he]
        simp
      refine .inr ⟨x, rfl, ?_⟩
      rw [← hbefore hi rfl]
      exact hi
  by_cases hsize : slot < gs.size
  · refine .inl ?_
    have hw : slot < w.globals.length := by rw [← h.count]; exact hsize
    have hg := List.getElem?_eq_getElem hw
    have hn : (w.globals[slot]).1 = name := by
      have := hget hg
      rw [List.getElem?_eq_getElem hlt] at this
      rw [← Option.some.inj this]
      exact of_decide_eq_true hname
    rcases hlookup with hnone | ⟨x, hx, hgx⟩
    · exfalso
      have := List.lookup_eq_none_iff.1 hnone _ (List.getElem_mem hw)
      rw [hn] at this
      simp at this
    · exact ⟨_, x, Array.getElem?_eq_getElem hsize, hgx, hx,
        h.globals slot _ _ (Array.getElem?_eq_getElem hsize) hgx⟩
  · refine .inr ⟨Array.getElem?_eq_none (Nat.not_lt.1 hsize), ?_⟩
    rcases hlookup with hnone | ⟨x, -, hgx⟩
    · exact hnone
    · have := (List.getElem?_eq_some_iff.1 hgx).1
      rw [← h.count] at this
      exact absurd this hsize

theorem assignGlobal (h : A.Rel γ L s ls gs os cs w) {y : Val}
    (hg : w.globals[slot]? = some (name, y)) (hv : A.Matches γ v x) :
    A.Rel γ L s ls (gs.setIfInBounds slot v) os cs
      { w with globals := Semantics.assignGlobal name x w.globals } := by
  have hnames : (Semantics.assignGlobal name x w.globals).map Prod.fst = w.globals.map Prod.fst := by
    unfold Semantics.assignGlobal
    rw [List.map_map]
    refine List.map_congr_left fun g _ => ?_
    by_cases hn : g.1 = name <;> simp [hn]
  have hdistinct : (w.globals.map Prod.fst).Nodup := A.distinct.sublist h.names.sublist
  exact
    { h with
      locals := h.locals
      globals := by
        intro i u g hu hgi
        have hgi' : (w.globals.map fun g => if g.1 = name then (name, x) else g)[i]? = some g := hgi
        rw [List.getElem?_map] at hgi'
        obtain ⟨g₀, hg₀, rfl⟩ := Option.map_eq_some_iff.1 hgi'
        have hfst (j : Nat) (a : String × Val) (ha : w.globals[j]? = some a) :
            (w.globals.map Prod.fst)[j]? = some a.1 := by
          rw [List.getElem?_map, ha]
          rfl
        rw [Array.getElem?_setIfInBounds] at hu
        by_cases hi : slot = i
        · subst hi
          obtain rfl := Option.some.inj (hg.symm.trans hg₀)
          rw [if_pos rfl] at hu ⊢
          split at hu
          · obtain rfl := Option.some.inj hu
            exact hv
          · cases hu
        · rw [if_neg hi] at hu
          have hne : g₀.1 ≠ name := by
            intro he
            obtain ⟨h₁, e₁⟩ := List.getElem?_eq_some_iff.1 (hfst i g₀ hg₀)
            obtain ⟨h₂, e₂⟩ := List.getElem?_eq_some_iff.1 (hfst slot _ hg)
            exact hi ((hdistinct.getElem_inj_iff).1 (e₂.trans (he.symm.trans e₁.symm)))
          rw [if_neg hne]
          exact h.globals i u g₀ hu hg₀
      count := by
        rw [Array.size_setIfInBounds, h.count]
        exact (List.length_map _).symm
      names := by
        rw [hnames]
        exact h.names }

theorem defineGlobal (h : A.Rel γ L s ls gs os cs w)
    (hn : w.globals.map Prod.fst ++ [name] <+: A.setting.globals) (hv : A.Matches γ v x) :
    A.Rel γ L s ls (gs.push v) os cs { w with globals := w.globals ++ [(name, x)] } := by
  refine { h with globals := ?_, count := ?_, names := ?_ }
  · intro i u g hu hg
    rw [Array.getElem?_push, h.count] at hu
    have hg' : (w.globals ++ [(name, x)])[i]? = some g := hg
    split at hu
    · rename_i hi
      subst hi
      obtain rfl := Option.some.inj hu
      obtain rfl : (name, x) = g := by simpa using hg'
      exact hv
    · rename_i hi
      have hlt := (List.getElem?_eq_some_iff.1 hg').1
      rw [List.length_append, List.length_singleton] at hlt
      rw [List.getElem?_append_left (by omega)] at hg'
      exact h.globals i u g hu hg'
  · show (gs.push v).size = (w.globals ++ [(name, x)]).length
    rw [Array.size_push, h.count, List.length_append, List.length_singleton]
  · show (w.globals ++ [(name, x)]).map Prod.fst <+: _
    rw [List.map_append]
    exact hn

/-! ## Cells -/

theorem read_cell (h : A.Rel γ L s ls gs os cs w) (hsize : ls.size = L.length) {ref : CellRef}
    (hl : A.Leads γ ref p) :
    ∃ v x, w.places[p]? = some x ∧ A.Matches γ v x ∧ ((s.cell ref).closed = some v ∨
      (s.cell ref).closed = none ∧ L[(s.cell ref).slot.toNat]? = some p ∧
        ls[(s.cell ref).slot.toNat]? = some v) := by
  cases hc : (s.cell ref).closed with
  | some v =>
    obtain ⟨-, x, hx, hm⟩ := h.closed ref p v hl hc
    exact ⟨v, x, hx, hm, .inl rfl⟩
  | none =>
    have hs := (h.opened ref p hl hc).2
    have hlt := (List.getElem?_eq_some_iff.1 hs).1
    have hget : ls[(s.cell ref).slot.toNat]? = some _ := Array.getElem?_eq_getElem (by omega)
    obtain ⟨x, hx, hm⟩ := h.locals _ _ p hget hs
    exact ⟨_, x, hx, hm, .inr ⟨rfl, hs, hget⟩⟩

end Rel

end Pairing

end Semantics

end StackScript
