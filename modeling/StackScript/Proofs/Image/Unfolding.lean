import Mathlib.Data.List.Lex
import StackScript.Proofs.Image.Faults
import StackScript.Store

/-!
# Which chunks have an image

The writer of images sees a heap through a view, one layer of a value at a time. What it goes
through is the *unfolding* of a chunk: the chunk, the values in it, the chunks and values in these,
and so on, perhaps without end. Each entry has a path, the positions at which one has to go on from
the outside to the inside, and the order of writing is the lexicographic order of the paths.

An entry offends if it is a chunk without a source position for each byte of code, a function of the
host, or a value inside of too many others. A chunk has an image exactly when no entry offends, and
otherwise the first one that does says what is wrong (`Image.encodeWith_spec`).
-/

namespace StackScript

variable {α : Type}

/-- Looking through lists in turn. -/
theorem findSome?_flatMap {β γ : Type} {f : β → Option γ} {g : α → List β} (l : List α) :
    (l.flatMap g).findSome? f = l.findSome? fun a => (g a).findSome? f := by
  induction l with
  | nil => rfl
  | cons a l ih =>
    rw [List.flatMap_cons, List.findSome?_append, ih, List.findSome?_cons]
    cases (g a).findSome? f <;> rfl

theorem findSome?_congr {β : Type} {f g : α → Option β} {l : List α} (h : ∀ a ∈ l, f a = g a) :
    l.findSome? f = l.findSome? g := by
  induction l with
  | nil => rfl
  | cons a l ih =>
    rw [List.forall_mem_cons] at h
    rw [List.findSome?_cons, List.findSome?_cons, h.1, ih h.2]

namespace Image

/-! ## The unfolding -/

/-- An entry of the unfolding of a chunk. -/
inductive Entry (α : Type) where
  /-- A chunk. -/
  | chunk (c : Chunk α)
  /-- A value. -/
  | value (v : α)

/-- What is directly inside a closure: the chunk of its function, then the values of the variables that
it has closed over. -/
def closureEntries (c : Closure α (Cell α)) : List (Entry α) :=
  .chunk c.function.chunk :: c.captures.flatMap fun cell => cell.closed.toList.map .value

/-- What is directly inside a record. Its methods are closures, but not values. -/
def recordEntries (r : Record (Closure α (Cell α))) : List (Entry α) :=
  r.methods.flatMap closureEntries

/-- What is directly inside a layer of a value, in the order in which it is written. -/
def nodeEntries : Node α → List (Entry α)
  | .function f => [.chunk f.chunk]
  | .closure c => closureEntries c
  | .record r => recordEntries r
  | .instanceOf fields r => fields.map .value ++ recordEntries r
  | .bound receiver method => .value receiver :: closureEntries method
  | _ => []

/-- What is wrong with a layer itself, if something is. -/
def nodeOffence : Node α → Option Error
  | .native n => some (.native n.name)
  | _ => none

namespace Entry

variable (view : α → Node α)

/-- What is directly inside an entry, in the order in which it is written. -/
def inside : Entry α → List (Entry α)
  | .chunk c => c.constants.map .value
  | .value v => nodeEntries (view v)

/-- How many values there are around what is directly inside an entry, more than around itself. -/
def layers : Entry α → Nat
  | .chunk _ => 0
  | .value _ => 1

/-- Why an entry inside of `depth` values cannot be written, if it cannot. -/
def offence (depth : Nat) : Entry α → Option Error
  | .chunk c =>
    if c.marks.size = c.code.size then none else some (.marksMismatch c.code.size c.marks.size)
  | .value v =>
    if maxDepth ≤ depth then some .tooDeep else nodeOffence (view v)

def lengths : Entry α → List Nat
  | .chunk c => c.lengths
  | .value v => (view v).lengths

/-- From one entry a path leads to another, through a number of values. -/
inductive Leads : Entry α → List Nat → Nat → Entry α → Prop where
  /-- The empty path. -/
  | here {x : Entry α} : Leads x [] 0 x
  /-- A path into an entry. -/
  | into {x y z : Entry α} {k n : Nat} {p : List Nat} (hk : (x.inside view)[k]? = some y)
      (h : Leads y p n z) : Leads x (k :: p) (x.layers + n) z

/-- All lengths in the unfolding fit into a word of an image. -/
def Fits (x : Entry α) : Prop := ∀ p n y, x.Leads view p n y → AreWords (y.lengths view)

/-- In the unfolding of an entry inside of `depth` values, the entry at a path offends. -/
def Offends (depth : Nat) (x : Entry α) (p : List Nat) (e : Error) : Prop :=
  ∃ n y, x.Leads view p n y ∧ y.offence view (depth + n) = some e

/-- The entry at a path is the first one that offends. -/
def OffendsFirst (depth : Nat) (x : Entry α) (p : List Nat) (e : Error) : Prop :=
  x.Offends view depth p e ∧ ∀ q < p, ∀ e', ¬ x.Offends view depth q e'

/-! ## Paths -/

variable {view} {x y z : Entry α} {p q : List Nat} {n m depth : Nat}

theorem layers_le (x : Entry α) : x.layers ≤ 1 := by
  cases x with
  | chunk => exact Nat.zero_le 1
  | value => exact Nat.le_refl 1

theorem layers_inside (h : y ∈ x.inside view) : 1 ≤ x.layers + y.layers := by
  cases x with
  | chunk c =>
    obtain ⟨v, -, rfl⟩ := List.mem_map.1 h
    exact Nat.le_refl 1
  | value v => exact Nat.le_add_right 1 _

theorem offence_eq_none_iff : x.offence view depth = none ↔
    (∀ c, x = .chunk c → c.marks.size = c.code.size) ∧
      (∀ v, x = .value v → depth < maxDepth ∧ ∀ f, view v ≠ .native f) := by
  cases x with
  | chunk c => simp [offence]
  | value v =>
    by_cases hd : maxDepth ≤ depth
    · simp [offence, hd]
    · simp only [offence, if_neg hd, reduceCtorEq, false_implies, implies_true, true_and,
        value.injEq, forall_eq', Nat.lt_of_not_le hd]
      unfold nodeOffence
      cases view v <;> simp

theorem layers_le_of_offence {d : Nat} (hd : d ≤ maxDepth)
    (h : x.offence view (maxDepth - d) = none) : x.layers ≤ d := by
  cases x with
  | chunk c => exact Nat.zero_le d
  | value v =>
    refine Nat.one_le_iff_ne_zero.2 fun hzero => ?_
    subst hzero
    cases h

theorem Leads.trans (h : x.Leads view p n y) (h' : y.Leads view q m z) :
    x.Leads view (p ++ q) (n + m) z := by
  induction h with
  | here => simpa using h'
  | into hk _ ih =>
    rw [Nat.add_assoc]
    exact .into hk (ih h')

/-- A path leads to one entry only. -/
theorem Leads.unique (h : x.Leads view p n y) (h' : x.Leads view p m z) : n = m ∧ y = z := by
  induction h generalizing m with
  | here =>
    cases h'
    exact ⟨rfl, rfl⟩
  | into hk _ ih =>
    cases h' with
    | into hk' h' =>
      rw [hk] at hk'
      cases hk'
      obtain ⟨rfl, rfl⟩ := ih h'
      exact ⟨rfl, rfl⟩

theorem Fits.inside {k : Nat} (h : x.Fits view) (hk : (x.inside view)[k]? = some y) : y.Fits view :=
  fun p n z hz => h (k :: p) (x.layers + n) z (.into hk hz)

theorem offends_nil {e : Error} : x.Offends view depth [] e ↔ x.offence view depth = some e := by
  constructor
  · rintro ⟨n, y, hy, he⟩
    cases hy
    exact he
  · intro he
    exact ⟨0, x, .here, he⟩

theorem offends_cons {k : Nat} {e : Error} : x.Offends view depth (k :: p) e ↔
    ∃ y, (x.inside view)[k]? = some y ∧ y.Offends view (depth + x.layers) p e := by
  constructor
  · rintro ⟨n, z, hz, he⟩
    cases hz with
    | @into _ y _ _ n _ hk hz =>
      rw [← Nat.add_assoc] at he
      exact ⟨y, hk, n, z, hz, he⟩
  · rintro ⟨y, hk, n, z, hz, he⟩
    rw [Nat.add_assoc] at he
    exact ⟨_, z, .into hk hz, he⟩

/-- No two entries are the first one that offends. -/
theorem OffendsFirst.unique {e e' : Error} (h : x.OffendsFirst view depth p e)
    (h' : x.OffendsFirst view depth q e') : e = e' := by
  obtain ⟨hp, hfirst⟩ := h
  obtain ⟨hq, hfirst'⟩ := h'
  rcases lt_trichotomy p q with hlt | rfl | hlt
  · exact absurd hp (hfirst' p hlt e)
  · obtain ⟨n, y, hy, he⟩ := hp
    obtain ⟨m, z, hz, he'⟩ := hq
    obtain ⟨rfl, rfl⟩ := hy.unique hz
    exact Option.some.inj (he.symm.trans he')
  · exact absurd hq (hfirst q hlt e')

theorem Leads.repeated {v : α} (h : (Entry.value v).Leads view q m (.value v)) (hq : q ≠ [])
    (k : Nat) : ∃ p n, k ≤ n ∧ (Entry.value v).Leads view p n (.value v) := by
  have hm : 1 ≤ m := by
    cases h with
    | here => exact absurd rfl hq
    | into _ _ => exact Nat.le_add_right 1 _
  induction k with
  | zero => exact ⟨[], 0, Nat.le_refl 0, .here⟩
  | succ k ih =>
    obtain ⟨p, n, hn, hp⟩ := ih
    exact ⟨p ++ q, n + m, by omega, hp.trans h⟩

end Entry

/-! ## The faults of the writer, layer by layer -/

namespace Writer

/-- The fault of writing an entry, given how values are written. -/
def entryFault (value : α → Writer) : Entry α → Option Error
  | .chunk c => (chunk value c).fault
  | .value v => (value v).fault

section Layers

variable {value : α → Writer} (hv : ∀ a, IsStream (value a))
include hv

theorem fault_cell_eq (c : Cell α) :
    (cell value c).fault = (c.closed.toList.map Entry.value).findSome? (entryFault value) := by
  obtain ⟨slot, position, closed⟩ := c
  unfold cell
  cases closed with
  | none => rfl
  | some v =>
    have hflag := (isStream_flag true).bind (hv v)
    calc fault (do word slot; word position; flag true; value v)
        = fault (do word position; flag true; value v) := fault_behind ((isStream_word _).bind hflag)
      _ = fault (do flag true; value v) := fault_behind hflag
      _ = (value v).fault := fault_behind (hv v)
      _ = _ := List.findSome?_singleton.symm

theorem fault_closure_eq (c : Closure α (Cell α)) : (closure value c).fault =
    ((chunk value c.function.chunk).fault).or
    ((lengthFault .captures c.captures.length).or
    ((c.captures.flatMap fun cell => cell.closed.toList.map Entry.value).findSome?
      (entryFault value))) := by
  unfold closure
  rw [fault_bind (isStream_function hv _) (isStream_list _ (isStream_cell hv) _),
    fault_function_eq hv, fault_list_eq _ (isStream_cell hv), findSome?_flatMap]
  simp only [fault_cell_eq hv]

theorem fault_record_eq (r : Record (Closure α (Cell α))) : (record value r).fault =
    (lengthFault .string r.name.utf8ByteSize).or
    ((lengthFault .fieldNames r.fields.length).or
    ((r.fields.findSome? fun s => lengthFault .string s.utf8ByteSize).or
    ((lengthFault .methods r.methods.length).or
    (r.methods.findSome? fun c => (closure value c).fault)))) := by
  have hm : IsStream (list .methods (closure value) r.methods) :=
    isStream_list _ (isStream_closure hv) _
  unfold record
  rw [fault_bind (isStream_string _) ((isStream_list _ isStream_string _).bind hm),
    fault_bind (isStream_list _ isStream_string _) hm, fault_list_eq _ isStream_string,
    fault_list_eq _ (isStream_closure hv), fault_string_eq, Option.or_assoc]
  simp only [fault_string_eq]

theorem fault_closure_of_fits {c : Closure α (Cell α)} (hl : AreWords c.lengths) :
    (closure value c).fault = (closureEntries c).findSome? (entryFault value) := by
  have hlength : c.captures.length < 2 ^ 32 := hl _ (by simp [Closure.lengths])
  rw [fault_closure_eq hv, lengthFault_of_lt hlength, Option.none_or, closureEntries,
    ← List.singleton_append, List.findSome?_append, List.findSome?_singleton]
  rfl

theorem fault_record_of_fits {r : Record (Closure α (Cell α))} (hl : AreWords r.lengths) :
    (record value r).fault = (recordEntries r).findSome? (entryFault value) := by
  have hname : r.name.utf8ByteSize < 2 ^ 32 := hl _ (by simp [Record.lengths])
  have hfields : r.fields.length < 2 ^ 32 := hl _ (by simp [Record.lengths])
  have hmethods : r.methods.length < 2 ^ 32 := hl _ (by simp [Record.lengths])
  have hnames : (r.fields.findSome? fun s => lengthFault .string s.utf8ByteSize) = none := by
    refine List.findSome?_eq_none_iff.2 fun s hs => lengthFault_of_lt (hl _ ?_)
    simp only [Record.lengths, List.mem_cons, List.mem_append, List.mem_map]
    exact .inr (.inr (.inr (.inl ⟨s, hs, rfl⟩)))
  have hclosures (c : Closure α (Cell α)) (hc : c ∈ r.methods) : AreWords c.lengths := by
    intro n hn
    refine hl n ?_
    simp only [Record.lengths, List.mem_cons, List.mem_append, List.mem_flatMap]
    exact .inr (.inr (.inr (.inr ⟨c, hc, hn⟩)))
  rw [fault_record_eq hv, lengthFault_of_lt hname, lengthFault_of_lt hfields, hnames,
    lengthFault_of_lt hmethods, Option.none_or, Option.none_or, Option.none_or, Option.none_or,
    recordEntries, findSome?_flatMap]
  exact findSome?_congr fun c hc => fault_closure_of_fits hv (hclosures c hc)

theorem fault_node_of_fits {n : Node α} (hl : AreWords n.lengths) : (node value n).fault =
    (nodeOffence n).or ((nodeEntries n).findSome? (entryFault value)) := by
  cases n with
  | int | float | char | bool | nil | void | native | range => rfl
  | string s =>
    have hs : s.utf8ByteSize < 2 ^ 32 := hl _ (by simp [Node.lengths])
    refine (fault_behind (isStream_string s)).trans ?_
    rw [fault_string_eq, lengthFault_of_lt hs]
    rfl
  | function f =>
    refine (fault_behind (isStream_function hv f)).trans ?_
    rw [fault_function_eq hv]
    exact List.findSome?_singleton.symm
  | closure c =>
    exact (fault_behind (isStream_closure hv c)).trans (fault_closure_of_fits hv hl)
  | record r =>
    exact (fault_behind (isStream_record hv r)).trans (fault_record_of_fits hv hl)
  | instanceOf fields r =>
    have hfields : fields.length < 2 ^ 32 := hl _ (by simp [Node.lengths])
    have hr : AreWords r.lengths := fun n hn => hl n (by simp [Node.lengths, hn])
    have hs := isStream_list .fields hv fields
    refine (fault_behind (hs.bind (isStream_record hv r))).trans ?_
    show _ = (fields.map Entry.value ++ recordEntries r).findSome? _
    rw [fault_bind hs (isStream_record hv _), fault_list_eq _ hv,
      lengthFault_of_lt hfields, Option.none_or, fault_record_of_fits hv hr,
      List.findSome?_append, List.findSome?_map]
    rfl
  | bound receiver method =>
    have hm : AreWords method.lengths := fun n hn => hl n (by simp [Node.lengths, hn])
    refine (fault_behind ((hv receiver).bind (isStream_closure hv method))).trans ?_
    show _ = ([Entry.value receiver] ++ closureEntries method).findSome? _
    rw [fault_bind (hv _) (isStream_closure hv _), fault_closure_of_fits hv hm,
      List.findSome?_append, List.findSome?_singleton]
    rfl

/-! A writer that does not fail has not failed anywhere, whatever the lengths are. -/

theorem closure_of_fault_none {c : Closure α (Cell α)} (h : (closure value c).fault = none) :
    ∀ x ∈ closureEntries c, entryFault value x = none := by
  rw [fault_closure_eq hv, Option.or_eq_none_iff, Option.or_eq_none_iff,
    List.findSome?_eq_none_iff] at h
  exact List.forall_mem_cons.2 ⟨h.1, h.2.2⟩

theorem record_of_fault_none {r : Record (Closure α (Cell α))} (h : (record value r).fault = none) :
    ∀ x ∈ recordEntries r, entryFault value x = none := by
  simp only [fault_record_eq hv, Option.or_eq_none_iff, List.findSome?_eq_none_iff] at h
  intro x hx
  obtain ⟨c, hc, hx⟩ := List.mem_flatMap.1 hx
  exact closure_of_fault_none hv (h.2.2.2.2 c hc) x hx

theorem node_of_fault_none {n : Node α} (h : (node value n).fault = none) :
    nodeOffence n = none ∧ ∀ x ∈ nodeEntries n, entryFault value x = none := by
  cases n with
  | native f => cases h
  | int | float | char | bool | nil | void | range | string => exact ⟨rfl, List.forall_mem_nil _⟩
  | function f =>
    have h' := (fault_behind (isStream_function hv f)).symm.trans h
    rw [fault_function_eq hv] at h'
    exact ⟨rfl, List.forall_mem_singleton.2 h'⟩
  | closure c =>
    exact ⟨rfl, closure_of_fault_none hv ((fault_behind (isStream_closure hv c)).symm.trans h)⟩
  | record r =>
    exact ⟨rfl, record_of_fault_none hv ((fault_behind (isStream_record hv r)).symm.trans h)⟩
  | instanceOf fields r =>
    have hs := isStream_list .fields hv fields
    have h' := (fault_behind (hs.bind (isStream_record hv r))).symm.trans h
    rw [fault_bind hs (isStream_record hv _), fault_list_eq _ hv, Option.or_eq_none_iff, Option.or_eq_none_iff, List.findSome?_eq_none_iff] at h'
    obtain ⟨⟨-, hfields⟩, hrecord⟩ := h'
    refine ⟨rfl, fun x hx => ?_⟩
    rcases List.mem_append.1 hx with hx | hx
    · obtain ⟨v, hmem, rfl⟩ := List.mem_map.1 hx
      exact hfields v hmem
    · exact record_of_fault_none hv hrecord x hx
  | bound receiver method =>
    have h' := (fault_behind ((hv receiver).bind (isStream_closure hv method))).symm.trans h
    rw [fault_bind (hv _) (isStream_closure hv _), Option.or_eq_none_iff] at h'
    exact ⟨rfl, List.forall_mem_cons.2 ⟨h'.1, closure_of_fault_none hv h'.2⟩⟩

end Layers

/-! ## The first fault is the first offence -/

variable {view : α → Node α} {x : Entry α} {d : Nat}

theorem entryFault_eq (hd : d ≤ maxDepth) (hl : AreWords (x.lengths view)) :
    entryFault (value view d) x = (x.offence view (maxDepth - d)).or
      ((x.inside view).findSome? (entryFault (value view (d - x.layers)))) := by
  cases x with
  | chunk c =>
    have hname : (c.name.getD "").utf8ByteSize < 2 ^ 32 :=
      hl _ (by simp [Entry.lengths, Chunk.lengths])
    have hcode : c.code.size < 2 ^ 32 := hl _ (by simp [Entry.lengths, Chunk.lengths])
    have hconstants : c.constants.length < 2 ^ 32 := hl _ (by simp [Entry.lengths, Chunk.lengths])
    have hmarks : c.marks.size < 2 ^ 32 := hl _ (by simp [Entry.lengths, Chunk.lengths])
    show (chunk (value view d) c).fault = _
    rw [fault_chunk_eq (isStream_value view d), lengthFault_of_lt hname, lengthFault_of_lt hcode,
      lengthFault_of_lt hconstants, lengthFault_of_lt hmarks, Option.none_or, Option.none_or,
      Option.none_or, Option.or_none, Entry.inside, List.findSome?_map]
    rfl
  | value v =>
    cases d with
    | zero => rfl
    | succ d =>
      have hdepth : ¬ maxDepth ≤ maxDepth - (d + 1) := by omega
      rw [Entry.offence, if_neg hdepth]
      exact fault_node_of_fits (isStream_value view d) hl

theorem of_entryFault_none (hd : d ≤ maxDepth) (h : entryFault (value view d) x = none) :
    x.layers ≤ d ∧ x.offence view (maxDepth - d) = none ∧
      ∀ y ∈ x.inside view, entryFault (value view (d - x.layers)) y = none := by
  cases x with
  | chunk c =>
    have h' : (chunk (value view d) c).fault = none := h
    simp only [fault_chunk_eq (isStream_value view d), Option.or_eq_none_iff,
      List.findSome?_eq_none_iff] at h'
    obtain ⟨hmarks, -, -, -, hconstants, -⟩ := h'
    refine ⟨Nat.zero_le d, hmarks, fun y hy => ?_⟩
    obtain ⟨v, hv, rfl⟩ := List.mem_map.1 hy
    exact hconstants v hv
  | value v =>
    cases d with
    | zero => cases h
    | succ d =>
      have hdepth : ¬ maxDepth ≤ maxDepth - (d + 1) := by omega
      obtain ⟨hoffence, hinside⟩ := node_of_fault_none (isStream_value view d) h
      refine ⟨Nat.le_add_left 1 d, ?_, hinside⟩
      rw [Entry.offence, if_neg hdepth]
      exact hoffence

theorem not_offends_of_entryFault_none {p : List Nat} {e : Error} (hd : d ≤ maxDepth)
    (h : entryFault (value view d) x = none) : ¬ x.Offends view (maxDepth - d) p e := by
  induction p generalizing x d with
  | nil =>
    obtain ⟨-, hoffence, -⟩ := of_entryFault_none hd h
    rw [Entry.offends_nil, hoffence]
    exact nofun
  | cons k p ih =>
    obtain ⟨hlayers, -, hinside⟩ := of_entryFault_none hd h
    rintro hoffends
    obtain ⟨y, hk, hoffends⟩ := Entry.offends_cons.1 hoffends
    have hdepth : maxDepth - d + x.layers = maxDepth - (d - x.layers) := by omega
    rw [hdepth] at hoffends
    exact ih (by omega) (hinside y (List.mem_of_getElem? hk)) hoffends

theorem exists_offendsFirst {e : Error} (hd : d ≤ maxDepth) (hfits : x.Fits view)
    (h : entryFault (value view d) x = some e) :
    ∃ p, x.OffendsFirst view (maxDepth - d) p e := by
  induction hn : 2 * d + (1 - x.layers) using Nat.strong_induction_on generalizing x d with
  | _ n ih =>
    rw [entryFault_eq hd (hfits [] 0 x .here)] at h
    rcases Option.or_eq_some_iff.1 h with hown | ⟨hown, hinside⟩
    · exact ⟨[], Entry.offends_nil.2 hown, fun q hq => absurd hq (List.not_lt_nil q)⟩
    · obtain ⟨before, y, after, hsplit, hy, hbefore⟩ := List.findSome?_eq_some_iff.1 hinside
      have hk : (x.inside view)[before.length]? = some y := by
        rw [hsplit]
        simp
      have hlayers : x.layers ≤ d := Entry.layers_le_of_offence hd hown
      have hturn : 1 ≤ x.layers + y.layers := Entry.layers_inside (List.mem_of_getElem? hk)
      have hdepth : maxDepth - d + x.layers = maxDepth - (d - x.layers) := by omega
      have hle : d - x.layers ≤ maxDepth := by omega
      have hless : 2 * (d - x.layers) + (1 - y.layers) < n := by
        have := x.layers_le
        omega
      obtain ⟨p, hp, hfirst⟩ := ih _ hless hle (hfits.inside hk) hy rfl
      refine ⟨before.length :: p, ?_, ?_⟩
      · exact Entry.offends_cons.2 ⟨y, hk, hdepth ▸ hp⟩
      · intro q hq e' hoffends
        cases q with
        | nil =>
          rw [Entry.offends_nil, hown] at hoffends
          cases hoffends
        | cons j q =>
          obtain ⟨z, hj, hz⟩ := Entry.offends_cons.1 hoffends
          rw [hdepth] at hz
          rcases List.cons_lt_cons_iff.1 hq with hlt | ⟨rfl, hlt⟩
          · -- an entry further to the left does not fail
            have hmem : z ∈ before := by
              rw [hsplit, List.getElem?_append_left hlt] at hj
              exact List.mem_of_getElem? hj
            exact not_offends_of_entryFault_none hle (hbefore z hmem) hz
          · rw [hk] at hj
            cases hj
            exact hfirst q hlt e' hz

end Writer

theorem encodeWith_eq_error_iff_entryFault {view : α → Node α} {c : Chunk α} {e : Error} :
    encodeWith view c = .error e ↔
      Writer.entryFault (Writer.value view maxDepth) (.chunk c) = some e :=
  encodeWith_eq_error_iff

theorem exists_encodeWith_iff {view : α → Node α} {c : Chunk α} :
    (∃ image, encodeWith view c = .ok image) ↔
      Writer.entryFault (Writer.value view maxDepth) (.chunk c) = none := by
  rw [Option.eq_none_iff_forall_ne_some]
  constructor
  · rintro ⟨image, himage⟩ e he
    rw [← encodeWith_eq_error_iff_entryFault, himage] at he
    cases he
  · intro h
    cases hc : encodeWith view c with
    | ok image => exact ⟨image, rfl⟩
    | error e => exact absurd (encodeWith_eq_error_iff_entryFault.1 hc) (h e)

/-- Writing an image always comes to an end. A chunk in which some value leads back to itself has no
image. Where all lengths fit, a chunk has an image exactly when in its unfolding every chunk has its
source positions, no value is a function of the host, and no value is inside of 256 others or more; and
where it has none, the error is that of the first entry for which this fails. -/
theorem encodeWith_spec (view : α → Node α) (c : Chunk α) :
    (∀ p n v q m, (Entry.chunk c).Leads view p n (.value v) →
      (Entry.value v).Leads view q m (.value v) → q ≠ [] → ∃ e, encodeWith view c = .error e) ∧
    ((Entry.chunk c).Fits view →
      ((∃ image, encodeWith view c = .ok image) ↔
        ∀ p n x, (Entry.chunk c).Leads view p n x →
          (∀ c', x = .chunk c' → c'.marks.size = c'.code.size) ∧
          (∀ v, x = .value v → n < 256 ∧ ∀ f, view v ≠ .native f)) ∧
      ∀ e, encodeWith view c = .error e ↔ ∃ p, (Entry.chunk c).OffendsFirst view 0 p e) := by
  have hnone (h : ∃ image, encodeWith view c = .ok image) (p : List Nat) (e : Error) :
      ¬ (Entry.chunk c).Offends view 0 p e :=
    Writer.not_offends_of_entryFault_none (Nat.le_refl maxDepth) (exists_encodeWith_iff.1 h)
  have hfirst (hfits : (Entry.chunk c).Fits view) (e : Error) (h : encodeWith view c = .error e) :
      ∃ p, (Entry.chunk c).OffendsFirst view 0 p e :=
    Writer.exists_offendsFirst (Nat.le_refl maxDepth) hfits
      (encodeWith_eq_error_iff_entryFault.1 h)
  refine ⟨?_, fun hfits => ⟨⟨?_, ?_⟩, fun e => ⟨hfirst hfits e, ?_⟩⟩⟩
  · intro p n v q m hp hq hne
    obtain ⟨r, k, hk, hr⟩ := hq.repeated hne maxDepth
    cases hc : encodeWith view c with
    | error e => exact ⟨e, rfl⟩
    | ok image =>
      have hdeep : (Entry.value v).offence view (0 + (n + k)) = some .tooDeep :=
        if_pos (by omega)
      exact absurd ⟨n + k, .value v, hp.trans hr, hdeep⟩ (hnone ⟨image, hc⟩ (p ++ r) .tooDeep)
  · intro himage p n x hx
    refine Entry.offence_eq_none_iff.1 (Option.eq_none_iff_forall_ne_some.2 fun e he => ?_)
    exact hnone himage p e ⟨n, x, hx, by rw [Nat.zero_add, he]⟩
  · intro hall
    cases hc : encodeWith view c with
    | ok image => exact ⟨image, rfl⟩
    | error e =>
      obtain ⟨p, ⟨n, x, hx, he⟩, -⟩ := hfirst hfits e hc
      rw [Nat.zero_add, Entry.offence_eq_none_iff.2 (hall p n x hx)] at he
      cases he
  · rintro ⟨p, hp⟩
    cases hc : encodeWith view c with
    | ok image => exact absurd hp.1 (hnone ⟨image, hc⟩ p e)
    | error e' =>
      obtain ⟨q, hq⟩ := hfirst hfits e' hc
      rw [hp.unique hq]

/-! A closure whose only variable holds the closure itself. -/

def selfHolding : Value := .closure ⟨0, ⟨⟨0, { name := none }⟩, [⟨0⟩]⟩⟩

def selfStore : Store := { cells := #[⟨0, 0, some selfHolding⟩] }

def selfChunk : Chunk Value := { name := none, constants := [selfHolding] }

theorem entries_selfChunk {p : List Nat} {n : Nat} {x y : Entry Value}
    (h : x.Leads selfStore.node p n y)
    (hx : x ∈ [.chunk selfChunk, .value selfHolding, .chunk { name := none }]) :
    y ∈ [.chunk selfChunk, .value selfHolding, .chunk { name := none }] := by
  induction h with
  | here => exact hx
  | into hk _ ih =>
    refine ih ?_
    have hmem := List.mem_of_getElem? hk
    simp only [List.mem_cons, List.not_mem_nil, or_false] at hx
    rcases hx with rfl | rfl | rfl
    · obtain rfl := List.mem_singleton.1 hmem
      simp
    · have hmem' : _ ∈ [Entry.chunk { name := none }, .value selfHolding] := hmem
      simp only [List.mem_cons, List.not_mem_nil, or_false] at hmem'
      rcases hmem' with rfl | rfl <;> simp
    · cases hmem

theorem encodeWith_spec_selfChunk : (Entry.chunk selfChunk).Fits selfStore.node ∧
    encodeWith selfStore.node selfChunk = .error .tooDeep := by
  have hfits : (Entry.chunk selfChunk).Fits selfStore.node := by
    intro p n y hy
    have hmem := entries_selfChunk hy (by simp)
    simp only [List.mem_cons, List.not_mem_nil, or_false] at hmem
    unfold AreWords
    rcases hmem with rfl | rfl | rfl <;> decide
  refine ⟨hfits, ?_⟩
  have hspec := encodeWith_spec selfStore.node selfChunk
  obtain ⟨e, he⟩ := hspec.1 [0] 0 selfHolding [1] 1 (.into rfl .here) (.into rfl .here) (by simp)
  obtain ⟨p, ⟨n, y, hy, hoffence⟩, -⟩ := ((hspec.2 hfits).2 e).1 he
  have hmem := entries_selfChunk hy (by simp)
  simp only [List.mem_cons, List.not_mem_nil, or_false] at hmem
  rw [he]
  rcases hmem with rfl | rfl | rfl
  · cases hoffence
  · have hif : (if maxDepth ≤ 0 + n then some Error.tooDeep else none) = some e := hoffence
    split at hif
    · cases hif
      rfl
    · cases hif
  · cases hoffence

end Image

end StackScript
