import StackScript.Proofs.Lowering.Parts
import StackScript.Proofs.Safety.Flow

/-!
# Compiled code follows the flow of types

Code for an expression leads from any stack type to the same type with one more slot, and code for a
statement back to the type it began with, wherever it is placed (`Turns`). The constants and
captured variables are those of a later point of the compilation, where the lists may have grown
(`Yields`).
-/

namespace StackScript.Lowering

open Fragment


variable {α β : Type} {site : Site} {c c' : Context} {n m : Nat} {P : α → Prop} {Q : β → Prop}

/-! ## Parts of the compilation -/

/-- The function is the outcome of a compilation that has gone through the context: its constants are
loaded from those that the context has and maybe more, and it captures at least as much. -/
structure Hosts (site : Site) (c : Context) : Prop where
  constants : ∃ ks, c.frame.constants <+: ks ∧ LoadsAll ks site.function.chunk.constants
  captures : c.frame.captures.length ≤ site.captures

theorem Hosts.of_step (h : Hosts site c') (hs : c.Step n c') : Hosts site c := by
  obtain ⟨ks, hks, hl⟩ := h.constants
  exact ⟨⟨ks, hs.constants.trans hks, hl⟩, Nat.le_trans hs.captures.length_le h.captures⟩

theorem Hosts.constant {i : Nat} {k : Constant} (h : Hosts site c)
    (hk : c.frame.constants[i]? = some k) :
    ∃ v, site.function.chunk.constants[i]? = some v ∧ k.Loads v := by
  obtain ⟨ks, ⟨rest, rfl⟩, hl⟩ := h.constants
  apply hl.get
  rw [List.getElem?_append_left (List.getElem?_eq_some_iff.1 hk).1]
  exact hk

/-- A part of the compilation, of size at most `n`, that is without messages and becomes part of the
function. -/
structure Ready (n : Nat) (site : Site) (c c' : Context) : Prop where
  clean : c'.Clean
  room : c.Room (2 ^ 32) n
  linked : Linked c.frame c.enclosing
  hosts : Hosts site c'

theorem Ready.mono (h : Ready n site c c') (hm : m ≤ n) : Ready m site c c' :=
  ⟨h.clean, h.room.mono hm, h.linked, h.hosts⟩

/-- What is ready as a whole is ready part by part. -/
theorem Ready.split {x : Lower α} {f : α → Lower β} (hx : Evolves n x)
    (hf : ∀ a, Evolves m (f a)) (h : Ready (n + m) site c ((x >>= f) c).2) :
    Ready n site c (x c).2 ∧ Ready m site (x c).2 (f (x c).1 (x c).2).2 := by
  have hclean : (x c).2.Clean := (hf _).clean _ h.clean
  have hx' := hx.step c hclean
  refine ⟨⟨hclean, h.room.mono (Nat.le_add_right n m), h.linked, ?_⟩,
    ⟨h.clean, hx'.room _ m h.room, hx'.linked h.linked, h.hosts⟩⟩
  exact h.hosts.of_step ((hf _).step _ h.clean)

/-- A part of the compilation gives what has a property, wherever it is ready. -/
structure Yields (site : Site) (n : Nat) (x : Lower α) (P : α → Prop) : Prop where
  evolves : Evolves n x
  gives : ∀ c, Ready n site c (x c).2 → P (x c).1

namespace Yields

variable {x : Lower α} {f : α → Lower β}

theorem pure {a : α} (h : P a) : Yields site 0 (Pure.pure a) P := ⟨.pure a, fun _ _ => h⟩

theorem mono (h : Yields site n x P) (hm : n ≤ m) : Yields site m x P :=
  ⟨h.evolves.mono hm, fun c hr => h.gives c (hr.mono hm)⟩

theorem imp {P' : α → Prop} (h : Yields site n x P) (hP : ∀ a, P a → P' a) : Yields site n x P' :=
  ⟨h.evolves, fun c hr => hP _ (h.gives c hr)⟩

theorem and {P' : α → Prop} (h : Yields site n x P) (hg : Gives P' x) :
    Yields site n x fun a => P' a ∧ P a :=
  ⟨h.evolves, fun c hr => ⟨hg c, h.gives c hr⟩⟩

theorem andRoom (h : Yields site n x P) : Yields site n x fun a => n < 2 ^ 32 ∧ P a :=
  ⟨h.evolves, fun c hr => ⟨Nat.lt_of_le_of_lt (Nat.le_add_left ..) hr.room.frame.constants, h.gives c hr⟩⟩

theorem bind (hx : Yields site n x P) (hf : ∀ a, Yields site m (f a) fun b => P a → Q b) :
    Yields site (n + m) (x >>= f) Q := by
  refine ⟨hx.evolves.bind fun a => (hf a).evolves, fun c hr => ?_⟩
  obtain ⟨h₁, h₂⟩ := hr.split hx.evolves fun a => (hf a).evolves
  exact (hf _).gives _ h₂ (hx.gives c h₁)

theorem andThen (hx : Evolves n x) (hf : ∀ a, Yields site m (f a) Q) :
    Yields site (n + m) (x >>= f) Q :=
  bind (P := fun _ => True) ⟨hx, fun _ _ => trivial⟩ fun a => (hf a).imp fun _ h _ => h

/-- What comes behind a message does not matter. -/
theorem ofReport {cause : Diagnostic.Cause} {span : Span} {f : Unit → Lower β} (hf : Evolves m (f ())) :
    Yields site m (report cause span >>= f) Q := by
  refine ⟨?_, fun c hr => absurd (hf.clean _ hr.clean) (not_clean_report cause span c)⟩
  have := (evolves_report cause span).bind fun _ => hf
  rwa [Nat.zero_add] at this

end Yields

theorem yields_nameConstant (name : String) : Yields site 1 (nameConstant name) site.HasName := by
  refine ⟨evolves_constant _, fun c h => ?_⟩
  obtain ⟨v, hv, hl⟩ := h.hosts.constant (constant_index h.room)
  cases hl with
  | string => exact ⟨name, hv⟩
  | foreign hf => cases hf

/-- The variable is one that the function has, if it is captured. -/
def Binding.Within (site : Site) : Binding → Prop
  | .captured index => index.toNat < site.captures
  | _ => True

theorem yields_resolve (id : Ident) :
    Yields site 1 (resolve id) fun r => ∃ b, r = some b ∧ Binding.Within site b := by
  refine ⟨evolves_resolve id, fun c h => ?_⟩
  obtain ⟨b, hb⟩ := exists_of_clean_resolve h.clean
  refine ⟨b, hb, ?_⟩
  cases b with
  | captured index => exact Nat.lt_of_lt_of_le (captured_lt hb) h.hosts.captures
  | _ => trivial

/-! ## Code in its place -/

variable {loop : Option (List Slot)} {f g : Fragment} {τ τ' τ'' : List Slot} {s : Slot} {span : Span}
  {o o' off off' d : Nat}

/-- In a loop, its head lies `off` bytes before a place and can be run with a boolean on top of the stack
that the loop rests on. A jump to it takes a step. -/
def Around (site : Site) (loop : Option (List Slot)) (n o off : Nat) : Prop :=
  ∀ σ ∈ loop, ∃ h, h + off = o ∧ ∀ m < n, Safe m site h (.bool :: σ)

theorem Around.shift (h : Around site loop n o off) (ho : o' + off = o + off') :
    Around site loop n o' off' := by
  intro σ hσ
  obtain ⟨t, ht, hs⟩ := h σ hσ
  exact ⟨t, by omega, hs⟩

/-- Wherever the code stands in the function, it can be run on stacks of the type `τ` if the place behind
it, unless it ends with a return, can be on stacks of the type `τ'`. -/
def Turns (site : Site) (loop : Option (List Slot)) (f : Fragment) (τ τ' : List Slot) : Prop :=
  ∀ n o off, Placed site.code o (linkFrom off f) → Around site loop n o off →
    (f.endsInReturn = false → Safe n site (o + f.size) τ') → Safe n site o τ

theorem turns_nil : Turns site loop [] τ τ := fun _ _ _ _ _ h => h rfl

theorem Turns.inLoop (h : Turns site none f τ τ') : Turns site loop f τ τ' :=
  fun n o off hp _ => h n o off hp nofun

theorem Turns.append (hf : Turns site loop f τ τ') (hg : Turns site loop g τ' τ'') :
    Turns site loop (f ++ g) τ τ'' := by
  intro n o off hp hh hn
  refine hf n o off hp.linkLeft hh fun hr => ?_
  refine hg n _ _ hp.linkRight (hh.shift (by omega)) fun hr' => ?_
  rw [Nat.add_assoc, ← size_append]
  exact hn (endsInReturn_append_of hr hr')

theorem Turns.safe (h : Turns site none f τ τ') (hc : f.Closed) (hp : Placed site.code o f)
    (hn : Safe n site (o + f.size) τ') : Safe n site o τ :=
  h n o 0 (by rwa [hc]) nofun fun _ => hn

/-! ## Instructions -/

theorem turns_emit {i : Instruction} (hc : i.op.format.Countable i.args)
    (hf : ∀ S E next, ((emit i span).endsInReturn = false → S next τ') →
      Flow site S E next i.op i.args τ) : Turns site loop (emit i span) τ τ' := by
  intro n o off hp _ hn
  rw [size_emit] at hn
  cases n with
  | zero => trivial
  | succ n => exact ⟨i, _, Placed.fetch hp hc, hf _ _ _ fun hr => (hn hr).pred⟩

theorem turns_pop : Turns site loop (pop span) (s :: τ) τ :=
  turns_emit trivial fun _ _ _ h => ⟨s, τ, rfl, h rfl⟩

theorem safe_pop (hp : Placed site.code o (pop span)) (h : Safe n site (o + 1) τ) :
    Safe n site o (s :: τ) :=
  turns_pop.safe (closed_emit _ _) hp h

theorem turns_get {b : Binding} (hb : Binding.Within site b) :
    Turns site loop (b.get span) τ (.any :: τ) := by
  cases b with
  | captured index => exact turns_emit trivial fun _ _ _ h => ⟨hb, h rfl⟩
  | _ => exact turns_emit trivial fun _ _ _ h => h rfl

theorem turns_set {b : Binding} (hb : Binding.Within site b) :
    Turns site loop (b.set span) (s :: τ) (.any :: τ) := by
  cases b with
  | captured index => exact turns_emit trivial fun _ _ _ h => ⟨hb, s, τ, rfl, h rfl⟩
  | _ => exact turns_emit trivial fun _ _ _ h => ⟨s, τ, rfl, h rfl⟩

theorem turns_define {b : Option Binding} : Turns site loop (define b span) (s :: τ) τ := by
  rcases b with _ | (_ | _ | _) <;> exact turns_emit trivial fun _ _ _ h => ⟨s, τ, rfl, h rfl⟩

theorem turns_binaryInstruction {op : BinaryOp} {t : Slot} :
    Turns site loop (emit (binaryInstruction op) span) (s :: t :: τ) (.any :: τ) := by
  rcases op with (_ | _ | _ | _ | _) | _ | _ | _ | _ | _ | _ | _ | _ <;>
    exact turns_emit trivial fun _ _ _ h => ⟨s, t, τ, rfl, h rfl⟩

theorem turns_releaseAfter {run : Nat} {ls : List Local} :
    Turns site loop (releaseAfter run span ls) τ τ := by
  refine releaseAfter_induction (P := (Turns site loop · τ τ)) turns_nil .append ?_ (fun n => ?_) ?_ run ls
  all_goals exact turns_emit trivial fun _ _ _ h => h rfl

theorem yields_leaveScope (span : Span) :
    Yields site 0 (leaveScope span) fun r => ∀ loop τ, Turns site loop r τ τ :=
  ⟨evolves_leaveScope span, fun _ _ _ _ => turns_releaseAfter⟩

/-- Wherever the code stands in the function, it leads on with some more slots. -/
def Pushes (site : Site) (σ : List Slot) (f : Fragment) : Prop := ∀ τ, Turns site none f τ (σ ++ τ)

theorem Pushes.append {σ σ' : List Slot} (hf : Pushes site σ f) (hg : Pushes site σ' g) :
    Pushes site (σ' ++ σ) (f ++ g) := by
  intro τ
  rw [List.append_assoc]
  exact (hf τ).append (hg (σ ++ τ))

theorem yields_pushConstant {k : Constant}
    (hk : ∀ v, k.Loads v → v.isDatum = true ∧ s.admits v) :
    Yields site 1 (pushConstant k span) (Pushes site [s]) := by
  refine ⟨evolves_pushConstant k span, fun c h τ => ?_⟩
  obtain ⟨v, hv, hl⟩ := h.hosts.constant (constant_index h.room)
  obtain ⟨hd, hs⟩ := hk v hl
  exact turns_emit trivial fun _ _ _ h => ⟨v, s, hv, hd, hs, h rfl⟩

theorem yields_literal (l : Literal) (span : Span) :
    Yields site 1 (literal l span) (Pushes site [.any]) := by
  have hdatum {k : Constant} {v : Value} (hl : k.Loads v) (hf : k.isForeign = false)
      (hn : k.kind ≠ .function) (hr : k.kind ≠ .record) : v.isDatum = true ∧ Slot.any.admits v := by
    cases hl with
    | function => exact absurd rfl hn
    | record => exact absurd rfl hr
    | foreign h => rw [hf] at h; cases h
    | _ => exact ⟨rfl, trivial⟩
  cases l with
  | int | float | string | char => exact yields_pushConstant fun v hl => hdatum hl rfl nofun nofun
  | bool b =>
    cases b <;> exact .mono (.pure fun τ => turns_emit trivial fun _ _ _ h => .inl (h rfl))
      (Nat.zero_le 1)
  | nil | void =>
    exact .mono (.pure fun τ => turns_emit trivial fun _ _ _ h => h rfl) (Nat.zero_le 1)

/-! ## Functions -/

section Functions

variable {name self : String} {params : List Ident} {body : Lower Fragment}

/-- The body of a function can be run in every function that it is compiled into. -/
def BodyYields (n : Nat) (body : Lower Fragment) : Prop :=
  ∀ site, Yields site n body fun f => f.Closed ∧ Turns site none f [] []

/-- A compiled function is safe from its beginning. -/
theorem safe_function {g : Function Value} (hb : BodyYields n body)
    (hclean : (function name self params span body c).2.Clean)
    (hroom : c.Room (2 ^ 32) (params.length + n + 1)) (hlinked : Linked c.frame c.enclosing)
    (hg : let r := withParams params body (c.inside self)
      Function.Loads ⟨params.length.toUInt32,
        (returning r.1 span).toChunk (some name) r.2.frame.constants⟩ g) (m : Nat) :
    Safe m ⟨g, (withParams params body (c.inside self)).2.frame.captures.length, false⟩ 0 [] := by
  obtain ⟨hfar, hrc, -⟩ := function_of_clean hclean
  set r := withParams params body (c.inside self)
  let site : Site := ⟨g, r.2.frame.captures.length, false⟩
  have hhosts : Hosts site r.2 := by
    refine ⟨⟨r.2.frame.constants, List.prefix_refl _, ?_⟩, Nat.le_refl _⟩
    have := hg.constants
    rwa [constants_toChunk] at this
  have hready : Ready (params.length + n) site (c.inside self) r.2 :=
    ⟨hrc, hroom.inside self, ⟨by simp [Context.inside], hlinked⟩, hhosts⟩
  obtain ⟨hclosed, hturns⟩ := (Yields.andThen (evolves_declareParams params) fun _ => hb site).gives
    (c.inside self) hready
  have hplaced : Placed site.code 0 (returning r.1 span) := by
    show Placed g.chunk.code 0 _
    rw [hg.code]
    exact placed_toChunk hfar _ _
  unfold returning at hplaced
  by_cases he : r.1.endsInReturn
  · rw [if_pos he] at hplaced
    refine hturns m 0 0 (by rwa [hclosed]) (by rintro _ ⟨⟩) fun hf => ?_
    exact absurd he (by rw [show r.1.endsInReturn = false from hf]; exact Bool.false_ne_true)
  · rw [if_neg he] at hplaced
    refine hturns.safe hclosed hplaced.left ?_
    cases m with
    | zero => trivial
    | succ m => exact ⟨_, _, hplaced.right.fetch trivial, trivial⟩

theorem yields_function (hb : BodyYields n body) (hs : s = .any ∨ s = .closure) :
    Yields site (params.length + n + 2) (function name self params span body) (Pushes site [s]) := by
  have hev := (hb site).evolves
  refine ⟨evolves_function hev, fun c h τ m o off hp _ hm => ?_⟩
  obtain ⟨-, hrc, he⟩ := function_of_clean h.clean
  have hsafe {g : Function Value} := safe_function (g := g) hb h.clean
    (h.room.mono (Nat.le_succ (params.length + n + 1))) h.linked
  have hstep := (evolves_withParams params hev).step _ hrc
  set r := withParams params body (c.inside self)
  have hroom : r.2.outside.Room (2 ^ 32) 1 := hstep.outside.1.room _ 1 h.room
  have hcount : r.2.frame.captures.length < 2 ^ 32 :=
    (hstep.room _ 0 (Context.Room.inside (h.room.mono (Nat.le_succ _)) self)).frame.captures
  have hlink : Linked r.2.frame r.2.enclosing :=
    hstep.linked ⟨by simp [Context.inside], h.linked⟩
  have hhosts := h.hosts
  rw [he] at hhosts hp hm
  obtain ⟨v, hv, hl⟩ := hhosts.constant (constant_index hroom)
  obtain ⟨key, g, rfl, hg⟩ := hl.of_function
  have hcaptures : ∀ x ∈ r.2.frame.captures, x.fromLocal = false →
      x.index.toNat < site.captures := by
    intro x hx hf
    refine Nat.lt_of_lt_of_le ?_ hhosts.captures
    show _ < (r.2.enclosing.headD {}).captures.length
    cases hen : r.2.enclosing with
    | nil =>
      rw [hen] at hlink
      rw [show r.2.frame.captures = [] from hlink] at hx
      cases hx
    | cons f fs =>
      rw [hen] at hlink
      have := hlink.1 x hx
      rwa [hf] at this
  cases m with
  | zero => trivial
  | succ m =>
    have hnext := (hm rfl).pred
    unfold close at hnext hp
    rw [size_emit] at hnext
    refine ⟨_, _, Placed.fetch hp hcount, ⟨key, g⟩, hv, hcaptures, hsafe hg m, ?_⟩
    rcases hs with rfl | rfl
    · exact .inl hnext
    · exact .inr hnext

end Functions

/-! ## Jumps -/

section Jumps

variable {rest : Fragment}

theorem safe_always (hp : Placed site.code o (.jump .always d span :: rest))
    (h : Safe n site (o + 5 + d) τ) : Safe n site o τ := by
  cases n with
  | zero => trivial
  | succ n =>
    obtain ⟨hf, hd⟩ := hp.fetch_jump
    refine ⟨_, _, hf, ?_⟩
    show Safe n site (o + 5 + d.toUInt32.toNat) τ
    rw [hd]
    exact h.pred

theorem safe_branch {b : Branch} (hb : b = .ifFalse ∨ b = .ifTrue)
    (hp : Placed site.code o (.jump b d span :: rest)) (hs : s = .any ∨ s = .bool)
    (h : Safe n site (o + 5) (.any :: τ)) (h' : Safe n site (o + 5 + d) (.any :: τ)) :
    Safe n site o (s :: τ) := by
  cases n with
  | zero => trivial
  | succ n =>
    obtain ⟨hf, hd⟩ := hp.fetch_jump
    have ht : Safe n site (o + 5 + d.toUInt32.toNat) (.any :: τ) := by
      rw [hd]
      exact h'.pred
    rcases hb with rfl | rfl
    · exact ⟨_, _, hf, s, τ, rfl, hs, h.pred, ht⟩
    · exact ⟨_, _, hf, s, τ, rfl, hs, h.pred, ht⟩

theorem safe_ifDone (hp : Placed site.code o (.jump .ifDone d span :: rest))
    (h : Safe n site (o + 5) (.range :: τ)) (h' : Safe n site (o + 5 + d) (.range :: τ)) :
    Safe n site o (.range :: τ) := by
  cases n with
  | zero => trivial
  | succ n =>
    obtain ⟨hf, hd⟩ := hp.fetch_jump
    refine ⟨_, _, hf, τ, rfl, h.pred, ?_⟩
    show Safe n site (o + 5 + d.toUInt32.toNat) (.range :: τ)
    rw [hd]
    exact h'.pred

theorem safe_back {t : Nat} (hp : Placed site.code o (.jump .back d span :: rest))
    (ht : t + d = o + 5) (hτ : τ.head? ≠ some .any) (h : ∀ m < n, Safe m site t τ) :
    Safe n site o τ := by
  cases n with
  | zero => trivial
  | succ n =>
    obtain ⟨hf, hd⟩ := hp.fetch_jump
    refine ⟨_, _, hf, ?_, hτ, ?_⟩
    · show d.toUInt32.toNat ≤ o + 5
      rw [hd]
      omega
    · show Safe n site (o + 5 - d.toUInt32.toNat) τ
      rw [hd, show o + 5 - d = t by omega]
      exact h n (Nat.lt_succ_self n)

theorem turns_exit : Turns site (some τ) [.exit span] (.bool :: τ) τ' := by
  intro n o off hp hh _
  obtain ⟨h, ho, hs⟩ := hh τ rfl
  exact safe_back (show Placed _ o [.jump .back (off + 5) span] from hp) (by omega) nofun hs

end Jumps

/-! ## Control structures -/

section Control

variable {t k a r : Fragment}

theorem turns_logical {b : Branch} (hb : b = .ifFalse ∨ b = .ifTrue)
    (ht : Turns site loop t τ (.any :: τ)) (hk : Turns site loop k τ (.any :: τ)) :
    Turns site loop (t ++ skip b (pop span ++ k) span ++ emit ⟨.assertBool, ()⟩ span) τ
      (.any :: τ) := by
  intro n o off hp hh hn
  have hskip := hp.linkLeft.linkRight
  have hend : Safe n site (o + (t ++ skip b (pop span ++ k) span).size) (.any :: τ) := by
    refine turns_emit (i := ⟨.assertBool, ()⟩) trivial (fun _ _ _ h => ⟨.any, τ, rfl, h rfl⟩) n _ _
      hp.linkRight (hh.shift (by omega)) fun _ => ?_
    rw [Nat.add_assoc, ← size_append]
    exact hn (endsInReturn_append (List.cons_ne_nil _ _))
  rw [size_append, ← Nat.add_assoc] at hend
  refine ht n o off hp.linkLeft.linkLeft hh fun _ => safe_branch hb hskip (.inl rfl) ?_ ?_
  · exact (turns_pop.append hk) n _ _ hskip.linkTail (hh.shift (by simp only [size_jump]; omega))
      fun _ => by
        rwa [Nat.add_assoc]
  · rwa [Nat.add_assoc]

theorem turns_condCode (hc : t.Closed) (ht : Turns site none t τ (.any :: τ))
    (hk : Turns site loop k τ τ) (ha : Turns site loop a τ τ) :
    Turns site loop (condCode t k a span) τ τ := by
  intro n o off hp hh hn
  have hl := condPlaced hc hp
  have hout : Safe n site (o + t.size + k.size + 12 + a.size) τ := by
    have := hn (endsInReturn_append (List.cons_ne_nil _ _))
    rwa [size_condCode, show o + (t.size + k.size + a.size + 12) =
      o + t.size + k.size + 12 + a.size by omega] at this
  have helse : Safe n site (o + t.size + k.size + 11) (.any :: τ) :=
    safe_pop hl.dropElse (ha n _ _ hl.alternate (hh.shift (by omega)) fun _ => hout)
  have hthen : Safe n site (o + t.size + 5) (.any :: τ) := by
    refine safe_pop hl.dropThen (hk n _ _ hl.consequent (hh.shift (by omega)) fun _ => ?_)
    refine safe_always hl.jumpOver ?_
    rwa [show o + t.size + 6 + k.size + 5 + (a.size + 1) = o + t.size + k.size + 12 + a.size by omega]
  refine ht.safe hc hl.test (safe_branch (.inl rfl) hl.jump (.inl rfl) hthen ?_)
  rwa [show o + t.size + 5 + (k.size + 6) = o + t.size + k.size + 11 by omega]

/-- The places from which a round of a loop can begin: the head of the loop, the code before the round and
the round itself. -/
def Begins (site : Site) (o first : Nat) (τ : List Slot) (m : Nat) : Prop :=
  Safe m site (o + 5) (.bool :: τ) ∧ Safe m site (o + 11) τ ∧ Safe m site (o + 11 + first) τ

theorem turns_loopCode {first round : Fragment} (hc : first.Closed) (hfirst : Turns site none first τ τ)
    (hround : ∀ n o, Placed site.code (o + 11 + first.size) (linkFrom (6 + first.size) round) →
      (∀ m < n, Begins site o first.size τ m) →
      Safe n site (o + 11 + first.size + round.size) (.any :: τ) →
      Safe n site (o + 11 + first.size + round.size + 1) τ → Safe n site (o + 11 + first.size) τ) :
    Turns site loop (loopCode first round span) τ τ := by
  intro n o off hp _ hn
  have hl := loopPlaced ((closed_loopCode _ _ _).placed hp)
  replace hn := hn (endsInReturn_append_pop _ span)
  rw [size_loopCode, show o + (first.size + round.size + 12) =
    o + 11 + first.size + round.size + 1 by omega] at hn
  have hall : ∀ m ≤ n, Begins site o first.size τ m := by
    intro m
    induction m using Nat.strongRecOn with
    | ind m ih =>
      intro hm
      have hpop {s : Slot} : Safe m site (o + 11 + first.size + round.size) (s :: τ) :=
        safe_pop hl.out (hn.anti hm)
      have hr := hround m o hl.round (fun k hk => ih k hk (by omega)) hpop (hn.anti hm)
      have hf : Safe m site (o + 11) τ := hfirst.safe hc ((hc.placed hl.first)) hr
      refine ⟨safe_branch (.inl rfl) hl.head (.inr rfl) (safe_pop hl.drop hf) ?_, hf, hr⟩
      rw [show o + 5 + 5 + (1 + first.size + round.size) = o + 11 + first.size + round.size by omega]
      exact hpop
  refine safe_always hl.start ?_
  rw [show o + 5 + (6 + first.size) = o + 11 + first.size by omega]
  exact (hall n (Nat.le_refl n)).2.2

/-- The head of the loop is around its round. -/
theorem Begins.around {first : Nat} (h : ∀ m < n, Begins site o first τ m) (ho : o + 5 + off = o') :
    Around site (some τ) n o' off := by
  rintro _ ⟨⟩
  exact ⟨o + 5, ho, fun m hm => (h m hm).1⟩

theorem turns_while (hc : t.Closed) (ht : Turns site none t τ (.any :: τ))
    (hk : Turns site (some τ) k τ τ) (hτ : τ.head? ≠ some .any) :
    Turns site loop (loopCode [] (whileRound t k span) span) τ τ := by
  refine turns_loopCode closed_nil turns_nil fun n o hp hbegins hout _ => ?_
  rw [size_nil] at *
  have hl := whilePlaced hc hp
  refine ht.safe hc hl.test (safe_branch (.inl rfl) hl.jump (.inl rfl) (safe_pop hl.drop ?_) ?_)
  · refine hk n _ _ hl.body (Begins.around hbegins (by omega)) fun _ => ?_
    exact safe_back hl.back (by omega) hτ fun m hm => (hbegins m hm).2.2
  · rw [size_whileRound] at hout
    rwa [show o + 11 + 0 + t.size + 5 + (k.size + 6) = o + 11 + 0 + (t.size + k.size + 11) by omega]

theorem turns_loop (hk : Turns site (some τ) k τ τ) (hτ : τ.head? ≠ some .any) :
    Turns site loop (loopCode [] (again k span) span) τ τ := by
  refine turns_loopCode closed_nil turns_nil fun n o hp hbegins _ _ => ?_
  obtain ⟨hbody, hback⟩ := againPlaced hp
  refine hk n _ _ hbody (Begins.around hbegins (by rw [size_nil])) fun _ => ?_
  exact safe_back hback (by omega) hτ fun m hm => (hbegins m hm).2.2

theorem turns_forIn {b : Option Binding} (hc : r.Closed)
    (hk : Turns site (some (.range :: τ)) k (.range :: τ) (.range :: τ))
    (hr : Turns site none r (.range :: τ) (.range :: τ)) :
    Turns site loop (loopCode (emit ⟨.advance, ()⟩ span) (forInRound b k r span) span) (.range :: τ)
      (.range :: τ) := by
  refine turns_loopCode (closed_emit _ _)
    (turns_emit trivial fun _ _ _ h => ⟨τ, rfl, h rfl⟩) fun n o hp hbegins _ hout => ?_
  rw [show (emit ⟨.advance, ()⟩ span).size = 1 from rfl] at *
  have hl := forInPlaced hc hp
  refine safe_ifDone hl.jump ?_ ?_
  · have hnext : Turns site none (emit ⟨.getNext, ()⟩ span) (.range :: τ) (.any :: .range :: τ) :=
      turns_emit trivial fun _ _ _ h => ⟨τ, rfl, h rfl⟩
    refine hnext.safe (closed_emit _ _) hl.next
      (turns_define.safe (closed_define b span) hl.define ?_)
    rw [size_define, show (emit ⟨.getNext, ()⟩ span).size = 1 from rfl]
    refine hk n _ _ hl.body (Begins.around hbegins (by omega)) fun _ => ?_
    exact hr.safe hc hl.released (safe_back hl.back (by omega) nofun fun m hm => (hbegins m hm).2.1)
  · rw [size_forInRound] at hout
    rwa [show o + 11 + 1 + 5 + (k.size + r.size + 8) = o + 11 + 1 + (k.size + r.size + 12) + 1 by omega]

theorem turns_forTurn {outer inner : UInt32} (hk : Turns site loop k τ τ)
    (hr : Turns site loop r (.any :: τ) (.any :: τ)) :
    Turns site loop (forTurn outer inner k r span) τ (.bool :: τ) := by
  have hget (slot : UInt32) : Turns site loop (emit ⟨.getLocal, slot⟩ span) τ (.any :: τ) :=
    turns_emit trivial fun _ _ _ h => h rfl
  have hdef : Turns site loop (emit ⟨.defLocal, ()⟩ span) (.any :: τ) τ :=
    turns_emit trivial fun _ _ _ h => ⟨.any, τ, rfl, h rfl⟩
  have hset : Turns site loop (emit ⟨.setLocal, outer⟩ span) (.any :: τ) (.any :: τ) :=
    turns_emit trivial fun _ _ _ h => ⟨.any, τ, rfl, h rfl⟩
  have hagain : Turns site loop (emit ⟨.pushTrue, ()⟩ span) τ (.bool :: τ) :=
    turns_emit trivial fun _ _ _ h => .inr (h rfl)
  exact (((((((hget outer).append hdef).append hk).append (hget inner)).append hr).append hset).append
    turns_pop).append hagain

theorem safe_forTest {test : Option Fragment} {turn : Fragment}
    (ht : ∀ t ∈ test, t.Closed ∧ Turns site none t τ (.any :: τ)) (hturn : Turns site loop turn τ τ')
    (hp : Placed site.code o (linkFrom off (forTest test turn span))) (hh : Around site loop n o off)
    (hout : Safe n site (o + (forTest test turn span).size + 5) (.any :: τ))
    (hend : Safe n site (o + (forTest test turn span).size) τ') : Safe n site o τ := by
  cases test with
  | none => exact hturn n o off hp hh fun _ => hend
  | some t =>
    obtain ⟨hc, ht⟩ := ht t rfl
    have hl := testPlaced hc hp
    rw [size_forTest_some] at hout hend
    refine ht.safe hc hl.test (safe_branch (.inl rfl) hl.jump (.inl rfl) (safe_pop hl.drop ?_) ?_)
    · refine hturn n _ _ hl.turn (hh.shift (by omega)) fun _ => ?_
      rwa [show o + t.size + 5 + 1 + turn.size = o + (t.size + turn.size + 6) by omega]
    · rwa [show o + t.size + 5 + (turn.size + 6) = o + (t.size + turn.size + 6) + 5 by omega]

theorem turns_for {test : Option Fragment} {u turn : Fragment} (hc : u.Closed)
    (hu : Turns site none u τ τ) (ht : ∀ t ∈ test, t.Closed ∧ Turns site none t τ (.any :: τ))
    (hturn : Turns site (some τ) turn τ (.bool :: τ)) :
    Turns site loop (loopCode u (forTest test turn span ++ [.jump .back (Piece.jumpSize +
      (pop span).size + u.size + (forTest test turn span).size + Piece.jumpSize) span]) span) τ τ := by
  refine turns_loopCode hc hu fun n o hp hbegins hout _ => ?_
  have hback := placed_jump hp.linkRight rfl rfl
  rw [size_append, size_cons, size_nil, size_jump, ← Nat.add_assoc] at hout
  refine safe_forTest ht hturn hp.linkLeft (Begins.around hbegins (by omega)) hout ?_
  refine safe_back hback ?_ nofun fun m hm => (hbegins m hm).1
  simp only [size_pop, Piece.jumpSize, wordWidth]
  omega

end Control

/-! ## All trees -/

/-- The code of a statement leads back to the stack it began with, on which no plain value is on top. -/
def Rests (site : Site) (loop : Option Loop) (f : Fragment) : Prop :=
  ∀ τ, τ.head? ≠ some .any → Turns site (loop.map fun _ => τ) f τ τ

theorem Rests.append {loop : Option Loop} (hf : Rests site loop f) (hg : Rests site loop g) :
    Rests site loop (f ++ g) :=
  fun τ hτ => (hf τ hτ).append (hg τ hτ)

theorem Pushes.rests {loop : Option Loop} (hf : Pushes site [s] f)
    (hg : ∀ τ, Turns site none g (s :: τ) τ) : Rests site loop (f ++ g) :=
  fun τ _ => ((hf τ).append (hg τ)).inLoop

theorem bodyYields_statements {strip : Bool} {body : List Stmt}
    (h : ∀ site, Yields site n (statements strip none body) (Rests site none)) :
    BodyYields n (statements strip none body) :=
  fun site => ((h site).and (gives_closed_statements strip body)).imp fun _ h => ⟨h.1, h.2 [] nofun⟩

theorem toNat_length {γ : Type} {l : List γ} (h : l.length ≤ n) (hn : n < 2 ^ 32) :
    l.length.toUInt32.toNat = l.length :=
  Word.toNat_toUInt32 (Nat.lt_of_le_of_lt h hn)

theorem turns_appendMethods {methods : List Method} (hcount : Method.sizes methods < 2 ^ 32) :
    ∃ s, Turns site loop (if methods.isEmpty then []
      else emit ⟨.appendMethods, methods.length.toUInt32⟩ span)
        (List.replicate methods.length .closure ++ .record :: τ) (s :: τ) := by
  cases methods with
  | nil => exact ⟨.record, turns_nil⟩
  | cons m ms =>
    refine ⟨.any, turns_emit trivial fun _ _ _ h => ⟨τ, ?_, h rfl⟩⟩
    rw [toNat_length (Method.length_le_sizes _) hcount]

theorem yields_exitLoop (loop : Option Loop) (how : LoopExit) (span : Span) :
    Yields site 0 (exitLoop loop how span) (Rests site loop) := by
  cases loop with
  | none => exact .ofReport (.pure _)
  | some loop =>
    refine .bind (P := fun r => ∀ τ σ, Turns site (some τ) r σ σ)
      ⟨evolves_release _ _, fun _ _ _ _ => turns_releaseAfter⟩ fun r => .pure fun hr τ _ => ?_
    obtain ⟨depth, carry⟩ := loop
    cases how with
    | «break» =>
      have hpush : Turns site (some τ) (emit ⟨.pushFalse, ()⟩ span) τ (.bool :: τ) :=
        turns_emit trivial fun _ _ _ h => .inr (h rfl)
      exact ((hr τ τ).append hpush).append turns_exit
    | «continue» =>
      have hpush : Turns site (some τ) (emit ⟨.pushTrue, ()⟩ span) τ (.bool :: τ) :=
        turns_emit trivial fun _ _ _ h => .inr (h rfl)
      refine (Turns.append ?_ hpush).append turns_exit
      rcases carry with _ | ⟨outer, inner⟩
      · exact hr τ τ
      · -- The copy of the loop variable is read, the locals are dropped, and it is written back.
        have hget : Turns site (some τ) (emit ⟨.getLocal, inner⟩ span) τ (.any :: τ) :=
          turns_emit trivial fun _ _ _ h => h rfl
        have hset : Turns site (some τ) (emit ⟨.setLocal, outer⟩ span) (.any :: τ) (.any :: τ) :=
          turns_emit trivial fun _ _ _ h => ⟨.any, τ, rfl, h rfl⟩
        exact ((hget.append (hr τ (.any :: τ))).append hset).append turns_pop

mutual

theorem yields_expression (strip : Bool) : (e : Expr) → (site : Site) →
    Yields site e.size (expression strip e) (Pushes site [.any])
  | .literal l span, _ => yields_literal l span
  | .name id span, _ => .bind (m := 0) (yields_resolve id) fun b => by
    cases b with
    | none => exact .pure nofun
    | some b => exact .pure fun ⟨_, hb, hw⟩ _ => turns_get (Option.some.inj hb ▸ hw)
  | .binary op left right span, site =>
    .mono ((yields_expression strip left site).bind fun _ => (yields_expression strip right site).bind
      fun _ => .pure fun hr hl τ => ((hl.append hr) τ).append turns_binaryInstruction) (Nat.le_succ _)
  | .logical op left right span, site =>
    .mono ((yields_expression strip left site).bind fun _ => (yields_expression strip right site).bind
      fun _ => .pure fun hr hl τ =>
        turns_logical (by cases op <;> simp [shortcut]) (hl τ) (hr τ)) (Nat.le_succ _)
  | .unary op operand span, site =>
    .mono ((yields_expression strip operand site).bind fun _ => .pure fun h τ => (h τ).append (by
      cases op <;> exact turns_emit trivial fun _ _ _ h => ⟨.any, τ, rfl, h rfl⟩)) (Nat.le_succ _)
  | .assign target value span, site => by
    have hv := yields_expression strip value site
    cases target with
    | name id _ =>
      refine .mono (hv.bind (m := 1) fun _ => .bind (m := 0) (yields_resolve id) fun b => ?_) (by
        simp only [Expr.size]
        omega)
      cases b with
      | none => exact .pure nofun
      | some b => exact .pure fun ⟨_, hb, hw⟩ h τ => (h τ).append (turns_set (Option.some.inj hb ▸ hw))
    | member object property _ =>
      refine .mono ((yields_expression strip object site).bind fun _ => hv.bind fun _ =>
        (yields_nameConstant property.name).bind fun _ => .pure fun hn h ho τ =>
          ((ho.append h) τ).append ?_) (by
        simp only [Expr.size]
        omega)
      exact turns_emit trivial fun _ _ _ h => ⟨hn, .any, .any, τ, rfl, h rfl⟩
    | _ => exact .mono (.ofReport hv.evolves) (by
        simp only [Expr.size]
        omega)
  | .call callee arguments span, site => by
    have ha := (yields_expressions strip arguments site).andRoom
    have hc := yields_expression strip callee site
    have hlength := Expr.length_le_sizes arguments
    cases callee with
    | member object property _ =>
      refine .mono ((yields_expression strip object site).bind fun _ => ha.bind fun _ =>
        (yields_nameConstant property.name).bind fun _ => .pure fun hn h ho τ =>
          ((ho.append h.2) τ).append ?_) (by
        simp only [Expr.size]
        omega)
      refine turns_emit trivial fun _ _ _ hS => ⟨hn, _, .any, τ, List.append_assoc .., ?_, hS rfl⟩
      rw [toNat_length hlength h.1, List.length_replicate]
    | _ =>
      refine .mono (hc.bind fun _ => ha.bind fun _ => .pure fun h hc τ =>
        ((hc.append h.2) τ).append ?_) (Nat.le_succ _)
      refine turns_emit trivial fun _ _ _ hS => ⟨_, .any, τ, List.append_assoc .., ?_, hS rfl⟩
      rw [toNat_length hlength h.1, List.length_replicate]
  | .member object property span, site =>
    (yields_expression strip object site).bind fun _ => (yields_nameConstant property.name).bind
      fun _ => .pure fun hn h τ => (h τ).append
        (by exact turns_emit trivial fun _ _ _ h => ⟨hn, .any, τ, rfl, h rfl⟩)
  | .range first last inclusive span, site =>
    .mono ((yields_expression strip first site).bind fun _ => (yields_expression strip last site).bind
      fun _ => .pure fun hl hf τ => ((hf.append hl) τ).append (by
        cases inclusive <;> exact turns_emit trivial fun _ _ _ h => ⟨.any, .any, τ, rfl, h rfl⟩))
      (Nat.le_succ _)
  | .arrow params body span, site =>
    yields_function (fun site => .bind (m := 0) ((yields_expression strip body site).and
      (gives_closed_expression strip body)) fun _ => .pure fun h =>
        ⟨h.1.append (closed_emit _ _), (h.2 []).append
          (by exact turns_emit trivial fun _ _ _ _ => ⟨.any, [], rfl⟩)⟩) (.inl rfl)
  | .lambda params body span, _ =>
    yields_function (bodyYields_statements (yields_statements strip none body)) (.inl rfl)

theorem yields_expressions (strip : Bool) : (es : List Expr) → (site : Site) →
    Yields site (Expr.sizes es) (expressions strip es) (Pushes site (List.replicate es.length .any))
  | [], _ => .pure fun _ => turns_nil
  | e :: es, site => (yields_expression strip e site).bind (m := Expr.sizes es) fun _ =>
      (yields_expressions strip es site).bind (m := 0) fun _ => .pure fun hs h => by
        rw [List.length_cons, List.replicate_succ']
        exact h.append hs

theorem yields_optionalExpression (strip : Bool) : (e : Option Expr) → (site : Site) →
    Yields site (Expr.sizeOption e) (optionalExpression strip e)
      fun x => ∀ f ∈ x, f.Closed ∧ Pushes site [.any] f
  | none, _ => .pure nofun
  | some e, site => .bind (m := 0) ((yields_expression strip e site).and
      (gives_closed_expression strip e)) fun _ => .pure fun h => by
        rintro _ ⟨⟩
        exact h

theorem yields_statement (strip : Bool) : (loop : Option Loop) → (s : Stmt) → (site : Site) →
    Yields site s.size (statement strip loop s) (Rests site loop)
  | _, .variable id init span, site =>
    (yields_expression strip init site).bind fun _ => .andThen (evolves_declare id) fun _ =>
      .pure fun h => h.rests fun _ => turns_define
  | _, .function id params body span, site => by
    have hf : Yields site (params.length + Stmt.sizes body + 2)
        (function id.name "" params span (statements strip none body)) (Pushes site [.any]) :=
      yields_function (bodyYields_statements (yields_statements strip none body)) (.inl rfl)
    refine .mono (.andThen (m := params.length + Stmt.sizes body + 3) evolves_atTopLevel fun top => ?_)
      (Nat.le_of_eq (Nat.zero_add _))
    cases top with
    | true =>
      exact hf.bind fun _ => .andThen (evolves_declare id) fun _ => .pure fun h =>
        h.rests fun _ => turns_define
    | false =>
      exact .mono (.andThen (evolves_declare id) fun _ => hf.bind fun _ => .pure fun h =>
        h.rests fun _ => turns_define) (by omega)
  | loop, .record id fields methods span, site => by
    have hk : Yields site 1 (pushConstant ⟨.record ⟨id.name, fields.map Ident.name, []⟩⟩ span)
        (Pushes site [.record]) := yields_pushConstant fun v hl => by
      obtain ⟨r, rfl, hr⟩ := hl.of_record
      exact ⟨hr, r, rfl⟩
    have hm := (yields_methodClosures strip span methods site).andRoom
    have hall {f g : Fragment} {b : Option Binding} (hg : Method.sizes methods < 2 ^ 32 ∧ Pushes site
        (List.replicate methods.length .closure) g) (hf : Pushes site [.record] f) :
        Rests site loop (f ++ g ++ (if methods.isEmpty then []
          else emit ⟨.appendMethods, methods.length.toUInt32⟩ span) ++ define b span) := by
      intro τ _
      obtain ⟨s, hs⟩ := turns_appendMethods hg.1
      exact .inLoop ((((hf τ).append (hg.2 (.record :: τ))).append hs).append turns_define)
    refine .mono (.andThen (m := Method.sizes methods + 2) evolves_atTopLevel fun global => ?_) (by
      simp only [Stmt.size]
      omega)
    cases global with
    | true =>
      exact .mono (.andThen (.pure none) fun _ => .andThen (evolves_reportRepeated [] fields) fun _ =>
        .andThen (evolves_reportRepeated [] (methods.map Method.id)) fun _ => hk.bind fun _ =>
          hm.bind fun _ => .andThen (evolves_declare id) fun _ => .pure hall) (by omega)
    | false =>
      exact .mono (.andThen (evolves_declare id) fun before =>
        .andThen (evolves_reportRepeated [] fields) fun _ =>
          .andThen (evolves_reportRepeated [] (methods.map Method.id)) fun _ => hk.bind fun _ =>
            hm.bind fun _ => .andThen (.pure before) fun _ => .pure hall) (by omega)
  | loop, .expression e span, site => by
    have he := yields_expression strip e site
    have hpop {f : Fragment} (h : Pushes site [.any] f) : Rests site loop (f ++ pop span) :=
      h.rests fun _ => turns_pop
    cases e with
    | literal l literalSpan =>
      unfold statement
      split
      · exact .mono (.pure fun _ _ => turns_nil) (Nat.zero_le _)
      · exact .mono ((yields_literal l literalSpan).bind fun _ => .pure hpop) (Nat.le_succ _)
    | name id nameSpan =>
      refine .mono (.bind (m := 0) (yields_resolve id) fun b => ?_) (Nat.le_succ _)
      cases b with
      | none => exact .pure nofun
      | some b =>
        refine .pure fun ⟨_, hb, hw⟩ => ?_
        cases strip with
        | true => exact fun _ _ => turns_nil
        | false => exact hpop fun _ => turns_get (Option.some.inj hb ▸ hw)
    | _ => exact .mono (he.bind fun _ => .pure hpop) (Nat.le_succ _)
  | loop, .block body span, site =>
    .mono (.andThen evolves_enter fun _ => (yields_statements strip loop body site).bind fun _ =>
      (yields_leaveScope span).bind fun _ => .pure fun hr h τ hτ => (h τ hτ).append (hr _ τ)) (by
        simp only [Stmt.size]
        omega)
  | loop, .cond test consequent alternate span, site =>
    .mono (((yields_expression strip test site).and (gives_closed_expression strip test)).bind fun _ =>
      (yields_statement strip loop consequent site).bind fun _ =>
        (yields_optionalStatement strip loop alternate site).bind fun _ =>
          .pure fun ha hk ht τ hτ => turns_condCode ht.1 (ht.2 τ) (hk τ hτ) (ha τ hτ)) (by
        simp only [Stmt.size]
        omega)
  | loop, .while test body span, site =>
    .mono (((yields_expression strip test site).and (gives_closed_expression strip test)).bind fun _ =>
      .andThen evolves_getScope fun _ => (yields_statement strip (some _) body site).bind fun _ =>
        .pure fun hk ht τ hτ => turns_while ht.1 (ht.2 τ) (hk τ hτ) hτ) (by
        simp only [Stmt.size]
        omega)
  | _, .loop body span, site =>
    .mono (.andThen evolves_getScope fun _ => (yields_statement strip (some _) body site).bind fun _ =>
      .pure fun hk τ hτ => turns_loop (hk τ hτ) hτ) (by
        simp only [Stmt.size]
        omega)
  | _, .forIn id iterable body span, site =>
    .mono ((yields_expression strip iterable site).bind fun _ => .andThen evolves_getScope fun _ =>
      .andThen evolves_enter fun _ => .andThen (evolves_declare id) fun _ =>
        (yields_statement strip (some _) body site).bind fun _ => ((yields_leaveScope span).and
          (gives_closed_leaveScope span)).bind fun _ => .pure fun hr hk hi τ hτ =>
            .inLoop ((((hi τ).append (by exact turns_emit trivial fun _ _ _ h =>
              ⟨.any, τ, rfl, h rfl⟩)).append (turns_forIn hr.1 (hk (.range :: τ) nofun)
                (hr.2 _ _))).append turns_pop)) (by
        simp only [Stmt.size]
        omega)
  | _, .for id init test update body span, site =>
    .mono (.andThen evolves_enter fun _ => .andThen evolves_getScope fun _ =>
      (yields_expression strip init site).bind fun _ => .andThen (evolves_addLocal id.name) fun _ =>
        (yields_optionalExpression strip update site).bind fun u =>
          (yields_optionalExpression strip test site).bind fun _ => .andThen evolves_enter fun _ =>
            .andThen (evolves_addLocal id.name) fun _ =>
              (yields_statement strip (some _) body site).bind fun _ =>
                (yields_leaveScope span).bind fun _ => (yields_leaveScope span).bind fun _ =>
                  .pure fun hq hr hk ht hu hi τ hτ => by
                    have hupdate : (forUpdate u span).Closed ∧ Turns site none (forUpdate u span) τ τ := by
                      cases u with
                      | none => exact ⟨closed_nil, turns_nil⟩
                      | some f =>
                        obtain ⟨hc, hf⟩ := hu f rfl
                        exact ⟨hc.append (closed_emit _ _), (hf τ).append turns_pop⟩
                    exact .inLoop ((((hi τ).append (by exact turns_emit trivial fun _ _ _ h =>
                      ⟨.any, τ, rfl, h rfl⟩)).append (turns_for hupdate.1 hupdate.2
                        (fun t h => ⟨(ht t h).1, (ht t h).2 τ⟩)
                          (turns_forTurn (hk τ hτ) (hr _ _)))).append (hq _ _))) (by
        simp only [Stmt.size]
        omega)
  | loop, .return value span, site => by
    unfold statement
    refine .mono (.andThen (m := Expr.sizeOption value) (.ofRead fun _ => rfl) fun c => ?_) (by
      simp only [Stmt.size]
      omega)
    split
    · exact .mono (.ofReport (.pure _)) (Nat.zero_le _)
    · refine .bind (m := 0) (yields_optionalExpression strip value site) fun x => ?_
      cases x with
      | none => exact .pure fun _ τ _ => turns_emit trivial fun _ _ _ _ => trivial
      | some f =>
        exact .pure fun h τ _ => .inLoop (((h f rfl).2 τ).append
          (by exact turns_emit trivial fun _ _ _ _ => ⟨.any, τ, rfl⟩))
  | loop, .exit how span, _ => .mono (yields_exitLoop loop how span) (Nat.zero_le 1)

theorem yields_statements (strip : Bool) : (loop : Option Loop) → (ss : List Stmt) → (site : Site) →
    Yields site (Stmt.sizes ss) (statements strip loop ss) (Rests site loop)
  | _, [], _ => .pure fun _ _ => turns_nil
  | loop, s :: ss, site => (yields_statement strip loop s site).bind (m := Stmt.sizes ss) fun _ =>
      (yields_statements strip loop ss site).bind (m := 0) fun _ => .pure fun hs h => h.append hs

theorem yields_optionalStatement (strip : Bool) : (loop : Option Loop) → (s : Option Stmt) →
    (site : Site) → Yields site (Stmt.sizeOption s) (optionalStatement strip loop s) (Rests site loop)
  | _, none, _ => .pure fun _ _ => turns_nil
  | loop, some s, site => yields_statement strip loop s site

theorem yields_methodClosures (strip : Bool) (span : Span) : (ms : List Method) → (site : Site) →
    Yields site (Method.sizes ms) (methodClosures strip span ms)
      (Pushes site (List.replicate ms.length .closure))
  | [], _ => .pure fun _ => turns_nil
  | ⟨id, params, body⟩ :: ms, site => .bind (m := Method.sizes ms)
      (yields_function (s := .closure) (bodyYields_statements (yields_statements strip none body)) (.inr rfl)) fun _ =>
      (yields_methodClosures strip span ms site).bind (m := 0) fun _ => .pure fun hs h => by
        rw [List.length_cons, List.replicate_succ']
        exact h.append hs

end

end StackScript.Lowering
