import StackScript.Proofs.Semantics.Expressions

/-!
# How statements end

Code for a statement ends behind itself, at the head of the loop around it, or with a return. A
`Target` describes the loop: where its head is, how many locals stay, and what is to be done before
the next round. `Completes` says for each way to end where the machine is then.
-/

namespace StackScript.Semantics.Pairing

open Lowering
open Fragment (emit Placed)

variable {A : Pairing} {S : A.Scene} {γ γ' L L' : List Nat} {o off n : Nat} {st st' : List Value}
  {m : Machine} {w : World} {span : Span} {x : Val} {c c' : Context} {env : Env}

/-! ## Targets -/

/-- A loop at work, as `break` and `continue` see it: the offset of its head, the number of locals
that stay when its body is left, and what is done before the next round. -/
structure Target where
  loop : Loop
  head : Nat
  keep : Nat
  settle : Eval Unit

/-- What the loop does with a completion of its body before it acts on it. -/
def Target.finish (t : Target) : Completion → Eval Unit
  | .normal | .exit .continue => t.settle
  | .exit .break | .return _ => pure ()

theorem Target.finish_of_settle {t : Target} (h : t.settle = pure ()) (completion : Completion) :
    t.finish completion = pure () := by
  rcases completion with _ | (_ | _) | _ <;> first | exact h | rfl

/-- Only a loop with a variable does something before the next round: it copies the variable
back. -/
def Carries (S : A.Scene) (L : List Nat) (keep : Nat) (settle : Eval Unit) :
    Option (UInt32 × UInt32) → Prop
  | none => settle = pure ()
  | some (outer, inner) => ∃ p q, L[S.frame.localsBase + outer.toNat]? = some p ∧
      L[S.frame.localsBase + inner.toNat]? = some q ∧ S.frame.localsBase + outer.toNat < keep ∧
      settle = copyBack q p (.exit .continue)

/-- The target is that of a loop around the code at an offset. The head of the loop stands `off`
bytes before it, and the locals that stay are those that are not declared deeper than the loop. -/
structure Target.Aims (t : Target) (S : A.Scene) (L : List Nat) (c : Context) (o off : Nat) :
    Prop where
  head : t.head + off = o
  labels : ∃ added kept, c.frame.scope.labels = added ++ kept ∧
    S.frame.localsBase + kept.length = t.keep ∧ (∀ l ∈ added, t.loop.depth < l.2) ∧
    ∀ l ∈ kept, l.2 ≤ t.loop.depth
  depth : t.loop.depth ≤ c.frame.scope.depth
  carries : Carries S L t.keep t.settle t.loop.carry

/-- A declaration at this point declares a local, which vanishes when the body of the loop is
left. -/
def MayDeclare (T : Option Target) (c : Context) : Prop :=
  c.isTop = false ∧ ∀ t ∈ T, t.loop.depth < c.frame.scope.depth

theorem length_labels (c : Context) : c.frame.scope.labels.length = c.frame.scope.locals.length :=
  List.length_map ..

theorem getElem?_of_isPrefix {i p : Nat} (hL : L <+: L') (h : L[i]? = some p) : L'[i]? = some p := by
  obtain ⟨rest, rfl⟩ := hL
  rw [List.getElem?_append_left (List.getElem?_eq_some_iff.1 h).1]
  exact h

namespace Target.Aims

variable {t : Target}

theorem keep_le (h : t.Aims S L c o off) (hs : Scoped S L c env) : t.keep ≤ L.length := by
  obtain ⟨added, kept, hl, hk, -, -⟩ := h.labels
  have hlen := hs.length
  rw [← length_labels, hl, List.length_append] at hlen
  omega

theorem move {o' off' : Nat} (h : t.Aims S L c o off) (added : List (String × Nat))
    (hl : c'.frame.scope.labels = added ++ c.frame.scope.labels)
    (ha : ∀ l ∈ added, t.loop.depth < l.2)
    (hd : c.frame.scope.depth ≤ c'.frame.scope.depth) (hL : L <+: L')
    (ho : o' + off = o + off') : t.Aims S L' c' o' off' := by
  obtain ⟨before, kept, hlabels, hk, hbefore, hkept⟩ := h.labels
  refine ⟨?_, ⟨added ++ before, kept, ?_, hk, ?_, hkept⟩, Nat.le_trans h.depth hd, ?_⟩
  · have := h.head
    omega
  · rw [hl, hlabels, List.append_assoc]
  · intro l hm
    rcases List.mem_append.1 hm with hm | hm
    · exact ha l hm
    · exact hbefore l hm
  · have hcarries := h.carries
    cases hc : t.loop.carry with
    | none =>
      rw [hc] at hcarries
      exact hcarries
    | some slots =>
      rw [hc] at hcarries
      obtain ⟨p, q, hp, hq, hlt, he⟩ := hcarries
      exact ⟨p, q, getElem?_of_isPrefix hL hp, getElem?_of_isPrefix hL hq, hlt, he⟩

theorem stay {d : Nat} (h : t.Aims S L c o off) (hc : c.Adds [] c') :
    t.Aims S L c' (o + d) (off + d) :=
  h.move [] hc.labels nofun (Nat.le_of_eq hc.depth.symm) (List.prefix_refl _) (by omega)

theorem length_above (h : t.Aims S L c o off) (hs : Scoped S L c env) :
    t.keep + (c.frame.scope.above t.loop.depth).length = L.length := by
  obtain ⟨added, kept, hl, hk, ha, hkept⟩ := h.labels
  rw [Scope.length_above hl ha hkept, ← hs.length, ← length_labels, hl, List.length_append]
  omega

end Target.Aims

theorem aims_of_scoped {t : Target} (added : List (String × Nat)) (hs : Scoped S L c env)
    (hb : c.frame.scope.Bounded) (hdepth : t.loop.depth = c.frame.scope.depth)
    (hkeep : t.keep = L.length) (hl : c'.frame.scope.labels = added ++ c.frame.scope.labels)
    (ha : ∀ l ∈ added, c.frame.scope.depth < l.2)
    (hd : c.frame.scope.depth ≤ c'.frame.scope.depth) (hhead : t.head + off = o)
    (hcarries : Carries S L' t.keep t.settle t.loop.carry) : t.Aims S L' c' o off := by
  refine ⟨hhead, ⟨added, c.frame.scope.labels, hl, ?_, ?_, ?_⟩, ?_, hcarries⟩
  · rw [length_labels, hkeep]
    exact hs.length
  · rwa [hdepth]
  · rw [hdepth]
    exact hb
  · rwa [hdepth]

/-! ## Leaving a scope -/

theorem Scoped.eq_of_isPrefix {env' : Env} (h : Scoped S L c env) (hc : c.Adds [] c')
    (h' : Scoped S L' c' env') (hL : L <+: L') : L' = L := by
  have h₁ := (h.congr hc).length
  exact (hL.eq_of_length (h₁.symm.trans h'.length)).symm

/-- Code at the end of a scope drops its locals. -/
theorem State.leaves_scope {added : List (String × Nat)} {env' : Env} (h : State S γ L' o st m w)
    (hs : Scoped S L c env) (hs' : Scoped S L' c' env') (hL : L <+: L')
    (hb : c.frame.scope.Bounded)
    (hadds : (modifyScope Scope.enter c).2.Adds added c')
    (ha : ∀ l ∈ added, l.2 = c.frame.scope.depth + 1) (hlt : L'.length < 2 ^ 32)
    (hp : Placed S.code o (leaveScope span c').1) :
    A.Goes m fun m' => State S γ L (o + (leaveScope span c').1.size) st m' w := by
  have hdepth : c'.frame.scope.depth - 1 = c.frame.scope.depth := by
    rw [hadds.depth]
    rfl
  have habove : (c'.frame.scope.above (c'.frame.scope.depth - 1)).length = added.length := by
    rw [hdepth]
    refine Scope.length_above hadds.labels (fun l hl => ?_) hb
    rw [ha l hl]
    exact Nat.lt_succ_self _
  have hlen : L'.length = L.length + added.length := by
    have hlabels : c'.frame.scope.labels.length = added.length + c.frame.scope.labels.length := by
      rw [hadds.labels, List.length_append]
      rfl
    have h₁ := hs.length
    have h₂ := hs'.length
    rw [← length_labels] at h₁ h₂
    omega
  have hr := h.releases 0 (by rw [habove]; omega) hlt hp
  rw [habove, hlen, Nat.zero_add, Nat.add_sub_cancel, List.prefix_iff_eq_take.1 hL |>.symm] at hr
  exact hr

/-! ## Completions -/

variable (S γ L o st) in
/-- The machine is at an offset with the given locals and stack. -/
def Arrives (w : World) (m : Machine) : Prop := ∃ γ', γ <+: γ' ∧ State S γ' L o st m w

theorem State.arrives (h : State S γ L o st m w) : Arrives S γ L o st w m :=
  ⟨γ, List.prefix_refl _, h⟩

theorem Arrives.mono (h : Arrives S γ' L o st w m) (hγ : γ <+: γ') : Arrives S γ L o st w m := by
  obtain ⟨γ₁, h₁, hs⟩ := h
  exact ⟨γ₁, hγ.trans h₁, hs⟩

theorem Leaving.mono (h : Leaving S γ' L' st' x w m) (hγ : γ <+: γ') (hL : L <+: L')
    (hst : st <:+ st') : Leaving S γ L st x w m := by
  obtain ⟨he, γ₁, L₁, o₁, st₁, v, m₁, h₁, h₂, h₃, hv, hm, hs⟩ := h
  exact ⟨he, γ₁, L₁, o₁, st₁, v, m₁, hγ.trans h₁, hL.trans h₂, hst.trans h₃, hv, hm, hs⟩

variable (S γ L st) in
/-- Where the machine is when a statement has ended: as `N` says if it has ended normally, at the
head of the loop with the flag that tells whether to go on, or at a return. -/
def Completes (T : Option Target) (N : World → Machine → Prop) :
    Completion → World → Machine → Prop
  | .normal, w, m => N w m
  | .exit how, w, m => ∃ t w', T = some t ∧ t.finish (.exit how) w = .ok () w' ∧
      Arrives S γ (L.take t.keep) t.head (.bool (how == .continue) :: st) w' m
  | .return x, w, m => Leaving S γ L st x w m

theorem Completes.mono {T : Option Target} {N N' : World → Machine → Prop} {completion : Completion}
    (h : Completes S γ' L' st T N completion w m) (hγ : γ <+: γ') (hL : L <+: L')
    (hkeep : ∀ t ∈ T, t.keep ≤ L.length) (hN : ∀ w m, N w m → N' w m) :
    Completes S γ L st T N' completion w m := by
  cases completion with
  | normal => exact hN w m h
  | exit how =>
    obtain ⟨t, w', ht, hfinish, hm⟩ := h
    refine ⟨t, w', ht, hfinish, ?_⟩
    have hle := hkeep t ht
    obtain ⟨rest, rfl⟩ := hL
    rw [List.take_append_of_le_length hle] at hm
    exact hm.mono hγ
  | «return» x => exact Leaving.mono h hγ hL (List.suffix_refl _)

variable (S γ L o st) in
/-- The machine is behind the code of a statement, which does not end with a return. -/
def Behind (code : Fragment) (c : Context) (env : Env) (w : World) (m : Machine) : Prop :=
  ∃ L', L <+: L' ∧ code.endsInReturn = false ∧ Scoped S L' c env ∧
    Arrives S γ L' (o + code.size) st w m

/-! ## Loops -/

section Loops

variable {f r : Fragment}

theorem State.goes_on (h : State S γ L (o + 5) (.bool true :: st) m w)
    (hl : LoopPlaced S.code o f r span) :
    A.Moves m fun m' => State S γ L (o + 11) st m' w :=
  (h.jumps_if .and hl.head).bind fun _ h₁ => h₁.pops hl.drop

/-- Behind its rounds, a loop drops the flag. -/
theorem State.drops_flag {v : Value} (h : State S γ L (o + 11 + f.size + r.size) (v :: st) m w)
    (hl : LoopPlaced S.code o f r span) :
    A.Goes m fun m' => State S γ L (o + (loopCode f r span).size) st m' w := by
  have h₁ := h.pops hl.out
  rwa [size_loopCode, show o + (f.size + r.size + 12) = o + 11 + f.size + r.size + 1 by
    omega]

/-- At the head of a loop, false leads out of it. -/
theorem State.ends_loop (h : State S γ L (o + 5) (.bool false :: st) m w)
    (hl : LoopPlaced S.code o f r span) :
    A.Goes m fun m' => State S γ L (o + (loopCode f r span).size) st m' w := by
  refine (h.jumps_if .and hl.head).goes.bind fun m₁ h₁ => ?_
  have h₂ : State S γ L (o + 5 + 5 + (1 + f.size + r.size)) (.bool false :: st) m₁ w := h₁
  rw [show o + 5 + 5 + (1 + f.size + r.size) = o + 11 + f.size + r.size by omega] at h₂
  exact h₂.drops_flag hl

theorem Completes.ends_round {σ : Type} {t : Target} {L₁ : List Nat} {next : σ}
    {N : World → Machine → Prop} {Inv : σ → World → Machine → Prop}
    {Q : Completion → World → Machine → Prop} {completion : Completion}
    (h : Completes S γ L₁ st (some t) N completion w m) (hl : LoopPlaced S.code o f r span)
    (hhead : t.head = o + 5) (hkeep : L₁.take t.keep = L)
    (hnormal : ∀ w m, N w m → A.Sim n m (fun _ w' m' => A.Moves m' (Inv next w')) (t.settle w))
    (hgo : ∀ w m, Arrives S γ L (o + 11) st w m → A.Goes m (Inv next w))
    (hout : ∀ w m, Arrives S γ L (o + (loopCode f r span).size) st w m → Q .normal w m)
    (hleave : ∀ x w m, Leaving S γ L₁ st x w m → Q (.return x) w m) :
    A.Sim n m (A.Round Inv Q)
      ((t.finish completion >>= fun _ => pure (completion.after next) : Eval _) w) := by
  cases completion with
  | normal => exact Sim.bind (hnormal w m h) fun _ w' m' hm => Sim.pure hm
  | exit how =>
    obtain ⟨t', w', ht, hfinish, γ', hγ, hm⟩ := h
    obtain rfl := Option.some.inj ht
    rw [hhead, hkeep] at hm
    refine Sim.bind_of_ok hfinish ?_
    cases how with
    | «continue» =>
      refine Sim.pure ?_
      exact (hm.goes_on hl).bind fun m₁ h₁ => hgo w' m₁ ⟨γ', hγ, h₁⟩
    | «break» =>
      exact Sim.of_goes (hm.ends_loop hl) fun m₁ h₁ => Sim.pure (hout w' m₁ ⟨γ', hγ, h₁⟩)
  | «return» x => exact Sim.pure (hleave x w m h)

theorem State.copies_back {outer inner : UInt32} {p q : Nat} {r : Fragment} {L₀ : List Nat}
    (h : State S γ L o st m w) (hq : L[S.frame.localsBase + inner.toNat]? = some q)
    (hp : L₀[S.frame.localsBase + outer.toNat]? = some p)
    (hread : Placed S.code o (emit ⟨.getLocal, inner⟩ span))
    (hdrop : ∀ γ' v m, State S γ' L (o + 5) (v :: st) m w →
      A.Goes m fun m' => State S γ' L₀ (o + 5 + r.size) (v :: st) m' w)
    (hwrite : Placed S.code (o + 5 + r.size) (emit ⟨.setLocal, outer⟩ span))
    (hpop : Placed S.code (o + 10 + r.size) (pop span))
    (hpush : Placed S.code (o + 11 + r.size) (emit ⟨.pushTrue, ()⟩ span)) :
    ∃ w', copyBack q p .normal w = .ok () w' ∧
      A.Goes m (Arrives S γ L₀ (o + 12 + r.size) (.bool true :: st) w') := by
  obtain ⟨-, x, -, hx, -⟩ := h.local hq
  refine ⟨{ w with places := w.places.set p x }, ?_, ?_⟩
  · show (load q >>= fun v => store p v : Eval Unit) w = _
    show EStateM.bind (load q) _ w = _
    unfold EStateM.bind
    rw [load_of_place hx]
    rfl
  · have hload : A.Sim 0 m (Yields S γ L (o + 5) st) (load q w) := h.gets_local hq hread
    rw [load_of_place hx] at hload
    refine Goes.bind hload ?_
    rintro m₁ ⟨γ₁, v, hγ, hv, h₁⟩
    refine (hdrop γ₁ v m₁ h₁).bind fun m₂ h₂ => ?_
    refine (h₂.sets_local hv hp hwrite).bind fun m₃ h₃ => ?_
    rw [show o + 5 + r.size + 5 = o + 10 + r.size by omega] at h₃
    refine (h₃.pops hpop).bind fun m₄ h₄ => ?_
    rw [show o + 10 + r.size + 1 = o + 11 + r.size by omega] at h₄
    have h₅ := h₄.pushes (v := .bool true) hpush trivial rfl
    rw [Fragment.size_emit, show o + 11 + r.size + Instruction.size ⟨.pushTrue, ()⟩ =
      o + 12 + r.size by show o + 11 + r.size + 1 = _; omega] at h₅
    exact h₅.mono fun m₅ h₅ => ⟨γ₁, hγ, h₅⟩

end Loops

end StackScript.Semantics.Pairing
