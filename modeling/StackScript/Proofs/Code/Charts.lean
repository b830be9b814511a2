import StackScript.Proofs.Lowering.Layout

/-!
# Charts of code

A chart of a fragment marks places with states, such that control that is at a place in its state
gets, by the next piece, only to a marked place again: inside the fragment, at its end, or at a
place outside that is known otherwise. What an instruction does to a state is left open: charts with
one state say that jumps arrive at instructions, charts of tallies how many locals there are.

Charts of parts are put together to one of the whole, which still shows what they show.
-/

namespace StackScript

/-- What code does to a state. -/
structure Moves (σ : Type) where
  /-- An instruction that does not jump goes on with another state, or ends. -/
  act : Instruction → σ → Option σ → Prop
  /-- Jumps, which keep the state, are allowed in it. -/
  jumps : σ → Prop

/-- The operations that work on the stack alone. -/
def Opcode.isIdle : Opcode → Bool
  | .pushClosure | .defLocal | .getLocal | .setLocal | .popLocal | .popnLocal | .closeUpvalue
  | .defGlobal | .getGlobal | .setGlobal | .return | .returnVoid | .exitSuccess | .jump | .jumpTrue
  | .jumpFalse | .jumpHasNoNext | .loop => false
  | _ => true

/-- Jumps and operations on the stack alone are allowed in the state and keep it. -/
structure Moves.Idles {σ : Type} (move : Moves σ) (s : σ) : Prop where
  act : ∀ i : Instruction, i.op.isIdle = true → move.act i s (some s)
  jumps : move.jumps s

section

variable {σ : Type} (move : Moves σ)

/-- The piece at an offset leads in a state to places of `L` only. An open end leads to the head of
the loop around it. -/
def Piece.Goes (head : Option Nat) (L : Nat → σ → Prop) (o : Nat) (s : σ) : Piece → Prop
  | .instruction i _ => ∃ u, move.act i s u ∧ ∀ t ∈ u, L (o + i.size) t
  | .jump .always d _ => move.jumps s ∧ L (o + 5 + d) s
  | .jump .back d _ => move.jumps s ∧ d ≤ o + 5 ∧ L (o + 5 - d) s
  | .jump _ d _ => move.jumps s ∧ L (o + 5) s ∧ L (o + 5 + d) s
  | .exit _ => move.jumps s ∧ ∃ h ∈ head, L h s
  | .landing => False

/-- The marks `T` are a chart of the fragment at an offset, which is entered in the state `s` and
left at its end in the state `t`. A place has one state at most. Places in `E` are taken for granted. -/
structure Fragment.Chart (head : Option Nat) (E : Nat → σ → Prop) (o : Nat) (f : Fragment) (s t : σ)
    (T : Nat → σ → Prop) : Prop where
  start : T o s
  stop : f.endsInReturn = false → T (o + f.size) t
  covers : ∀ (f₁ : Fragment) p f₂, f = f₁ ++ p :: f₂ → p ≠ .landing →
    ∃ s', p.Goes move head (fun x y => T x y ∨ E x y) (o + f₁.size) s'
  within : ∀ o' s', T o' s' →
    (o' = o + f.size ∧ s' = t ∧ f.endsInReturn = false) ∨
    ∃ (f₁ : Fragment) (p : Piece) (f₂ : Fragment), f = f₁ ++ p :: f₂ ∧ o' = o + f₁.size ∧
      p.Goes move head (fun x y => T x y ∨ E x y) o' s'
  unique : ∀ o' s' t', T o' s' → T o' t' → s' = t'

/-- What a chart can show of the code. -/
inductive Mark (σ : Type) where
  /-- The place has the state. -/
  | place (x : Nat) (y : σ)
  /-- Control that is not between two places gets there only at the first one. -/
  | gate (a b : Nat)
  /-- The marks from one place to another one have a property. -/
  | range (a b : Nat) (P : Nat → σ → Prop)

/-- The pieces that do not stand between two places do not lead between them, but for the first place.
Places in `E` are left open. -/
def Fragment.Spares (head : Option Nat) (E : Nat → σ → Prop) (o : Nat) (f : Fragment) (a b : Nat) : Prop :=
  ∀ (f₁ : Fragment) p f₂, f = f₁ ++ p :: f₂ → p ≠ .landing → o + f₁.size < a ∨ b ≤ o + f₁.size →
    ∃ s, p.Goes move head (fun x y => (x ≤ a ∨ b ≤ x) ∨ E x y) (o + f₁.size) s

/-- The chart `T` of a fragment shows what the mark says. Where the fragment ends in a return, its end
is known without being marked. -/
def Mark.Shown (head : Option Nat) (E : Nat → σ → Prop) (o : Nat) (f : Fragment) (t : σ)
    (T : Nat → σ → Prop) : Mark σ → Prop
  | .place x y => T x y ∨ x = o + f.size ∧ y = t
  | .gate a b => o ≤ a ∧ b ≤ o + f.size ∧ f.Spares move head E o a b
  | .range a b P => o ≤ a ∧ b ≤ o + f.size ∧ ∀ x y, T x y → a ≤ x → x < b → P x y

/-- The next piece of the fragment leads from the place, in its state, to a place inside, to the end in
the state `t`, or to a place in `E`. -/
def Fragment.Steps (head : Option Nat) (E : Nat → σ → Prop) (o : Nat) (f : Fragment) (t : σ) (x : Nat)
    (y : σ) : Prop :=
  ∃ (f₁ : Fragment) (p : Piece) (f₂ : Fragment), f = f₁ ++ p :: f₂ ∧ x = o + f₁.size ∧
    p.Goes move head (fun z w => (o ≤ z ∧ z < o + f.size ∨ z = o + f.size ∧ w = t) ∨ E z w) x y

/-- The fragment has a chart that shows the given marks. -/
def Fragment.Charted (head : Option Nat) (E : Nat → σ → Prop) (o : Nat) (f : Fragment)
    (s t : σ) (marks : List (Mark σ) := []) : Prop :=
  ∃ T, f.Chart move head E o s t T ∧ ∀ k ∈ marks, k.Shown move head E o f t T

end

variable {σ : Type} {move : Moves σ} {head : Option Nat} {E E' T T' : Nat → σ → Prop} {o d : Nat}
  {f g : Fragment} {s t u : σ} {span : Span} {marks marks' : List (Mark σ)}

theorem Piece.Goes.mono {p : Piece} {head' : Option Nat} {L L' : Nat → σ → Prop}
    (h : p.Goes move head L o s) (hh : ∀ x ∈ head, x ∈ head') (hL : ∀ x y, L x y → L' x y) :
    p.Goes move head' L' o s := by
  match p, h with
  | .instruction i _, ⟨u, hu, h⟩ => exact ⟨u, hu, fun t ht => hL _ _ (h t ht)⟩
  | .jump .always _ _, h => exact ⟨h.1, hL _ _ h.2⟩
  | .jump .back _ _, h => exact ⟨h.1, h.2.1, hL _ _ h.2.2⟩
  | .jump .ifFalse _ _, h | .jump .ifTrue _ _, h | .jump .ifDone _ _, h =>
    exact ⟨h.1, hL _ _ h.2.1, hL _ _ h.2.2⟩
  | .exit _, ⟨hj, x, hx, h⟩ => exact ⟨hj, x, hh x hx, hL _ _ h⟩

theorem Piece.Goes.relax {p : Piece} {move' : Moves σ} {L : Nat → σ → Prop}
    (h : p.Goes move head L o s) (hact : ∀ i s u, move.act i s u → move'.act i s u)
    (hjumps : ∀ s, move.jumps s → move'.jumps s) : p.Goes move' head L o s := by
  match p, h with
  | .instruction i _, ⟨u, hu, h⟩ => exact ⟨u, hact i s u hu, h⟩
  | .jump .always _ _, h | .jump .back _ _, h | .jump .ifFalse _ _, h | .jump .ifTrue _ _, h
  | .jump .ifDone _ _, h | .exit _, h => exact ⟨hjumps s h.1, h.2⟩

theorem Piece.Goes.ne_landing {p : Piece} {L : Nat → σ → Prop} (h : p.Goes move head L o s) :
    p ≠ .landing := by
  rintro rfl
  exact h

theorem Piece.Goes.size_pos {p : Piece} {L : Nat → σ → Prop} (h : p.Goes move head L o s) :
    0 < p.size := by
  cases p with
  | instruction i span => exact i.size_pos
  | jump b d span | exit span => exact Nat.succ_pos _
  | landing => exact h.elim

namespace Fragment

/-- A piece of two fragments is a piece of one of them. -/
theorem append_eq_append_cons {f₁ f₂ : Fragment} {p : Piece} (h : f ++ g = f₁ ++ p :: f₂) :
    (∃ f₃, f = f₁ ++ p :: f₃) ∨ ∃ g₁, f₁ = f ++ g₁ ∧ g = g₁ ++ p :: f₂ := by
  rcases List.append_eq_append_iff.1 h with ⟨g₁, hf, hg⟩ | ⟨f₃, hf, hg⟩
  · exact .inr ⟨g₁, hf, hg⟩
  · cases f₃ with
    | nil => exact .inr ⟨[], by rw [hf, List.append_nil, List.append_nil], hg.symm⟩
    | cons q f₃ =>
      obtain ⟨rfl, rfl⟩ := List.cons.inj hg
      exact .inl ⟨f₃, hf⟩

theorem Spares.append {a b : Nat} (hf : f.Spares move head E o a b)
    (hg : g.Spares move head E (o + f.size) a b) : (f ++ g).Spares move head E o a b := by
  intro f₁ p f₂ hfg hp ho
  rcases append_eq_append_cons hfg with ⟨f₃, hf₃⟩ | ⟨g₁, rfl, hg₁⟩
  · exact hf f₁ p f₃ hf₃ hp ho
  · rw [size_append, ← Nat.add_assoc] at ho ⊢
    exact hg g₁ p f₂ hg₁ hp ho

namespace Chart

theorem mono {head' : Option Nat} (h : f.Chart move head E o s t T) (hh : ∀ x ∈ head, x ∈ head')
    (hL : ∀ x y, T x y ∨ E x y → T x y ∨ E' x y) : f.Chart move head' E' o s t T := by
  refine ⟨h.start, h.stop, fun f₁ p f₂ hf hp => ?_, fun o' s' hT => ?_, h.unique⟩
  · obtain ⟨s', hs'⟩ := h.covers f₁ p f₂ hf hp
    exact ⟨s', hs'.mono hh hL⟩
  · rcases h.within o' s' hT with h' | ⟨f₁, p, f₂, hf, ho, hp⟩
    · exact .inl h'
    · exact .inr ⟨f₁, p, f₂, hf, ho, hp.mono hh hL⟩

theorem drop (h : f.Chart move head (fun x y => E x y ∨ E' x y) o s t T)
    (hE : ∀ x y, E' x y → T x y) : f.Chart move head E o s t T := by
  refine h.mono (fun _ h => h) fun x y => ?_
  rintro (h | h | h)
  · exact .inl h
  · exact .inr h
  · exact .inl (hE x y h)

theorem weaken {head' : Option Nat} (h : f.Chart move head E o s t T)
    (hh : ∀ x ∈ head, x ∈ head') (hE : ∀ x y, E x y → E' x y) :
    f.Chart move head' E' o s t T := h.mono hh fun x y => Or.imp_right (hE x y)

theorem bounds (h : f.Chart move head E o s t T) {o' : Nat} {s' : σ} (hT : T o' s') :
    o ≤ o' ∧ (o' < o + f.size ∨ o' = o + f.size ∧ s' = t) := by
  rcases h.within o' s' hT with ⟨ho, hs, -⟩ | ⟨f₁, p, f₂, rfl, ho, hp⟩
  · exact ⟨by omega, .inr ⟨ho, hs⟩⟩
  · have := hp.size_pos
    rw [size_append, size_cons]
    exact ⟨by omega, .inl (by omega)⟩

theorem append (hf : f.Chart move head E o s u T) (hg : g.Chart move head E (o + f.size) u t T')
    (hne : g ≠ []) : (f ++ g).Chart move head E o s t fun x y => T x y ∨ T' x y := by
  have hL (x : Nat) (y : σ) : T x y ∨ E x y → (T x y ∨ T' x y) ∨ E x y :=
    Or.imp_left .inl
  have hL' (x : Nat) (y : σ) : T' x y ∨ E x y → (T x y ∨ T' x y) ∨ E x y :=
    Or.imp_left .inr
  have hright (o' : Nat) (s' : σ) (h : T' o' s') :
      (o' = o + (f ++ g).size ∧ s' = t ∧ (f ++ g).endsInReturn = false) ∨
      ∃ (f₁ : Fragment) (p : Piece) (f₂ : Fragment), f ++ g = f₁ ++ p :: f₂ ∧ o' = o + f₁.size ∧
        p.Goes move head (fun x y => (T x y ∨ T' x y) ∨ E x y) o' s' := by
    rcases hg.within o' s' h with ⟨ho, ht, hr⟩ | ⟨g₁, p, g₂, rfl, ho, hp⟩
    · refine .inl ⟨by rw [ho, size_append, Nat.add_assoc], ht, ?_⟩
      rw [Lowering.endsInReturn_append hne, hr]
    · exact .inr ⟨f ++ g₁, p, g₂, by simp, by rw [ho, size_append, Nat.add_assoc],
        hp.mono (fun _ h => h) hL'⟩
  have hboth (o' : Nat) (s' t' : σ) (h : T o' s') (h' : T' o' t') : s' = t' := by
    -- the charts overlap where one part ends and the other begins
    have hb' := (hg.bounds h').1
    obtain ⟨rfl, rfl⟩ := (hf.bounds h).2.resolve_left (by omega)
    exact hg.unique _ _ _ hg.start h'
  refine ⟨.inl hf.start, fun h => ?_, fun f₁ p f₂ hfg hp => ?_, fun o' s' hT => ?_, ?_⟩
  · rw [size_append, ← Nat.add_assoc]
    exact .inr (hg.stop (by rwa [Lowering.endsInReturn_append hne] at h))
  · rcases append_eq_append_cons hfg with ⟨f₃, hf'⟩ | ⟨g₁, rfl, hg'⟩
    · obtain ⟨s', hs'⟩ := hf.covers f₁ p f₃ hf' hp
      exact ⟨s', hs'.mono (fun _ h => h) hL⟩
    · obtain ⟨s', hs'⟩ := hg.covers g₁ p f₂ hg' hp
      rw [size_append, ← Nat.add_assoc]
      exact ⟨s', hs'.mono (fun _ h => h) hL'⟩
  · rcases hT with hT | hT
    · rcases hf.within o' s' hT with ⟨rfl, rfl, -⟩ | ⟨f₁, p, f₂, rfl, ho, hp⟩
      · exact hright _ _ hg.start
      · exact .inr ⟨f₁, p, f₂ ++ g, by simp, ho, hp.mono (fun _ h => h) hL⟩
    · exact hright o' s' hT
  · rintro o' s' t' (h | h) (h' | h')
    · exact hf.unique o' s' t' h h'
    · exact hboth o' s' t' h h'
    · exact (hboth o' t' s' h' h).symm
    · exact hg.unique o' s' t' h h'

theorem spares {a b : Nat} (h : f.Chart move head E o s t T) (hab : o + f.size ≤ a ∨ b ≤ o) :
    f.Spares move head E o a b := by
  intro f₁ p f₂ hf hp _
  obtain ⟨s', hs'⟩ := h.covers f₁ p f₂ hf hp
  refine ⟨s', hs'.mono (fun _ h => h) fun x y => Or.imp_left fun hT => ?_⟩
  have := h.bounds hT
  omega

end Chart

end Fragment

section

open Fragment

variable {k : Mark σ}

theorem Mark.Shown.left (h : k.Shown move head E o f u T)
    (hg : g.Chart move head E (o + f.size) u t T') :
    k.Shown move head E o (f ++ g) t fun x y => T x y ∨ T' x y := by
  have hsize : (f ++ g).size = f.size + g.size := size_append f g
  cases k with
  | place x y =>
    rcases h with h | ⟨rfl, rfl⟩
    · exact .inl (.inl h)
    · exact .inl (.inr hg.start)
  | gate a b =>
    obtain ⟨ha, hb, hs⟩ := h
    exact ⟨ha, by omega, hs.append (hg.spares (.inr hb))⟩
  | range a b P =>
    obtain ⟨ha, hb, hP⟩ := h
    refine ⟨ha, by omega, fun x y hT hax hxb => hP x y (hT.resolve_right fun hT' => ?_) hax hxb⟩
    have := (hg.bounds hT').1
    omega

theorem Mark.Shown.right (h : k.Shown move head E (o + f.size) g t T')
    (hf : f.Chart move head E o s u T) (hg : T' (o + f.size) u) :
    k.Shown move head E o (f ++ g) t fun x y => T x y ∨ T' x y := by
  have hsize : (f ++ g).size = f.size + g.size := size_append f g
  cases k with
  | place x y =>
    rcases h with h | ⟨rfl, rfl⟩
    · exact .inl (.inr h)
    · exact .inr ⟨by omega, rfl⟩
  | gate a b =>
    obtain ⟨ha, hb, hs⟩ := h
    exact ⟨by omega, by omega, (hf.spares (.inl ha)).append hs⟩
  | range a b P =>
    obtain ⟨ha, hb, hP⟩ := h
    refine ⟨by omega, by omega, fun x y hT hax hxb => ?_⟩
    rcases hT with hT | hT
    · -- the charts overlap where one part ends and the other begins
      obtain ⟨rfl, rfl⟩ := (hf.bounds hT).2.resolve_left (by omega)
      exact hP _ _ hg hax hxb
    · exact hP x y hT hax hxb

theorem Mark.Shown.weaken {head' : Option Nat} (h : k.Shown move head E o f t T)
    (hh : ∀ x ∈ head, x ∈ head') (hE : ∀ x y, E x y → E' x y) : k.Shown move head' E' o f t T := by
  cases k with
  | place x y => exact h
  | gate a b =>
    obtain ⟨ha, hb, hs⟩ := h
    refine ⟨ha, hb, fun f₁ p f₂ hf hp ho => ?_⟩
    obtain ⟨s', hs'⟩ := hs f₁ p f₂ hf hp ho
    exact ⟨s', hs'.mono hh fun x y => Or.imp_right (hE x y)⟩
  | range a b P => exact h

end

namespace Fragment

namespace Charted

/-- Code without instructions leads through one place. -/
theorem point (hf : ∀ p ∈ f, p = .landing) (hsize : f.size = 0) (hr : f.endsInReturn = false) :
    Charted move head E o f s s := by
  refine ⟨fun x y => x = o ∧ y = s, ⟨⟨rfl, rfl⟩, fun _ => ⟨by rw [hsize]; rfl, rfl⟩,
    fun f₁ p f₂ h hp => absurd (hf p (by simp [h])) hp, ?_, ?_⟩, nofun⟩
  · rintro _ _ ⟨rfl, rfl⟩
    exact .inl ⟨by rw [hsize]; rfl, rfl, hr⟩
  · rintro _ _ _ ⟨-, rfl⟩ ⟨-, rfl⟩
    rfl

theorem nil : Charted move head E o [] s s := .point nofun rfl rfl

theorem landing : Charted move head E o [.landing] s s := .point (by simp) rfl rfl

theorem piece {p : Piece} (hp : p.Goes move head
      (fun x y => x = o + p.size ∧ y = t ∧ endsInReturn [p] = false ∨ E x y) o s) :
    Charted move head E o [p] s t := by
  have hgoes : p.Goes move head (fun x y =>
      (x = o ∧ y = s ∨ x = o + p.size ∧ y = t ∧ endsInReturn [p] = false) ∨ E x y) o s :=
    hp.mono (fun _ h => h) fun x y => Or.imp_left .inr
  have hpos := hp.size_pos
  refine ⟨fun x y => x = o ∧ y = s ∨ x = o + p.size ∧ y = t ∧ endsInReturn [p] = false,
    ⟨.inl ⟨rfl, rfl⟩, fun h => .inr ⟨by simp, rfl, h⟩, fun f₁ q f₂ h hq => ⟨s, ?_⟩, ?_, ?_⟩, nofun⟩
  · obtain ⟨rfl, h⟩ | ⟨f₃, rfl, h⟩ := List.cons_eq_append_iff.1 h
    · obtain rfl := (List.cons.inj h).1
      exact hgoes
    · simp at h
  · rintro o' s' (⟨rfl, rfl⟩ | ⟨rfl, rfl, h⟩)
    · exact .inr ⟨[], p, [], rfl, rfl, hgoes⟩
    · exact .inl ⟨by simp, rfl, h⟩
  · rintro o' s' t' (⟨ho, rfl⟩ | ⟨ho, rfl, -⟩) (⟨ho', rfl⟩ | ⟨ho', rfl, -⟩) <;> first | rfl | omega

/-- Some of the marks are enough. -/
theorem mono (h : f.Charted move head E o s t marks) (hm : marks' ⊆ marks) :
    f.Charted move head E o s t marks' :=
  let ⟨T, hT, hmarks⟩ := h
  ⟨T, hT, fun p hp => hmarks p (hm hp)⟩

theorem start (h : f.Charted move head E o s t marks) :
    f.Charted move head E o s t (.place o s :: marks) := by
  obtain ⟨T, hT, hm⟩ := h
  exact ⟨T, hT, List.forall_mem_cons.2 ⟨.inl hT.start, hm⟩⟩

theorem stop (h : f.Charted move head E o s t marks) :
    f.Charted move head E o s t (.place (o + f.size) t :: marks) := by
  obtain ⟨T, hT, hm⟩ := h
  exact ⟨T, hT, List.forall_mem_cons.2 ⟨.inr ⟨rfl, rfl⟩, hm⟩⟩

theorem gate (h : f.Charted move head E o s t marks) :
    f.Charted move head E o s t (.gate o (o + f.size) :: marks) := by
  obtain ⟨T, hT, hm⟩ := h
  refine ⟨T, hT, List.forall_mem_cons.2 ⟨⟨Nat.le_refl _, Nat.le_refl _, ?_⟩, hm⟩⟩
  rintro f₁ p f₂ rfl hp ho
  obtain ⟨s', hs'⟩ := hT.covers f₁ p f₂ rfl hp
  have := hs'.size_pos
  rw [size_append, size_cons] at ho
  omega

theorem range {P : Nat → σ → Prop} (h : f.Charted move head E o s t marks)
    (hP : ∀ x y, f.Steps move head E o t x y → P x y) :
    f.Charted move head E o s t (.range o (o + f.size) P :: marks) := by
  obtain ⟨T, hT, hm⟩ := h
  refine ⟨T, hT, List.forall_mem_cons.2 ⟨⟨Nat.le_refl _, Nat.le_refl _, fun x y hxy _ hlt => ?_⟩, hm⟩⟩
  rcases hT.within x y hxy with ⟨rfl, -⟩ | ⟨f₁, p, f₂, hf, hx, hp⟩
  · exact absurd hlt (Nat.lt_irrefl _)
  · refine hP x y ⟨f₁, p, f₂, hf, hx, hp.mono (fun _ h => h) fun z w => Or.imp_left fun hz => ?_⟩
    obtain ⟨hle, hz⟩ := hT.bounds hz
    exact hz.imp_left fun hz => ⟨hle, hz⟩

theorem relax {move' : Moves σ} (h : f.Charted move head E o s t marks)
    (hact : ∀ i s u, move.act i s u → move'.act i s u) (hjumps : ∀ s, move.jumps s → move'.jumps s) :
    f.Charted move' head E o s t marks := by
  obtain ⟨T, hT, hm⟩ := h
  refine ⟨T, ⟨hT.start, hT.stop, fun f₁ p f₂ hf hp => ?_, fun o' s' ho => ?_, hT.unique⟩, fun k hk => ?_⟩
  · obtain ⟨s', hs'⟩ := hT.covers f₁ p f₂ hf hp
    exact ⟨s', hs'.relax hact hjumps⟩
  · exact (hT.within o' s' ho).imp_right fun ⟨f₁, p, f₂, hf, ho, hp⟩ =>
      ⟨f₁, p, f₂, hf, ho, hp.relax hact hjumps⟩
  · have hshown := hm k hk
    cases k with
    | place x y => exact hshown
    | gate a b =>
      obtain ⟨ha, hb, hs⟩ := hshown
      refine ⟨ha, hb, fun f₁ p f₂ hf hp ho => ?_⟩
      obtain ⟨s', hs'⟩ := hs f₁ p f₂ hf hp ho
      exact ⟨s', hs'.relax hact hjumps⟩
    | range a b P => exact hshown

theorem append (hf : f.Charted move head E o s u marks)
    (hg : g.Charted move head E (o + f.size) u t marks') :
    (f ++ g).Charted move head E o s t (marks ++ marks') := by
  obtain ⟨T, hT, hm⟩ := hf
  obtain ⟨T', hT', hm'⟩ := hg
  cases g with
  | nil =>
    -- nothing but the entry can be marked in a chart of nothing
    have hend {x : Nat} {y : σ} (h : T' x y) : x = o + f.size ∧ y = t := by
      have := hT'.bounds h
      rw [size_nil] at this
      exact ⟨by omega, (this.2.resolve_left (by omega)).2⟩
    obtain rfl := (hend hT'.start).2
    rw [List.append_nil]
    refine ⟨T, hT, List.forall_mem_append.2 ⟨hm, fun k hk => ?_⟩⟩
    have hk := hm' k hk
    cases k with
    | place x y => exact .inr (hk.elim hend id)
    | gate a b =>
      obtain ⟨ha, hb, -⟩ := hk
      rw [size_nil] at hb
      exact ⟨by omega, by omega, hT.spares (.inl ha)⟩
    | range a b P =>
      obtain ⟨ha, hb, -⟩ := hk
      rw [size_nil] at hb
      exact ⟨by omega, by omega, fun x y _ hax hxb => absurd hxb (by omega)⟩
  | cons p g =>
    exact ⟨_, hT.append hT' (List.cons_ne_nil p g), List.forall_mem_append.2
      ⟨fun k hk => (hm k hk).left hT', fun k hk => (hm' k hk).right hT hT'.start⟩⟩

theorem weaken {head' : Option Nat} (h : f.Charted move head E o s t marks)
    (hh : ∀ x ∈ head, x ∈ head') (hE : ∀ x y, E x y → E' x y) :
    f.Charted move head' E' o s t marks :=
  let ⟨T, hT, hm⟩ := h
  ⟨T, hT.weaken hh hE, fun k hk => (hm k hk).weaken hh hE⟩

/-- More places may be left to. -/
theorem widen {places : List Nat} {v : σ} (h : f.Charted move head E o s t marks) :
    f.Charted move head (fun x y => E x y ∨ x ∈ places ∧ y = v) o s t marks :=
  h.weaken (fun _ h => h) fun _ _ => .inl

theorem cast {o' : Nat} (h : f.Charted move head E o s t marks) (ho : o = o') :
    f.Charted move head E o' s t marks := ho ▸ h

theorem emit {i : Instruction} (hi : move.act i s (some t)) (hr : (emit i span).endsInReturn = false) :
    (emit i span).Charted move head E o s t :=
  piece ⟨some t, hi, by
    rintro _ ⟨⟩
    exact .inl ⟨rfl, rfl, hr⟩⟩

theorem emit_end {i : Instruction} (hi : move.act i s none) :
    (Fragment.emit i span).Charted move head E o s t :=
  piece ⟨none, hi, nofun⟩

theorem jump (hj : move.jumps s) (h : E (o + 5 + d) s) :
    Charted move head E o [.jump .always d span] s t :=
  piece ⟨hj, .inr h⟩

theorem back (hj : move.jumps s) (hd : d ≤ o + 5) (h : E (o + 5 - d) s) :
    Charted move head E o [.jump .back d span] s t :=
  piece ⟨hj, hd, .inr h⟩

theorem branch {b : Branch} (hb : b ≠ .always ∧ b ≠ .back) (hj : move.jumps s)
    (h : E (o + 5 + d) s) : Charted move head E o [.jump b d span] s s := by
  have hnext : ((fun x y => x = o + (Piece.jump b d span).size ∧ y = s ∧
      endsInReturn [.jump b d span] = false ∨ E x y) : Nat → σ → Prop) (o + 5) s :=
    .inl ⟨rfl, rfl, rfl⟩
  refine piece ?_
  cases b with
  | always => exact absurd rfl hb.1
  | back => exact absurd rfl hb.2
  | _ => exact ⟨hj, hnext, .inr h⟩

end Charted

/-! ## Code in one state throughout

The parts of a control structure all begin and end in the same state, and its jumps lead to where
one of the parts begins or the last one ends. -/

/-- Where the parts begin and the last one ends. -/
def seams (o : Nat) : List Fragment → List Nat
  | [] => [o]
  | f :: fs => o :: seams (o + f.size) fs

/-- The parts have charts of their own that keep a state, each with marks. -/
def Parts (move : Moves σ) (head : Option Nat) (E : Nat → σ → Prop) (s : σ) :
    Nat → List (Fragment × List (Mark σ)) → Prop
  | _, [] => True
  | o, (f, marks) :: fs => f.Charted move head E o s s marks ∧ Parts move head E s (o + f.size) fs

theorem le_of_mem_seams {x : Nat} {fs : List Fragment} (h : x ∈ seams o fs) : o ≤ x := by
  induction fs generalizing o with
  | nil => exact Nat.le_of_eq (List.mem_singleton.1 h).symm
  | cons f fs ih =>
    rcases List.mem_cons.1 h with rfl | h
    · exact Nat.le_refl _
    · exact Nat.le_trans (Nat.le_add_right ..) (ih h)

theorem Parts.charted {l : List (Fragment × List (Mark σ))} (h : Parts move head E s o l) :
    Charted move head E o (l.map Prod.fst).flatten s s
      ((seams o (l.map Prod.fst)).map (.place · s) ++ l.flatMap Prod.snd) := by
  induction l generalizing o with
  | nil => exact Charted.nil.start
  | cons q l ih =>
    refine (h.1.start.append (ih h.2)).mono ?_
    simp only [List.map_cons, seams, List.flatMap_cons, List.cons_append, List.cons_subset, List.append_subset]
    refine ⟨List.mem_cons_self, ?_, ?_, ?_⟩
    all_goals
      intro k hk
      simp [hk]

/-- The seams do not stand between places of one part. -/
theorem Parts.clears {l : List (Fragment × List (Mark σ))} (h : Parts move head E s o l) {a b : Nat}
    (hk : .gate a b ∈ l.flatMap Prod.snd) :
    o ≤ a ∧ ∀ x ∈ seams o (l.map Prod.fst), x ≤ a ∨ b ≤ x := by
  induction l generalizing o with
  | nil => cases hk
  | cons q l ih =>
    obtain ⟨⟨T, hT, hm⟩, htail⟩ := h
    rcases List.mem_append.1 hk with hk | hk
    · obtain ⟨ha, hb, -⟩ := hm _ hk
      refine ⟨ha, fun x hx => ?_⟩
      rcases List.mem_cons.1 hx with rfl | hx
      · exact .inl ha
      · exact .inr (Nat.le_trans hb (le_of_mem_seams hx))
    · obtain ⟨ha, hx'⟩ := ih htail hk
      have ha : o ≤ a := Nat.le_trans (Nat.le_add_right ..) ha
      refine ⟨ha, fun x hx => ?_⟩
      rcases List.mem_cons.1 hx with rfl | hx
      · exact .inl ha
      · exact hx' x hx

/-- Jumps to the seams between the parts stay inside. -/
theorem Charted.flatten {l : List (Fragment × List (Mark σ))}
    (h : Parts move head (fun x y => E x y ∨ x ∈ seams o (l.map Prod.fst) ∧ y = s) s o l)
    (hr : endsInReturn (l.map Prod.fst).flatten = false) :
    Charted move head E o (l.map Prod.fst).flatten s s (l.flatMap Prod.snd) := by
  obtain ⟨T, hT, hm⟩ := h.charted
  obtain ⟨hseams, hm⟩ := List.forall_mem_append.1 hm
  refine ⟨T, hT.drop ?_, fun k hk => ?_⟩
  · rintro x _ ⟨hx, rfl⟩
    rcases hseams _ (List.mem_map_of_mem hx) with hTx | ⟨rfl, -⟩
    · exact hTx
    · exact hT.stop hr
  · have hshown := hm k hk
    cases k with
    | place x y => exact hshown
    | gate a b =>
      obtain ⟨ha, hb, hs⟩ := hshown
      obtain ⟨-, hclear⟩ := h.clears hk
      refine ⟨ha, hb, fun f₁ p f₂ hf hp ho => ?_⟩
      obtain ⟨s', hs'⟩ := hs f₁ p f₂ hf hp ho
      refine ⟨s', hs'.mono (fun _ h => h) ?_⟩
      rintro x y (hx | hx | ⟨hx, -⟩)
      · exact .inl hx
      · exact .inr hx
      · exact .inl (hclear x hx)
    | range a b P => exact hshown

end Fragment

/-! ## Open ends -/

/-- What linking makes of a piece, at a distance behind the head of the loop. -/
def Piece.Becomes (n : Nat) (p q : Piece) : Prop :=
  q = p ∧ (∀ span, p ≠ .exit span) ∨ ∃ span, p = .exit span ∧ q = .jump .back (n + 5) span

theorem Piece.Becomes.ne_landing {n : Nat} {p q : Piece} (h : p.Becomes n q) (hq : q ≠ .landing) :
    p ≠ .landing := by
  rintro rfl
  rcases h with ⟨rfl, -⟩ | ⟨_, ⟨⟩, -⟩
  exact hq rfl

/-- A piece becomes one that leads to the same places. -/
theorem Piece.Goes.link {h n : Nat} {p q : Piece} {L : Nat → σ → Prop} (hp : p.Goes move (some h) L o s)
    (hn : h + n = o) (hq : p.Becomes n q) : q.Goes move none L o s := by
  rcases hq with ⟨rfl, hne⟩ | ⟨span, rfl, rfl⟩
  · cases q with
    | exit span => exact absurd rfl (hne span)
    | jump b d span => cases b <;> exact hp
    | instruction i span => exact hp
    | landing => exact hp
  · obtain ⟨hj, _, ⟨⟩, hp⟩ := hp
    refine ⟨hj, by omega, ?_⟩
    rwa [show o + 5 - (n + 5) = h by omega]

namespace Fragment

theorem linkFrom_eq_append {n : Nat} {f₁ f₂ : Fragment} {q : Piece}
    (h : linkFrom n f = f₁ ++ q :: f₂) :
    ∃ (g₁ : Fragment) (p : Piece) (g₂ : Fragment), f = g₁ ++ p :: g₂ ∧ g₁.size = f₁.size ∧
      p.Becomes (n + g₁.size) q := by
  induction f generalizing n f₁ with
  | nil => simp [linkFrom] at h
  | cons p f ih =>
    have hp : ∃ q' n', linkFrom n (p :: f) = q' :: linkFrom n' f ∧ n' = n + p.size ∧
        q'.size = p.size ∧ p.Becomes n q' := by
      cases p with
      | exit span => exact ⟨_, _, rfl, rfl, rfl, .inr ⟨span, rfl, rfl⟩⟩
      | _ => exact ⟨_, _, rfl, rfl, rfl, .inl ⟨rfl, (by rintro _ ⟨⟩)⟩⟩
    obtain ⟨q', n', hlink, rfl, hsize, hq'⟩ := hp
    rw [hlink] at h
    cases f₁ with
    | nil =>
      obtain ⟨rfl, rfl⟩ := List.cons.inj h
      exact ⟨[], p, f, rfl, rfl, hq'⟩
    | cons p' f₁ =>
      obtain ⟨rfl, h'⟩ := List.cons.inj h
      obtain ⟨g₁, r, g₂, rfl, hg, hr⟩ := ih h'
      refine ⟨p :: g₁, r, g₂, rfl, by rw [size_cons, size_cons, hg, hsize], ?_⟩
      rwa [size_cons, ← Nat.add_assoc]

theorem linkFrom_append_cons (n : Nat) (f₁ : Fragment) (p : Piece) (f₂ : Fragment) :
    ∃ (g₁ : Fragment) (q : Piece) (g₂ : Fragment), linkFrom n (f₁ ++ p :: f₂) = g₁ ++ q :: g₂ ∧
      g₁.size = f₁.size ∧ p.Becomes (n + f₁.size) q := by
  rw [linkFrom_append]
  cases p with
  | exit span =>
    exact ⟨linkFrom n f₁, _, _, rfl, size_linkFrom n f₁, .inr ⟨span, rfl, rfl⟩⟩
  | _ => exact ⟨linkFrom n f₁, _, _, rfl, size_linkFrom n f₁, .inl ⟨rfl, nofun⟩⟩

theorem endsInReturn_linkFrom (n : Nat) (f : Fragment) :
    (linkFrom n f).endsInReturn = f.endsInReturn := by
  rcases List.eq_nil_or_concat f with rfl | ⟨f', p, rfl⟩
  · rfl
  · rw [List.concat_eq_append, linkFrom_append]
    cases p <;> rw [Lowering.endsInReturn_append (by simp [linkFrom]),
      Lowering.endsInReturn_append (by simp)] <;> rfl

theorem Charted.link {h n : Nat} (hf : f.Charted move (some h) E o s t marks) (hn : h + n = o) :
    (linkFrom n f).Charted move none E o s t marks := by
  obtain ⟨T, hT, hm⟩ := hf
  refine ⟨T, ⟨hT.start, fun hr => ?_, fun f₁ p f₂ hf hp => ?_, fun o' s' ho => ?_, hT.unique⟩,
    fun k hk => ?_⟩
  · rw [size_linkFrom]
    exact hT.stop (by rwa [endsInReturn_linkFrom] at hr)
  · obtain ⟨g₁, q, g₂, hg, hsize, hq⟩ := linkFrom_eq_append hf
    obtain ⟨s', hs'⟩ := hT.covers g₁ q g₂ hg (hq.ne_landing hp)
    rw [← hsize]
    exact ⟨s', hs'.link (by omega) hq⟩
  · rcases hT.within o' s' ho with ⟨ho, hs, hr⟩ | ⟨f₁, p, f₂, rfl, ho, hp⟩
    · exact .inl ⟨by rwa [size_linkFrom], hs, by rwa [endsInReturn_linkFrom]⟩
    · obtain ⟨g₁, q, g₂, hg, hsize, hq⟩ := linkFrom_append_cons n f₁ p f₂
      exact .inr ⟨g₁, q, g₂, hg, by rw [hsize, ho], hp.link (by omega) hq⟩
  · have hshown := hm k hk
    cases k with
    | place x y =>
      unfold Mark.Shown
      rwa [size_linkFrom]
    | gate a b =>
      obtain ⟨ha, hb, hs⟩ := hshown
      refine ⟨ha, by rwa [size_linkFrom], fun f₁ p f₂ hf hp ho' => ?_⟩
      obtain ⟨g₁, q, g₂, hg, hsize, hq⟩ := linkFrom_eq_append hf
      rw [← hsize] at ho' ⊢
      obtain ⟨s', hs'⟩ := hs g₁ q g₂ hg (hq.ne_landing hp) ho'
      exact ⟨s', hs'.link (by omega) hq⟩
    | range a b P =>
      obtain ⟨ha, hb, hP⟩ := hshown
      exact ⟨ha, by rwa [size_linkFrom], hP⟩

end Fragment

/-! ## Control structures -/

namespace Lowering


open Fragment

theorem charted_pop (h : move.Idles s) : (pop span).Charted move head E o s s :=
  .emit (h.act _ rfl) rfl

section

variable {t k a r : Fragment} {marks'' : List (Mark σ)} (hs : move.Idles s)

include hs

theorem charted_logical {b : Branch} (hb : b ≠ .always ∧ b ≠ .back)
    (ht : t.Charted move head E o s s marks)
    (hk : k.Charted move head E (o + t.size + 6) s s marks') :
    (t ++ skip b (pop span ++ k) span ++ emit ⟨.assertBool, ()⟩ span).Charted move head E o
      s s (marks ++ marks') := by
  let parts : List (Fragment × List (Mark σ)) := [(t, marks), ([.jump b (k.size + 1) span], []),
    (pop span, []), (k, marks'), (emit ⟨.assertBool, ()⟩ span, [])]
  have hcode : t ++ skip b (pop span ++ k) span ++ emit ⟨.assertBool, ()⟩ span =
      (parts.map Prod.fst).flatten := by
    simp [parts, skip, size_pop, Nat.add_comm]
  have hmarks : marks ++ marks' = parts.flatMap Prod.snd := by simp [parts]
  rw [hcode, hmarks]
  refine Charted.flatten (l := parts) ⟨ht.widen, .branch hb hs.jumps (.inr ⟨?_, rfl⟩),
    charted_pop hs, hk.widen.cast ?_, .emit (hs.act _ rfl) rfl, trivial⟩ ?_
  · simp [parts, seams, size_pop, size_jump]
    omega
  · simp [size_pop, size_jump]
  · rw [← hcode, endsInReturn_append (by simp [emit])]
    rfl

theorem charted_condCode (ht : t.Charted move head E o s s marks)
    (hk : k.Charted move head E (o + t.size + 6) s s marks')
    (ha : a.Charted move head E (o + t.size + k.size + 12) s s marks'') :
    (condCode t k a span).Charted move head E o s s (marks ++ marks' ++ marks'') := by
  let parts : List (Fragment × List (Mark σ)) := [(t, marks),
    ([.jump .ifFalse (k.size + 6) span], []), (pop span, []), (k, marks'),
    ([.jump .always (a.size + 1) span], []), (pop span, []), (a, marks''), ([.landing], [])]
  have hcode : condCode t k a span = (parts.map Prod.fst).flatten := by
    simp [parts, condCode, skip, size_pop, size_jump, Nat.add_comm]
    omega
  have hmarks : marks ++ marks' ++ marks'' = parts.flatMap Prod.snd := by simp [parts]
  rw [hcode, hmarks]
  refine Charted.flatten (l := parts) ⟨ht.widen, .branch (by simp) hs.jumps (.inr ⟨?_, rfl⟩),
    charted_pop hs, hk.widen.cast ?_, .jump hs.jumps (.inr ⟨?_, rfl⟩),
    charted_pop hs, ha.widen.cast ?_, .landing, trivial⟩ ?_
  · simp [parts, seams, size_pop, size_jump]
    omega
  · simp [size_pop, size_jump]
  · simp [parts, seams, size_pop, size_jump]
    omega
  · simp [size_pop, size_jump]
    omega
  · rw [← hcode, condCode, endsInReturn_append (by simp)]
    rfl

/-- The places to which the jumps of a loop lead, in a loop around code of the given sizes. -/
def loopPlaces (o first round : Nat) : List Nat :=
  [o + 5, o + 11, o + 11 + first, o + 11 + first + round, o + 12 + first + round]

theorem charted_loopCode {first round : Fragment}
    (hf : first.Charted move none
      (fun x y => E x y ∨ x ∈ loopPlaces o first.size round.size ∧ y = s) (o + 11) s s marks)
    (hr : round.Charted move (some (o + 5))
      (fun x y => E x y ∨ x ∈ loopPlaces o first.size round.size ∧ y = s) (o + 11 + first.size) s s
        marks') :
    (loopCode first round span).Charted move none E o s s (marks ++ marks') := by
  let parts : List (Fragment × List (Mark σ)) := [([.jump .always (6 + first.size) span], []),
    ([.jump .ifFalse (1 + first.size + round.size) span], []), (pop span, []),
    (.linkFrom 6 first, marks), (.linkFrom (6 + first.size) round, marks'), (pop span, [])]
  have hcode : loopCode first round span = (parts.map Prod.fst).flatten := by
    simp [parts, loopCode_eq]
  have hmarks : marks ++ marks' = parts.flatMap Prod.snd := by simp [parts]
  have hseams : seams o (parts.map Prod.fst) = [o, o + 5, o + 10, o + 11, o + 11 + first.size,
      o + 11 + first.size + round.size, o + 12 + first.size + round.size] := by
    simp [parts, seams, size_pop, size_jump, size_linkFrom]
    omega
  have hE (x : Nat) (y : σ) : E x y ∨ x ∈ loopPlaces o first.size round.size ∧ y = s →
      E x y ∨ x ∈ seams o (parts.map Prod.fst) ∧ y = s := by
    rintro (h | ⟨h, rfl⟩)
    · exact .inl h
    · refine .inr ⟨?_, rfl⟩
      rw [hseams]
      simp only [loopPlaces, List.mem_cons, List.not_mem_nil, or_false] at h ⊢
      omega
  rw [hcode, hmarks]
  refine Charted.flatten (l := parts) ⟨.jump hs.jumps (.inr ⟨?_, rfl⟩), .branch (by simp) hs.jumps (.inr ⟨?_, rfl⟩),
    charted_pop hs,
    ((hf.weaken (by simp) hE).link (h := o + 5) (by omega)).cast ?_,
    ((hr.weaken (fun _ h => h) hE).link (by omega)).cast ?_, charted_pop hs, trivial⟩ ?_
  · rw [hseams]
    simp
    omega
  · rw [hseams]
    simp [size_jump]
    omega
  · simp [size_pop, size_jump]
  · simp [size_pop, size_jump, size_linkFrom]
  · rw [← hcode]
    exact endsInReturn_append_pop _ span

theorem charted_whileRound (ht : t.Charted move head E o s s marks)
    (hk : k.Charted move head E (o + t.size + 6) s s marks') (hback : E o s)
    (hout : E (o + t.size + k.size + 11) s) :
    (whileRound t k span).Charted move head E o s u (marks ++ marks') := by
  have hcode : whileRound t k span = t ++ ([.jump .ifFalse (k.size + 6) span] ++ (pop span ++ (k ++
      [.jump .back (t.size + k.size + 11) span]))) := by
    simp [whileRound, again, size_pop, size_jump, Piece.jumpSize, wordWidth]
    omega
  rw [hcode, ← List.append_nil marks']
  refine ht.append ((Charted.branch (by simp) hs.jumps ?_).append ((charted_pop hs).append
    ((hk.cast ?_).append (.back hs.jumps ?_ ?_))))
  · convert hout using 1
    omega
  · simp [size_pop, size_jump]
  · simp [size_pop, size_jump]
    omega
  · convert hback using 1
    simp [size_pop, size_jump]
    omega

theorem charted_again (hk : k.Charted move head E o s s marks) (hback : E o s) :
    (again k span).Charted move head E o s u marks := by
  rw [← List.append_nil marks]
  refine hk.append (.back hs.jumps ?_ ?_)
  · simp [Piece.jumpSize, wordWidth]
  · convert hback using 1
    simp [Piece.jumpSize, wordWidth]

theorem charted_forInRound {b : Option Binding}
    (hbody : (emit ⟨.getNext, ()⟩ span ++ define b span ++ k ++ r).Charted move head E (o + 5) s s
      marks)
    (hdone : E (o + k.size + r.size + 13) s) (ho : 1 ≤ o) (hback : E (o - 1) s) :
    (forInRound b k r span).Charted move head E o s u marks := by
  have hnext : (⟨.getNext, ()⟩ : Instruction).size = 1 := rfl
  have hadvance : (⟨.advance, ()⟩ : Instruction).size = 1 := rfl
  have hcode : forInRound b k r span = [.jump .ifDone (k.size + r.size + 8) span] ++
      ((emit ⟨.getNext, ()⟩ span ++ define b span ++ k ++ r) ++
        [.jump .back (k.size + r.size + 13) span]) := by
    simp [forInRound, size_pop, size_define, size_jump, Piece.jumpSize, wordWidth, hnext, hadvance]
    omega
  rw [hcode, ← List.append_nil marks]
  refine (Charted.branch (by simp) hs.jumps ?_).append ((hbody.cast ?_).append (.back hs.jumps ?_ ?_))
  · convert hdone using 1
    omega
  · simp [size_jump]
  · simp [size_define, size_jump, hnext]
    omega
  · convert hback using 1
    simp [size_define, size_jump, hnext]
    omega

theorem charted_forTest {test : Option Fragment} {turn : Fragment}
    (ht : ∀ t ∈ test, t.Charted move head E o s s marks) (hnone : test = none → marks = [])
    (hturn : ∀ o', o' + turn.size = o + (forTest test turn span).size →
      turn.Charted move head E o' s s marks')
    (hout : E (o + (forTest test turn span).size + 5) s) :
    (forTest test turn span).Charted move head E o s s (marks ++ marks') := by
  cases test with
  | none =>
    rw [hnone rfl]
    exact hturn o rfl
  | some t =>
    rw [size_forTest_some] at hout hturn
    have hcode : forTest (some t) turn span = t ++ ([.jump .ifFalse (turn.size + 6) span] ++
        (pop span ++ turn)) := by
      simp [forTest, size_pop, Piece.jumpSize, wordWidth]
      omega
    rw [hcode]
    refine (ht t rfl).append ((Charted.branch (by simp) hs.jumps ?_).append ((charted_pop hs).append
      (hturn _ ?_)))
    · convert hout using 1
      omega
    · simp [size_pop, size_jump]
      omega

/-! Whole loops, whose bodies may lead to the head of the loop. -/

theorem charted_while (ht : ∀ E, t.Charted move none E (o + 11) s s marks)
    (hk : ∀ E : Nat → σ → Prop, E (o + 5) s →
      k.Charted move (some (o + 5)) E (o + t.size + 17) s s marks') :
    (loopCode [] (whileRound t k span) span).Charted move none E o s s (marks ++ marks') := by
  rw [← List.nil_append (marks ++ marks')]
  refine charted_loopCode hs .nil (charted_whileRound hs ((ht _).weaken nofun fun _ _ h => h)
    ((hk _ ?_).cast ?_) ?_ ?_)
  · exact .inr ⟨by simp [loopPlaces], rfl⟩
  · rw [size_nil]
    omega
  · exact .inr ⟨by simp [loopPlaces], rfl⟩
  · refine .inr ⟨?_, rfl⟩
    simp only [loopPlaces, size_whileRound, size_nil, List.mem_cons]
    omega

theorem charted_loop (hk : ∀ E : Nat → σ → Prop, E (o + 5) s →
      k.Charted move (some (o + 5)) E (o + 11) s s marks) :
    (loopCode [] (again k span) span).Charted move none E o s s marks := by
  rw [← List.nil_append marks]
  refine charted_loopCode hs .nil (charted_again hs (hk _ ?_) ?_) <;>
    exact .inr ⟨by simp [loopPlaces], rfl⟩

theorem charted_forIn {b : Option Binding}
    (hbody : ∀ E : Nat → σ → Prop, E (o + 5) s →
      (emit ⟨.getNext, ()⟩ span ++ define b span ++ k ++ r).Charted move (some (o + 5)) E
        (o + 17) s s marks) :
    (loopCode (emit ⟨.advance, ()⟩ span) (forInRound b k r span) span).Charted move none E o s s
      marks := by
  have hsize : (emit ⟨.advance, ()⟩ span).size = 1 := rfl
  rw [← List.nil_append marks]
  refine charted_loopCode hs (.emit (hs.act _ rfl) rfl) (charted_forInRound hs ((hbody _ ?_).cast ?_) ?_ ?_ ?_)
  · exact .inr ⟨by simp [loopPlaces], rfl⟩
  · omega
  · refine .inr ⟨?_, rfl⟩
    simp only [loopPlaces, hsize, size_forInRound, List.mem_cons]
    omega
  · omega
  · refine .inr ⟨?_, rfl⟩
    simp only [loopPlaces, hsize, List.mem_cons]
    omega

theorem charted_for {test : Option Fragment} {u turn : Fragment}
    (hu : ∀ E, u.Charted move none E (o + 11) s s marks)
    (ht : ∀ t ∈ test, ∀ E, t.Charted move none E (o + 11 + u.size) s s marks')
    (hnone : test = none → marks' = [])
    (hturn : ∀ o' (E : Nat → σ → Prop), o' + turn.size = o + 11 + u.size +
      (forTest test turn span).size → E (o + 5) s →
        turn.Charted move (some (o + 5)) E o' s s marks'') :
    (loopCode u (forTest test turn span ++ [.jump .back (Piece.jumpSize + (pop span).size + u.size +
      (forTest test turn span).size + Piece.jumpSize) span]) span).Charted move none E o s s
        (marks ++ (marks' ++ marks'')) := by
  have hhead (n m : Nat) : o + 5 ∈ loopPlaces o n m := by simp [loopPlaces]
  rw [← List.append_nil (marks' ++ marks'')]
  refine charted_loopCode hs (hu _) ((charted_forTest hs (fun t h => (ht t h _).weaken nofun
    fun _ _ h => h) hnone (fun o' ho => hturn o' _ ho (.inr ⟨hhead _ _, rfl⟩)) ?_).append (.back hs.jumps ?_ ?_))
  · refine .inr ⟨?_, rfl⟩
    simp only [loopPlaces, size_append, size_cons, size_nil, size_jump,
      List.mem_cons]
    omega
  · simp only [Piece.jumpSize, wordWidth, size_pop]
    omega
  · refine .inr ⟨?_, rfl⟩
    simp only [loopPlaces, Piece.jumpSize, wordWidth, size_pop, List.mem_cons]
    omega

end

end Lowering

end StackScript
