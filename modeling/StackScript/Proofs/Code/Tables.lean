import StackScript.Proofs.Code.Charts
import StackScript.Proofs.Machine.Effects

/-!
# Tables of code

A table of code marks offsets with states such that every mark stands at an instruction that leads
to marks only. It is what a chart of a fragment becomes once the fragment is written as bytes.
-/

namespace StackScript

section

variable {σ : Type} (move : Moves σ)

/-- What an instruction of any kind does to a state. -/
def Moves.Does (i : Instruction) (s : σ) (u : Option σ) : Prop :=
  if i.op.format = .jump then move.jumps s ∧ u = some s else move.act i s u

/-- The instruction before the offset `next` leads in a state to places of `T` only. -/
def Instruction.Leads (T : Nat → σ → Prop) (next : Nat) (s : σ) (i : Instruction) : Prop :=
  ∃ u, move.Does i s u ∧ ∀ t ∈ u, ∀ ip, Machine.Targets next ip i.op i.args → T ip t

/-- The marks `T` are a table of the code. -/
def Code.Table (code : Code) (T : Nat → σ → Prop) : Prop :=
  ∀ ip s, T ip s → ∃ i next, (∀ chunk : Chunk Value, chunk.code = code →
    Machine.fetch chunk ip = .ok (i, next)) ∧ i.Leads move T next s

/-- What a mark means for code with a table. -/
def Mark.Holds (code : Code) (T : Nat → σ → Prop) : Mark σ → Prop
  | .place x y => ∀ s, T x s → s = y
  | .gate a b => ∀ x s, T x s → x < a ∨ b ≤ x → ∃ i next, (∀ chunk : Chunk Value, chunk.code = code →
      Machine.fetch chunk x = .ok (i, next)) ∧ i.Leads move (fun y _ => y ≤ a ∨ b ≤ y) next s
  | .range a b P => ∀ x s, T x s → a ≤ x → x < b → P x s

end

variable {σ : Type} {move : Moves σ} {T : Nat → σ → Prop}

theorem Machine.targets_of_not_jump {next t : Nat} {i : Instruction} (hi : i.op.format ≠ .jump)
    (h : Targets next t i.op i.args) : t = next := by
  obtain ⟨op, args⟩ := i
  cases op <;> first | exact h | exact absurd rfl hi

/-- What a piece becomes leads where the piece goes. -/
theorem Piece.Goes.leads {p : Piece} {o : Nat} {s : σ} {rest : Fragment} {code : Code}
    (hp : p.Goes move none T o s) (hplaced : Fragment.Placed code o (p :: rest))
    (hmove : ∀ i s u, move.act i s u → i.op.format ≠ .jump ∧ i.op.format.Countable i.args) :
    ∃ i next, (∀ chunk : Chunk Value, chunk.code = code →
      Machine.fetch chunk o = .ok (i, next)) ∧ i.Leads move T next s := by
  cases p with
  | instruction i span =>
    obtain ⟨u, hu, ht⟩ := hp
    obtain ⟨hjump, hcount⟩ := hmove i s u hu
    refine ⟨i, o + i.size, fun chunk hc => Fragment.Placed.fetch (hc ▸ hplaced) hcount, u, ?_, ?_⟩
    · rwa [Moves.Does, if_neg hjump]
    · intro t hmem ip hip
      rw [Machine.targets_of_not_jump hjump hip]
      exact ht t hmem
  | jump b d span =>
    have hd : d.toUInt32.toNat = d := Word.toNat_toUInt32 (hplaced.near b d span (by simp))
    refine ⟨b.instruction d.toUInt32, o + 5, fun chunk hc => (Fragment.Placed.fetch_jump
      (hc ▸ hplaced)).1, some s, ?_, ?_⟩
    · cases b <;> exact ⟨hp.1, rfl⟩
    · rintro _ ⟨⟩ ip hip
      cases b with
      | always =>
        obtain rfl : ip = o + 5 + d.toUInt32.toNat := hip
        rw [hd]
        exact hp.2
      | back =>
        obtain ⟨-, rfl⟩ : d.toUInt32.toNat ≤ o + 5 ∧ ip = o + 5 - d.toUInt32.toNat := hip
        rw [hd]
        exact hp.2.2
      | ifFalse | ifTrue | ifDone =>
        rcases (show ip = o + 5 ∨ ip = o + 5 + d.toUInt32.toNat from hip) with rfl | rfl
        · exact hp.2.1
        · rw [hd]
          exact hp.2.2
  | exit span => obtain ⟨-, _, ⟨⟩, -⟩ := hp
  | landing => cases hp

theorem Piece.Goes.fetch_eq {p : Piece} {o : Nat} {s : σ} {f g : Fragment} {chunk chunk' : Chunk Value}
    (hp : p.Goes move none T o s) (h : Fragment.Placed chunk.code o (p :: f))
    (h' : Fragment.Placed chunk'.code o (p :: g))
    (hmove : ∀ i s u, move.act i s u → i.op.format ≠ .jump ∧ i.op.format.Countable i.args) :
    Machine.fetch chunk' o = Machine.fetch chunk o := by
  cases p with
  | instruction i span =>
    obtain ⟨u, hu, -⟩ := hp
    rw [h.fetch (hmove i s u hu).2, h'.fetch (hmove i s u hu).2]
  | jump b d span => rw [h.fetch_jump.1, h'.fetch_jump.1]
  | exit span => obtain ⟨-, _, ⟨⟩, -⟩ := hp
  | landing => cases hp

/-- Where a piece leads is not a matter of the state. -/
theorem Piece.Goes.transfer {p : Piece} {head : Option Nat} {L : Nat → σ → Prop} {L' : Nat → Prop}
    {o : Nat} {s s' : σ} (h : p.Goes move head L o s) (h' : p.Goes move head (fun x _ => L' x) o s')
    (hends : ∀ i s u s' u', move.act i s u → move.act i s' u' → u' = none → u = none) :
    p.Goes move head (fun x _ => L' x) o s := by
  match p, h, h' with
  | .instruction i _, ⟨u, hu, _⟩, ⟨u', hu', h'⟩ =>
    refine ⟨u, hu, fun t ht => ?_⟩
    cases u' with
    | none =>
      rw [hends i s u s' none hu hu' rfl] at ht
      cases ht
    | some t' => exact h' t' rfl
  | .jump .always _ _, h, h' | .jump .back _ _, h, h' | .jump .ifFalse _ _, h, h'
  | .jump .ifTrue _ _, h, h' | .jump .ifDone _ _, h, h' | .exit _, h, h' => exact ⟨h.1, h'.2⟩

namespace Fragment.Chart

variable {f : Fragment} {s t : σ} {code : Code}

/-- A chart of code that ends in a return is a table. -/
theorem table (h : f.Chart move none (fun _ _ => False) 0 s t T) (hr : f.endsInReturn = true)
    (hplaced : Placed code 0 f)
    (hmove : ∀ i s u, move.act i s u → i.op.format ≠ .jump ∧ i.op.format.Countable i.args) :
    code.Table move T := by
  intro ip s' hT
  rcases h.within ip s' hT with ⟨-, -, he⟩ | ⟨f₁, p, f₂, rfl, rfl, hp⟩
  · rw [hr] at he
    cases he
  · exact (hp.mono (fun _ h => h) fun _ _ h => h.resolve_right id).leads hplaced.right hmove

theorem table_append {i : Instruction} {span : Span}
    (h : f.Chart move none (fun _ _ => False) 0 s t T) (hi : move.act i t none)
    (hplaced : Placed code 0 (f ++ emit i span))
    (hmove : ∀ i s u, move.act i s u → i.op.format ≠ .jump ∧ i.op.format.Countable i.args) :
    code.Table move T := by
  intro ip s' hT
  rcases h.within ip s' hT with ⟨rfl, rfl, -⟩ | ⟨f₁, p, f₂, rfl, rfl, hp⟩
  · exact Piece.Goes.leads (p := .instruction i span) ⟨none, hi, nofun⟩ hplaced.right hmove
  · exact (hp.mono (fun _ h => h) fun _ _ h => h.resolve_right id).leads hplaced.left.right hmove

theorem holds {k : Mark σ} (h : f.Chart move none (fun _ _ => False) 0 s t T)
    (hk : k.Shown move none (fun _ _ => False) 0 f t T) (hplaced : Placed code 0 f)
    (hmove : ∀ i s u, move.act i s u → i.op.format ≠ .jump ∧ i.op.format.Countable i.args)
    (hends : ∀ i s u s' u', move.act i s u → move.act i s' u' → u' = none → u = none)
    (hlast : f.endsInReturn = false → ∀ L : Nat → σ → Prop, ∃ i next,
      (∀ chunk : Chunk Value, chunk.code = code → Machine.fetch chunk f.size = .ok (i, next)) ∧
        i.Leads move L next t) : k.Holds move code T := by
  cases k with
  | place x y =>
    intro s' hs'
    rcases hk with hk | ⟨rfl, rfl⟩
    · exact h.unique _ _ _ hs' hk
    · exact ((h.bounds hs').2.resolve_left (Nat.lt_irrefl _)).2
  | gate a b =>
    intro x s' hs' ho
    rcases h.within x s' hs' with ⟨rfl, rfl, hr⟩ | ⟨f₁, p, f₂, rfl, rfl, hp⟩
    · rw [Nat.zero_add]
      exact hlast hr _
    · obtain ⟨s'', hs''⟩ := hk.2.2 f₁ p f₂ rfl hp.ne_landing ho
      have hgoes := hp.transfer (hs''.mono (fun _ h => h) fun _ _ h => h.resolve_right id) hends
      exact hgoes.leads hplaced.right hmove
  | range a b P => exact hk.2.2

end Fragment.Chart

end StackScript
