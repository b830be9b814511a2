import StackScript.Proofs.Code.Placement
import StackScript.Proofs.Lowering.Evolution

/-!
# Open ends

Only `break` and `continue` leave open ends in code, and every loop links those of its body. `Gives` says
of a part of the compilation that its code has a property, whatever the context.
-/

namespace StackScript.Lowering

open Fragment

theorem closed_define (b : Option Binding) (span : Span) : (define b span).Closed := by
  rcases b with _ | (_ | _ | _) <;> exact closed_emit _ _

theorem releaseAfter_induction {P : Fragment → Prop} {span : Span} (nil : P [])
    (append : ∀ {f g}, P f → P g → P (f ++ g)) (pop : P (emit ⟨.popLocal, ()⟩ span))
    (popn : ∀ n, P (emit ⟨.popnLocal, n⟩ span)) (close : P (emit ⟨.closeUpvalue, ()⟩ span))
    (run : Nat) (ls : List Local) : P (releaseAfter run span ls) := by
  have hdrop (n : Nat) : P (dropLocals n span) := by
    unfold dropLocals
    split
    · exact nil
    · exact pop
    · exact popn _
  induction ls generalizing run with
  | nil => exact hdrop run
  | cons l ls ih =>
    unfold releaseAfter
    split
    · exact append (append (hdrop run) close) (ih 0)
    · exact ih (run + 1)

theorem closed_releaseAfter (run : Nat) (span : Span) (ls : List Local) :
    (releaseAfter run span ls).Closed :=
  releaseAfter_induction closed_nil .append (closed_emit _ _) (fun _ => closed_emit _ _)
    (closed_emit _ _) run ls

/-- A loop links the open ends of its body. -/
theorem closed_loopCode (first round : Fragment) (span : Span) :
    (loopCode first round span).Closed :=
  ((closed_linkFrom _ _).append (closed_emit _ _)).cons_jump _ _ _

/-! ## What a part of the compilation gives -/

/-- Every outcome has a property. -/
def Gives {α : Type} (P : α → Prop) (x : Lower α) : Prop := ∀ c, P (x c).1

namespace Gives

variable {α β : Type} {P : α → Prop} {Q : β → Prop}

theorem pure {a : α} (h : P a) : Gives P (pure a : Lower α) := fun _ => h

theorem bind {x : Lower α} {f : α → Lower β} (hx : Gives P x) (hf : ∀ a, P a → Gives Q (f a)) :
    Gives Q (x >>= f) := fun c => hf _ (hx c) _

theorem andThen {x : Lower α} {f : α → Lower β} (hf : ∀ a, Gives Q (f a)) : Gives Q (x >>= f) :=
  fun _ => hf _ _

end Gives

theorem gives_closed_function (name self : String) (params : List Ident) (span : Span)
    (body : Lower Fragment) : Gives Closed (function name self params span body) := by
  intro c
  rw [function_eq]
  exact closed_emit _ _

theorem gives_closed_leaveScope (span : Span) : Gives Closed (leaveScope span) :=
  .andThen fun _ => .bind (P := Closed) (fun _ => closed_releaseAfter _ _ _) fun _ h =>
    .andThen fun _ => .pure h

end StackScript.Lowering
