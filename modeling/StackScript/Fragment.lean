import StackScript.Chunk
import StackScript.Instruction
import StackScript.Program

/-!
# Code under construction

Statements and expressions are compiled to fragments: lists of instructions in which every jump says
how far it goes, so that a fragment does not depend on where it will stand. A forward jump over a
fragment goes as far as the fragment is long; a backward jump to the beginning of a fragment goes as
far as the fragment and the jump itself.

Only the statements that leave the body of a loop cannot know their distance, since they go back to
the head of a loop that is not yet complete. They are written as open ends and `linked` by the loop.
-/

namespace StackScript

/-- A conditional or unconditional jump. -/
inductive Branch where
  | always
  | ifFalse
  | ifTrue
  | ifDone
  | back
  deriving DecidableEq, Repr

def Branch.instruction (b : Branch) (distance : UInt32) : Instruction :=
  match b with
  | .always => ⟨.jump, distance⟩
  | .ifFalse => ⟨.jumpFalse, distance⟩
  | .ifTrue => ⟨.jumpTrue, distance⟩
  | .ifDone => ⟨.jumpHasNoNext, distance⟩
  | .back => ⟨.loop, distance⟩

/-- A piece of code under construction. -/
inductive Piece where
  | instruction (i : Instruction) (span : Span)
  | jump (b : Branch) (distance : Nat) (span : Span)
  | exit (span : Span)
  /-- The end of a conditional statement, where a jump arrives. It takes up no room. -/
  | landing

namespace Piece

def jumpSize : Nat := 1 + wordWidth

def size : Piece → Nat
  | .instruction i _ => i.size
  | .jump .. | .exit _ => jumpSize
  | .landing => 0

def bytes : Piece → List UInt8
  | .instruction i _ => i.bytes
  | .jump b distance _ => (b.instruction distance.toUInt32).bytes
  | .exit _ => (Branch.back.instruction 0).bytes
  | .landing => []

def span : Piece → Span
  | .instruction _ span | .jump _ _ span | .exit span => span
  | .landing => {}

end Piece

abbrev Fragment := List Piece

namespace Fragment

def size (f : Fragment) : Nat := f.foldr (fun p n => p.size + n) 0

@[simp] theorem size_nil : size [] = 0 := rfl

@[simp] theorem size_cons (p : Piece) (f : Fragment) : size (p :: f) = p.size + f.size := rfl

@[simp] theorem size_append (f g : Fragment) : size (f ++ g) = f.size + g.size := by
  induction f with
  | nil => rw [List.nil_append, size_nil, Nat.zero_add]
  | cons p f ih => rw [List.cons_append, size_cons, size_cons, ih, Nat.add_assoc]

def emit (i : Instruction) (span : Span) : Fragment := [.instruction i span]

/-- A jump over a fragment that directly follows it. -/
def skip (b : Branch) (f : Fragment) (span : Span) : Fragment := .jump b f.size span :: f

/-- A fragment that is followed by a jump back to its beginning. -/
def again (f : Fragment) (span : Span) : Fragment :=
  f ++ [.jump .back (f.size + Piece.jumpSize) span]

/-- The fragment with its open ends jumping back to a place that lies `offset` bytes before it. -/
def linkFrom (offset : Nat) : Fragment → Fragment
  | [] => []
  | .exit span :: f =>
    .jump .back (offset + Piece.jumpSize) span :: linkFrom (offset + Piece.jumpSize) f
  | p :: f => p :: linkFrom (offset + p.size) f

/-- The fragment with its open ends jumping back to its beginning. -/
def linked (f : Fragment) : Fragment := linkFrom 0 f

/-- Whether a fragment ends with a return, so that nothing after it is reached. -/
def endsInReturn (f : Fragment) : Bool :=
  match f.getLast? with
  | some (.instruction i _) => i.op == .return || i.op == .returnVoid
  | _ => false

/-- The offset of the operand and the source of the first jump from `offset` on whose distance does
not fit into an operand. -/
def farJump? (offset : Nat) : Fragment → Option (Nat × Span)
  | [] => none
  | .jump b distance span :: f =>
    if distance < 2 ^ 32 then farJump? (offset + (Piece.jump b distance span).size) f
    else some (offset + 1, span)
  | p :: f => farJump? (offset + p.size) f

/-- The chunk with the given name, code and constants. -/
def toChunk {α : Type} (f : Fragment) (name : Option String) (constants : List α) : Chunk α :=
  f.foldl (fun c p => c.append p.bytes p.span) { name, constants }

end Fragment

end StackScript
