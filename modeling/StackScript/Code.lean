import StackScript.Bytes.Word

/-!
# Code bytes

The code of a function is a flat array of bytes. Its only structure, below that of instructions,
is that operands are little-endian words of four bytes.
-/

namespace StackScript

abbrev Code := Array UInt8

namespace Code

/-- The word whose four bytes are given, the lowest first. -/
def word (a b c d : UInt8) : UInt32 :=
  (a.toNat + 256 * (b.toNat + 256 * (c.toNat + 256 * d.toNat))).toUInt32

/-- The word that begins at an offset, if all its bytes are there. -/
def wordAt? (code : Code) (offset : Nat) : Option UInt32 := do
  let a ← code[offset]?
  let b ← code[offset + 1]?
  let c ← code[offset + 2]?
  let d ← code[offset + 3]?
  return word a b c d

/-- The code with a list of bytes written over those from an offset on. -/
def overwrite (code : Code) (offset : Nat) : List UInt8 → Code
  | [] => code
  | b :: bs => overwrite (code.setIfInBounds offset b) (offset + 1) bs

/-- The code with another word at an offset, if a word is there. -/
def patch? (code : Code) (offset : Nat) (n : UInt32) : Option Code :=
  if offset + 4 ≤ code.size then some (code.overwrite offset (Word.bytes32 n)) else none

/-- The word is the value of its bytes. -/
theorem word_eq_ofBytes (a b c d : UInt8) :
    word a b c d = (Word.ofBytes [a, b, c, d]).toUInt32 := by
  simp [word, Word.ofBytes]

end Code

end StackScript
