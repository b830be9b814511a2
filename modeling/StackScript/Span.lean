/-!
# Source positions

A span is a region of program text. Syntax carries the span it was read from, and compiled code
carries one span for each of its bytes.
-/

namespace StackScript

/-- A region of program text: the offset of its first byte and its length in bytes. -/
structure Span where
  start : UInt32 := 0
  length : UInt32 := 0
  deriving DecidableEq, Repr, Inhabited

end StackScript
