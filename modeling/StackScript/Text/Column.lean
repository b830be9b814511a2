/-!
# Columns

Text is put into a column by filling it up to a width; text that is wider is left as it is.
-/

namespace StackScript.Text

def alignRight (fill : Char) (width : Nat) (s : String) : String :=
  "".pushn fill (width - s.length) ++ s

/-- The text at the left end of a column of blanks. -/
def alignLeft (width : Nat) (s : String) : String := s.pushn ' ' (width - s.length)

end StackScript.Text
