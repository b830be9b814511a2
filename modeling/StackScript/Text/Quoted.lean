import StackScript.Text.Printable

/-!
# Quoted text

A quoted text stands between double quotes and shows every character: quotes, backslashes and the
four common controls have an escape of their own, and a character that does not show itself is
written by its code point in hexadecimal. A single quote needs no escape.
-/

namespace StackScript.Text

/-- A natural number in lower-case hexadecimal. -/
def hex (n : Nat) : String := String.ofList (Nat.toDigits 16 n)

/-- A natural number in lower-case hexadecimal, with at least two digits. -/
def hexByte (n : Nat) : String := if n < 16 then "0" ++ hex n else hex n

def quotedChar (c : Char) : String :=
  if c = '\x00' then "\\0"
  else if c = '\t' then "\\t"
  else if c = '\r' then "\\r"
  else if c = '\n' then "\\n"
  else if c = '"' then "\\\""
  else if c = '\\' then "\\\\"
  else if showsItself c then c.toString
  else "\\u\x7b" ++ hex c.toNat ++ "\x7d"

def quoted (s : String) : String := "\"" ++ String.join (s.toList.map quotedChar) ++ "\""

end StackScript.Text
